import Phrasebook.Files.Tree
import Phrasebook.Glob

namespace Phrasebook

structure Found where
  templates : List Path
  warnings : List String

/-- Which files are templates. Names are matched by `patterns`. An ignore is a pattern for the path
from the directory, or else a path that excludes what it leads to. -/
structure Selection where
  patterns : List String
  ignores : List String
  deriving Repr

namespace Selection

def ignorePatterns (s : Selection) : List String := s.ignores.filter isPattern

def ignorePaths (s : Selection) : List Path := (s.ignores.filter (!isPattern ·)).map Path.mk

def isIgnored (s : Selection) (way : Location) : Bool :=
  s.ignorePaths.any (·.components.isPrefixOf way) ||
    (validGlobs s.ignorePatterns).any (·.matchesText (slashed way))

def selects (s : Selection) (way : Location) : Bool :=
  !s.isIgnored way && (validGlobs s.patterns).any (·.matchesText (way.getLastD ""))

def errors (s : Selection) : List (String × GlobError) :=
  globErrors s.patterns ++ globErrors s.ignorePatterns

/-- The ways to the templates below a directory, ordered component by component. -/
def ways (s : Selection) (t : FileTree) (dir : Location) : List Location :=
  ((t.filesBelow dir).filter s.selects).mergeSort Location.le

def templates (s : Selection) (t : FileTree) (dir : Path) : List Path :=
  match t.locate dir with
  | .error _ => []
  | .ok l =>
    if t.entry? l = some .directory then (s.ways t l).map fun way => way.foldl Path.join dir
    else []

def warnings (s : Selection) (t : FileTree) (dir : Path) : List String :=
  s.errors.map (fun e => "Invalid glob pattern '" ++ e.1 ++ "': " ++ e.2.message) ++
    if t.isDirectory dir then [] else ["Views directory does not exist: " ++ dir.text]

/-- Searches below a directory. Only a verbose search says something. -/
def search (s : Selection) (t : FileTree) (dir : Path) (verbose : Bool) : Found where
  templates := s.templates t dir
  warnings := if verbose then s.warnings t dir else []

end Selection
end Phrasebook
