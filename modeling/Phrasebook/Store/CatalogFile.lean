import Phrasebook.Files.Tree
import Phrasebook.Store.Conversion
import Phrasebook.Text.Blank
import Phrasebook.Yaml.Reading

/-!
Catalog files. A file named `domain.locale.yml` or `domain.locale.yaml` holds the messages of one
domain as a mapping; a name that begins with a tilde is a backup and no catalog file.
-/
namespace Phrasebook

def backupMark : String := "~"

/-- The endings of catalog files. The first one is written. -/
def catalogExtensions : List String := ["yml", "yaml"]

def beforeEnd? (ending text : String) : Option String :=
  let cs := text.toList
  let n := cs.length - ending.length
  if cs.drop n = ending.toList then some (String.ofList (cs.take n)) else none

def fileSuffix (locale extension : String) : String := "." ++ locale ++ "." ++ extension

def domainOfFile? (name locale : String) : Option String :=
  if startsWith backupMark name.toList then none
  else catalogExtensions.findSome? fun ext =>
    (beforeEnd? (fileSuffix locale ext) name).filter (· ≠ "")

def isEmptyLine (line : List Char) : Bool :=
  match trim line with
  | [] => true
  | c :: _ => c == '#'

def isEmptyDocument (text : String) : Bool := (splitAt (· == '\n') text.toList).all isEmptyLine

inductive CatalogError
  | unreadable (path : Path) (cause : FileError)
  | malformed (path : Path)
  | noMapping (path : Path)
  | badKey (path : Path) (cause : KeyError)
  deriving Repr

def CatalogError.message : CatalogError → String
  | unreadable path cause => "Failed to read YAML file: " ++ path.text ++ ": " ++ cause.message
  | malformed path => "Failed to parse YAML file: " ++ path.text
  | noMapping path => "Root of YAML file must be a mapping: " ++ path.text
  | badKey path cause => "Invalid catalog in " ++ path.text ++ ": " ++ cause.message

def messagesOfRoot (path : Path) : Yaml.Data → Except CatalogError Messages
  | .null => .ok []
  | .mapping entries => (Yaml.Data.entriesToMessages [] entries).mapError (.badKey path)
  | _ => .error (.noMapping path)

def messagesOfText (path : Path) (text : String) : Except CatalogError Messages :=
  if isEmptyDocument text then .ok []
  else match Yaml.Data.read? text with
    | none => .error (.malformed path)
    | some root => messagesOfRoot path root

def readMessages (t : FileTree) (path : Path) : Except CatalogError Messages :=
  match t.readText path with
  | .error e => .error (.unreadable path e)
  | .ok text => messagesOfText path text

structure Loaded where
  catalog : Catalog := .empty
  files : List Path := []
  deriving Repr

/-- Adds the messages of a further file. Where a domain has two files they are merged. -/
def Loaded.add (l : Loaded) (domain : String) (path : Path) (messages : Messages) : Loaded :=
  let messages := match l.catalog.domain? domain with
    | some known => ((Value.map known).mergeAll [.map messages]).toMessages
    | none => messages
  { catalog := l.catalog.setDomain domain messages, files := l.files ++ [path] }

def loadFiles (t : FileTree) (dir : Path) (locale : String) :
    Loaded → List String → Except CatalogError Loaded
  | l, [] => .ok l
  | l, name :: names =>
    match domainOfFile? name locale with
    | none => loadFiles t dir locale l names
    | some domain => do
      let path := dir.join name
      loadFiles t dir locale (l.add domain path (← readMessages t path)) names

/-- Loads every catalog file of a locale in the order of the file names. A missing directory holds
none. -/
def loadCatalog (t : FileTree) (dir : Path) (locale : String) : Except CatalogError Loaded :=
  match t.locate dir with
  | .error _ => .ok {}
  | .ok l =>
    if t.entry? l = some .directory then
      loadFiles t dir locale {} ((t.fileNames l).mergeSort (· ≤ ·))
    else .ok {}

end Phrasebook
