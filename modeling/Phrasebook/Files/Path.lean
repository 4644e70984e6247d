import Phrasebook.Text.Split

/-!
Paths as they are written. A path keeps its spelling, which messages show; its components are what
two paths are compared by.
-/
namespace Phrasebook

structure Path where
  text : String
  deriving DecidableEq, Repr, Inhabited

def slashed (names : List String) : String := String.intercalate "/" names

namespace Path

def segments (p : Path) : List String := (splitAt (· == '/') p.text.toList).map String.ofList

def isAbsolute (p : Path) : Bool := p.text.toList.head? = some '/'

/-- The path of something inside a directory. An absolute path stands for itself. -/
def join (p : Path) (inner : String) : Path :=
  if (Path.mk inner).isAbsolute then ⟨inner⟩
  else if p.text = "" || p.text.toList.getLast? = some '/' then ⟨p.text ++ inner⟩
  else ⟨p.text ++ "/" ++ inner⟩

/-- Whether a part of a path leads nowhere. -/
def isIdle (s : String) : Bool := s = "" || s = "."

/-- The components of a path: idle parts are left out, but the root and a point in front count. -/
def components (p : Path) : List String :=
  let inner := (p.segments.drop 1).filter (!isIdle ·)
  match p.segments.head? with
  | some "" => if p.isAbsolute then "/" :: inner else inner
  | some first => first :: inner
  | none => []

def trimmed : List String → List String
  | [] => []
  | first :: rest => first :: (rest.reverse.dropWhile isIdle).reverse

/-- The path without its last component, if it has one. The empty path is the parent of a single
name. -/
def parent? (p : Path) : Option Path :=
  match trimmed p.segments with
  | [] => none
  | [s] => if s = "" then none else some ⟨""⟩
  | segments =>
    let above := trimmed segments.dropLast
    some (if above = [""] then ⟨"/"⟩ else ⟨slashed above⟩)

end Path
end Phrasebook
