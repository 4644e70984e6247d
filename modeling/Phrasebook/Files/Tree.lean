import Phrasebook.Files.Path

namespace Phrasebook

/-- What a file holds: text, or bytes that are none. -/
inductive Content
  | text (s : String)
  | binary (bytes : List UInt8)
  deriving DecidableEq, Repr

namespace Content

def ofBytes (bytes : List UInt8) : Content :=
  match String.fromUTF8? (ByteArray.mk bytes.toArray) with
  | some s => .text s
  | none => .binary bytes

def toBytes : Content → List UInt8
  | text s => s.toUTF8.toList
  | binary bytes => bytes

end Content

inductive FileEntry
  | directory
  | file (content : Content)
  deriving DecidableEq, Repr

/-- The names on the way from the root. -/
abbrev Location := List String

def Location.le : Location → Location → Bool
  | [], _ => true
  | _ :: _, [] => false
  | a :: as, b :: bs => a < b || a = b && Location.le as bs

structure FileTree where
  entries : List (Location × FileEntry)
  /-- Where relative paths begin. -/
  home : Location
  deriving Repr

inductive FileError
  | missing
  | notDirectory
  | isDirectory
  | present
  | nameTooLong
  | zeroByte
  | notText
  | notRegular
  deriving DecidableEq, Repr

def FileError.message : FileError → String
  | missing => "No such file or directory (os error 2)"
  | notDirectory => "Not a directory (os error 20)"
  | isDirectory => "Is a directory (os error 21)"
  | present => "File exists (os error 17)"
  | nameTooLong => "File name too long (os error 36)"
  | zeroByte => "file name contained an unexpected NUL byte"
  | notText => "stream did not contain valid UTF-8"
  | notRegular => "the source path is neither a regular file nor a symlink to a regular file"

def maxNameSize : Nat := 255

namespace FileTree

/-- What stands at a location. The root is a directory. -/
def entry? (t : FileTree) (l : Location) : Option FileEntry :=
  if l = [] then some .directory else t.entries.lookup l

def set (t : FileTree) (l : Location) (e : FileEntry) : FileTree :=
  { t with entries := (l, e) :: t.entries.filter (·.1 ≠ l) }

def addParents (t : FileTree) : Location → Location → FileTree
  | _, [] => t
  | above, name :: names =>
    let t := if (t.entry? above).isSome then t else t.set above .directory
    addParents t (above ++ [name]) names

def place (t : FileTree) (l : Location) (e : FileEntry) : FileTree :=
  let t := t.addParents [] l
  if e = .directory && (t.entry? l).isSome then t else t.set l e

/-- Follows the parts of a path. All but the last must lead to directories. -/
def walk (t : FileTree) : Location → List String → Except FileError Location
  | l, [] => .ok l
  | l, s :: ss =>
    match t.entry? l with
    | none => .error .missing
    | some (.file _) => .error .notDirectory
    | some .directory =>
      if Path.isIdle s then walk t l ss
      else if s = ".." then walk t l.dropLast ss
      else if maxNameSize < s.utf8ByteSize then .error .nameTooLong
      else walk t (l ++ [s]) ss

def start (t : FileTree) (p : Path) : Location × List String :=
  if p.isAbsolute then ([], p.segments.drop 1) else (t.home, p.segments)

/-- The location that a path names, whether or not something stands there. -/
def locate (t : FileTree) (p : Path) : Except FileError Location :=
  if p.text = "" then .error .missing
  else if '\x00' ∈ p.text.toList then .error .zeroByte
  else t.walk (t.start p).1 (t.start p).2

def at? (t : FileTree) (p : Path) : Option FileEntry :=
  match t.locate p with
  | .ok l => t.entry? l
  | .error _ => none

def hasEntry (t : FileTree) (p : Path) : Bool := (t.at? p).isSome

def isDirectory (t : FileTree) (p : Path) : Bool := t.at? p = some .directory

def readText (t : FileTree) (p : Path) : Except FileError String := do
  match t.entry? (← t.locate p) with
  | none => .error .missing
  | some .directory => .error .isDirectory
  | some (.file (.binary _)) => .error .notText
  | some (.file (.text s)) => .ok s

def write (t : FileTree) (p : Path) (c : Content) : Except FileError FileTree := do
  let l ← t.locate p
  if t.entry? l = some .directory then .error .isDirectory else return t.set l (.file c)

def copy (t : FileTree) (source target : Path) : Except FileError FileTree := do
  match t.entry? (← t.locate source) with
  | none => .error .missing
  | some .directory => .error .notRegular
  | some (.file c) => t.write target c

/-- Makes the directories along a path that are missing. Where that is impossible it says why; the
directories made before stay. -/
def makeDirectoriesFrom (t : FileTree) : Location → List String → FileTree × Option FileError
  | l, [] => (t, if t.entry? l = some .directory then none else some .present)
  | l, s :: ss =>
    if t.entry? l ≠ some .directory then
      (t, some (if (s :: ss).all (· = "") then .present else .notDirectory))
    else if Path.isIdle s then makeDirectoriesFrom t l ss
    else if s = ".." then makeDirectoriesFrom t l.dropLast ss
    else if maxNameSize < s.utf8ByteSize then (t, some .nameTooLong)
    else
      let l := l ++ [s]
      let t := if (t.entry? l).isSome then t else t.set l .directory
      makeDirectoriesFrom t l ss

def makeDirectories (t : FileTree) (p : Path) : FileTree × Option FileError :=
  if p.text = "" then (t, none)
  else if '\x00' ∈ p.text.toList then (t, some .zeroByte)
  else t.makeDirectoriesFrom (t.start p).1 (t.start p).2

def fileNames (t : FileTree) (l : Location) : List String :=
  t.entries.filterMap fun e =>
    match e with
    | (at_, .file _) => if at_.dropLast = l then at_.getLast? else none
    | _ => none

def filesBelow (t : FileTree) (l : Location) : List Location :=
  t.entries.filterMap fun e =>
    match e with
    | (at_, .file _) => if l.isPrefixOf at_ && l ≠ at_ then some (at_.drop l.length) else none
    | _ => none

def changes (before after : FileTree) : List (Location × Option Content) :=
  let content? (t : FileTree) (l : Location) : Option Content :=
    match t.entry? l with
    | some (.file c) => some c
    | _ => none
  let written := after.entries.filterMap fun e =>
    match e.2 with
    | .file c => if content? before e.1 = some c then none else some (e.1, some c)
    | .directory => none
  let gone := before.entries.filterMap fun e =>
    match e.2 with
    | .file _ => if (content? after e.1).isSome then none else some (e.1, none)
    | .directory => none
  written ++ gone

end FileTree
end Phrasebook
