/-!
Glob patterns: `?` is one character, `*` any number of them, `[…]` one of a class and `[!…]` one
outside of it. Two stars stand for whole components of a path, and only where they fill one.
-/
namespace Phrasebook

inductive ClassPart
  | single (c : Char)
  | range (first last : Char)
  deriving DecidableEq, Repr

def ClassPart.holds (c : Char) : ClassPart → Bool
  | single d => c == d
  | range first last => first ≤ c && c ≤ last

inductive GlobPart
  | char (c : Char)
  | anyChar
  | oneOf (parts : List ClassPart)
  | noneOf (parts : List ClassPart)
  | anyText
  | anyComponents
  deriving DecidableEq, Repr

abbrev Glob := List GlobPart

inductive GlobFault
  | tooManyStars
  | partialComponent
  | unclosedClass
  deriving DecidableEq, Repr

def GlobFault.message : GlobFault → String
  | tooManyStars => "wildcards are either regular `*` or recursive `**`"
  | partialComponent => "recursive wildcards must form a single path component"
  | unclosedClass => "invalid range pattern"

structure GlobError where
  position : Nat
  fault : GlobFault
  deriving DecidableEq, Repr

def GlobError.message (e : GlobError) : String :=
  "Pattern syntax error near position " ++ toString e.position ++ ": " ++ e.fault.message

namespace Glob

/-- The parts of a class. Two characters with a hyphen between them are a range. -/
def classParts : List Char → List ClassPart
  | a :: '-' :: b :: cs => .range a b :: classParts cs
  | c :: cs => .single c :: classParts cs
  | [] => []

/-- Splits the text of a class from what follows its bracket. The first character belongs to the
class, whatever it is. -/
def splitClass? : List Char → Option (List Char × List Char)
  | [] => none
  | c :: cs =>
    match cs.dropWhile (· ≠ ']') with
    | [] => none
    | _ :: rest => some (c :: cs.takeWhile (· ≠ ']'), rest)

def takeClass? : List Char → Option (GlobPart × List Char)
  | '!' :: cs => (splitClass? cs).map fun r => (.noneOf (classParts r.1), r.2)
  | cs => (splitClass? cs).map fun r => (.oneOf (classParts r.1), r.2)

/-- Reads stars, of which there are `n` at `position`. Two of them stand behind a slash or at the
start, and before a slash, which belongs to them, or at the end. -/
def takeStars (position n : Nat) (previous : Option Char) (rest : List Char) :
    Except GlobError (GlobPart × List Char) :=
  if 2 < n then .error ⟨position + 2, .tooManyStars⟩
  else if n < 2 then .ok (.anyText, rest)
  else if previous.any (· ≠ '/') then .error ⟨position - 1, .partialComponent⟩
  else match rest with
    | [] => .ok (.anyComponents, [])
    | c :: cs =>
      if c = '/' then .ok (.anyComponents, cs) else .error ⟨position + 2, .partialComponent⟩

def takePart (position : Nat) (previous : Option Char) (c : Char) (cs : List Char) :
    Except GlobError (GlobPart × List Char) :=
  if c = '?' then .ok (.anyChar, cs)
  else if c = '*' then
    takeStars position ((cs.takeWhile (· = '*')).length + 1) previous (cs.dropWhile (· = '*'))
  else if c = '[' then
    match takeClass? cs with
    | some r => .ok r
    | none => .error ⟨position, .unclosedClass⟩
  else .ok (.char c, cs)

def parseFrom : Nat → Nat → Option Char → List Char → Except GlobError Glob
  | _, _, _, [] => .ok []
  | 0, _, _, _ => .ok []
  | fuel + 1, position, previous, c :: cs => do
    let (part, rest) ← takePart position previous c cs
    let read := (c :: cs).take (cs.length + 1 - rest.length)
    return part :: (← parseFrom fuel (position + read.length) read.getLast? rest)

/-- Reads a pattern. Every part takes a character, so that the length of the text is enough fuel. -/
def parse (pattern : String) : Except GlobError Glob :=
  parseFrom pattern.length 0 none pattern.toList

/-- What may be left of a path when whole components have been taken from it. -/
def afterComponents : List Char → List (List Char)
  | [] => []
  | c :: cs => if c = '/' then cs :: afterComponents cs else afterComponents cs

/-- What may be left of a text when any number of characters has been taken from it. -/
def suffixes : List Char → List (List Char)
  | [] => [[]]
  | c :: cs => (c :: cs) :: suffixes cs

def covers : Glob → List Char → Bool
  | [], cs => cs.isEmpty
  | .anyText :: ps, cs => (suffixes cs).any (covers ps)
  | .anyComponents :: ps, cs => (cs :: afterComponents cs ++ [[]]).any (covers ps)
  | .char c :: ps, cs => cs.head? == some c && covers ps cs.tail
  | .anyChar :: ps, cs => !cs.isEmpty && covers ps cs.tail
  | .oneOf parts :: ps, cs => cs.head?.any (fun c => parts.any (·.holds c)) && covers ps cs.tail
  | .noneOf parts :: ps, cs => cs.head?.any (fun c => !parts.any (·.holds c)) && covers ps cs.tail

def matchesText (g : Glob) (text : String) : Bool := covers g text.toList

end Glob

def isPattern (text : String) : Bool := text.toList.any fun c => c = '*' || c = '?'

def validGlobs (patterns : List String) : List Glob :=
  patterns.filterMap fun p => (Glob.parse p).toOption

def globErrors (patterns : List String) : List (String × GlobError) :=
  patterns.filterMap fun p =>
    match Glob.parse p with
    | .ok _ => none
    | .error e => some (p, e)

end Phrasebook
