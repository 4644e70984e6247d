import Phrasebook.Yaml.ScalarLayout

/-!
The written form of data. Collections are blocks, an empty one a pair of brackets. A sequence
stands right under the key that it belongs to, and the first line of a collection joins the dash,
the question mark or the colon in front of it where only such marks stand on the line.
-/
namespace Phrasebook.Yaml

def maxSimpleKeySize : Nat := 128

def endLine (line : List Char) : List Char :=
  if endsWithAny isBreak line then line else line ++ ['\n']

namespace Data

def leafText (indent : Nat) : Data → List Char
  | null => "null".toList
  | bool b => (toString b).toList
  | number n => n.text.toList
  | string s => scalarText indent s
  | _ => []

/-- Whether a key is written in front of its colon: a short text on one line, or brackets. -/
def isSimpleKey : Data → Bool
  | sequence items => items.isEmpty
  | mapping entries => entries.isEmpty
  | string s => !s.toList.any isBreak && s.utf8ByteSize ≤ maxSimpleKeySize
  | tagged tag content =>
    content.isSimpleKey && (tagName tag).utf8ByteSize < maxSimpleKeySize
  | _ => true

/-- What stands around a value in a block of some indentation: whether only marks precede it on
its line, and whether it belongs to a key. -/
structure Surroundings where
  afterMark : Bool
  ofKey : Bool

def opening (s : Surroundings) (indent : Nat) : List Char × List Char :=
  if s.afterMark then ([], [' ']) else (['\n'], spaces indent)

mutual

/-- The value behind a mark or a key in a block that is indented by `indent`, to the end of its
last line. -/
def valueText (indent : Nat) (s : Surroundings) : Data → List Char
  | sequence [] => " []\n".toList
  | mapping [] => " \x7b\x7d\n".toList
  | sequence (d :: ds) =>
    let inner := if s.ofKey && !s.afterMark then indent else indent + 2
    let (before, lead) := opening s inner
    before ++ itemsText inner lead (d :: ds)
  | mapping (e :: es) =>
    let (before, lead) := opening s (indent + 2)
    before ++ entriesText (indent + 2) lead (e :: es)
  | tagged tag content =>
    " !".toList ++ (tagName tag).toList ++ valueText indent { s with afterMark := false } content
  | d => ' ' :: endLine (d.leafText (indent + 2))

def itemsText (indent : Nat) (lead : List Char) : List Data → List Char
  | [] => []
  | d :: ds =>
    lead ++ '-' :: valueText indent ⟨true, false⟩ d ++ itemsText indent (spaces indent) ds

def entriesText (indent : Nat) (lead : List Char) : List (Data × Data) → List Char
  | [] => []
  | (k, v) :: es =>
    let entry :=
      if k.isSimpleKey then
        ((valueText indent ⟨true, true⟩ k).drop 1).dropLast ++
          ':' :: valueText indent ⟨false, true⟩ v
      else
        '?' :: valueText indent ⟨true, true⟩ k ++ spaces indent ++
          ':' :: valueText indent ⟨true, true⟩ v
    lead ++ entry ++ entriesText indent (spaces indent) es

end

def render : Data → String
  | sequence (d :: ds) => String.ofList (itemsText 0 [] (d :: ds))
  | mapping (e :: es) => String.ofList (entriesText 0 [] (e :: es))
  | d => String.ofList ((valueText 0 ⟨false, false⟩ d).drop 1)

end Data
end Phrasebook.Yaml
