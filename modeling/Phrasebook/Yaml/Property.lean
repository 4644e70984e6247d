import Phrasebook.Yaml.ScalarText
import Phrasebook.Yaml.Token

namespace Phrasebook.Yaml

abbrev Read := Token × Cursor

def anchorEnds : List Char := ['?', ':', ',', ']', '}', '%', '@', '`']

def anchorName? (c : Cursor) : Option (String × Cursor) :=
  let name := c.rest.takeWhile isWord
  let next := c.skip name.length
  if name.isEmpty || !(isSeparator next.head? || next.head?.any (· ∈ anchorEnds)) then none
  else some (String.ofList name, next)

/-- Reads the handle of a tag. In a directive it is `!` or ends in `!`. -/
def tagHandle? (directive : Bool) (c : Cursor) : Option (List Char × Cursor) :=
  if !c.sees '!' then none
  else
    let word := (c.skip 1).rest.takeWhile isWord
    let next := c.skip (1 + word.length)
    if next.sees '!' then some ('!' :: word ++ ['!'], next.skip 1)
    else if directive && !word.isEmpty then none
    else some ('!' :: word, next)

def uriMarks : List Char :=
  [';', '/', '?', ':', '@', '&', '=', '+', '$', '.', '!', '~', '*', '\'', '(', ')']

/-- The characters that only a whole tag and a lead may hold. -/
def uriFlowMarks : List Char := [',', '[', ']']

/-- The bytes of a tag's text with its percent escapes, and its length in the source. -/
def uriBytes? (whole : Bool) : List Char → Option (List UInt8 × Nat)
  | [] => some ([], 0)
  | '%' :: a :: b :: cs => do
    let n ← natural? 16 [a, b]
    let (bytes, length) ← uriBytes? whole cs
    return (UInt8.ofNat n :: bytes, length + 3)
  | c :: cs =>
    if c == '%' then none
    else if isWord c || c ∈ uriMarks || (whole && c ∈ uriFlowMarks) then do
      let (bytes, length) ← uriBytes? whole cs
      return ((String.ofList [c]).toUTF8.toList ++ bytes, length + 1)
    else some ([], 0)

/-- Reads the text of a tag; `lead` is what of it has been read already. -/
def uri? (whole : Bool) (lead : List Char) (c : Cursor) : Option (String × Cursor) := do
  let (bytes, length) ← uriBytes? whole c.rest
  if lead.isEmpty && length = 0 then none
  let text ← String.fromUTF8? (ByteArray.mk bytes.toArray)
  return (String.ofList (lead.drop 1) ++ text, c.skip length)

/-- Reads a tag: `!<text>`, `!handle!suffix` or `!suffix`. -/
def tag? (flow : Bool) (c : Cursor) : Option Read := do
  let (token, c) ← if c.rest[1]? = some '<' then do
      let (text, c) ← uri? true [] (c.skip 2)
      if !c.sees '>' then none
      pure (Token.tag "" text, c.skip 1)
    else do
      let (handle, next) ← tagHandle? false c
      if 1 < handle.length && handle.getLast? = some '!' then
        let (suffix, c) ← uri? false [] next
        pure (Token.tag (String.ofList handle) suffix, c)
      else
        let (suffix, c) ← uri? false handle next
        pure (if suffix = "" then Token.tag "" "!" else Token.tag "!" suffix, c)
  if isSeparator c.head? || (flow && c.sees ',') then return (token, c) else none

def versionNumber? (c : Cursor) : Option (Nat × Cursor) :=
  let digits := c.rest.takeWhile Char.isDigit
  if digits.isEmpty || 9 < digits.length then none
  else some (digits.foldl (fun n d => 10 * n + (d.toNat - '0'.toNat)) 0, c.skip digits.length)

def directive? (c : Cursor) : Option Read := do
  let c := c.skip 1
  let name := c.rest.takeWhile isWord
  let c := c.skip name.length
  if name.isEmpty || !isSeparator c.head? then none
  let c := c.skipWhile isSpace
  let (token, c) ← if name = "YAML".toList then do
      let (major, c) ← versionNumber? c
      if !c.sees '.' then none
      let (minor, c) ← versionNumber? (c.skip 1)
      pure (Token.versionDirective major minor, c)
    else if name = "TAG".toList then do
      let (handle, c) ← tagHandle? true c
      if !c.head?.any isSpace then none
      let (lead, c) ← uri? true [] (c.skipWhile isSpace)
      if !isSeparator c.head? then none
      pure (Token.tagDirective (String.ofList handle) lead, c)
    else none
  return (token, ← c.finishLine?)

end Phrasebook.Yaml
