import Phrasebook.Number.Based

namespace Phrasebook

/-- Numbers stay as they are written. A text that holds half of a surrogate pair is no text, though
it may be written. -/
inductive JsonValue
  | null
  | bool (b : Bool)
  | number (numeral : List Char)
  | text (s : Option String)
  | array (items : List JsonValue)
  | object (members : List (Option String × JsonValue))
  deriving Repr, Inhabited

namespace JsonValue

def ofText (s : String) : JsonValue := .text (some s)

def ofTexts (ss : List String) : JsonValue := .array (ss.map ofText)

def escapes : List (Char × Char) :=
  [('"', '"'), ('\\', '\\'), ('\x08', 'b'), ('\x0c', 'f'), ('\n', 'n'), ('\r', 'r'), ('\t', 't')]

def escapeChar (c : Char) : List Char :=
  match escapes.lookup c with
  | some letter => ['\\', letter]
  | none => if c.toNat < 0x20 then '\\' :: 'u' :: lowerHex 4 c.toNat else [c]

def quote (s : String) : String :=
  "\"" ++ String.ofList (s.toList.flatMap escapeChar) ++ "\""

def lineStart (depth : Nat) : String := "\n" ++ String.ofList (List.replicate (2 * depth) ' ')

mutual

def render (depth : Nat) : JsonValue → String
  | null => "null"
  | bool b => toString b
  | number numeral => String.ofList numeral
  | text s => quote (s.getD "")
  | array items =>
    match renderItems (depth + 1) items with
    | [] => "[]"
    | lines => "[" ++ String.intercalate "," lines ++ lineStart depth ++ "]"
  | object members =>
    match renderMembers (depth + 1) members with
    | [] => "\x7b\x7d"
    | lines => "\x7b" ++ String.intercalate "," lines ++ lineStart depth ++ "\x7d"

def renderItems (depth : Nat) : List JsonValue → List String
  | [] => []
  | v :: vs => (lineStart depth ++ v.render depth) :: renderItems depth vs

def renderMembers (depth : Nat) : List (Option String × JsonValue) → List String
  | [] => []
  | (key, v) :: ms =>
    (lineStart depth ++ quote (key.getD "") ++ ": " ++ v.render depth) :: renderMembers depth ms

end

end JsonValue
end Phrasebook
