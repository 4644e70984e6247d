import Phrasebook.Template.Node
import Phrasebook.Template.Tokens

namespace Phrasebook

/-- The deepest nesting of blocks and expressions. Chains of operators and of filters count one
level for each link. -/
def maxNesting : Nat := 128

inductive ParseError
  | token (e : TokenError)
  | unexpected (found : Token)
  | expected (what : TokenKind) (found : Token)
  | expectedName (found : Token)
  | expectedAttribute (found : Token)
  | unexpectedTag (name : String) (line : Nat)
  | unclosed (closing : List String)
  | tooDeep (line : Nat)
  | mixedTranslation (line : Nat)
  | exhausted
  deriving DecidableEq, Repr

namespace ParseError

def shown (t : Token) : String :=
  TokenError.quoted t.kind.display ++ TokenError.atLine t.line

def message : ParseError → String
  | token e => e.message
  | unexpected t => "Unexpected " ++ shown t
  | expected what t => "Expected " ++ TokenError.quoted what.display ++ " but found " ++ shown t
  | expectedName t => "Expected a name but found " ++ shown t
  | expectedAttribute t => "Expected an attribute name but found " ++ shown t
  | unexpectedTag name line =>
    "Unexpected " ++ TokenError.quoted name ++ " tag" ++ TokenError.atLine line
  | unclosed closing =>
    "Unexpected end of template, expecting " ++
      TokenError.quoted ("\" or \"".intercalate closing)
  | tooDeep line =>
    "Template nesting exceeds the maximum depth of " ++ toString maxNesting ++
      TokenError.atLine line
  | mixedTranslation line =>
    "A message inside a trans tag must be a simple text (trans tag" ++ TokenError.atLine line ++
      ")"
  | exhausted => "The tokens do not end"

end ParseError

/-- What a part of the grammar has read, and the unread tokens. -/
abbrev Reading (α : Type) := α × List Token

/-- The first unread token. A list of tokens ends in an end token, so there always is one. -/
def current (ts : List Token) : Token := ts.headD ⟨.eof, 0⟩

def descend (level : Nat) (ts : List Token) : Except ParseError Nat :=
  if level < maxNesting then .ok (level + 1) else .error (.tooDeep (current ts).line)

def atMark (c : Char) (ts : List Token) : Bool := (current ts).kind == .punctuation c

def atName (name : String) (ts : List Token) : Bool := (current ts).kind == .name name

def expect (kind : TokenKind) (ts : List Token) : Except ParseError (List Token) :=
  if (current ts).kind = kind then .ok ts.tail else .error (.expected kind (current ts))

def expectMark (c : Char) (ts : List Token) : Except ParseError (List Token) :=
  expect (.punctuation c) ts

def expectName : List Token → Except ParseError (Reading String)
  | ⟨.name name, _⟩ :: ts => .ok (name, ts)
  | ts => .error (.expectedName (current ts))

end Phrasebook
