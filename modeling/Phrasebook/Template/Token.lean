import Phrasebook.Scalar

namespace Phrasebook

inductive TagKind
  | print
  | block
  deriving DecidableEq, Repr

inductive TokenKind
  | text (data : String)
  | tagStart (kind : TagKind)
  | tagEnd (kind : TagKind)
  | name (name : String)
  | number (value : Scalar)
  | str (value : String)
  | operator (symbol : String)
  | punctuation (c : Char)
  | eof
  deriving DecidableEq, Repr

structure Token where
  kind : TokenKind
  line : Nat
  deriving DecidableEq, Repr

namespace TagKind

def opening : TagKind → String
  | print => "\x7b\x7b"
  | block => "\x7b%"

def closing : TagKind → String
  | print => "\x7d\x7d"
  | block => "%\x7d"

def title : TagKind → String
  | print => "variable"
  | block => "block"

end TagKind

namespace TokenKind

def display : TokenKind → String
  | text _ => "text"
  | tagStart kind => kind.opening
  | tagEnd kind => kind.closing
  | name n => n
  | number value => value.display
  | str value => "\"" ++ value ++ "\""
  | operator symbol => symbol
  | punctuation c => String.ofList [c]
  | eof => "end of template"

end TokenKind
end Phrasebook
