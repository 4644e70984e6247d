import Phrasebook.Number.Based
import Phrasebook.Number.Numeral
import Phrasebook.Yaml.Data
import Phrasebook.Yaml.Token

namespace Phrasebook.Yaml

def nullTexts : List String := ["null", "Null", "NULL", "~"]

def bool? (text : String) : Option Bool :=
  if text ∈ ["true", "True", "TRUE"] then some true
  else if text ∈ ["false", "False", "FALSE"] then some false
  else none

/-- Digits that begin with a needless zero are text. -/
def isZeroLed (digits : List Char) : Bool :=
  digits.head? = some '0' && 1 < digits.length && digits.all Char.isDigit

def unsigned? : List Char → Option Nat
  | '0' :: 'x' :: cs => natural? 16 cs
  | '0' :: 'o' :: cs => natural? 8 cs
  | '0' :: 'b' :: cs => natural? 2 cs
  | cs => if isZeroLed cs then none else natural? 10 cs

def integer? (cs : List Char) : Option Int :=
  let (negative, digits) := takeSign cs
  (unsigned? digits).map fun n => if negative then -(n : Int) else n

/-- Reads a number that is no integer. Only infinity may follow a sign among the words, and what
is too large for a number is text. -/
def float? (cs : List Char) : Option Binary64 :=
  let (negative, word) := takeSign cs
  if String.ofList word ∈ [".inf", ".Inf", ".INF"] then some (.infinity negative)
  else if String.ofList cs ∈ [".nan", ".NaN", ".NAN"] then some .nan
  else ((Numeral.read? cs).map Numeral.toBinary64).filter Binary64.isFinite

/-- Whether an integer is too wide for a number and yet refused: it fits into 128 bits. -/
def isRefused (n : Int) : Bool := -(1 <<< 127 : Nat) ≤ n && n < (1 <<< 128 : Nat)

def plainData? (text : String) : Option Data :=
  let cs := text.toList
  let other : Data :=
    if isZeroLed (takeSign cs).2 then .string text
    else match float? cs with
      | some x => .number (.float x)
      | none => .string text
  if text = "" || text ∈ nullTexts then some .null
  else match bool? text, integer? cs with
    | some b, _ => some (.bool b)
    | none, some n =>
      match Number.ofInt? n with
      | some n => some (.number n)
      | none => if isRefused n then none else some other
    | none, none => some other

def standardTag (kind : String) : String := "tag:yaml.org,2002:" ++ kind

/-- What a scalar means under a tag that is not local. -/
def scalarData? (tag : Option String) (text : String) (style : ScalarStyle) : Option Data :=
  match tag with
  | none => if style = .plain then plainData? text else some (.string text)
  | some tag =>
    if tag = standardTag "bool" then (bool? text).map .bool
    else if tag = standardTag "int" then
      ((integer? text.toList).bind Number.ofInt?).map .number
    else if tag = standardTag "float" then (float? text.toList).map (.number ∘ .float)
    else if tag = standardTag "null" then if text ∈ nullTexts then some .null else none
    else some (.string text)

end Phrasebook.Yaml
