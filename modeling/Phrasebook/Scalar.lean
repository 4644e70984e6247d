import Phrasebook.Number.Format
import Phrasebook.Number.Numeral

namespace Phrasebook

inductive Scalar
  | null
  | bool (b : Bool)
  | int (n : Int64)
  | float (x : Binary64)
  | str (s : String)
  deriving DecidableEq, Repr

namespace Scalar

def display : Scalar → String
  | null => ""
  | bool b => if b then "true" else "false"
  | int n => toString n.toInt
  | float x => NumberStyle.plain.text x
  | str s => s

/-- What the value contributes as a message or as a domain name. -/
def text? : Scalar → Option String
  | null => none
  | s => some s.display

def str? : Scalar → Option String
  | str s => some s
  | _ => none

/-- Null, `false`, zero, the empty text and the text `0`. -/
def isEmpty : Scalar → Bool
  | null => true
  | bool b => !b
  | int n => n == 0
  | float x => x.isZero
  | str s => s == "" || s == "0"

/-- Equality of catalog values: numbers compare by value across their two kinds. -/
def equal : Scalar → Scalar → Bool
  | null, null => true
  | bool a, bool b => a == b
  | int a, int b => a == b
  | float a, float b => a.equal b
  | int a, float b => (Binary64.ofInt a.toInt).equal b
  | float a, int b => (Binary64.ofInt b.toInt).equal a
  | str a, str b => a == b
  | _, _ => false

end Scalar
end Phrasebook
