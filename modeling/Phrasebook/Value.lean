import Phrasebook.Entries
import Phrasebook.Scalar

namespace Phrasebook

inductive Value
  | scalar (s : Scalar)
  | list (items : List Value)
  | map (entries : List (String × Value))
  deriving Repr, Inhabited

/-- The messages of one domain, or of a group inside it. -/
abbrev Messages := Entries Value

def positionKey (i : Nat) : String := toString i

namespace Value

def null : Value := .scalar .null

def ofString (s : String) : Value := .scalar (.str s)

def isContainer : Value → Bool
  | scalar _ => false
  | _ => true

def str? : Value → Option String
  | scalar s => s.str?
  | _ => none

def map? : Value → Option Messages
  | map es => some es
  | _ => none

def keyedFrom (i : Nat) : List Value → Messages
  | [] => []
  | v :: vs => (positionKey i, v) :: keyedFrom (i + 1) vs

/-- Reads any value as a map: a list by position, a leaf as the one item of a list, and an empty
leaf as nothing. -/
def toMessages : Value → Messages
  | map es => es
  | list items => keyedFrom 0 items
  | scalar s => if s.isEmpty then [] else [(positionKey 0, scalar s)]

mutual

/-- Equality of values: scalars by value, maps up to the order of their entries. -/
def equal : Value → Value → Bool
  | scalar a, scalar b => a.equal b
  | list as, list bs => equalItems as bs
  | map as, map bs => as.length == bs.length && equalEntries as bs
  | _, _ => false

def equalItems : List Value → List Value → Bool
  | [], [] => true
  | a :: as, b :: bs => a.equal b && equalItems as bs
  | _, _ => false

def equalEntries : List (String × Value) → Messages → Bool
  | [], _ => true
  | (k, v) :: es, bs =>
    (match Entries.get? bs k with
      | some w => v.equal w
      | none => false) && equalEntries es bs

end

mutual

def Distinct : Value → Prop
  | scalar _ => True
  | list items => DistinctItems items
  | map es => Entries.Distinct es ∧ DistinctEntries es

def DistinctItems : List Value → Prop
  | [] => True
  | v :: vs => v.Distinct ∧ DistinctItems vs

def DistinctEntries : List (String × Value) → Prop
  | [] => True
  | (_, v) :: es => v.Distinct ∧ DistinctEntries es

end

end Value
end Phrasebook
