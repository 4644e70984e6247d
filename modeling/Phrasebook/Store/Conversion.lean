import Phrasebook.Merge
import Phrasebook.Yaml.Description

namespace Phrasebook

/-- A mapping key that is itself a collection. -/
structure KeyError where
  key : Yaml.Data
  deriving Repr

def KeyError.message (e : KeyError) : String :=
  "Mapping keys must be scalars, found " ++ e.key.describe

namespace Yaml

/-- Integers beyond 64 bits with a sign become the nearest number with a point. -/
def Number.toScalar : Number → Scalar
  | int n => if int64InRange n.value then .int (Int64.ofInt n.value) else .float (.ofInt n.value)
  | float x => .float x

namespace Data

/-- The text of a mapping key; a null is the empty text. -/
def keyText : Data → Except KeyError String
  | null => .ok ""
  | bool b => .ok (toString b)
  | number n => .ok n.text
  | string s => .ok s
  | tagged _ content => content.keyText
  | sequence items => .error ⟨.sequence items⟩
  | mapping entries => .error ⟨.mapping entries⟩

mutual

/-- Reads data as a catalog value, passing over tags. Of two keys with one text the last value
counts, in the place of the first. -/
def toValue : Data → Except KeyError Value
  | null => .ok .null
  | bool b => .ok (.scalar (.bool b))
  | number n => .ok (.scalar n.toScalar)
  | string s => .ok (.ofString s)
  | sequence items => do return .list (← itemsToValues items)
  | mapping entries => do return .map (← entriesToMessages [] entries)
  | tagged _ content => content.toValue

def itemsToValues : List Data → Except KeyError (List Value)
  | [] => .ok []
  | d :: ds => do
    let v ← d.toValue
    return v :: (← itemsToValues ds)

def entriesToMessages (messages : Messages) : List (Data × Data) → Except KeyError Messages
  | [] => .ok messages
  | (k, v) :: es => do
    let key ← k.keyText
    entriesToMessages (Entries.insert messages key (← v.toValue)) es

end

end Data
end Yaml

def Scalar.toData : Scalar → Yaml.Data
  | null => .null
  | bool b => .bool b
  | int n => .number (.ofInt64 n)
  | float x => .number (.float x)
  | str s => .string s

def keyData (key : String) : Yaml.Data :=
  match integerKey? key with
  | some n => .number (.ofInt64 n)
  | none => .string key

namespace Value

mutual

def toData : Value → Yaml.Data
  | scalar s => s.toData
  | list items => .sequence (itemsToData items)
  | map es => .mapping (entriesToData es)

def itemsToData : List Value → List Yaml.Data
  | [] => []
  | v :: vs => v.toData :: itemsToData vs

def entriesToData : List (String × Value) → List (Yaml.Data × Yaml.Data)
  | [] => []
  | (k, v) :: es => (keyData k, v.toData) :: entriesToData es

end

end Value
end Phrasebook
