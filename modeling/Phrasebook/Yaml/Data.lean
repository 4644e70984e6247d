import Phrasebook.Number.Format

namespace Phrasebook.Yaml

/-- An integer of 64 bits, with a sign or without one. -/
structure WideInt where
  value : Int
  bounds : Int64.minValue.toInt ≤ value ∧ value < UInt64.size
  deriving DecidableEq, Repr

inductive Number
  | int (n : WideInt)
  | float (x : Binary64)
  deriving DecidableEq, Repr

/-- A mapping holds no two equal keys. -/
inductive Data
  | null
  | bool (b : Bool)
  | number (n : Number)
  | string (s : String)
  | sequence (items : List Data)
  | mapping (entries : List (Data × Data))
  | tagged (tag : String) (content : Data)
  deriving Repr, Inhabited

namespace Number

def ofInt? (n : Int) : Option Number :=
  if h : Int64.minValue.toInt ≤ n ∧ n < UInt64.size then some (.int ⟨n, h⟩) else none

def ofInt64 (n : Int64) : Number :=
  .int ⟨n.toInt, Int64.le_toInt n, Int.lt_trans (Int64.toInt_lt n) (by decide)⟩

/-- Numbers of different kinds differ, and every number equals itself. -/
def same : Number → Number → Bool
  | int a, int b => a = b
  | float a, float b => a.isNaN && b.isNaN || a.equal b
  | _, _ => false

def text : Number → String
  | int n => toString n.value
  | float x => NumberStyle.catalog.text x

end Number

def tagName (tag : String) : String :=
  match tag.toList with
  | '!' :: c :: cs => String.ofList (c :: cs)
  | _ => tag

namespace Data

mutual

/-- Whether two data are built alike, which says more than that they are equal as keys. -/
def alike : Data → Data → Bool
  | null, null => true
  | bool a, bool b => a == b
  | number a, number b => a == b
  | string a, string b => a == b
  | sequence as, sequence bs => alikeItems as bs
  | mapping as, mapping bs => alikeEntries as bs
  | tagged s a, tagged t b => s == t && a.alike b
  | _, _ => false

def alikeItems : List Data → List Data → Bool
  | [], [] => true
  | a :: as, b :: bs => a.alike b && alikeItems as bs
  | _, _ => false

def alikeEntries : List (Data × Data) → List (Data × Data) → Bool
  | [], [] => true
  | (k, v) :: es, (l, w) :: bs => k.alike l && v.alike w && alikeEntries es bs
  | _, _ => false

end

mutual

theorem alike_iff : ∀ a b : Data, a.alike b = true ↔ a = b
  | null, b => by cases b <;> simp [alike]
  | bool _, b => by cases b <;> simp [alike]
  | number _, b => by cases b <;> simp [alike]
  | string _, b => by cases b <;> simp [alike]
  | sequence as, b => by cases b <;> simp [alike, alikeItems_iff as]
  | mapping es, b => by cases b <;> simp [alike, alikeEntries_iff es]
  | tagged _ a, b => by cases b <;> simp [alike, alike_iff a]

theorem alikeItems_iff : ∀ as bs : List Data, alikeItems as bs = true ↔ as = bs
  | [], bs => by cases bs <;> simp [alikeItems]
  | a :: as, bs => by cases bs <;> simp [alikeItems, alike_iff a, alikeItems_iff as]

theorem alikeEntries_iff : ∀ es bs : List (Data × Data), alikeEntries es bs = true ↔ es = bs
  | [], bs => by cases bs <;> simp [alikeEntries]
  | (k, v) :: es, bs => by
    cases bs <;> simp [alikeEntries, alike_iff k, alike_iff v, alikeEntries_iff es, Prod.ext_iff]

end

-- The lists inside of data are in the way of a derived instance.
instance : DecidableEq Data := fun a b => decidable_of_iff (a.alike b) (alike_iff a b)

mutual

/-- Equality of keys: a mapping equals every reordering of it. -/
def same : Data → Data → Bool
  | null, null => true
  | bool a, bool b => a == b
  | number a, number b => a.same b
  | string a, string b => a == b
  | sequence as, sequence bs => sameItems as bs
  | mapping as, mapping bs => as.length == bs.length && sameEntries as bs
  | tagged s a, tagged t b => tagName s == tagName t && a.same b
  | _, _ => false

def sameItems : List Data → List Data → Bool
  | [], [] => true
  | a :: as, b :: bs => a.same b && sameItems as bs
  | _, _ => false

def sameEntries : List (Data × Data) → List (Data × Data) → Bool
  | [], _ => true
  | (k, v) :: es, bs => (bs.any fun e => k.same e.1 && v.same e.2) && sameEntries es bs

end

end Data
end Phrasebook.Yaml
