import Phrasebook.Catalog

/-!
Merging of catalogs. Named entries are joined by name and the later scalar wins; entries under a
numeric key are list items, which are appended unless a loosely equal one is there. Containers on
either side are merged in depth.
-/
namespace Phrasebook

def isKeyBlank (c : Char) : Bool :=
  c == ' ' || c == '\t' || c == '\n' || c == '\r' || c == '\x0b' || c == '\x0c'

def trimKeyBlanks (cs : List Char) : List Char :=
  ((cs.dropWhile isKeyBlank).reverse.dropWhile isKeyBlank).reverse

def numeralKey? (key : String) : Option Numeral := Numeral.read? (trimKeyBlanks key.toList)

/-- Whether a key stands for a place in a list and not for a name. -/
def isNumericKey (key : String) : Bool := (numeralKey? key).isSome

/-- The integer whose canonical decimal spelling the key is. -/
def integerKey? (key : String) : Option Int64 :=
  (readInt64? key.toList).filter fun n => toString n.toInt == key

inductive Quantity
  | int (n : Int64)
  | float (x : Binary64)
  deriving DecidableEq, Repr

namespace Quantity

def equal : Quantity → Quantity → Bool
  | int a, int b => a == b
  | int a, float b => (Binary64.ofInt a.toInt).equal b
  | float a, int b => (Binary64.ofInt b.toInt).equal a
  | float a, float b => a.equal b

def ofText? (s : String) : Option Quantity :=
  (numeralKey? s).map fun n =>
    match readInt64? (trimKeyBlanks s.toList) with
    | some i => .int i
    | none => .float n.toBinary64

end Quantity

/-- A text against a number: by value when the text is numeric, else by spelling. -/
def textEqualsNumber (s : String) (q : Quantity) (spelling : String) : Bool :=
  match Quantity.ofText? s with
  | some p => p.equal q
  | none => s == spelling

namespace Scalar

/-- Loose equality: booleans compare by truth, numeric texts by value, null with what is empty. -/
def looselyEqual : Scalar → Scalar → Bool
  | bool x, other => x == !other.isEmpty
  | other, bool x => x == !other.isEmpty
  | null, null => true
  | null, str s => s == ""
  | str s, null => s == ""
  | null, int n => (int n).isEmpty
  | int n, null => (int n).isEmpty
  | null, float x => (float x).isEmpty
  | float x, null => (float x).isEmpty
  | str x, str y =>
    match Quantity.ofText? x, Quantity.ofText? y with
    | some p, some q => p.equal q
    | _, _ => x == y
  | str s, int n => textEqualsNumber s (.int n) (int n).display
  | int n, str s => textEqualsNumber s (.int n) (int n).display
  | str s, float x => textEqualsNumber s (.float x) (float x).display
  | float x, str s => textEqualsNumber s (.float x) (float x).display
  | int a, int b => (Quantity.int a).equal (.int b)
  | int a, float b => (Quantity.int a).equal (.float b)
  | float a, int b => (Quantity.float a).equal (.int b)
  | float a, float b => (Quantity.float a).equal (.float b)

/-- Loose equality with a container: null is an empty one, and a boolean says whether it has
entries. -/
def looselyEqualContainer (s : Scalar) (nonEmpty : Bool) : Bool :=
  match s with
  | null => !nonEmpty
  | bool b => b == nonEmpty
  | _ => false

end Scalar

namespace Value

def looselyEqual (existing : Value) (s : Scalar) : Bool :=
  match existing with
  | scalar t => t.looselyEqual s
  | list items => s.looselyEqualContainer !items.isEmpty
  | map es => s.looselyEqualContainer !es.isEmpty

/-- One past the largest integer key, or zero. The sum has 64 bits and wraps around, as in a program
that is built without overflow checks. -/
def nextIndex (es : Messages) : String :=
  match ((Entries.keys es).filterMap fun k => (integerKey? k).map Int64.toInt).max? with
  | some n => toString (Int64.ofInt (n + 1)).toInt
  | none => "0"

def positionalFrom (i : Nat) : Messages → Bool
  | [] => true
  | (k, _) :: es => k == positionKey i && positionalFrom (i + 1) es

/-- A map whose keys are its positions is a list. -/
def normalize (es : Messages) : Value :=
  if positionalFrom 0 es then list (Entries.values es) else map es

/-- Puts a scalar last, unless a loosely equal value is there. -/
def append (es : Messages) (s : Scalar) : Messages :=
  if (Entries.values es).any (looselyEqual · s) then es
  else Entries.insert es (nextIndex es) (scalar s)

mutual

/-- Adds one scalar to a value as a list item. It goes to place zero when a container stands
there, and else to the end. -/
def push : Value → Scalar → Value
  | scalar t, s => normalize (append (toMessages (scalar t)) s)
  | list items, s => pushItems items s
  | map es, s => normalize ((pushFirst es s).getD (append es s))

def pushItems : List Value → Scalar → Value
  | [], s => list [scalar s]
  | v :: vs, s =>
    if v.isContainer then list (v.push s :: vs) else normalize (append (keyedFrom 0 (v :: vs)) s)

def pushFirst : List (String × Value) → Scalar → Option Messages
  | [], _ => none
  | (k, v) :: es, s =>
    if k = positionKey 0 then
      if v.isContainer then some ((k, v.push s) :: es) else none
    else (pushFirst es s).map ((k, v) :: ·)

end

/-- A leaf on the left of a merge becomes a list, an empty leaf the empty list. -/
def coerce : Value → Value
  | scalar s => list (if s.isEmpty then [] else [scalar s])
  | v => v

/-- Merges one entry, with `mergeInto` as the merge of its value into what stands under the key. A
new name is taken over; where either side is a container the two are merged; else a numeric key
appends and a name is set. -/
def mergeEntry (base : Messages) (key : String) (value : Value) (mergeInto : Value → Value) :
    Messages :=
  match Entries.get? base key with
  | none =>
    if !isNumericKey key then Entries.insert base key value
    else match value with
      | scalar s => append base s
      | _ => Entries.insert base key (mergeInto null)
  | some slot =>
    if slot.isContainer then Entries.insert base key (mergeInto slot)
    else match value with
      | scalar s => if isNumericKey key then append base s else Entries.insert base key (scalar s)
      | _ => Entries.insert base key (mergeInto slot)

mutual

/-- Merges an addition into a value. Two maps give a map; any other pair is read by position and
becomes a list again where the keys allow. -/
def merge (base : Value) : Value → Value
  | scalar s => base.push s
  | list items => normalize (mergeItems base.coerce.toMessages 0 items)
  | map es =>
    match base.coerce with
    | map bs => map (mergeEntries bs es)
    | v => normalize (mergeEntries v.toMessages es)

def mergeItems (base : Messages) (i : Nat) : List Value → Messages
  | [] => base
  | v :: vs =>
    mergeItems (mergeEntry base (positionKey i) v fun slot => merge slot v) (i + 1) vs

def mergeEntries (base : Messages) : List (String × Value) → Messages
  | [] => base
  | (k, v) :: es => mergeEntries (mergeEntry base k v fun slot => merge slot v) es

end

def mergeAll (base : Value) (additions : List Value) : Value := additions.foldl merge base.coerce

end Value

namespace Catalog

def mergeAll (base : Catalog) (additions : List Catalog) : Catalog :=
  ofValue (base.toValue.mergeAll (additions.map toValue))

/-- Existing translations replace the placeholders of extracted messages. -/
def reconcile (extracted persisted : Catalog) : Catalog := extracted.mergeAll [persisted]

end Catalog
end Phrasebook
