namespace Phrasebook

universe u v

/-- Values under text keys, in the order in which the keys came. -/
abbrev Entries (α : Type u) := List (String × α)

namespace Entries

variable {α : Type u} {β : Type v}

def keys (es : Entries α) : List String := es.map Prod.fst

def values (es : Entries α) : List α := es.map Prod.snd

def get? : Entries α → String → Option α
  | [], _ => none
  | (k, v) :: es, key => if k = key then some v else get? es key

def contains (es : Entries α) (key : String) : Bool := (get? es key).isSome

/-- Sets a key where it stands, or last when it is new. -/
def insert : Entries α → String → α → Entries α
  | [], key, v => [(key, v)]
  | (k, w) :: es, key, v => if k = key then (k, v) :: es else (k, w) :: insert es key v

def insertIfAbsent (es : Entries α) (key : String) (v : α) : Entries α :=
  if contains es key then es else insert es key v

def ofList (es : List (String × α)) : Entries α :=
  es.foldl (fun acc e => insert acc e.1 e.2) []

def Distinct (es : Entries α) : Prop := (keys es).Nodup

/-- Equality up to the order of the entries, with values compared by `same`. -/
def sameBy (same : α → α → Bool) (a b : Entries α) : Bool :=
  a.length == b.length && a.all fun e => (get? b e.1).any (same e.2)

@[simp] theorem get?_nil (key : String) : get? ([] : Entries α) key = none := rfl

@[simp] theorem get?_insert_self (es : Entries α) (key : String) (v : α) :
    get? (insert es key v) key = some v := by
  induction es with
  | nil => simp [insert, get?]
  | cons e es ih =>
    obtain ⟨k, w⟩ := e
    by_cases h : k = key <;> simp [insert, get?, h, ih]

theorem get?_insert_of_ne (es : Entries α) {key other : String} (v : α) (h : key ≠ other) :
    get? (insert es key v) other = get? es other := by
  induction es with
  | nil => simp [insert, get?, h]
  | cons e es ih =>
    obtain ⟨k, w⟩ := e
    by_cases hk : k = key
    · subst hk
      simp [insert, get?, h]
    · simp [insert, get?, hk, ih]

theorem get?_eq_none_iff (es : Entries α) (key : String) :
    get? es key = none ↔ key ∉ keys es := by
  induction es with
  | nil => simp [keys]
  | cons e es ih =>
    obtain ⟨k, w⟩ := e
    by_cases hk : k = key
    · simp [get?, keys, hk]
    · simp only [get?, if_neg hk, ih, keys, List.map_cons, List.mem_cons, not_or]
      exact ⟨fun h => ⟨fun e => hk e.symm, h⟩, fun h => h.2⟩

theorem keys_insert (es : Entries α) (key : String) (v : α) :
    keys (insert es key v) = if key ∈ keys es then keys es else keys es ++ [key] := by
  induction es with
  | nil => simp [insert, keys]
  | cons e es ih =>
    obtain ⟨k, w⟩ := e
    by_cases hk : k = key
    · simp [insert, keys, hk]
    · have hk' : ¬ key = k := fun h => hk h.symm
      simp only [keys] at ih
      by_cases hm : key ∈ es.map Prod.fst <;> simp [insert, keys, hk, hk', ih, hm]

end Entries
end Phrasebook
