import Phrasebook.Proofs.Key

namespace Phrasebook

namespace Value

@[simp] theorem keyedFrom_nil (i : Nat) : keyedFrom i [] = [] := rfl

@[simp] theorem keyedFrom_cons (i : Nat) (v : Value) (vs : List Value) :
    keyedFrom i (v :: vs) = (positionKey i, v) :: keyedFrom (i + 1) vs := rfl

@[simp] theorem length_keyedFrom (i : Nat) (items : List Value) :
    (keyedFrom i items).length = items.length := by
  induction items generalizing i with
  | nil => rfl
  | cons v vs ih => rw [keyedFrom_cons, List.length_cons, List.length_cons, ih]

@[simp] theorem values_keyedFrom (i : Nat) (items : List Value) :
    Entries.values (keyedFrom i items) = items := by
  induction items generalizing i with
  | nil => rfl
  | cons v vs ih => exact congrArg (v :: ·) (ih (i + 1))

theorem mem_keyedFrom {i : Nat} {items : List Value} {e : String × Value}
    (h : e ∈ keyedFrom i items) :
    ∃ j, i ≤ j ∧ j < i + items.length ∧ e.1 = positionKey j ∧ e.2 ∈ items := by
  induction items generalizing i with
  | nil => cases h
  | cons v vs ih =>
    rcases List.mem_cons.1 h with rfl | h
    · exact ⟨i, Nat.le_refl i, by simp, rfl, List.mem_cons_self⟩
    · obtain ⟨j, hl, hu, hk, hv⟩ := ih h
      rw [List.length_cons]
      exact ⟨j, by omega, by omega, hk, List.mem_cons_of_mem _ hv⟩

theorem exists_mem_keyedFrom {items : List Value} {v : Value} (i : Nat) (h : v ∈ items) :
    ∃ e ∈ keyedFrom i items, e.2 = v := by
  rw [← values_keyedFrom i items] at h
  exact List.mem_map.1 h

theorem keysBelow_keyedFrom (i : Nat) (items : List Value) :
    KeysBelow (i + items.length : Nat) (keyedFrom i items) := by
  intro k hk n hn
  obtain ⟨e, he, rfl⟩ := List.mem_map.1 hk
  obtain ⟨j, -, hu, hj, -⟩ := mem_keyedFrom he
  rw [hj] at hn
  rw [toInt_of_integerKey?_positionKey hn]
  exact Int.ofNat_lt.2 hu

theorem distinct_keyedFrom (i : Nat) (items : List Value) :
    Entries.Distinct (keyedFrom i items) := by
  induction items generalizing i with
  | nil => exact List.nodup_nil
  | cons v vs ih =>
    apply List.nodup_cons.2 ⟨?_, ih (i + 1)⟩
    intro h
    obtain ⟨e, he, hk⟩ := List.mem_map.1 h
    obtain ⟨j, hl, -, hj, -⟩ := mem_keyedFrom he
    have := positionKey_inj (hj.symm.trans hk)
    omega

theorem keyedFrom_values {i : Nat} {es : Messages} (h : positionalFrom i es = true) :
    keyedFrom i (Entries.values es) = es := by
  induction es generalizing i with
  | nil => rfl
  | cons e es ih =>
    obtain ⟨k, v⟩ := e
    rw [positionalFrom, Bool.and_eq_true, beq_iff_eq] at h
    rw [h.1]
    exact congrArg _ (ih h.2)

@[simp] theorem toMessages_normalize (es : Messages) : (normalize es).toMessages = es := by
  rw [normalize]
  split
  · next h => exact keyedFrom_values h
  · rfl

@[simp] theorem isContainer_normalize (es : Messages) : (normalize es).isContainer = true := by
  rw [normalize]
  split <;> rfl

theorem isContainer_eq_false_iff {v : Value} :
    v.isContainer = false ↔ ∃ s, v = scalar s := by
  cases v <;> simp [isContainer]

/-- The entries of a container; a leaf has none. -/
def entries : Value → Messages
  | scalar _ => []
  | list items => keyedFrom 0 items
  | map es => es

@[simp] theorem entries_scalar (s : Scalar) : (scalar s).entries = [] := rfl

@[simp] theorem entries_list (items : List Value) : (list items).entries = keyedFrom 0 items := rfl

@[simp] theorem entries_map (es : Messages) : (map es).entries = es := rfl

theorem toMessages_eq_entries {v : Value} (h : v.isContainer = true) :
    v.toMessages = v.entries := by
  cases v with
  | scalar s => cases h
  | list items => rfl
  | map es => rfl

@[simp] theorem toMessages_coerce (v : Value) : v.coerce.toMessages = v.toMessages := by
  cases v with
  | scalar s =>
    rw [coerce, toMessages, toMessages]
    split <;> rfl
  | list items => rfl
  | map es => rfl

@[simp] theorem isContainer_coerce (v : Value) : v.coerce.isContainer = true := by
  cases v <;> rfl

def at? (v : Value) : List String → Option Value
  | [] => some v
  | k :: p => (Entries.get? v.entries k).bind fun w => w.at? p

@[simp] theorem at?_nil (v : Value) : v.at? [] = some v := rfl

theorem at?_cons (v : Value) (k : String) (p : List String) :
    v.at? (k :: p) = (Entries.get? v.entries k).bind fun w => w.at? p := rfl

theorem at?_cons_of_get? {v w : Value} {k : String} (h : Entries.get? v.entries k = some w)
    (p : List String) : v.at? (k :: p) = w.at? p := by
  rw [at?_cons, h, Option.bind_some]

theorem at?_cons_eq_some {v w : Value} {k : String} {p : List String}
    (h : v.at? (k :: p) = some w) :
    ∃ u, Entries.get? v.entries k = some u ∧ u.at? p = some w := by
  rw [at?_cons, Option.bind_eq_some_iff] at h
  exact h

inductive Everywhere (P : Value → Prop) : Value → Prop
  | intro {v : Value} (here : P v) (below : ∀ e ∈ v.entries, Everywhere P e.2) : Everywhere P v

theorem Everywhere.here {P : Value → Prop} {v : Value} (h : Everywhere P v) : P v := by
  cases h with
  | intro here below => exact here

theorem Everywhere.inside {P : Value → Prop} {v : Value} (h : Everywhere P v) {e : String × Value}
    (he : e ∈ v.entries) : Everywhere P e.2 := by
  cases h with
  | intro here below => exact below e he

theorem Everywhere.get? {P : Value → Prop} {v w : Value} {k : String} (h : Everywhere P v)
    (hg : Entries.get? v.entries k = some w) : Everywhere P w :=
  h.inside (Entries.mem_of_get? hg)

@[simp] theorem everywhere_scalar {P : Value → Prop} {s : Scalar} :
    Everywhere P (scalar s) ↔ P (scalar s) := by
  constructor
  · exact Everywhere.here
  · intro h
    apply Everywhere.intro h
    intro e he
    cases he

@[simp] theorem everywhere_list {P : Value → Prop} {items : List Value} :
    Everywhere P (list items) ↔ P (list items) ∧ ∀ v ∈ items, Everywhere P v := by
  constructor
  · intro h
    refine ⟨h.here, fun v hv => ?_⟩
    obtain ⟨e, he, rfl⟩ := exists_mem_keyedFrom 0 hv
    exact h.inside he
  · rintro ⟨h, hi⟩
    apply Everywhere.intro h
    intro e he
    obtain ⟨j, -, -, -, hm⟩ := mem_keyedFrom he
    exact hi e.2 hm

@[simp] theorem everywhere_map {P : Value → Prop} {es : Messages} :
    Everywhere P (map es) ↔ P (map es) ∧ ∀ e ∈ es, Everywhere P e.2 := by
  constructor
  · intro h
    exact ⟨h.here, fun e he => h.inside he⟩
  · rintro ⟨h, hi⟩
    exact Everywhere.intro h hi

theorem distinctItems_iff {items : List Value} :
    DistinctItems items ↔ ∀ v ∈ items, v.Distinct := by
  induction items with
  | nil => simp [DistinctItems]
  | cons v vs ih => simp [DistinctItems, ih]

theorem distinctEntries_iff {es : List (String × Value)} :
    DistinctEntries es ↔ ∀ e ∈ es, e.2.Distinct := by
  induction es with
  | nil => simp [DistinctEntries]
  | cons e es ih =>
    obtain ⟨k, v⟩ := e
    simp [DistinctEntries, ih]

theorem Distinct.entries {v : Value} (h : v.Distinct) : Entries.Distinct v.entries := by
  cases v with
  | scalar s => exact List.nodup_nil
  | list items => exact distinct_keyedFrom 0 items
  | map es => exact h.1

theorem Distinct.below {v : Value} (h : v.Distinct) {e : String × Value} (he : e ∈ v.entries) :
    e.2.Distinct := by
  cases v with
  | scalar s => cases he
  | list items =>
    obtain ⟨j, -, -, -, hm⟩ := mem_keyedFrom he
    exact distinctItems_iff.1 h e.2 hm
  | map es => exact distinctEntries_iff.1 h.2 e he

theorem Distinct.at_key {v w : Value} {k : String} (h : v.Distinct)
    (hg : Entries.get? v.entries k = some w) : w.Distinct :=
  h.below (Entries.mem_of_get? hg)

end Value
end Phrasebook
