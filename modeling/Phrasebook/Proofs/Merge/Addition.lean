import Phrasebook.Proofs.Merge.Step

/-!
A merge of values is a run of steps over the entries of both sides: leaves and lists are read by
position, and only the merge of two maps is sure to be a map.
-/
namespace Phrasebook
namespace Value

variable {b v : Value} {s : Scalar}

/-- The entries that a value adds when it is merged: those of a container, and a leaf as the one
item of a list. -/
def additions : Value → Messages
  | scalar s => [(positionKey 0, scalar s)]
  | v => v.entries

@[simp] theorem additions_scalar (s : Scalar) :
    (scalar s).additions = [(positionKey 0, scalar s)] := rfl

theorem additions_eq_entries (h : v.isContainer = true) : v.additions = v.entries := by
  cases v with
  | scalar s => cases h
  | list items => rfl
  | map es => rfl

@[simp] theorem additions_normalize (es : Messages) : (normalize es).additions = es := by
  have h := isContainer_normalize es
  rw [additions_eq_entries h, ← toMessages_eq_entries h, toMessages_normalize]

theorem Distinct.additions (h : v.Distinct) : Entries.Distinct v.additions := by
  cases v with
  | scalar s => exact List.nodup_cons.2 ⟨List.not_mem_nil, List.nodup_nil⟩
  | list items => exact h.entries
  | map es => exact h.entries

theorem Everywhere.addition {P : Value → Prop} (h : Everywhere P v) {e : String × Value}
    (he : e ∈ v.additions) : Everywhere P e.2 := by
  cases v with
  | scalar s =>
    rw [additions_scalar, List.mem_singleton] at he
    rwa [he]
  | list items => exact h.inside he
  | map es => exact h.inside he

theorem Distinct.addition (h : v.Distinct) {e : String × Value} (he : e ∈ v.additions) :
    e.2.Distinct := by
  cases v with
  | scalar s =>
    rw [additions_scalar, List.mem_singleton] at he
    rwa [he]
  | list items => exact h.below he
  | map es => exact h.below he

theorem get?_additions {k : String} {x : Value} (h : Entries.get? v.additions k = some x) :
    Entries.get? v.entries k = some x ∨
      k = positionKey 0 ∧ x = v ∧ v.isContainer = false := by
  cases v with
  | scalar s =>
    rw [additions_scalar, Entries.get?_cons] at h
    split at h
    · next hk =>
      cases h
      exact .inr ⟨hk.symm, rfl, rfl⟩
    · cases h
  | list items => exact .inl h
  | map es => exact .inl h

theorem append_nil (s : Scalar) : append [] s = [(positionKey 0, scalar s)] := rfl

theorem positionalFrom_keyedFrom (i : Nat) (items : List Value) :
    positionalFrom i (keyedFrom i items) = true := by
  induction items generalizing i with
  | nil => rfl
  | cons v vs ih => rw [keyedFrom_cons, positionalFrom, beq_self_eq_true, Bool.true_and, ih]

theorem normalize_keyedFrom (items : List Value) : normalize (keyedFrom 0 items) = list items := by
  rw [normalize, if_pos (positionalFrom_keyedFrom 0 items), values_keyedFrom]

theorem pushFirst_eq (es : Messages) (s : Scalar) :
    (pushFirst es s).getD (append es s) =
      mergeEntry es (positionKey 0) (scalar s) fun slot => merge slot (scalar s) := by
  have hf : pushFirst es s = (Entries.get? es (positionKey 0)).bind fun slot =>
      if slot.isContainer then some (Entries.insert es (positionKey 0) (slot.push s))
      else none := by
    induction es with
    | nil => rfl
    | cons e es ih =>
      obtain ⟨k, v⟩ := e
      rw [pushFirst, Entries.get?_cons]
      split
      · next hk =>
        rw [Option.bind_some]
        simp only [Entries.insert, hk, ↓reduceIte]
      · next hk =>
        rw [ih]
        cases Entries.get? es (positionKey 0) with
        | none => rfl
        | some slot =>
          rw [Option.bind_some, Option.bind_some]
          split
          · simp only [Entries.insert, hk, ↓reduceIte, Option.map_some]
          · rfl
  rw [hf]
  cases hg : Entries.get? es (positionKey 0) with
  | none =>
    rw [mergeEntry_item (isNumericKey_positionKey 0) (by simp [hg])]
    rfl
  | some slot =>
    rw [Option.bind_some]
    split
    · next hc =>
      rw [mergeEntry_slot hg (.inl hc)]
      rfl
    · next hc =>
      rw [mergeEntry_item (isNumericKey_positionKey 0) (by simpa [hg] using hc)]
      rfl

theorem push_eq (v : Value) (s : Scalar) :
    v.push s = normalize (mergeEntries v.toMessages (scalar s).additions) := by
  have hone (es : Messages) : mergeEntries es (scalar s).additions =
      mergeEntry es (positionKey 0) (scalar s) fun slot => merge slot (scalar s) := rfl
  rw [hone]
  cases v with
  | scalar t =>
    rw [push, mergeEntry_item (isNumericKey_positionKey 0)]
    intro slot hg
    rw [toMessages] at hg
    split at hg
    · cases hg
    · rw [Entries.get?_cons, if_pos rfl] at hg
      cases hg
      rfl
  | list items =>
    rw [push, toMessages]
    cases items with
    | nil =>
      rw [mergeEntry_item (isNumericKey_positionKey 0) (by simp), keyedFrom_nil, append_nil]
      exact (normalize_keyedFrom [scalar s]).symm
    | cons v vs =>
      have hg : Entries.get? (keyedFrom 0 (v :: vs)) (positionKey 0) = some v := by
        rw [keyedFrom_cons, Entries.get?_cons, if_pos rfl]
      rw [pushItems]
      split
      · next hc =>
        rw [mergeEntry_slot hg (.inl hc), keyedFrom_cons, Entries.insert, if_pos rfl]
        exact (normalize_keyedFrom (v.push s :: vs)).symm
      · next hc =>
        rw [mergeEntry_item (isNumericKey_positionKey 0)]
        intro slot hs
        rw [hg] at hs
        cases hs
        simpa using hc
  | map es => rw [push, toMessages, pushFirst_eq]

theorem mergeItems_eq (base : Messages) (i : Nat) (items : List Value) :
    mergeItems base i items = mergeEntries base (keyedFrom i items) := by
  induction items generalizing base i with
  | nil => rfl
  | cons v vs ih => exact ih _ (i + 1)

theorem merge_map_map (bs es : Messages) : merge (map bs) (map es) = map (mergeEntries bs es) := rfl

theorem merge_cases (b v : Value) :
    (∃ bs es, b = map bs ∧ v = map es ∧ merge b v = map (mergeEntries bs es)) ∨
      merge b v = normalize (mergeEntries b.toMessages v.additions) := by
  cases v with
  | scalar s => exact .inr (push_eq b s)
  | list items =>
    right
    rw [merge, mergeItems_eq, toMessages_coerce]
    rfl
  | map es =>
    cases b with
    | map bs => exact .inl ⟨bs, es, rfl, rfl, rfl⟩
    | list items => exact .inr rfl
    | scalar s =>
      right
      rw [← toMessages_coerce]
      rfl

/-- Whatever shape the result has, its entries come from one run of steps. -/
theorem toMessages_merge (b v : Value) :
    (merge b v).toMessages = mergeEntries b.toMessages v.additions := by
  rcases merge_cases b v with ⟨bs, es, rfl, rfl, -⟩ | h
  · rfl
  · rw [h, toMessages_normalize]

@[simp] theorem isContainer_merge (b v : Value) : (merge b v).isContainer = true := by
  rcases merge_cases b v with ⟨bs, es, -, -, h⟩ | h
  · rw [h]
    rfl
  · rw [h, isContainer_normalize]

theorem entries_merge (b v : Value) :
    (merge b v).entries = mergeEntries b.toMessages v.additions := by
  rw [← toMessages_eq_entries (isContainer_merge b v), toMessages_merge]

theorem merge_scalar (s : Scalar) (v : Value) :
    merge (scalar s) v = normalize (mergeEntries (scalar s).toMessages v.additions) := by
  rcases merge_cases (scalar s) v with ⟨bs, es, hb, -, -⟩ | h
  · cases hb
  · exact h

theorem merge_coerce (b v : Value) : merge b.coerce v = merge b v := by
  cases b with
  | scalar s =>
    have hl : ∃ items, (scalar s).coerce = list items := ⟨_, rfl⟩
    obtain ⟨items, hl⟩ := hl
    rcases merge_cases (scalar s).coerce v with ⟨bs, es, hb, -, -⟩ | h
    · rw [hl] at hb
      cases hb
    · rw [h, toMessages_coerce, merge_scalar]
  | list items => rfl
  | map es => rfl

theorem mergeAll_singleton (b v : Value) : b.mergeAll [v] = merge b v :=
  merge_coerce b v

end Value
end Phrasebook
