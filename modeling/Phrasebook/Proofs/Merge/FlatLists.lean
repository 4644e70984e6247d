import Phrasebook.Proofs.Merge.Addition

namespace Phrasebook

/-- Puts leaves behind others in turn, each unless a loosely equal one stands there by then. -/
def Scalar.appendNew (xs : List Scalar) : List Scalar → List Scalar
  | [] => xs
  | y :: ys => appendNew (if xs.any (·.looselyEqual y) then xs else xs ++ [y]) ys

theorem Scalar.prefix_appendNew (xs ys : List Scalar) : xs <+: appendNew xs ys := by
  induction ys generalizing xs with
  | nil => exact List.prefix_rfl
  | cons y ys ih =>
    rw [appendNew]
    split
    · exact ih xs
    · exact (List.prefix_append xs [y]).trans (ih _)

namespace Value

variable {k : String} {slot : Value} {xs ys : List Scalar}

theorem keyedFrom_append (i : Nat) (vs ws : List Value) :
    keyedFrom i (vs ++ ws) = keyedFrom i vs ++ keyedFrom (i + vs.length) ws := by
  induction vs generalizing i with
  | nil => rfl
  | cons v vs ih =>
    rw [List.cons_append, keyedFrom_cons, keyedFrom_cons, ih, List.cons_append, List.length_cons,
      Nat.add_right_comm, Nat.add_assoc]

theorem positionKey_length_not_mem (items : List Value) :
    positionKey items.length ∉ Entries.keys (keyedFrom 0 items) := by
  intro hm
  obtain ⟨e, he, hk⟩ := List.mem_map.1 hm
  obtain ⟨j, -, hj, hkj, -⟩ := mem_keyedFrom he
  have := positionKey_inj (hk.symm.trans hkj)
  omega

theorem nextIndex_keyedFrom {items : List Value} (h : items.length < 9223372036854775808) :
    nextIndex (keyedFrom 0 items) = positionKey items.length := by
  have hroom : KeysBelow 9223372036854775807 (keyedFrom 0 items) :=
    (keysBelow_keyedFrom 0 items).mono (by omega)
  obtain ⟨z, -, hz, hbelow, hs⟩ := nextIndex_of_keysBelow hroom
  have hle : z ≤ items.length := by
    rcases hs with rfl | ⟨k, hk, i, hi, rfl⟩
    · omega
    · have := keysBelow_keyedFrom 0 items k hk i hi
      omega
  have hge : (items.length : Int) ≤ z := by
    rcases List.eq_nil_or_concat items with rfl | ⟨init, last, rfl⟩
    · rcases hs with rfl | ⟨k, hk, -⟩
      · exact Int.le_refl 0
      · cases hk
    · rw [List.concat_eq_append] at h hbelow ⊢
      rw [List.length_append, List.length_singleton] at h ⊢
      -- the key of the last item is an integer one below the length
      have hr : int64InRange init.length = true := int64InRange_iff.2 (by omega)
      have hk : integerKey? (positionKey init.length) = some (Int64.ofInt init.length) := by
        rw [positionKey_eq, integerKey?_toString_int hr]
      have hm : positionKey init.length ∈ Entries.keys (keyedFrom 0 (init ++ [last])) := by
        rw [keyedFrom_append, Entries.keys_append, Nat.zero_add]
        exact List.mem_append_right _ List.mem_cons_self
      have hlt := hbelow _ hm _ hk
      rw [toInt_ofInt_of_inRange hr] at hlt
      omega
  rw [hz, positionKey_eq, Int.le_antisymm hle hge]

def leaves (xs : List Scalar) : Value := list (xs.map scalar)

theorem isContainer_of_get?_leaves (h : Entries.get? (leaves xs).entries k = some slot) :
    slot.isContainer = false := by
  obtain ⟨-, -, -, -, hm⟩ := mem_keyedFrom (Entries.mem_of_get? h)
  obtain ⟨s, -, rfl⟩ := List.mem_map.1 hm
  rfl

theorem append_leaves (h : xs.length < 9223372036854775808) (s : Scalar) :
    append (leaves xs).entries s =
      (leaves (if xs.any (·.looselyEqual s) then xs else xs ++ [s])).entries := by
  have hany : (Entries.values (leaves xs).entries).any (looselyEqual · s) =
      xs.any (·.looselyEqual s) := by
    rw [leaves, entries_list, values_keyedFrom, List.any_map]
    rfl
  have hlen : (xs.map scalar).length = xs.length := List.length_map _
  rw [append, hany]
  split
  · rfl
  · rw [leaves, entries_list, nextIndex_keyedFrom (by omega),
      Entries.insert_of_not_mem (positionKey_length_not_mem _), leaves, entries_list,
      List.map_append, keyedFrom_append, Nat.zero_add]
    rfl

theorem mergeEntries_leaves (h : xs.length + ys.length ≤ 9223372036854775808) (i : Nat) :
    mergeEntries (leaves xs).entries (keyedFrom i (ys.map scalar)) =
      (leaves (Scalar.appendNew xs ys)).entries := by
  induction ys generalizing xs i with
  | nil => rfl
  | cons y ys ih =>
    rw [List.length_cons] at h
    rw [List.map_cons, keyedFrom_cons, mergeEntries_cons,
      mergeEntry_item (isNumericKey_positionKey i) fun _ hg => isContainer_of_get?_leaves hg,
      append_leaves (by omega), ih, Scalar.appendNew]
    split
    · omega
    · rw [List.length_append, List.length_singleton]
      omega

/-- Lists of leaves are merged by appending what is new. The two lists together have no more than
`2 ^ 63` items, which is more than memory holds. -/
theorem mergeAll_leaves (h : xs.length + ys.length ≤ 9223372036854775808) :
    (leaves xs).mergeAll [leaves ys] = leaves (Scalar.appendNew xs ys) ∧
      xs <+: Scalar.appendNew xs ys := by
  refine ⟨?_, Scalar.prefix_appendNew xs ys⟩
  rw [mergeAll_singleton, leaves, leaves, merge, mergeItems_eq, toMessages_coerce]
  exact (congrArg normalize (mergeEntries_leaves h 0)).trans (normalize_keyedFrom _)

/-- Leaves that equal one another: those of the first list stay, of the second one only two come. -/
theorem mergeAll_leaves_codes :
    let xs : List Scalar := [.str "1", .str "1", .null]
    let ys : List Scalar := [.int 1, .str "a", .str "", .bool true, .str "A", .str "a"]
    let joined : List Scalar := [.str "1", .str "1", .null, .str "a", .str "A"]
    xs.length + ys.length ≤ 9223372036854775808 ∧
      (leaves xs).mergeAll [leaves ys] = leaves joined ∧ xs <+: joined := by
  intro xs ys joined
  have hl : xs.length + ys.length ≤ 9223372036854775808 := by decide
  have hj : Scalar.appendNew xs ys = joined := by decide
  have hm := mergeAll_leaves hl
  rw [hj] at hm
  exact ⟨hl, hm⟩

end Value
end Phrasebook
