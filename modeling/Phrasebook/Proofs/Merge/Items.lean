import Phrasebook.Proofs.Loose
import Phrasebook.Proofs.Merge.Preservation

namespace Phrasebook
namespace Value

variable {base es : Messages} {k key : String} {slot v w : Value} {s : Scalar}

theorem sizeOf_lt_of_mem_entries {e : String × Value} (h : e ∈ v.entries) :
    sizeOf e.2 < sizeOf v := by
  cases v with
  | scalar s => cases h
  | list items =>
    obtain ⟨j, -, -, -, hm⟩ := mem_keyedFrom h
    have := List.sizeOf_lt_of_mem hm
    rw [list.sizeOf_spec]
    omega
  | map es =>
    obtain ⟨k, u⟩ := e
    have := List.sizeOf_lt_of_mem (show (k, u) ∈ es from h)
    rw [Prod.mk.sizeOf_spec] at this
    rw [map.sizeOf_spec]
    simp only
    omega

theorem entriesInduction {motive : Value → Prop}
    (step : ∀ v : Value, (∀ e ∈ v.entries, motive e.2) → motive v) (v : Value) : motive v :=
  step v fun e _ => entriesInduction step e.2
termination_by sizeOf v
decreasing_by exact sizeOf_lt_of_mem_entries (by assumption)

/-- A value loosely equal to the leaf stands inside the value, at some depth. -/
inductive Contains (s : Scalar) : Value → Prop
  | item {v : Value} {e : String × Value} (he : e ∈ v.entries)
      (hs : e.2.looselyEqual s = true) : Contains s v
  | inside {v : Value} {e : String × Value} (he : e ∈ v.entries) (hs : Contains s e.2) :
      Contains s v

theorem contains_of_at? {p : List String} (hv : v.at? (k :: p) = some w)
    (hw : w.looselyEqual s = true) : Contains s v := by
  obtain ⟨u, hu, hp⟩ := at?_cons_eq_some hv
  induction p generalizing k u v with
  | nil =>
    cases hp
    exact .item (Entries.mem_of_get? hu) hw
  | cons k' p ih =>
    obtain ⟨u', hu', hp'⟩ := at?_cons_eq_some hp
    exact .inside (Entries.mem_of_get? hu) (ih hp u' hu' hp')

theorem exists_mem_append (es : Messages) (hs : s.isNaN = false) :
    ∃ e ∈ append es s, e.2.looselyEqual s = true := by
  rw [append]
  split
  · next h =>
    obtain ⟨w, hw, hl⟩ := List.any_eq_true.1 h
    obtain ⟨e, he, rfl⟩ := List.mem_map.1 hw
    exact ⟨e, he, hl⟩
  · have hg := Entries.get?_insert_self es (nextIndex es) (scalar s)
    exact ⟨_, Entries.mem_of_get? hg, Scalar.looselyEqual_self hs⟩

/-- After its step an item or an equal one is an entry, or it is inside of the container that stood
under its key. -/
theorem mergeEntry_leaf (hk : isNumericKey k = true) (hs : s.isNaN = false)
    (hc : ∀ slot, Entries.get? es k = some slot → slot.isContainer = true →
      Contains s (merge slot (scalar s))) :
    (∃ e ∈ mergeEntry es k (scalar s) fun slot => merge slot (scalar s),
        e.2.looselyEqual s = true) ∨
      ∃ w, Entries.get? (mergeEntry es k (scalar s) fun slot => merge slot (scalar s)) k = some w ∧
        Contains s w := by
  by_cases h : ∃ slot, Entries.get? es k = some slot ∧ slot.isContainer = true
  · obtain ⟨slot, hg, hslot⟩ := h
    rw [mergeEntry_slot hg (.inl hslot)]
    exact .inr ⟨_, Entries.get?_insert_self _ _ _, hc slot hg hslot⟩
  · have hleaf : ∀ slot, Entries.get? es k = some slot → slot.isContainer = false := by
      intro slot hg
      exact Bool.eq_false_iff.2 fun hslot => h ⟨slot, hg, hslot⟩
    rw [mergeEntry_item hk hleaf]
    exact .inl (exists_mem_append es hs)

theorem contains_merge (hs : s.isNaN = false) (v : Value) : Contains s (merge v (scalar s)) := by
  induction v using entriesInduction with
  | step v ih =>
    have hc : ∀ slot, Entries.get? v.toMessages (positionKey 0) = some slot →
        slot.isContainer = true → Contains s (merge slot (scalar s)) := by
      intro slot hg hslot
      cases hv : v.isContainer with
      | true =>
        rw [toMessages_eq_entries hv] at hg
        exact ih _ (Entries.mem_of_get? hg)
      | false =>
        obtain ⟨t, rfl⟩ := isContainer_eq_false_iff.1 hv
        rw [toMessages] at hg
        split at hg
        · cases hg
        · rw [Entries.get?_cons, if_pos rfl] at hg
          cases hg
          cases hslot
    have he : (merge v (scalar s)).entries =
        mergeEntry v.toMessages (positionKey 0) (scalar s) fun slot => merge slot (scalar s) :=
      entries_merge v (scalar s)
    rcases mergeEntry_leaf (isNumericKey_positionKey 0) hs hc with ⟨e, hm, hl⟩ | ⟨w, hg, hw⟩
    · exact .item (he ▸ hm) hl
    · exact .inside (he ▸ Entries.mem_of_get? hg) hw

theorem looselyEqual_container (hv : v.isContainer = true) (s : Scalar) :
    v.looselyEqual s = s.looselyEqualContainer !v.entries.isEmpty := by
  cases v with
  | scalar t => cases hv
  | list items => cases items <;> rfl
  | map es => rfl

/-- A value is displaced by a leaf that is set under its name, or by anything that is merged into it
while it has nothing to keep: an empty leaf is no item of the list it becomes, and an empty
container does not stay empty. -/
inductive Displaces (key : String) : Value → Value → Prop
  | set (hk : isNumericKey key = false) (t u : Scalar) : Displaces key (scalar t) (scalar u)
  | emptyLeaf {t : Scalar} (ht : t.isEmpty = true) {v : Value} (hv : v.isContainer = true) :
      Displaces key (scalar t) v
  | emptyContainer {slot : Value} (hc : slot.isContainer = true) (he : slot.entries = [])
      (v : Value) : Displaces key slot v

theorem joined_holds (key : String) (hs : slot.looselyEqual s = true) (hf : v.Fits)
    (hd : v.Distinct) :
    Displaces key slot v ∨ (joined key slot v).looselyEqual s = true ∨
      Contains s (joined key slot v) := by
  cases hc : slot.isContainer with
  | true =>
    rw [joined_of_isContainer key (.inl hc)]
    by_cases he : slot.entries = []
    · exact .inl (.emptyContainer hc he v)
    · have hne : (merge slot v).entries ≠ [] := by
        intro hm
        have hp := keys_prefix_mergeEntries slot.toMessages v.additions
        rw [← entries_merge, hm, toMessages_eq_entries hc] at hp
        exact he (List.map_eq_nil_iff.1 (List.prefix_nil.1 hp))
      rw [looselyEqual_container hc, List.isEmpty_eq_false_iff.2 he] at hs
      rw [looselyEqual_container (isContainer_merge slot v), List.isEmpty_eq_false_iff.2 hne]
      exact .inr (.inl hs)
  | false =>
    obtain ⟨t, rfl⟩ := isContainer_eq_false_iff.1 hc
    cases hv : v.isContainer with
    | true =>
      rw [joined_of_isContainer key (.inr hv)]
      cases ht : t.isEmpty with
      | true => exact .inl (.emptyLeaf ht hv)
      | false =>
        obtain ⟨n, hn⟩ := merge_scalar_at? ht hf hd
        exact .inr (.inr (contains_of_at? hn hs))
    | false =>
      obtain ⟨u, rfl⟩ := isContainer_eq_false_iff.1 hv
      cases hk : isNumericKey key with
      | true =>
        rw [joined_numeric hk hc hv]
        exact .inr (.inl hs)
      | false => exact .inl (.set hk t u)

theorem Room.append {xs ys : Messages} (h : Room base (xs ++ ys)) :
    Room (mergeEntries base xs) ys := by
  induction xs generalizing base with
  | nil => exact h
  | cons x xs ih =>
    obtain ⟨k, v⟩ := x
    exact ih h.tail

section Rest

variable {after : Messages}

theorem mergeEntries_kept (hr : Room base after) (hg : Entries.get? base key = some w)
    (hm : key ∉ Entries.keys after) : (key, w) ∈ mergeEntries base after := by
  apply Entries.mem_of_get?
  rw [get?_mergeEntries_of_not_mem hm (hr.spared (Entries.mem_keys_of_get? hg)), hg]

/-- An entry equal to a leaf is still equal or has an equal inside after the remaining entries, or
one of them displaces it. -/
theorem mergeEntries_holds (hr : Room base after) (hd : Entries.Distinct after)
    (hafter : ∀ e ∈ after, e.2.Fits ∧ e.2.Distinct) (hg : Entries.get? base key = some slot)
    (hs : slot.looselyEqual s = true) :
    (∃ v, (key, v) ∈ after ∧ Displaces key slot v) ∨
      ∃ w, (key, w) ∈ mergeEntries base after ∧ (w.looselyEqual s = true ∨ Contains s w) := by
  cases hx : Entries.get? after key with
  | none =>
    have hm := (Entries.get?_eq_none_iff _ _).1 hx
    exact .inr ⟨slot, mergeEntries_kept hr hg hm, .inl hs⟩
  | some v =>
    have hmem := Entries.mem_of_get? hx
    obtain ⟨hf, hvd⟩ := hafter _ hmem
    rcases joined_holds key hs hf hvd with hdis | hj
    · exact .inl ⟨v, hmem, hdis⟩
    · refine .inr ⟨_, Entries.mem_of_get? ?_, hj⟩
      exact get?_mergeEntries_of_mem hd (hr.spared (Entries.mem_keys_of_get? hg)) hg hx

end Rest

/-- A list item of an addition has an equal in the result, unless a later entry of the addition
displaces the equal one that stands in the base behind the turn of the item. -/
theorem mergeAll_items {b a before after : Messages} (hb : (map b).Roomy)
    (hbd : Entries.Distinct b) (ha : (map a).Fits) (had : (map a).Distinct)
    (he : a = before ++ (k, scalar s) :: after) (hk : isNumericKey k = true)
    (hs : s.isNaN = false) :
    Contains s ((map b).mergeAll [map a]) ∨
      ∃ key slot v, Entries.get? (mergeEntries b (before ++ [(k, scalar s)])) key = some slot ∧
        slot.looselyEqual s = true ∧ (key, v) ∈ after ∧ Displaces key slot v := by
  have hsplit : a = (before ++ [(k, scalar s)]) ++ after := by simp [he]
  have hresult : (map b).mergeAll [map a] =
      map (mergeEntries (mergeEntries b (before ++ [(k, scalar s)])) after) := by
    rw [mergeAll_singleton, merge_map_map, hsplit, mergeEntries_append]
  have hroom : Room (mergeEntries b (before ++ [(k, scalar s)])) after := by
    apply Room.append
    rw [← hsplit]
    exact hb.room ha
  have hdist : Entries.Distinct ((k, scalar s) :: after) := by
    have h := had.entries
    rw [entries_map, he, Entries.Distinct, Entries.keys_append] at h
    exact (List.nodup_append.1 h).2.1
  have hafter : ∀ e ∈ after, e.2.Fits ∧ e.2.Distinct := by
    intro e hm
    have hma : e ∈ (map a).entries := hsplit ▸ List.mem_append_right _ hm
    exact ⟨ha.inside hma, had.below hma⟩
  have hturn : (∃ e ∈ mergeEntries b (before ++ [(k, scalar s)]),
      e.2.looselyEqual s = true) ∨
        ∃ w, Entries.get? (mergeEntries b (before ++ [(k, scalar s)])) k = some w ∧
          Contains s w := by
    rw [mergeEntries_append]
    exact mergeEntry_leaf hk hs fun slot _ _ => contains_merge hs slot
  rw [hresult]
  -- An equal entry may be met by a later one; an item inside of a container stays as the key has
  -- had its turn.
  rcases hturn with ⟨⟨key, slot⟩, hm, hl⟩ | ⟨w, hg, hw⟩
  · have hg := (distinct_mergeEntries hbd (before ++ [(k, scalar s)])).get? hm
    rcases mergeEntries_holds hroom hdist.tail hafter hg hl with ⟨v, hv, hdis⟩ | ⟨w, hmem, hw⟩
    · exact .inr ⟨key, slot, v, hg, hl, hv, hdis⟩
    · rcases hw with hw | hw
      · exact .inl (.item hmem hw)
      · exact .inl (.inside hmem hw)
  · exact .inl (.inside (mergeEntries_kept hroom hg hdist.head) hw)

/-- An item that equals a named leaf is left out, and then the leaf is set to something else. -/
theorem mergeAll_items_lost :
    let b : Messages := [("menu", .ofString "1")]
    let a : Messages := [("0", .ofString "1"), ("menu", .ofString "2")]
    (map b).Roomy ∧ Entries.Distinct b ∧ (map a).Fits ∧ (map a).Distinct ∧
      isNumericKey "0" = true ∧ (Scalar.str "1").isNaN = false ∧
      (Contains (.str "1") ((map b).mergeAll [map a]) ∨
        ∃ key slot v, Entries.get? (mergeEntries b [("0", .ofString "1")]) key = some slot ∧
          slot.looselyEqual (.str "1") = true ∧ (key, v) ∈ [("menu", Value.ofString "2")] ∧
          Displaces key slot v) ∧
      ¬Contains (.str "1") ((map b).mergeAll [map a]) := by
  intro b a
  have hb : (map b).Roomy := by
    simp only [b, Roomy, ofString, everywhere_map, everywhere_scalar, List.forall_mem_cons,
      List.not_mem_nil, false_implies, implies_true, and_true]
    decide
  have hbd : Entries.Distinct b := by simp [b, Entries.Distinct, Entries.keys]
  have ha : (map a).Fits := by
    simp only [a, Fits, ofString, everywhere_map, everywhere_scalar, List.forall_mem_cons,
      List.not_mem_nil, false_implies, implies_true, and_true]
    decide
  have had : (map a).Distinct := by
    simp [a, Value.Distinct, DistinctEntries, Entries.Distinct, Entries.keys, ofString]
  have hk : isNumericKey "0" = true := by decide
  have he : a = [] ++ ("0", .ofString "1") :: [("menu", .ofString "2")] := rfl
  refine ⟨hb, hbd, ha, had, hk, rfl, mergeAll_items hb hbd ha had he hk rfl, ?_⟩
  have hr : (map b).mergeAll [map a] = map [("menu", .ofString "2")] := by rfl
  have hne : (Value.ofString "2").looselyEqual (.str "1") = false := by decide
  rw [hr]
  intro h
  cases h with
  | item he hs =>
    obtain rfl := List.mem_singleton.1 he
    cases hne.symm.trans hs
  | inside he hs =>
    obtain rfl := List.mem_singleton.1 he
    cases hs with
    | item he _ => cases he
    | inside he _ => cases he

end Value
end Phrasebook
