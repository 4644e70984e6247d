import Phrasebook.Proofs.Merge.Addition

/-!
Merging a container into a leaf and merging the result again: the entries replay, that is, a merge
puts each of them where it stands.
-/
namespace Phrasebook
namespace Value

variable {es base : Messages} {v w : Value} {s t : Scalar} {k : String} {i : Nat}

/-- Entries that a merge onto nothing takes over one by one as they are. -/
inductive Replays : Messages → Prop
  | nil : Replays []
  | name {es : Messages} {k : String} {v : Value} (h : Replays es) (hk : isNumericKey k = false)
      (hm : k ∉ Entries.keys es) : Replays (es ++ [(k, v)])
  | item {es : Messages} {s : Scalar} (h : Replays es) (hm : nextIndex es ∉ Entries.keys es)
      (hn : (Entries.values es).any (looselyEqual · s) = false) :
      Replays (es ++ [(nextIndex es, scalar s)])
  | container {es : Messages} {k : String} {v : Value} (h : Replays es)
      (hk : isNumericKey k = true) (hm : k ∉ Entries.keys es) (hc : v.isContainer = true)
      (hv : merge null v = v) : Replays (es ++ [(k, v)])

theorem append_of_any (h : (Entries.values es).any (looselyEqual · s) = true) :
    append es s = es := by
  rw [append, if_pos h]

theorem append_of_not_any (h : (Entries.values es).any (looselyEqual · s) = false)
    (hm : nextIndex es ∉ Entries.keys es) : append es s = es ++ [(nextIndex es, scalar s)] := by
  rw [append, h, if_neg (by exact Bool.false_ne_true), Entries.insert_of_not_mem hm]

theorem Replays.mergeEntries (h : Replays es) : mergeEntries [] es = es := by
  induction h with
  | nil => rfl
  | @name es k v h hk hm ih =>
    have hg := (Entries.get?_eq_none_iff es k).2 hm
    rw [mergeEntries_append, ih, mergeEntries_cons, mergeEntries_nil, mergeEntry_new hg hk,
      Entries.insert_of_not_mem hm]
  | @item es s h hm hn ih =>
    have hg := (Entries.get?_eq_none_iff es _).2 hm
    have hs : ∀ slot, Entries.get? es (nextIndex es) = some slot → slot.isContainer = false := by
      simp [hg]
    rw [mergeEntries_append, ih, mergeEntries_cons, mergeEntries_nil,
      mergeEntry_item (isNumericKey_nextIndex es) hs, append_of_not_any hn hm]
  | @container es k v h hk hm hc hv ih =>
    have hg := (Entries.get?_eq_none_iff es k).2 hm
    rw [mergeEntries_append, ih, mergeEntries_cons, mergeEntries_nil, mergeEntry_open hg hk hc, hv,
      Entries.insert_of_not_mem hm]

theorem Replays.mergeEntries_names (h : Replays base) (hd : Entries.Distinct es)
    (hk : ∀ k ∈ Entries.keys es, isNumericKey k = false)
    (hm : ∀ k ∈ Entries.keys es, k ∉ Entries.keys base) :
    Value.mergeEntries base es = base ++ es ∧ Replays (base ++ es) := by
  induction es generalizing base with
  | nil =>
    rw [List.append_nil]
    exact ⟨rfl, h⟩
  | cons e es ih =>
    obtain ⟨k, v⟩ := e
    have hkb := hm k List.mem_cons_self
    have hkn := hk k List.mem_cons_self
    have hg := (Entries.get?_eq_none_iff base k).2 hkb
    rw [mergeEntries_cons, mergeEntry_new hg hkn, Entries.insert_of_not_mem hkb]
    have hr := ih (h.name (v := v) hkn hkb) hd.tail
      (fun k' hk' => hk k' (List.mem_cons_of_mem _ hk'))
    rw [List.append_assoc, List.singleton_append] at hr
    apply hr
    intro k' hk'
    rw [Entries.keys_append, List.mem_append, not_or]
    refine ⟨hm k' (List.mem_cons_of_mem _ hk'), fun h' => ?_⟩
    rw [List.mem_singleton.1 h'] at hk'
    exact hd.head hk'

def Below (i : Nat) (es : Messages) : Prop :=
  ∀ k ∈ Entries.keys es, ∃ n, n < i ∧ k = positionKey n

theorem Below.nil (i : Nat) : Below i [] := by
  intro k hk
  cases hk

theorem Below.mono {j : Nat} (h : Below i es) (hj : i ≤ j) : Below j es := by
  intro k hk
  obtain ⟨n, hn, he⟩ := h k hk
  exact ⟨n, by omega, he⟩

theorem Below.snoc {n : Nat} (h : Below i es) (hn : n < i) (v : Value) :
    Below i (es ++ [(positionKey n, v)]) := by
  intro k hk
  rw [Entries.keys_append, List.mem_append] at hk
  rcases hk with hk | hk
  · exact h k hk
  · exact ⟨n, hn, List.mem_singleton.1 hk⟩

theorem Below.not_mem (h : Below i es) : positionKey i ∉ Entries.keys es := by
  intro hm
  obtain ⟨n, hn, he⟩ := h _ hm
  have := positionKey_inj he
  omega

theorem Below.keysBelow (h : Below i es) : KeysBelow i es := by
  intro k hk j hj
  obtain ⟨n, hn, rfl⟩ := h k hk
  rw [toInt_of_integerKey?_positionKey hj]
  exact Int.ofNat_lt.2 hn

theorem Below.nextIndex (h : Below i es) (hi : i ≤ 9223372036854775807) :
    ∃ n, n ≤ i ∧ nextIndex es = positionKey n := by
  obtain ⟨z, -, hz, -, hs⟩ := nextIndex_of_keysBelow (h.keysBelow.mono (by omega))
  rcases hs with rfl | ⟨k, hk, j, hj, rfl⟩
  · exact ⟨0, Nat.zero_le i, hz.trans (positionKey_eq 0).symm⟩
  · obtain ⟨n, hn, rfl⟩ := h k hk
    rw [toInt_of_integerKey?_positionKey hj] at hz
    exact ⟨n + 1, hn, hz.trans (positionKey_eq (n + 1)).symm⟩

/-- The state of a merge into a leaf before the item at position `i`: the keys are positions before
`i`, but a leaf may already stand at `i` itself, for the item to meet. -/
inductive Climbs (i : Nat) : Messages → Prop
  | below {es : Messages} (hr : Replays es) (hb : Below i es) : Climbs i es
  | top {es : Messages} {t : Scalar} (hr : Replays (es ++ [(positionKey i, scalar t)]))
      (hp : Replays es) (hb : Below i es) : Climbs i (es ++ [(positionKey i, scalar t)])

theorem Climbs.replays (h : Climbs i es) : Replays es := by
  cases h with
  | below hr hb => exact hr
  | top hr hp hb => exact hr

theorem Climbs.below_succ (h : Climbs i es) : Below (i + 1) es := by
  cases h with
  | below hr hb => exact hb.mono (Nat.le_succ i)
  | top hr hp hb => exact (hb.mono (Nat.le_succ i)).snoc (Nat.lt_succ_self i) _

theorem Climbs.slot (h : Climbs i es) {slot : Value}
    (hg : Entries.get? es (positionKey i) = some slot) : slot.isContainer = false := by
  cases h with
  | below hr hb => exact absurd (Entries.mem_keys_of_get? hg) hb.not_mem
  | @top es t hr hp hb =>
    rw [Entries.get?_append, (Entries.get?_eq_none_iff es _).2 hb.not_mem, Option.none_or,
      Entries.get?_cons, if_pos rfl] at hg
    cases hg
    rfl

theorem Climbs.item (h : Climbs i es) (hi : i < 9223372036854775807) (s : Scalar)
    (f : Value → Value) : Climbs (i + 1) (mergeEntry es (positionKey i) (scalar s) f) := by
  rw [mergeEntry_item (isNumericKey_positionKey i) fun _ hg => h.slot hg]
  have hb := h.below_succ
  cases hn : (Entries.values es).any (looselyEqual · s) with
  | true =>
    rw [append_of_any hn]
    exact .below h.replays hb
  | false =>
    have hm : Value.nextIndex es ∉ Entries.keys es :=
      nextIndex_not_mem (hb.keysBelow.mono (by omega))
    have hr := h.replays.item hm hn
    rw [append_of_not_any hn hm]
    obtain ⟨n, hle, he⟩ := hb.nextIndex hi
    rw [he] at hr ⊢
    rcases Nat.lt_or_eq_of_le hle with hlt | rfl
    · exact .below hr (hb.snoc hlt _)
    · exact .top hr h.replays hb

theorem Climbs.container (h : Climbs i es) (hc : v.isContainer = true)
    (hv : ∀ t, merge null (merge (scalar t) v) = merge (scalar t) v) :
    Climbs (i + 1) (mergeEntry es (positionKey i) v fun slot => merge slot v) := by
  have hk := isNumericKey_positionKey i
  cases h with
  | below hr hb =>
    have hg := (Entries.get?_eq_none_iff es _).2 hb.not_mem
    rw [mergeEntry_open hg hk hc, Entries.insert_of_not_mem hb.not_mem]
    exact .below (hr.container hk hb.not_mem (isContainer_merge _ _) (hv .null))
      ((hb.mono (Nat.le_succ i)).snoc (Nat.lt_succ_self i) _)
  | @top es t hr hp hb =>
    have hg : Entries.get? (es ++ [(positionKey i, scalar t)]) (positionKey i) =
        some (scalar t) := by
      rw [Entries.get?_append, (Entries.get?_eq_none_iff es _).2 hb.not_mem, Option.none_or,
        Entries.get?_cons, if_pos rfl]
    rw [mergeEntry_slot hg (.inr hc), Entries.insert_append_cons hb.not_mem]
    exact .below (hp.container hk hb.not_mem (isContainer_merge _ _) (hv t))
      ((hb.mono (Nat.le_succ i)).snoc (Nat.lt_succ_self i) _)

theorem Climbs.items {items : List Value} (h : Climbs i es)
    (hl : i + items.length ≤ 9223372036854775807)
    (hv : ∀ v ∈ items, v.isContainer = true →
      ∀ t, merge null (merge (scalar t) v) = merge (scalar t) v) :
    Replays (mergeEntries es (keyedFrom i items)) := by
  induction items generalizing es i with
  | nil => exact h.replays
  | cons v vs ih =>
    rw [List.length_cons] at hl
    have hvs := fun u hu => hv u (List.mem_cons_of_mem v hu)
    rw [keyedFrom_cons, mergeEntries_cons]
    cases v with
    | scalar s => exact ih (h.item (by omega) s _) (by omega) hvs
    | list items => exact ih (h.container rfl (hv _ List.mem_cons_self rfl)) (by omega) hvs
    | map es => exact ih (h.container rfl (hv _ List.mem_cons_self rfl)) (by omega) hvs

/-- No map has a numeric key, at any depth, and no list has more than `2 ^ 62` items, which is more
than memory holds. -/
def Named (v : Value) : Prop :=
  v.Everywhere fun
    | scalar _ => True
    | list items => items.length ≤ 4611686018427387904
    | map es => ∀ k ∈ Entries.keys es, isNumericKey k = false

theorem toMessages_scalar (hs : s.isEmpty = false) :
    (scalar s).toMessages = [(positionKey 0, scalar s)] := by
  rw [toMessages, hs, if_neg (by exact Bool.false_ne_true)]

theorem toMessages_empty (hs : s.isEmpty = true) : (scalar s).toMessages = [] := by
  rw [toMessages, if_pos hs]

theorem climbs_scalar (s : Scalar) : Climbs 0 (scalar s).toMessages := by
  cases hs : s.isEmpty with
  | true =>
    rw [toMessages_empty hs]
    exact .below .nil (.nil 0)
  | false =>
    have hr : Replays ([] ++ [(positionKey 0, scalar s)]) := .item .nil List.not_mem_nil rfl
    rw [toMessages_scalar hs]
    exact .top hr .nil (.nil 0)

theorem mem_keys_toMessages_scalar (h : k ∈ Entries.keys (scalar s).toMessages) :
    k = positionKey 0 := by
  cases hs : s.isEmpty with
  | true =>
    rw [toMessages_empty hs] at h
    cases h
  | false =>
    rw [toMessages_scalar hs] at h
    exact List.mem_singleton.1 h

theorem merge_null_of_replays
    (h : Replays (mergeEntries (scalar s).toMessages v.additions)) :
    merge null (merge (scalar s) v) = merge (scalar s) v := by
  rw [merge_scalar s v, null, merge_scalar, additions_normalize, toMessages_empty rfl,
    h.mergeEntries]

theorem mergeEntries_scalar_map (hk : ∀ k ∈ Entries.keys es, isNumericKey k = false)
    (hd : Entries.Distinct es) (s : Scalar) :
    mergeEntries (scalar s).toMessages es = (scalar s).toMessages ++ es ∧
      Replays ((scalar s).toMessages ++ es) := by
  apply (climbs_scalar s).replays.mergeEntries_names hd hk
  intro k hm hm'
  have hn := hk k hm
  rw [mem_keys_toMessages_scalar hm', isNumericKey_positionKey] at hn
  cases hn

theorem replays_merge_scalar (hv : v.Named) (hd : v.Distinct) (hc : v.isContainer = true)
    (s : Scalar) : Replays (mergeEntries (scalar s).toMessages v.additions) := by
  induction hv generalizing s with
  | @intro v here below ih =>
    cases v with
    | scalar t => cases hc
    | list items =>
      apply (climbs_scalar s).items
      · have hl : items.length ≤ 4611686018427387904 := here
        omega
      · intro w hw hwc t
        apply merge_null_of_replays
        obtain ⟨e, he, rfl⟩ := exists_mem_keyedFrom 0 hw
        exact ih e he (hd.below he) hwc t
    | map es =>
      obtain ⟨he, hr⟩ := mergeEntries_scalar_map here hd.entries s
      rw [additions_eq_entries rfl, entries_map, he]
      exact hr

theorem head_merge_scalar (hv : v.Named) (hd : v.Distinct) (hc : v.isContainer = true)
    (hs : s.isEmpty = false) :
    ∃ x rest, mergeEntries (scalar s).toMessages v.additions = (positionKey 0, x) :: rest ∧
      (x = scalar s ∨ ∃ e ∈ v.entries, e.2.isContainer = true ∧ x = merge (scalar s) e.2) := by
  cases v with
  | scalar t => cases hc
  | map es =>
    obtain ⟨he, -⟩ := mergeEntries_scalar_map hv.here hd.entries s
    refine ⟨scalar s, es, ?_, .inl rfl⟩
    rw [additions_eq_entries rfl, entries_map, he, toMessages_scalar hs]
    rfl
  | list items =>
    have hl : items.length ≤ 4611686018427387904 := hv.here
    have hr : Room [(positionKey 0, scalar s)] (keyedFrom 0 items) := by
      refine ⟨4611686018427387904, by omega, KeysBelow.toString_int (z := 0) (by omega) _, ?_, ?_⟩
      · exact (keysBelow_keyedFrom 0 items).mono (by omega)
      · rw [length_keyedFrom]
        omega
    have hp := keys_prefix_mergeEntries [(positionKey 0, scalar s)] (keyedFrom 0 items)
    have hg : Entries.get? [(positionKey 0, scalar s)] (positionKey 0) = some (scalar s) := rfl
    have hm := hr.spared (Entries.mem_keys_of_get? hg)
    rw [additions_eq_entries rfl, entries_list, toMessages_scalar hs]
    cases hi : Entries.get? (keyedFrom 0 items) (positionKey 0) with
    | none =>
      have hx := get?_mergeEntries_of_not_mem ((Entries.get?_eq_none_iff _ _).1 hi) hm
      obtain ⟨rest, he⟩ := Entries.eq_cons_of_keys_prefix hp (hx.trans hg)
      exact ⟨scalar s, rest, he, .inl rfl⟩
    | some w =>
      have hx := get?_mergeEntries_of_mem (distinct_keyedFrom 0 items) hm hg hi
      obtain ⟨rest, he⟩ := Entries.eq_cons_of_keys_prefix hp hx
      refine ⟨_, rest, he, ?_⟩
      cases hwc : w.isContainer with
      | false => exact .inl (joined_numeric (isNumericKey_positionKey 0) rfl hwc)
      | true =>
        exact .inr ⟨_, Entries.mem_of_get? hi, hwc, joined_of_isContainer _ (.inr hwc)⟩

/-- Merging the same leaf with the result of such a merge changes nothing. -/
theorem merge_scalar_merge_scalar (hs : s.looselyEqual s = true) (hv : v.Named)
    (hd : v.Distinct) (hc : v.isContainer = true) :
    merge (scalar s) (merge (scalar s) v) = merge (scalar s) v := by
  induction hv with
  | @intro v here below ih =>
    have hv : v.Named := .intro here below
    have hr := (replays_merge_scalar hv hd hc s).mergeEntries
    rw [merge_scalar s v, merge_scalar, additions_normalize]
    cases he : s.isEmpty with
    | true =>
      rw [toMessages_empty he] at hr ⊢
      rw [hr]
    | false =>
      obtain ⟨x, rest, hx, hw⟩ := head_merge_scalar hv hd hc he
      rw [hx] at hr ⊢
      rw [toMessages_scalar he]
      have hk := isNumericKey_positionKey 0
      -- both runs stand at the same entries after their first step
      have hone :
          mergeEntry [(positionKey 0, scalar s)] (positionKey 0) x (fun slot => merge slot x) =
            mergeEntry [] (positionKey 0) x fun slot => merge slot x := by
        rcases hw with rfl | ⟨e, hm, hec, rfl⟩
        · have ha : (Entries.values [(positionKey 0, scalar s)]).any (looselyEqual · s) = true := by
            rw [Entries.values, List.map_singleton, List.any_cons, looselyEqual, hs, Bool.true_or]
          rw [mergeEntry_item hk, mergeEntry_item hk, append_of_any ha, append_nil]
          · intro slot hg
            cases hg
          · intro slot hg
            rw [Entries.get?_cons, if_pos rfl] at hg
            cases hg
            rfl
        · have hxc := isContainer_merge (scalar s) e.2
          have hrw := replays_merge_scalar (below e hm) (hd.below hm) hec s
          have hg : Entries.get? [(positionKey 0, scalar s)] (positionKey 0) =
              some (scalar s) := rfl
          rw [mergeEntry_slot hg (.inr hxc), ih e hm (hd.below hm) hec,
            mergeEntry_open rfl hk hxc, merge_null_of_replays hrw]
          rfl
      rw [mergeEntries_cons, hone]
      rw [mergeEntries_cons] at hr
      rw [hr]

end Value
end Phrasebook
