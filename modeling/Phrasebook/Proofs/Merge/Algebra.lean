import Phrasebook.Proofs.Merge.Stability

namespace Phrasebook
namespace Value

variable {a b c base es : Messages} {k : String} {v w x y z : Value}

/-- Leaves, and maps with names for keys: no list and no numeric key at any depth. -/
def NamedTree (v : Value) : Prop :=
  v.Everywhere fun
    | scalar _ => True
    | list _ => False
    | map es => ∀ k ∈ Entries.keys es, isNumericKey k = false

theorem NamedTree.exists_map (h : v.NamedTree) (hc : v.isContainer = true) :
    ∃ es, v = map es ∧ ∀ k ∈ Entries.keys es, isNumericKey k = false := by
  have hv := h.here
  cases v with
  | scalar s => cases hc
  | list items => cases hv
  | map es => exact ⟨es, rfl, hv⟩

/-- At every path that two values have in common both hold a leaf, or neither does. -/
def Compatible (v w : Value) : Prop :=
  ∀ p x y, v.at? p = some x → w.at? p = some y → x.isContainer = y.isContainer

theorem Compatible.isContainer_eq (h : Compatible v w) : v.isContainer = w.isContainer :=
  h [] v w rfl rfl

theorem Compatible.get? (h : Compatible v w) (hv : Entries.get? v.entries k = some x)
    (hw : Entries.get? w.entries k = some y) : Compatible x y := by
  intro p x' y' hx hy
  apply h (k :: p)
  · rw [at?_cons_of_get? hv, hx]
  · rw [at?_cons_of_get? hw, hy]

theorem Compatible.of_entries (hc : v.isContainer = w.isContainer)
    (h : ∀ e ∈ v.entries, ∀ y, Entries.get? w.entries e.1 = some y → Compatible e.2 y) :
    Compatible v w := by
  intro p x y hx hy
  cases p with
  | nil =>
    cases hx
    cases hy
    exact hc
  | cons k p =>
    obtain ⟨x', hgx, hx⟩ := at?_cons_eq_some hx
    obtain ⟨y', hgy, hy⟩ := at?_cons_eq_some hy
    exact h _ (Entries.mem_of_get? hgx) y' hgy p x y hx hy

theorem compatible_scalar (s t : Scalar) : Compatible (scalar s) (scalar t) :=
  .of_entries rfl fun _ he => nomatch he

theorem keys_mergeEntries_names (hd : Entries.Distinct es)
    (hk : ∀ k ∈ Entries.keys es, isNumericKey k = false) (base : Messages) :
    Entries.keys (mergeEntries base es) =
      Entries.keys base ++ (Entries.keys es).filter fun k => !Entries.contains base k := by
  rw [mergeEntries_names hd hk, Entries.keys_insertAll (hd.mapValues _), Entries.keys_mapValues]

theorem get?_mergeEntries_names (hd : Entries.Distinct es)
    (hk : ∀ k ∈ Entries.keys es, isNumericKey k = false) (base : Messages) (k : String) :
    Entries.get? (mergeEntries base es) k =
      ((Entries.get? es k).map (taken base k)).or (Entries.get? base k) := by
  rw [mergeEntries_names hd hk, Entries.get?_insertAll (hd.mapValues _), Entries.get?_mapValues]

theorem contains_mergeEntries_names (hd : Entries.Distinct es)
    (hk : ∀ k ∈ Entries.keys es, isNumericKey k = false) (base : Messages) (k : String) :
    Entries.contains (mergeEntries base es) k =
      (Entries.contains base k || Entries.contains es k) := by
  rw [Entries.contains, get?_mergeEntries_names hd hk, Option.isSome_or, Option.isSome_map,
    Bool.or_comm]
  rfl

theorem isNumericKey_of_mem_mergeEntries (hd : Entries.Distinct es)
    (hb : ∀ k ∈ Entries.keys base, isNumericKey k = false)
    (hk : ∀ k ∈ Entries.keys es, isNumericKey k = false) :
    ∀ k ∈ Entries.keys (mergeEntries base es), isNumericKey k = false := by
  intro k hm
  rw [keys_mergeEntries_names hd hk, List.mem_append, List.mem_filter] at hm
  exact hm.elim (hb k) fun hm => hk k hm.1

theorem keys_mergeEntries_assoc (hda : Entries.Distinct a) (hdb : Entries.Distinct b)
    (ha : ∀ k ∈ Entries.keys a, isNumericKey k = false)
    (hb : ∀ k ∈ Entries.keys b, isNumericKey k = false) (base : Messages) :
    Entries.keys (mergeEntries (mergeEntries base a) b) =
      Entries.keys (mergeEntries base (mergeEntries a b)) := by
  have hab := isNumericKey_of_mem_mergeEntries hdb ha hb
  rw [keys_mergeEntries_names hdb hb, keys_mergeEntries_names hda ha,
    keys_mergeEntries_names (distinct_mergeEntries hda b) hab, keys_mergeEntries_names hdb hb,
    List.filter_append, List.filter_filter, List.append_assoc]
  simp only [contains_mergeEntries_names hda ha, Bool.not_or]

theorem joined_joined (hk : isNumericKey k = false) (hxy : x.isContainer = y.isContainer)
    (hyz : y.isContainer = z.isContainer)
    (hm : y.isContainer = true → merge (merge x y) z = merge x (merge y z)) :
    joined k (joined k x y) z = joined k x (joined k y z) := by
  cases hy : y.isContainer with
  | false =>
    rw [hy] at hxy hyz
    rw [joined_name hk hxy hy, joined_name hk hy hyz.symm, joined_name hk hxy hyz.symm]
  | true =>
    rw [joined_of_isContainer k (.inr hy), joined_of_isContainer k (.inl hy),
      joined_of_isContainer k (.inl (isContainer_merge x y)),
      joined_of_isContainer k (.inr (isContainer_merge y z)), hm hy]

/-- What stands under a key does not depend on the grouping, if this holds of the three values that
the sides have there. -/
theorem get?_mergeEntries_assoc (hda : Entries.Distinct a) (hdb : Entries.Distinct b)
    (ha : ∀ k ∈ Entries.keys a, isNumericKey k = false)
    (hb : ∀ k ∈ Entries.keys b, isNumericKey k = false)
    (hj : ∀ x y z, Entries.get? base k = some x → Entries.get? a k = some y →
      Entries.get? b k = some z → joined k (joined k x y) z = joined k x (joined k y z)) :
    Entries.get? (mergeEntries (mergeEntries base a) b) k =
      Entries.get? (mergeEntries base (mergeEntries a b)) k := by
  have hab := isNumericKey_of_mem_mergeEntries hdb ha hb
  rw [get?_mergeEntries_names hdb hb, get?_mergeEntries_names (distinct_mergeEntries hda b) hab,
    get?_mergeEntries_names hdb hb]
  cases hz : Entries.get? b k with
  | none => exact get?_mergeEntries_names hda ha base k
  | some z =>
    have hleft := get?_mergeEntries_names hda ha base k
    simp only [Option.map_some, Option.some_or, Option.some.injEq]
    cases hy : Entries.get? a k with
    | none =>
      rw [hy, Option.map_none, Option.none_or] at hleft
      rw [taken_new hy, taken, hleft]
      rfl
    | some y =>
      rw [hy, Option.map_some, Option.some_or] at hleft
      rw [taken_slot hleft, taken_slot hy]
      cases hx : Entries.get? base k with
      | none => rw [taken_new hx, taken_new hx]
      | some x => rw [taken_slot hx, taken_slot hx, hj x y z hx hy hz]

theorem merge_merge (hx : x.NamedTree) (hy : y.NamedTree) (hz : z.NamedTree) (hdx : x.Distinct)
    (hdy : y.Distinct) (hdz : z.Distinct) (hxy : Compatible x y) (hyz : Compatible y z)
    (hc : x.isContainer = true) : merge (merge x y) z = merge x (merge y z) := by
  induction hx generalizing y z with
  | @intro x here below ih =>
    have hcy : y.isContainer = true := hxy.isContainer_eq ▸ hc
    have hcz : z.isContainer = true := hyz.isContainer_eq ▸ hcy
    obtain ⟨base, rfl, -⟩ := NamedTree.exists_map (.intro here below) hc
    obtain ⟨a, rfl, ha⟩ := hy.exists_map hcy
    obtain ⟨b, rfl, hb⟩ := hz.exists_map hcz
    have hda : Entries.Distinct a := hdy.1
    have hdb : Entries.Distinct b := hdz.1
    have hab := isNumericKey_of_mem_mergeEntries hdb ha hb
    simp only [merge_map_map, map.injEq]
    apply (distinct_mergeEntries (distinct_mergeEntries hdx.1 a) b).ext
    · exact keys_mergeEntries_assoc hda hdb ha hb base
    · intro k _
      apply get?_mergeEntries_assoc hda hdb ha hb
      intro x y z hgx hgy hgz
      have hxy' : Compatible x y := hxy.get? hgx hgy
      have hyz' : Compatible y z := hyz.get? hgy hgz
      apply joined_joined (ha k (Entries.mem_keys_of_get? hgy)) hxy'.isContainer_eq
        hyz'.isContainer_eq
      intro hc
      exact ih _ (Entries.mem_of_get? hgx) (hy.get? hgy) (hz.get? hgz) (hdx.at_key hgx)
        (hdy.at_key hgy) (hdz.at_key hgz) hxy' hyz' (hxy'.isContainer_eq.trans hc)

/-- Groups of messages with names are merged in any grouping with the same result, or all in turn.
Of the first and the last it is not even asked that they are compatible. -/
theorem mergeAll_mergeAll (ha : (map a).NamedTree) (hb : (map b).NamedTree) (hc : (map c).NamedTree)
    (hda : (map a).Distinct) (hdb : (map b).Distinct) (hdc : (map c).Distinct)
    (hab : Compatible (map a) (map b)) (hbc : Compatible (map b) (map c)) :
    ((map a).mergeAll [map b]).mergeAll [map c] = (map a).mergeAll [(map b).mergeAll [map c]] ∧
      (map a).mergeAll [(map b).mergeAll [map c]] = (map a).mergeAll [map b, map c] := by
  have hm : merge (merge (map a) (map b)) (map c) = merge (map a) (merge (map b) (map c)) :=
    merge_merge ha hb hc hda hdb hdc hab hbc rfl
  simp only [mergeAll_singleton]
  exact ⟨hm, hm.symm⟩

/-- A leaf that both additions replace, beside a group that only the additions have. -/
theorem mergeAll_mergeAll_menu :
    let a : Messages := [("home", .ofString "__home"), ("menu", .map [("soup", .null)])]
    let b : Messages := [("exit", .map [("door", .ofString "Porte")]), ("home", .null)]
    let c : Messages := [("menu", .map [("soup", .ofString "Soupe")]),
      ("home", .ofString "Accueil"), ("exit", .map [("gate", .null), ("door", .null)])]
    (∀ v ∈ [map a, map b, map c], v.NamedTree ∧ v.Distinct) ∧ Compatible (map a) (map b) ∧
      Compatible (map b) (map c) ∧
      ((map a).mergeAll [map b]).mergeAll [map c] = (map a).mergeAll [(map b).mergeAll [map c]] ∧
      (map a).mergeAll [(map b).mergeAll [map c]] = (map a).mergeAll [map b, map c] := by
  intro a b c
  have ht : ∀ v ∈ [map a, map b, map c], v.NamedTree := by
    simp only [a, b, c, NamedTree, ofString, null, everywhere_map, everywhere_scalar,
      List.forall_mem_cons, List.not_mem_nil, false_implies, implies_true, and_true]
    decide
  have hd : ∀ v ∈ [map a, map b, map c], v.Distinct := by
    simp [a, b, c, Distinct, DistinctEntries, Entries.Distinct, Entries.keys, ofString, null]
  have hab : Compatible (map a) (map b) := by
    apply Compatible.of_entries (by rfl)
    simp [a, b, Entries.get?, ofString, null, compatible_scalar]
  have hbc : Compatible (map b) (map c) := by
    apply Compatible.of_entries (by rfl)
    have hexit : Compatible (map [("door", .ofString "Porte")])
        (map [("gate", .null), ("door", .null)]) := by
      apply Compatible.of_entries (by rfl)
      simp [Entries.get?, ofString, null, compatible_scalar]
    simpa [b, c, Entries.get?, ofString, null, compatible_scalar] using hexit
  have hall (v : Value) (hv : v ∈ [map a, map b, map c]) := And.intro (ht v hv) (hd v hv)
  simp only [List.forall_mem_cons] at ht hd
  exact ⟨hall, hab, hbc,
    mergeAll_mergeAll ht.1 ht.2.1 ht.2.2.1 hd.1 hd.2.1 hd.2.2.1 hab hbc⟩

/-- No leaf, at any depth, is a NaN, which would not equal itself. -/
def NaNFree (v : Value) : Prop :=
  v.Everywhere fun
    | scalar s => s.isNaN = false
    | _ => True

theorem mergeEntries_eq_self
    (h : ∀ e ∈ es, mergeEntry base e.1 e.2 (fun slot => merge slot e.2) = base) :
    mergeEntries base es = base := by
  induction es with
  | nil => rfl
  | cons e es ih =>
    obtain ⟨k, v⟩ := e
    rw [mergeEntries_cons, h _ List.mem_cons_self]
    exact ih fun e he => h e (List.mem_cons_of_mem _ he)

theorem mergeEntry_self (hg : Entries.get? base k = some v) (hn : v.NaNFree)
    (hm : v.isContainer = true → merge v v = v) :
    mergeEntry base k v (fun slot => merge slot v) = base := by
  cases hc : v.isContainer with
  | true => rw [mergeEntry_slot hg (.inl hc), hm hc, Entries.insert_get? hg]
  | false =>
    obtain ⟨s, rfl⟩ := isContainer_eq_false_iff.1 hc
    cases hk : isNumericKey k with
    | true =>
      rw [mergeEntry_item hk (by simp [hg, isContainer]),
        append_self hg (Scalar.looselyEqual_self hn.here)]
    | false => rw [mergeEntry_set hg rfl hk, Entries.insert_get? hg]

theorem merge_self (hd : v.Distinct) (hn : v.NaNFree) (hc : v.isContainer = true) :
    merge v v = v := by
  induction hn with
  | @intro v here below ih =>
    have hself : mergeEntries v.entries v.entries = v.entries := by
      apply mergeEntries_eq_self
      intro e he
      exact mergeEntry_self (hd.entries.get? he) (below e he) (ih e he (hd.below he))
    cases v with
    | scalar s => cases hc
    | list items =>
      rw [merge, mergeItems_eq, toMessages_coerce]
      exact (congrArg normalize hself).trans (normalize_keyedFrom items)
    | map es => exact congrArg map hself

/-- A list or map that is merged into itself stays as it is: numeric keys, repeated items and
nested lists and maps in it too. -/
theorem mergeAll_self (hd : v.Distinct) (hn : v.NaNFree) (hc : v.isContainer = true) :
    v.mergeAll [v] = v := by
  rw [mergeAll_singleton, merge_self hd hn hc]

/-- Items that equal one another, in lists and under numeric keys. -/
theorem mergeAll_self_codes :
    let v : Value := .map [("menu", .list [.ofString "1", .scalar (.int 1), .ofString "1",
      .map [("7", .ofString "Sept"), ("1e0", .ofString "Sept")]]), ("3", .null), ("0", .list [])]
    v.Distinct ∧ v.NaNFree ∧ v.isContainer = true ∧ v.mergeAll [v] = v := by
  intro v
  have hd : v.Distinct := by
    simp [v, Distinct, DistinctEntries, DistinctItems, Entries.Distinct, Entries.keys, ofString,
      null]
  have hn : v.NaNFree := by
    simp [v, NaNFree, ofString, null, Scalar.isNaN]
  exact ⟨hd, hn, rfl, mergeAll_self hd hn rfl⟩

end Value
end Phrasebook
