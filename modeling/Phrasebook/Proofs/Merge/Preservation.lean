import Phrasebook.Proofs.Merge.Addition

namespace Phrasebook
namespace Value

variable {a b r v : Value} {p : List String} {s : Scalar}

/-- At every depth the integer keys lie below `2 ^ 62`, which leaves room for as many appends. -/
def Roomy (v : Value) : Prop :=
  v.Everywhere fun w => KeysBelow 4611686018427387904 w.entries

/-- The integer keys leave room, and no container has more than `2 ^ 62` entries. For lists the
second follows from the first, and for maps it says no more than that they fit into memory. -/
def Fits (v : Value) : Prop :=
  v.Everywhere fun w =>
    KeysBelow 4611686018427387904 w.entries ∧ w.entries.length ≤ 4611686018427387904

theorem keysBelow_positionKey_zero (v : Value) :
    KeysBelow 4611686018427387904 [(positionKey 0, v)] :=
  KeysBelow.toString_int (z := 0) (by decide) v

theorem roomy_scalar (s : Scalar) : (scalar s).Roomy :=
  everywhere_scalar.2 (.nil _)

theorem Roomy.coerce (h : b.Roomy) : b.coerce.Roomy := by
  cases b with
  | scalar s =>
    rw [Value.coerce]
    split
    · apply Everywhere.intro (.nil _)
      intro e he
      cases he
    · apply Everywhere.intro (keysBelow_positionKey_zero _)
      intro e he
      rw [List.mem_singleton.1 he]
      exact h
  | list items => exact h
  | map es => exact h

theorem Roomy.room (hb : b.Roomy) (ha : a.Fits) : Room b.toMessages a.additions := by
  have hkb : KeysBelow 4611686018427387904 b.toMessages := by
    rw [← toMessages_coerce, toMessages_eq_entries (isContainer_coerce b)]
    exact hb.coerce.here
  have hka : KeysBelow 4611686018427387904 a.additions ∧
      a.additions.length ≤ 4611686018427387904 := by
    cases a with
    | scalar s => exact ⟨keysBelow_positionKey_zero _, Nat.le_add_left 1 _⟩
    | list items => exact ha.here
    | map es => exact ha.here
  exact ⟨4611686018427387904, by omega, hkb, hka.1, by omega⟩

theorem get?_entries_merge_kept {k : String} {slot : Value} (hb : b.Roomy) (ha : a.Fits)
    (hg : Entries.get? b.toMessages k = some slot) (hx : Entries.get? a.additions k = none) :
    Entries.get? (merge b a).entries k = some slot := by
  have hs := (hb.room ha).spared (Entries.mem_keys_of_get? hg)
  rw [entries_merge, get?_mergeEntries_of_not_mem ((Entries.get?_eq_none_iff _ k).1 hx) hs, hg]

theorem get?_entries_merge_joined {k : String} {slot x : Value} (hb : b.Roomy) (ha : a.Fits)
    (hd : a.Distinct) (hg : Entries.get? b.toMessages k = some slot)
    (hx : Entries.get? a.additions k = some x) :
    Entries.get? (merge b a).entries k = some (joined k slot x) := by
  have hs := (hb.room ha).spared (Entries.mem_keys_of_get? hg)
  rw [entries_merge, get?_mergeEntries_of_mem hd.additions hs hg hx]

theorem merge_scalar_at? (hs : s.isEmpty = false) (ha : a.Fits) (hd : a.Distinct) :
    ∃ n, (merge (scalar s) a).at? (List.replicate (n + 1) (positionKey 0)) = some (scalar s) := by
  induction ha with
  | @intro a here below ih =>
    have hg : Entries.get? (scalar s).toMessages (positionKey 0) = some (scalar s) := by
      rw [toMessages, hs, if_neg (by exact Bool.false_ne_true), Entries.get?_cons, if_pos rfl]
    have ha : a.Fits := .intro here below
    cases hx : Entries.get? a.additions (positionKey 0) with
    | none => exact ⟨0, at?_cons_of_get? (get?_entries_merge_kept (roomy_scalar s) ha hg hx) []⟩
    | some x =>
      have hr := get?_entries_merge_joined (roomy_scalar s) ha hd hg hx
      cases hc : x.isContainer with
      | false =>
        rw [joined_numeric (isNumericKey_positionKey 0) rfl hc] at hr
        exact ⟨0, at?_cons_of_get? hr []⟩
      | true =>
        rw [joined_of_isContainer _ (.inr hc)] at hr
        rcases get?_additions hx with hx | ⟨-, rfl, hn⟩
        · have hm := Entries.mem_of_get? hx
          obtain ⟨n, hn⟩ := ih _ hm (hd.below hm)
          exact ⟨n + 1, (at?_cons_of_get? hr _).trans hn⟩
        · rw [hn] at hc
          cases hc

/-- What becomes of a leaf of the base. -/
inductive LeafFate (addition result : Value) (p : List String) (s : Scalar) : Prop
  | kept (hr : result.at? p = some (scalar s)) : LeafFate addition result p s
  | replaced {q : List String} {k : String} {t : Scalar} (hp : p = q ++ [k])
      (hk : isNumericKey k = false) (ha : addition.at? p = some (scalar t))
      (hr : result.at? p = some (scalar t)) : LeafFate addition result p s
  | wrapped {w : Value} (hr : result.at? p = some w) (hc : w.isContainer = true)
      (hs : s.isEmpty = false →
        ∃ n, result.at? (p ++ List.replicate (n + 1) (positionKey 0)) = some (scalar s)) :
      LeafFate addition result p s

theorem LeafFate.cons {k : String} {x y : Value} (h : LeafFate x y p s)
    (ha : Entries.get? a.additions k = some x) (hr : Entries.get? r.entries k = some y) :
    LeafFate a r (k :: p) s := by
  cases h with
  | kept h => exact .kept ((at?_cons_of_get? hr p).trans h)
  | @replaced q k' t hp hk hx hy =>
    refine .replaced (q := k :: q) (congrArg _ hp) hk ?_ ((at?_cons_of_get? hr p).trans hy)
    rcases get?_additions ha with ha | ⟨-, rfl, hn⟩
    · exact (at?_cons_of_get? ha p).trans hx
    · -- a leaf is its own only addition, and no key leads below it
      obtain ⟨t', rfl⟩ := isContainer_eq_false_iff.1 hn
      subst hp
      cases q <;> cases hx
  | wrapped h hc hs =>
    refine .wrapped ((at?_cons_of_get? hr p).trans h) hc fun he => ?_
    obtain ⟨n, hn⟩ := hs he
    exact ⟨n, (at?_cons_of_get? hr _).trans hn⟩

theorem isContainer_of_get? {k : String} (h : Entries.get? b.entries k = some v) :
    b.isContainer = true := by
  cases b with
  | scalar s => cases h
  | list items => rfl
  | map es => rfl

theorem leafFate_merge (hb : b.Roomy) (ha : a.Fits) (hd : a.Distinct)
    (hp : b.at? p = some (scalar s)) : LeafFate a (merge b a) p s := by
  induction p generalizing a b with
  | nil =>
    cases hp
    exact .wrapped rfl (isContainer_merge _ _) fun hs => merge_scalar_at? hs ha hd
  | cons k p ih =>
    obtain ⟨slot, hg, hp⟩ := at?_cons_eq_some hp
    have hg' := hg
    rw [← toMessages_eq_entries (isContainer_of_get? hg)] at hg'
    cases hx : Entries.get? a.additions k with
    | none => exact .kept ((at?_cons_of_get? (get?_entries_merge_kept hb ha hg' hx) p).trans hp)
    | some x =>
      have hr := get?_entries_merge_joined hb ha hd hg' hx
      have hm := Entries.mem_of_get? hx
      by_cases hc : slot.isContainer = true ∨ x.isContainer = true
      · rw [joined_of_isContainer k hc] at hr
        exact (ih (hb.get? hg) (ha.addition hm) (hd.addition hm) hp).cons hx hr
      · rw [not_or, Bool.not_eq_true, Bool.not_eq_true] at hc
        obtain ⟨t, rfl⟩ := isContainer_eq_false_iff.1 hc.1
        cases p with
        | cons k' p => cases hp
        | nil =>
          cases hp
          cases hk : isNumericKey k with
          | true =>
            rw [joined_numeric hk hc.1 hc.2] at hr
            exact .kept (at?_cons_of_get? hr [])
          | false =>
            rw [joined_name hk hc.1 hc.2] at hr
            obtain ⟨t, rfl⟩ := isContainer_eq_false_iff.1 hc.2
            refine .replaced (q := []) rfl hk ?_ (at?_cons_of_get? hr [])
            rcases get?_additions hx with hx | ⟨rfl, -, -⟩
            · exact at?_cons_of_get? hx []
            · rw [isNumericKey_positionKey] at hk
              cases hk

theorem keys_prefix_merge_at? (hb : b.Roomy) (ha : a.Fits) (hd : a.Distinct)
    (hp : b.at? p = some v) (hv : v.isContainer = true) :
    ∃ w, (merge b a).at? p = some w ∧ w.isContainer = true ∧
      Entries.keys v.entries <+: Entries.keys w.entries := by
  induction p generalizing a b with
  | nil =>
    cases hp
    refine ⟨merge v a, rfl, isContainer_merge _ _, ?_⟩
    rw [entries_merge, ← toMessages_eq_entries hv]
    exact keys_prefix_mergeEntries _ _
  | cons k p ih =>
    obtain ⟨slot, hg, hp⟩ := at?_cons_eq_some hp
    have hg' := hg
    rw [← toMessages_eq_entries (isContainer_of_get? hg)] at hg'
    cases hx : Entries.get? a.additions k with
    | none =>
      have hr := get?_entries_merge_kept hb ha hg' hx
      exact ⟨v, (at?_cons_of_get? hr p).trans hp, hv, List.prefix_rfl⟩
    | some x =>
      have hr := get?_entries_merge_joined hb ha hd hg' hx
      have hm := Entries.mem_of_get? hx
      cases hc : slot.isContainer with
      | true =>
        rw [joined_of_isContainer k (.inl hc)] at hr
        rw [at?_cons_of_get? hr]
        exact ih (hb.get? hg) (ha.addition hm) (hd.addition hm) hp
      | false =>
        -- a container cannot stand at or below a leaf
        obtain ⟨t, rfl⟩ := isContainer_eq_false_iff.1 hc
        cases p with
        | nil =>
          cases hp
          cases hv
        | cons k' p => cases hp

/-- The base of a merge survives in the result. -/
structure Preserved (base addition result : Value) : Prop where
  containers : ∀ p v, base.coerce.at? p = some v → v.isContainer = true →
    ∃ w, result.at? p = some w ∧ w.isContainer = true ∧
      Entries.keys v.entries <+: Entries.keys w.entries
  leaves : ∀ p s, base.at? p = some (scalar s) ∨ base.coerce.at? p = some (scalar s) →
    LeafFate addition result p s
  /-- No append falls on an entry that is there when its turn comes. -/
  appends : ∀ xs e ys, addition.additions = xs ++ e :: ys →
    nextIndex (mergeEntries base.toMessages xs) ∉
      Entries.keys (mergeEntries base.toMessages xs)

theorem mergeAll_preserved (hb : b.Roomy) (ha : a.Fits) (hd : a.Distinct) :
    Preserved b a (b.mergeAll [a]) := by
  rw [mergeAll_singleton]
  constructor
  · intro p v hp hv
    rw [← merge_coerce]
    exact keys_prefix_merge_at? hb.coerce ha hd hp hv
  · rintro p s (hp | hp)
    · exact leafFate_merge hb ha hd hp
    · rw [← merge_coerce]
      exact leafFate_merge hb.coerce ha hd hp
  · intro xs e ys he
    have hr := hb.room ha
    rw [he] at hr
    exact hr.nextIndex_not_mem

/-- A placeholder under a numeric key, which a map is merged into. -/
theorem mergeAll_preserved_menu :
    let b : Value := .map [("menu", .ofString "__menu"), ("1", .ofString "__1")]
    let a : Value := .map [("menu", .list [.null]), ("1", .map [("home", .ofString "Accueil")])]
    b.Roomy ∧ a.Fits ∧ a.Distinct ∧ LeafFate a (b.mergeAll [a]) ["1"] (.str "__1") := by
  intro b a
  have hb : b.Roomy := by
    simp only [b, Roomy, ofString, everywhere_map, everywhere_scalar, List.forall_mem_cons,
      List.not_mem_nil, false_implies, implies_true, and_true]
    decide
  have ha : a.Fits := by
    simp only [a, Fits, ofString, null, everywhere_map, everywhere_list, everywhere_scalar,
      List.forall_mem_cons, List.not_mem_nil, false_implies, implies_true, and_true]
    decide
  have hd : a.Distinct := by
    simp [a, Value.Distinct, DistinctEntries, DistinctItems, Entries.Distinct, Entries.keys,
      ofString, null]
  exact ⟨hb, ha, hd, (mergeAll_preserved hb ha hd).leaves _ _ (.inl rfl)⟩

end Value
end Phrasebook
