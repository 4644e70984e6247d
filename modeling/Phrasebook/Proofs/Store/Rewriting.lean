import Phrasebook.Proofs.Store.Reading

namespace Phrasebook
namespace Yaml

namespace Number

def fits : Number → Bool
  | int n => int64InRange n.value
  | float _ => true

def narrow : Number → Number
  | int n => if int64InRange n.value then int n else float (.ofInt n.value)
  | float x => float x

theorem ofInt64_ofInt {n : WideInt} (h : int64InRange n.value = true) :
    ofInt64 (Int64.ofInt n.value) = int n := by
  rw [ofInt64, int.injEq, WideInt.mk.injEq]
  exact toInt_ofInt_of_inRange h

theorem toData_toScalar (n : Number) : n.toScalar.toData = .number n.narrow := by
  cases n with
  | int n =>
    rw [toScalar, narrow]
    split
    · next h => rw [Scalar.toData, ofInt64_ofInt h]
    · rfl
  | float x => rfl

theorem narrow_eq_self_iff {n : Number} : n.narrow = n ↔ n.fits = true := by
  cases n with
  | int n =>
    rw [narrow, fits]
    split
    · next h => simp [h]
    · next h => simp [h]
  | float x => simp [narrow, fits]

end Number

namespace Data

/-- Whether a key is written again as it was: an integer of 64 bits with a sign, or a text that does
not spell one. -/
def isStableKey : Data → Bool
  | number (.int n) => int64InRange n.value
  | string s => (integerKey? s).isNone
  | _ => false

theorem exists_text_of_isStableKey {k : Data} (h : k.isStableKey = true) :
    ∃ t, k.keyText = .ok t ∧ keyData t = k := by
  cases k with
  | number n =>
    cases n with
    | int n =>
      rw [isStableKey] at h
      refine ⟨toString n.value, rfl, ?_⟩
      rw [keyData, integerKey?_toString_int h, ← Number.ofInt64_ofInt h]
    | float x => cases h
  | string s =>
    rw [isStableKey, Option.isNone_iff_eq_none] at h
    refine ⟨s, rfl, ?_⟩
    rw [keyData, h]
  | _ => cases h

def isTagged : Data → Bool
  | tagged _ _ => true
  | _ => false

/-- There are no tags, and every key is written again as it was, at any depth. -/
def Stable (d : Data) : Prop :=
  d.Everywhere fun c => c.isTagged = false ∧ ∀ k ∈ c.keys, k.isStableKey = true

mutual

/-- The data with every number that does not fit narrowed. Keys stay as they are. -/
def narrow : Data → Data
  | null => null
  | bool b => bool b
  | number n => number n.narrow
  | string s => string s
  | sequence ds => sequence (narrowItems ds)
  | mapping es => mapping (narrowEntries es)
  | tagged tag d => tagged tag d.narrow

def narrowItems : List Data → List Data
  | [] => []
  | d :: ds => d.narrow :: narrowItems ds

def narrowEntries : List (Data × Data) → List (Data × Data)
  | [] => []
  | (k, d) :: es => (k, d.narrow) :: narrowEntries es

end

theorem narrowItems_eq_self_iff {ds : List Data} :
    narrowItems ds = ds ↔ ∀ d ∈ ds, d.narrow = d := by
  induction ds with
  | nil => simp [narrowItems]
  | cons d ds ih => rw [narrowItems, List.cons.injEq, ih, List.forall_mem_cons]

theorem narrowEntries_eq_self_iff {es : List (Data × Data)} :
    narrowEntries es = es ↔ ∀ d ∈ es.map Prod.snd, d.narrow = d := by
  induction es with
  | nil => simp [narrowEntries]
  | cons e es ih =>
    obtain ⟨k, d⟩ := e
    rw [narrowEntries, List.cons.injEq, ih, List.map_cons, List.forall_mem_cons, Prod.mk.injEq]
    simp

/-- Every number among the values fits, at any depth. -/
def Narrow (d : Data) : Prop := d.Everywhere fun c => ∀ n, c = number n → n.fits = true

theorem narrow_eq_self_iff {d : Data} : d.narrow = d ↔ d.Narrow := by
  induction d using childrenInduction with
  | step d ih =>
    rw [Narrow, Everywhere.iff]
    cases d with
    | number n => simp [narrow, children, Number.narrow_eq_self_iff]
    | sequence ds =>
      have hds : (∀ d ∈ ds, d.narrow = d) ↔ ∀ d ∈ ds, d.Narrow := forall₂_congr ih
      rw [narrow, sequence.injEq, narrowItems_eq_self_iff, hds]
      simp [children, Narrow]
    | mapping es =>
      have hes : (∀ d ∈ es.map Prod.snd, d.narrow = d) ↔ ∀ d ∈ es.map Prod.snd, d.Narrow :=
        forall₂_congr ih
      rw [narrow, mapping.injEq, narrowEntries_eq_self_iff, hes]
      simp [children, Narrow]
    | tagged tag d =>
      have hd := ih d (List.mem_singleton.2 rfl)
      rw [narrow, tagged.injEq, hd]
      simp [children, Narrow]
    | _ => simp [narrow, children]

def Rewrites (d : Data) : Prop := ∃ v, d.toValue = .ok v ∧ v.toData = d.narrow

theorem exists_items {ds : List Data} (h : ∀ d ∈ ds, d.Rewrites) :
    ∃ vs, itemsToValues ds = .ok vs ∧ Value.itemsToData vs = narrowItems ds := by
  induction ds with
  | nil => exact ⟨[], rfl, rfl⟩
  | cons d ds ih =>
    obtain ⟨hd, hds⟩ := List.forall_mem_cons.1 h
    obtain ⟨v, hv, hw⟩ := hd
    obtain ⟨vs, hvs, hws⟩ := ih hds
    refine ⟨v :: vs, ?_, ?_⟩
    · rw [itemsToValues, hv, hvs]
      rfl
    · rw [Value.itemsToData, narrowItems, hw, hws]

theorem exists_entries {es : List (Data × Data)} (hk : ∀ k ∈ es.map Prod.fst, k.isStableKey = true)
    (hv : ∀ d ∈ es.map Prod.snd, d.Rewrites) :
    ∃ ms, (mapping es).keys.map keyText = (Entries.keys ms).map .ok ∧
      (∀ acc, entriesToMessages acc es = .ok (Entries.insertAll acc ms)) ∧
      Value.entriesToData ms = narrowEntries es := by
  induction es with
  | nil => exact ⟨[], rfl, fun _ => rfl, rfl⟩
  | cons e es ih =>
    obtain ⟨k, d⟩ := e
    obtain ⟨hk, hks⟩ := List.forall_mem_cons.1 hk
    obtain ⟨hd, hds⟩ := List.forall_mem_cons.1 hv
    obtain ⟨t, ht, hkey⟩ := exists_text_of_isStableKey hk
    obtain ⟨v, hv, hw⟩ := hd
    obtain ⟨ms, hts, hms, hws⟩ := ih hks hds
    refine ⟨(t, v) :: ms, ?_, ?_, ?_⟩
    · rw [Entries.keys_cons, List.map_cons, ← hts, ← ht]
      rfl
    · intro acc
      rw [entriesToMessages, ht, hv]
      exact hms (Entries.insert acc t v)
    · rw [Value.entriesToData, narrowEntries, hkey, hw, hws]

theorem rewrites {d : Data} (hs : d.Separate) (hd : d.Stable) : d.Rewrites := by
  induction d using childrenInduction with
  | step d ih =>
    have hbelow : ∀ c ∈ d.children, c.Rewrites := by
      intro c hc
      exact ih c hc (hs.inside hc) (hd.inside hc)
    cases d with
    | number n => exact ⟨.scalar n.toScalar, rfl, n.toData_toScalar⟩
    | sequence ds =>
      have hitems : ∀ c ∈ ds, c.Rewrites := hbelow
      obtain ⟨vs, hvs, hws⟩ := exists_items hitems
      refine ⟨.list vs, ?_, ?_⟩
      · rw [toValue, hvs]
        rfl
      · rw [Value.toData, hws, narrow]
    | mapping es =>
      obtain ⟨ms, hts, hms, hws⟩ := exists_entries hd.here.2 hbelow
      have hdistinct := (nodup_texts_iff hts).1 hs.here
      refine ⟨.map ms, ?_, ?_⟩
      · rw [toValue, hms, Entries.insertAll_empty hdistinct]
        rfl
      · rw [Value.toData, hws, narrow]
    | tagged tag d => cases hd.here.1
    | null => exact ⟨.null, rfl, rfl⟩
    | bool b => exact ⟨.scalar (.bool b), rfl, rfl⟩
    | string s => exact ⟨.ofString s, rfl, rfl⟩

/-- Untagged data with stable keys that have different texts is read, and its value is written as
the data, with narrow numbers. So it comes back as it was exactly if all of its numbers fit. -/
theorem exists_toValue_toData {d : Data} (hs : d.Separate) (hd : d.Stable) :
    ∃ v, d.toValue = .ok v ∧ v.toData = d.narrow ∧ (v.toData = d ↔ d.Narrow) := by
  obtain ⟨v, hv, hw⟩ := rewrites hs hd
  refine ⟨v, hv, hw, ?_⟩
  rw [hw]
  exact narrow_eq_self_iff

/-- The first integer beyond 64 bits with a sign, below a list position. -/
theorem exists_toValue_toData_limit :
    let limit : Data := .number (.int ⟨9223372036854775808, by decide⟩)
    let limits : Data := .sequence [limit, .null, .bool true]
    let d : Data := .mapping [(.number (.ofInt64 0), limits), (.string "01", .string "1")]
    (d.Separate ∧ d.Stable) ∧
      ∃ v, d.toValue = .ok v ∧ v.toData = d.narrow ∧ (v.toData = d ↔ d.Narrow) := by
  intro limit limits d
  have hsep : d.Separate := by
    simp [Separate, d, limits, limit, keys, keyText]
    decide
  have hsta : d.Stable := by
    simp [Stable, d, limits, limit, keys, isTagged]
    decide
  exact ⟨⟨hsep, hsta⟩, exists_toValue_toData hsep hsta⟩

/-- An integer that does not fit comes back as a float. -/
theorem toData_ne_limit :
    let d : Data := .mapping [(.string "limit", .number (.int ⟨9223372036854775808, by decide⟩))]
    (d.Separate ∧ d.Stable) ∧ ∃ v, d.toValue = .ok v ∧ v.toData ≠ d := by
  intro d
  have hsep : d.Separate := by simp [Separate, d, keys]
  have hsta : d.Stable := by
    simp [Stable, d, keys, isTagged]
    decide
  let x : Data := .number (.float (.ofInt 9223372036854775808))
  let v : Value := .map [("limit", .scalar (.float (.ofInt 9223372036854775808)))]
  have hw : v.toData = .mapping [(.string "limit", x)] := rfl
  refine ⟨⟨hsep, hsta⟩, v, rfl, ?_⟩
  rw [hw]
  simp [d, x]

end Data
end Yaml
end Phrasebook
