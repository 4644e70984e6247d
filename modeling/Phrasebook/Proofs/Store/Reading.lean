import Mathlib.Data.List.Forall2
import Mathlib.Data.List.Nodup
import Phrasebook.Proofs.Value
import Phrasebook.Store.Conversion

namespace Phrasebook

namespace Yaml.Data

def keys : Data → List Data
  | mapping es => es.map Prod.fst
  | _ => []

def children : Data → List Data
  | sequence ds => ds
  | mapping es => es.map Prod.snd
  | tagged _ d => [d]
  | _ => []

theorem sizeOf_lt_of_mem_children {c d : Data} (h : c ∈ d.children) : sizeOf c < sizeOf d := by
  cases d with
  | sequence ds =>
    have := List.sizeOf_lt_of_mem (show c ∈ ds from h)
    rw [sequence.sizeOf_spec]
    omega
  | mapping es =>
    obtain ⟨⟨k, c'⟩, hm, rfl⟩ := List.mem_map.1 h
    have := List.sizeOf_lt_of_mem hm
    rw [Prod.mk.sizeOf_spec] at this
    rw [mapping.sizeOf_spec]
    simp only
    omega
  | tagged tag d =>
    rw [List.mem_singleton.1 h, tagged.sizeOf_spec]
    omega
  | _ => cases h

theorem childrenInduction {motive : Data → Prop}
    (step : ∀ d : Data, (∀ c ∈ d.children, motive c) → motive d) (d : Data) : motive d :=
  step d fun c _ => childrenInduction step c
termination_by sizeOf d
decreasing_by exact sizeOf_lt_of_mem_children (by assumption)

/-- A property of the data and of all data in it, at any depth. -/
inductive Everywhere (P : Data → Prop) : Data → Prop
  | intro {d : Data} (here : P d) (below : ∀ c ∈ d.children, Everywhere P c) : Everywhere P d

namespace Everywhere

variable {P Q : Data → Prop} {c d : Data}

theorem here (h : Everywhere P d) : P d := by
  cases h with
  | intro here below => exact here

theorem inside (h : Everywhere P d) (hc : c ∈ d.children) : Everywhere P c := by
  cases h with
  | intro here below => exact below c hc

theorem iff : Everywhere P d ↔ P d ∧ ∀ c ∈ d.children, Everywhere P c := by
  constructor
  · intro h
    exact ⟨h.here, fun c hc => h.inside hc⟩
  · rintro ⟨here, below⟩
    exact .intro here below

theorem leaf_iff (h : d.children = []) : Everywhere P d ↔ P d := by
  rw [iff, h]
  simp

@[simp]
theorem null_iff : Everywhere P .null ↔ P .null := leaf_iff rfl

@[simp]
theorem bool_iff {b : Bool} : Everywhere P (.bool b) ↔ P (.bool b) := leaf_iff rfl

@[simp]
theorem number_iff {n : Number} : Everywhere P (.number n) ↔ P (.number n) := leaf_iff rfl

@[simp]
theorem string_iff {s : String} : Everywhere P (.string s) ↔ P (.string s) := leaf_iff rfl

@[simp]
theorem sequence_iff {ds : List Data} :
    Everywhere P (.sequence ds) ↔ P (.sequence ds) ∧ ∀ d ∈ ds, Everywhere P d := iff

@[simp]
theorem mapping_iff {es : List (Data × Data)} :
    Everywhere P (.mapping es) ↔ P (.mapping es) ∧ ∀ d ∈ es.map Prod.snd, Everywhere P d := iff

@[simp]
theorem tagged_iff {tag : String} :
    Everywhere P (.tagged tag d) ↔ P (.tagged tag d) ∧ Everywhere P d := by
  rw [iff]
  simp [children]

theorem of_forall (h : ∀ d, P d) (d : Data) : Everywhere P d := by
  induction d using childrenInduction with
  | step d ih => exact .intro (h d) ih

theorem imp (h : Everywhere P d) (hPQ : ∀ d, P d → Q d) : Everywhere Q d := by
  induction h with
  | intro here below ih => exact .intro (hPQ _ here) ih

end Everywhere

/-- No two keys of one mapping have the same text, at any depth. -/
def Separate (d : Data) : Prop := d.Everywhere fun c => (c.keys.map keyText).Nodup

theorem itemsToValues_ok {ds : List Data} {vs : List Value} (h : itemsToValues ds = .ok vs) :
    List.Forall₂ (fun d v => d.toValue = .ok v) ds vs := by
  induction ds generalizing vs with
  | nil =>
    cases h
    exact .nil
  | cons d ds ih =>
    rw [itemsToValues] at h
    cases hd : d.toValue with
    | error e =>
      rw [hd] at h
      cases h
    | ok v =>
      cases hds : itemsToValues ds with
      | error e =>
        rw [hd, hds] at h
        cases h
      | ok ws =>
        rw [hd, hds] at h
        cases h
        exact .cons hd (ih hds)

def ReadsEntry (e : Data × Data) (p : String × Value) : Prop :=
  e.1.keyText = .ok p.1 ∧ e.2.toValue = .ok p.2

theorem entriesToMessages_ok {es : List (Data × Data)} {acc m : Messages}
    (h : entriesToMessages acc es = .ok m) :
    ∃ ms, List.Forall₂ ReadsEntry es ms ∧ m = Entries.insertAll acc ms := by
  induction es generalizing acc with
  | nil =>
    cases h
    exact ⟨[], .nil, rfl⟩
  | cons e es ih =>
    obtain ⟨k, d⟩ := e
    rw [entriesToMessages] at h
    cases hk : k.keyText with
    | error e =>
      rw [hk] at h
      cases h
    | ok t =>
      cases hd : d.toValue with
      | error e =>
        rw [hk, hd] at h
        cases h
      | ok v =>
        rw [hk, hd] at h
        obtain ⟨ms, hms, rfl⟩ := ih h
        exact ⟨(t, v) :: ms, .cons ⟨hk, hd⟩ hms, rfl⟩

theorem texts_of_readsEntry {es : List (Data × Data)} {ms : Messages}
    (h : List.Forall₂ ReadsEntry es ms) :
    (mapping es).keys.map keyText = (Entries.keys ms).map .ok := by
  induction h with
  | nil => rfl
  | cons he _ ih =>
    rw [Entries.keys_cons, List.map_cons, ← he.1, ← ih]
    rfl

theorem toValue_sequence {ds : List Data} {v : Value} (h : (sequence ds).toValue = .ok v) :
    ∃ vs, v = .list vs ∧ List.Forall₂ (fun d v => d.toValue = .ok v) ds vs := by
  rw [toValue] at h
  cases hds : itemsToValues ds with
  | error e =>
    rw [hds] at h
    cases h
  | ok vs =>
    rw [hds] at h
    cases h
    exact ⟨vs, rfl, itemsToValues_ok hds⟩

theorem toValue_mapping {es : List (Data × Data)} {v : Value} (h : (mapping es).toValue = .ok v) :
    ∃ ms, v = .map (Entries.insertAll [] ms) ∧ List.Forall₂ ReadsEntry es ms := by
  rw [toValue] at h
  cases hes : entriesToMessages [] es with
  | error e =>
    rw [hes] at h
    cases h
  | ok m =>
    rw [hes] at h
    cases h
    obtain ⟨ms, hms, rfl⟩ := entriesToMessages_ok hes
    exact ⟨ms, rfl, hms⟩

/-- The data gives the value level by level: item by item, and entry by entry with a text for each
key. `R` relates the entries of a mapping, each given on its own, to the messages they give
together. -/
inductive Gives (R : Messages → Messages → Prop) : Data → Value → Prop
  | null : Gives R .null .null
  | bool (b : Bool) : Gives R (.bool b) (.scalar (.bool b))
  | number (n : Number) : Gives R (.number n) (.scalar n.toScalar)
  | string (s : String) : Gives R (.string s) (.ofString s)
  | sequence {ds : List Data} {vs : List Value} (length : ds.length = vs.length)
      (items : ∀ p ∈ ds.zip vs, Gives R p.1 p.2) : Gives R (.sequence ds) (.list vs)
  | mapping {es : List (Data × Data)} {ms m : Messages}
      (texts : (Data.mapping es).keys.map keyText = (Entries.keys ms).map .ok)
      (values : ∀ p ∈ es.zip ms, Gives R p.1.2 p.2.2) (together : R ms m) :
      Gives R (.mapping es) (.map m)
  | tagged (tag : String) {d : Data} {v : Value} (content : Gives R d v) :
      Gives R (.tagged tag d) v

def Kept (entries messages : Messages) : Prop := messages = entries

/-- Each key stands where it came first, with the value that came last. -/
structure Settled (entries messages : Messages) : Prop where
  order : Entries.keys messages = (Entries.keys entries).eraseDups
  last : ∀ k, Entries.get? messages k = Entries.get? entries.reverse k

theorem settled_insertAll (ms : Messages) : Settled ms (Entries.insertAll [] ms) where
  order := by
    have hall : (Entries.keys ms).filter (fun k => !Entries.contains ([] : Messages) k) =
        Entries.keys ms := List.filter_true _
    rw [Entries.keys_insertAll_eraseDups, hall]
    rfl
  last k := by rw [Entries.get?_insertAll_reverse, Entries.get?_nil, Option.or_none]

theorem gives_of_toValue {R : Messages → Messages → Prop} {d : Data} {v : Value}
    (hR : d.Everywhere fun c => ∀ ms, c.keys.map keyText = (Entries.keys ms).map .ok →
      R ms (Entries.insertAll [] ms))
    (h : d.toValue = .ok v) : Gives R d v := by
  induction d using childrenInduction generalizing v with
  | step d ih =>
    cases d with
    | null =>
      cases h
      exact .null
    | bool b =>
      cases h
      exact .bool b
    | number n =>
      cases h
      exact .number n
    | string s =>
      cases h
      exact .string s
    | sequence ds =>
      obtain ⟨vs, rfl, hvs⟩ := toValue_sequence h
      apply Gives.sequence hvs.length_eq
      intro p hp
      have hm : p.1 ∈ (sequence ds).children := (List.of_mem_zip hp).1
      exact ih p.1 hm (hR.inside hm) (List.forall₂_zip hvs hp)
    | mapping es =>
      obtain ⟨ms, rfl, hms⟩ := toValue_mapping h
      have htexts := texts_of_readsEntry hms
      apply Gives.mapping htexts
      · intro p hp
        have hm : p.1.2 ∈ (mapping es).children := List.mem_map_of_mem (List.of_mem_zip hp).1
        exact ih p.1.2 hm (hR.inside hm) (List.forall₂_zip hms hp).2
      · exact hR.here ms htexts
    | tagged tag d =>
      have hm : d ∈ (tagged tag d).children := List.mem_singleton.2 rfl
      exact .tagged tag (ih d hm (hR.inside hm) h)

theorem nodup_texts_iff {c : Data} {ms : Messages}
    (ht : c.keys.map keyText = (Entries.keys ms).map .ok) :
    (c.keys.map keyText).Nodup ↔ Entries.Distinct ms := by
  rw [ht, Entries.Distinct]
  apply List.nodup_map_iff
  intro a b hab
  exact Except.ok.inj hab

theorem gives_settled {d : Data} {v : Value} (h : d.toValue = .ok v) : Gives Settled d v := by
  apply gives_of_toValue _ h
  apply Everywhere.of_forall
  intro c ms _
  exact settled_insertAll ms

theorem gives_kept_of_separate {d : Data} {v : Value} (hs : d.Separate) (h : d.toValue = .ok v) :
    Gives Kept d v := by
  apply gives_of_toValue _ h
  apply hs.imp
  intro c hc ms ht
  exact Entries.insertAll_empty ((nodup_texts_iff ht).1 hc)

theorem eq_of_kept {es : List (Data × Data)} {ms ms' : Messages}
    (ht : (mapping es).keys.map keyText = (Entries.keys ms).map .ok)
    (hms : List.Forall₂ ReadsEntry es ms') (h : Kept ms (Entries.insertAll [] ms')) :
    Entries.Distinct ms ∧ ms' = ms := by
  have hnil : Entries.Distinct ([] : Messages) := List.nodup_nil
  have hd : Entries.Distinct ms := by
    rw [← h]
    exact hnil.insertAll ms'
  have hd' : Entries.Distinct ms' :=
    (nodup_texts_iff (texts_of_readsEntry hms)).1 ((nodup_texts_iff ht).2 hd)
  rw [Kept, Entries.insertAll_empty hd'] at h
  exact ⟨hd, h⟩

theorem separate_of_gives_kept {d : Data} {v : Value} (hg : Gives Kept d v)
    (h : d.toValue = .ok v) : d.Separate := by
  induction hg with
  | sequence hl _ ih =>
    obtain ⟨vs, he, hvs⟩ := toValue_sequence h
    cases he
    apply Everywhere.intro List.nodup_nil
    intro c hc
    obtain ⟨p, hp, rfl⟩ : ∃ p ∈ _, Prod.fst p = c :=
      List.mem_map.1 (by rw [List.map_fst_zip hl.le]; exact hc)
    exact ih p hp (List.forall₂_zip hvs hp)
  | mapping ht _ hk ih =>
    obtain ⟨ms, he, hms⟩ := toValue_mapping h
    cases he
    obtain ⟨hd, rfl⟩ := eq_of_kept ht hms hk
    apply Everywhere.intro ((nodup_texts_iff ht).2 hd)
    intro c hc
    obtain ⟨e, he, rfl⟩ := List.mem_map.1 hc
    obtain ⟨p, hp, rfl⟩ : ∃ p ∈ _, Prod.fst p = e :=
      List.mem_map.1 (by rw [List.map_fst_zip hms.length_eq.le]; exact he)
    exact ih p hp (List.forall₂_zip hms hp).2
  | tagged tag _ ih =>
    apply Everywhere.intro List.nodup_nil
    intro c hc
    rw [List.mem_singleton.1 hc]
    exact ih h
  | _ =>
    apply Everywhere.intro List.nodup_nil
    intro c hc
    cases hc

/-- Of a mapping that is read each key's text stands once, where it comes first, with the value that
comes last; so no entry is dropped at any depth exactly if no two keys of one mapping have the same
text. -/
theorem toValue_settled {d : Data} {v : Value} (h : d.toValue = .ok v) :
    Gives Settled d v ∧ (Gives Kept d v ↔ d.Separate) := by
  refine ⟨gives_settled h, ?_, ?_⟩
  · intro hg
    exact separate_of_gives_kept hg h
  · intro hs
    exact gives_kept_of_separate hs h

/-- A number and a text that spells it, as keys of one mapping inside of another. -/
theorem toValue_settled_spelled :
    let codes : List (Data × Data) := [(.number (.ofInt64 1), .string "one"), (.null, .null),
      (.string "1", .string "uno")]
    let d : Data := .mapping [(.string "codes", .tagged "!map" (.mapping codes))]
    let v : Value := .map [("codes", .map [("1", .ofString "uno"), ("", .null)])]
    d.toValue = .ok v ∧ Gives Settled d v ∧ ¬Gives Kept d v := by
  intro codes d v
  have h : d.toValue = .ok v := rfl
  obtain ⟨hg, hk⟩ := toValue_settled h
  refine ⟨h, hg, ?_⟩
  rw [hk]
  intro hs
  simp [Separate, d, codes, keys, keyText] at hs
  exact hs.2 rfl

end Yaml.Data
end Phrasebook
