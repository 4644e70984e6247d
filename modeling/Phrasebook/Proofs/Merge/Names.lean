import Phrasebook.Proofs.Merge.Addition

namespace Phrasebook
namespace Value

variable {a b base es : Messages} {k key : String} {v : Value}

/-- The keys that are names and not places in a list, in their order. -/
def names (es : Messages) : List String := (Entries.keys es).filter fun k => !isNumericKey k

theorem names_cons_numeric (hk : isNumericKey k = true) :
    names ((k, v) :: es) = names es := by
  rw [names, Entries.keys_cons, List.filter_cons_of_neg (by simp [hk])]
  rfl

theorem names_cons_name (hk : isNumericKey k = false) :
    names ((k, v) :: es) = k :: names es := by
  rw [names, Entries.keys_cons, List.filter_cons_of_pos (by simp [hk])]
  rfl

theorem mem_names : k ∈ names es ↔ k ∈ Entries.keys es ∧ isNumericKey k = false := by
  rw [names, List.mem_filter, Bool.not_eq_true']

theorem names_insert_numeric (hk : isNumericKey k = true) (es : Messages) (v : Value) :
    names (Entries.insert es k v) = names es := by
  rw [names, Entries.keys_insert]
  split
  · rfl
  · rw [List.filter_append, List.filter_cons_of_neg (by simp [hk]), List.filter_nil,
      List.append_nil]
    rfl

theorem names_insert_name (hk : isNumericKey k = false) (es : Messages) (v : Value) :
    names (Entries.insert es k v) = if k ∈ Entries.keys es then names es else names es ++ [k] := by
  rw [names, Entries.keys_insert]
  split
  · rfl
  · rw [List.filter_append, List.filter_cons_of_pos (by simp [hk]), List.filter_nil]
    rfl

theorem names_append (es : Messages) (s : Scalar) : names (append es s) = names es := by
  rcases append_cases es s with h | h
  · rw [h]
  · rw [h, names_insert_numeric (isNumericKey_nextIndex es)]

theorem names_mergeEntry_numeric (hk : isNumericKey k = true) (base : Messages) (v : Value)
    (f : Value → Value) : names (mergeEntry base k v f) = names base := by
  rcases mergeEntry_cases base k v f with ⟨w, h⟩ | ⟨s, -, -, -, h⟩
  · rw [h, names_insert_numeric hk]
  · rw [h, names_append]

theorem names_mergeEntry_name (hk : isNumericKey k = false) (base : Messages) (v : Value)
    (f : Value → Value) :
    names (mergeEntry base k v f) =
      if k ∈ Entries.keys base then names base else names base ++ [k] := by
  rcases mergeEntry_cases base k v f with ⟨w, h⟩ | ⟨s, -, hn, -, -⟩
  · rw [h, names_insert_name hk]
  · rw [hk] at hn
    cases hn

theorem contains_mergeEntry_of_ne (hkey : isNumericKey key = false) (hne : k ≠ key)
    (base : Messages) (v : Value) (f : Value → Value) :
    Entries.contains (mergeEntry base k v f) key = Entries.contains base key := by
  have hn : nextIndex base ≠ key := by
    intro h
    have hi := isNumericKey_nextIndex base
    rw [h, hkey] at hi
    cases hi
  rw [Entries.contains, Entries.contains, get?_mergeEntry_of_ne hne hn]

theorem newNames_mergeEntry (hk : k ∉ Entries.keys es) (base : Messages) (v : Value)
    (f : Value → Value) :
    (names es).filter (fun name => !Entries.contains (mergeEntry base k v f) name) =
      (names es).filter fun name => !Entries.contains base name := by
  apply List.filter_congr
  intro name hm
  obtain ⟨hmem, hname⟩ := mem_names.1 hm
  have hne : k ≠ name := by
    rintro rfl
    exact hk hmem
  rw [contains_mergeEntry_of_ne hname hne]

theorem names_mergeEntries (hd : Entries.Distinct es) (base : Messages) :
    names (mergeEntries base es) =
      names base ++ (names es).filter fun k => !Entries.contains base k := by
  induction es generalizing base with
  | nil => exact (List.append_nil _).symm
  | cons e es ih =>
    obtain ⟨k, v⟩ := e
    rw [mergeEntries_cons, ih hd.tail, newNames_mergeEntry hd.head]
    cases hk : isNumericKey k with
    | true => rw [names_mergeEntry_numeric hk, names_cons_numeric hk]
    | false =>
      rw [names_mergeEntry_name hk, names_cons_name hk]
      by_cases hm : k ∈ Entries.keys base
      · rw [if_pos hm, List.filter_cons_of_neg]
        simpa using Entries.contains_eq_true_iff.2 hm
      · rw [if_neg hm, List.filter_cons_of_pos, List.append_assoc]
        · rfl
        · simpa using Entries.contains_eq_false_iff.2 hm

/-- The outcome of a merge of two containers, name by name. -/
structure JoinedByName (base addition result : Value) : Prop where
  container : result.isContainer = true
  order : names result.entries =
    names base.entries ++ (names addition.entries).filter fun k =>
      !Entries.contains base.entries k
  kept : ∀ k, isNumericKey k = false → k ∉ Entries.keys addition.entries →
    Entries.get? result.entries k = Entries.get? base.entries k
  new : ∀ k, isNumericKey k = false → k ∉ Entries.keys base.entries →
    Entries.get? result.entries k = Entries.get? addition.entries k
  leaf : ∀ k s t, isNumericKey k = false → Entries.get? base.entries k = some (scalar s) →
    Entries.get? addition.entries k = some (scalar t) →
    Entries.get? result.entries k = some (scalar t)
  /-- Two values of which one is a container are merged in turn. -/
  deep : ∀ k v w, isNumericKey k = false → Entries.get? base.entries k = some v →
    Entries.get? addition.entries k = some w → v.isContainer = true ∨ w.isContainer = true →
    Entries.get? result.entries k = some (v.mergeAll [w])

/-- Named entries are merged by name, beside list items of any kind on either side. -/
theorem mergeAll_joinedByName {b a : Value} (hb : b.isContainer = true)
    (ha : a.isContainer = true) (hd : a.Distinct) : JoinedByName b a (b.mergeAll [a]) := by
  have hentries : (b.mergeAll [a]).entries = mergeEntries b.entries a.entries := by
    rw [mergeAll_singleton, entries_merge, toMessages_eq_entries hb, additions_eq_entries ha]
  have hda := hd.entries
  constructor
  · rw [mergeAll_singleton, isContainer_merge]
  · rw [hentries, names_mergeEntries hda]
  · intro k hk hm
    rw [hentries, get?_mergeEntries_of_not_mem hm (.of_name hk _ _)]
  · intro k hk hm
    rw [hentries, get?_mergeEntries_new hk hda ((Entries.get?_eq_none_iff _ _).2 hm)]
  · intro k s t hk hs ht
    rw [hentries, get?_mergeEntries_of_mem hda (.of_name hk _ _) hs ht, joined_name hk rfl rfl]
  · intro k v w hk hv hw hc
    rw [hentries, get?_mergeEntries_of_mem hda (.of_name hk _ _) hv hw,
      joined_of_isContainer k hc, mergeAll_singleton]

/-- Names between items that are appended, left out and merged into a group of their own. -/
theorem mergeAll_joinedByName_menu :
    let b : Value := .map [("menu", .ofString "__menu"), ("7", .ofString "Sept"),
      ("home", .ofString "__home")]
    let a : Value := .map [("0", .ofString "Huit"), ("exit", .null), ("1e1", .ofString "Sept"),
      ("home", .ofString "Accueil"), ("menu", .map [("soup", .ofString "Soupe")])]
    b.isContainer = true ∧ a.isContainer = true ∧ a.Distinct ∧
      names (b.mergeAll [a]).entries = ["menu", "home", "exit"] ∧
      Entries.get? (b.mergeAll [a]).entries "home" = some (.ofString "Accueil") := by
  intro b a
  have hd : a.Distinct := by
    simp [a, Value.Distinct, DistinctEntries, Entries.Distinct, Entries.keys, ofString, null]
  have h : JoinedByName b a (b.mergeAll [a]) := mergeAll_joinedByName rfl rfl hd
  refine ⟨rfl, rfl, hd, ?_, h.leaf _ _ _ (by decide) rfl rfl⟩
  rw [h.order]
  decide

end Value
end Phrasebook
