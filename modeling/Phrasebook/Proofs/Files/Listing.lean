import Phrasebook.Proofs.Files.Ancestors
import Phrasebook.Proofs.Files.Tree
import Phrasebook.Proofs.Text.ByteOrder

namespace Phrasebook

section
variable {α : Type}

theorem pairwise_mergeSort_of_nodup {le : α → α → Bool} {lt : α → α → Prop}
    (trans : ∀ a b c, le a b = true → le b c = true → le a c = true)
    (total : ∀ a b, (le a b || le b a) = true) (strict : ∀ a b, le a b = true → a ≠ b → lt a b)
    {as : List α} (h : as.Nodup) : (as.mergeSort le).Pairwise lt := by
  have hsorted := List.pairwise_mergeSort trans total as
  have hdistinct := (List.mergeSort_perm as le).nodup_iff.2 h
  exact (hsorted.and hdistinct).imp fun hab => strict _ _ hab.1 hab.2

theorem eq_of_pairwise_of_mem_iff {lt : α → α → Prop} (asymm : ∀ a b, lt a b → ¬ lt b a)
    {as bs : List α} (ha : as.Pairwise lt) (hb : bs.Pairwise lt) (h : ∀ a, a ∈ as ↔ a ∈ bs) :
    as = bs := by
  have hnodup {cs : List α} (hc : cs.Pairwise lt) : cs.Nodup := by
    refine hc.imp fun {a b} hab he => ?_
    subst he
    exact asymm a a hab hab
  have hperm := (List.perm_ext_iff_of_nodup (hnodup ha) (hnodup hb)).2 h
  exact hperm.eq_of_pairwise (fun a b _ _ hab hba => absurd hba (asymm a b hab)) ha hb

end

theorem BytesLt.asymm {a b : String} (h : BytesLt a b) : ¬ BytesLt b a := List.lt_asymm h

namespace Location

theorem le_iff (a b : Location) : a.le b = true ↔ ¬ List.Lex (· < ·) b a := by
  induction a generalizing b with
  | nil => simp [Location.le]
  | cons x a ih =>
    cases b with
    | nil => simp [Location.le]
    | cons y b =>
      rw [Location.le, Bool.or_eq_true, Bool.and_eq_true, decide_eq_true_iff, decide_eq_true_iff,
        ih]
      exact List.cons_le_cons_iff.symm

theorem le_trans (a b c : Location) (hab : a.le b = true) (hbc : b.le c = true) :
    a.le c = true := by
  rw [le_iff] at *
  exact List.le_trans hab hbc

theorem le_total (a b : Location) : (a.le b || b.le a) = true := by
  rw [Bool.or_eq_true, le_iff, le_iff]
  exact List.le_total a b

theorem lex_of_le_of_ne (a b : Location) (h : a.le b = true) (hne : a ≠ b) :
    List.Lex BytesLt a b :=
  have hlt := (List.le_iff_lt_or_eq.1 ((le_iff a b).1 h)).resolve_right hne
  .imp (fun _ _ => .of_lt) a b hlt

end Location

namespace Path

variable {dir : Path} {name : String}

theorem components_join (hd : dir.text ≠ "") (hn : EntryName name) :
    (dir.join name).components = dir.components ++ [name] := by
  obtain ⟨first, parts, hs, hj⟩ := segments_join hd
  have hjoin := (hj name hn.isAbsolute).1
  rw [hn.segments, List.cons_append] at hjoin
  have hdir : dir.components = lead first :: parts.filter (!isIdle ·) := by
    obtain h | h := hs
    · exact components_of_segments hd h
    · rw [List.cons_append] at h
      rw [components_of_segments hd h, filter_of_idle (by simp [isIdle])]
  rw [components_of_segments (text_join_ne_empty hd name) hjoin, hdir, List.filter_append,
    List.filter_cons_of_pos (by simp [hn.idle])]
  rfl

theorem components_foldl_join {way : Location} (hd : dir.text ≠ "")
    (hn : ∀ name ∈ way, EntryName name) :
    (way.foldl join dir).components = dir.components ++ way := by
  induction way generalizing dir with
  | nil => exact (List.append_nil _).symm
  | cons name way ih =>
    rw [List.forall_mem_cons] at hn
    rw [List.foldl_cons, ih (text_join_ne_empty hd name) hn.2, components_join hd hn.1,
      List.append_assoc]
    rfl

end Path

namespace FileTree

variable {t t' : FileTree} {l way : Location} {e : FileEntry} {c : Content} {name : String}

theorem mem_filesBelow :
    way ∈ t.filesBelow l ↔ way ≠ [] ∧ ∃ c, (l ++ way, .file c) ∈ t.entries := by
  rw [filesBelow, List.mem_filterMap]
  constructor
  · rintro ⟨⟨k, e⟩, hmem, h⟩
    cases e with
    | directory => cases h
    | file c =>
      simp only [Option.ite_none_right_eq_some, Bool.and_eq_true, List.isPrefixOf_iff_prefix,
        decide_eq_true_iff] at h
      obtain ⟨⟨⟨way, rfl⟩, hne⟩, hway⟩ := h
      rw [List.drop_left] at hway
      cases hway
      exact ⟨fun hw => hne (by rw [hw, List.append_nil]), c, hmem⟩
  · rintro ⟨hw, c, hmem⟩
    exact ⟨_, hmem, by simp [hw]⟩

/-- A tree that a file system can have: there is one entry at a location, and every name on the way
to it is one that the file system allows. -/
structure Sound (t : FileTree) : Prop where
  distinct : (t.entries.map Prod.fst).Nodup
  names : ∀ e ∈ t.entries, ∀ name ∈ e.1, EntryName name ∧ name.utf8ByteSize ≤ maxNameSize

instance (t : FileTree) : Decidable t.Sound :=
  decidable_of_iff ((t.entries.map Prod.fst).Nodup ∧
    ∀ e ∈ t.entries, ∀ name ∈ e.1, EntryName name ∧ name.utf8ByteSize ≤ maxNameSize)
    ⟨fun h => ⟨h.1, h.2⟩, fun h => ⟨h.distinct, h.names⟩⟩

namespace Sound

theorem mem_entries_iff (h : t.Sound) (hl : l ≠ []) : (l, e) ∈ t.entries ↔ t.entry? l = some e := by
  refine ⟨fun hmem => ?_, mem_entries_of_entry?_eq hl⟩
  obtain ⟨before, after, he⟩ := List.append_of_mem hmem
  have hdistinct := h.distinct
  rw [he, List.map_append, List.map_cons] at hdistinct
  rw [entry?_of_ne hl, List.lookup_eq_some_iff]
  refine ⟨before, after, he, fun p hp => bne_iff_ne.2 fun hlp => ?_⟩
  exact (List.nodup_append.1 hdistinct).2.2 p.1 (List.mem_map_of_mem hp) l List.mem_cons_self
    hlp.symm

theorem names_of_entry? (h : t.Sound) (hl : l ≠ []) (he : t.entry? l = some e) :
    ∀ name ∈ l, EntryName name ∧ name.utf8ByteSize ≤ maxNameSize :=
  h.names _ ((h.mem_entries_iff hl).2 he)

/-- Nothing is listed twice if what is listed of any entries tells where it stands. -/
theorem nodup_filterMap {α : Type} (h : t.Sound) {f : Location × FileEntry → Option α}
    (location : α → Location)
    (hf : ∀ es : List (Location × FileEntry), ∀ a ∈ es.filterMap f, ∃ e, (location a, e) ∈ es) :
    (t.entries.filterMap f).Nodup := by
  have hstands (e : Location × FileEntry) (a : α) (ha : f e = some a) : e.1 = location a := by
    obtain ⟨e', he'⟩ := hf [e] a (List.mem_filterMap.2 ⟨e, List.mem_singleton_self e, ha⟩)
    rw [← List.mem_singleton.1 he']
  refine List.pairwise_filterMap.2 ((List.pairwise_map.1 h.distinct).imp ?_)
  rintro e e' hne a ha a' ha' rfl
  exact hne ((hstands e a ha).trans (hstands e' a ha').symm)

theorem mem_fileNames_iff (h : t.Sound) :
    name ∈ t.fileNames l ↔ ∃ c, t.entry? (l ++ [name]) = some (.file c) :=
  mem_fileNames.trans (exists_congr fun _ => h.mem_entries_iff (by simp))

theorem fileNames_nodup (h : t.Sound) (l : Location) : (t.fileNames l).Nodup :=
  h.nodup_filterMap (fun name => l ++ [name]) fun es _ hname =>
    have ⟨c, hc⟩ := mem_fileNames (t := ⟨es, []⟩).1 hname
    ⟨.file c, hc⟩

theorem mem_filesBelow_iff (h : t.Sound) :
    way ∈ t.filesBelow l ↔ way ≠ [] ∧ ∃ c, t.entry? (l ++ way) = some (.file c) := by
  refine mem_filesBelow.trans (and_congr_right fun hw => exists_congr fun c => ?_)
  exact h.mem_entries_iff fun hn => hw (List.append_eq_nil_iff.1 hn).2

theorem filesBelow_nodup (h : t.Sound) (l : Location) : (t.filesBelow l).Nodup :=
  h.nodup_filterMap (fun way => l ++ way) fun es _ hway =>
    have ⟨_, c, hc⟩ := mem_filesBelow (t := ⟨es, []⟩).1 hway
    ⟨.file c, hc⟩

end Sound

structure Reordered (t t' : FileTree) : Prop where
  home : t'.home = t.home
  entries : t'.entries.Perm t.entries

theorem walk_congr (h : ∀ l, t'.entry? l = t.entry? l) (l : Location) (ss : List String) :
    t'.walk l ss = t.walk l ss := by
  induction ss generalizing l with
  | nil => rfl
  | cons s ss ih => simp only [walk, h, ih]

theorem locate_congr (hhome : t'.home = t.home) (h : ∀ l, t'.entry? l = t.entry? l) (p : Path) :
    t'.locate p = t.locate p := by
  have hstart : t'.start p = t.start p := by rw [start, start, hhome]
  rw [locate, locate, hstart, walk_congr h]

namespace Reordered

theorem sound (h : t.Reordered t') (hs : t.Sound) : t'.Sound :=
  ⟨(h.entries.map Prod.fst).nodup_iff.2 hs.distinct,
    fun e he => hs.names e (h.entries.mem_iff.1 he)⟩

theorem entry? (h : t.Reordered t') (hs : t.Sound) (l : Location) :
    FileTree.entry? t' l = FileTree.entry? t l := by
  by_cases hl : l = []
  · rw [hl, entry?_nil, entry?_nil]
  · refine Option.ext fun e => ?_
    rw [← (h.sound hs).mem_entries_iff hl, ← hs.mem_entries_iff hl, h.entries.mem_iff]

theorem locate (h : t.Reordered t') (hs : t.Sound) (p : Path) :
    FileTree.locate t' p = FileTree.locate t p :=
  locate_congr h.home (h.entry? hs) p

theorem readText (h : t.Reordered t') (hs : t.Sound) (p : Path) :
    FileTree.readText t' p = FileTree.readText t p := by
  simp only [FileTree.readText, h.locate hs, h.entry? hs]

end Reordered
end FileTree
end Phrasebook
