import Phrasebook.Proofs.Files.Listing
import Phrasebook.Template.Discovery

namespace Phrasebook

variable {pattern text : String}

def IsGlob (pattern : String) : Prop := ∃ g, Glob.parse pattern = .ok g

def Covers (pattern text : String) : Prop :=
  ∃ g, Glob.parse pattern = .ok g ∧ Glob.matchesText g text = true

def HasWildcard (text : String) : Prop := '*' ∈ text.toList ∨ '?' ∈ text.toList

theorem Covers.isGlob (h : Covers pattern text) : IsGlob pattern :=
  have ⟨g, hg, _⟩ := h
  ⟨g, hg⟩

theorem isPattern_iff : isPattern text = true ↔ HasWildcard text := by
  rw [isPattern, List.any_eq_true, HasWildcard]
  constructor
  · rintro ⟨c, hc, h⟩
    simp only [Bool.or_eq_true, decide_eq_true_iff] at h
    obtain rfl | rfl := h
    · exact .inl hc
    · exact .inr hc
  · rintro (h | h) <;> exact ⟨_, h, rfl⟩

theorem any_validGlobs (patterns : List String) (text : String) :
    (validGlobs patterns).any (·.matchesText text) = true ↔ ∃ p ∈ patterns, Covers p text := by
  rw [List.any_eq_true]
  constructor
  · rintro ⟨g, hg, h⟩
    obtain ⟨p, hp, hg⟩ := List.mem_filterMap.1 hg
    cases hparse : Glob.parse p with
    | error e =>
      rw [hparse] at hg
      cases hg
    | ok g' =>
      rw [hparse] at hg
      cases hg
      exact ⟨p, hp, g, hparse, h⟩
  · rintro ⟨p, hp, g, hg, h⟩
    exact ⟨g, List.mem_filterMap.2 ⟨p, hp, by rw [hg]; rfl⟩, h⟩

namespace Selection

variable {s s' : Selection} {t t' : FileTree} {dir : Path} {above l : Location} {name : String}

/-- What makes a file a template, by its name and the directories above it: a pattern covers the
name, no ignore with a wildcard covers the whole way, and no other ignore leads along it. An ignore
without a wildcard is a path, also if it cannot be read as a pattern. -/
structure Takes (s : Selection) (above : Location) (name : String) : Prop where
  named : ∃ p ∈ s.patterns, Covers p name
  unmatched : ∀ p ∈ s.ignores, HasWildcard p → ¬ Covers p (slashed (above ++ [name]))
  outside : ∀ p ∈ s.ignores, ¬ HasWildcard p → ¬ (Path.mk p).components <+: above ++ [name]

theorem isIgnored_iff (way : Location) : s.isIgnored way = true ↔
    (∃ p ∈ s.ignores, ¬ HasWildcard p ∧ (Path.mk p).components <+: way) ∨
      ∃ p ∈ s.ignores, HasWildcard p ∧ Covers p (slashed way) := by
  rw [isIgnored, Bool.or_eq_true, any_validGlobs, ignorePaths, ignorePatterns]
  simp [← isPattern_iff, and_assoc]

theorem selects_iff : s.selects (above ++ [name]) = true ↔ s.Takes above name := by
  rw [selects, Bool.and_eq_true, Bool.not_eq_true', Bool.eq_false_iff, ne_eq, isIgnored_iff,
    any_validGlobs, List.getLastD_concat]
  constructor
  · rintro ⟨hignored, hnamed⟩
    exact ⟨hnamed, fun p hp hw hc => hignored (.inr ⟨p, hp, hw, hc⟩),
      fun p hp hw hc => hignored (.inl ⟨p, hp, hw, hc⟩)⟩
  · rintro ⟨hnamed, hunmatched, houtside⟩
    refine ⟨?_, hnamed⟩
    rintro (⟨p, hp, hw, hc⟩ | ⟨p, hp, hw, hc⟩)
    · exact houtside p hp hw hc
    · exact hunmatched p hp hw hc

/-- The templates below a directory: the files there that the selection takes, in the order of
their components. -/
structure Finds (s : Selection) (t : FileTree) (dir : Path) (files : List Path) : Prop where
  mem (file : Path) : file ∈ files ↔ ∃ l above name c, t.locate dir = .ok l ∧
    t.entry? l = some .directory ∧ t.entry? (l ++ (above ++ [name])) = some (.file c) ∧
    s.Takes above name ∧ file = (above ++ [name]).foldl Path.join dir
  ordered : files.Pairwise fun a b => List.Lex BytesLt a.components b.components

theorem mem_ways_iff (h : t.Sound) {way : Location} : way ∈ s.ways t l ↔
    ∃ above name c, way = above ++ [name] ∧ t.entry? (l ++ way) = some (.file c) ∧
      s.Takes above name := by
  rw [ways, List.mem_mergeSort, List.mem_filter, h.mem_filesBelow_iff]
  constructor
  · rintro ⟨⟨hne, c, hc⟩, hs⟩
    obtain rfl | ⟨above, name, rfl⟩ := way.eq_nil_or_concat'
    · exact absurd rfl hne
    · exact ⟨above, name, c, rfl, hc, selects_iff.1 hs⟩
  · rintro ⟨above, name, c, rfl, hc, ht⟩
    exact ⟨⟨by simp, c, hc⟩, selects_iff.2 ht⟩

theorem ways_ordered (h : t.Sound) (l : Location) :
    (s.ways t l).Pairwise (List.Lex BytesLt) :=
  pairwise_mergeSort_of_nodup Location.le_trans Location.le_total Location.lex_of_le_of_ne
    ((h.filesBelow_nodup l).filter _)

theorem components_of_mem_ways (h : t.Sound) (hd : dir.text ≠ "") {way : Location}
    (hw : way ∈ s.ways t l) : (way.foldl Path.join dir).components = dir.components ++ way := by
  obtain ⟨above, name, c, rfl, hc, -⟩ := (mem_ways_iff h).1 hw
  have hnames := h.names_of_entry? (by simp) hc
  exact Path.components_foldl_join hd fun name hn => (hnames name (List.mem_append_right l hn)).1

theorem templates_of_directory (s : Selection) (hl : t.locate dir = .ok l)
    (hd : t.entry? l = some .directory) :
    s.templates t dir = (s.ways t l).map fun way => way.foldl Path.join dir := by
  rw [templates, hl]
  exact if_pos hd

theorem templates_eq_nil (s : Selection)
    (h : ¬ ∃ l, t.locate dir = .ok l ∧ t.entry? l = some .directory) : s.templates t dir = [] := by
  rw [templates]
  cases hl : t.locate dir with
  | error e => rfl
  | ok l => exact if_neg fun hd => h ⟨l, hl, hd⟩

theorem finds_templates (s : Selection) (dir : Path) (h : t.Sound) :
    s.Finds t dir (s.templates t dir) := by
  by_cases hdir : ∃ l, t.locate dir = .ok l ∧ t.entry? l = some .directory
  case neg =>
    rw [s.templates_eq_nil hdir]
    refine ⟨fun file => iff_of_false List.not_mem_nil ?_, .nil⟩
    rintro ⟨l, above, name, c, hl, hd, -⟩
    exact hdir ⟨l, hl, hd⟩
  obtain ⟨l, hl, hd⟩ := hdir
  rw [s.templates_of_directory hl hd]
  constructor
  case mem =>
    intro file
    rw [List.mem_map]
    constructor
    · rintro ⟨way, hw, rfl⟩
      obtain ⟨above, name, c, rfl, hc, htakes⟩ := (mem_ways_iff h).1 hw
      exact ⟨l, above, name, c, hl, hd, hc, htakes, rfl⟩
    · rintro ⟨l', above, name, c, hl', -, hc, htakes, rfl⟩
      cases hl.symm.trans hl'
      exact ⟨_, (mem_ways_iff h).2 ⟨above, name, c, rfl, hc, htakes⟩, rfl⟩
  case ordered =>
    have hcomponents {way : Location} (hw : way ∈ s.ways t l) :=
      components_of_mem_ways h (FileTree.text_ne_empty_of_locate hl) hw
    refine List.pairwise_map.2 ((ways_ordered h l).imp_of_mem fun hw hw' hlt => ?_)
    rw [hcomponents hw, hcomponents hw']
    exact hlt.append_left _ _

/-- Selections with the same texts, however often and in whatever order, but for those that are read
as patterns and cannot be. -/
structure Similar (s s' : Selection) : Prop where
  patterns : ∀ p, IsGlob p → (p ∈ s'.patterns ↔ p ∈ s.patterns)
  ignores : ∀ p, (HasWildcard p → IsGlob p) → (p ∈ s'.ignores ↔ p ∈ s.ignores)

namespace Similar

theorem symm (h : s.Similar s') : s'.Similar s :=
  ⟨fun p hp => (h.patterns p hp).symm, fun p hp => (h.ignores p hp).symm⟩

theorem takes (h : s.Similar s') (ht : s.Takes above name) : s'.Takes above name := by
  constructor
  case named =>
    obtain ⟨p, hp, hc⟩ := ht.named
    exact ⟨p, (h.patterns p hc.isGlob).2 hp, hc⟩
  case unmatched =>
    intro p hp hw hc
    exact ht.unmatched p ((h.ignores p fun _ => hc.isGlob).1 hp) hw hc
  case outside =>
    intro p hp hw
    exact ht.outside p ((h.ignores p fun hw' => absurd hw' hw).1 hp) hw

end Similar

theorem Finds.unique {files files' : List Path} (h : s.Finds t dir files)
    (h' : s'.Finds t' dir files') (hlocate : t'.locate dir = t.locate dir)
    (hentry : ∀ l, t'.entry? l = t.entry? l)
    (htakes : ∀ above name, s'.Takes above name ↔ s.Takes above name) : files' = files := by
  refine eq_of_pairwise_of_mem_iff (fun a b => ?_) h'.ordered h.ordered fun file => ?_
  · exact List.lex_asymm fun h => h.asymm
  · rw [h'.mem, h.mem, hlocate]
    simp only [hentry, htakes]

/-- A search finds exactly the templates that its selection takes. Neither the order and the
repetition of the texts, nor the order of the entries, nor what is said about the search matters. -/
theorem search_exact (s : Selection) (dir : Path) (verbose : Bool) (h : t.Sound) :
    s.Finds t dir (s.search t dir verbose).templates ∧
      ∀ s' t' verbose', s.Similar s' → t.Reordered t' →
        (s'.search t' dir verbose').templates = (s.search t dir verbose).templates := by
  have hfinds := s.finds_templates dir h
  refine ⟨hfinds, fun s' t' verbose' hs ht => ?_⟩
  exact hfinds.unique (s'.finds_templates dir (ht.sound h)) (ht.locate h dir) (ht.entry? h)
    fun _ _ => ⟨hs.symm.takes, hs.takes⟩

/-- A pattern that cannot be read is left out, and ignores of both kinds are heeded. -/
theorem search_exact_ignoring :
    let s : Selection := ⟨["*.html.twig"], ["Admin", "**/legacy/**"]⟩
    let s' : Selection := ⟨["***", "*.html.twig", "*.html.twig"], ["**/legacy/**", "Admin"]⟩
    let text : FileEntry := .file (.text "")
    let t : FileTree :=
      { entries := [(["v"], .directory), (["v", "Admin"], .directory),
          (["v", "Admin", "list.html.twig"], text), (["v", "a"], .directory),
          (["v", "a", "legacy"], .directory), (["v", "a", "legacy", "old.html.twig"], text),
          (["v", "a", "new.html.twig"], text), (["v", "b.html.twig"], text),
          (["v", "notes.txt"], text)]
        home := [] }
    let t' : FileTree := { t with entries := t.entries.reverse }
    let files : List Path := [⟨"v/a/new.html.twig"⟩, ⟨"v/b.html.twig"⟩]
    t.Sound ∧ s.Similar s' ∧ t.Reordered t' ∧ s.Finds t ⟨"v"⟩ files ∧
      (s'.search t' ⟨"v"⟩ true).templates = files := by
  intro s s' text t t' files
  have hsound : t.Sound := by decide
  have hsimilar : s.Similar s' := by
    refine ⟨fun p hp => ?_, fun p _ => by simp [s, s', or_comm]⟩
    have hne : p ≠ "***" := by
      rintro rfl
      obtain ⟨g, hg⟩ := hp
      cases (show Glob.parse "***" = .error ⟨2, .tooManyStars⟩ by decide).symm.trans hg
    simp [s, s', hne]
  have hreordered : t.Reordered t' := ⟨rfl, List.reverse_perm t.entries⟩
  obtain ⟨hfinds, hsame⟩ := search_exact s ⟨"v"⟩ false hsound
  have hfiles : (s.search t ⟨"v"⟩ false).templates = files := by
    have hways : s.ways t ["v"] = [["a", "new.html.twig"], ["b.html.twig"]] := by
      have hselected : (t.filesBelow ["v"]).filter s.selects =
          [["a", "new.html.twig"], ["b.html.twig"]] := by decide
      rw [ways, hselected]
      exact List.mergeSort_of_pairwise (by decide)
    show (s.ways t ["v"]).map _ = _
    rw [hways]
    decide
  exact ⟨hsound, hsimilar, hreordered, hfiles ▸ hfinds, (hsame s' t' true hsimilar hreordered).trans
    hfiles⟩

end Selection
end Phrasebook
