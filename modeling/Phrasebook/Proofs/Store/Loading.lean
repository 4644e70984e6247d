import Phrasebook.Proofs.Store.Conversion
import Phrasebook.Proofs.Store.Writing

namespace Phrasebook

/-- Whether the files of a domain are taken for backups. -/
def isMarked (domain : String) : Bool := domain.toList.head? = some '~'

section
variable {locale name domain : String}

structure NamesDomain (locale name domain : String) : Prop where
  file : name = domain ++ fileSuffix locale "yml" ∨ name = domain ++ fileSuffix locale "yaml"
  nonempty : domain ≠ ""
  unmarked : isMarked domain = false

theorem beforeEnd?_eq_some_iff {ending text front : String} :
    beforeEnd? ending text = some front ↔ text = front ++ ending := by
  constructor
  · intro h
    rw [beforeEnd?] at h
    split at h
    · next hend =>
      cases h
      rw [← String.toList_inj, String.toList_append, String.toList_ofList, ← hend,
        List.take_append_drop]
    · cases h
  · rintro rfl
    have hn : (front ++ ending).toList.length - ending.length = front.toList.length := by
      rw [String.toList_append, List.length_append, String.length_toList, String.length_toList,
        Nat.add_sub_cancel]
    rw [beforeEnd?]
    simp only [hn]
    rw [String.toList_append, List.drop_left, if_pos rfl, List.take_left, String.ofList_toList]

theorem toList_append_fileSuffix (front locale ext : String) :
    (front ++ fileSuffix locale ext).toList =
      front.toList ++ '.' :: locale.toList ++ '.' :: ext.toList := by
  simp [fileSuffix]

theorem append_yml_ne_append_yaml (a b locale locale' : String) :
    a ++ fileSuffix locale "yml" ≠ b ++ fileSuffix locale' "yaml" := by
  intro h
  have hend := congrArg (fun s => s.toList.reverse.take 4) h
  simp only [toList_append_fileSuffix, List.reverse_append] at hend
  cases hend

theorem startsWith_backupMark_append (hd : domain ≠ "") (ending : String) :
    startsWith backupMark (domain ++ ending).toList = isMarked domain := by
  obtain ⟨c, cs, hc⟩ := List.exists_cons_of_ne_nil (mt String.toList_eq_nil_iff.1 hd)
  rw [startsWith, isMarked, String.toList_append, hc]
  show ('~' == c && true) = decide (some c = some '~')
  rw [Bool.and_true, Bool.beq_comm, Bool.beq_eq_decide_eq]
  simp

theorem domainOfFile?_eq_some_iff :
    domainOfFile? name locale = some domain ↔ NamesDomain locale name domain := by
  have hfirst (ext : String) :
      (beforeEnd? (fileSuffix locale ext) name).filter (· ≠ "") = some domain ↔
        name = domain ++ fileSuffix locale ext ∧ domain ≠ "" := by
    rw [Option.filter_eq_some_iff, beforeEnd?_eq_some_iff, decide_eq_true_iff]
  rw [domainOfFile?, catalogExtensions]
  constructor
  · intro h
    split at h
    · cases h
    · next hm =>
      obtain ⟨ext, hext, hdomain⟩ := List.exists_of_findSome?_eq_some h
      obtain ⟨hfile, hne⟩ := (hfirst ext).1 hdomain
      rw [hfile, startsWith_backupMark_append hne] at hm
      refine ⟨?_, hne, Bool.eq_false_iff.2 hm⟩
      simp only [List.mem_cons, List.not_mem_nil, or_false] at hext
      obtain rfl | rfl := hext
      · exact .inl hfile
      · exact .inr hfile
  · rintro ⟨hfile, hne, hmark⟩
    have hm : startsWith backupMark name.toList = false := by
      obtain rfl | rfl := hfile <;> rw [startsWith_backupMark_append hne, hmark]
    rw [if_neg (Bool.eq_false_iff.1 hm), List.findSome?_cons]
    obtain hfile | hfile := hfile
    · rw [(hfirst "yml").2 ⟨hfile, hne⟩]
    · have hnone : beforeEnd? (fileSuffix locale "yml") name = none := by
        rw [Option.eq_none_iff_forall_ne_some]
        intro front hfront
        exact append_yml_ne_append_yaml _ _ _ _ ((beforeEnd?_eq_some_iff.1 hfront).symm.trans hfile)
      rw [hnone, Option.filter_none, List.findSome?_cons, (hfirst "yaml").2 ⟨hfile, hne⟩]

end

namespace Store

variable {s : Store} {t : FileTree} {d : String} {l : Location}

theorem domainOfFile?_fileName (hd : d ≠ "") :
    domainOfFile? (s.fileName d) s.locale = if isMarked d then none else some d := by
  cases hm : isMarked d with
  | true =>
    rw [domainOfFile?, fileName, startsWith_backupMark_append hd, hm]
    rfl
  | false => exact domainOfFile?_eq_some_iff.2 ⟨.inl rfl, hd, hm⟩

theorem filePath_ne_backupPath {d' : String} (hs : s.Usable) (hd : PlainDomain d)
    (hd' : PlainDomain d') (hm : isMarked d = false) : s.filePath d ≠ s.backupPath d' := by
  intro h
  have hj := (Path.join_inj (entryName_fileName hs hd) (entryName_backupName hs hd')).1 h
  exact fileName_ne_backupName (of_decide_eq_false hm) hd.nonempty d' hj

/-- The entries of a catalog that are found again. -/
def found (es : List (String × Messages)) : List (String × Messages) :=
  (es.filter fun e => !isMarked e.1).map fun e => (e.1, reloaded e.2)

theorem found_cons_of_marked {e : String × Messages} (h : isMarked e.1 = true)
    (es : List (String × Messages)) : found (e :: es) = found es := by
  rw [found, List.filter_cons_of_neg (by simp [h]), found]

theorem found_cons_of_not_marked {e : String × Messages} (h : isMarked e.1 = false)
    (es : List (String × Messages)) : found (e :: es) = (e.1, reloaded e.2) :: found es := by
  rw [found, List.filter_cons_of_pos (by simp [h]), List.map_cons, found]

theorem found_perm {es es' : List (String × Messages)} (h : es.Perm es') :
    (found es).Perm (found es') :=
  (h.filter _).map _

theorem domains_add {loaded : Loaded} (h : d ∉ loaded.catalog.names) (path : Path) (m : Messages) :
    (loaded.add d path m).catalog.domains = loaded.catalog.domains ++ [(d, m)] := by
  rw [Loaded.add, Catalog.domain?, (Entries.get?_eq_none_iff _ _).2 h]
  exact Entries.insert_of_not_mem h

theorem loadFiles_fileNames {es : List (String × Messages)} (loaded : Loaded)
    (hne : ∀ e ∈ es, e.1 ≠ "")
    (hread : ∀ e ∈ es, readMessages t (s.filePath e.1) = .ok (reloaded e.2))
    (hdistinct : (loaded.catalog.names ++ Entries.keys es).Nodup) :
    ∃ files, loadFiles t s.dir s.locale loaded (es.map fun e => s.fileName e.1) =
      .ok ⟨⟨loaded.catalog.domains ++ found es⟩, files⟩ := by
  induction es generalizing loaded with
  | nil => exact ⟨loaded.files, by rw [found]; simp [loadFiles]⟩
  | cons e es ih =>
    have hne' := fun e' he' => hne e' (List.mem_cons_of_mem e he')
    have hread' := fun e' he' => hread e' (List.mem_cons_of_mem e he')
    rw [List.map_cons, loadFiles, domainOfFile?_fileName (hne e List.mem_cons_self)]
    rw [Entries.keys_cons] at hdistinct
    cases hm : isMarked e.1 with
    | true =>
      rw [found_cons_of_marked hm]
      refine ih loaded hne' hread' (hdistinct.sublist ?_)
      exact List.Sublist.append_left (List.sublist_cons_self _ _) _
    | false =>
      -- Nothing is loaded for this domain yet, so its messages are merged with none.
      have hnew : e.1 ∉ loaded.catalog.names := fun h =>
        (List.nodup_append.1 hdistinct).2.2 e.1 h e.1 List.mem_cons_self rfl
      have hadd := domains_add hnew (s.filePath e.1) (reloaded e.2)
      obtain ⟨files, hload⟩ := ih (loaded.add e.1 (s.filePath e.1) (reloaded e.2))
        hne' hread' (by
          rw [Catalog.names, hadd, Entries.keys_append, List.append_assoc]
          exact hdistinct)
      refine ⟨files, ?_⟩
      rw [hadd, List.append_assoc, List.singleton_append] at hload
      rw [found_cons_of_not_marked hm, ← hload]
      simp only [Bool.false_eq_true, if_false]
      have hfile := hread e List.mem_cons_self
      rw [filePath] at hfile ⊢
      rw [hfile]
      rfl

/-- The directory of a store is there, and the files right inside it are those of some domains. -/
structure Holds (s : Store) (t : FileTree) (l : Location) (es : List (String × Messages)) :
    Prop where
  stands : s.StandsAt t l
  names : t.fileNames l = es.map fun e => s.fileName e.1
  plain : ∀ e ∈ es, PlainDomain e.1
  distinct : Entries.Distinct es
  short : ∀ e ∈ es, (s.fileName e.1).utf8ByteSize ≤ maxNameSize
  text : ∀ e ∈ es,
    t.entry? (l ++ [s.fileName e.1]) = some (.file (.text (renderMessages e.2)))

variable {es : List (String × Messages)}

theorem Holds.readText (h : s.Holds t l es) (hs : s.Usable) {e : String × Messages}
    (he : e ∈ es) : t.readText (s.filePath e.1) = .ok (renderMessages e.2) := by
  have hfile := h.stands.locate_filePath hs (h.plain e he)
  rw [if_neg (Nat.not_lt.2 (h.short e he))] at hfile
  exact FileTree.readText_of_locate hfile (h.text e he)

theorem Holds.loadCatalog (h : s.Holds t l es) (hs : s.Usable)
    (hvalues : ∀ e ∈ es, (Value.map e.2).Distinct ∧
      Yaml.Data.read? (renderMessages e.2) = some (Value.map e.2).oneNaN.toData) :
    ∃ loaded, loadCatalog t s.dir s.locale = .ok loaded ∧
      loaded.catalog.domains.Perm (found es) := by
  let before (a b : String × Messages) : Bool := s.fileName a.1 ≤ s.fileName b.1
  have hperm := List.mergeSort_perm es before
  -- Sorting the names is sorting the domains by their names.
  have hsort : (t.fileNames l).mergeSort (· ≤ ·) =
      (es.mergeSort before).map fun e => s.fileName e.1 := by
    rw [h.names, List.map_mergeSort]
    exact fun _ _ _ _ => rfl
  have hread : ∀ e ∈ es.mergeSort before,
      readMessages t (s.filePath e.1) = .ok (reloaded e.2) := by
    intro e he
    have hmem := hperm.mem_iff.1 he
    rw [readMessages, h.readText hs hmem]
    exact messagesOfText_renderMessages _ (hvalues e hmem).1 (hvalues e hmem).2
  obtain ⟨files, hload⟩ := loadFiles_fileNames {}
    (fun e he => (h.plain e (hperm.mem_iff.1 he)).nonempty) hread
    ((hperm.map Prod.fst).nodup_iff.2 h.distinct)
  refine ⟨⟨⟨found (es.mergeSort before)⟩, files⟩, ?_, found_perm hperm⟩
  rw [Phrasebook.loadCatalog, h.stands.locate]
  simp only [h.stands.directory, if_true]
  rw [hsort, hload]
  rfl

theorem fits_set_file {d' : String} (h : d' ≠ d) (c : Content) :
    s.Fits (t.set (l ++ [s.fileName d]) (.file c)) l d' ↔ s.Fits t l d' := by
  rw [Fits, Fits, FileTree.entry?_set (by simp), if_neg (mt fileLocation_inj.1 h)]

theorem Holds.set_file (h : s.Holds t l es) (hd : PlainDomain d)
    (hnew : d ∉ Entries.keys es) (hfit : s.Fits t l d) (m : Messages) :
    s.Holds (t.set (l ++ [s.fileName d]) (.file (.text (renderMessages m)))) l ((d, m) :: es) := by
  constructor
  case stands =>
    have hfile : t.entry? (l ++ [s.fileName d]) ≠ some .directory := by rw [hfit.2]; nofun
    exact h.stands.set_file hfile _
  case names => rw [FileTree.fileNames_set_file hfit.2, h.names, List.map_cons]
  case plain => exact List.forall_mem_cons.2 ⟨hd, h.plain⟩
  case distinct => exact List.nodup_cons.2 ⟨hnew, h.distinct⟩
  case short => exact List.forall_mem_cons.2 ⟨hfit.1, h.short⟩
  case text =>
    refine List.forall_mem_cons.2 ⟨?_, fun e he => ?_⟩
    · rw [FileTree.entry?_set (by simp), if_pos rfl]
    · have hne : e.1 ≠ d := fun heq => hnew (heq ▸ Entries.mem_keys_of_mem he)
      rw [FileTree.entry?_set (by simp), if_neg (mt fileLocation_inj.1 hne), h.text e he]

theorem Holds.write (h : s.Holds t l es) (hs : s.Usable) (hd : PlainDomain d)
    (hnew : d ∉ Entries.keys es) (m : Messages) :
    (s.Fits t l d ∧
      s.write t d m = (t.set (l ++ [s.fileName d]) (.file (.text (renderMessages m))), none)) ∨
    (¬ s.Fits t l d ∧ ∃ e, s.write t d m = (t, some e)) := by
  refine write_of_no_file h.stands hs hd (fun c hc => ?_) m
  have hname := FileTree.mem_fileNames_of_entry?_eq hc
  rw [h.names] at hname
  obtain ⟨e, he, heq⟩ := List.mem_map.1 hname
  exact hnew (fileName_inj.1 heq ▸ Entries.mem_keys_of_mem he)

end Store
end Phrasebook
