import Phrasebook.Proofs.Store.Writing

namespace Phrasebook

namespace FileTree

variable {t t' : FileTree} {l k : Location} {p q : Path} {c : Content}

theorem walk_eq_of_forall_ne {ss : List String} (h : ∀ s ∈ ss, s ≠ "..")
    (hw : t.walk l ss = .ok k) : k = l ++ ss.filter (!Path.isIdle ·) := by
  induction ss generalizing l with
  | nil =>
    cases hw
    simp
  | cons s ss ih =>
    have hss := fun s' hs' => h s' (List.mem_cons_of_mem s hs')
    obtain ⟨-, ⟨hi, hw⟩ | ⟨-, hu, -⟩ | ⟨hi, -, -, hw⟩⟩ := walk_cons_ok hw
    · rw [List.filter_cons_of_neg (by simp [hi])]
      exact ih hss hw
    · exact absurd hu (h s List.mem_cons_self)
    · rw [List.filter_cons_of_pos (by simp [hi]), ih hss hw]
      simp

theorem walk_of_visible {s : String} {ss : List String} (hs : s.toList.head? ≠ none)
    (hv : s.toList.head? ≠ some '.') (hw : t.walk l (s :: ss) = .ok k) :
    t.entry? l = some .directory ∧ t.walk (l ++ [s]) ss = .ok k := by
  obtain ⟨hd, ⟨hi, -⟩ | ⟨-, rfl, -⟩ | ⟨-, -, -, hw⟩⟩ := walk_cons_ok hw
  · simp only [Path.isIdle, Bool.or_eq_true, decide_eq_true_eq] at hi
    obtain rfl | rfl := hi
    · exact absurd rfl hs
    · exact absurd rfl hv
  · exact absurd rfl hv
  · exact ⟨hd, hw⟩

theorem copy_of_locate (hp : t.locate p = .ok l) (hl : t.entry? l = some (.file c)) (q : Path) :
    t.copy p q = t.write q c := by
  simp only [copy, hp, bind, Except.bind, hl]

end FileTree

namespace Store

variable {s : Store} {t t' : FileTree} {d : String} {file copy : Location} {c : Content}
  {e : WriteError}

theorem not_isAbsolute_fileName (hd : PlainDomain d) :
    (Path.mk (s.fileName d)).isAbsolute = false := by
  obtain ⟨c, cs, hc⟩ := List.exists_cons_of_ne_nil (mt String.toList_eq_nil_iff.1 hd.nonempty)
  have hslash := (hd.chars c (hc ▸ List.mem_cons_self)).1
  simp [Path.isAbsolute, toList_fileName, hc, hslash]

theorem not_isAbsolute_backupName (s : Store) (d : String) :
    (Path.mk (s.backupName d)).isAbsolute = false := by
  simp [Path.isAbsolute, toList_backupName]

/-- The parts of the locale behind its first slash are parts of the names of file and backup, the
last one with the ending. -/
theorem segments_fileName (s : Store) (hd : PlainDomain d) :
    ∃ first parts, (Path.mk (s.fileName d)).segments = first :: parts ∧
      (Path.mk (s.backupName d)).segments = ("~" ++ first) :: parts ∧
      first.toList.head? = d.toList.head? ∧
      ∀ part ∈ parts, part ∈ (Path.mk s.locale).segments.tail ∨ ∃ text, part = text ++ ".yml" := by
  have hslash : ∀ c ∈ d.toList ++ ['.'], (c == '/') = false := by
    intro c hc
    obtain hc | hc := List.mem_append.1 hc
    · exact beq_eq_false_iff_ne.2 (hd.chars c hc).1
    · cases List.mem_singleton.1 hc
      rfl
  have hmark : ∀ c ∈ '~' :: (d.toList ++ ['.']), (c == '/') = false :=
    List.forall_mem_cons.2 ⟨rfl, hslash⟩
  have hend : ∀ c ∈ ".yml".toList, (c == '/') = false := by simp
  obtain ⟨above, last, hl, hle⟩ := splitAt_append_end hend s.locale.toList
  obtain ⟨first, parts, hs, hf⟩ := splitAt_append_of_forall hslash
    (s.locale.toList ++ ".yml".toList)
  obtain ⟨first', parts', hs', hb⟩ := splitAt_append_of_forall hmark
    (s.locale.toList ++ ".yml".toList)
  cases hs.symm.trans hs'
  have hfile : (s.fileName d).toList =
      d.toList ++ ['.'] ++ (s.locale.toList ++ ".yml".toList) := by
    simp [toList_fileName]
  refine ⟨String.ofList (d.toList ++ ['.'] ++ first), parts.map String.ofList, ?_, ?_, ?_, ?_⟩
  · rw [Path.segments, hfile, hf, List.map_cons]
  · have hback : (s.backupName d).toList =
        '~' :: (d.toList ++ ['.']) ++ (s.locale.toList ++ ".yml".toList) := by
      rw [toList_backupName, hfile, List.cons_append]
    have hfirst : String.ofList ('~' :: (d.toList ++ ['.']) ++ first) =
        "~" ++ String.ofList (d.toList ++ ['.'] ++ first) := by
      rw [← String.toList_inj]
      simp
    rw [Path.segments, hback, hb, List.map_cons, hfirst]
  · obtain ⟨c, cs, hc⟩ := List.exists_cons_of_ne_nil (mt String.toList_eq_nil_iff.1 hd.nonempty)
    simp [hc]
  · intro part hp
    obtain ⟨cs, hcs, rfl⟩ := List.mem_map.1 hp
    rw [hle] at hs
    rw [Path.segments, hl]
    -- The first part of the locale belongs to the first part of the name.
    cases above with
    | nil =>
      cases hs
      cases hcs
    | cons one above =>
      cases hs
      obtain hcs | hcs := List.mem_append.1 hcs
      · refine .inl (List.mem_map_of_mem ?_)
        exact List.mem_append_left _ hcs
      · cases List.mem_singleton.1 hcs
        exact .inr ⟨String.ofList last, by rw [← String.toList_inj]; simp⟩

theorem location_ne_of_forall_ne (hd : PlainDomain d)
    (hlocale : ∀ part ∈ (Path.mk s.locale).segments.tail, part ≠ "..")
    (hfile : t.locate (s.filePath d) = .ok file) (hcopy : t.locate (s.backupPath d) = .ok copy) :
    copy ≠ file := by
  obtain ⟨base, hbase⟩ := t.exists_walk_of_locate_join s.dir
  obtain ⟨l, hl, hwf⟩ := hbase _ _ (not_isAbsolute_fileName hd) hfile
  obtain ⟨l', hl', hwc⟩ := hbase _ _ (s.not_isAbsolute_backupName d) hcopy
  cases hl.symm.trans hl'
  obtain ⟨first, parts, hsf, hsc, hdf, hparts⟩ := s.segments_fileName hd
  rw [hsf] at hwf
  rw [hsc] at hwc
  have hne : ∀ part ∈ parts, part ≠ ".." := by
    intro part hp
    obtain hp | ⟨text, rfl⟩ := hparts part hp
    · exact hlocale part hp
    · intro h
      have hlen := congrArg (fun name => name.toList.length) h
      simp at hlen
  obtain ⟨c, cs, hc⟩ := List.exists_cons_of_ne_nil (mt String.toList_eq_nil_iff.1 hd.nonempty)
  have hvisible := hd.visible
  rw [← hdf] at hvisible
  obtain ⟨-, hwf⟩ := FileTree.walk_of_visible (by rw [hdf, hc]; nofun) hvisible hwf
  obtain ⟨-, hwc⟩ := FileTree.walk_of_visible (by simp) (by simp) hwc
  rw [FileTree.walk_eq_of_forall_ne hne hwf, FileTree.walk_eq_of_forall_ne hne hwc]
  simp

theorem backUp_cases (s : Store) (t : FileTree) (d : String) :
    (s.backUp t d = .ok t ∧ t.hasEntry (s.filePath d) = false) ∨
      (∃ file c copy, t.locate (s.filePath d) = .ok file ∧ t.entry? file = some (.file c) ∧
        t.locate (s.backupPath d) = .ok copy ∧ t.entry? copy ≠ some .directory ∧
        s.backUp t d = .ok (t.set copy (.file c))) ∨
      ∃ e, s.backUp t d = .error e := by
  rw [backUp]
  cases he : t.hasEntry (s.filePath d) with
  | false => exact .inl ⟨rfl, rfl⟩
  | true =>
    cases hc : t.copy (s.filePath d) (s.backupPath d) with
    | error e => exact .inr (.inr ⟨_, rfl⟩)
    | ok t' =>
      obtain ⟨file, c, hfile, hentry, hw⟩ := FileTree.copy_ok hc
      obtain ⟨copy, hcopy, hd, rfl⟩ := FileTree.write_ok hw
      exact .inr (.inl ⟨file, c, copy, hfile, hentry, hcopy, hd, rfl⟩)

theorem backUp_of_reachable (hfile : t.locate (s.filePath d) = .ok file)
    (hentry : t.entry? file ≠ some .directory)
    (hback : t.entry? file ≠ none →
      ∃ copy, t.locate (s.backupPath d) = .ok copy ∧ t.entry? copy ≠ some .directory) :
    ∃ t', s.backUp t d = .ok t' := by
  simp only [backUp, FileTree.hasEntry_of_locate hfile]
  cases he : t.entry? file with
  | none => exact ⟨t, rfl⟩
  | some entry =>
    cases entry with
    | directory => exact absurd he hentry
    | file c =>
      obtain ⟨copy, hcopy, hd⟩ := hback (by simp [he])
      rw [FileTree.copy_of_locate hfile he, FileTree.write_of_locate hcopy hd]
      exact ⟨_, rfl⟩

/-- Whether a write can succeed: its directories can be made, and neither its file nor, where there
is something to be kept, its backup is out of reach or a directory. -/
def CanWrite (s : Store) (t : FileTree) (d : String) : Prop :=
  ∃ t₁ file, t.makeDirectories s.dir = (t₁, none) ∧ t₁.locate (s.filePath d) = .ok file ∧
    t₁.entry? file ≠ some .directory ∧
    (FileTree.entry? t₁ file ≠ none →
      ∃ copy, t₁.locate (s.backupPath d) = .ok copy ∧ t₁.entry? copy ≠ some .directory)

theorem write_of_not_canWrite (h : ¬ s.CanWrite t d) (m : Messages) :
    ∃ t₁ e, t.Altered (fun _ => False) t₁ ∧ s.write t d m = (t₁, some e) := by
  have ha := t.makeDirectories_altered (fun _ => False) s.dir
  rw [write]
  cases hm : t.makeDirectories s.dir with
  | mk t₁ cause =>
    rw [hm] at ha
    refine ⟨t₁, ?_⟩
    cases cause with
    | some cause => exact ⟨_, ha, rfl⟩
    | none =>
      obtain ⟨hb, he⟩ | ⟨file, c, copy, hfile, hentry, hcopy, hd, hb⟩ | ⟨e, hb⟩ :=
        s.backUp_cases t₁ d
      · simp only [hb]
        cases hw : t₁.write (s.filePath d) (.text (renderMessages m)) with
        | error cause => exact ⟨_, ha, rfl⟩
        | ok t₂ =>
          -- There was nothing to be kept, and the file could be written.
          obtain ⟨file, hfile, hd, -⟩ := FileTree.write_ok hw
          rw [FileTree.hasEntry_of_locate hfile, Option.isSome_eq_false_iff,
            Option.isNone_iff_eq_none] at he
          exact absurd ⟨t₁, file, hm, hfile, hd, fun hne => absurd he hne⟩ h
      · exact absurd ⟨t₁, file, hm, hfile, by simp [hentry], fun _ => ⟨copy, hcopy, hd⟩⟩ h
      · simp only [hb]
        exact ⟨e, ha, rfl⟩

/-- How a write that succeeds has changed a tree. The file of the domain, at `file`, holds the
messages; nothing stood there and no other file has changed, or its backup holds what was there and
no file but these two has changed. -/
structure Replaced (s : Store) (t t' : FileTree) (d : String) (m : Messages) (file : Location) :
    Prop where
  locate : t'.locate (s.filePath d) = .ok file
  content : t'.entry? file = some (.file (.text (renderMessages m)))
  before : (t.entry? file = none ∧ t.Altered (· = file) t') ∨
    ∃ c copy, t.entry? file = some (.file c) ∧ t'.locate (s.backupPath d) = .ok copy ∧
      t.Altered (fun l => l = file ∨ l = copy) t' ∧
      (copy ≠ file → t'.entry? copy = some (.file c)) ∧
      ((∀ part ∈ (Path.mk s.locale).segments.tail, part ≠ "..") → copy ≠ file)

theorem write_of_canWrite (h : s.CanWrite t d) (hd : PlainDomain d) (m : Messages) :
    ∃ t' file, s.Replaced t t' d m file ∧ s.write t d m = (t', none) := by
  obtain ⟨t₁, file, hm, hfile, hentry, hback⟩ := h
  have ha : ∀ may, t.Altered may t₁ := fun may => by
    have ha := t.makeDirectories_altered may s.dir
    rwa [hm] at ha
  have hbefore : t.entry? file = t₁.entry? file := (ha _).entry?_eq hentry
  have hne : file ≠ [] := FileTree.ne_nil_of_entry?_ne hentry
  rw [write, hm]
  obtain ⟨hb, he⟩ | ⟨file', c, copy, hfile', hc, hcopy, hdir, hb⟩ | ⟨e, hb⟩ := s.backUp_cases t₁ d
  · rw [FileTree.hasEntry_of_locate hfile, Option.isSome_eq_false_iff,
      Option.isNone_iff_eq_none] at he
    simp only [hb, FileTree.write_of_locate hfile hentry]
    have hset : t₁.Altered (· = file) (t₁.set file (.file (.text (renderMessages m)))) :=
      .set_file (by rfl) hentry _
    refine ⟨_, file, ⟨hset.locate hfile, ?_, .inl ⟨hbefore.trans he, (ha _).trans hset⟩⟩, rfl⟩
    rw [FileTree.entry?_set hne, if_pos rfl]
  · cases hfile.symm.trans hfile'
    have hcopied : t₁.Altered (fun l => l = file ∨ l = copy) (t₁.set copy (.file c)) :=
      .set_file (.inr rfl) hdir c
    obtain ⟨c', hc'⟩ := hcopied.file hc
    have hset : (t₁.set copy (.file c)).Altered (fun l => l = file ∨ l = copy)
        ((t₁.set copy (.file c)).set file (.file (.text (renderMessages m)))) :=
      .set_file (.inl rfl) (by simp [hc']) _
    have hboth := hcopied.trans hset
    have hwrite := FileTree.write_of_locate (hcopied.locate hfile) (by simp [hc'])
    simp only [hb, hwrite]
    refine ⟨_, file, ⟨hboth.locate hfile, ?_, .inr ⟨c, copy, hbefore.trans hc,
      hboth.locate hcopy, (ha _).trans hboth, fun hcf => ?_, fun hlocale => ?_⟩⟩, rfl⟩
    · rw [FileTree.entry?_set hne, if_pos rfl]
    · rw [FileTree.entry?_set hne, if_neg hcf,
        FileTree.entry?_set (FileTree.ne_nil_of_entry?_ne hdir), if_pos rfl]
    · exact location_ne_of_forall_ne hd hlocale hfile hcopy
  · obtain ⟨t₂, hok⟩ := backUp_of_reachable hfile hentry hback
    rw [hb] at hok
    cases hok

/-- What a write may come to: it succeeds exactly when it can, then the old content is kept, and
without success no file is touched. -/
structure Keeps (s : Store) (t : FileTree) (d : String) (m : Messages)
    (result : FileTree × Option WriteError) : Prop where
  success : result.2 = none → ∃ file, s.Replaced t result.1 d m file
  failure : result.2 ≠ none → t.Altered (fun _ => False) result.1
  possible : result.2 = none ↔ s.CanWrite t d

theorem write_keeps (s : Store) (t : FileTree) (d : String) (m : Messages)
    (hd : isWritableDomain d = true) : s.Keeps t d m (s.write t d m) := by
  by_cases h : s.CanWrite t d
  · obtain ⟨t', file, hr, hw⟩ := write_of_canWrite h (isWritableDomain_iff.1 hd) m
    rw [hw]
    exact ⟨fun _ => ⟨file, hr⟩, fun hne => absurd rfl hne, iff_of_true rfl h⟩
  · obtain ⟨t₁, e, ha, hw⟩ := write_of_not_canWrite h m
    rw [hw]
    exact ⟨nofun, fun _ => ha, iff_of_false nofun h⟩

theorem write_keeps_existing :
    let s : Store := ⟨⟨"tr"⟩, "fr"⟩
    let m : Messages := [("Save", .scalar (.str "Sauver"))]
    let old : Content := .text "Save: Enregistrer\n"
    let t : FileTree :=
      { entries := [(["h", "tr", "d.fr.yml"], .file old), (["h", "tr"], .directory),
          (["h"], .directory)]
        home := ["h"] }
    isWritableDomain "d" = true ∧ s.Keeps t "d" m (s.write t "d" m) ∧
      (s.write t "d" m).2 = none ∧
      (s.write t "d" m).1.at? ⟨"tr/d.fr.yml"⟩ = some (.file (.text "Save: Sauver\n")) ∧
      (s.write t "d" m).1.at? ⟨"tr/~d.fr.yml"⟩ = some (.file old) := by
  intro s m old t
  have hd : isWritableDomain "d" = true := by decide
  exact ⟨hd, write_keeps s t "d" m hd, by decide +kernel, by decide +kernel, by decide +kernel⟩

/-- A locale that leads up takes the backup to the file itself, and the old content is lost. -/
theorem write_loses_sameFile :
    let s : Store := ⟨⟨"tr"⟩, "/../x"⟩
    let m : Messages := [("Save", .scalar (.str "Sauver"))]
    let old : Content := .text "Save: Enregistrer\n"
    let t : FileTree :=
      { entries := [(["h", "tr", "x.yml"], .file old), (["h", "tr", "~d."], .directory),
          (["h", "tr", "d."], .directory), (["h", "tr"], .directory), (["h"], .directory)]
        home := ["h"] }
    isWritableDomain "d" = true ∧ t.at? (s.filePath "d") = some (.file old) ∧
      (s.write t "d" m).2 = none ∧ (s.write t "d" m).1.at? (s.backupPath "d") ≠ some (.file old) ∧
      ∀ l, FileTree.entry? (s.write t "d" m).1 l ≠ some (.file old) := by
  intro s m old t
  have hentries : ∀ e ∈ (s.write t "d" m).1.entries, e.2 ≠ .file old := by decide +kernel
  refine ⟨by decide, by decide +kernel, by decide +kernel, by decide +kernel, fun l hl => ?_⟩
  have hne : l ≠ [] := by
    rintro rfl
    cases hl
  exact hentries _ (FileTree.mem_entries_of_entry?_eq hne hl) rfl

end Store
end Phrasebook
