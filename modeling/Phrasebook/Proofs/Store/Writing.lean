import Phrasebook.Proofs.Files.Tree
import Phrasebook.Store.Writing

namespace Phrasebook

/-- A domain without slashes and zero bytes that begins with no point. -/
structure PlainDomain (domain : String) : Prop where
  nonempty : domain ≠ ""
  visible : domain.toList.head? ≠ some '.'
  chars : ∀ c ∈ domain.toList, c ≠ '/' ∧ c ≠ '\\' ∧ c ≠ '\x00'

theorem isWritableDomain_iff {domain : String} :
    isWritableDomain domain = true ↔ PlainDomain domain := by
  have hany (cs : List Char) :
      cs.any (fun x => x == '/' || x == '\\' || x == '\x00') = false ↔
        ∀ c ∈ cs, c ≠ '/' ∧ c ≠ '\\' ∧ c ≠ '\x00' := by
    simp [List.any_eq_false, and_assoc]
  rw [isWritableDomain]
  cases hd : domain.toList with
  | nil =>
    refine ⟨nofun, fun h => ?_⟩
    exact absurd (String.toList_eq_nil_iff.1 hd) h.nonempty
  | cons c cs =>
    simp only [Bool.and_eq_true, bne_iff_ne, Bool.not_eq_true', hany]
    constructor
    · rintro ⟨hc, hcs⟩
      refine ⟨fun hn => ?_, by simpa [hd] using hc, hd ▸ hcs⟩
      rw [hn] at hd
      cases hd
    · intro h
      exact ⟨by simpa [hd] using h.visible, hd ▸ h.chars⟩

/-- A store whose files can be named: there is a directory, and nothing in the locale leads out of
it. -/
structure Store.Usable (s : Store) : Prop where
  dir : s.dir.text ≠ ""
  locale : ∀ c ∈ s.locale.toList, c ≠ '/' ∧ c ≠ '\x00'

namespace Store

variable {s : Store} {t t' : FileTree} {d d' : String} {l k : Location}

def backupName (s : Store) (domain : String) : String := backupMark ++ s.fileName domain

theorem toList_fileName (s : Store) (d : String) :
    (s.fileName d).toList = d.toList ++ '.' :: s.locale.toList ++ ['.', 'y', 'm', 'l'] := by
  simp [fileName, fileSuffix, catalogExtensions]

theorem fileName_eq (s : Store) (d : String) : s.fileName d = d ++ "." ++ s.locale ++ ".yml" := by
  rw [← String.toList_inj, toList_fileName]
  simp

theorem fileName_inj : s.fileName d = s.fileName d' ↔ d = d' := by
  rw [← String.toList_inj, toList_fileName, toList_fileName, ← String.toList_inj]
  simp

theorem toList_backupName (s : Store) (d : String) :
    (s.backupName d).toList = '~' :: (s.fileName d).toList := by
  simp [backupName, backupMark]

theorem backupName_eq (s : Store) (d : String) :
    s.backupName d = "~" ++ d ++ "." ++ s.locale ++ ".yml" := by
  rw [← String.toList_inj, toList_backupName, toList_fileName]
  simp

/-- Only a domain that begins with a tilde itself has a file that is called like a backup. -/
theorem fileName_ne_backupName (hd : d.toList.head? ≠ some '~') (hn : d ≠ "") (d' : String) :
    s.fileName d ≠ s.backupName d' := by
  intro h
  obtain ⟨c, cs, hc⟩ := List.exists_cons_of_ne_nil (mt String.toList_eq_nil_iff.1 hn)
  have hl := congrArg (fun name => name.toList.head?) h
  simp only [toList_fileName, toList_backupName, hc] at hl
  exact hd (by rw [hc]; exact hl)

theorem backupName_ne_fileName (s : Store) (d : String) : s.backupName d ≠ s.fileName d := by
  intro h
  have hl := congrArg (fun name => name.toList.length) h
  simp [toList_backupName] at hl

theorem fileLocation_inj : l ++ [s.fileName d] = l ++ [s.fileName d'] ↔ d = d' := by
  rw [List.append_cancel_left_eq, List.singleton_inj, fileName_inj]

theorem fileLocation_ne (s : Store) (l : Location) (d : String) :
    l ++ [s.fileName d] ≠ l ++ [s.backupName d] := by
  simpa using (s.backupName_ne_fileName d).symm

theorem fileName_chars (hs : s.Usable) (hd : PlainDomain d) :
    ∀ c ∈ (s.fileName d).toList, c ≠ '/' ∧ c ≠ '\x00' := by
  intro c hc
  simp only [toList_fileName, List.mem_append, List.mem_cons, List.not_mem_nil, or_false] at hc
  obtain (hc | rfl | hc) | rfl | rfl | rfl | rfl := hc
  · exact ⟨(hd.chars c hc).1, (hd.chars c hc).2.2⟩
  · decide
  · exact hs.locale c hc
  all_goals decide

theorem entryName_fileName (hs : s.Usable) (hd : PlainDomain d) : EntryName (s.fileName d) := by
  refine .of_length (fileName_chars hs hd) ?_
  simp only [toList_fileName, List.length_append, List.length_cons, List.length_nil]
  omega

theorem entryName_backupName (hs : s.Usable) (hd : PlainDomain d) :
    EntryName (s.backupName d) := by
  refine .of_length ?_ ?_
  · rw [toList_backupName]
    exact List.forall_mem_cons.2 ⟨by decide, fileName_chars hs hd⟩
  · simp only [toList_backupName, toList_fileName, List.length_append, List.length_cons,
      List.length_nil]
    omega

structure StandsAt (s : Store) (t : FileTree) (l : Location) : Prop where
  locate : t.locate s.dir = .ok l
  directory : t.entry? l = some .directory

namespace StandsAt

theorem altered {may : Location → Prop} (h : s.StandsAt t l) (ha : FileTree.Altered may t t') :
    s.StandsAt t' l :=
  ⟨ha.locate h.locate, ha.directory h.directory⟩

theorem set_file (h : s.StandsAt t l) (hk : t.entry? k ≠ some .directory) (c : Content) :
    s.StandsAt (t.set k (.file c)) l := by
  have ha : t.Altered (fun _ => True) (t.set k (.file c)) := .set_file trivial hk c
  exact h.altered ha

theorem makeDirectories (h : s.StandsAt t l) : t.makeDirectories s.dir = (t, none) :=
  FileTree.makeDirectories_of_directory h.locate h.directory

theorem locate_filePath (h : s.StandsAt t l) (hs : s.Usable) (hd : PlainDomain d) :
    t.locate (s.filePath d) =
      if maxNameSize < (s.fileName d).utf8ByteSize then .error .nameTooLong
      else .ok (l ++ [s.fileName d]) :=
  FileTree.locate_join h.locate h.directory (entryName_fileName hs hd)

theorem locate_backupPath (h : s.StandsAt t l) (hs : s.Usable) (hd : PlainDomain d) :
    t.locate (s.backupPath d) =
      if maxNameSize < (s.backupName d).utf8ByteSize then .error .nameTooLong
      else .ok (l ++ [s.backupName d]) :=
  FileTree.locate_join h.locate h.directory (entryName_backupName hs hd)

end StandsAt

theorem exists_standsAt (hs : s.Usable) (h : t.makeDirectories s.dir = (t', none)) :
    ∃ l, s.StandsAt t' l := by
  obtain ⟨l, hl, hd⟩ := FileTree.locate_makeDirectories hs.dir h
  exact ⟨l, hl, hd⟩

theorem backUp_of_none (h : s.StandsAt t l) (hs : s.Usable) (hd : PlainDomain d)
    (hn : t.entry? (l ++ [s.fileName d]) = none) : s.backUp t d = .ok t := by
  have he : t.hasEntry (s.filePath d) = false := by
    have hfile := h.locate_filePath hs hd
    split at hfile
    · exact FileTree.hasEntry_of_error hfile
    · rw [FileTree.hasEntry_of_locate hfile, hn]
      rfl
  simp only [backUp, he, Bool.false_eq_true, if_false]

structure BackedUp (s : Store) (l : Location) (t t' : FileTree) (d : String) : Prop where
  file : t'.entry? (l ++ [s.fileName d]) ≠ some .directory
  backup : ∀ c, t.entry? (l ++ [s.fileName d]) = some (.file c) →
    t'.entry? (l ++ [s.backupName d]) = some (.file c)
  altered : t.Altered (fun k => k = l ++ [s.backupName d] ∧
    t.entry? (l ++ [s.fileName d]) ≠ none) t'

theorem backedUp_of_backUp (h : s.StandsAt t l) (hs : s.Usable) (hd : PlainDomain d)
    (hsize : (s.fileName d).utf8ByteSize ≤ maxNameSize) (hb : s.backUp t d = .ok t') :
    s.BackedUp l t t' d := by
  have hfile := h.locate_filePath hs hd
  rw [if_neg (Nat.not_lt.2 hsize)] at hfile
  cases hn : t.entry? (l ++ [s.fileName d]) with
  | none =>
    rw [backUp_of_none h hs hd hn] at hb
    cases hb
    exact ⟨by rw [hn]; nofun, by rw [hn]; nofun, .refl _ _⟩
  | some e =>
    have he : t.hasEntry (s.filePath d) = true := by
      rw [FileTree.hasEntry_of_locate hfile, hn]
      rfl
    simp only [backUp, he, if_true] at hb
    cases hc : t.copy (s.filePath d) (s.backupPath d) with
    | error e =>
      rw [hc] at hb
      cases hb
    | ok t₂ =>
      rw [hc] at hb
      cases hb
      obtain ⟨k, c, hk, hkc, hw⟩ := FileTree.copy_ok hc
      cases hfile.symm.trans hk
      obtain ⟨k, hk, hkd, rfl⟩ := FileTree.write_ok hw
      rw [h.locate_backupPath hs hd] at hk
      split at hk
      · cases hk
      · cases hk
        refine ⟨?_, fun c' hc' => ?_, .set_file ⟨rfl, by rw [hkc]; nofun⟩ hkd c⟩
        · rw [FileTree.entry?_set (by simp), if_neg (s.fileLocation_ne l d), hkc]
          nofun
        · rw [FileTree.entry?_set (by simp), if_pos rfl, ← hkc, hc']

/-- What a write of a domain has done to a tree in which its directory stands. -/
structure Wrote (s : Store) (l : Location) (t t' : FileTree) (d : String) (m : Messages) :
    Prop where
  file : t'.entry? (l ++ [s.fileName d]) = some (.file (.text (renderMessages m)))
  backup : ∀ c, t.entry? (l ++ [s.fileName d]) = some (.file c) →
    t'.entry? (l ++ [s.backupName d]) = some (.file c)
  altered : t.Altered (fun k => k = l ++ [s.fileName d] ∨
    k = l ++ [s.backupName d] ∧ t.entry? (l ++ [s.fileName d]) ≠ none) t'

theorem BackedUp.wrote {t₁ : FileTree} (hb : s.BackedUp l t t₁ d) (m : Messages) :
    s.Wrote l t (t₁.set (l ++ [s.fileName d]) (.file (.text (renderMessages m)))) d m := by
  constructor
  · rw [FileTree.entry?_set (by simp), if_pos rfl]
  · intro c hc
    rw [FileTree.entry?_set (by simp), if_neg (s.fileLocation_ne l d).symm, hb.backup c hc]
  · exact (hb.altered.mono fun k hk => .inr hk).trans (.set_file (.inl rfl) hb.file _)

theorem write_makeDirectories (hs : s.Usable) (h : t.makeDirectories s.dir = (t', none))
    (d : String) (m : Messages) : s.write t d m = s.write t' d m := by
  obtain ⟨l, ht⟩ := exists_standsAt hs h
  simp only [write, h, ht.makeDirectories]

theorem write_of_long (h : s.StandsAt t l) (hs : s.Usable) (hd : PlainDomain d)
    (hsize : maxNameSize < (s.fileName d).utf8ByteSize) (m : Messages) :
    s.write t d m = (t, some (.content (s.filePath d) .nameTooLong)) := by
  have hfile := h.locate_filePath hs hd
  rw [if_pos hsize] at hfile
  have hb : s.backUp t d = .ok t := by
    simp only [backUp, FileTree.hasEntry_of_error hfile, Bool.false_eq_true, if_false]
  have hw : t.write (s.filePath d) (.text (renderMessages m)) = .error .nameTooLong := by
    rw [FileTree.write, hfile]
    rfl
  simp only [write, h.makeDirectories, hb, hw]

theorem write_of_backUp_error {e : WriteError} (h : s.StandsAt t l)
    (hb : s.backUp t d = .error e) (m : Messages) : s.write t d m = (t, some e) := by
  simp only [write, h.makeDirectories, hb]

theorem write_of_backUp_ok (h : s.StandsAt t l) (hs : s.Usable) (hd : PlainDomain d)
    (hsize : (s.fileName d).utf8ByteSize ≤ maxNameSize) (hb : s.backUp t d = .ok t')
    (m : Messages) :
    s.write t d m = (t'.set (l ++ [s.fileName d]) (.file (.text (renderMessages m))), none) := by
  have hbacked := backedUp_of_backUp h hs hd hsize hb
  have hfile := (h.altered hbacked.altered).locate_filePath hs hd
  rw [if_neg (Nat.not_lt.2 hsize)] at hfile
  simp only [write, h.makeDirectories, hb, FileTree.write_of_locate hfile hbacked.file]

def Fits (s : Store) (t : FileTree) (l : Location) (domain : String) : Prop :=
  (s.fileName domain).utf8ByteSize ≤ maxNameSize ∧ t.entry? (l ++ [s.fileName domain]) = none

instance (s : Store) (t : FileTree) (l : Location) (domain : String) :
    Decidable (s.Fits t l domain) :=
  inferInstanceAs (Decidable (_ ∧ _))

theorem write_of_no_file (h : s.StandsAt t l) (hs : s.Usable) (hd : PlainDomain d)
    (hn : ∀ c, t.entry? (l ++ [s.fileName d]) ≠ some (.file c)) (m : Messages) :
    (s.Fits t l d ∧
      s.write t d m = (t.set (l ++ [s.fileName d]) (.file (.text (renderMessages m))), none)) ∨
    (¬ s.Fits t l d ∧ ∃ e, s.write t d m = (t, some e)) := by
  by_cases hsize : maxNameSize < (s.fileName d).utf8ByteSize
  · exact .inr ⟨fun hfit => Nat.not_le.2 hsize hfit.1, _, write_of_long h hs hd hsize m⟩
  have hsize := Nat.le_of_not_lt hsize
  cases he : t.entry? (l ++ [s.fileName d]) with
  | none =>
    have hb := backUp_of_none h hs hd he
    exact .inl ⟨⟨hsize, he⟩, write_of_backUp_ok h hs hd hsize hb m⟩
  | some entry =>
    refine .inr ⟨fun hfit => Option.some_ne_none entry (he.symm.trans hfit.2), ?_⟩
    cases hb : s.backUp t d with
    | error e => exact ⟨e, write_of_backUp_error h hb m⟩
    | ok t₁ =>
      have hbacked := backedUp_of_backUp h hs hd hsize hb
      cases entry with
      | file c => exact absurd he (hn c)
      | directory => exact absurd (hbacked.altered.directory he) hbacked.file

/-- A write first makes the directories. Then it fails without touching a file, or it succeeds. -/
theorem write_cases (hs : s.Usable) (hd : PlainDomain d) (t : FileTree) (m : Messages) :
    ∃ t₁, (∀ may, t.Altered may t₁) ∧
      ((∃ e, s.write t d m = (t₁, some e)) ∨
        ∃ l t', s.StandsAt t₁ l ∧ s.Wrote l t₁ t' d m ∧ s.write t d m = (t', none)) := by
  refine ⟨(t.makeDirectories s.dir).1, fun may => t.makeDirectories_altered may s.dir, ?_⟩
  obtain ⟨t₁, e, hm⟩ : ∃ t₁ e, t.makeDirectories s.dir = (t₁, e) := ⟨_, _, rfl⟩
  simp only [hm]
  cases e with
  | some e => exact .inl ⟨.directory s.dir e, by rw [write, hm]⟩
  | none =>
    obtain ⟨l, h⟩ := exists_standsAt hs hm
    rw [write_makeDirectories hs hm]
    by_cases hsize : maxNameSize < (s.fileName d).utf8ByteSize
    · exact .inl ⟨_, write_of_long h hs hd hsize m⟩
    · have hsize := Nat.le_of_not_lt hsize
      cases hb : s.backUp t₁ d with
      | error e => exact .inl ⟨e, write_of_backUp_error h hb m⟩
      | ok t₂ =>
        have hbacked := backedUp_of_backUp h hs hd hsize hb
        exact .inr ⟨l, _, h, hbacked.wrote m, write_of_backUp_ok h hs hd hsize hb m⟩

end Store
end Phrasebook
