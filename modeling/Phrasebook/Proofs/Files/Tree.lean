import Phrasebook.Files.Tree
import Phrasebook.Proofs.Files.Path

namespace Phrasebook

theorem lookup_filter_ne {α β : Type} [BEq α] [LawfulBEq α] [DecidableEq α] {k l : α} (h : k ≠ l)
    (es : List (α × β)) : (es.filter (·.1 ≠ l)).lookup k = es.lookup k := by
  induction es with
  | nil => rfl
  | cons e es ih =>
    obtain ⟨a, b⟩ := e
    by_cases ha : a = l
    · subst ha
      rw [List.filter_cons_of_neg (by simp), ih, List.lookup_cons, beq_eq_false_iff_ne.2 h]
    · rw [List.filter_cons_of_pos (by simpa using ha), List.lookup_cons, List.lookup_cons, ih]

namespace FileTree

variable {t t' t'' : FileTree} {k l : Location} {e : FileEntry} {p q : Path} {c : Content}

@[simp] theorem entry?_nil (t : FileTree) : t.entry? [] = some .directory := rfl

@[simp] theorem home_set (t : FileTree) (l : Location) (e : FileEntry) :
    (t.set l e).home = t.home := rfl

theorem entry?_of_ne (hl : l ≠ []) (t : FileTree) : t.entry? l = t.entries.lookup l := if_neg hl

theorem entry?_set (hl : l ≠ []) (t : FileTree) (e : FileEntry) (k : Location) :
    FileTree.entry? (t.set l e) k = if k = l then some e else t.entry? k := by
  unfold entry? set
  by_cases hk : k = []
  · subst hk
    rw [if_pos rfl, if_pos rfl, if_neg (Ne.symm hl)]
  · rw [if_neg hk, if_neg hk, List.lookup_cons]
    by_cases h : k = l
    · simp [h]
    · rw [beq_eq_false_iff_ne.2 h, if_neg h, lookup_filter_ne h]

theorem ne_nil_of_entry?_ne (h : t.entry? l ≠ some .directory) : l ≠ [] := by
  rintro rfl
  exact h rfl

/-- A tree that came from another one by making directories where nothing stood and by putting
files, in place of other files or where nothing stood, at locations of a certain kind. -/
structure Altered (may : Location → Prop) (t t' : FileTree) : Prop where
  home : t'.home = t.home
  entry (l : Location) : t'.entry? l = t.entry? l ∨
    (t.entry? l = none ∧ t'.entry? l = some .directory) ∨
    (may l ∧ t.entry? l ≠ some .directory ∧ ∃ c, t'.entry? l = some (.file c))

namespace Altered

variable {may may' : Location → Prop}

theorem refl (may : Location → Prop) (t : FileTree) : Altered may t t := ⟨rfl, fun _ => .inl rfl⟩

theorem directory (h : Altered may t t') (hl : t.entry? l = some .directory) :
    t'.entry? l = some .directory := by
  obtain he | ⟨hn, -⟩ | ⟨-, hd, -⟩ := h.entry l
  · exact he.trans hl
  · rw [hn] at hl
    cases hl
  · exact absurd hl hd

theorem trans (h : Altered may t t') (h' : Altered may t' t'') : Altered may t t'' := by
  refine ⟨h'.home.trans h.home, fun l => ?_⟩
  obtain he' | ⟨hn', hd'⟩ | ⟨hm', hd', hf'⟩ := h'.entry l
  · rw [he']
    exact h.entry l
  · obtain he | ⟨-, hd⟩ | ⟨-, -, c, hc⟩ := h.entry l
    · exact .inr (.inl ⟨he.symm.trans hn', hd'⟩)
    · rw [hn'] at hd
      cases hd
    · rw [hn'] at hc
      cases hc
  · exact .inr (.inr ⟨hm', fun hd => hd' (h.directory hd), hf'⟩)

theorem mono (h : Altered may t t') (hm : ∀ l, may l → may' l) : Altered may' t t' :=
  ⟨h.home, fun l => (h.entry l).imp_right (.imp_right fun ⟨ha, hr⟩ => ⟨hm l ha, hr⟩)⟩

theorem set_file (hm : may l) (hl : t.entry? l ≠ some .directory) (c : Content) :
    Altered may t (t.set l (.file c)) := by
  refine ⟨rfl, fun k => ?_⟩
  rw [entry?_set (ne_nil_of_entry?_ne hl)]
  split
  · next h => exact .inr (.inr (h ▸ ⟨hm, hl, c, rfl⟩))
  · exact .inl rfl

theorem set_directory (may : Location → Prop) (hl : t.entry? l = none) :
    Altered may t (t.set l .directory) := by
  have hne : t.entry? l ≠ some .directory := by simp [hl]
  refine ⟨rfl, fun k => ?_⟩
  rw [entry?_set (ne_nil_of_entry?_ne hne)]
  split
  · next h => exact .inr (.inl ⟨h ▸ hl, rfl⟩)
  · exact .inl rfl

theorem entry?_eq (h : Altered (fun _ => False) t t') (hl : t'.entry? l ≠ some .directory) :
    t.entry? l = t'.entry? l := by
  obtain he | ⟨-, he⟩ | ⟨hm, -⟩ := h.entry l
  · exact he.symm
  · exact absurd he hl
  · exact hm.elim

theorem file (h : Altered may t t') (hl : t.entry? l = some (.file c)) :
    ∃ c', t'.entry? l = some (.file c') := by
  obtain he | ⟨hn, -⟩ | ⟨-, -, hf⟩ := h.entry l
  · exact ⟨c, he.trans hl⟩
  · rw [hn] at hl
    cases hl
  · exact hf

end Altered

theorem walk_cons_of_directory (hl : t.entry? l = some .directory) (s : String)
    (ss : List String) :
    t.walk l (s :: ss) =
      if Path.isIdle s then t.walk l ss
      else if s = ".." then t.walk l.dropLast ss
      else if maxNameSize < s.utf8ByteSize then .error .nameTooLong
      else t.walk (l ++ [s]) ss := by
  rw [walk, hl]

theorem walk_cons_of_ne (hl : t.entry? l ≠ some .directory) (s : String) :
    ∃ cause, ∀ ss, t.walk l (s :: ss) = .error cause := by
  cases he : t.entry? l with
  | none => exact ⟨.missing, fun ss => by rw [walk, he]⟩
  | some e =>
    cases e with
    | file c => exact ⟨.notDirectory, fun ss => by rw [walk, he]⟩
    | directory => exact absurd he hl

theorem walk_append (t : FileTree) (l : Location) (ss ss' : List String) :
    t.walk l (ss ++ ss') = (t.walk l ss).bind fun l => t.walk l ss' := by
  induction ss generalizing l with
  | nil => rfl
  | cons s ss ih =>
    rw [List.cons_append]
    by_cases hl : t.entry? l = some .directory
    · rw [walk_cons_of_directory hl, walk_cons_of_directory hl]
      split
      · exact ih l
      · split
        · exact ih l.dropLast
        · split
          · rfl
          · exact ih (l ++ [s])
    · obtain ⟨cause, hw⟩ := walk_cons_of_ne hl s
      rw [hw, hw]
      rfl

theorem walk_cons_ok {s : String} {ss : List String} (h : t.walk l (s :: ss) = .ok k) :
    t.entry? l = some .directory ∧
      ((Path.isIdle s = true ∧ t.walk l ss = .ok k) ∨
        (Path.isIdle s = false ∧ s = ".." ∧ t.walk l.dropLast ss = .ok k) ∨
        (Path.isIdle s = false ∧ s ≠ ".." ∧ s.utf8ByteSize ≤ maxNameSize ∧
          t.walk (l ++ [s]) ss = .ok k)) := by
  by_cases hl : t.entry? l = some .directory
  case neg =>
    obtain ⟨cause, hw⟩ := walk_cons_of_ne hl s
    rw [hw] at h
    cases h
  refine ⟨hl, ?_⟩
  rw [walk_cons_of_directory hl] at h
  split at h
  · next hi => exact .inl ⟨hi, h⟩
  · next hi =>
    have hi := Bool.eq_false_iff.2 hi
    split at h
    · next hu => exact .inr (.inl ⟨hi, hu, h⟩)
    · next hu =>
      split at h
      · cases h
      · next hs => exact .inr (.inr ⟨hi, hu, Nat.le_of_not_lt hs, h⟩)

theorem Altered.walk {may : Location → Prop} (h : Altered may t t') {ss : List String}
    (hw : t.walk l ss = .ok k) : t'.walk l ss = .ok k := by
  induction ss generalizing l with
  | nil => exact hw
  | cons s ss ih =>
    obtain ⟨hd, hw⟩ := walk_cons_ok hw
    rw [walk_cons_of_directory (h.directory hd)]
    obtain ⟨hi, hw⟩ | ⟨hi, hu, hw⟩ | ⟨hi, hu, hs, hw⟩ := hw
    · rw [if_pos hi, ih hw]
    · rw [if_neg (Bool.eq_false_iff.1 hi), if_pos hu, ih hw]
    · rw [if_neg (Bool.eq_false_iff.1 hi), if_neg hu, if_neg (Nat.not_lt.2 hs), ih hw]

theorem Altered.locate {may : Location → Prop} (h : Altered may t t') (hp : t.locate p = .ok l) :
    t'.locate p = .ok l := by
  rw [FileTree.locate] at hp ⊢
  split at hp
  · cases hp
  · next hne =>
    split at hp
    · cases hp
    · next hz =>
      have hs : t'.start p = t.start p := by rw [start, start, h.home]
      rw [if_neg hne, if_neg hz, hs]
      exact h.walk hp

theorem text_ne_empty_of_locate (h : t.locate p = .ok l) : p.text ≠ "" := by
  intro he
  rw [locate, if_pos he] at h
  cases h

theorem hasEntry_of_locate (h : t.locate p = .ok l) : t.hasEntry p = (t.entry? l).isSome := by
  rw [hasEntry, at?, h]

theorem hasEntry_of_error {cause : FileError} (h : t.locate p = .error cause) :
    t.hasEntry p = false := by
  rw [hasEntry, at?, h]
  rfl

theorem readText_of_locate {text : String} (h : t.locate p = .ok l)
    (he : t.entry? l = some (.file (.text text))) : t.readText p = .ok text := by
  simp only [readText, h, bind, Except.bind, he]

theorem isDirectory_iff :
    t.isDirectory p = true ↔ ∃ l, t.locate p = .ok l ∧ t.entry? l = some .directory := by
  rw [isDirectory, at?]
  cases t.locate p <;> simp

theorem zero_not_mem_of_locate (h : t.locate p = .ok l) : '\x00' ∉ p.text.toList := by
  intro hz
  rw [locate, if_neg (text_ne_empty_of_locate h), if_pos hz] at h
  cases h

theorem start_join (t : FileTree) (p : Path) :
    ∃ l parts, (t.start p = (l, parts) ∨ t.start p = (l, parts ++ [""])) ∧
      ∀ name, (Path.mk name).isAbsolute = false →
        t.start (p.join name) = (l, parts ++ (Path.mk name).segments) := by
  by_cases hp : p.text = ""
  · refine ⟨t.home, [], .inr ?_, fun name hn => ?_⟩
    · rw [start, Path.isAbsolute, Path.segments, hp]
      rfl
    · rw [Path.join_of_empty hp, start, hn]
      rfl
  obtain ⟨first, parts, hs, hj⟩ := Path.segments_join hp
  cases ha : p.isAbsolute with
  | true =>
    refine ⟨[], parts, ?_, fun name hn => ?_⟩
    · rw [start, ha]
      refine hs.imp ?_ ?_ <;>
      · intro h
        rw [h]
        rfl
    · rw [start, (hj name hn).1, (hj name hn).2, ha]
      rfl
  | false =>
    refine ⟨t.home, first :: parts, ?_, fun name hn => ?_⟩
    · rw [start, ha]
      refine hs.imp ?_ ?_ <;>
      · intro h
        rw [h]
        rfl
    · rw [start, (hj name hn).1, (hj name hn).2, ha]
      rfl

theorem walk_of_locate (h : t.locate p = .ok l) : t.walk (t.start p).1 (t.start p).2 = .ok l := by
  have hz := zero_not_mem_of_locate h
  rwa [locate, if_neg (text_ne_empty_of_locate h), if_neg hz] at h

/-- Whatever is joined to a path is walked to from one location. -/
theorem exists_walk_of_locate_join (t : FileTree) (dir : Path) :
    ∃ base : Except FileError Location, ∀ name k, (Path.mk name).isAbsolute = false →
      t.locate (dir.join name) = .ok k →
        ∃ l, base = .ok l ∧ t.walk l (Path.mk name).segments = .ok k := by
  obtain ⟨l₀, parts, -, hj⟩ := start_join t dir
  refine ⟨t.walk l₀ parts, fun name k hn hk => ?_⟩
  have hw := walk_of_locate hk
  rw [hj name hn, walk_append] at hw
  cases hb : t.walk l₀ parts with
  | error e =>
    rw [hb] at hw
    cases hw
  | ok l =>
    rw [hb] at hw
    exact ⟨l, rfl, hw⟩

theorem locate_join {dir : Path} {name : String} (hd : t.locate dir = .ok l)
    (hl : t.entry? l = some .directory) (hn : EntryName name) :
    t.locate (dir.join name) =
      if maxNameSize < name.utf8ByteSize then .error .nameTooLong else .ok (l ++ [name]) := by
  have hdir := text_ne_empty_of_locate hd
  have hz := zero_not_mem_of_locate hd
  have hzero : '\x00' ∉ (dir.join name).text.toList := by
    obtain ⟨cs, hcs, hj⟩ := Path.toList_join hdir
    have hz' : '\x00' ∉ name.toList := fun h => (hn.chars _ h).2 rfl
    rw [hj name hn.isAbsolute]
    obtain h | h := hcs <;> rw [h] at hz <;> simp_all
  obtain ⟨l₀, parts, hs, hj⟩ := start_join t dir
  -- The directory is reached before an empty part at the end of its path.
  have hparts : t.walk l₀ parts = .ok l := by
    have hw := walk_of_locate hd
    obtain h | h := hs <;> rw [h] at hw
    · exact hw
    · rw [walk_append] at hw
      cases hb : t.walk l₀ parts with
      | error e =>
        rw [hb] at hw
        cases hw
      | ok l₁ =>
        rw [hb] at hw
        obtain ⟨-, ⟨-, h₁⟩ | ⟨h₁, -⟩ | ⟨h₁, -⟩⟩ := walk_cons_ok (l := l₁) hw
        · exact h₁
        · cases h₁
        · cases h₁
  rw [locate, if_neg (Path.text_join_ne_empty hdir name), if_neg hzero, hj name hn.isAbsolute,
    walk_append, hparts, hn.segments]
  show t.walk l [name] = _
  rw [walk_cons_of_directory hl, if_neg (Bool.eq_false_iff.1 hn.idle), if_neg hn.up]
  rfl

theorem makeDirectoriesFrom_cons (hl : t.entry? l = some .directory) (s : String)
    (ss : List String) :
    t.makeDirectoriesFrom l (s :: ss) =
      if Path.isIdle s then t.makeDirectoriesFrom l ss
      else if s = ".." then t.makeDirectoriesFrom l.dropLast ss
      else if maxNameSize < s.utf8ByteSize then (t, some .nameTooLong)
      else (if (t.entry? (l ++ [s])).isSome then t
        else t.set (l ++ [s]) .directory).makeDirectoriesFrom (l ++ [s]) ss := by
  rw [makeDirectoriesFrom, if_neg (not_not_intro hl)]

theorem makeDirectoriesFrom_induction {motive : FileTree → Prop}
    (step : ∀ (t : FileTree) (k : Location), t.entry? k = none → motive t →
      motive (t.set k .directory))
    (t : FileTree) (l : Location) (ss : List String) (h : motive t) :
    motive (t.makeDirectoriesFrom l ss).1 := by
  induction ss generalizing t l with
  | nil => exact h
  | cons s ss ih =>
    by_cases hl : t.entry? l = some .directory
    case neg =>
      rw [makeDirectoriesFrom, if_pos hl]
      exact h
    rw [makeDirectoriesFrom_cons hl]
    split
    · exact ih t l h
    · split
      · exact ih t l.dropLast h
      · split
        · exact h
        · split
          · exact ih t (l ++ [s]) h
          · next hn => exact ih _ (l ++ [s]) (step t _ (Option.not_isSome_iff_eq_none.1 hn) h)

theorem makeDirectories_induction {motive : FileTree → Prop}
    (step : ∀ (t : FileTree) (k : Location), t.entry? k = none → motive t →
      motive (t.set k .directory))
    (t : FileTree) (p : Path) (h : motive t) : motive (t.makeDirectories p).1 := by
  rw [makeDirectories]
  split
  · exact h
  · split
    · exact h
    · exact makeDirectoriesFrom_induction step t _ _ h

theorem makeDirectoriesFrom_altered (may : Location → Prop) (t : FileTree) (l : Location)
    (ss : List String) : Altered may t (t.makeDirectoriesFrom l ss).1 :=
  makeDirectoriesFrom_induction (fun _ _ hk h => h.trans (.set_directory may hk)) t l ss
    (.refl may t)

theorem makeDirectories_altered (may : Location → Prop) (t : FileTree) (p : Path) :
    Altered may t (t.makeDirectories p).1 :=
  makeDirectories_induction (fun _ _ hk h => h.trans (.set_directory may hk)) t p (.refl may t)

theorem walk_makeDirectoriesFrom (t : FileTree) (l : Location) (ss : List String)
    (h : (t.makeDirectoriesFrom l ss).2 = none) :
    ∃ k, (t.makeDirectoriesFrom l ss).1.walk l ss = .ok k ∧
      FileTree.entry? (t.makeDirectoriesFrom l ss).1 k = some .directory := by
  induction ss generalizing t l with
  | nil =>
    refine ⟨l, rfl, ?_⟩
    rw [makeDirectoriesFrom] at h ⊢
    split at h
    · assumption
    · cases h
  | cons s ss ih =>
    have ha := makeDirectoriesFrom_altered (fun _ => False) t l (s :: ss)
    by_cases hl : t.entry? l = some .directory
    case neg =>
      rw [makeDirectoriesFrom, if_pos hl] at h
      cases h
    rw [walk_cons_of_directory (ha.directory hl)]
    rw [makeDirectoriesFrom_cons hl] at h ⊢
    split at h
    · next hi =>
      simp only [if_pos hi]
      exact ih t l h
    · next hi =>
      simp only [if_neg hi]
      split at h
      · next hu =>
        simp only [if_pos hu]
        exact ih t l.dropLast h
      · next hu =>
        simp only [if_neg hu]
        split at h
        · cases h
        · next hs =>
          simp only [if_neg hs]
          exact ih _ (l ++ [s]) h

theorem locate_makeDirectories (hp : p.text ≠ "") (h : t.makeDirectories p = (t', none)) :
    ∃ l, t'.locate p = .ok l ∧ t'.entry? l = some .directory := by
  rw [makeDirectories, if_neg hp] at h
  split at h
  · cases h
  · next hz =>
    have hw := walk_makeDirectoriesFrom t (t.start p).1 (t.start p).2 (by rw [h])
    have ha := makeDirectoriesFrom_altered (fun _ => False) t (t.start p).1 (t.start p).2
    rw [h] at hw ha
    have hs : t'.start p = t.start p := by rw [start, start, ha.home]
    rw [locate, if_neg hp, if_neg hz, hs]
    exact hw

theorem entry?_of_walk {ss : List String} (hw : t.walk l ss = .ok k)
    (hk : t.entry? k = some .directory) : t.entry? l = some .directory := by
  cases ss with
  | nil =>
    cases hw
    exact hk
  | cons s ss => exact (walk_cons_ok hw).1

theorem makeDirectoriesFrom_of_walk {ss : List String} (hw : t.walk l ss = .ok k)
    (hk : t.entry? k = some .directory) : t.makeDirectoriesFrom l ss = (t, none) := by
  induction ss generalizing l with
  | nil =>
    cases hw
    rw [makeDirectoriesFrom, if_pos hk]
  | cons s ss ih =>
    obtain ⟨hl, hw⟩ := walk_cons_ok hw
    rw [makeDirectoriesFrom_cons hl]
    obtain ⟨hi, hw⟩ | ⟨hi, hu, hw⟩ | ⟨hi, hu, hs, hw⟩ := hw
    · rw [if_pos hi, ih hw]
    · rw [if_neg (Bool.eq_false_iff.1 hi), if_pos hu, ih hw]
    · have he : (t.entry? (l ++ [s])).isSome = true := by rw [entry?_of_walk hw hk]; rfl
      rw [if_neg (Bool.eq_false_iff.1 hi), if_neg hu, if_neg (Nat.not_lt.2 hs), if_pos he, ih hw]

theorem makeDirectories_of_directory (hp : t.locate p = .ok l)
    (hl : t.entry? l = some .directory) : t.makeDirectories p = (t, none) := by
  have hne := text_ne_empty_of_locate hp
  have hz := zero_not_mem_of_locate hp
  rw [locate, if_neg hne, if_neg hz] at hp
  rw [makeDirectories, if_neg hne, if_neg hz]
  exact makeDirectoriesFrom_of_walk hp hl

theorem write_of_locate (hl : t.locate p = .ok l) (hd : t.entry? l ≠ some .directory)
    (c : Content) : t.write p c = .ok (t.set l (.file c)) := by
  rw [write, hl]
  exact if_neg hd

theorem write_ok (h : t.write p c = .ok t') :
    ∃ l, t.locate p = .ok l ∧ t.entry? l ≠ some .directory ∧ t' = t.set l (.file c) := by
  rw [write] at h
  cases hl : t.locate p with
  | error e =>
    rw [hl] at h
    cases h
  | ok l =>
    rw [hl] at h
    change (if t.entry? l = some .directory then _ else _) = _ at h
    split at h
    · cases h
    · next hd =>
      cases h
      exact ⟨l, rfl, hd, rfl⟩

theorem copy_ok (h : t.copy p q = .ok t') :
    ∃ l c, t.locate p = .ok l ∧ t.entry? l = some (.file c) ∧ t.write q c = .ok t' := by
  rw [copy] at h
  cases hl : t.locate p with
  | error e =>
    rw [hl] at h
    cases h
  | ok l =>
    simp only [hl, bind, Except.bind] at h
    split at h
    · cases h
    · cases h
    · next c hc => exact ⟨l, c, rfl, hc, h⟩

def Rooted (t : FileTree) : Prop := ∀ e ∈ t.entries, t.entry? e.1.dropLast = some .directory

instance (t : FileTree) : Decidable t.Rooted :=
  inferInstanceAs (Decidable (∀ e ∈ t.entries, _))

theorem mem_entries_of_entry?_eq (hl : l ≠ []) (h : t.entry? l = some e) : (l, e) ∈ t.entries := by
  rw [entry?_of_ne hl] at h
  obtain ⟨before, after, he, -⟩ := List.lookup_eq_some_iff.1 h
  rw [he]
  exact List.mem_append_right _ List.mem_cons_self

theorem filter_of_entry?_none (h : t.entry? l = none) :
    t.entries.filter (·.1 ≠ l) = t.entries := by
  have hl : l ≠ [] := ne_nil_of_entry?_ne (by rw [h]; nofun)
  rw [entry?_of_ne hl, List.lookup_eq_none_iff] at h
  rw [List.filter_eq_self]
  intro e he
  simpa [bne_iff_ne, ne_comm] using h e he

theorem mem_fileNames {name : String} :
    name ∈ t.fileNames l ↔ ∃ c, (l ++ [name], .file c) ∈ t.entries := by
  rw [fileNames, List.mem_filterMap]
  constructor
  · rintro ⟨⟨k, e⟩, hmem, h⟩
    cases e with
    | directory => cases h
    | file c =>
      simp only [Option.ite_none_right_eq_some] at h
      obtain ⟨hdir, hlast⟩ := h
      obtain ⟨above, rfl⟩ := List.getLast?_eq_some_iff.1 hlast
      rw [List.dropLast_concat] at hdir
      exact ⟨c, hdir ▸ hmem⟩
  · rintro ⟨c, hmem⟩
    exact ⟨_, hmem, by simp⟩

theorem mem_fileNames_of_entry?_eq {name : String} (h : t.entry? (l ++ [name]) = some (.file c)) :
    name ∈ t.fileNames l :=
  mem_fileNames.2 ⟨c, mem_entries_of_entry?_eq (by simp) h⟩

theorem Rooted.fileNames_eq_nil (h : t.Rooted) (hl : t.entry? l = none) : t.fileNames l = [] := by
  rw [List.eq_nil_iff_forall_not_mem]
  intro name hn
  obtain ⟨c, hc⟩ := mem_fileNames.1 hn
  have hd := h _ hc
  rw [List.dropLast_concat, hl] at hd
  cases hd

theorem fileNames_set_directory (hk : t.entry? k = none) (l : Location) :
    (t.set k .directory).fileNames l = t.fileNames l := by
  rw [fileNames, set, filter_of_entry?_none hk]
  rfl

theorem fileNames_set_file {name : String} (hn : t.entry? (l ++ [name]) = none) (c : Content) :
    (t.set (l ++ [name]) (.file c)).fileNames l = name :: t.fileNames l := by
  rw [fileNames, set, filter_of_entry?_none hn, List.filterMap_cons]
  simp only [List.dropLast_concat, List.getLast?_concat, if_true]
  rfl

theorem fileNames_makeDirectories (t : FileTree) (p : Path) (l : Location) :
    FileTree.fileNames (t.makeDirectories p).1 l = t.fileNames l :=
  makeDirectories_induction (fun _ _ hk h => (fileNames_set_directory hk l).trans h) t p rfl

end FileTree
end Phrasebook
