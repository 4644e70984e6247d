import Phrasebook.Files.Path

namespace Phrasebook

variable {isSeparator : Char → Bool} {c : Char}

theorem splitAt_ne_nil (isSeparator : Char → Bool) (cs : List Char) :
    splitAt isSeparator cs ≠ [] := by
  induction cs with
  | nil => exact List.cons_ne_nil _ _
  | cons c cs ih =>
    rw [splitAt]
    split
    · exact List.cons_ne_nil _ _
    · split <;> exact List.cons_ne_nil _ _

theorem splitAt_cons_of_pos (hc : isSeparator c = true) (cs : List Char) :
    splitAt isSeparator (c :: cs) = [] :: splitAt isSeparator cs := by
  rw [splitAt, if_pos hc]

theorem splitAt_cons_of_neg (hc : isSeparator c = false) (cs : List Char) :
    ∃ part parts, splitAt isSeparator cs = part :: parts ∧
      splitAt isSeparator (c :: cs) = (c :: part) :: parts := by
  obtain ⟨part, parts, hs⟩ := List.exists_cons_of_ne_nil (splitAt_ne_nil isSeparator cs)
  refine ⟨part, parts, hs, ?_⟩
  rw [splitAt, hs, if_neg (Bool.eq_false_iff.1 hc)]

theorem splitAt_of_forall {cs : List Char} (h : ∀ c ∈ cs, isSeparator c = false) :
    splitAt isSeparator cs = [cs] := by
  induction cs with
  | nil => rfl
  | cons c cs ih =>
    obtain ⟨part, parts, hs, he⟩ := splitAt_cons_of_neg (h c List.mem_cons_self) cs
    rw [ih fun d hd => h d (List.mem_cons_of_mem c hd)] at hs
    cases hs
    exact he

theorem splitAt_append_cons (hc : isSeparator c = true) (as bs : List Char) :
    splitAt isSeparator (as ++ c :: bs) = splitAt isSeparator as ++ splitAt isSeparator bs := by
  induction as with
  | nil =>
    rw [List.nil_append, splitAt_cons_of_pos hc]
    rfl
  | cons a as ih =>
    rw [List.cons_append]
    cases ha : isSeparator a with
    | true => rw [splitAt_cons_of_pos ha, splitAt_cons_of_pos ha, ih, List.cons_append]
    | false =>
      obtain ⟨part, parts, hs, he⟩ := splitAt_cons_of_neg ha as
      obtain ⟨part', parts', hs', he'⟩ := splitAt_cons_of_neg ha (as ++ c :: bs)
      rw [ih, hs, List.cons_append] at hs'
      cases hs'
      rw [he, he', List.cons_append]

theorem splitAt_append_of_forall {as : List Char} (h : ∀ c ∈ as, isSeparator c = false)
    (bs : List Char) :
    ∃ part parts, splitAt isSeparator bs = part :: parts ∧
      splitAt isSeparator (as ++ bs) = (as ++ part) :: parts := by
  induction as with
  | nil =>
    obtain ⟨part, parts, hs⟩ := List.exists_cons_of_ne_nil (splitAt_ne_nil isSeparator bs)
    exact ⟨part, parts, hs, hs⟩
  | cons a as ih =>
    obtain ⟨part, parts, hs, he⟩ := ih fun c hc => h c (List.mem_cons_of_mem a hc)
    obtain ⟨part', parts', hs', he'⟩ := splitAt_cons_of_neg (h a List.mem_cons_self) (as ++ bs)
    rw [he] at hs'
    cases hs'
    exact ⟨part, parts, hs, he'⟩

theorem splitAt_append_end {bs : List Char} (h : ∀ c ∈ bs, isSeparator c = false)
    (as : List Char) :
    ∃ parts part, splitAt isSeparator as = parts ++ [part] ∧
      splitAt isSeparator (as ++ bs) = parts ++ [part ++ bs] := by
  induction as with
  | nil => exact ⟨[], [], rfl, splitAt_of_forall h⟩
  | cons a as ih =>
    obtain ⟨parts, part, hs, he⟩ := ih
    rw [List.cons_append]
    cases ha : isSeparator a with
    | true =>
      rw [splitAt_cons_of_pos ha, splitAt_cons_of_pos ha, hs, he]
      exact ⟨[] :: parts, part, rfl, rfl⟩
    | false =>
      obtain ⟨piece, pieces, hp, hcp⟩ := splitAt_cons_of_neg ha as
      obtain ⟨whole, wholes, hw, hcw⟩ := splitAt_cons_of_neg ha (as ++ bs)
      rw [hs] at hp
      rw [he] at hw
      rw [hcp, hcw]
      cases parts with
      | nil =>
        cases hp
        cases hw
        exact ⟨[], a :: part, rfl, rfl⟩
      | cons first parts =>
        cases hp
        cases hw
        exact ⟨(a :: _) :: parts, part, rfl, rfl⟩

/-- To split at more characters is to split each part further. -/
theorem splitAt_flatMap {isSeparator finer : Char → Bool}
    (h : ∀ c, isSeparator c = true → finer c = true) (cs : List Char) :
    splitAt finer cs = (splitAt isSeparator cs).flatMap (splitAt finer) := by
  induction cs with
  | nil => rfl
  | cons c cs ih =>
    cases hc : isSeparator c with
    | true =>
      rw [splitAt_cons_of_pos hc, splitAt_cons_of_pos (h c hc), ih]
      rfl
    | false =>
      obtain ⟨part, parts, hs, he⟩ := splitAt_cons_of_neg hc cs
      rw [hs, List.flatMap_cons] at ih
      rw [he, List.flatMap_cons]
      cases hf : finer c with
      | true => rw [splitAt_cons_of_pos hf, splitAt_cons_of_pos hf, ih, List.cons_append]
      | false =>
        obtain ⟨piece, pieces, hp, hcp⟩ := splitAt_cons_of_neg hf part
        obtain ⟨whole, wholes, hw, hcw⟩ := splitAt_cons_of_neg hf cs
        rw [hcp, hcw, List.cons_append]
        rw [hp, hw, List.cons_append] at ih
        obtain ⟨rfl, rfl⟩ := List.cons.inj ih
        rfl

theorem mem_splitAt (isSeparator : Char → Bool) {cs : List Char} (h : c ∈ cs) :
    isSeparator c = true ∨ ∃ part ∈ splitAt isSeparator cs, c ∈ part := by
  induction cs with
  | nil => cases h
  | cons d cs ih =>
    cases hd : isSeparator d with
    | true =>
      rw [splitAt_cons_of_pos hd]
      obtain rfl | h := List.mem_cons.1 h
      · exact .inl hd
      · exact (ih h).imp_right fun ⟨part, hp, hc⟩ => ⟨part, List.mem_cons_of_mem _ hp, hc⟩
    | false =>
      obtain ⟨part, parts, hs, he⟩ := splitAt_cons_of_neg hd cs
      rw [he]
      obtain rfl | h := List.mem_cons.1 h
      · exact .inr ⟨_, List.mem_cons_self, List.mem_cons_self⟩
      · refine (ih h).imp_right fun ⟨part', hp, hc⟩ => ?_
        rw [hs] at hp
        obtain rfl | hp := List.mem_cons.1 hp
        · exact ⟨_, List.mem_cons_self, List.mem_cons_of_mem d hc⟩
        · exact ⟨part', List.mem_cons_of_mem _ hp, hc⟩

structure EntryName (name : String) : Prop where
  chars : ∀ c ∈ name.toList, c ≠ '/' ∧ c ≠ '\x00'
  idle : Path.isIdle name = false
  up : name ≠ ".."

instance (name : String) : Decidable (EntryName name) :=
  decidable_of_iff ((name.toList.all fun c => c ≠ '/' ∧ c ≠ '\x00') = true ∧
    Path.isIdle name = false ∧ name ≠ "..")
    ⟨fun ⟨hchars, hidle, hup⟩ => ⟨fun c hc => of_decide_eq_true (List.all_eq_true.1 hchars c hc),
        hidle, hup⟩,
      fun h => ⟨List.all_eq_true.2 fun c hc => decide_eq_true (h.chars c hc), h.idle, h.up⟩⟩

namespace EntryName

variable {name : String}

theorem of_length (h : ∀ c ∈ name.toList, c ≠ '/' ∧ c ≠ '\x00') (hl : 2 < name.toList.length) :
    EntryName name := by
  refine ⟨h, ?_, ?_⟩
  · simp only [Path.isIdle, Bool.or_eq_false_iff, decide_eq_false_iff_not]
    constructor <;>
    · rintro rfl
      exact absurd hl (by decide)
  · rintro rfl
    exact absurd hl (by decide)

theorem segments (h : EntryName name) : (Path.mk name).segments = [name] := by
  rw [Path.segments, splitAt_of_forall fun c hc => beq_eq_false_iff_ne.2 (h.chars c hc).1]
  simp

theorem toList_ne_nil (h : EntryName name) : name.toList ≠ [] := by
  intro hn
  have hi := h.idle
  rw [String.toList_eq_nil_iff.1 hn] at hi
  exact Bool.noConfusion hi

theorem isAbsolute (h : EntryName name) : (Path.mk name).isAbsolute = false := by
  obtain ⟨c, cs, hs⟩ := List.exists_cons_of_ne_nil h.toList_ne_nil
  have hc := (h.chars c (hs ▸ List.mem_cons_self)).1
  simp [Path.isAbsolute, hs, hc]

end EntryName

namespace Path

variable {dir : Path} {name : String}

/-- What is not absolute is joined by a slash to the text of a path without the slash at its end. -/
theorem toList_join (hd : dir.text ≠ "") :
    ∃ cs, (dir.text.toList = cs ∨ dir.text.toList = cs ++ ['/']) ∧
      ∀ name, (Path.mk name).isAbsolute = false →
        (dir.join name).text.toList = cs ++ '/' :: name.toList := by
  by_cases hlast : dir.text.toList.getLast? = some '/'
  · obtain ⟨cs, hcs⟩ := List.getLast?_eq_some_iff.1 hlast
    refine ⟨cs, .inr hcs, fun name hn => ?_⟩
    rw [join, if_neg (Bool.eq_false_iff.1 hn)]
    simp [hcs]
  · refine ⟨dir.text.toList, .inl rfl, fun name hn => ?_⟩
    rw [join, if_neg (Bool.eq_false_iff.1 hn)]
    simp [hd, hlast]

theorem join_inj {inner : String} (hn : EntryName name) (hi : EntryName inner) :
    dir.join name = dir.join inner ↔ name = inner := by
  rw [join, join, if_neg (Bool.eq_false_iff.1 hn.isAbsolute),
    if_neg (Bool.eq_false_iff.1 hi.isAbsolute)]
  split <;> simp [String.append_right_inj]

theorem text_join_ne_empty (hd : dir.text ≠ "") (inner : String) : (dir.join inner).text ≠ "" := by
  rw [join]
  split
  · next habs =>
    intro he
    rw [show inner = "" from he] at habs
    exact Bool.noConfusion habs
  · split
    · intro he
      exact hd (String.append_eq_empty_iff.1 he).1
    · intro he
      exact hd (String.append_eq_empty_iff.1 (String.append_eq_empty_iff.1 he).1).1

theorem segments_join (hd : dir.text ≠ "") :
    ∃ first parts, (dir.segments = first :: parts ∨ dir.segments = first :: parts ++ [""]) ∧
      ∀ name, (Path.mk name).isAbsolute = false →
        (dir.join name).segments = first :: parts ++ (Path.mk name).segments ∧
        (dir.join name).isAbsolute = dir.isAbsolute := by
  obtain ⟨cs, hdir, hjoin⟩ := toList_join hd
  obtain ⟨first, parts, hs⟩ := List.exists_cons_of_ne_nil (splitAt_ne_nil (· == '/') cs)
  refine ⟨String.ofList first, parts.map String.ofList, ?_, fun name hn => ⟨?_, ?_⟩⟩
  · refine hdir.imp ?_ ?_
    · intro h
      rw [segments, h, hs, List.map_cons]
    · intro h
      rw [segments, h, splitAt_append_cons rfl, hs, splitAt, List.map_append]
      rfl
  · rw [segments, hjoin name hn, splitAt_append_cons rfl, hs, segments]
    simp
  · rw [isAbsolute, isAbsolute, hjoin name hn]
    obtain h | h := hdir
    · have hne : cs ≠ [] := fun hnil => hd (String.toList_eq_nil_iff.1 (h.trans hnil))
      obtain ⟨c, cs', rfl⟩ := List.exists_cons_of_ne_nil hne
      simp [h]
    · cases cs <;> simp [h]

theorem join_of_empty (hd : dir.text = "") (name : String) : dir.join name = ⟨name⟩ := by
  rw [join, hd]
  split
  · rfl
  · simp

end Path
end Phrasebook
