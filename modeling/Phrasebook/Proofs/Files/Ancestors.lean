import Phrasebook.Proofs.Files.Path

namespace Phrasebook

theorem intercalate_cons {sep : List Char} (c : Char) (part : List Char)
    (parts : List (List Char)) :
    sep.intercalate ((c :: part) :: parts) = c :: sep.intercalate (part :: parts) := by
  cases parts with
  | nil => simp
  | cons next parts => simp [List.intercalate_cons_cons]

theorem splitAt_cons_of_ne {c : Char} (hc : c ≠ '/') (cs : List Char) :
    ∃ part parts, splitAt (· == '/') cs = part :: parts ∧
      splitAt (· == '/') (c :: cs) = (c :: part) :: parts := by
  apply splitAt_cons_of_neg
  exact beq_eq_false_iff_ne.2 hc

theorem intercalate_splitAt (cs : List Char) : ['/'].intercalate (splitAt (· == '/') cs) = cs := by
  induction cs with
  | nil => rfl
  | cons c cs ih =>
    by_cases hc : c = '/'
    · subst hc
      rw [splitAt_cons_of_pos rfl, List.intercalate_cons_of_ne_nil (splitAt_ne_nil _ _), ih]
      rfl
    · obtain ⟨part, parts, hs, he⟩ := splitAt_cons_of_ne hc cs
      rw [he, intercalate_cons, ← hs, ih]

theorem splitAt_intercalate {parts : List (List Char)} (hne : parts ≠ [])
    (h : ∀ part ∈ parts, ∀ c ∈ part, (c == '/') = false) :
    splitAt (· == '/') (['/'].intercalate parts) = parts := by
  induction parts with
  | nil => exact absurd rfl hne
  | cons part parts ih =>
    have hpart := splitAt_of_forall (h part List.mem_cons_self)
    cases parts with
    | nil => rwa [List.intercalate_singleton]
    | cons next parts =>
      have hrest := ih (List.cons_ne_nil _ _) fun p hp => h p (List.mem_cons_of_mem part hp)
      rw [List.intercalate_cons_cons, List.append_assoc, List.singleton_append,
        splitAt_append_cons rfl, hpart, hrest, List.singleton_append]

theorem intercalate_isPrefix {sep : List Char} {parts : List (List Char)} (hne : parts ≠ [])
    (more : List (List Char)) : sep.intercalate parts <+: sep.intercalate (parts ++ more) := by
  induction parts with
  | nil => exact absurd rfl hne
  | cons part parts ih =>
    cases parts with
    | nil =>
      cases more with
      | nil => exact List.prefix_rfl
      | cons next more =>
        rw [List.singleton_append, List.intercalate_cons_cons, List.intercalate_singleton,
          List.append_assoc]
        exact List.prefix_append _ _
    | cons next parts =>
      rw [List.cons_append, List.cons_append, List.intercalate_cons_cons,
        List.intercalate_cons_cons]
      exact (List.prefix_append_right_inj _).2 (ih (List.cons_ne_nil _ _))

theorem eq_false_of_mem_splitAt {isSeparator : Char → Bool} {cs part : List Char}
    (hp : part ∈ splitAt isSeparator cs) : ∀ c ∈ part, isSeparator c = false := by
  induction cs generalizing part with
  | nil =>
    cases List.mem_singleton.1 hp
    exact List.forall_mem_nil _
  | cons c cs ih =>
    cases hc : isSeparator c with
    | true =>
      rw [splitAt_cons_of_pos hc] at hp
      obtain rfl | hp := List.mem_cons.1 hp
      · exact List.forall_mem_nil _
      · exact ih hp
    | false =>
      obtain ⟨piece, pieces, hs, he⟩ := splitAt_cons_of_neg hc cs
      rw [he] at hp
      rw [hs] at ih
      obtain rfl | hp := List.mem_cons.1 hp
      · exact List.forall_mem_cons.2 ⟨hc, ih List.mem_cons_self⟩
      · exact ih (List.mem_cons_of_mem piece hp)

theorem length_splitAt_le (isSeparator : Char → Bool) (cs : List Char) :
    (splitAt isSeparator cs).length ≤ cs.length + 1 := by
  induction cs with
  | nil => exact Nat.le_refl _
  | cons c cs ih =>
    cases hc : isSeparator c with
    | true =>
      rw [splitAt_cons_of_pos hc]
      exact Nat.succ_le_succ ih
    | false =>
      obtain ⟨part, parts, hs, he⟩ := splitAt_cons_of_neg hc cs
      rw [hs] at ih
      rw [he]
      exact Nat.le_succ_of_le ih

namespace Path

variable {p q : Path} {first : String} {rest : List String}

theorem toList_slashed (names : List String) :
    (slashed names).toList = ['/'].intercalate (names.map String.toList) := by
  rw [slashed, String.toList_intercalate]
  rfl

theorem slashed_segments (p : Path) : slashed p.segments = p.text := by
  rw [← String.toList_inj, toList_slashed, segments, List.map_map]
  simp only [Function.comp_def, String.toList_ofList, List.map_id']
  exact intercalate_splitAt _

theorem segments_slashed {names : List String} (hne : names ≠ [])
    (h : ∀ name ∈ names, ∀ c ∈ name.toList, (c == '/') = false) :
    (Path.mk (slashed names)).segments = names := by
  have hparts : ∀ part ∈ names.map String.toList, ∀ c ∈ part, (c == '/') = false :=
    List.forall_mem_map.2 h
  rw [segments, toList_slashed, splitAt_intercalate (by simpa using hne) hparts, List.map_map]
  simp

theorem slash_not_mem_segments {name : String} (h : name ∈ p.segments) :
    ∀ c ∈ name.toList, (c == '/') = false := by
  obtain ⟨part, hp, rfl⟩ := List.mem_map.1 h
  rw [String.toList_ofList]
  exact eq_false_of_mem_splitAt hp

def lead (first : String) : String := if first = "" then "/" else first

theorem exists_segments (p : Path) : ∃ first rest, p.segments = first :: rest := by
  obtain ⟨part, parts, hs⟩ := List.exists_cons_of_ne_nil (splitAt_ne_nil (· == '/') p.text.toList)
  exact ⟨String.ofList part, parts.map String.ofList, by rw [segments, hs, List.map_cons]⟩

theorem isAbsolute_of_segments (hp : p.text ≠ "") (hs : p.segments = first :: rest) :
    p.isAbsolute = decide (first = "") := by
  obtain ⟨c, cs, hc⟩ := List.exists_cons_of_ne_nil (mt String.toList_eq_nil_iff.1 hp)
  rw [segments, hc] at hs
  rw [isAbsolute, hc]
  by_cases hslash : c = '/'
  · subst hslash
    rw [splitAt_cons_of_pos rfl] at hs
    cases hs
    rfl
  · obtain ⟨part, parts, -, he⟩ := splitAt_cons_of_ne hslash cs
    rw [he] at hs
    cases hs
    simp [hslash, ← String.toList_inj]

theorem components_of_segments (hp : p.text ≠ "") (hs : p.segments = first :: rest) :
    p.components = lead first :: rest.filter (!isIdle ·) := by
  have ha := isAbsolute_of_segments hp hs
  rw [components, hs, lead]
  by_cases hf : first = ""
  · subst hf
    simp [ha]
  · simp [hf]

theorem exists_trimmed (first : String) (rest : List String) :
    ∃ kept idle, rest = kept ++ idle ∧ (∀ s ∈ idle, isIdle s = true) ∧
      trimmed (first :: rest) = first :: kept ∧
      (kept = [] ∨ ∃ above last, kept = above ++ [last] ∧ isIdle last = false) := by
  refine ⟨(rest.reverse.dropWhile isIdle).reverse, (rest.reverse.takeWhile isIdle).reverse, ?_,
    ?_, rfl, ?_⟩
  · rw [← List.reverse_append, List.takeWhile_append_dropWhile, List.reverse_reverse]
  · intro s hs
    exact List.all_eq_true.1 List.all_takeWhile s (List.mem_reverse.1 hs)
  · cases hd : rest.reverse.dropWhile isIdle with
    | nil => exact .inl rfl
    | cons last above =>
      refine .inr ⟨above.reverse, last, List.reverse_cons, ?_⟩
      have hlast := List.head?_dropWhile_not isIdle rest.reverse
      rw [hd] at hlast
      simpa using hlast

theorem filter_of_idle {kept idle : List String} (h : ∀ s ∈ idle, isIdle s = true) :
    (kept ++ idle).filter (!isIdle ·) = kept.filter (!isIdle ·) := by
  have hnil : idle.filter (!isIdle ·) = [] := List.filter_eq_nil_iff.2 fun s hs => by simp [h s hs]
  rw [List.filter_append, hnil, List.append_nil]

/-- A path is at the top, empty or the root, or it has a directory above it. -/
theorem parent?_cases (p : Path) :
    (p.parent? = none ∧ p.components = if p.isAbsolute then ["/"] else []) ∨
      ∃ q last, p.parent? = some q ∧ q.isAbsolute = p.isAbsolute ∧
        p.components = q.components ++ [last] ∧ q.text.toList <+: p.text.toList := by
  obtain ⟨first, rest, hs⟩ := p.exists_segments
  by_cases hp : p.text = ""
  · obtain ⟨text⟩ := p
    subst hp
    exact .inl ⟨rfl, rfl⟩
  have ha := isAbsolute_of_segments hp hs
  have hc := components_of_segments hp hs
  obtain ⟨kept, idle, rfl, hidle, htrim, hkept⟩ := exists_trimmed first rest
  rw [filter_of_idle hidle] at hc
  rw [parent?, hs, htrim]
  obtain rfl | ⟨above, last, rfl, hlast⟩ := hkept
  · -- There is a single part: an empty one is that of the root.
    by_cases hf : first = ""
    · subst hf
      exact .inl ⟨rfl, by rw [hc, ha]; rfl⟩
    · refine .inr ⟨⟨""⟩, first, if_neg hf, ?_, ?_, ?_⟩
      · rw [ha, decide_eq_false hf]
        rfl
      · rw [hc, lead, if_neg hf]
        rfl
      · exact List.nil_prefix
  · obtain ⟨kept, idle', rfl, hidle', htrim', -⟩ := exists_trimmed first above
    have habove : (first :: (kept ++ idle' ++ [last])).dropLast = first :: (kept ++ idle') := by
      rw [← List.cons_append, List.dropLast_concat]
    have hc : p.components = lead first :: kept.filter (!isIdle ·) ++ [last] := by
      rw [hc, List.filter_append, filter_of_idle hidle', List.filter_cons_of_pos (by simp [hlast])]
      rfl
    have hsegments : p.segments = first :: kept ++ (idle' ++ [last] ++ idle) := by
      rw [hs]
      simp
    have hslash : ∀ name ∈ first :: kept, ∀ c ∈ name.toList, (c == '/') = false := by
      intro name hname
      refine slash_not_mem_segments (p := p) ?_
      rw [hsegments]
      exact List.mem_append_left _ hname
    obtain ⟨x, xs, hx⟩ : ∃ x xs, kept ++ idle' ++ [last] = x :: xs :=
      List.exists_cons_of_ne_nil (by simp)
    refine .inr ⟨if first :: kept = [""] then ⟨"/"⟩ else ⟨slashed (first :: kept)⟩, last, ?_, ?_⟩
    · rw [hx]
      show some (if trimmed (first :: x :: xs).dropLast = [""] then _ else _) = _
      rw [← hx, habove, htrim']
    · split
      · next htop =>
        cases htop
        refine ⟨ha.symm, hc, ?_⟩
        obtain ⟨cs, hcs⟩ := List.head?_eq_some_iff.1 (of_decide_eq_true ha)
        rw [hcs]
        exact List.prefix_append ['/'] cs
      · next hne =>
        have hq := segments_slashed (List.cons_ne_nil first kept) hslash
        have hq' : (Path.mk (slashed (first :: kept))).text ≠ "" := by
          intro htext
          rw [show slashed (first :: kept) = "" from htext] at hq
          exact hne hq.symm
        refine ⟨(isAbsolute_of_segments hq' hq).trans ha.symm, ?_, ?_⟩
        · rw [components_of_segments hq' hq]
          exact hc
        · rw [← p.slashed_segments, hsegments, toList_slashed, toList_slashed, List.map_append]
          exact intercalate_isPrefix (by simp) _

inductive Climbs : Path → List Path → Prop
  | top {p : Path} : p.parent? = none → Climbs p [p]
  | up {p q : Path} {dirs : List Path} : p.parent? = some q → Climbs q dirs → Climbs p (p :: dirs)

/-- A path with the directories above it, the nearest first. -/
structure Ascends (p : Path) (dirs : List Path) : Prop where
  head : dirs.head? = some p
  /-- An absolute path keeps its root. -/
  length : dirs.length = p.components.length + if p.isAbsolute then 0 else 1
  components (i : Nat) (d : Path) : dirs[i]? = some d →
    d.components = p.components.take (p.components.length - i)
  text (d : Path) : d ∈ dirs → d.text.toList <+: p.text.toList

theorem Ascends.top (hp : p.components = if p.isAbsolute then ["/"] else []) : p.Ascends [p] := by
  constructor
  case head => rfl
  case length =>
    rw [hp]
    split <;> rfl
  case components =>
    intro i d hd
    cases i with
    | zero =>
      cases hd
      exact List.take_length.symm
    | succ i => cases hd
  case text =>
    intro d hd
    cases List.mem_singleton.1 hd
    exact List.prefix_rfl

theorem Ascends.up {dirs : List Path} {last : String} (h : q.Ascends dirs)
    (ha : q.isAbsolute = p.isAbsolute) (hc : p.components = q.components ++ [last])
    (ht : q.text.toList <+: p.text.toList) : p.Ascends (p :: dirs) := by
  constructor
  case head => rfl
  case length =>
    rw [List.length_cons, h.length, hc, ha, List.length_append]
    exact Nat.add_right_comm _ _ 1
  case components =>
    intro i d hd
    cases i with
    | zero =>
      cases hd
      exact List.take_length.symm
    | succ i =>
      rw [h.components i d hd, hc, List.length_append, List.length_singleton, Nat.add_sub_add_right,
        List.take_append_of_le_length (Nat.sub_le _ _)]
  case text =>
    intro d hd
    obtain rfl | hd := List.mem_cons.1 hd
    · exact List.prefix_rfl
    · exact (h.text d hd).trans ht

theorem exists_climbs (p : Path) : ∃ dirs, p.Climbs dirs ∧ p.Ascends dirs := by
  obtain ⟨n, hn⟩ : ∃ n, p.components.length = n := ⟨_, rfl⟩
  induction n generalizing p with
  | zero =>
    obtain ⟨hp, hc⟩ | ⟨q, last, -, -, hc, -⟩ := p.parent?_cases
    · exact ⟨[p], .top hp, .top hc⟩
    · rw [hc, List.length_append] at hn
      cases hn
  | succ n ih =>
    obtain ⟨hp, hc⟩ | ⟨q, last, hp, ha, hc, ht⟩ := p.parent?_cases
    · exact ⟨[p], .top hp, .top hc⟩
    · rw [hc, List.length_append] at hn
      obtain ⟨dirs, hclimb, hascend⟩ := ih q (Nat.succ.inj hn)
      exact ⟨p :: dirs, .up hp hclimb, hascend.up ha hc ht⟩

theorem components_length_le (p : Path) : p.components.length ≤ p.text.length + 1 := by
  obtain ⟨first, rest, hs⟩ := p.exists_segments
  have hlength : p.segments.length ≤ p.text.length + 1 := by
    rw [segments, List.length_map, ← String.length_toList]
    exact length_splitAt_le _ _
  by_cases hp : p.text = ""
  · obtain ⟨text⟩ := p
    subst hp
    exact Nat.zero_le _
  · rw [components_of_segments hp hs]
    rw [hs] at hlength
    exact Nat.le_trans (Nat.succ_le_succ (List.length_filter_le _ _)) hlength

theorem Ascends.length_le {dirs : List Path} (h : p.Ascends dirs) :
    dirs.length ≤ p.text.length + 2 := by
  have hc := p.components_length_le
  rw [h.length]
  split <;> omega

end Path
end Phrasebook
