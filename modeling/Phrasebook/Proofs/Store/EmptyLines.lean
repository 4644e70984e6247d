import Phrasebook.Proofs.Files.Path
import Phrasebook.Proofs.Store.Conversion
import Phrasebook.Proofs.Store.Reading

/-!
Catalog files without content. A file whose lines are all blank or comments is read as no messages
before it is read as a document. A document has lines and blanks of its own: where these agree with
the lines and blanks of the text, no content is passed over.
-/
namespace Phrasebook

namespace Yaml

/-- Whether a line of a document holds nothing but spaces, tabs or a comment. -/
def isEmptyLine (line : List Char) : Bool :=
  match line.dropWhile isSpace with
  | [] => true
  | c :: _ => c == '#'

def EmptyLines (cs : List Char) : Prop := ∀ line ∈ splitAt isBreak cs, isEmptyLine line = true

namespace EmptyLines

variable {c : Char} {cs : List Char}

theorem of_break (hc : isBreak c = true) (h : EmptyLines (c :: cs)) : EmptyLines cs := by
  intro line hl
  apply h
  rw [splitAt_cons_of_pos hc]
  exact List.mem_cons_of_mem [] hl

theorem of_space (hs : isSpace c = true) (hb : isBreak c = false) (h : EmptyLines (c :: cs)) :
    EmptyLines cs := by
  obtain ⟨part, parts, hp, he⟩ := splitAt_cons_of_neg hb cs
  intro line hl
  rw [hp] at hl
  rcases List.mem_cons.1 hl with rfl | hl
  · have hline := h (c :: line) (he ▸ List.mem_cons_self)
    rwa [isEmptyLine, List.dropWhile_cons_of_pos hs] at hline
  · exact h line (he ▸ List.mem_cons_of_mem _ hl)

theorem dropWhile_spaces (h : EmptyLines cs) : EmptyLines (cs.dropWhile (· == ' ')) := by
  induction cs with
  | nil => exact h
  | cons c cs ih =>
    by_cases hc : c = ' '
    · subst hc
      exact ih (h.of_space rfl rfl)
    · rwa [List.dropWhile_cons_of_neg (by simpa using hc)]

theorem dropWhile_line (h : EmptyLines cs) : EmptyLines (cs.dropWhile (!isBreak ·)) := by
  -- Nothing need be known of the line that is cut, so the induction goes through its middle.
  suffices ∀ cs, (∀ line ∈ (splitAt isBreak cs).tail, isEmptyLine line = true) →
      EmptyLines (cs.dropWhile (!isBreak ·)) from
    this cs fun line hl => h line (List.mem_of_mem_tail hl)
  intro cs htail
  induction cs with
  | nil => exact fun line hl => List.mem_singleton.1 hl ▸ rfl
  | cons c cs ih =>
    cases hc : isBreak c with
    | true =>
      rw [List.dropWhile_cons_of_neg (by simp [hc])]
      rw [splitAt_cons_of_pos hc, List.tail_cons] at htail
      intro line hl
      rw [splitAt_cons_of_pos hc] at hl
      rcases List.mem_cons.1 hl with rfl | hl
      · rfl
      · exact htail line hl
    | false =>
      rw [List.dropWhile_cons_of_pos (by simp [hc])]
      obtain ⟨part, parts, hp, he⟩ := splitAt_cons_of_neg hc cs
      rw [he, List.tail_cons] at htail
      apply ih
      rwa [hp, List.tail_cons]

theorem head (h : EmptyLines (c :: cs)) : c = ' ' ∨ c = '\t' ∨ c = '#' ∨ isBreak c = true := by
  cases hb : isBreak c with
  | true => simp
  | false =>
    obtain ⟨part, parts, -, he⟩ := splitAt_cons_of_neg hb cs
    have hline := h (c :: part) (he ▸ List.mem_cons_self)
    cases hs : isSpace c with
    | true =>
      simp only [isSpace, Bool.or_eq_true, beq_iff_eq] at hs
      rcases hs with rfl | rfl <;> simp
    | false =>
      rw [isEmptyLine, List.dropWhile_cons_of_neg (by simp [hs])] at hline
      rw [beq_iff_eq] at hline
      simp [hline]

end EmptyLines

theorem Cursor.rest_skipWhile (c : Cursor) (p : Char → Bool) :
    (c.skipWhile p).rest = c.rest.dropWhile p := by
  have h : (c.rest.takeWhile p ++ c.rest.dropWhile p).drop (c.rest.takeWhile p).length =
      c.rest.dropWhile p := List.drop_left
  rwa [List.takeWhile_append_dropWhile] at h

theorem Cursor.takeBreak?_eq_none {c : Cursor} (h : c.takeBreak? = none) :
    c.rest = [] ∨ ∃ x cs, c.rest = x :: cs ∧ isBreak x = false := by
  rw [takeBreak?] at h
  split at h
  · cases h
  · next x cs _ hr =>
    split at h
    · cases h
    · next hx => exact .inr ⟨x, cs, hr, Bool.eq_false_iff.2 hx⟩
  · next hr => exact .inl hr

theorem Cursor.emptyLines_takeBreak {c next : Cursor} {value : Char} (h : EmptyLines c.rest)
    (ht : c.takeBreak? = some (value, next)) :
    EmptyLines next.rest ∧ next.rest.length < c.rest.length := by
  rw [takeBreak?] at ht
  split at ht
  · next cs hr =>
    cases ht
    rw [hr] at h ⊢
    refine ⟨(h.of_break rfl).of_break rfl, ?_⟩
    simp only [List.length_cons]
    omega
  · next x cs _ hr =>
    split at ht
    · next hx =>
      cases ht
      rw [hr] at h ⊢
      exact ⟨h.of_break hx, Nat.lt_succ_self _⟩
    · cases ht
  · cases ht

def Cursor.skipComment (c : Cursor) : Cursor :=
  let c := c.skipWhile (· == ' ')
  if c.sees '#' then c.skipWhile (!isBreak ·) else c

theorem Cursor.emptyLines_skipComment {c : Cursor} (h : EmptyLines c.rest) :
    EmptyLines c.skipComment.rest ∧ c.skipComment.rest.length ≤ c.rest.length := by
  have hl := (c.rest.dropWhile_sublist (· == ' ')).length_le
  rw [skipComment]
  split
  · simp only [rest_skipWhile]
    exact ⟨h.dropWhile_spaces.dropWhile_line, ((List.dropWhile_sublist _).length_le).trans hl⟩
  · rw [rest_skipWhile]
    exact ⟨h.dropWhile_spaces, hl⟩

theorem Cursor.head_skipComment {c : Cursor} {x : Char} {cs : List Char}
    (h : EmptyLines c.rest) (hr : c.skipComment.rest = x :: cs) (hx : isBreak x = false) :
    x = '\t' := by
  have hempty := (emptyLines_skipComment h).1
  rw [hr] at hempty
  rw [skipComment] at hr
  split at hr
  · -- The comment reaches to the end of the line.
    next hs =>
    have hhead := List.head?_dropWhile_not (!isBreak ·) (c.skipWhile (· == ' ')).rest
    rw [← rest_skipWhile, hr] at hhead
    simp [hx] at hhead
  · next hs =>
    have hhead := List.head?_dropWhile_not (· == ' ') c.rest
    rw [← rest_skipWhile, hr] at hhead
    simp only [sees, hr, List.head?_cons] at hs
    rcases hempty.head with rfl | rfl | rfl | hb
    · simp at hhead
    · rfl
    · simp at hs
    · rw [hb] at hx
      cases hx

namespace Scanner

theorem skipBlanks_succ {c : Cursor} (h : EmptyLines c.rest) (fuel : Nat) :
    skipBlanks (fuel + 1) { cursor := c } =
      match c.skipComment.takeBreak? with
      | some (_, next) => skipBlanks fuel { cursor := next }
      | none => { cursor := c.skipComment } := by
  have hmark : c.sees '\ufeff' = false := by
    rw [Cursor.sees]
    cases hr : c.rest with
    | nil => rfl
    | cons x cs =>
      rw [hr] at h
      rcases h.head with rfl | rfl | rfl | hb
      · rfl
      · rfl
      · rfl
      · rw [List.head?_cons, beq_eq_false_iff_ne]
        rintro ⟨rfl⟩
        cases hb
  have hflow : ({ cursor := c } : Scanner).flow = false := rfl
  rw [skipBlanks]
  simp only [hmark, hflow, Bool.and_false, Bool.false_eq_true, if_false, Bool.not_true,
    Bool.or_false, Bool.false_and, Bool.not_false, Bool.or_true]
  rfl

theorem skipBlanks_emptyLines {fuel : Nat} {c : Cursor} (h : EmptyLines c.rest)
    (hf : c.rest.length < fuel) :
    ∃ last : Cursor, skipBlanks fuel { cursor := c } = { cursor := last } ∧
      (last.rest = [] ∨ ∃ cs, last.rest = '\t' :: cs) := by
  induction fuel generalizing c with
  | zero => cases hf
  | succ fuel ih =>
    obtain ⟨hempty, hl⟩ := Cursor.emptyLines_skipComment h
    rw [skipBlanks_succ h]
    split
    · next next hb =>
      obtain ⟨hnext, hlt⟩ := Cursor.emptyLines_takeBreak hempty hb
      exact ih hnext (by omega)
    · next hb =>
      refine ⟨_, rfl, ?_⟩
      rcases Cursor.takeBreak?_eq_none hb with hr | ⟨x, cs, hr, hx⟩
      · exact .inl hr
      · obtain rfl := Cursor.head_skipComment h hr hx
        exact .inr ⟨cs, hr⟩

theorem dispatch?_tab {c : Cursor} {cs : List Char} (h : c.rest = '\t' :: cs) :
    ({ cursor := c } : Scanner).dispatch? '\t' = none := by
  have hmark : ∀ x ∈ ['-', '.'], c.atMark x = false := by
    intro x hx
    have hne : (c.rest.take 3 == [x, x, x]) = false := by
      rw [beq_eq_false_iff_ne, h, List.take_succ_cons]
      rintro he
      obtain ⟨rfl, -⟩ := List.cons.inj he
      revert hx
      decide
    rw [Cursor.atMark, hne, Bool.and_false, Bool.false_and]
  rw [dispatch?]
  simp [hmark, startsPlain, isSeparator, isSpace]

theorem tokens?_emptyLines {cs : List Char} {ts : List Token} (h : EmptyLines cs)
    (ht : tokens? cs = some ts) : ts = [] := by
  rw [tokens?] at ht
  split at ht
  · obtain ⟨last, hlast, hend⟩ :=
      skipBlanks_emptyLines (c := { rest := cs }) h (Nat.lt_succ_self cs.length)
    have hkeys : ({ cursor := last } : Scanner).dropStaleKeys? = some { cursor := last } := rfl
    have hblocks : ({ cursor := last } : Scanner).unroll last.column = { cursor := last } := rfl
    rw [run?, hlast, hkeys] at ht
    simp only [Option.bind_eq_bind, Option.bind_some, hblocks] at ht
    rcases hend with hend | ⟨cs, hend⟩
    · rw [hend] at ht
      cases ht
      rfl
    · rw [hend] at ht
      -- No token begins with a tab.
      simp only [dispatch?_tab hend] at ht
      cases ht
  · cases ht

end Scanner

theorem Data.read?_emptyLines {text : String} {d : Data} (h : EmptyLines text.toList)
    (hd : read? text = some d) : d = .null := by
  rw [read?] at hd
  cases ht : tokens? text.toList with
  | none =>
    rw [ht] at hd
    cases hd
  | some ts =>
    rw [ht, Scanner.tokens?_emptyLines h ht] at hd
    cases hd
    rfl

end Yaml

theorem head_of_isEmptyLine {line cs : List Char} {c : Char} (h : isEmptyLine line = true)
    (hs : trimStart line = c :: cs) : c = '#' := by
  have hc : isBlank c = false := by
    have hhead := List.head?_dropWhile_not isBlank line
    rw [← trimStart, hs] at hhead
    simpa using hhead
  have htrim : trim line = c :: trimEnd cs := by
    rw [trim, hs, trimEnd, trimEnd, List.reverse_cons, List.dropWhile_append]
    split
    · next hd => simp [List.isEmpty_iff.1 hd, hc]
    · rw [List.reverse_append]
      rfl
  rw [isEmptyLine, htrim] at h
  exact beq_iff_eq.1 h

def withoutReturn (line : List Char) : List Char :=
  if line.getLast? = some '\r' then line.dropLast else line

theorem withoutReturn_append (line : List Char) :
    line = withoutReturn line ∨ line = withoutReturn line ++ ['\r'] := by
  rw [withoutReturn]
  split
  · next hl =>
    rw [List.getLast?_eq_some_iff] at hl
    obtain ⟨l, rfl⟩ := hl
    simp
  · exact .inl rfl

namespace Yaml

theorem isBlank_of_isSpace {c : Char} (h : isSpace c = true) : isBlank c = true := by
  simp only [isSpace, Bool.or_eq_true, beq_iff_eq] at h
  rcases h with rfl | rfl <;> decide

/-- Whether the blanks of a line are spaces and tabs, but for a carriage return at its end. -/
def isPlainLine (line : List Char) : Bool :=
  (withoutReturn line).all fun c => !isBlank c || isSpace c

theorem isBlank_of_isBreak {c : Char} (h : isBreak c = true) : isBlank c = true := by
  simp only [isBreak, Bool.or_eq_true, beq_iff_eq] at h
  rcases h with (((rfl | rfl) | rfl) | rfl) | rfl <;> decide

theorem trimStart_of_dropWhile_space {l cs : List Char} {c : Char}
    (hb : ∀ d ∈ l, isBlank d = true → isSpace d = true) (h : l.dropWhile isSpace = c :: cs)
    (t : List Char) : trimStart (l ++ t) = c :: (cs ++ t) := by
  induction l with
  | nil => cases h
  | cons d l ih =>
    have hl : ∀ e ∈ l, isBlank e = true → isSpace e = true :=
      fun e he => hb e (List.mem_cons_of_mem d he)
    cases hd : isSpace d with
    | true =>
      rw [List.dropWhile_cons_of_pos hd] at h
      rw [List.cons_append, trimStart, List.dropWhile_cons_of_pos (isBlank_of_isSpace hd)]
      exact ih hl h
    | false =>
      rw [List.dropWhile_cons_of_neg (by simp [hd])] at h
      obtain ⟨rfl, rfl⟩ := List.cons.inj h
      have hblank : ¬ isBlank d = true := fun he => by simp [hb d List.mem_cons_self he] at hd
      rw [List.cons_append, trimStart, List.dropWhile_cons_of_neg hblank]

theorem emptyLines_of_isPlainLine {line : List Char} (h : Phrasebook.isEmptyLine line = true)
    (hp : isPlainLine line = true) : EmptyLines line := by
  have hb : ∀ c ∈ withoutReturn line, isBlank c = true → isSpace c = true := by
    intro c hc hblank
    have hplain := List.all_eq_true.1 hp c hc
    rwa [hblank, Bool.not_true, Bool.false_or] at hplain
  have hempty : ∀ t, line = withoutReturn line ++ t →
      isEmptyLine (withoutReturn line) = true := by
    intro t ht
    rw [isEmptyLine]
    split
    · rfl
    · next c cs hs =>
      have htrim := trimStart_of_dropWhile_space hb hs t
      rw [← ht] at htrim
      exact beq_iff_eq.2 (head_of_isEmptyLine h htrim)
  have hbreak : ∀ c ∈ withoutReturn line, isBreak c = false := by
    intro c hc
    rw [Bool.eq_false_iff]
    intro hbr
    have hs := hb c hc (isBlank_of_isBreak hbr)
    simp only [isSpace, Bool.or_eq_true, beq_iff_eq] at hs
    rcases hs with rfl | rfl <;> cases hbr
  rcases withoutReturn_append line with he | he
  · rw [EmptyLines, he, splitAt_of_forall hbreak]
    intro l hl
    rw [List.mem_singleton.1 hl]
    exact hempty [] (by rwa [List.append_nil])
  · rw [EmptyLines, he, splitAt_append_cons rfl, splitAt_of_forall hbreak]
    intro l hl
    simp only [splitAt, List.mem_append, List.mem_singleton] at hl
    rcases hl with rfl | rfl
    · exact hempty _ he
    · rfl

/-- A text of empty lines is a document of empty lines if every blank in it is a space, a tab or
part of a line end: a line feed with or without a carriage return in front of it. -/
theorem emptyLines_of_isEmptyDocument {text : String} (h : isEmptyDocument text = true)
    (hp : (splitAt (· == '\n') text.toList).all isPlainLine = true) :
    EmptyLines text.toList := by
  have hfeed : ∀ c : Char, (c == '\n') = true → isBreak c = true := by
    intro c hc
    rw [beq_iff_eq.1 hc]
    rfl
  rw [isEmptyDocument, List.all_eq_true] at h
  rw [List.all_eq_true] at hp
  intro l hl
  rw [splitAt_flatMap hfeed, List.mem_flatMap] at hl
  obtain ⟨line, hline, hl⟩ := hl
  exact emptyLines_of_isPlainLine (h line hline) (hp line hline) l hl

end Yaml

open Yaml.Data (Gives Settled Kept Separate)

theorem readMessages_eq_root {t : FileTree} {path : Path} {text : String} {root : Yaml.Data}
    (ht : t.readText path = .ok text) (hr : Yaml.Data.read? text = some root)
    (hagree : isEmptyDocument text = true → Yaml.EmptyLines text.toList) :
    readMessages t path = messagesOfRoot path root := by
  rw [readMessages, ht]
  simp only
  rw [messagesOfText]
  split
  · next he =>
    rw [Yaml.Data.read?_emptyLines (hagree he) hr]
    rfl
  · rw [hr]

theorem messagesOfRoot_mapping (path : Path) (es : List (Yaml.Data × Yaml.Data)) :
    (∃ m, messagesOfRoot path (.mapping es) = .ok m ∧
        (Yaml.Data.mapping es).toValue = .ok (.map m)) ∨
      ∃ cause, messagesOfRoot path (.mapping es) = .error (.badKey path cause) ∧
        (Yaml.Data.mapping es).toValue = .error cause := by
  rw [messagesOfRoot, Yaml.Data.toValue]
  cases Yaml.Data.entriesToMessages [] es with
  | ok m => exact .inl ⟨m, rfl, rfl⟩
  | error cause => exact .inr ⟨cause, rfl, rfl⟩

theorem messagesOfRoot_eq_nil {path : Path} {root : Yaml.Data} :
    messagesOfRoot path root = .ok [] ↔ root = .null ∨ root = .mapping [] := by
  constructor
  · intro h
    cases root with
    | null => exact .inl rfl
    | mapping es =>
      rcases messagesOfRoot_mapping path es with ⟨m, hm, hv⟩ | ⟨cause, hc, -⟩
      · rw [hm] at h
        cases h
        obtain ⟨ms, he, hes⟩ := Yaml.Data.toValue_mapping hv
        have horder := (Yaml.Data.settled_insertAll ms).order
        rw [← Value.map.inj he] at horder
        -- The first key of all always stays.
        cases hes with
        | nil => exact .inr rfl
        | cons =>
          rw [Entries.keys_cons, List.eraseDups_cons] at horder
          cases horder
      · rw [hc] at h
        cases h
    | _ => cases h
  · rintro (rfl | rfl) <;> rfl

/-- No content of a file is passed over, as long as a file whose lines are all empty is a document
of empty lines: it is read as no messages only if its root is null or an empty mapping, all entries
of a mapping are read, and another root is an error. -/
theorem readMessages_root {t : FileTree} {path : Path} {text : String} {root : Yaml.Data}
    (ht : t.readText path = .ok text) (hr : Yaml.Data.read? text = some root)
    (hagree : isEmptyDocument text = true → Yaml.EmptyLines text.toList) :
    (readMessages t path = .ok [] ↔ root = .null ∨ root = .mapping []) ∧
    (∀ es, root = .mapping es →
      (∃ m, readMessages t path = .ok m ∧ Gives Settled root (.map m) ∧
        (root.Separate → Gives Kept root (.map m))) ∨
      ∃ cause, readMessages t path = .error (.badKey path cause) ∧
        root.toValue = .error cause) ∧
    (root ≠ .null → (∀ es, root ≠ .mapping es) →
      readMessages t path = .error (.noMapping path)) := by
  rw [readMessages_eq_root ht hr hagree]
  refine ⟨messagesOfRoot_eq_nil, ?_, ?_⟩
  · rintro es rfl
    rcases messagesOfRoot_mapping path es with ⟨m, hm, hv⟩ | hcause
    · exact .inl ⟨m, hm, Yaml.Data.gives_settled hv, fun hs =>
        Yaml.Data.gives_kept_of_separate hs hv⟩
    · exact .inr hcause
  · intro hnull hmapping
    cases root with
    | null => exact absurd rfl hnull
    | mapping es => exact absurd rfl (hmapping es)
    | _ => rfl

/-- A file of comments and blank lines, one with messages behind them, and one that holds a list. -/
theorem readMessages_root_comments :
    let comments := "# menu\r\n \n\n"
    let menu := "# menu\r\n404: [~]\n"
    let t : FileTree :=
      { entries := [(["a.yml"], .file (.text comments)), (["b.yml"], .file (.text menu)),
          (["c.yml"], .file (.text "- Hi"))], home := [] }
    let root : Yaml.Data := .mapping [(.number (.ofInt64 404), .sequence [.null])]
    isEmptyDocument comments = true ∧ readMessages t ⟨"a.yml"⟩ = .ok [] ∧
      Yaml.Data.read? menu = some root ∧
      (∃ m, readMessages t ⟨"b.yml"⟩ = .ok m ∧ Gives Kept root (.map m)) ∧
      readMessages t ⟨"c.yml"⟩ = .error (.noMapping ⟨"c.yml"⟩) := by
  intro comments menu t root
  have hcomments : Yaml.Data.read? comments = some .null := by decide +kernel
  have hmenu : Yaml.Data.read? menu = some root := by decide +kernel
  have hlist : Yaml.Data.read? "- Hi" = some (.sequence [.string "Hi"]) := by decide +kernel
  have hlines : Yaml.EmptyLines comments.toList :=
    Yaml.emptyLines_of_isEmptyDocument (by decide) (by decide)
  have ha : t.readText ⟨"a.yml"⟩ = .ok comments := rfl
  have hb : t.readText ⟨"b.yml"⟩ = .ok menu := rfl
  have hc : t.readText ⟨"c.yml"⟩ = .ok "- Hi" := rfl
  have hempty := readMessages_root ha hcomments fun _ => hlines
  have hfull := readMessages_root hb hmenu fun he => absurd he (by decide)
  have hother := readMessages_root hc hlist fun he => absurd he (by decide)
  refine ⟨by decide, hempty.1.2 (.inl rfl), hmenu, ?_, hother.2.2 (by simp) (by simp)⟩
  rcases hfull.2.1 _ rfl with ⟨m, hm, -, hkept⟩ | ⟨cause, -, hcause⟩
  · refine ⟨m, hm, hkept ?_⟩
    simp [Separate, root, Yaml.Data.keys, Yaml.Data.keyText]
  · cases hcause

/-- A carriage return alone ends the comment in the document but not in the text. -/
example : Yaml.Data.read? "# c\rHi: Salut\n" = some (.mapping [(.string "Hi", .string "Salut")]) ∧
    messagesOfText ⟨"fr.yml"⟩ "# c\rHi: Salut\n" = .ok [] := by
  constructor
  · decide +kernel
  · rfl

end Phrasebook
