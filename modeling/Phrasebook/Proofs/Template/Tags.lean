import Phrasebook.Proofs.Template.Spelling

namespace Phrasebook

/-- The open brackets after a token, the innermost first. -/
def nestStep (open_ : List Char) : TokenKind → Option (List Char)
  | .punctuation c =>
    if c = '(' ∨ c = '[' ∨ c = '{' then some (c :: open_)
    else match openingBracket? c with
      | none => some open_
      | some o => if open_.head? = some o then some open_.tail else none
  | _ => some open_

/-- The open brackets after all tokens, unless a closing one meets no opening one of its kind. -/
def nest (open_ : List Char) (ks : List TokenKind) : Option (List Char) := ks.foldlM nestStep open_

theorem nest_nil (open_ : List Char) : nest open_ [] = some open_ := rfl

theorem nest_cons (open_ : List Char) (k : TokenKind) (ks : List TokenKind) :
    nest open_ (k :: ks) = (nestStep open_ k).bind (nest · ks) :=
  List.foldlM_cons

theorem nest_append (open_ : List Char) (ks ls : List TokenKind) :
    nest open_ (ks ++ ls) = (nest open_ ks).bind (nest · ls) :=
  List.foldlM_append

theorem exists_step_of_nestStep {open_ : Brackets} {k : TokenKind} {cs : List Char} (line : Nat)
    (h : nestStep (open_.map Prod.fst) k = some cs) :
    ∃ open', open_.step line k = .ok open' ∧ open'.map Prod.fst = cs := by
  cases k with
  | punctuation c =>
    by_cases hc : c = '(' ∨ c = '[' ∨ c = '{'
    · rw [nestStep, if_pos hc, Option.some.injEq] at h
      exact ⟨_, if_pos hc, h⟩
    · cases hb : openingBracket? c with
      | none =>
        simp only [nestStep, if_neg hc, hb, Option.some.injEq] at h
        exact ⟨open_, by simp only [Brackets.step, if_neg hc, hb], h⟩
      | some o =>
        simp only [nestStep, if_neg hc, hb, Option.ite_none_right_eq_some, Option.some.injEq] at h
        cases open_ with
        | nil => cases h.1
        | cons b outer =>
          have ho : b.1 = o := Option.some.inj h.1
          exact ⟨outer, by simp only [Brackets.step, if_neg hc, hb, ho, if_true], h.2⟩
  | _ => exact ⟨open_, rfl, Option.some.inj h⟩

theorem isBlank_of_mem_space : ∀ c ∈ [' '], isBlank c = true :=
  List.forall_mem_singleton.2 (by decide)

theorem trimStart_append {b : List Char} (hb : ∀ c ∈ b, isBlank c = true) (cs : List Char) :
    trimStart (b ++ cs) = trimStart cs :=
  List.dropWhile_append_of_pos hb

theorem trimStart_cons {c : Char} (hc : isBlank c = false) (cs : List Char) :
    trimStart (c :: cs) = c :: cs := by
  rw [trimStart, List.dropWhile_cons_of_neg (by simp [hc])]

theorem lineFeeds_append (a b : List Char) : lineFeeds (a ++ b) = lineFeeds a + lineFeeds b :=
  List.count_append

def Token.before (ts : List Token) (r : List Token × Resume) : List Token × Resume :=
  (ts ++ r.1, r.2)

theorem tagTokens_lexeme {kind : TagKind} {start line : Nat} {open_ open' : Brackets} {c : Char}
    {b cs : List Char} {l : Lexeme} (hb : ∀ d ∈ b, isBlank d = true) (hc : isBlank c = false)
    (hclose : open_.isEmpty = true → tagClose? kind (c :: cs) = none)
    (hl : lexeme c cs = .ok l) (hs : open_.step (line + lineFeeds b) l.kind = .ok open') :
    tagTokens kind start line open_ (b ++ c :: cs) =
      (tagTokens kind start (line + lineFeeds b + lineFeeds l.text) open' l.rest).map
        (Token.before [⟨l.kind, line + lineFeeds b⟩]) := by
  have ht : trimStart (b ++ c :: cs) = c :: cs := by
    rw [trimStart_append hb, trimStart_cons hc]
  have hw : (b ++ c :: cs).takeWhile isBlank = b :=
    takeWhile_append_of_head hb fun d hd => by cases hd; exact hc
  have hn : (if open_.isEmpty then tagClose? kind (c :: cs) else none) = none := by
    split
    · next he => exact hclose he
    · rfl
  rw [tagTokens, hw]
  split
  · next he => cases he.symm.trans ht
  · next c' cs' he =>
    cases he.symm.trans ht
    rw [hn]
    simp only
    split
    · next he => cases he.symm.trans hl
    · next l' he =>
      cases he.symm.trans hl
      simp only [hs]
      cases tagTokens kind start (line + lineFeeds b + lineFeeds l.text) open' l.rest <;> rfl

/-- A token as it stands in a tag: behind blanks, as one of its texts. -/
structure Word where
  blanks : List Char
  text : List Char
  kind : TokenKind
  deriving DecidableEq, Repr

namespace Word

def source (ws : List Word) : List Char := ws.flatMap fun w => w.blanks ++ w.text

def kinds (ws : List Word) : List TokenKind := ws.map Word.kind

def placed (line : Nat) : List Word → List Token
  | [] => []
  | w :: ws =>
    ⟨w.kind, line + lineFeeds w.blanks⟩ ::
      placed (line + lineFeeds w.blanks + lineFeeds w.text) ws

def Apart : List Word → List Char → Prop
  | [], _ => True
  | w :: ws, rest =>
    (∀ c ∈ w.blanks, isBlank c = true) ∧ Spells w.text w.kind ∧
      w.kind.endsAt (source ws ++ rest) = true ∧ Apart ws rest

theorem source_cons (w : Word) (ws : List Word) :
    source (w :: ws) = w.blanks ++ (w.text ++ source ws) := by
  rw [source, List.flatMap_cons, List.append_assoc]
  rfl

end Word

theorem Spells.exists_cons {k : TokenKind} {text : List Char} (h : Spells text k) :
    ∃ c cs, text = c :: cs ∧ isBlank c = false := by
  cases h with
  | name h =>
    cases text with
    | nil => cases h
    | cons c cs =>
      simp only [isIdentifier, Bool.and_eq_true, Bool.not_eq_true'] at h
      exact ⟨c, cs, rfl, h.1.2⟩
  | integer h hn =>
    rw [isDigits, Bool.and_eq_true, List.all_eq_true] at h
    cases text with
    | nil => cases h.1
    | cons c cs => exact ⟨c, cs, rfl, isBlank_of_isDigit (h.2 c List.mem_cons_self)⟩
  | str h => exact ⟨_, _, rfl, by decide⟩
  | @operator op h =>
    have ho : ∀ op ∈ dashedOperators ++ symbolOperators,
        op.toList.head?.all (fun c => !isBlank c) = true ∧ op.toList ≠ [] := by decide
    obtain ⟨hb, hne⟩ := ho op h
    obtain ⟨c, cs, hs⟩ := List.exists_cons_of_ne_nil hne
    rw [hs] at hb
    exact ⟨c, cs, hs, by simpa using hb⟩
  | @punctuation c h =>
    have hp : punctuationMarks.all (fun c => !isBlank c) = true := by decide
    exact ⟨c, [], rfl, by simpa using List.all_eq_true.1 hp c h⟩

theorem tagClose?_eq_none (kind : TagKind) {c : Char} (h : c ∉ ['-', '}', '%']) (cs : List Char) :
    tagClose? kind (c :: cs) = none := by
  simp only [List.mem_cons, List.not_mem_nil, or_false, not_or] at h
  have hd : takeDash (c :: cs) = (false, c :: cs) := by
    rw [takeDash.eq_def]
    split
    · next he =>
      cases he
      exact absurd rfl h.1
    · rfl
  cases kind <;>
    simp [tagClose?, hd, afterStart?, startsWith, TagKind.closing, Ne.symm h.2.1, Ne.symm h.2.2]

theorem Spells.tagClose?_eq_none {k : TokenKind} {text rest : List Char} (h : Spells text k)
    (he : k.endsAt rest = true) (hn : nestStep [] k ≠ none) (kind : TagKind) :
    tagClose? kind (text ++ rest) = none := by
  obtain ⟨c, cs, hs, -⟩ := h.exists_cons
  by_cases hc : c ∈ ['-', '}', '%']
  · simp only [List.mem_cons, List.not_mem_nil, or_false] at hc
    cases h with
    | name h =>
      subst hs
      rcases hc with rfl | rfl | rfl <;> cases h
    | integer h hv =>
      subst hs
      rw [isDigits, Bool.and_eq_true, List.all_eq_true] at h
      have hd := h.2 c List.mem_cons_self
      rcases hc with rfl | rfl | rfl <;> cases hd
    | str h =>
      cases hs
      rcases hc with hc | hc | hc <;> cases hc
    | @operator op h =>
      have ho : ∀ op ∈ dashedOperators ++ symbolOperators,
          op.toList.head? ∈ [some '-', some '}', some '%'] → op = "-" ∨ op = "%" := by decide
      obtain ⟨b, hb, rest, rfl⟩ := exists_of_any_isPlainBlank he
      simp only [List.mem_cons, List.not_mem_nil, or_false] at hb
      rcases ho op h (by rw [hs]; simpa using hc) with rfl | rfl <;>
        cases kind <;> rcases hb with rfl | rfl | rfl | rfl | rfl | rfl <;> rfl
    | punctuation h =>
      cases hs
      rcases hc with rfl | rfl | rfl
      · exact absurd h (by decide)
      · exact absurd rfl hn
      · exact absurd h (by decide)
  · rw [hs]
    exact Phrasebook.tagClose?_eq_none kind hc (cs ++ rest)

namespace Word

/-- Words are read back, with the brackets that they leave open. -/
theorem tagTokens_source (kind : TagKind) (start : Nat) {ws : List Word} {rest : List Char}
    (hs : Apart ws rest) (open_ : Brackets) {cs : List Char}
    (hn : nest (open_.map Prod.fst) (kinds ws) = some cs) (line : Nat) :
    ∃ open', open'.map Prod.fst = cs ∧
      tagTokens kind start line open_ (source ws ++ rest) =
        (tagTokens kind start (line + lineFeeds (source ws)) open' rest).map
          (Token.before (placed line ws)) := by
  induction ws generalizing open_ line with
  | nil =>
    refine ⟨open_, Option.some.inj hn, ?_⟩
    change tagTokens kind start line open_ rest = _
    cases h : tagTokens kind start (line + lineFeeds (source [])) open_ rest <;> exact h
  | cons w ws ih =>
    obtain ⟨hb, hk, he, hs⟩ := hs
    rw [kinds, List.map_cons, nest_cons] at hn
    obtain ⟨st, hst, hn⟩ := Option.bind_eq_some_iff.1 hn
    obtain ⟨open₁, hstep, rfl⟩ := exists_step_of_nestStep (line + lineFeeds w.blanks) hst
    obtain ⟨c, cs', hc, hblank⟩ := hk.exists_cons
    have hl := Spells.lexeme (hc ▸ hk) he
    -- The tag can end only where no bracket is open, and there the token closes none.
    have hclose : open_.isEmpty = true →
        tagClose? kind (c :: (cs' ++ (source ws ++ rest))) = none := by
      intro ho
      rw [List.isEmpty_iff.1 ho, List.map_nil] at hst
      have := hk.tagClose?_eq_none he (by rw [hst]; exact Option.some_ne_none _) kind
      rwa [hc] at this
    obtain ⟨open', ho, ht⟩ := ih hs open₁ hn (line + lineFeeds w.blanks + lineFeeds w.text)
    refine ⟨open', ho, ?_⟩
    have hfeeds : line + lineFeeds (source (w :: ws)) =
        line + lineFeeds w.blanks + lineFeeds w.text + lineFeeds (source ws) := by
      rw [source_cons, lineFeeds_append, lineFeeds_append]
      omega
    have hassoc : source (w :: ws) ++ rest = w.blanks ++ c :: (cs' ++ (source ws ++ rest)) := by
      rw [source_cons, hc]
      simp
    rw [hassoc, tagTokens_lexeme hb hblank hclose hl hstep, hfeeds]
    simp only [← hc, ht]
    cases tagTokens kind start (line + lineFeeds w.blanks + lineFeeds w.text +
      lineFeeds (source ws)) open' rest <;> rfl

end Word

abbrev Spaced := List (List Char × TokenKind)

namespace Spaced

def text (ts : Spaced) : List Char := ts.flatMap fun t => t.1 ++ t.2.spelling

def kinds (ts : Spaced) : List TokenKind := ts.map Prod.snd

def placed (line : Nat) : Spaced → List Token
  | [] => []
  | (b, k) :: ts =>
    ⟨k, line + lineFeeds b⟩ :: placed (line + lineFeeds b + lineFeeds k.spelling) ts

def Apart : Spaced → List Char → Prop
  | [], _ => True
  | (b, k) :: ts, rest =>
    (∀ c ∈ b, isBlank c = true) ∧ k.isSpellable = true ∧ k.endsAt (text ts ++ rest) = true ∧
      Apart ts rest

def words (ts : Spaced) : List Word := ts.map fun t => ⟨t.1, t.2.spelling, t.2⟩

theorem text_cons (b : List Char) (k : TokenKind) (ts : Spaced) :
    text ((b, k) :: ts) = b ++ (k.spelling ++ text ts) := by
  rw [text, List.flatMap_cons, List.append_assoc]
  rfl

theorem source_words (ts : Spaced) : Word.source ts.words = text ts := by
  rw [Word.source, words, List.flatMap_map, text]

theorem kinds_words (ts : Spaced) : Word.kinds ts.words = kinds ts := by
  rw [Word.kinds, words, List.map_map]
  rfl

theorem placed_words (line : Nat) (ts : Spaced) : Word.placed line ts.words = placed line ts := by
  induction ts generalizing line with
  | nil => rfl
  | cons t ts ih => exact congrArg _ (ih _)

theorem Apart.words {ts : Spaced} {rest : List Char} (h : Apart ts rest) :
    Word.Apart ts.words rest := by
  induction ts with
  | nil => trivial
  | cons t ts ih =>
    obtain ⟨hb, hk, he, hs⟩ := h
    refine ⟨hb, TokenKind.spells_spelling hk, ?_, ih hs⟩
    rwa [← Spaced.words, source_words]

theorem kinds_placed (line : Nat) (ts : Spaced) : (placed line ts).map Token.kind = kinds ts := by
  induction ts generalizing line with
  | nil => rfl
  | cons t ts ih =>
    rw [placed, List.map_cons, ih]
    rfl

def closing (kind : TagKind) (trim : Bool) : List Char :=
  (if trim then ['-'] else []) ++ kind.closing.toList

theorem tagClose?_closing (kind : TagKind) (trim : Bool) (rest : List Char) :
    tagClose? kind (closing kind trim ++ rest) = some (trim, rest) := by
  cases kind <;> cases trim <;> rfl

theorem tagTokens_closing (kind : TagKind) (start line : Nat) (trim : Bool) {b : List Char}
    (hb : ∀ c ∈ b, isBlank c = true) (rest : List Char) :
    tagTokens kind start line [] (b ++ (closing kind trim ++ rest)) =
      .ok ([⟨.tagEnd kind, line + lineFeeds b⟩],
        Resume.afterTag kind { line := line + lineFeeds b, trim, rest }) := by
  have hc := tagClose?_closing kind trim rest
  obtain ⟨c, cs, hs, hblank⟩ : ∃ c cs, closing kind trim = c :: cs ∧ isBlank c = false := by
    cases kind <;> cases trim <;> exact ⟨_, _, rfl, by decide⟩
  rw [hs, List.cons_append] at hc ⊢
  have ht : trimStart (b ++ c :: (cs ++ rest)) = c :: (cs ++ rest) := by
    rw [trimStart_append hb, trimStart_cons hblank]
  have hw : (b ++ c :: (cs ++ rest)).takeWhile isBlank = b :=
    takeWhile_append_of_head hb fun d hd => by cases hd; exact hblank
  rw [tagTokens, hw]
  split
  · next he => cases he.symm.trans ht
  · next c' cs' he =>
    cases he.symm.trans ht
    simp only [List.isEmpty_nil, if_true, hc]

end Spaced

/-- A tag with nested brackets is read back, whatever follows it. -/
theorem Word.tagTokens_tag (kind : TagKind) {ws : List Word} {b : List Char} (trim : Bool)
    {rest : List Char} (hs : Apart ws (b ++ (Spaced.closing kind trim ++ rest)))
    (hn : nest [] (kinds ws) = some []) (hb : ∀ c ∈ b, isBlank c = true) (start line : Nat) :
    tagTokens kind start line [] (source ws ++ (b ++ (Spaced.closing kind trim ++ rest))) =
      .ok (placed line ws ++ [⟨.tagEnd kind, line + lineFeeds (source ws ++ b)⟩],
        Resume.afterTag kind { line := line + lineFeeds (source ws ++ b), trim, rest }) := by
  obtain ⟨open', ho, ht⟩ := tagTokens_source kind start hs [] hn line
  rw [List.map_eq_nil_iff] at ho
  subst ho
  rw [ht, Spaced.tagTokens_closing kind start _ trim hb rest, lineFeeds_append, ← Nat.add_assoc]
  rfl

end Phrasebook
