import Phrasebook.Proofs.Template.Sections
import Phrasebook.Proofs.Template.TagGroups

namespace Phrasebook

def bracketPairs : List (Char × Char) := [('(', ')'), ('[', ']'), ('{', '}')]

def IsPlain (k : TokenKind) : Prop :=
  ∀ p ∈ bracketPairs, k ≠ .punctuation p.1 ∧ k ≠ .punctuation p.2

/-- Words in which the brackets stand in pairs, one pair inside of another or behind it. -/
inductive Paired : List TokenKind → Prop
  | nil : Paired []
  | plain {k : TokenKind} {ks : List TokenKind} (hk : IsPlain k) (h : Paired ks) :
      Paired (k :: ks)
  | pair {p : Char × Char} {ks ls : List TokenKind} (hp : p ∈ bracketPairs) (hk : Paired ks)
      (hl : Paired ls) : Paired (.punctuation p.1 :: (ks ++ .punctuation p.2 :: ls))

namespace Paired

variable {ks ls : List TokenKind}

theorem append (hk : Paired ks) (hl : Paired ls) : Paired (ks ++ ls) := by
  induction hk with
  | nil => exact hl
  | plain hp _ ih => exact .plain hp ih
  | pair hp hi _ _ ih =>
    rw [List.cons_append, List.append_assoc, List.cons_append]
    exact .pair hp hi ih

end Paired

/-- The words close the open brackets one by one, the innermost first. -/
def Closes : List Char → List TokenKind → Prop
  | [], ks => Paired ks
  | o :: open_, ks => ∃ c ls ms, (o, c) ∈ bracketPairs ∧ Paired ls ∧ Closes open_ ms ∧
      ks = ls ++ .punctuation c :: ms

section Nesting

variable {open_ st : List Char} {k : TokenKind} {ks ls : List TokenKind}

theorem Closes.append (hk : Paired ks) (h : Closes open_ ls) : Closes open_ (ks ++ ls) := by
  cases open_ with
  | nil => exact hk.append h
  | cons o open_ =>
    obtain ⟨c, ms, ns, hp, hm, hn, rfl⟩ := h
    exact ⟨c, ks ++ ms, ns, hp, hk.append hm, hn, (List.append_assoc ..).symm⟩

theorem openingBracket?_eq_some_iff {c o : Char} :
    openingBracket? c = some o ↔ (o, c) ∈ bracketPairs := by
  simp only [bracketPairs, List.mem_cons, Prod.mk.injEq, List.not_mem_nil, or_false]
  rw [openingBracket?.eq_def]
  split
  · simp [eq_comm]
  · simp [eq_comm]
  · simp [eq_comm]
  · next h₁ h₂ h₃ =>
    simp only [reduceCtorEq, false_iff, not_or, not_and]
    exact ⟨fun _ => h₁, fun _ => h₂, fun _ => h₃⟩

theorem nestStep_cases (h : nestStep open_ k = some st) :
    (∃ p ∈ bracketPairs, k = .punctuation p.1 ∧ st = p.1 :: open_) ∨
    (∃ p ∈ bracketPairs, k = .punctuation p.2 ∧ open_ = p.1 :: st) ∨
    (IsPlain k ∧ st = open_) := by
  cases k with
  | punctuation c =>
    rw [nestStep] at h
    split at h
    · next hc =>
      cases h
      refine .inl ?_
      rcases hc with rfl | rfl | rfl
      · exact ⟨('(', ')'), by decide, rfl, rfl⟩
      · exact ⟨('[', ']'), by decide, rfl, rfl⟩
      · exact ⟨('{', '}'), by decide, rfl, rfl⟩
    · next hc =>
      split at h
      · next ho =>
        cases h
        refine .inr (.inr ⟨fun p hp => ⟨?_, ?_⟩, rfl⟩)
        · rintro ⟨⟩
          simp only [bracketPairs, List.mem_cons, List.not_mem_nil, or_false] at hp
          rcases hp with rfl | rfl | rfl <;> simp at hc
        · rintro ⟨⟩
          rw [openingBracket?_eq_some_iff.2 hp] at ho
          cases ho
      · next o ho =>
        simp only [Option.ite_none_right_eq_some, Option.some.injEq] at h
        obtain ⟨hh, rfl⟩ := h
        exact .inr (.inl ⟨(o, c), openingBracket?_eq_some_iff.1 ho, rfl,
          (List.head?_eq_some_iff.1 hh).elim fun t ht => by rw [ht]; rfl⟩)
  | _ =>
    cases h
    exact .inr (.inr ⟨fun p _ => ⟨by rintro ⟨⟩, by rintro ⟨⟩⟩, rfl⟩)

theorem closes_of_nest (h : nest open_ ks = some []) : Closes open_ ks := by
  induction ks generalizing open_ with
  | nil =>
    cases h
    exact .nil
  | cons k ks ih =>
    rw [nest_cons] at h
    obtain ⟨st, hs, h⟩ := Option.bind_eq_some_iff.1 h
    have hk := ih h
    obtain ⟨p, hp, rfl, rfl⟩ | ⟨p, hp, rfl, rfl⟩ | ⟨hplain, rfl⟩ := nestStep_cases hs
    · -- The bracket is closed first, and what follows closes the others.
      obtain ⟨c, ls, ms, hc, hl, hm, rfl⟩ := hk
      have hpair := Paired.pair hc hl .nil
      have := Closes.append hpair hm
      rwa [List.cons_append, List.append_assoc] at this
    · exact ⟨p.2, [], ks, hp, .nil, hk, rfl⟩
    · exact Closes.append (.plain hplain .nil) hk

theorem nestStep_of_step {open_ open' : Brackets} {line : Nat}
    (h : open_.step line k = .ok open') :
    nestStep (open_.map Prod.fst) k = some (open'.map Prod.fst) := by
  cases k with
  | punctuation c =>
    dsimp only [Brackets.step] at h
    rw [nestStep]
    split at h
    · next hc =>
      cases h
      rw [if_pos hc]
      rfl
    · next hc =>
      rw [if_neg hc]
      split at h
      · next ho =>
        cases h
        rw [ho]
      · cases h
      · next o b bLine outer ho =>
        split at h
        · next hb =>
          cases h
          rw [ho, hb]
          exact if_pos rfl
        · cases h
  | _ =>
    cases h
    rfl

end Nesting

/-- What the tokens of a source come in: a text, or a tag with the words between its marks. -/
inductive TokenGroup
  | text (data : String)
  | tag (kind : TagKind) (words : List TokenKind)
  deriving DecidableEq, Repr

namespace TokenGroup

def kinds : TokenGroup → List TokenKind
  | text data => [.text data]
  | tag kind words => .tagStart kind :: (words ++ [.tagEnd kind])

/-- No text is empty, and the words of a tag are words with paired brackets. -/
def WellFormed : TokenGroup → Prop
  | text data => data ≠ ""
  | tag _ words => (∀ k ∈ words, k.isWord = true) ∧ Paired words

end TokenGroup

def InGroups (ts : List Token) : Prop :=
  ∃ groups : List TokenGroup, (∀ g ∈ groups, g.WellFormed) ∧
    ts.map Token.kind = groups.flatMap TokenGroup.kinds

namespace InGroups

variable {ts us : List Token}

theorem nil : InGroups [] := ⟨[], by simp, rfl⟩

theorem append (h : InGroups ts) (h' : InGroups us) : InGroups (ts ++ us) := by
  obtain ⟨gs, hg, ht⟩ := h
  obtain ⟨hs, hh, hu⟩ := h'
  refine ⟨gs ++ hs, fun g hm => ?_, ?_⟩
  · exact (List.mem_append.1 hm).elim (hg g) (hh g)
  · rw [List.map_append, List.flatMap_append, ht, hu]

theorem textToken (trimmedStart trimmedEnd : Bool) (line : Nat) (cs : List Char) :
    InGroups (textToken trimmedStart trimmedEnd line cs) := by
  rcases textToken_cases trimmedStart trimmedEnd line cs with h | ⟨data, hd, h⟩
  · rw [h]
    exact nil
  · rw [h]
    exact ⟨[.text data], List.forall_mem_singleton.2 hd, rfl⟩

end InGroups

theorem exists_words_of_tagTokens {kind : TagKind} {start line : Nat} {open_ : Brackets}
    {cs : List Char} {r : List Token × Resume} (h : tagTokens kind start line open_ cs = .ok r) :
    ∃ words, r.1.map Token.kind = words ++ [.tagEnd kind] ∧ (∀ k ∈ words, k.isWord = true) ∧
      nest (open_.map Prod.fst) words = some [] := by
  fun_induction tagTokens kind start line open_ cs generalizing r with
  | case1 | case3 | case4 | case5 => cases h
  | case2 =>
    rename_i hc
    cases h
    split at hc
    · next ho => exact ⟨[], rfl, by simp, by rw [List.isEmpty_iff.1 ho]; rfl⟩
    · cases hc
  | case6 _ _ _ _ _ _ _ _ l hl _ hs _ _ hr =>
    rename_i ih
    cases h
    obtain ⟨words, hk, hw, hn⟩ := ih hr
    refine ⟨l.kind :: words, ?_, List.forall_mem_cons.2 ⟨lexeme_isWord hl, hw⟩, ?_⟩
    · rw [List.map_cons, hk, List.cons_append]
    · rw [nest_cons, nestStep_of_step hs, Option.bind_some, hn]

theorem InGroups.markupTokens {line : Nat} {marker : Marker} {rest : List Char}
    {r : List Token × Resume} (h : markupTokens line marker rest = .ok r) : InGroups r.1 := by
  rcases markupTokens_cases h with h | ⟨trim, inner, -, h⟩ | ⟨kind, q, ht, rfl⟩
  · rw [commentTokens_fst h]
    exact nil
  · obtain ⟨_, _, _, _, hr⟩ := verbatimTokens_fst h
    rw [hr]
    exact textToken _ _ _ _
  · obtain ⟨words, hk, hw, hn⟩ := exists_words_of_tagTokens ht
    refine ⟨[.tag kind words], List.forall_mem_singleton.2 ⟨hw, closes_of_nest hn⟩, ?_⟩
    rw [List.map_cons, hk]
    simp [TokenGroup.kinds]

theorem StringBody.text_append_rest {quote : Char} {cs : List Char} {b : StringBody}
    (h : stringBody? quote cs = some b) : b.text ++ b.rest = cs := by
  fun_induction stringBody? quote cs generalizing b with
  | case1 | case2 => cases h
  | case3 c cs ih | case5 c cs _ _ _ ih =>
    obtain ⟨b', hb, rfl⟩ := Option.map_eq_some_iff.1 h
    simp only [List.cons_append, ih hb]
  | case4 =>
    cases h
    rfl

theorem lexeme_text_append_rest {c : Char} {cs : List Char} {l : Lexeme}
    (h : lexeme c cs = .ok l) : l.text ++ l.rest = c :: cs := by
  have htake (kind : TokenKind) (n : Nat) :
      (Lexeme.take kind n (c :: cs)).text ++ (Lexeme.take kind n (c :: cs)).rest = c :: cs :=
    List.take_append_drop n (c :: cs)
  rw [lexeme] at h
  split at h
  · dsimp only at h
    split at h
    · cases h
      exact htake _ _
    · cases h
  · split at h
    · split at h
      · next b hb =>
        cases h
        exact congrArg (c :: ·) (StringBody.text_append_rest hb)
      · cases h
    · split at h
      · cases h
        exact htake _ _
      · split at h
        · cases h
          exact htake _ _
        · split at h
          · cases h
            exact htake _ _
          · split at h
            · cases h
              exact htake _ _
            · cases h

/-- Tokens on lines that never go back, from one line on to another. -/
structure OnLines (first last : Nat) (ts : List Token) : Prop where
  le : first ≤ last
  sorted : ts.Pairwise fun s t => s.line ≤ t.line
  within : ∀ t ∈ ts, first ≤ t.line ∧ t.line ≤ last

namespace OnLines

variable {a b c : Nat} {t : Token} {ts us : List Token}

theorem nil (h : a ≤ b) : OnLines a b [] := ⟨h, .nil, by simp⟩

theorem single (t : Token) : OnLines t.line t.line [t] :=
  ⟨le_rfl, List.pairwise_singleton _ t, List.forall_mem_singleton.2 ⟨le_rfl, le_rfl⟩⟩

theorem append (h : OnLines a b ts) (h' : OnLines b c us) : OnLines a c (ts ++ us) where
  le := h.le.trans h'.le
  sorted := List.pairwise_append.2 ⟨h.sorted, h'.sorted, fun s hs t ht =>
    (h.within s hs).2.trans (h'.within t ht).1⟩
  within t ht := by
    rcases List.mem_append.1 ht with ht | ht
    · exact ⟨(h.within t ht).1, (h.within t ht).2.trans h'.le⟩
    · exact ⟨h.le.trans (h'.within t ht).1, (h'.within t ht).2⟩

theorem mono (h : OnLines b c ts) (hab : a ≤ b) : OnLines a c ts := (nil hab).append h

theorem extend (h : OnLines a b ts) (hbc : b ≤ c) : OnLines a c ts := by
  have := h.append (nil hbc)
  rwa [List.append_nil] at this

theorem textToken (trimmedStart trimmedEnd : Bool) (line : Nat) (cs : List Char) :
    OnLines line line (textToken trimmedStart trimmedEnd line cs) := by
  rcases textToken_cases trimmedStart trimmedEnd line cs with h | ⟨data, -, h⟩
  · rw [h]
    exact nil le_rfl
  · rw [h]
    exact single ⟨.text data, line⟩

end OnLines

namespace Resume

def lastLine (r : Resume) : Nat := r.line + lineFeeds r.rest

theorem lastLine_skipLineBreak (r : Resume) : r.skipLineBreak.lastLine = r.lastLine := by
  obtain ⟨line, trim, rest⟩ := r
  rw [skipLineBreak.eq_def]
  split
  · next cs he =>
    cases he
    simp [lastLine, lineFeeds]
    omega
  · next cs he =>
    cases he
    simp [lastLine, lineFeeds]
    omega
  · rfl

theorem line_le_skipLineBreak (r : Resume) : r.line ≤ r.skipLineBreak.line := by
  rw [skipLineBreak.eq_def]
  split
  · exact Nat.le_succ _
  · exact Nat.le_succ _
  · exact le_rfl

end Resume

/-- Tokens that were read from some line on with the line `last` at the end of the source: they
stand on the lines up to where the source goes on. -/
def Advances (line last : Nat) (r : List Token × Resume) : Prop :=
  OnLines line r.2.line r.1 ∧ r.2.lastLine = last

namespace Advances

variable {line last : Nat} {ts : List Token} {r : Resume}

theorem skipLineBreak (h : Advances line last (ts, r)) : Advances line last (ts, r.skipLineBreak) :=
  ⟨h.1.extend r.line_le_skipLineBreak, r.lastLine_skipLineBreak.trans h.2⟩

theorem afterTag (kind : TagKind) (h : Advances line last (ts, r)) :
    Advances line last (ts, r.afterTag kind) := by
  rw [Resume.afterTag]
  split
  · exact h.skipLineBreak
  · exact h

end Advances

theorem lineFeeds_trimStart (cs : List Char) :
    lineFeeds (cs.takeWhile isBlank) + lineFeeds (trimStart cs) = lineFeeds cs := by
  rw [trimStart, ← lineFeeds_append, List.takeWhile_append_dropWhile]

theorem lineFeeds_takeDash (cs : List Char) : lineFeeds (takeDash cs).2 = lineFeeds cs := by
  have hd : ∀ b, lineFeeds (Tag.dash b) = 0 := by decide
  nth_rewrite 2 [← dash_takeDash cs]
  rw [lineFeeds_append, hd, Nat.zero_add]

theorem advances_tagTokens {kind : TagKind} {start line : Nat} {open_ : Brackets}
    {cs : List Char} {r : List Token × Resume} (h : tagTokens kind start line open_ cs = .ok r) :
    Advances line (line + lineFeeds cs) r := by
  fun_induction tagTokens kind start line open_ cs generalizing r with
  | case1 | case3 | case4 | case5 => cases h
  | case2 line _ cs line' c cs' ht trim rest =>
    rename_i hc
    cases h
    have hclose : tagClose? kind (c :: cs') = some (trim, rest) := by
      split at hc
      · exact hc
      · cases hc
    have hfeeds := lineFeeds_trimStart cs
    rw [ht, eq_of_tagClose? hclose, lineFeeds_append, Tag.lineFeeds_closing, Nat.zero_add] at hfeeds
    refine Advances.afterTag kind
      ⟨(OnLines.single ⟨.tagEnd kind, line'⟩).mono (Nat.le_add_right _ _), ?_⟩
    change line + lineFeeds (cs.takeWhile isBlank) + lineFeeds rest = _
    omega
  | case6 line _ cs line' c cs' ht _ l hl _ _ _ _ hr =>
    rename_i ih
    cases h
    obtain ⟨hlines, hlast⟩ := ih hr
    have hfeeds := lineFeeds_trimStart cs
    rw [ht, ← lexeme_text_append_rest hl, lineFeeds_append] at hfeeds
    refine ⟨?_, ?_⟩
    · exact ((OnLines.single ⟨l.kind, line'⟩).mono (Nat.le_add_right _ _)).append
        (hlines.mono (Nat.le_add_right _ _))
    · rw [hlast]
      change line + lineFeeds (cs.takeWhile isBlank) + lineFeeds l.text + lineFeeds l.rest = _
      omega

theorem lineFeeds_splitComment? {cs : List Char} {r : List Char × List Char}
    (h : splitComment? cs = some r) : lineFeeds cs = lineFeeds r.1 + lineFeeds r.2 := by
  fun_induction splitComment? cs generalizing r with
  | case1 => cases h
  | case2 =>
    cases h
    simp [lineFeeds]
  | case3 c cs _ ih =>
    obtain ⟨r', hr, rfl⟩ := Option.map_eq_some_iff.1 h
    have hc (ds : List Char) : lineFeeds (c :: ds) = lineFeeds [c] + lineFeeds ds :=
      lineFeeds_append [c] ds
    rw [hc, hc r'.1, ih hr, Nat.add_assoc]

theorem suffix_of_splitVerbatim? {cs : List Char} {v : Verbatim}
    (h : splitVerbatim? cs = some v) : v.rest <:+ cs := by
  induction cs generalizing v with
  | nil => cases h
  | cons c cs ih =>
    rw [splitVerbatim?] at h
    split at h
    · next w hw =>
      cases h
      obtain ⟨t, -, ht⟩ := exists_of_verbatimEnd? hw
      exact ⟨t, ht.symm⟩
    · obtain ⟨w, hw, rfl⟩ := Option.map_eq_some_iff.1 h
      exact (ih hw).trans (List.suffix_cons c cs)

theorem suffix_of_verbatimStart? {cs rest : List Char} {trims : Bool}
    (h : verbatimStart? cs = some (trims, rest)) : rest <:+ cs := by
  obtain ⟨word, -, before, after, -, he⟩ := exists_of_wordTag? h
  refine ⟨Tag.dash (takeDash cs).1 ++ (before ++ (word.toList ++ (after ++
    Spaced.closing .block trims))), ?_⟩
  refine Eq.trans ?_ (dash_takeDash cs)
  rw [he]
  simp only [List.append_assoc]

theorem advances_commentTokens {line : Nat} {rest : List Char} {r : List Token × Resume}
    (h : commentTokens line rest = .ok r) : Advances line (line + lineFeeds rest) r := by
  rw [commentTokens] at h
  split at h
  · cases h
  · next body after hc =>
    cases h
    have hfeeds : _ = lineFeeds body + lineFeeds after := lineFeeds_splitComment? hc
    have hhash : lineFeeds ('#' :: rest) = lineFeeds rest := List.count_cons_of_ne (by decide)
    refine Advances.skipLineBreak ⟨.nil (Nat.le_add_right _ _), ?_⟩
    change line + lineFeeds body + lineFeeds after = _
    omega

theorem advances_verbatimTokens {r : Resume} {out : List Token × Resume}
    (h : verbatimTokens r = .ok out) : Advances r.line r.lastLine out := by
  have hle : r.line ≤ (if r.trim then r else r.skipLineBreak).line := by
    split
    · exact le_rfl
    · exact r.line_le_skipLineBreak
  have hlast : (if r.trim then r else r.skipLineBreak).lastLine = r.lastLine := by
    split
    · rfl
    · exact r.lastLine_skipLineBreak
  rw [verbatimTokens] at h
  dsimp only at h
  split at h
  · cases h
  · next v hv =>
    cases h
    have hfeeds : lineFeeds v.rest ≤ lineFeeds (if r.trim then r else r.skipLineBreak).rest :=
      (suffix_of_splitVerbatim? hv).sublist.count_le '\n'
    refine Advances.skipLineBreak
      ⟨((OnLines.textToken _ _ _ _).mono hle).extend (Nat.le_add_right _ _), ?_⟩
    rw [← hlast, Resume.lastLine, Resume.lastLine]
    dsimp only
    omega

theorem advances_markupTokens {line : Nat} {marker : Marker} {rest : List Char}
    {r : List Token × Resume} (h : markupTokens line marker rest = .ok r) :
    Advances line (line + lineFeeds rest) r := by
  rcases markupTokens_cases h with h | ⟨trim, inner, hv, h⟩ | ⟨kind, q, ht, rfl⟩
  · exact advances_commentTokens h
  · have hfeeds : lineFeeds inner ≤ lineFeeds rest :=
      (suffix_of_verbatimStart? hv).sublist.count_le '\n'
    obtain ⟨hlines, hlast⟩ := advances_verbatimTokens h
    refine ⟨hlines.mono (Nat.le_add_right _ _), hlast.trans ?_⟩
    rw [Resume.lastLine]
    dsimp only
    omega
  · have hq := advances_tagTokens ht
    rw [lineFeeds_takeDash] at hq
    exact ⟨(OnLines.single ⟨.tagStart kind, line⟩).append hq.1, hq.2⟩

theorem lineFeeds_splitMarker (cs : List Char) : lineFeeds cs = lineFeeds (splitMarker cs).1 +
    ((splitMarker cs).2.map fun found => lineFeeds found.2).getD 0 := by
  fun_induction splitMarker cs with
  | case1 => rfl
  | case2 | case3 | case4 => simp [lineFeeds]
  | case5 c cs _ _ _ _ ih =>
    have hc (ds : List Char) : lineFeeds (c :: ds) = lineFeeds [c] + lineFeeds ds :=
      lineFeeds_append [c] ds
    rw [hc, hc (splitMarker cs).1, Nat.add_assoc, ← ih]

theorem sourceTokens_stream {r : Resume} {ts : List Token} (h : sourceTokens r = .ok ts) :
    ∃ us, ts = us ++ [⟨.eof, r.lastLine⟩] ∧ InGroups us ∧ OnLines r.line r.lastLine ts := by
  fun_induction sourceTokens r generalizing ts with
  | case1 r text line =>
    rename_i hm
    cases h
    have hfeeds := lineFeeds_splitMarker r.rest
    rw [hm, Option.map_none, Option.getD_none, Nat.add_zero] at hfeeds
    have hlast : line = r.lastLine := congrArg (r.line + ·) hfeeds.symm
    rw [← hlast]
    exact ⟨_, rfl, .textToken _ _ _ _, ((OnLines.textToken _ _ _ _).extend
      (Nat.le_add_right _ _)).append (.single ⟨.eof, line⟩)⟩
  | case2 | case3 => cases h
  | case4 r text line marker rest hm tokens after ht others hr =>
    rename_i ih
    cases h
    obtain ⟨us, rfl, hgroups, hlines⟩ := ih hr
    obtain ⟨hmarkup, hlast⟩ := advances_markupTokens ht
    have hfeeds := lineFeeds_splitMarker r.rest
    rw [hm, Option.map_some, Option.getD_some] at hfeeds
    have hend : after.lastLine = r.lastLine := by
      rw [hlast, Resume.lastLine, hfeeds]
      exact Nat.add_assoc ..
    rw [hend] at hlines ⊢
    refine ⟨textToken r.trim (takeDash rest).1 r.line text ++ tokens ++ us, ?_, ?_, ?_⟩
    · simp only [List.append_assoc]
    · exact ((InGroups.textToken _ _ _ _).append (.markupTokens ht)).append hgroups
    · exact (((OnLines.textToken _ _ _ _).extend (Nat.le_add_right _ _)).append hmarkup).append
        hlines

/-- The tokens of an accepted source are non-empty texts and tags one behind another, and one end
token behind all of them. Inside of a tag stand words whose brackets are in pairs. The lines go from
the first one on and never back, and the end token is on the last line. -/
theorem tokenize_stream {source : String} {ts : List Token} (h : tokenize source = .ok ts) :
    (∃ groups : List TokenGroup, (∀ g ∈ groups, g.WellFormed) ∧
      ts.map Token.kind = groups.flatMap TokenGroup.kinds ++ [.eof]) ∧
    (ts.Pairwise fun s t => s.line ≤ t.line) ∧
    (∀ t ∈ ts, 1 ≤ t.line ∧ t.line ≤ 1 + lineFeeds source.toList) ∧
    ts.getLast? = some ⟨.eof, 1 + lineFeeds source.toList⟩ := by
  obtain ⟨us, rfl, ⟨groups, hg, hu⟩, hlines⟩ := sourceTokens_stream h
  refine ⟨⟨groups, hg, ?_⟩, hlines.sorted, hlines.within, List.getLast?_concat ..⟩
  rw [List.map_append, hu]
  rfl

/-- A comment, a print with brackets in brackets, and a section of text on three lines. -/
theorem tokenize_stream_menu :
    let source :=
      "Menu\n\x7b# today\n#\x7d\x7b\x7b f([1]) \x7d\x7d\n\x7b% raw %\x7d)\x7b% endraw %\x7d"
    ∃ ts, tokenize source = .ok ts ∧
      (∃ groups : List TokenGroup, (∀ g ∈ groups, g.WellFormed) ∧
        ts.map Token.kind = groups.flatMap TokenGroup.kinds ++ [.eof]) ∧
      ts.map Token.line = [1, 3, 3, 3, 3, 3, 3, 3, 3, 3, 4, 4] ∧
      ts.getLast? = some ⟨.eof, 4⟩ := by
  intro source
  have h : (tokenize source).toOption.map (List.map Token.line) =
      some [1, 3, 3, 3, 3, 3, 3, 3, 3, 3, 4, 4] := by decide +kernel
  cases ht : tokenize source with
  | error e =>
    rw [ht] at h
    cases h
  | ok ts =>
    rw [ht] at h
    obtain ⟨hgroups, -, -, hlast⟩ := tokenize_stream ht
    have hfeeds : lineFeeds source.toList = 3 := by decide
    rw [hfeeds] at hlast
    exact ⟨ts, rfl, hgroups, Option.some.inj h, hlast⟩

end Phrasebook
