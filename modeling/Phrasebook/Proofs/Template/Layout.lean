import Phrasebook.Proofs.Template.Tags

/-!
Templates laid out as texts with tags between them. A dash at either end of a tag trims the text
beside it, and behind a block tag without one a line break is dropped. The tokens are those of the
texts and tags in their order, each on the line that the line feeds in front of it lead to.
-/
namespace Phrasebook

/-- A text in which no tag and no comment begins. -/
def Unmarked (t : List Char) : Prop :=
  ∀ mark ∈ ["\x7b\x7b", "\x7b%", "\x7b#"], ¬ mark.toList <:+: t

instance (t : List Char) : Decidable (Unmarked t) :=
  inferInstanceAs (Decidable (∀ mark ∈ _, ¬ String.toList mark <:+: t))

theorem Unmarked.suffix {s t : List Char} (h : Unmarked t) (hs : s <:+ t) : Unmarked s :=
  fun mark hm hi => h mark hm (hi.trans hs.isInfix)

theorem Unmarked.tail {c : Char} {t : List Char} (h : Unmarked (c :: t)) : Unmarked t :=
  h.suffix (List.suffix_cons c t)

theorem Unmarked.of_not_mem {t : List Char} (h : '{' ∉ t) : Unmarked t := by
  intro mark hm hi
  apply h (hi.subset _)
  simp only [List.mem_cons, List.not_mem_nil, or_false] at hm
  rcases hm with rfl | rfl | rfl <;> exact List.mem_cons_self

theorem Unmarked.second {c : Char} {t : List Char} (h : Unmarked ('{' :: c :: t)) :
    c ∉ ['{', '%', '#'] := by
  intro hc
  simp only [List.mem_cons, List.not_mem_nil, or_false] at hc
  have hp : ['{', c] <:+: '{' :: c :: t := (List.prefix_append ['{', c] t).isInfix
  rcases hc with rfl | rfl | rfl
  · exact h "\x7b\x7b" (by decide) hp
  · exact h "\x7b%" (by decide) hp
  · exact h "\x7b#" (by decide) hp

theorem splitMarker_cons {c : Char} {cs : List Char}
    (h : c = '{' → ∀ d, cs.head? = some d → d ∉ ['{', '%', '#']) :
    splitMarker (c :: cs) = (c :: (splitMarker cs).1, (splitMarker cs).2) := by
  rw [splitMarker.eq_def]
  split
  · next he => cases he
  · next he => cases he; exact absurd (by decide) (h rfl _ rfl)
  · next he => cases he; exact absurd (by decide) (h rfl _ rfl)
  · next he => cases he; exact absurd (by decide) (h rfl _ rfl)
  · next he => cases he; rfl

theorem Unmarked.head {c : Char} {t : List Char} (h : Unmarked (c :: t)) (hc : c = '{') :
    ∀ d, t.head? = some d → d ∉ ['{', '%', '#'] := by
  intro d hd
  cases t with
  | nil => cases hd
  | cons e t =>
    cases hd
    subst hc
    exact h.second

theorem splitMarker_of_unmarked {t : List Char} (h : Unmarked t) : splitMarker t = (t, none) := by
  induction t with
  | nil => rfl
  | cons c t ih => rw [splitMarker_cons h.head, ih h.tail]

theorem splitMarker_append {t rest : List Char} {found : Marker × List Char} (h : Unmarked t)
    (hl : t.getLast? ≠ some '{') (hr : splitMarker rest = ([], some found)) :
    splitMarker (t ++ rest) = (t, some found) := by
  induction t with
  | nil => exact hr
  | cons c t ih =>
    cases t with
    | nil =>
      have hc : c ≠ '{' := fun he => hl (congrArg some he)
      rw [List.cons_append, splitMarker_cons fun he => absurd he hc, List.nil_append, hr]
    | cons d t =>
      rw [List.getLast?_cons_cons] at hl
      have hc : c = '{' → ∀ e, (d :: t ++ rest).head? = some e → e ∉ ['{', '%', '#'] := h.head
      rw [List.cons_append, splitMarker_cons hc, ih h.tail hl]

theorem splitMarker_opening {t : List Char} (h : Unmarked t) (hl : t.getLast? ≠ some '{')
    (kind : TagKind) (rest : List Char) :
    splitMarker (t ++ (kind.opening.toList ++ rest)) = (t, some (.tag kind, rest)) :=
  splitMarker_append h hl (by cases kind <;> rfl)

theorem sourceTokens_of_none {r : Resume} {t : List Char} (h : splitMarker r.rest = (t, none)) :
    sourceTokens r =
      .ok (textToken r.trim false r.line t ++ [⟨.eof, r.line + lineFeeds t⟩]) := by
  rw [sourceTokens]
  split
  · rw [h]
  · next he =>
    rw [h] at he
    cases he

theorem sourceTokens_of_some {r after : Resume} {t rest : List Char} {marker : Marker}
    {tokens : List Token} (h : splitMarker r.rest = (t, some (marker, rest)))
    (ht : markupTokens (r.line + lineFeeds t) marker rest = .ok (tokens, after)) :
    sourceTokens r = (sourceTokens after).map fun others =>
      textToken r.trim (takeDash rest).1 r.line t ++ tokens ++ others := by
  rw [sourceTokens]
  split
  · next he =>
    rw [h] at he
    cases he
  · next marker' rest' he =>
    rw [h] at he
    cases he
    rw [h]
    split
    · next he => cases he.symm.trans ht
    · next he =>
      cases he.symm.trans ht
      cases sourceTokens after <;> rfl

theorem sourceTokens_of_error {r : Resume} {t rest : List Char} {marker : Marker} {e : TokenError}
    (h : splitMarker r.rest = (t, some (marker, rest)))
    (he : markupTokens (r.line + lineFeeds t) marker rest = .error e) :
    sourceTokens r = .error e := by
  rw [sourceTokens]
  split
  · next hs =>
    rw [h] at hs
    cases hs
  · next marker' rest' hs =>
    rw [h] at hs
    cases hs
    rw [h]
    split
    · next ht =>
      cases ht.symm.trans he
      rfl
    · next ht => cases ht.symm.trans he

theorem takeDash_of_head {cs : List Char} (h : ∀ c, cs.head? = some c → c ≠ '-') :
    takeDash cs = (false, cs) := by
  rw [takeDash.eq_def]
  split
  · exact absurd rfl (h '-' rfl)
  · rfl

/-- A tag as it is written: its words, the blanks behind them, and whether dashes stand behind its
opening and in front of its closing mark. -/
structure Tag where
  kind : TagKind
  dashed : Bool
  content : List Word
  space : List Char
  trims : Bool
  deriving DecidableEq, Repr

namespace Tag

def dash (here : Bool) : List Char := if here then ['-'] else []

def opening (g : Tag) : List Char := g.kind.opening.toList ++ dash g.dashed

def inner (g : Tag) : List Char := Word.source g.content ++ g.space

def source (g : Tag) : List Char := g.opening ++ (g.inner ++ Spaced.closing g.kind g.trims)

def placed (line : Nat) (g : Tag) : List Token :=
  ⟨.tagStart g.kind, line⟩ :: (Word.placed line g.content ++
    [⟨.tagEnd g.kind, line + lineFeeds g.inner⟩])

/-- Whatever follows the tag, it begins and ends where it seems to and its words are read back. -/
structure Readable (g : Tag) : Prop where
  apart : ∀ rest, Word.Apart g.content (g.space ++ (Spaced.closing g.kind g.trims ++ rest))
  nested : nest [] (Word.kinds g.content) = some []
  space : ∀ c ∈ g.space, isBlank c = true
  undashed : g.dashed = false →
    ∀ c, (g.inner ++ Spaced.closing g.kind g.trims).head? = some c → c ≠ '-'
  noWord : g.kind = .block → ∀ rest,
    wordTag? ["verbatim", "raw"] (g.inner ++ (Spaced.closing g.kind g.trims ++ rest)) = none

theorem lineFeeds_opening (g : Tag) : lineFeeds g.opening = 0 := by
  rw [opening, dash]
  cases g.kind <;> cases g.dashed <;> rfl

theorem lineFeeds_closing (kind : TagKind) (trim : Bool) :
    lineFeeds (Spaced.closing kind trim) = 0 := by
  cases kind <;> cases trim <;> rfl

theorem lineFeeds_source (g : Tag) : lineFeeds g.source = lineFeeds g.inner := by
  rw [source, lineFeeds_append, lineFeeds_append, lineFeeds_opening, lineFeeds_closing,
    Nat.zero_add, Nat.add_zero]

namespace Readable

variable {g : Tag}

theorem takeDash (h : g.Readable) (rest : List Char) :
    takeDash (dash g.dashed ++ (g.inner ++ (Spaced.closing g.kind g.trims ++ rest))) =
      (g.dashed, g.inner ++ (Spaced.closing g.kind g.trims ++ rest)) := by
  cases hd : g.dashed with
  | true => rfl
  | false =>
    apply takeDash_of_head
    intro c hc
    apply h.undashed hd c
    obtain ⟨d, ds, hs⟩ : ∃ d ds, g.inner ++ Spaced.closing g.kind g.trims = d :: ds := by
      apply List.exists_cons_of_ne_nil
      cases g.kind <;> simp [Spaced.closing, TagKind.closing]
    rw [dash, if_neg Bool.false_ne_true, List.nil_append, ← List.append_assoc, hs] at hc
    rw [hs]
    exact hc

theorem markupTokens (h : g.Readable) (line : Nat) (rest : List Char) :
    markupTokens line (.tag g.kind)
      (dash g.dashed ++ (g.inner ++ (Spaced.closing g.kind g.trims ++ rest))) =
      .ok (g.placed line,
        Resume.afterTag g.kind { line := line + lineFeeds g.inner, trim := g.trims, rest }) := by
  have hv : (if g.kind = .block then verbatimStart? (dash g.dashed ++
      (g.inner ++ (Spaced.closing g.kind g.trims ++ rest))) else none) = none := by
    split
    · next hk => rw [verbatimStart?, h.takeDash, h.noWord hk]
    · rfl
  have ht := Word.tagTokens_tag g.kind g.trims (h.apart rest) h.nested h.space line line
  rw [← List.append_assoc (Word.source g.content), ← inner] at ht
  simp only [Phrasebook.markupTokens, hv, h.takeDash, ht]
  rfl

theorem sourceTokens (h : g.Readable) {t : List Char} (ht : Unmarked t)
    (hl : t.getLast? ≠ some '{') (line : Nat) (trim : Bool) (rest : List Char) :
    sourceTokens { line, trim, rest := t ++ (g.source ++ rest) } =
      (sourceTokens (Resume.afterTag g.kind
        { line := line + lineFeeds t + lineFeeds g.inner, trim := g.trims, rest })).map
        fun others =>
          textToken trim g.dashed line t ++ g.placed (line + lineFeeds t) ++ others := by
  have hs : g.source ++ rest = g.kind.opening.toList ++
      (dash g.dashed ++ (g.inner ++ (Spaced.closing g.kind g.trims ++ rest))) := by
    simp only [source, opening, List.append_assoc]
  rw [hs, sourceTokens_of_some (splitMarker_opening ht hl g.kind _) (h.markupTokens _ rest)]
  simp only [h.takeDash]

end Readable
end Tag

structure Word.Sound (w : Word) : Prop where
  spells : Spells w.text w.kind
  spaced : w.blanks ≠ []
  plain : ∀ c ∈ w.blanks, isPlainBlank c = true

theorem exists_blank_cons {b : List Char} (hne : b ≠ []) (hb : ∀ c ∈ b, isPlainBlank c = true)
    (rest : List Char) : ∃ c cs, b ++ rest = c :: cs ∧ isPlainBlank c = true := by
  cases b with
  | nil => exact absurd rfl hne
  | cons c b => exact ⟨c, b ++ rest, rfl, hb c List.mem_cons_self⟩

structure Tag.Sound (g : Tag) : Prop where
  words : ∀ w ∈ g.content, w.Sound
  nested : nest [] (Word.kinds g.content) = some []
  spaced : g.space ≠ []
  plain : ∀ c ∈ g.space, isPlainBlank c = true

/-- Whether a block holds just one of the words that open a verbatim section. Blanks outside of
ASCII, which a name may contain, can stand behind the word. -/
def Tag.opensVerbatim (g : Tag) : Bool :=
  match g.kind, g.content with
  | .block, [w] => ["verbatim", "raw"].any fun v => (afterStart? v w.text).any (·.all isBlank)
  | _, _ => false

namespace Word

theorem exists_blank {ws : List Word} (hw : ∀ w ∈ ws, w.Sound) {b : List Char} (hne : b ≠ [])
    (hb : ∀ c ∈ b, isPlainBlank c = true) (rest : List Char) :
    ∃ c cs, source ws ++ (b ++ rest) = c :: cs ∧ isPlainBlank c = true := by
  cases ws with
  | nil => exact exists_blank_cons hne hb rest
  | cons w ws =>
    have h := hw w List.mem_cons_self
    rw [source_cons, List.append_assoc]
    exact exists_blank_cons h.spaced h.plain _

theorem apart_of_sound {ws : List Word} (hw : ∀ w ∈ ws, w.Sound) {b : List Char} (hne : b ≠ [])
    (hb : ∀ c ∈ b, isPlainBlank c = true) (rest : List Char) : Apart ws (b ++ rest) := by
  induction ws with
  | nil => trivial
  | cons w ws ih =>
    obtain ⟨h, hw⟩ := List.forall_mem_cons.1 hw
    refine ⟨fun c hc => isBlank_of_isPlainBlank (h.plain c hc), h.spells, ?_, ih hw⟩
    obtain ⟨c, cs, hs, hc⟩ := exists_blank hw hne hb rest
    rw [hs]
    exact w.kind.endsAt_blank hc cs

end Word

theorem wordTag?_eq_none {words : List String} {cs : List Char}
    (h : ∀ v ∈ words, ∀ rest, afterStart? v (trimStart cs) = some rest →
      tagClose? .block (trimStart rest) = none) : wordTag? words cs = none := by
  rw [wordTag?]
  split
  · rfl
  · next rest hr =>
    obtain ⟨v, hv, hs⟩ := List.exists_of_findSome?_eq_some hr
    exact h v hv rest hs

theorem afterStart?_eq_some {v : String} {cs rest : List Char} :
    afterStart? v cs = some rest ↔ cs = v.toList ++ rest := by
  rw [afterStart?, startsWith, Option.ite_none_right_eq_some, List.isPrefixOf_iff_prefix]
  constructor
  · rintro ⟨⟨r, rfl⟩, h⟩
    rw [← String.length_toList, List.drop_left, Option.some.injEq] at h
    rw [h]
  · rintro rfl
    rw [← String.length_toList, List.drop_left]
    exact ⟨List.prefix_append _ _, rfl⟩

theorem Spells.eq_name {c : Char} {cs : List Char} {k : TokenKind} (h : Spells (c :: cs) k)
    (hc : c = 'v' ∨ c = 'r') :
    k = .name (String.ofList (c :: cs)) ∧ isIdentifier (c :: cs) = true := by
  generalize ht : c :: cs = text at h
  cases h with
  | name h => exact ⟨rfl, h⟩
  | integer h hn =>
    rw [isDigits, Bool.and_eq_true, List.all_eq_true, ← ht] at h
    have hd := h.2 c List.mem_cons_self
    rcases hc with rfl | rfl <;> cases hd
  | str h =>
    cases ht
    rcases hc with hc | hc <;> cases hc
  | @operator op h =>
    have ho : ∀ op ∈ dashedOperators ++ symbolOperators,
        op.toList.head? ∉ [some 'v', some 'r'] := by decide
    have hh := ho op h
    rw [← ht] at hh
    rcases hc with rfl | rfl <;> simp at hh
  | punctuation h =>
    cases ht
    rcases hc with rfl | rfl <;> exact absurd h (by decide)

theorem exists_of_append_eq {v cs tail rest : List Char} {b : Char}
    (hv : ∀ c ∈ v, isNameChar c = true) (hb : isPlainBlank b = true)
    (h : cs ++ b :: tail = v ++ rest) : ∃ x, cs = v ++ x ∧ rest = x ++ b :: tail := by
  rcases List.append_eq_append_iff.1 h with ⟨x, hx, hr⟩ | ⟨x, hx, hr⟩
  · cases x with
    | nil => exact ⟨[], by rw [hx, List.append_nil, List.append_nil], hr.symm⟩
    | cons d x =>
      cases hr
      have hn := hv b (hx ▸ List.mem_append_right _ List.mem_cons_self)
      rw [isNameChar_of_isPlainBlank hb] at hn
      cases hn
  · exact ⟨x, hx, hr⟩

theorem trimStart_append_of_not_blank {x : List Char} (h : ∃ c ∈ x, isBlank c = false)
    (rest : List Char) : ∃ d ∈ x, ∃ cs, trimStart (x ++ rest) = d :: cs := by
  induction x with
  | nil => simp at h
  | cons c x ih =>
    cases hc : isBlank c with
    | false => exact ⟨c, List.mem_cons_self, x ++ rest, trimStart_cons hc (x ++ rest)⟩
    | true =>
      obtain ⟨e, he, hb⟩ := h
      rcases List.mem_cons.1 he with rfl | he
      · rw [hc] at hb
        cases hb
      · obtain ⟨d, hd, cs, ht⟩ := ih ⟨e, he, hb⟩
        refine ⟨d, List.mem_cons_of_mem c hd, cs, ?_⟩
        rw [List.cons_append, trimStart, List.dropWhile_cons_of_pos hc]
        exact ht

theorem Word.Sound.trimStart {w : Word} (h : w.Sound) (rest : List Char) :
    trimStart (w.blanks ++ (w.text ++ rest)) = w.text ++ rest := by
  obtain ⟨c, cs, hs, hc⟩ := h.spells.exists_cons
  rw [trimStart_append fun d hd => isBlank_of_isPlainBlank (h.plain d hd), hs, List.cons_append,
    trimStart_cons hc]

namespace Tag

variable {g : Tag}

theorem Sound.isBlank_space (h : g.Sound) : ∀ c ∈ g.space, isBlank c = true :=
  fun c hc => isBlank_of_isPlainBlank (h.plain c hc)

theorem tagClose?_behind {w : Word} {ws : List Word} (hw : ∀ u ∈ ws, u.Sound)
    (hk : nestStep [] w.kind = some []) (hn : nest [] (Word.kinds (w :: ws)) = some [])
    (hws : ws ≠ []) {b : List Char} (hne : b ≠ []) (hb : ∀ c ∈ b, isPlainBlank c = true)
    (rest : List Char) :
    tagClose? .block (trimStart (Word.source ws ++ (b ++ rest))) = none := by
  cases ws with
  | nil => exact absurd rfl hws
  | cons u ws =>
    obtain ⟨hu, hw⟩ := List.forall_mem_cons.1 hw
    obtain ⟨c, cs, hs, hc⟩ := Word.exists_blank hw hne hb rest
    have hnest : nestStep [] u.kind ≠ none := by
      intro he
      rw [Word.kinds, List.map_cons, List.map_cons, nest_cons, hk, Option.bind_some, nest_cons,
        he] at hn
      cases hn
    rw [Word.source_cons, List.append_assoc, List.append_assoc, hu.trimStart, hs]
    exact hu.spells.tagClose?_eq_none (u.kind.endsAt_blank hc cs) hnest .block

theorem closing_head (trims : Bool) : ∃ d ds, Spaced.closing .block trims = d :: ds ∧
    isBlank d = false ∧ d ≠ 'v' ∧ d ≠ 'r' := by
  cases trims <;> exact ⟨_, _, rfl, by decide, by decide, by decide⟩

theorem tagClose?_of_isIdentifier {c : Char} {cs x : List Char}
    (hi : isIdentifier (c :: (cs ++ x)) = true) (hx : ∃ d ∈ x, isBlank d = false)
    (rest : List Char) :
    tagClose? .block (trimStart (x ++ rest)) = none := by
  obtain ⟨d, hd, ds, ht⟩ := trimStart_append_of_not_blank hx rest
  rw [ht]
  apply tagClose?_eq_none
  intro hm
  simp only [isIdentifier, Bool.and_eq_true, List.all_eq_true] at hi
  have hn := hi.2 d (List.mem_append_right cs hd)
  simp only [List.mem_cons, List.not_mem_nil, or_false] at hm
  rcases hm with rfl | rfl | rfl <;> cases hn

theorem Sound.noWord (h : g.Sound) (hk : g.kind = .block) (hv : g.opensVerbatim = false)
    (rest : List Char) :
    wordTag? ["verbatim", "raw"] (g.inner ++ (Spaced.closing g.kind g.trims ++ rest)) = none := by
  apply wordTag?_eq_none
  intro v hm r hs
  obtain ⟨c, cs, hvs, hc, hname⟩ : ∃ c cs, v.toList = c :: cs ∧ (c = 'v' ∨ c = 'r') ∧
      ∀ d ∈ c :: cs, isNameChar d = true := by
    simp only [List.mem_cons, List.not_mem_nil, or_false] at hm
    rcases hm with rfl | rfl <;> exact ⟨_, _, rfl, by decide, List.all_eq_true.1 rfl⟩
  rw [afterStart?_eq_some, hvs, inner, List.append_assoc] at hs
  cases hcontent : g.content with
  | nil =>
    -- The word would begin with the closing mark.
    obtain ⟨d, ds, hd, hblank, hnv, hnr⟩ := closing_head g.trims
    rw [hcontent, Word.source, List.flatMap_nil, List.nil_append,
      trimStart_append h.isBlank_space, hk, hd, List.cons_append, trimStart_cons hblank] at hs
    have hcd := (List.cons.inj hs).1
    exact (hc.elim (fun he => hnv (hcd.trans he)) fun he => hnr (hcd.trans he)).elim
  | cons w ws =>
    obtain ⟨hw, hws⟩ := List.forall_mem_cons.1 (hcontent ▸ h.words)
    obtain ⟨b, tail, htail, hb⟩ := Word.exists_blank hws h.spaced h.plain
      (Spaced.closing g.kind g.trims ++ rest)
    rw [hcontent, Word.source_cons, List.append_assoc, List.append_assoc, hw.trimStart, htail] at hs
    -- The first word is a name that begins with the word and goes on with `x`.
    obtain ⟨x, hx, rfl⟩ := exists_of_append_eq hname hb hs
    have hspells := hw.spells
    rw [hx, List.cons_append] at hspells
    obtain ⟨hname', hi⟩ := hspells.eq_name hc
    by_cases hblanks : ∀ d ∈ x, isBlank d = true
    · -- Then it is not the only word.
      have hws' : ws ≠ [] := by
        rintro rfl
        have hany : g.opensVerbatim = true := by
          rw [opensVerbatim, hk, hcontent]
          refine List.any_eq_true.2 ⟨v, hm, ?_⟩
          rw [afterStart?_eq_some.2 (by rw [hvs, hx]), Option.any_some, List.all_eq_true]
          exact hblanks
        rw [hv] at hany
        cases hany
      have hstep : nestStep [] w.kind = some [] := by rw [hname']; rfl
      rw [trimStart_append hblanks, ← htail]
      exact tagClose?_behind hws hstep (hcontent ▸ h.nested) hws' h.spaced h.plain _
    · simp only [not_forall, exists_prop, Bool.not_eq_true] at hblanks
      exact tagClose?_of_isIdentifier hi hblanks _

theorem Sound.readable (h : g.Sound) (hv : g.opensVerbatim = false) : g.Readable where
  apart rest := Word.apart_of_sound h.words h.spaced h.plain _
  nested := h.nested
  space := h.isBlank_space
  undashed := by
    intro _ c hc
    obtain ⟨b, cs, hs, hb⟩ := Word.exists_blank h.words h.spaced h.plain
      (Spaced.closing g.kind g.trims)
    rw [inner, List.append_assoc, hs] at hc
    cases hc
    rintro rfl
    cases hb
  noWord hk rest := h.noWord hk hv rest

end Tag

/-- A text, and tags each with the text behind it. -/
structure Layout where
  first : List Char
  others : List (Tag × List Char)
  deriving DecidableEq, Repr

def Token.behind (before : List Char) (kind : TokenKind) : Token := ⟨kind, 1 + lineFeeds before⟩

def Word.tokens (before : List Char) : List Word → List Token
  | [] => []
  | w :: ws =>
    .behind (before ++ w.blanks) w.kind :: tokens (before ++ w.blanks ++ w.text) ws

def Tag.tokens (before : List Char) (g : Tag) : List Token :=
  .behind before (.tagStart g.kind) :: (Word.tokens (before ++ g.opening) g.content ++
    [.behind (before ++ g.opening ++ g.inner) (.tagEnd g.kind)])

def lineBreak : List Char → List Char
  | '\r' :: '\n' :: _ => ['\r', '\n']
  | '\n' :: _ => ['\n']
  | _ => []

namespace Layout

/-- The line break that is dropped from a text behind a tag, or behind no tag. -/
def dropped (before : Option Tag) (t : List Char) : List Char :=
  match before with
  | some g => if g.kind = .block ∧ g.trims = false then lineBreak t else []
  | none => []

def kept (before after : Option Tag) (t : List Char) : List Char :=
  let t := t.drop (dropped before t).length
  let t := if before.any (·.trims) then trimStart t else t
  if after.any (·.dashed) then trimEnd t else t

def textTokens (source : List Char) (before after : Option Tag) (t : List Char) : List Token :=
  if (kept before after t).isEmpty then []
  else [.behind (source ++ dropped before t) (.text (String.ofList (kept before after t)))]

def tokensFrom (source : List Char) (before : Option Tag) (t : List Char) :
    List (Tag × List Char) → List Token
  | [] => textTokens source before none t ++ [.behind (source ++ t) .eof]
  | (g, u) :: gs =>
    textTokens source before (some g) t ++ g.tokens (source ++ t) ++
      tokensFrom (source ++ t ++ g.source) (some g) u gs

def tokens (l : Layout) : List Token := tokensFrom [] none l.first l.others

def sourceOf (gs : List (Tag × List Char)) : List Char := gs.flatMap fun p => p.1.source ++ p.2

def source (l : Layout) : List Char := l.first ++ sourceOf l.others

def tags (l : Layout) : List Tag := l.others.map Prod.fst

def texts (l : Layout) : List (List Char) := l.first :: l.others.map Prod.snd

/-- No text holds a mark or runs into one, and the tags are words between blanks. -/
structure Sound (l : Layout) : Prop where
  unmarked : ∀ t ∈ l.texts, Unmarked t
  unbraced : ∀ t ∈ l.texts.dropLast, t.getLast? ≠ some '{'
  tags : ∀ g ∈ l.tags, g.Sound

end Layout

theorem Token.behind_append (before text : List Char) (kind : TokenKind) :
    Token.behind (before ++ text) kind = ⟨kind, 1 + lineFeeds before + lineFeeds text⟩ := by
  rw [behind, lineFeeds_append, Nat.add_assoc]

theorem Word.placed_eq_tokens (before : List Char) (ws : List Word) :
    placed (1 + lineFeeds before) ws = tokens before ws := by
  induction ws generalizing before with
  | nil => rfl
  | cons w ws ih =>
    rw [placed, tokens, Token.behind_append, ← ih, lineFeeds_append, lineFeeds_append]
    simp only [Nat.add_assoc]

theorem Tag.placed_eq_tokens (before : List Char) (g : Tag) :
    g.placed (1 + lineFeeds before) = g.tokens before := by
  have ho : 1 + lineFeeds before = 1 + lineFeeds (before ++ g.opening) := by
    rw [lineFeeds_append, lineFeeds_opening, Nat.add_zero]
  rw [placed, tokens, Token.behind_append, ← Word.placed_eq_tokens, ← ho]
  rfl

theorem Word.map_kind_tokens (before : List Char) (ws : List Word) :
    (tokens before ws).map Token.kind = kinds ws := by
  induction ws generalizing before with
  | nil => rfl
  | cons w ws ih =>
    rw [tokens, List.map_cons, ih]
    rfl

theorem Tag.map_kind_tokens (before : List Char) (g : Tag) :
    (g.tokens before).map Token.kind =
      .tagStart g.kind :: (Word.kinds g.content ++ [.tagEnd g.kind]) := by
  rw [tokens, List.map_cons, List.map_append, Word.map_kind_tokens]
  rfl

theorem lineBreak_isPrefix (t : List Char) : lineBreak t <+: t := by
  rw [lineBreak.eq_def]
  split
  · exact List.prefix_append ['\r', '\n'] _
  · exact List.prefix_append ['\n'] _
  · exact List.nil_prefix

theorem lineBreak_eq_nil {t : List Char} (hr : ∀ cs, t ≠ '\r' :: '\n' :: cs)
    (hn : ∀ cs, t ≠ '\n' :: cs) : lineBreak t = [] := by
  rw [lineBreak.eq_def]
  split
  · exact absurd rfl (hr _)
  · exact absurd rfl (hn _)
  · rfl

theorem lineBreak_append (t : List Char) {rest : List Char}
    (h : ∀ c, rest.head? = some c → c = '{') : lineBreak (t ++ rest) = lineBreak t := by
  have hrest {c : Char} {cs : List Char} (he : rest = c :: cs) : c = '{' := h c (by rw [he]; rfl)
  rw [lineBreak.eq_def t]
  split
  · rfl
  · rfl
  · next hr hn =>
    apply lineBreak_eq_nil
    · intro cs he
      rcases t with _ | ⟨c, _ | ⟨d, t⟩⟩
      · exact absurd (hrest he) (by decide)
      · exact absurd (hrest (List.cons.inj he).2) (by decide)
      · cases he
        exact hr t rfl
    · intro cs he
      rcases t with _ | ⟨c, t⟩
      · exact absurd (hrest he) (by decide)
      · cases he
        exact hn t rfl

theorem Resume.skipLineBreak_eq (r : Resume) :
    r.skipLineBreak = { r with line := r.line + lineFeeds (lineBreak r.rest)
                               rest := r.rest.drop (lineBreak r.rest).length } := by
  obtain ⟨line, trim, rest⟩ := r
  rw [skipLineBreak.eq_def]
  simp only
  split
  · rfl
  · rfl
  · next hr hn =>
    rw [lineBreak_eq_nil hr hn]
    rfl

namespace Layout

theorem dropped_isPrefix (before : Option Tag) (t : List Char) : dropped before t <+: t := by
  rw [dropped.eq_def]
  split
  · split
    · exact lineBreak_isPrefix t
    · exact List.nil_prefix
  · exact List.nil_prefix

theorem dropped_append_drop (before : Option Tag) (t : List Char) :
    dropped before t ++ t.drop (dropped before t).length = t :=
  List.prefix_iff_eq_append.1 (dropped_isPrefix before t)

theorem head?_sourceOf {gs : List (Tag × List Char)} {c : Char}
    (h : (sourceOf gs).head? = some c) : c = '{' := by
  cases gs with
  | nil => cases h
  | cons p gs =>
    rw [sourceOf, List.flatMap_cons, Tag.source, Tag.opening] at h
    cases hk : p.1.kind <;> rw [hk] at h <;> cases h <;> rfl

theorem afterTag_eq (g : Tag) (line : Nat) (t : List Char) (gs : List (Tag × List Char)) :
    Resume.afterTag g.kind { line, trim := g.trims, rest := t ++ sourceOf gs } =
      { line := line + lineFeeds (dropped (some g) t), trim := g.trims,
        rest := t.drop (dropped (some g) t).length ++ sourceOf gs } := by
  rw [Resume.afterTag, dropped]
  split
  · have hb : lineBreak (t ++ sourceOf gs) = lineBreak t :=
      lineBreak_append t fun c => head?_sourceOf
    rw [Resume.skipLineBreak_eq]
    simp only [hb]
    rw [List.drop_append_of_le_length (lineBreak_isPrefix t).length_le]
  · rfl

theorem lineFeeds_drop (source : List Char) (before : Option Tag) (t : List Char) :
    lineFeeds (source ++ dropped before t) + lineFeeds (t.drop (dropped before t).length) =
      lineFeeds (source ++ t) := by
  rw [← lineFeeds_append, List.append_assoc, dropped_append_drop]

theorem textTokens_nil (source : List Char) (before after : Option Tag) :
    textTokens source before after [] = [] := by
  have hkept : kept before after [] = [] := by
    simp [kept, trimStart, trimEnd]
  rw [textTokens, hkept]
  rfl

theorem sourceTokens_eq (source : List Char) (before : Option Tag) (t : List Char)
    (gs : List (Tag × List Char)) (hu : ∀ u ∈ t :: gs.map Prod.snd, Unmarked u)
    (hb : ∀ u ∈ (t :: gs.map Prod.snd).dropLast, u.getLast? ≠ some '{')
    (hg : ∀ g ∈ gs.map Prod.fst, g.Readable) :
    sourceTokens { line := 1 + lineFeeds (source ++ dropped before t)
                   trim := before.any (·.trims)
                   rest := t.drop (dropped before t).length ++ sourceOf gs } =
      .ok (tokensFrom source before t gs) := by
  -- Along the tags: of the source so far only its line feeds are carried on.
  induction gs generalizing source before t with
  | nil =>
    have ht := (hu t List.mem_cons_self).suffix (List.drop_suffix (dropped before t).length t)
    rw [sourceOf, List.flatMap_nil, List.append_nil,
      sourceTokens_of_none (splitMarker_of_unmarked ht)]
    simp only [Nat.add_assoc, lineFeeds_drop]
    rfl
  | cons p gs ih =>
    obtain ⟨g, u⟩ := p
    obtain ⟨hg, hgs⟩ := List.forall_mem_cons.1 hg
    obtain ⟨ht, hu⟩ := List.forall_mem_cons.1 hu
    obtain ⟨hlast, hb⟩ := List.forall_mem_cons.1 hb
    have hl : (t.drop (dropped before t).length).getLast? ≠ some '{' := by
      rw [List.getLast?_drop]
      split
      · exact (Option.some_ne_none _).symm
      · exact hlast
    have hafter : lineFeeds (source ++ t) + lineFeeds g.inner + lineFeeds (dropped (some g) u) =
        lineFeeds (source ++ t ++ g.source ++ dropped (some g) u) := by
      rw [lineFeeds_append _ (dropped (some g) u), lineFeeds_append _ g.source, g.lineFeeds_source]
    have hrest : sourceOf ((g, u) :: gs) = g.source ++ (u ++ sourceOf gs) := by
      rw [sourceOf, List.flatMap_cons, List.append_assoc]
      rfl
    have hothers := ih (source ++ t ++ g.source) (some g) u hu hb hgs
    rw [hrest, hg.sourceTokens (ht.suffix (List.drop_suffix _ _)) hl, afterTag_eq, Nat.add_assoc 1,
      lineFeeds_drop, Nat.add_assoc 1, Nat.add_assoc 1, hafter, g.placed_eq_tokens]
    simp only [Option.any_some] at hothers
    rw [hothers]
    rfl

/-- The source of a layout is read back: every tag with its words, on their lines, and between
them the texts as the tags beside them leave them. -/
theorem tokenize_source (l : Layout) (h : l.Sound)
    (hv : ∀ g ∈ l.tags, g.opensVerbatim = false) :
    tokenize (String.ofList l.source) = .ok l.tokens := by
  have hg : ∀ g ∈ l.tags, g.Readable := fun g hm => (h.tags g hm).readable (hv g hm)
  have hs := sourceTokens_eq [] none l.first l.others h.unmarked h.unbraced hg
  rw [tokenize, String.toList_ofList]
  exact hs

theorem tokenize_source_page :
    let l : Layout :=
      { first := "Hi \n".toList
        others := [
          (⟨.block, true, [⟨[' '], ['i', 'f'], .name "if"⟩, ⟨[' '], ['x'], .name "x"⟩], [' '],
              false⟩,
            "\r\n- \n".toList),
          (⟨.print, false, [⟨['\n'], ['\'', '\\', 'n', '"', '\''], .str "\n\""⟩,
            ⟨[' '], "b-and".toList, .operator "b-and"⟩, ⟨[' '], ['0', '7'], .number (.int 7)⟩],
            ['\t'], true⟩, " \x7b".toList)] }
    l.source = "Hi \n\x7b%- if x %\x7d\r\n- \n\x7b\x7b\n'\\n\"' b-and 07\t-\x7d\x7d \x7b".toList ∧
      tokenize (String.ofList l.source) = .ok
        [⟨.text "Hi", 1⟩, ⟨.tagStart .block, 2⟩, ⟨.name "if", 2⟩, ⟨.name "x", 2⟩,
          ⟨.tagEnd .block, 2⟩, ⟨.text "- \n", 3⟩, ⟨.tagStart .print, 4⟩, ⟨.str "\n\"", 5⟩,
          ⟨.operator "b-and", 5⟩, ⟨.number (.int 7), 5⟩, ⟨.tagEnd .print, 5⟩, ⟨.text "\x7b", 5⟩,
          ⟨.eof, 5⟩] := by
  refine ⟨by decide, Layout.tokenize_source _ ⟨by decide, by decide, ?_⟩ (by decide)⟩
  intro g hg
  simp only [tags, List.map_cons, List.map_nil, List.mem_cons, List.not_mem_nil, or_false] at hg
  rcases hg with rfl | rfl
  · refine ⟨?_, by decide, by decide, List.all_eq_true.1 rfl⟩
    intro w hw
    simp only [List.mem_cons, List.not_mem_nil, or_false] at hw
    rcases hw with rfl | rfl <;> exact ⟨.name (by decide), by decide, List.all_eq_true.1 rfl⟩
  · refine ⟨?_, by decide, by decide, List.all_eq_true.1 rfl⟩
    intro w hw
    simp only [List.mem_cons, List.not_mem_nil, or_false] at hw
    rcases hw with rfl | rfl | rfl
    · exact ⟨.str (.escape 'n' (.plain (by decide) (by decide) .nil)), by decide,
        List.all_eq_true.1 rfl⟩
    · exact ⟨.operator (by decide), by decide, List.all_eq_true.1 rfl⟩
    · exact ⟨.integer (by decide) (by decide), by decide, List.all_eq_true.1 rfl⟩

/-- A name of a verbatim section with a blank that a name may contain is no name but opens the
section, which nothing closes here. -/
theorem tokenize_source_blank :
    let g : Tag := ⟨.block, false, [⟨[' '], "raw\u00a0".toList, .name "raw\u00a0"⟩], [' '], false⟩
    let l : Layout := { first := [], others := [(g, [])] }
    l.Sound ∧ Word.kinds g.content ∉ [[.name "verbatim"], [.name "raw"]] ∧
      tokenize (String.ofList l.source) = .error (.unclosedVerbatim 1) := by
  refine ⟨⟨by decide, by decide, ?_⟩, by decide, ?_⟩
  · intro g hg
    rw [tags, List.map_singleton, List.mem_singleton] at hg
    subst hg
    refine ⟨?_, by decide, by decide, List.all_eq_true.1 rfl⟩
    intro w hw
    rw [List.mem_singleton] at hw
    subst hw
    exact ⟨.name (by decide), by decide, List.all_eq_true.1 rfl⟩
  · have hs : splitMarker "\x7b% raw\u00a0 %\x7d".toList =
        ([], some (.tag .block, " raw\u00a0 %\x7d".toList)) := by decide
    rw [tokenize, String.toList_ofList]
    exact sourceTokens_of_error hs (by decide)

end Layout
end Phrasebook
