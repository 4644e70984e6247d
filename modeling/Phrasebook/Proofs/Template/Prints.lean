import Phrasebook.Proofs.Template.Layout

namespace Phrasebook

/-- A run of text without braces, and the content of the print behind it. -/
structure Passage where
  filler : List Char
  content : Spaced

namespace Passage

def text (p : Passage) : List Char :=
  p.filler ++ (TagKind.print.opening.toList ++
    (Spaced.text p.content ++ ([' '] ++ TagKind.print.closing.toList)))

def kinds (p : Passage) : List TokenKind :=
  (if p.filler.isEmpty then [] else [.text (String.ofList p.filler)]) ++
    (.tagStart .print :: (Spaced.kinds p.content ++ [.tagEnd .print]))

/-- The print begins and ends where it seems to, and its content is read back. -/
structure Sound (p : Passage) : Prop where
  filler : '{' ∉ p.filler
  undashed : ∀ c, (Spaced.text p.content).head? = some c → c ≠ '-'
  apart : ∀ rest, Spaced.Apart p.content (' ' :: rest)
  nested : nest [] (Spaced.kinds p.content) = some []

theorem map_kind_textToken (line : Nat) (cs : List Char) :
    (textToken false false line cs).map Token.kind =
      if cs.isEmpty then [] else [.text (String.ofList cs)] := by
  cases cs <;> rfl

def tag (p : Passage) : Tag := ⟨.print, false, p.content.words, [' '], false⟩

theorem inner_tag (p : Passage) : p.tag.inner = Spaced.text p.content ++ [' '] := by
  rw [Tag.inner, tag, Spaced.source_words]

theorem text_eq (p : Passage) : p.text = p.filler ++ p.tag.source := by
  rw [text, Tag.source, inner_tag, List.append_assoc]
  simp [tag, Tag.opening, Tag.dash, Spaced.closing]

theorem Sound.readable {p : Passage} (h : p.Sound) : p.tag.Readable where
  apart rest := (h.apart _).words
  nested := by
    rw [tag, Spaced.kinds_words]
    exact h.nested
  space := isBlank_of_mem_space
  undashed := by
    intro _ c hc
    rw [inner_tag] at hc
    cases ht : Spaced.text p.content with
    | nil =>
      rw [ht] at hc
      cases hc
      decide
    | cons d cs =>
      rw [ht] at hc
      exact h.undashed c (by rw [ht]; exact hc)
  noWord hk := by cases hk

theorem Sound.exists_tokens {p : Passage} (h : p.Sound) (line : Nat) (rest : List Char) :
    ∃ tokens line', tokens.map Token.kind = p.kinds ∧
      sourceTokens ⟨line, false, p.text ++ rest⟩ =
        (sourceTokens ⟨line', false, rest⟩).map (tokens ++ ·) := by
  have hl : p.filler.getLast? ≠ some '{' := fun he => h.filler (List.mem_of_getLast? he)
  rw [text_eq, List.append_assoc, h.readable.sourceTokens (.of_not_mem h.filler) hl]
  refine ⟨_, _, ?_, rfl⟩
  rw [List.map_append, tag, map_kind_textToken, Tag.placed, List.map_cons, List.map_append,
    Spaced.placed_words, Spaced.kinds_placed]
  rfl

theorem exists_tokenize {ps : List Passage} (h : ∀ p ∈ ps, p.Sound) :
    ∃ tokens, tokens.map Token.kind = ps.flatMap kinds ++ [.eof] ∧
      tokenize (String.ofList (ps.flatMap text)) = .ok tokens := by
  rw [tokenize, String.toList_ofList]
  generalize 1 = line
  induction ps generalizing line with
  | nil =>
    refine ⟨_, ?_, sourceTokens_of_none (t := []) rfl⟩
    rfl
  | cons p ps ih =>
    obtain ⟨hp, hps⟩ := List.forall_mem_cons.1 h
    obtain ⟨tokens, line', hk, ht⟩ := hp.exists_tokens line (ps.flatMap text)
    obtain ⟨others, hko, hto⟩ := ih hps line'
    refine ⟨tokens ++ others, ?_, ?_⟩
    · rw [List.map_append, hk, hko, List.flatMap_cons, List.append_assoc]
    · rw [List.flatMap_cons, ht, hto]
      rfl

end Passage
end Phrasebook
