import Phrasebook.Proofs.Template.StmtGrammar

namespace Phrasebook

def TokenKind.isWord : TokenKind → Bool
  | name _ | number _ | str _ | operator _ | punctuation _ => true
  | text _ | tagStart _ | tagEnd _ | eof => false

/-- The tokens from some place on, which is outside of all tags or inside one of a kind. -/
inductive Grouped : Option TagKind → List Token → Prop
  | eof {line : Nat} : Grouped none [⟨.eof, line⟩]
  | text {data : String} {line : Nat} {ts : List Token} (hd : data ≠ "") (h : Grouped none ts) :
      Grouped none (⟨.text data, line⟩ :: ts)
  | opening {kind : TagKind} {line : Nat} {ts : List Token} (h : Grouped (some kind) ts) :
      Grouped none (⟨.tagStart kind, line⟩ :: ts)
  | word {kind : TagKind} {t : Token} {ts : List Token} (ht : t.kind.isWord = true)
      (h : Grouped (some kind) ts) : Grouped (some kind) (t :: ts)
  | closing {kind : TagKind} {line : Nat} {ts : List Token} (h : Grouped none ts) :
      Grouped (some kind) (⟨.tagEnd kind, line⟩ :: ts)

theorem lexeme_isWord {c : Char} {cs : List Char} {l : Lexeme} (h : lexeme c cs = .ok l) :
    l.kind.isWord = true := by
  rw [lexeme] at h
  split at h
  · dsimp only at h
    split at h
    · cases h
      rfl
    · cases h
  · split at h
    · split at h
      · cases h
        rfl
      · cases h
    · split at h
      · cases h
        rfl
      · split at h
        · cases h
          rfl
        · split at h
          · cases h
            rfl
          · split at h
            · cases h
              rfl
            · cases h

theorem Grouped.tagTokens_append {kind : TagKind} {start line : Nat} {open_ : Brackets}
    {cs : List Char} {r : List Token × Resume} {us : List Token}
    (h : tagTokens kind start line open_ cs = .ok r) (hu : Grouped none us) :
    Grouped (some kind) (r.1 ++ us) := by
  fun_induction tagTokens kind start line open_ cs generalizing r with
  | case1 | case3 | case4 | case5 => cases h
  | case2 =>
    cases h
    exact .closing hu
  | case6 _ _ _ _ _ _ _ _ _ hl =>
    rename_i hr ih
    cases h
    exact .word (lexeme_isWord hl) (ih hr)

theorem textToken_cases (trimmedStart trimmedEnd : Bool) (line : Nat) (cs : List Char) :
    textToken trimmedStart trimmedEnd line cs = [] ∨
      ∃ data, data ≠ "" ∧ textToken trimmedStart trimmedEnd line cs = [⟨.text data, line⟩] := by
  have h (kept : List Char) :
      (if kept.isEmpty then [] else [⟨.text (String.ofList kept), line⟩]) = ([] : List Token) ∨
        ∃ data, data ≠ "" ∧
          (if kept.isEmpty then [] else [⟨.text (String.ofList kept), line⟩]) =
            ([⟨.text data, line⟩] : List Token) := by
    split
    · exact .inl rfl
    · next he =>
      refine .inr ⟨String.ofList kept, ?_, rfl⟩
      intro hs
      exact he (List.isEmpty_iff.2 (String.ofList_eq_empty_iff.1 hs))
  exact h _

theorem markupTokens_cases {line : Nat} {marker : Marker} {rest : List Char}
    {r : List Token × Resume} (h : markupTokens line marker rest = .ok r) :
    commentTokens line rest = .ok r ∨
    (∃ trim inner, verbatimStart? rest = some (trim, inner) ∧
      verbatimTokens { line := line + (lineFeeds rest - lineFeeds inner), trim, rest := inner } =
        .ok r) ∨
    ∃ kind q, tagTokens kind line line [] (takeDash rest).2 = .ok q ∧
      r = (⟨.tagStart kind, line⟩ :: q.1, q.2) := by
  rw [markupTokens.eq_def] at h
  split at h
  · exact .inl h
  · next kind =>
    split at h
    · next trim inner hv =>
      split at hv
      · exact .inr (.inl ⟨trim, inner, hv, h⟩)
      · cases hv
    · cases ht : tagTokens kind line line [] (takeDash rest).2 with
      | error e =>
        rw [ht] at h
        cases h
      | ok q =>
        rw [ht] at h
        cases h
        exact .inr (.inr ⟨kind, q, ht, rfl⟩)

theorem commentTokens_fst {line : Nat} {rest : List Char} {r : List Token × Resume}
    (h : commentTokens line rest = .ok r) : r.1 = [] := by
  rw [commentTokens] at h
  split at h
  · cases h
  · cases h
    rfl

theorem verbatimTokens_fst {start : Resume} {r : List Token × Resume}
    (h : verbatimTokens start = .ok r) :
    ∃ trimmedStart trimmedEnd line cs, r.1 = textToken trimmedStart trimmedEnd line cs := by
  rw [verbatimTokens] at h
  dsimp only at h
  split at h
  · cases h
  · cases h
    exact ⟨_, _, _, _, rfl⟩

theorem Grouped.textToken_append (trimmedStart trimmedEnd : Bool) (line : Nat) (cs : List Char)
    {us : List Token} (hu : Grouped none us) :
    Grouped none (textToken trimmedStart trimmedEnd line cs ++ us) := by
  rcases textToken_cases trimmedStart trimmedEnd line cs with h | ⟨data, hd, h⟩
  · rwa [h]
  · rw [h]
    exact .text hd hu

theorem Grouped.markupTokens_append {line : Nat} {marker : Marker} {rest : List Char}
    {r : List Token × Resume} {us : List Token} (h : markupTokens line marker rest = .ok r)
    (hu : Grouped none us) : Grouped none (r.1 ++ us) := by
  rcases markupTokens_cases h with h | ⟨trim, inner, -, h⟩ | ⟨kind, q, ht, rfl⟩
  · rwa [commentTokens_fst h]
  · obtain ⟨_, _, _, _, hr⟩ := verbatimTokens_fst h
    rw [hr]
    exact textToken_append _ _ _ _ hu
  · exact .opening (tagTokens_append ht hu)

theorem Grouped.of_sourceTokens {r : Resume} {ts : List Token} (h : sourceTokens r = .ok ts) :
    Grouped none ts := by
  fun_induction sourceTokens r generalizing ts with
  | case1 =>
    cases h
    exact textToken_append _ _ _ _ .eof
  | case2 | case3 => cases h
  | case4 _ _ _ _ _ _ _ _ ht =>
    rename_i ho ih
    cases h
    rw [List.append_assoc]
    exact textToken_append _ _ _ _ (markupTokens_append ht (ih ho))

/-- The tokens of a source come in groups and end in one end token. -/
theorem Grouped.of_tokenize {source : String} {ts : List Token} (h : tokenize source = .ok ts) :
    Grouped none ts :=
  of_sourceTokens h

def TokenKind.isTerm : TokenKind → Bool
  | name _ | number _ | str _ | operator _ => true
  | _ => false

def TermsTo (ts us : List Token) : Prop :=
  ∃ ws, ws ≠ [] ∧ (∀ w ∈ ws, w.kind.isTerm = true) ∧ ts = ws ++ us

namespace TermsTo

variable {ts us : List Token}

theorem single {t : Token} (ht : t.kind.isTerm = true) : TermsTo (t :: ts) ts :=
  ⟨[t], List.cons_ne_nil t [], List.forall_mem_singleton.2 ht, rfl⟩

theorem cons {t : Token} (ht : t.kind.isTerm = true) (h : TermsTo ts us) :
    TermsTo (t :: ts) us := by
  obtain ⟨ws, -, hw, rfl⟩ := h
  exact ⟨t :: ws, List.cons_ne_nil t ws, List.forall_mem_cons.2 ⟨ht, hw⟩, rfl⟩

theorem length_lt (h : TermsTo ts us) : us.length < ts.length := by
  obtain ⟨ws, hne, -, rfl⟩ := h
  have := List.length_pos_iff.2 hne
  rw [List.length_append]
  omega

theorem next? {op : BinaryOperator} (h : BinaryOperator.next? ts = some (op, us)) :
    TermsTo ts us := by
  rw [BinaryOperator.next?.eq_def] at h
  split at h
  · obtain ⟨_, _, h⟩ := Option.map_eq_some_iff.1 h
    cases h
    exact single rfl
  · split at h
    · obtain ⟨_, _, h⟩ := Option.map_eq_some_iff.1 h
      cases h
      exact cons rfl (single rfl)
    · obtain ⟨_, _, h⟩ := Option.map_eq_some_iff.1 h
      cases h
      exact single rfl
  · obtain ⟨_, _, h⟩ := Option.map_eq_some_iff.1 h
    cases h
    exact single rfl
  · cases h

theorem testName {name : String} (h : Phrasebook.testName ts = .ok (name, us)) :
    TermsTo ts us := by
  obtain ⟨⟨first, vs⟩, hf, hn⟩ := ok_of_bind h
  obtain ⟨line, rfl⟩ := exists_cons_of_expectName hf
  dsimp only at hn
  split at hn
  · split at hn
    · cases hn
      exact cons rfl (single rfl)
    · cases hn
      exact single rfl
  · cases hn
    exact single rfl

theorem attributeKey {key : Node} (h : Phrasebook.attributeKey ts = .ok (key, us)) :
    TermsTo ts us := by
  rw [Phrasebook.attributeKey.eq_def] at h
  split at h
  · cases h
    exact single rfl
  · cases h
    exact single rfl
  · cases h

end TermsTo

def WordsTo (ts us : List Token) : Prop :=
  ∃ ws, (∀ w ∈ ws, w.kind.isWord = true) ∧ ts = ws ++ us

namespace WordsTo

variable {ts us vs : List Token}

theorem refl (ts : List Token) : WordsTo ts ts := ⟨[], by simp, rfl⟩

theorem trans (h : WordsTo ts us) (h' : WordsTo us vs) : WordsTo ts vs := by
  obtain ⟨ws, hw, rfl⟩ := h
  obtain ⟨xs, hx, rfl⟩ := h'
  refine ⟨ws ++ xs, ?_, (List.append_assoc ..).symm⟩
  intro w hm
  exact (List.mem_append.1 hm).elim (hw w) (hx w)

theorem cons {t : Token} (ht : t.kind.isWord = true) (h : WordsTo ts us) :
    WordsTo (t :: ts) us := by
  obtain ⟨ws, hw, rfl⟩ := h
  exact ⟨t :: ws, List.forall_mem_cons.2 ⟨ht, hw⟩, rfl⟩

theorem single {t : Token} (ht : t.kind.isWord = true) : WordsTo (t :: ts) ts := cons ht (refl ts)

theorem snoc {t : Token} (h : WordsTo ts (t :: us)) (ht : t.kind.isWord = true) : WordsTo ts us :=
  h.trans (single ht)

theorem length_le (h : WordsTo ts us) : us.length ≤ ts.length := by
  obtain ⟨ws, -, rfl⟩ := h
  rw [List.length_append]
  omega

theorem grouped {kind : TagKind} (h : WordsTo ts us) (hg : Grouped (some kind) ts) :
    Grouped (some kind) us := by
  obtain ⟨ws, hw, rfl⟩ := h
  induction ws with
  | nil => exact hg
  | cons w ws ih =>
    obtain ⟨hw, hws⟩ := List.forall_mem_cons.1 hw
    cases hg with
    | word _ hg => exact ih hws hg
    | closing => cases hw

theorem expectName {name : String} (h : Phrasebook.expectName ts = .ok (name, us)) :
    WordsTo ts us := by
  obtain ⟨line, rfl⟩ := exists_cons_of_expectName h
  exact single rfl

theorem loopTargets {targets : LoopTargets} (h : Phrasebook.loopTargets ts = .ok (targets, us)) :
    WordsTo ts us := by
  obtain ⟨⟨first, vs⟩, hf, h⟩ := ok_of_bind h
  have hf := expectName hf
  dsimp only at h
  split at h
  · next hc =>
    obtain ⟨line, ws, rfl⟩ := exists_cons_of_atMark hc
    obtain ⟨⟨second, xs⟩, hs, h⟩ := ok_of_bind h
    obtain ⟨_, ⟨⟩, h⟩ := ok_of_bind h
    have hs := (hf.snoc rfl).trans (expectName hs)
    dsimp only at h
    split at h
    · next hi =>
      obtain ⟨line', ys, rfl⟩ := exists_cons_of_atName hi
      cases h
      exact hs.snoc rfl
    · cases h
  · obtain ⟨_, ⟨⟩, h⟩ := ok_of_bind h
    dsimp only at h
    split at h
    · next hi =>
      obtain ⟨line', ys, rfl⟩ := exists_cons_of_atName hi
      cases h
      exact hf.snoc rfl
    · cases h

end WordsTo

theorem TokenKind.isWord_of_isTerm {k : TokenKind} (h : k.isTerm = true) : k.isWord = true := by
  cases k <;> first | rfl | cases h

theorem TermsTo.wordsTo {ts us : List Token} (h : TermsTo ts us) : WordsTo ts us := by
  obtain ⟨ws, -, hw, rfl⟩ := h
  exact ⟨ws, fun w hm => TokenKind.isWord_of_isTerm (hw w hm), rfl⟩

theorem Sign.isWord_kind (s : Sign) : s.kind.isWord = true := by
  cases s <;> rfl

theorem ExprPart.Reads.wordsTo {p : ExprPart} {ts us : List Token} (h : p.Reads ts us) :
    WordsTo ts us := by
  induction h with
  | bounded _ _ _ _ ihf iho => exact ihf.trans iho
  | whole _ _ _ _ ihf iho ihc => exact ihf.trans (iho.trans ihc)
  | sign s _ ih => exact .cons s.isWord_kind ih
  | chain _ _ _ ihp ihl => exact ihp.trans ihl
  | operationsEnd | conditionalsEnd | linksEnd | noArguments | tagArgumentsEnd | optionsEnd
  | noCondition => exact .refl _
  | test hn _ _ _ ht _ _ iha iho | negatedTest hn _ _ _ ht _ _ iha iho =>
    exact (TermsTo.next? hn).wordsTo.trans ((TermsTo.testName ht).wordsTo.trans (iha.trans iho))
  | binary hn _ _ _ _ _ ihr iho => exact (TermsTo.next? hn).wordsTo.trans (ihr.trans iho)
  | fallback _ _ _ ihn ihc => exact .cons rfl (.cons rfl (ihn.trans ihc))
  | choice _ _ _ _ _ ihy ihn ihc => exact .cons rfl ((ihy.snoc rfl).trans (ihn.trans ihc))
  | guarded _ _ _ _ _ ihy ihc => exact .cons rfl (ihy.trans ihc)
  | word | number | str | strKey | nameKey | numberKey | argumentsEnd | itemsEnd | entriesEnd =>
    exact .single rfl
  | call _ _ ih | named _ ih => exact .cons rfl (.cons rfl ih)
  | array _ ih | hash _ ih | someArguments _ ih | condition _ ih => exact .cons rfl ih
  | group _ ih | groupKey _ ih => exact .cons rfl (ih.snoc rfl)
  | member _ hk _ _ iha ihc =>
    exact .cons rfl ((TermsTo.attributeKey hk).wordsTo.trans (iha.trans ihc))
  | item _ _ _ ihk ihc => exact .cons rfl ((ihk.snoc rfl).trans ihc)
  | filter _ _ _ iha ihc => exact .cons rfl (.cons rfl (iha.trans ihc))
  | arguments _ _ iha iho | items _ _ iha iho | values _ _ iha iho =>
    exact (iha.snoc rfl).trans iho
  | lastArgument _ ih | lastItem _ ih | lastComma _ _ ih => exact ih.snoc rfl
  | unnamed _ ih | lastValue _ _ ih => exact ih
  | entries _ _ _ ihk ihv iho => exact (ihk.snoc rfl).trans ((ihv.snoc rfl).trans iho)
  | lastEntry _ _ ihk ihv => exact (ihk.snoc rfl).trans (ihv.snoc rfl)
  | tagSeparator _ _ ih => exact .cons rfl ih
  | tagArgument _ _ ihe iho => exact ihe.trans iho
  | vars _ _ ihe iho | domain _ _ ihe iho | locale _ _ ihe iho => exact .cons rfl (ihe.trans iho)

theorem WordsTo.closeTag {ts us : List Token} (h : Phrasebook.closeTag ts = .ok us)
    (hg : Grouped (some .block) ts) : ∃ line, WordsTo ts (⟨.tagEnd .block, line⟩ :: us) := by
  fun_induction Phrasebook.closeTag ts with
  | case1 | case3 => cases h
  | case2 line ts =>
    cases h
    exact ⟨line, .refl _⟩
  | case4 t ts he _ ih =>
    cases hg with
    | word ht hg =>
      obtain ⟨line, hw⟩ := ih h hg
      exact ⟨line, .cons ht hw⟩
    | closing => exact absurd rfl (he _)

end Phrasebook
