import Phrasebook.Proofs.Template.ExprProductions
import Phrasebook.Proofs.Template.Prints
import Phrasebook.Proofs.Template.StatementSteps

namespace Phrasebook

def Balanced (ks : List TokenKind) : Prop := ∀ open_, nest open_ ks = some open_

namespace Balanced

variable {ks ls : List TokenKind}

theorem nil : Balanced [] := nest_nil

theorem append (hk : Balanced ks) (hl : Balanced ls) : Balanced (ks ++ ls) := by
  intro open_
  rw [nest_append, hk open_]
  exact hl open_

theorem cons {k : TokenKind} (h : ∀ open_, nestStep open_ k = some open_) (hl : Balanced ls) :
    Balanced (k :: ls) := by
  intro open_
  rw [nest_cons, h open_]
  exact hl open_

theorem bracketed {o c : Char} (ho : o = '(' ∨ o = '[' ∨ o = '{') (hc : openingBracket? c = some o)
    (hk : Balanced ks) : Balanced (.punctuation o :: (ks ++ [.punctuation c])) := by
  intro open_
  have hclose : ¬(c = '(' ∨ c = '[' ∨ c = '{') := by
    rintro (rfl | rfl | rfl) <;> cases hc
  have hopens : nestStep open_ (.punctuation o) = some (o :: open_) := if_pos ho
  have hcloses : nestStep (o :: open_) (.punctuation c) = some open_ := by
    rw [nestStep, if_neg hclose, hc]
    exact if_pos rfl
  rw [nest_cons, hopens, Option.bind_some, nest_append, hk, Option.bind_some, nest_cons, hcloses]
  rfl

end Balanced

namespace Expr

theorem balanced_group {ks : List TokenKind} (h : Balanced ks) : Balanced (group ks) :=
  h.bracketed (.inl rfl) rfl

theorem balanced_listed {o c : Char} {kss : List (List TokenKind)}
    (ho : o = '(' ∨ o = '[' ∨ o = '{') (hc : openingBracket? c = some o)
    (h : ∀ ks ∈ kss, Balanced ks) : Balanced (.punctuation o :: listed c kss) := by
  suffices hl : ∃ ks, listed c kss = ks ++ [.punctuation c] ∧ Balanced ks by
    obtain ⟨ks, hks, hb⟩ := hl
    rw [hks]
    exact hb.bracketed ho hc
  induction kss with
  | nil => exact ⟨[], rfl, .nil⟩
  | cons ks kss ih =>
    obtain ⟨hks, hkss⟩ := List.forall_mem_cons.1 h
    cases kss with
    | nil => exact ⟨ks, rfl, hks⟩
    | cons ls kss =>
      obtain ⟨ms, hms, hb⟩ := ih hkss
      refine ⟨ks ++ .punctuation ',' :: ms, ?_, hks.append (.cons (fun _ => rfl) hb)⟩
      rw [listed, hms, List.append_assoc, List.cons_append]
      rintro ⟨⟩

theorem balanced_itemTokens {es : List Expr} (h : ∀ e ∈ es, Balanced e.tokens) :
    ∀ ks ∈ itemTokens es, Balanced ks := by
  induction es with
  | nil => exact List.forall_mem_nil _
  | cons e es ih =>
    obtain ⟨he, hes⟩ := List.forall_mem_cons.1 h
    exact List.forall_mem_cons.2 ⟨balanced_group he, ih hes⟩

theorem balanced_argumentTokens {as : List (Option String × Expr)}
    (h : ∀ e ∈ as.map Prod.snd, Balanced e.tokens) :
    ∀ ks ∈ argumentTokens as, Balanced ks := by
  induction as with
  | nil => exact List.forall_mem_nil _
  | cons a as ih =>
    obtain ⟨ha, has⟩ := List.forall_mem_cons.1 h
    rw [argumentTokens_cons]
    refine List.forall_mem_cons.2 ⟨?_, ih has⟩
    obtain ⟨_ | name, e⟩ := a
    · exact balanced_group ha
    · exact .cons (fun _ => rfl) (.cons (fun _ => rfl) (balanced_group ha))

theorem balanced_optionalTokens {as : Option (List (Option String × Expr))}
    (h : ∀ e ∈ (as.getD []).map Prod.snd, Balanced e.tokens) : Balanced (optionalTokens as) := by
  cases as with
  | none => exact .nil
  | some as => exact balanced_listed (.inl rfl) rfl (balanced_argumentTokens h)

theorem balanced_entryTokens {es : List (Expr × Expr)}
    (h : ∀ e ∈ es.flatMap fun e => [e.1, e.2], Balanced e.tokens) :
    ∀ ks ∈ entryTokens es, Balanced ks := by
  induction es with
  | nil => exact List.forall_mem_nil _
  | cons e es ih =>
    obtain ⟨key, value⟩ := e
    rw [List.flatMap_cons, List.forall_mem_append, List.forall_mem_cons,
      List.forall_mem_singleton] at h
    obtain ⟨⟨hkey, hvalue⟩, hes⟩ := h
    refine List.forall_mem_cons.2 ⟨?_, ih hes⟩
    exact (balanced_group hkey).append (.cons (fun _ => rfl) (balanced_group hvalue))

theorem balanced_kinds {op : BinaryOperator} (h : op ∈ binaryOperators) : Balanced op.kinds := by
  rcases BinaryOperator.kinds_cases h with ⟨hk | hk, -⟩ | ⟨w, -, hk, -⟩ <;> rw [hk]
  · exact .cons (fun _ => rfl) .nil
  · exact .cons (fun _ => rfl) .nil
  · exact .cons (fun _ => rfl) (.cons (fun _ => rfl) .nil)

theorem balanced_testKinds (t : TestName) : Balanced t.kinds := by
  cases t with
  | word => exact .cons (fun _ => rfl) .nil
  | divisibleBy | sameAs => exact .cons (fun _ => rfl) (.cons (fun _ => rfl) .nil)

theorem balanced_tokens (e : Expr) : Balanced e.tokens := by
  induction e using partsInduction with
  | step e hp =>
    cases e with
    | constant value => cases value <;> exact .cons (fun _ => rfl) .nil
    | name x => exact .cons (fun _ => rfl) .nil
    | call f as =>
      exact .cons (fun _ => rfl) (balanced_listed (.inl rfl) rfl (balanced_argumentTokens hp))
    | array es => exact balanced_listed (.inr (.inl rfl)) rfl (balanced_itemTokens hp)
    | hash es => exact balanced_listed (.inr (.inr rfl)) rfl (balanced_entryTokens hp)
    | member o key as =>
      obtain ⟨ho, has⟩ := List.forall_mem_cons.1 hp
      have hkey : ∀ open_, nestStep open_ key.kind = some open_ := by
        cases key <;> exact fun _ => rfl
      rw [tokens_member]
      exact (balanced_group ho).append (.cons (fun _ => rfl) (.cons hkey
        (balanced_optionalTokens has)))
    | item o key =>
      have ho := hp o List.mem_cons_self
      have hkey := hp key (List.mem_cons_of_mem _ List.mem_cons_self)
      exact (balanced_group ho).append ((balanced_group hkey).bracketed (.inr (.inl rfl)) rfl)
    | filter s n as =>
      obtain ⟨hs, has⟩ := List.forall_mem_cons.1 hp
      rw [tokens_filter]
      refine (balanced_group hs).append (.cons (fun _ => rfl) (.cons (fun _ => rfl)
        (balanced_optionalTokens ?_)))
      cases as with
      | nil => exact List.forall_mem_nil _
      | cons a as => exact has
    | unary sign e =>
      have he := hp e (List.mem_singleton.2 rfl)
      exact .cons (fun _ => by cases sign <;> rfl) (balanced_group he)
    | binary c l r =>
      have hl := hp l List.mem_cons_self
      have hr := hp r (List.mem_cons_of_mem _ List.mem_cons_self)
      exact (balanced_group hl).append ((balanced_kinds c.known).append (balanced_group hr))
    | test t s as =>
      obtain ⟨hs, has⟩ := List.forall_mem_cons.1 hp
      rw [tokens_test]
      exact (balanced_group hs).append (.cons (fun _ => rfl) ((balanced_testKinds t).append
        (balanced_optionalTokens has)))
    | choice c y n =>
      have hc := hp c List.mem_cons_self
      have hy := hp y (List.mem_cons_of_mem _ List.mem_cons_self)
      have hn := hp n (List.mem_cons_of_mem _ (List.mem_cons_of_mem _ List.mem_cons_self))
      exact (balanced_group hc).append (.cons (fun _ => rfl) ((balanced_group hy).append
        (.cons (fun _ => rfl) (balanced_group hn))))
    | guarded c y =>
      have hc := hp c List.mem_cons_self
      have hy := hp y (List.mem_cons_of_mem _ List.mem_cons_self)
      exact (balanced_group hc).append (.cons (fun _ => rfl) (balanced_group hy))
    | fallback c n =>
      have hc := hp c List.mem_cons_self
      have hn := hp n (List.mem_cons_of_mem _ List.mem_cons_self)
      exact (balanced_group hc).append (.cons (fun _ => rfl) (.cons (fun _ => rfl)
        (balanced_group hn)))

/-- The text of an expression, with a space between any two tokens. -/
def print (e : Expr) : String := String.ofList ([' '].intercalate (e.tokens.map TokenKind.spelling))

def spread (ks : List TokenKind) : Spaced := ks.map fun k => ([' '], k)

theorem text_spread {ks : List TokenKind} (h : ks ≠ []) :
    Spaced.text (spread ks) = ' ' :: [' '].intercalate (ks.map TokenKind.spelling) := by
  induction ks with
  | nil => exact absurd rfl h
  | cons k ks ih =>
    cases ks with
    | nil => simp [spread, Spaced.text, List.intercalate]
    | cons l ks =>
      have := ih (List.cons_ne_nil _ _)
      rw [spread, List.map_cons, Spaced.text_cons, ← spread, this]
      simp

theorem kinds_spread (ks : List TokenKind) : Spaced.kinds (spread ks) = ks := by
  rw [Spaced.kinds, spread, List.map_map]
  exact List.map_id ks

theorem apart_spread {ks : List TokenKind} (h : ∀ k ∈ ks, k.isSpellable = true)
    (rest : List Char) : Spaced.Apart (spread ks) (' ' :: rest) := by
  induction ks with
  | nil => trivial
  | cons k ks ih =>
    obtain ⟨hk, hks⟩ := List.forall_mem_cons.1 h
    refine ⟨isBlank_of_mem_space, hk, ?_, ih hks⟩
    cases ks with
    | nil => exact k.endsAt_blank (by decide) rest
    | cons l ks => exact k.endsAt_blank (by decide) _

end Expr

namespace Passage

variable {ks : List TokenKind}

def ofKinds (ks : List TokenKind) : Passage := ⟨[], Expr.spread ks⟩

theorem sound_ofKinds (hs : ∀ k ∈ ks, k.isSpellable = true) (hb : Balanced ks) :
    (ofKinds ks).Sound where
  filler := List.not_mem_nil
  undashed := by
    cases ks with
    | nil => rintro c ⟨⟩
    | cons k ks =>
      rintro c ⟨⟩
      decide
  apart := Expr.apart_spread hs
  nested := by
    rw [ofKinds, Expr.kinds_spread]
    exact hb []

theorem exists_tokenize_ofKinds (hs : ∀ k ∈ ks, k.isSpellable = true) (hb : Balanced ks) :
    ∃ ts, Opens ts (.tagStart .print :: (ks ++ [.tagEnd .print, .eof])) [] ∧
      tokenize (String.ofList (ofKinds ks).text) = .ok ts := by
  obtain ⟨ts, hk, ht⟩ := exists_tokenize (List.forall_mem_singleton.2 (sound_ofKinds hs hb))
  rw [List.flatMap_singleton] at hk ht
  refine ⟨ts, ⟨ts, ?_, (List.append_nil ts).symm⟩, ht⟩
  rw [hk, kinds, ofKinds, Expr.kinds_spread]
  simp

theorem yields_parseTemplate_ofKinds {depth : Nat} {n : Node}
    (hs : ∀ k ∈ ks, k.isSpellable = true) (hb : Balanced ks) (hd : 1 ≤ depth)
    (h : ∀ us rest, Opens us ks rest → ExprEnds rest →
      Yields depth (wholeExpression 1 us) (n, rest)) :
    Yields depth (parseTemplate (String.ofList (ofKinds ks).text))
      (.module (.body [.print n])) := by
  obtain ⟨ts, ho, ht⟩ := exists_tokenize_ofKinds hs hb
  obtain ⟨line, us, rfl, hu⟩ := Opens.cons_iff.1 ho
  obtain ⟨vs, hv, hw⟩ := Opens.append_iff.1 hu
  obtain ⟨line₁, xs, rfl, hx⟩ := Opens.cons_iff.1 hw
  obtain ⟨line₂, ys, rfl, hy⟩ := Opens.cons_iff.1 hx
  obtain rfl := Opens.nil_iff.1 hy
  rw [parseTemplate, ht]
  have hprint := h us _ hv (exprEnds_tagEnd _ _ _)
  exact yields_parseTokens (yields_statements_print hprint yields_statements_eof) hd

end Passage

namespace Expr

def source (e : Expr) : String := "\x7b\x7b " ++ e.print ++ " \x7d\x7d"

theorem source_eq (e : Expr) : e.source = String.ofList (Passage.ofKinds e.tokens).text := by
  have htext : Spaced.text (spread e.tokens) = ' ' :: e.print.toList := by
    obtain ⟨k, ks, hk, -⟩ := e.exists_tokens_eq_cons
    rw [text_spread (by rw [hk]; exact List.cons_ne_nil _ _), print, String.toList_ofList]
  rw [← String.toList_inj, String.toList_ofList, Passage.text, Passage.ofKinds, htext]
  simp [source, TagKind.opening, TagKind.closing]

theorem exists_tokenize_source {e : Expr} (h : ∀ k ∈ e.tokens, k.isSpellable = true) :
    ∃ ts, Opens ts (.tagStart .print :: (e.tokens ++ [.tagEnd .print, .eof])) [] ∧
      tokenize e.source = .ok ts := by
  rw [source_eq]
  exact Passage.exists_tokenize_ofKinds h e.balanced_tokens

/-- Printing an expression and parsing the text gives its tree, or the nesting error, which no
expression of up to forty levels gives. -/
theorem parseTemplate_source (e : Expr) (h : ∀ k ∈ e.tokens, k.isSpellable = true) :
    (parseTemplate e.source = .ok (.module (.body [.print e.node])) ∨
      ∃ line, parseTemplate e.source = .error (.tooDeep line)) ∧
    (e.node.height ≤ 40 → parseTemplate e.source = .ok (.module (.body [.print e.node]))) := by
  suffices hy : Yields (1 + 3 * e.node.height) (parseTemplate e.source)
      (.module (.body [.print e.node])) by
    refine ⟨hy.ok_or_tooDeep, fun hle => hy.ok_of_le ?_⟩
    rw [maxNesting]
    omega
  obtain ⟨ts, ho, ht⟩ := exists_tokenize_source h
  obtain ⟨line, us, rfl, hu⟩ := Opens.cons_iff.1 ho
  obtain ⟨vs, hv, hw⟩ := Opens.append_iff.1 hu
  obtain ⟨line₁, xs, rfl, hx⟩ := Opens.cons_iff.1 hw
  obtain ⟨line₂, ys, rfl, hy⟩ := Opens.cons_iff.1 hx
  obtain rfl := Opens.nil_iff.1 hy
  rw [parseTemplate, ht]
  have hprint := yields_wholeExpression hv (exprEnds_tagEnd _ _ _)
    (Nat.le_refl (1 + 3 * e.node.height))
  exact yields_parseTokens (yields_statements_print hprint yields_statements_eof) (by omega)

theorem parseTemplate_source_plural :
    let e : Expr := .test .divisibleBy
      (.filter (.name ⟨"count", by decide⟩) "default" [(some "of", .constant (.int 1))])
      (some [(none, .constant (.int 3))])
    e.source =
        "\x7b\x7b ( ( count ) | default ( of = ( 1 ) ) ) is divisible by ( ( 3 ) ) \x7d\x7d" ∧
      parseTemplate e.source = .ok (.module (.body [.print e.node])) :=
  ⟨by decide, (Expr.parseTemplate_source _ (by decide)).2 (by decide)⟩

end Expr
end Phrasebook
