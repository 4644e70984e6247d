import Phrasebook.Proofs.Template.TagGroups
import Phrasebook.Proofs.Template.Tags

/-!
The extent of expressions. The tokens of an expression are nested in their brackets and hold no
comma outside of them, so that the items of a list are told apart by their tokens alone. Which
expressions are constants is seen from their tokens too.
-/
namespace Phrasebook

/-- The open brackets after a token of an item. A comma stands only inside of brackets. -/
def itemStep : List Char → TokenKind → Option (List Char)
  | [], .punctuation ',' => none
  | open_, k => nestStep open_ k

def itemNest (open_ : List Char) (ks : List TokenKind) : Option (List Char) :=
  ks.foldlM itemStep open_

section Nesting

variable {open_ st : List Char} {k : TokenKind} {ks : List TokenKind}

theorem itemNest_cons (open_ : List Char) (k : TokenKind) (ks : List TokenKind) :
    itemNest open_ (k :: ks) = (itemStep open_ k).bind (itemNest · ks) :=
  List.foldlM_cons

theorem itemNest_append (open_ : List Char) (ks ls : List TokenKind) :
    itemNest open_ (ks ++ ls) = (itemNest open_ ks).bind (itemNest · ls) :=
  List.foldlM_append

theorem nestStep_append (h : nestStep open_ k = some st) (base : List Char) :
    nestStep (open_ ++ base) k = some (st ++ base) := by
  cases k with
  | punctuation c =>
    rw [nestStep] at h ⊢
    split at h
    · next hc =>
      cases h
      rw [if_pos hc]
      rfl
    · next hc =>
      rw [if_neg hc]
      cases hb : openingBracket? c with
      | none =>
        simp only [hb] at h ⊢
        cases h
        rfl
      | some o =>
        simp only [hb, Option.ite_none_right_eq_some, Option.some.injEq] at h ⊢
        cases open_ with
        | nil => cases h.1
        | cons b open_ => exact ⟨h.1, congrArg (· ++ base) h.2⟩
  | _ =>
    cases h
    rfl

theorem itemStep_append (h : itemStep open_ k = some st) (base : List Char) :
    itemStep (open_ ++ base) k = some (st ++ base) := by
  have hn : nestStep open_ k = some st := by
    rw [itemStep.eq_def] at h
    split at h
    · cases h
    · exact h
  rw [itemStep.eq_def]
  split
  · next ho =>
    rw [(List.append_eq_nil_iff.1 ho).1] at h
    cases h
  · exact nestStep_append hn base

theorem itemNest_append_base (h : itemNest open_ ks = some st) (base : List Char) :
    itemNest (open_ ++ base) ks = some (st ++ base) := by
  induction ks generalizing open_ with
  | nil =>
    cases h
    rfl
  | cons k ks ih =>
    rw [itemNest_cons] at h ⊢
    obtain ⟨st', hs, h⟩ := Option.bind_eq_some_iff.1 h
    rw [itemStep_append hs]
    exact ih h

theorem eq_of_itemNest {a b xs ys : List Token} {s t : Token}
    (ha : itemNest [] (a.map Token.kind) = some []) (hs : itemStep [] s.kind = none)
    (hb : itemNest [] (b.map Token.kind) = some []) (ht : itemStep [] t.kind = none)
    (h : a ++ s :: xs = b ++ t :: ys) : a = b ∧ s = t ∧ xs = ys := by
  rcases List.append_eq_append_iff.1 h with ⟨zs, rfl, hz⟩ | ⟨zs, rfl, hz⟩
  · cases zs with
    | nil =>
      obtain ⟨rfl, rfl⟩ := List.cons.inj hz
      simp
    | cons z zs =>
      obtain ⟨rfl, -⟩ := List.cons.inj hz
      rw [List.map_append, itemNest_append, ha, Option.bind_some, List.map_cons, itemNest_cons,
        hs] at hb
      cases hb
  · cases zs with
    | nil =>
      obtain ⟨rfl, rfl⟩ := List.cons.inj hz
      simp
    | cons z zs =>
      obtain ⟨rfl, -⟩ := List.cons.inj hz
      rw [List.map_append, itemNest_append, hb, Option.bind_some, List.map_cons, itemNest_cons,
        ht] at ha
      cases ha

end Nesting

def Spans (open_ : List Char) (ts us : List Token) : Prop :=
  ∃ ws, ts = ws ++ us ∧ itemNest open_ (ws.map Token.kind) = some open_

namespace Spans

variable {open_ : List Char} {t : Token} {ts us vs : List Token}

theorem refl (ts : List Token) : Spans open_ ts ts := ⟨[], rfl, rfl⟩

theorem trans (h : Spans open_ ts us) (h' : Spans open_ us vs) : Spans open_ ts vs := by
  obtain ⟨ws, rfl, hw⟩ := h
  obtain ⟨xs, rfl, hx⟩ := h'
  refine ⟨ws ++ xs, (List.append_assoc ..).symm, ?_⟩
  rw [List.map_append, itemNest_append, hw]
  exact hx

theorem cons (ht : itemStep open_ t.kind = some open_) (h : Spans open_ ts us) :
    Spans open_ (t :: ts) us := by
  obtain ⟨ws, rfl, hw⟩ := h
  refine ⟨t :: ws, rfl, ?_⟩
  rw [List.map_cons, itemNest_cons, ht]
  exact hw

theorem single (ht : itemStep open_ t.kind = some open_) : Spans open_ (t :: ts) ts :=
  cons ht (refl ts)

theorem snoc (h : Spans open_ ts (t :: us)) (ht : itemStep open_ t.kind = some open_) :
    Spans open_ ts us :=
  h.trans (single ht)

theorem inside (h : Spans [] ts us) (open_ : List Char) : Spans open_ ts us := by
  obtain ⟨ws, rfl, hw⟩ := h
  exact ⟨ws, rfl, itemNest_append_base hw open_⟩

theorem enclosed {c : Char} {s : Token} (ht : itemStep [] t.kind = some [c])
    (h : Spans [c] ts (s :: us)) (hs : itemStep [c] s.kind = some []) : Spans [] (t :: ts) us := by
  obtain ⟨ws, rfl, hw⟩ := h
  refine ⟨t :: (ws ++ [s]), by simp, ?_⟩
  rw [List.map_cons, itemNest_cons, ht, Option.bind_some, List.map_append, itemNest_append, hw,
    Option.bind_some, List.map_singleton, itemNest_cons, hs]
  rfl

theorem length_lt (h : Spans open_ ts (t :: us)) : us.length < ts.length := by
  obtain ⟨ws, rfl, -⟩ := h
  rw [List.length_append, List.length_cons]
  omega

end Spans

theorem TokenKind.itemStep_of_isTerm {k : TokenKind} (h : k.isTerm = true) (open_ : List Char) :
    itemStep open_ k = some open_ := by
  rw [itemStep.eq_def]
  split
  · cases h
  · cases k <;> first | rfl | cases h

theorem TermsTo.spans {ts us : List Token} (h : TermsTo ts us) (open_ : List Char) :
    Spans open_ ts us := by
  obtain ⟨ws, -, hw, rfl⟩ := h
  induction ws with
  | nil => exact Spans.refl us
  | cons w ws ih =>
    obtain ⟨hw, hws⟩ := List.forall_mem_cons.1 hw
    exact Spans.cons (TokenKind.itemStep_of_isTerm hw open_) (ih hws)

namespace ExprPart

/-- Expressions and their parts are nested. A list of items is, up to the bracket that ends it,
nested inside of the one in front of it. -/
def Spanned : ExprPart → List Token → List Token → Prop
  | .argumentList .., ts, us => ∃ line, Spans ['('] ts (⟨.punctuation ')', line⟩ :: us)
  | .itemList .., ts, us => ∃ line, Spans ['['] ts (⟨.punctuation ']', line⟩ :: us)
  | .entryList .., ts, us => ∃ line, Spans ['{'] ts (⟨.punctuation '}', line⟩ :: us)
  | .tagArguments .., _, _ | .expressionList .., _, _ | .transOptions .., _, _
  | .loopCondition .., _, _ => True
  | _, ts, us => Spans [] ts us

theorem Reads.spanned {p : ExprPart} {ts us : List Token} (h : p.Reads ts us) :
    p.Spanned ts us := by
  -- The items of a list are nested by themselves, and so inside of the list's bracket.
  induction h with
  | bounded _ _ _ _ ihf iho => exact Spans.trans ihf iho
  | whole _ _ _ _ ihf iho ihc => exact Spans.trans ihf (Spans.trans iho ihc)
  | sign s _ ih => exact Spans.cons (by cases s <;> rfl) ih
  | chain _ _ _ ihp ihl => exact Spans.trans ihp ihl
  | operationsEnd | conditionalsEnd | linksEnd | noArguments => exact Spans.refl _
  | test hn _ _ _ ht _ _ iha iho | negatedTest hn _ _ _ ht _ _ iha iho =>
    exact ((TermsTo.next? hn).spans []).trans (((TermsTo.testName ht).spans []).trans
      (Spans.trans iha iho))
  | binary hn _ _ _ _ _ ihr iho => exact ((TermsTo.next? hn).spans []).trans (Spans.trans ihr iho)
  | fallback _ _ _ ihn ihc => exact Spans.cons rfl (Spans.cons rfl (Spans.trans ihn ihc))
  | choice _ _ _ _ _ ihy ihn ihc =>
    exact Spans.cons rfl ((Spans.snoc ihy rfl).trans (Spans.trans ihn ihc))
  | guarded _ _ _ _ _ ihy ihc => exact Spans.cons rfl (Spans.trans ihy ihc)
  | word | number | str | strKey | nameKey | numberKey => exact Spans.single rfl
  | call _ _ ih =>
    obtain ⟨line, ih⟩ := ih
    exact Spans.cons rfl (Spans.enclosed rfl ih rfl)
  | array _ ih | hash _ ih | someArguments _ ih =>
    obtain ⟨line, ih⟩ := ih
    exact Spans.enclosed rfl ih rfl
  | group _ ih | groupKey _ ih => exact Spans.enclosed rfl (Spans.inside ih ['(']) rfl
  | member _ hk _ _ iha ihc =>
    exact Spans.cons rfl (((TermsTo.attributeKey hk).spans []).trans (Spans.trans iha ihc))
  | item _ _ _ ihk ihc => exact (Spans.enclosed rfl (Spans.inside ihk ['[']) rfl).trans ihc
  | filter _ _ _ iha ihc => exact Spans.cons rfl (Spans.cons rfl (Spans.trans iha ihc))
  | argumentsEnd | itemsEnd | entriesEnd => exact ⟨_, Spans.refl _⟩
  | arguments _ _ iha iho | items _ _ iha iho =>
    obtain ⟨line, iho⟩ := iho
    exact ⟨line, ((Spans.inside iha _).snoc rfl).trans iho⟩
  | lastArgument _ ih | lastItem _ ih => exact ⟨_, Spans.inside ih _⟩
  | named _ ih => exact Spans.cons rfl (Spans.cons rfl ih)
  | unnamed _ ih => exact ih
  | entries _ _ _ ihk ihv iho =>
    obtain ⟨line, iho⟩ := iho
    exact ⟨line, ((Spans.inside ihk _).snoc rfl).trans (((Spans.inside ihv _).snoc rfl).trans iho)⟩
  | lastEntry _ _ ihk ihv =>
    exact ⟨_, ((Spans.inside ihk _).snoc rfl).trans (Spans.inside ihv _)⟩
  | _ => trivial

end ExprPart

def constantText? : List TokenKind → Option String
  | [.str value] => some value
  | [.number value] => value.text?
  | [.name name] => (Node.ofWord name).literalText?
  | .punctuation '(' :: ks =>
    if ks.getLast? = some (.punctuation ')') then constantText? ks.dropLast else none
  | _ => none
termination_by ks => ks.length
decreasing_by
  simp only [List.length_dropLast, List.length_cons]
  omega

section Constants

variable {ks ls : List TokenKind}

theorem constantText?_group (ks : List TokenKind) :
    constantText? (.punctuation '(' :: (ks ++ [.punctuation ')'])) = constantText? ks := by
  rw [constantText?]
  simp

theorem constantText?_cons_cons {k l : TokenKind} (hk : k ≠ .punctuation '(')
    (ks : List TokenKind) : constantText? (k :: l :: ks) = none := by
  rw [constantText?.eq_def]
  split
  · next he => cases he
  · next he => cases he
  · next he => cases he
  · next he =>
    cases he
    exact absurd rfl hk
  · rfl

theorem itemNest_of_constantText? {d : String} (h : constantText? ks = some d) :
    itemNest [] ks = some [] := by
  fun_induction constantText? ks with
  | case1 | case2 | case3 => rfl
  | case4 ks hl ih =>
    obtain ⟨ls, rfl⟩ := List.getLast?_eq_some_iff.1 hl
    rw [List.dropLast_concat] at ih h
    have hn : itemNest ['('] ls = some ['('] := itemNest_append_base (ih h) ['(']
    change itemNest ['('] (ls ++ [.punctuation ')']) = some []
    rw [itemNest_append, hn]
    rfl
  | case5 | case6 => cases h

theorem constantText?_append (hk : itemNest [] ks = some []) (hks : ks ≠ []) (hls : ls ≠ []) :
    constantText? (ks ++ ls) = none := by
  obtain ⟨k, ks, rfl⟩ := List.exists_cons_of_ne_nil hks
  by_cases hp : k = .punctuation '('
  · subst hp
    rcases List.eq_nil_or_concat ls with rfl | ⟨ls, l, rfl⟩
    · exact absurd rfl hls
    by_cases hl : l = .punctuation ')'
    · subst hl
      rw [List.concat_eq_append, ← List.append_assoc, List.cons_append, List.cons_append,
        constantText?_group, Option.eq_none_iff_forall_ne_some]
      intro d hd
      -- The first parenthesis would be closed before the last one comes.
      have hn := itemNest_of_constantText? hd
      rw [itemNest_append] at hn
      obtain ⟨st, hst, -⟩ := Option.bind_eq_some_iff.1 hn
      have hbase := itemNest_append_base hst ['(']
      have hopen : itemNest ['('] ks = some [] := hk
      rw [List.nil_append, hopen] at hbase
      cases st <;> cases hbase
    · rw [List.cons_append, constantText?, if_neg]
      simpa using hl
  · obtain ⟨l, ms, hl⟩ : ∃ l ms, ks ++ ls = l :: ms :=
      List.exists_cons_of_ne_nil (by simp [hls])
    rw [List.cons_append, hl, constantText?_cons_cons hp]

end Constants

section Lengths

variable {level : Nat} {c : Chain} {e : Node} {ts us : List Token}

namespace ExprPart

theorem Reads.length_le {p : ExprPart} (h : p.Reads ts us) : us.length ≤ ts.length :=
  h.wordsTo.length_le

theorem Reads.length_primary (h : Reads (.primary level e) ts us) : us.length < ts.length := by
  cases h with
  | word | number | str => exact Nat.lt_succ_self _
  | call _ h | array h | hash h =>
    have := h.length_le
    simp only [List.length_cons]
    omega
  | group h =>
    have := h.length_le
    simp only [List.length_cons] at this ⊢
    omega

theorem Reads.length_operand (h : Reads (.operand level c) ts us) : us.length < ts.length := by
  cases h with
  | sign s h => exact Nat.lt_succ_of_le h.length_le
  | chain hs hp hl => exact hl.length_le.trans_lt hp.length_primary

theorem Reads.length_expression {minimum : Nat} (h : Reads (.expression minimum level e) ts us) :
    us.length < ts.length := by
  cases h with
  | bounded _ _ hf ho => exact ho.length_le.trans_lt hf.length_operand
  | whole _ hf ho hc => exact (hc.length_le.trans ho.length_le).trans_lt hf.length_operand

theorem Reads.length_argument (h : Reads (.argument level e) ts us) : us.length < ts.length := by
  cases h with
  | named hv =>
    have := hv.length_le
    simp only [List.length_cons]
    omega
  | unnamed he => exact he.length_expression

end ExprPart
end Lengths

/-- What an expression comes to with the tokens that go on from a part of it: just the part, or no
constant. -/
def Continues (left e : Node) (ts us : List Token) : Prop :=
  (e = left ∧ ts = us) ∨ (e.literalText? = none ∧ us.length < ts.length)

/-- The constant that an expression comes to is seen from the tokens before `us`. -/
def LiteralFrom (e : Node) (ts us : List Token) : Prop :=
  ∀ ws, ts = ws ++ us → e.literalText? = constantText? (ws.map Token.kind)

section Literals

variable {left mid e : Node} {ts us vs : List Token}

theorem Continues.trans (h : Continues left mid ts us) (h' : Continues mid e us vs) :
    Continues left e ts vs := by
  rcases h with ⟨rfl, rfl⟩ | ⟨hm, hl⟩
  · exact h'
  · rcases h' with ⟨rfl, rfl⟩ | ⟨he, hl'⟩
    · exact .inr ⟨hm, hl⟩
    · exact .inr ⟨he, hl'.trans hl⟩

theorem Continues.step (hm : mid.literalText? = none) (hl : us.length < ts.length)
    (h : Continues mid e us vs) : Continues left e ts vs :=
  Continues.trans (.inr ⟨hm, hl⟩) h

theorem literalFrom_single {t : Token} (h : e.literalText? = constantText? [t.kind]) :
    LiteralFrom e (t :: us) us := by
  intro ws hw
  rw [← List.singleton_append, List.append_cancel_right_eq] at hw
  rw [h, ← hw]
  rfl

theorem literalFrom_of_none {t : Token} (he : e.literalText? = none)
    (ht : t.kind ≠ .punctuation '(') (hl : us.length < ts.length) :
    LiteralFrom e (t :: ts) us := by
  intro ws hw
  cases ws with
  | nil =>
    rw [List.nil_append] at hw
    rw [← hw, List.length_cons] at hl
    omega
  | cons w ws =>
    obtain ⟨rfl, rfl⟩ := List.cons.inj hw
    cases ws with
    | nil => exact absurd hl (Nat.lt_irrefl _)
    | cons w ws => rw [he, List.map_cons, List.map_cons, constantText?_cons_cons ht]

theorem LiteralFrom.group {t s : Token} (h : LiteralFrom e ts (s :: us))
    (hw : WordsTo ts (s :: us)) (ht : t.kind = .punctuation '(')
    (hs : s.kind = .punctuation ')') : LiteralFrom e (t :: ts) us := by
  obtain ⟨xs, -, rfl⟩ := hw
  intro ws hws
  have happend : t :: (xs ++ [s]) ++ us = ws ++ us := by
    rw [← hws]
    simp
  have he := List.append_cancel_right happend
  rw [h xs rfl, ← he, List.map_cons, List.map_append, ht, List.map_singleton, hs,
    constantText?_group]

theorem LiteralFrom.continued (h : LiteralFrom left ts us) (hs : Spans [] ts us)
    (hl : us.length < ts.length) (hv : WordsTo us vs) (hc : Continues left e us vs) :
    LiteralFrom e ts vs := by
  rcases hc with ⟨rfl, rfl⟩ | ⟨he, hlt⟩
  · exact h
  · intro ws hw
    obtain ⟨xs, rfl, hx⟩ := hs
    obtain ⟨ys, -, rfl⟩ := hv
    have hys : ys ≠ [] := by
      rintro rfl
      exact Nat.lt_irrefl _ hlt
    have hxs : xs ≠ [] := by
      rintro rfl
      exact Nat.lt_irrefl _ hl
    rw [← List.append_assoc, List.append_cancel_right_eq] at hw
    rw [he, ← hw, List.map_append, constantText?_append hx (by simpa using hxs)
      (by simpa using hys)]

end Literals

namespace ExprPart

def Literal : ExprPart → List Token → List Token → Prop
  | .expression _ _ e, ts, us | .primary _ e, ts, us | .argument _ e, ts, us =>
    LiteralFrom e ts us
  | .operand _ c, ts, us => LiteralFrom c.1 ts us
  | .operations _ left c, ts, us | .conditionals left c, ts, us | .links left c, ts, us =>
    Continues left.1 c.1 ts us
  | _, _, _ => True

/-- An expression comes to a constant exactly if its tokens are one in parentheses. -/
theorem Reads.literal {p : ExprPart} {ts us : List Token} (h : p.Reads ts us) :
    p.Literal ts us := by
  -- An operator, a test or a link makes a node without a text, and adds tokens behind an operand
  -- that is nested: the whole is in no parentheses, even if it begins and ends with one.
  induction h with
  | bounded _ _ hf ho ihf iho =>
    exact LiteralFrom.continued ihf hf.spanned hf.length_operand ho.wordsTo iho
  | whole _ hf ho hc ihf iho ihc =>
    exact LiteralFrom.continued ihf hf.spanned hf.length_operand (ho.wordsTo.trans hc.wordsTo)
      (Continues.trans iho ihc)
  | sign s he => exact literalFrom_of_none rfl (by cases s <;> rintro ⟨⟩) he.length_expression
  | chain _ hp hl ihp ihl =>
    exact LiteralFrom.continued ihp hp.spanned hp.length_primary hl.wordsTo ihl
  | operationsEnd | conditionalsEnd | linksEnd => exact .inl ⟨rfl, rfl⟩
  | test hn _ _ _ ht ha _ _ iho | negatedTest hn _ _ _ ht ha _ _ iho =>
    refine Continues.step rfl ?_ iho
    exact (ha.length_le.trans_lt (TermsTo.testName ht).length_lt).trans (TermsTo.next? hn).length_lt
  | binary hn _ _ _ hr _ _ iho =>
    exact Continues.step rfl (hr.length_le.trans_lt (TermsTo.next? hn).length_lt) iho
  | fallback hn _ _ _ ihc =>
    refine Continues.step rfl ?_ ihc
    have := hn.length_le
    simp only [List.length_cons]
    omega
  | choice _ hy hn _ _ _ _ ihc =>
    refine Continues.step rfl ?_ ihc
    have := hy.length_le
    have := hn.length_le
    simp only [List.length_cons] at *
    omega
  | guarded _ hy _ _ _ _ ihc => exact Continues.step rfl (Nat.lt_succ_of_le hy.length_le) ihc
  | word => exact literalFrom_single (by rw [constantText?])
  | number => exact literalFrom_single (by rw [constantText?]; rfl)
  | str => exact literalFrom_single (by rw [constantText?]; rfl)
  | call _ ha => exact literalFrom_of_none rfl (by rintro ⟨⟩) (Nat.lt_succ_of_le ha.length_le)
  | @array _ _ items _ _ hi =>
    have he : (Node.array items).literalText? = none := by
      rw [Node.array, Node.new, Node.pushAll_generic]
      rfl
    obtain ⟨line, hs⟩ := hi.spanned
    exact literalFrom_of_none he (by rintro ⟨⟩) hs.length_lt
  | @hash _ _ entries _ _ hi =>
    have he : (Node.hash entries).literalText? = none := by
      rw [Node.hash, Node.new, Node.pushAll_generic]
      rfl
    obtain ⟨line, hs⟩ := hi.spanned
    exact literalFrom_of_none he (by rintro ⟨⟩) hs.length_lt
  | group he ih => exact LiteralFrom.group ih he.wordsTo rfl rfl
  | member _ hk ha _ _ ihc =>
    refine Continues.step rfl ?_ ihc
    exact Nat.lt_succ_of_le (ha.length_le.trans (TermsTo.attributeKey hk).length_lt.le)
  | item _ hk _ _ ihc =>
    refine Continues.step rfl ?_ ihc
    have := hk.length_le
    simp only [List.length_cons] at *
    omega
  | filter _ ha _ _ ihc =>
    refine Continues.step rfl ?_ ihc
    have := ha.length_le
    simp only [List.length_cons]
    omega
  | named hv =>
    exact literalFrom_of_none rfl (by rintro ⟨⟩) (Nat.lt_succ_of_le hv.length_le)
  | unnamed _ ih => exact ih
  | _ => trivial

end ExprPart
end Phrasebook
