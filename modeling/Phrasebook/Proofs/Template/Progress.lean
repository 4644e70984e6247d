import Phrasebook.Proofs.Template.Exhaustion
import Phrasebook.Proofs.Template.ExprSpans

namespace Phrasebook

/-- Before the tokens `us` stand at least `n` tokens, none of them an end token. -/
def Passes (n : Nat) (ts us : List Token) : Prop :=
  ∃ ws, n ≤ ws.length ∧ (∀ w ∈ ws, w.kind ≠ .eof) ∧ ts = ws ++ us

def EndsInEof (ts : List Token) : Prop := ts.getLast?.map Token.kind = some .eof

namespace Passes

variable {m n : Nat} {t : Token} {ts us vs : List Token}

theorem refl (ts : List Token) : Passes 0 ts ts := ⟨[], Nat.le_refl 0, by simp, rfl⟩

theorem weaken (h : Passes n ts us) : Passes 0 ts us := by
  obtain ⟨ws, -, hw, rfl⟩ := h
  exact ⟨ws, Nat.zero_le _, hw, rfl⟩

theorem append (h : Passes m ts us) (h' : Passes n us vs) : Passes (m + n) ts vs := by
  obtain ⟨ws, hm, hw, rfl⟩ := h
  obtain ⟨xs, hn, hx, rfl⟩ := h'
  refine ⟨ws ++ xs, ?_, ?_, (List.append_assoc ..).symm⟩
  · rw [List.length_append]
    exact Nat.add_le_add hm hn
  · intro w hmem
    exact (List.mem_append.1 hmem).elim (hw w) (hx w)

theorem trans (h : Passes m ts us) (h' : Passes n us vs) : Passes m ts vs :=
  h.append h'.weaken

theorem transRight (h : Passes m ts us) (h' : Passes n us vs) : Passes n ts vs := by
  have := h.weaken.append h'
  rwa [Nat.zero_add] at this

theorem cons (ht : (t.kind == .eof) = false) (h : Passes n ts us) : Passes 1 (t :: ts) us := by
  obtain ⟨ws, -, hw, rfl⟩ := h
  refine ⟨t :: ws, Nat.le_add_left 1 _, ?_, rfl⟩
  exact List.forall_mem_cons.2 ⟨beq_eq_false_iff_ne.1 ht, hw⟩

theorem single (ht : (t.kind == .eof) = false) : Passes 1 (t :: ts) ts := cons ht (refl ts)

theorem snoc (h : Passes n ts (t :: us)) (ht : (t.kind == .eof) = false) : Passes 1 ts us :=
  h.transRight (single ht)

theorem length_le (h : Passes n ts us) : us.length + n ≤ ts.length := by
  obtain ⟨ws, hn, -, rfl⟩ := h
  rw [List.length_append]
  omega

theorem endsInEof (h : Passes n ts us) (hend : EndsInEof ts) : EndsInEof us := by
  obtain ⟨ws, -, hw, rfl⟩ := h
  cases us with
  | nil =>
    obtain ⟨t, ht, hk⟩ := Option.map_eq_some_iff.1 hend
    rw [List.append_nil] at ht
    exact absurd hk (hw t (List.mem_of_getLast? ht))
  | cons u us =>
    rw [EndsInEof, List.getLast?_append_of_ne_nil _ (List.cons_ne_nil u us)] at hend
    exact hend

end Passes

theorem TokenKind.ne_eof_of_isWord {k : TokenKind} (h : k.isWord = true) : k ≠ .eof := by
  rintro rfl
  cases h

theorem WordsTo.passes {n : Nat} {ts us : List Token} (h : WordsTo ts us)
    (hn : us.length + n ≤ ts.length) : Passes n ts us := by
  obtain ⟨ws, hw, rfl⟩ := h
  refine ⟨ws, ?_, fun w hm => TokenKind.ne_eof_of_isWord (hw w hm), rfl⟩
  rw [List.length_append] at hn
  omega

theorem TermsTo.passes {ts us : List Token} (h : TermsTo ts us) : Passes 1 ts us :=
  h.wordsTo.passes h.length_lt

namespace ExprPart

def least : ExprPart → Nat
  | .operations .. | .conditionals .. | .links .. | .optionalArguments .. | .tagArguments ..
  | .transOptions .. | .loopCondition .. => 0
  | .expression .. | .operand .. | .primary .. | .argumentList .. | .argument .. | .itemList ..
  | .entryList .. | .entryKey .. | .expressionList .. => 1

theorem Reads.length_entryKey {level : Nat} {key : Node} {ts us : List Token}
    (h : Reads (.entryKey level key) ts us) : us.length < ts.length := by
  cases h with
  | strKey | nameKey | numberKey => exact Nat.lt_succ_self _
  | groupKey h =>
    have := h.length_le
    simp only [List.length_cons] at this ⊢
    omega

theorem Reads.length_expressionList {level : Nat} {values : List Node} {ts us : List Token}
    (h : Reads (.expressionList level values) ts us) : us.length < ts.length := by
  cases h with
  | lastValue h => exact h.length_expression
  | lastComma h => exact Nat.lt_of_succ_lt h.length_expression
  | values h ho => exact ho.length_le.trans_lt (Nat.lt_of_succ_lt h.length_expression)

theorem Reads.passes {p : ExprPart} {ts us : List Token} (h : p.Reads ts us) :
    Passes p.least ts us := by
  refine h.wordsTo.passes ?_
  cases p with
  | expression => exact h.length_expression
  | operand => exact h.length_operand
  | primary => exact h.length_primary
  | argument => exact h.length_argument
  | entryKey => exact h.length_entryKey
  | expressionList => exact h.length_expressionList
  | argumentList | itemList | entryList =>
    obtain ⟨line, hs⟩ := h.spanned
    exact hs.length_lt
  | operations | conditionals | links | optionalArguments | tagArguments | transOptions
  | loopCondition => exact h.length_le

end ExprPart

theorem Passes.setNames {names : List String} {ts us : List Token}
    (h : Phrasebook.setNames ts = .ok (names, us)) : Passes 1 ts us := by
  induction hn : ts.length using Nat.strong_induction_on generalizing ts names with
  | _ n ih =>
    rw [Phrasebook.setNames.eq_def] at h
    split at h
    · obtain ⟨_, ho, h⟩ := ok_of_bind h
      cases h
      subst hn
      have hothers := ih _ (Nat.lt_succ_of_lt (Nat.lt_succ_self _)) ho rfl
      exact .cons rfl (.cons rfl hothers)
    · cases h
      exact .single rfl
    · cases h

theorem Passes.closeTag {ts us : List Token} (h : Phrasebook.closeTag ts = .ok us) :
    Passes 1 ts us := by
  fun_induction Phrasebook.closeTag ts with
  | case1 | case3 => cases h
  | case2 =>
    cases h
    exact .single rfl
  | case4 t _ _ he ih =>
    have hk : t.kind ≠ .eof := fun hk => he t.line (by rw [← hk])
    exact .cons (beq_eq_false_iff_ne.2 hk) (ih h)

theorem Passes.loopTargets {targets : LoopTargets} {ts us : List Token}
    (h : Phrasebook.loopTargets ts = .ok (targets, us)) : Passes 0 ts us :=
  (WordsTo.loopTargets h).passes (WordsTo.loopTargets h).length_le

theorem Passes.loopHead {level line : Nat} {targets : LoopTargets} {sequence : Node}
    {condition : Option Node} {ts us vs ws : List Token}
    (ht : Phrasebook.loopTargets ts = .ok (targets, us))
    (hs : (ExprPart.expression 0 level sequence).Reads us vs)
    (hc : (ExprPart.loopCondition level condition).Reads vs (⟨.tagEnd .block, line⟩ :: ws)) :
    Passes 1 ts ws :=
  (Passes.loopTargets ht).transRight (hs.passes.trans (hc.passes.snoc rfl))

namespace StmtPart

def least : StmtPart → Nat
  | .statements .. | .block .. | .alternative .. => 0
  | .tag .. | .transTag .. | .branches .. => 1

theorem Reads.passes {p : StmtPart} {ts us : List Token} (h : p.Reads ts us) :
    Passes p.least ts us := by
  induction h with
  | eof | noElse => exact .refl _
  | text _ ih => exact (Passes.cons rfl ih).weaken
  | print he _ ih =>
    have hprint := (he.passes.snoc rfl).trans ih
    exact (Passes.cons rfl hprint).weaken
  | close => exact (Passes.cons rfl (.single rfl)).weaken
  | tag _ _ _ iht ihs => exact (Passes.cons rfl (.cons rfl (iht.trans ihs))).weaken
  | block _ _ ih => exact ih
  | trans _ ih => exact ih
  | transChoice hc _ ih => exact hc.passes.trans ih
  | ifTag hc _ ih => exact (hc.passes.snoc rfl).trans ih
  | forTag ht hs hc _ _ hz ihb iho =>
    exact (Passes.loopHead ht hs hc).trans (ihb.trans (iho.trans (.closeTag hz)))
  | blockBody _ hc ih => exact .cons rfl (.cons rfl (ih.trans (.closeTag hc)))
  | blockValue _ he => exact .cons rfl (he.passes.snoc rfl)
  | setValues hn hv => exact ((Passes.setNames hn).snoc rfl).trans (hv.passes.snoc rfl)
  | setBody hn _ hc ih => exact ((Passes.setNames hn).snoc rfl).trans (ih.trans (.closeTag hc))
  | paired _ ha _ hc ih => exact (ha.passes.snoc rfl).trans (ih.trans (.closeTag hc))
  | loose _ _ ha => exact ha.passes.snoc rfl
  | transTag ho _ hc _ ih => exact (ho.passes.snoc rfl).trans (ih.trans (.closeTag hc))
  | elseif _ hn _ ihb ihr => exact ihb.transRight ((hn.passes.snoc rfl).trans ihr)
  | lastBranch _ _ _ hc ihb iho => exact ihb.transRight (iho.transRight (.closeTag hc))
  | someElse _ ih => exact (Passes.cons rfl ih).weaken

end StmtPart

/-- How many calls can be nested in one before a token is read, at most. -/
def Reader.rank : Reader → Nat
  | .tag .. | .argumentList .. => 4
  | .branches .. | .argument .. | .itemList .. | .tagArguments .. | .expressionList .. => 3
  | .expression .. => 2
  | .operand .. | .entryList .. | .block .. | .transTag .. => 1
  | .operations .. | .conditionals .. | .primary .. | .links .. | .optionalArguments ..
  | .entryKey .. | .transOptions .. | .setNames | .closeTag | .statements .. => 0

theorem Reader.rank_le (r : Reader) : r.rank ≤ 4 := by
  cases r <;> simp [Reader.rank]

namespace Call

variable {c d : Call}

def Advances (c d : Call) : Prop :=
  Passes 1 c.tokens d.tokens ∨ Passes 0 c.tokens d.tokens ∧ d.reader.rank < c.reader.rank

theorem Makes.advances (h : c.Makes d) : c.Advances d := by
  have reads := ReadsByGrammar.all
  have builds := ReadsByStatements.all
  cases h with
  | operand | primary | argument | unnamed | item | key | tagArgument | value | statements
  | trans | count | condition | setNames | pairedArguments | looseArguments | transOptions
  | branchBody => exact .inr ⟨.refl _, by simp [whole, Reader.rank]⟩
  | operations _ hf => exact .inl ((reads _).operand hf).passes
  | conditionals _ hf ho =>
    exact .inl (((reads _).operand hf).passes.trans ((reads _).operations ho).passes)
  | signed s => exact .inl (.single (by cases s <;> rfl))
  | links _ hp => exact .inl ((reads _).primary hp).passes
  | testArguments hn _ _ _ ht =>
    exact .inl ((TermsTo.next? hn).passes.trans (TermsTo.testName ht).passes)
  | afterTest hn _ _ _ ht ha =>
    have htest := (TermsTo.testName ht).passes.trans ((reads _).optionalArguments ha).passes
    exact .inl ((TermsTo.next? hn).passes.trans htest)
  | rightOperand hn => exact .inl (TermsTo.next? hn).passes
  | afterBinary hn _ _ _ hr =>
    exact .inl ((TermsTo.next? hn).passes.trans ((reads _).expression hr).passes)
  | fallback | callArguments | filterArguments | named | nextName | tag | blockBody =>
    exact .inl (.cons rfl (.single rfl))
  | yes | array | hash | group | itemKey | arguments | groupKey | separator | option | afterText
  | printed | blockValue => exact .inl (.single rfl)
  | afterFallback hn => exact .inl (.cons rfl (.cons rfl ((reads _).expression hn).passes))
  | no _ hy => exact .inl (.cons rfl (((reads _).expression hy).passes.snoc rfl))
  | afterChoice _ hy hn =>
    have hyes := ((reads _).expression hy).passes.snoc rfl
    exact .inl (.cons rfl (hyes.trans ((reads _).expression hn).passes))
  | afterGuarded _ hy => exact .inl (.cons rfl ((reads _).expression hy).passes)
  | memberArguments _ hk => exact .inl (.cons rfl (TermsTo.attributeKey hk).passes)
  | afterMember _ hk ha =>
    have hkey := (TermsTo.attributeKey hk).passes.trans ((reads _).optionalArguments ha).passes
    exact .inl (.cons rfl hkey)
  | afterItem _ hk => exact .inl (.cons rfl (((reads _).expression hk).passes.snoc rfl))
  | afterFilter _ ha => exact .inl (.cons rfl (.cons rfl ((reads _).optionalArguments ha).passes))
  | nextArgument _ ha => exact .inl (((reads _).argument ha).passes.snoc rfl)
  | nextItem _ he => exact .inl (((reads _).expression he).passes.snoc rfl)
  | entryValue _ hk => exact .inl (((reads _).entryKey hk).passes.snoc rfl)
  | nextEntry _ hk hv =>
    have hkey := ((reads _).entryKey hk).passes.snoc rfl
    exact .inl (hkey.trans (((reads _).expression hv).passes.snoc rfl))
  | nextTagArgument _ he => exact .inl (ExprPart.Reads.of_wholeExpression he).passes
  | nextValue he => exact .inl ((ExprPart.Reads.of_wholeExpression he).passes.snoc rfl)
  | afterVars he | afterDomain he | afterLocale he =>
    exact .inl (.cons rfl (ExprPart.Reads.of_wholeExpression he).passes)
  | skipped h => exact .inl (.single (beq_eq_false_iff_ne.2 fun hk => h (by simp [hk])))
  | afterPrint he =>
    have hprint := (ExprPart.Reads.of_wholeExpression he).passes.snoc rfl
    exact .inl (.cons rfl hprint)
  | afterTag _ ht => exact .inl (.cons rfl (.cons rfl ((builds _).tag ht).passes))
  | transChoice hc => exact .inl (ExprPart.Reads.of_wholeExpression hc).passes
  | branches hc => exact .inl ((ExprPart.Reads.of_wholeExpression hc).passes.snoc rfl)
  | sequence ht => exact .inr ⟨.loopTargets ht, by simp [whole, Reader.rank]⟩
  | loopCondition ht hs =>
    have hseq := (ExprPart.Reads.of_wholeExpression hs).passes.snoc rfl
    exact .inl ((Passes.loopTargets ht).transRight hseq)
  | loopBody ht hs hc => exact .inl (.loopHead ht (.of_wholeExpression hs) (.of_loopCondition hc))
  | loopElse ht hs hc hb =>
    have hhead := Passes.loopHead ht (.of_wholeExpression hs) (.of_loopCondition hc)
    exact .inl (hhead.trans (((builds _).block hb).passes.snoc rfl))
  | loopElseEnd ht hs hc hb ho =>
    have hhead := Passes.loopHead ht (.of_wholeExpression hs) (.of_loopCondition hc)
    have hbody := ((builds _).block hb).passes.snoc rfl
    exact .inl (hhead.trans (hbody.trans ((builds _).block ho).passes))
  | loopEnd ht hs hc hb =>
    have hhead := Passes.loopHead ht (.of_wholeExpression hs) (.of_loopCondition hc)
    exact .inl (hhead.trans ((builds _).block hb).passes)
  | blockEnd hb => exact .inl (.cons rfl (.cons rfl ((builds _).block hb).passes))
  | setValues hn | setBody hn => exact .inl ((Passes.setNames hn).snoc rfl)
  | setEnd hn hb => exact .inl (((Passes.setNames hn).snoc rfl).trans ((builds _).block hb).passes)
  | pairedBody _ ha => exact .inl ((ExprPart.Reads.of_tagArguments ha).passes.snoc rfl)
  | pairedEnd _ ha hb =>
    have harguments := (ExprPart.Reads.of_tagArguments ha).passes.snoc rfl
    exact .inl (harguments.trans ((builds _).block hb).passes)
  | transBody ho => exact .inl ((ExprPart.Reads.of_transOptions ho).passes.snoc rfl)
  | transEnd ho hb =>
    have hoptions := (ExprPart.Reads.of_transOptions ho).passes.snoc rfl
    exact .inl (hoptions.trans ((builds _).block hb).passes)
  | nextCondition hb => exact .inr ⟨((builds _).block hb).passes, by simp [whole, Reader.rank]⟩
  | nextBranch hb hn =>
    have hnext := (ExprPart.Reads.of_wholeExpression hn).passes.snoc rfl
    exact .inl (((builds _).block hb).passes.transRight hnext)
  | elseBody hb => exact .inl (((builds _).block hb).passes.snoc rfl)
  | elseEnd hb ho =>
    have helse := ((builds _).block hb).passes.snoc rfl
    exact .inl (helse.trans ((builds _).block ho).passes)
  | branchesEnd hb => exact .inr ⟨((builds _).block hb).passes, by simp [Reader.rank]⟩

def measure (c : Call) : Nat := 8 * c.tokens.length + c.reader.rank

theorem Makes.passes (h : c.Makes d) : Passes 0 c.tokens d.tokens :=
  h.advances.elim Passes.weaken And.left

theorem Makes.measure_lt (h : c.Makes d) : d.measure < c.measure := by
  have hrank := d.reader.rank_le
  rw [measure, measure]
  rcases h.advances with h | ⟨h, hr⟩
  · have := h.length_le
    omega
  · have := h.length_le
    omega

theorem transGen_passes (h : Relation.TransGen Makes c d) : Passes 0 c.tokens d.tokens := by
  induction h with
  | single h => exact h.passes
  | tail _ h ih => exact ih.trans h.passes

theorem transGen_measure_lt (h : Relation.TransGen Makes c d) : d.measure < c.measure := by
  induction h with
  | single h => exact h.measure_lt
  | tail _ h ih => exact h.measure_lt.trans ih

theorem rank_eq_of_ctorIdx {r r' : Reader} (h : r.ctorIdx = r'.ctorIdx) : r.rank = r'.rank := by
  cases r <;> cases r' <;> first | rfl | cases h

/-- Calls that lead back to a function have read a token. -/
theorem length_lt_of_cycle (h : Relation.TransGen Makes c d)
    (hr : d.reader.ctorIdx = c.reader.ctorIdx) : d.tokens.length < c.tokens.length := by
  have hlt := transGen_measure_lt h
  rw [measure, measure, rank_eq_of_ctorIdx hr] at hlt
  omega

theorem length_le_measure {ds : List Call} (h : List.IsChain Makes (c :: ds)) :
    ds.length ≤ c.measure := by
  induction ds generalizing c with
  | nil => exact Nat.zero_le _
  | cons d ds ih =>
    obtain ⟨hd, h⟩ := List.isChain_cons_cons.1 h
    exact Nat.succ_le_of_lt ((ih h).trans_lt hd.measure_lt)

def Fueled (c : Call) : Prop :=
  match c.reader with
  | .tagArguments .. | .expressionList .. | .transOptions .. => c.tokens.length < c.fuel
  | .setNames | .closeTag => True
  | _ => c.measure < c.fuel

theorem fueled_whole (level : Nat) (ts : List Token) : (whole level ts).Fueled := by
  change 8 * ts.length + 2 < 8 * ts.length + 8
  omega

theorem Makes.fueled (h : c.Makes d) (hc : c.Fueled) : d.Fueled := by
  have hlt := h.measure_lt
  cases h with
  | tagArgument | value | option | printed | count | condition | sequence | loopCondition
  | blockValue | nextCondition => exact fueled_whole _ _
  | separator | nextTagArgument | nextValue | afterVars | afterDomain | afterLocale =>
    simp only [Fueled, measure, Reader.rank] at hc hlt ⊢
    omega
  | setValues | pairedArguments | looseArguments | transOptions => exact Nat.lt_succ_self _
  | nextName | skipped | setNames | loopElseEnd | loopEnd | blockEnd | setEnd | pairedEnd
  | transEnd | elseEnd | branchesEnd => trivial
  -- A call with the fuel that its own call had, less one.
  | _ => exact Nat.lt_of_lt_of_le hlt (Nat.le_of_lt_succ hc)

theorem Fueled.fuel_ne_zero (hc : c.Fueled) (hs : c.Stuck) : c.fuel ≠ 0 := by
  obtain ⟨reader, fuel, ts⟩ := c
  cases reader with
  | setNames => exact absurd (map_snd_eq_error.1 hs) setNames_ne_exhausted
  | closeTag => exact absurd hs closeTag_ne_exhausted
  | _ => exact Nat.ne_zero_of_lt hc

theorem Fueled.not_stuck (hc : c.Fueled) : ¬c.Stuck := by
  -- Every call made is fueled too and has a smaller measure.
  induction hm : c.measure using Nat.strong_induction_on generalizing c with
  | _ m ih =>
    intro hs
    rcases hs.below with h0 | ⟨d, hd, hstuck⟩
    · exact hc.fuel_ne_zero hs h0
    · exact ih d.measure (hm ▸ hd.measure_lt) (hd.fueled hc) rfl hstuck

theorem fueled_of_lt (h : 8 * c.tokens.length + 4 < c.fuel) : c.Fueled := by
  have hrank := c.reader.rank_le
  obtain ⟨reader, fuel, ts⟩ := c
  cases reader <;> simp only [Fueled, measure] at * <;> omega

end Call

theorem parseTokens_ne_exhausted (ts : List Token) : parseTokens ts ≠ .error .exhausted := by
  intro h
  rcases Call.error_of_bind h with hb | ⟨_, _, ⟨⟩⟩
  have hfuel : Call.Fueled ⟨.block 0 [], statementFuel ts, ts⟩ := by
    change 8 * ts.length + 1 < 8 * ts.length + 8
    omega
  exact hfuel.not_stuck (Call.map_snd_eq_error.2 hb)

theorem parseTemplate_ne_exhausted (source : String) :
    parseTemplate source ≠ .error .exhausted := by
  rw [parseTemplate]
  split
  · exact parseTokens_ne_exhausted _
  · rintro ⟨⟩

def Reader.least : Reader → Nat
  | .operations .. | .conditionals .. | .links .. | .optionalArguments .. | .tagArguments ..
  | .transOptions .. | .statements .. | .block .. => 0
  | .expression .. | .operand .. | .primary .. | .argumentList .. | .argument .. | .itemList ..
  | .entryList .. | .entryKey .. | .expressionList .. | .setNames | .closeTag | .tag ..
  | .transTag .. | .branches .. => 1

namespace Call

variable {c : Call}

theorem of_map_snd {α : Type} {x : Except ParseError (Reading α)} {us : List Token} {p : Prop}
    (h : x.map Prod.snd = .ok us) (hp : ∀ a, x = .ok (a, us) → p) : p := by
  cases x with
  | error e => cases h
  | ok r =>
    cases h
    exact hp r.1 rfl

theorem rest_passes {us : List Token} (h : c.rest = .ok us) :
    Passes c.reader.least c.tokens us := by
  have reads := ReadsByGrammar.all
  have builds := ReadsByStatements.all
  obtain ⟨reader, fuel, ts⟩ := c
  cases reader with
  | expression => exact of_map_snd h fun _ h => ((reads _).expression h).passes
  | operand => exact of_map_snd h fun _ h => ((reads _).operand h).passes
  | operations => exact of_map_snd h fun _ h => ((reads _).operations h).passes
  | conditionals => exact of_map_snd h fun _ h => ((reads _).conditionals h).passes
  | primary => exact of_map_snd h fun _ h => ((reads _).primary h).passes
  | links => exact of_map_snd h fun _ h => ((reads _).links h).passes
  | optionalArguments => exact of_map_snd h fun _ h => ((reads _).optionalArguments h).passes
  | argumentList => exact of_map_snd h fun _ h => ((reads _).argumentList h).passes
  | argument => exact of_map_snd h fun _ h => ((reads _).argument h).passes
  | itemList => exact of_map_snd h fun _ h => ((reads _).itemList h).passes
  | entryList => exact of_map_snd h fun _ h => ((reads _).entryList h).passes
  | entryKey => exact of_map_snd h fun _ h => ((reads _).entryKey h).passes
  | tagArguments => exact of_map_snd h fun _ h => (ExprPart.Reads.of_tagArguments h).passes
  | expressionList => exact of_map_snd h fun _ h => (ExprPart.Reads.of_expressionList h).passes
  | transOptions => exact of_map_snd h fun _ h => (ExprPart.Reads.of_transOptions h).passes
  | setNames => exact of_map_snd h fun _ h => .setNames h
  | closeTag => exact .closeTag h
  | statements => exact of_map_snd h fun _ h => ((builds _).statements h).passes
  | block => exact of_map_snd h fun _ h => ((builds _).block h).passes
  | tag => exact of_map_snd h fun _ h => ((builds _).tag h).passes
  | transTag => exact of_map_snd h fun _ h => ((builds _).transTag h).passes
  | branches => exact of_map_snd h fun _ h => ((builds _).branches h).passes

def SameFunction (c d : Call) : Prop := c.reader.ctorIdx = d.reader.ctorIdx

/-- A call goes on, and stops before the end token. Loops are calls of a function by itself, so
that `cycles` speaks of every further round of a loop as well. -/
structure Progresses (c : Call) : Prop where
  reads {us : List Token} : c.rest = .ok us → Passes c.reader.least c.tokens us ∧ EndsInEof us
  calls {d : Call} : Relation.TransGen Makes c d → Passes 0 c.tokens d.tokens ∧ EndsInEof d.tokens
  cycles {d : Call} :
    Relation.TransGen Makes c d → SameFunction c d → d.tokens.length < c.tokens.length
  depth {ds : List Call} : List.IsChain Makes (c :: ds) → ds.length ≤ 8 * c.tokens.length + 4
  /-- No calls but those of `Makes` use up fuel. -/
  complete : c.Stuck → c.fuel = 0 ∨ ∃ d, c.Makes d ∧ d.Stuck
  fuel : 8 * c.tokens.length + 4 < c.fuel → ¬c.Stuck

end Call

/-- The parser makes progress from any tokens that end in an end token: none of its functions
passes that token, and none comes back to itself before it has read one. So fuel that is linear in
the tokens never runs out, neither that of a single call nor that of a whole template. -/
theorem parser_progresses :
    (∀ c : Call, EndsInEof c.tokens → c.Progresses) ∧
      ∀ source, parseTemplate source ≠ .error .exhausted := by
  refine ⟨?_, parseTemplate_ne_exhausted⟩
  intro c hend
  exact {
    reads h := ⟨Call.rest_passes h, (Call.rest_passes h).endsInEof hend⟩
    calls h := ⟨Call.transGen_passes h, (Call.transGen_passes h).endsInEof hend⟩
    cycles h hsame := Call.length_lt_of_cycle h hsame.symm
    depth h := (Call.length_le_measure h).trans (Nat.add_le_add_left c.reader.rank_le _)
    complete := Call.Stuck.below
    fuel h := (Call.fueled_of_lt h).not_stuck }

/-- A filter with its subject is read up to the end token. -/
theorem parser_progresses_filter :
    let ts : List Token :=
      [⟨.name "a", 1⟩, ⟨.punctuation '|', 1⟩, ⟨.name "trans", 1⟩, ⟨.eof, 1⟩]
    EndsInEof ts ∧ Call.rest ⟨.expression 0 1, 37, ts⟩ = .ok [⟨.eof, 1⟩] ∧
      Passes 1 ts [⟨.eof, 1⟩] ∧ ¬Call.Stuck ⟨.expression 0 1, 37, ts⟩ := by
  intro ts
  have hrest : Call.rest ⟨.expression 0 1, 37, ts⟩ = .ok [⟨.eof, 1⟩] := by decide +kernel
  have h := parser_progresses.1 ⟨.expression 0 1, 37, ts⟩ rfl
  exact ⟨rfl, hrest, (h.reads hrest).1, h.fuel (by decide)⟩

end Phrasebook
