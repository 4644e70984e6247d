import Phrasebook.Proofs.Template.ExprProductions
import Phrasebook.Proofs.Template.StatementSteps
import Phrasebook.Proofs.Template.Stmt

namespace Phrasebook
namespace Stmt

variable {fuel level depth line : Nat} {ts us rest : List Token}

theorem first_of_opens {e : Expr} (h : Opens ts e.tokens rest) :
    (current ts).kind ≠ .tagEnd .block ∧ atMark ',' ts = false ∧ atMark '=' ts = false := by
  obtain ⟨k, ks, he, hend, hcomma, hequals⟩ := e.exists_tokens_eq_cons
  rw [he] at h
  obtain ⟨line, us, rfl, -⟩ := Opens.cons_iff.1 h
  exact ⟨hend, atMark_eq_false hcomma, atMark_eq_false hequals⟩

theorem length_lt_of_opens {e : Expr} (h : Opens ts e.tokens rest) :
    rest.length < ts.length := by
  obtain ⟨k, ks, he, -⟩ := e.exists_tokens_eq_cons
  have := h.length
  rw [he, List.length_cons] at this
  omega

variable {ks ls : List TokenKind} {kss : List (List TokenKind)}

theorem separated_singleton (ks : List TokenKind) : separated [ks] = ks := by
  simp [separated, List.intercalate]

theorem opens_separated (h : Opens ts (separated (ks :: ls :: kss)) rest) :
    ∃ line us, Opens ts ks (⟨.punctuation ',', line⟩ :: us) ∧
      Opens us (separated (ls :: kss)) rest := by
  rw [separated, List.intercalate_cons_cons, List.append_assoc] at h
  obtain ⟨us, hu, hc⟩ := Opens.append_iff.1 h
  obtain ⟨line, vs, rfl, hv⟩ := Opens.cons_iff.1 hc
  exact ⟨line, vs, hu, hv⟩

theorem exists_opens_of_separated (h : Opens ts (separated (ks :: kss)) rest) :
    ∃ us, Opens ts ks us := by
  cases kss with
  | nil => exact ⟨rest, separated_singleton ks ▸ h⟩
  | cons ls kss =>
    obtain ⟨line, us, hu, -⟩ := opens_separated h
    exact ⟨_, hu⟩

theorem yields_tagArguments {es : List Expr} (he : ∀ e ∈ es, level + 3 * e.node.height ≤ depth)
    (h : Opens ts (exprTokens es) (⟨.tagEnd .block, line⟩ :: rest)) (hf : ts.length ≤ fuel) :
    Yields depth (tagArguments fuel level ts)
      (es.map Expr.node, ⟨.tagEnd .block, line⟩ :: rest) := by
  induction es generalizing fuel ts with
  | nil =>
    obtain rfl := Opens.nil_iff.1 h
    obtain _ | fuel := fuel
    · cases hf
    exact .pure _
  | cons e es ih =>
    obtain ⟨hfirst, hothers⟩ := List.forall_mem_cons.1 he
    obtain ⟨us, hu⟩ := exists_opens_of_separated h
    obtain ⟨hend, hcomma, hequals⟩ := first_of_opens hu
    have hpos := length_lt_of_opens hu
    obtain _ | fuel := fuel
    · omega
    rw [tagArguments, if_neg hend, hcomma, hequals, if_neg (by decide)]
    cases es with
    | nil =>
      rw [exprTokens, List.map_singleton, separated_singleton] at h
      have hlt := length_lt_of_opens h
      refine (Expr.yields_wholeExpression h (exprEnds_tagEnd _ _ _) hfirst).bind ?_
      exact (ih hothers (Opens.nil_iff.2 rfl) (by omega)).bind (.pure _)
    | cons e' es =>
      obtain ⟨line', vs, hv, hvs⟩ := opens_separated h
      have hlt := length_lt_of_opens hv
      rw [List.length_cons] at hlt
      obtain _ | fuel := fuel
      · omega
      refine (Expr.yields_wholeExpression hv (exprEnds_mark (by decide) _ _) hfirst).bind ?_
      have hskip : tagArguments (fuel + 1) level (⟨.punctuation ',', line'⟩ :: vs) =
          tagArguments fuel level vs := by
        rw [tagArguments, if_neg (by rintro ⟨⟩), if_pos (by rfl)]
        rfl
      have hrest : Yields depth (tagArguments (fuel + 1) level (⟨.punctuation ',', line'⟩ :: vs))
          ((e' :: es).map Expr.node, ⟨.tagEnd .block, line⟩ :: rest) := by
        rw [hskip]
        exact ih hothers hvs (by omega)
      exact hrest.bind (.pure _)

theorem yields_expressionList {e : Expr} {es : List Expr}
    (he : ∀ e' ∈ e :: es, level + 3 * e'.node.height ≤ depth)
    (h : Opens ts (exprTokens (e :: es)) (⟨.tagEnd .block, line⟩ :: rest))
    (hf : ts.length ≤ fuel) :
    Yields depth (expressionList fuel level ts)
      ((e :: es).map Expr.node, ⟨.tagEnd .block, line⟩ :: rest) := by
  induction es generalizing e fuel ts with
  | nil =>
    rw [exprTokens, List.map_singleton, separated_singleton] at h
    have hlt := length_lt_of_opens h
    obtain _ | fuel := fuel
    · omega
    have hfirst := he e List.mem_cons_self
    rw [expressionList]
    exact (Expr.yields_wholeExpression h (exprEnds_tagEnd _ _ _) hfirst).bind (.pure _)
  | cons e' es ih =>
    obtain ⟨hfirst, hothers⟩ := List.forall_mem_cons.1 he
    obtain ⟨line', vs, hu, hv⟩ := opens_separated h
    have hlt := length_lt_of_opens hu
    rw [List.length_cons] at hlt
    obtain _ | fuel := fuel
    · omega
    have hend : (current vs).kind ≠ .tagEnd .block := by
      obtain ⟨ws, hw⟩ := exists_opens_of_separated hv
      exact (first_of_opens hw).1
    rw [expressionList]
    refine (Expr.yields_wholeExpression hu (exprEnds_mark (by decide) _ _) hfirst).bind ?_
    show Yields depth (if (current vs).kind = .tagEnd .block then _ else _) _
    rw [if_neg hend]
    exact (ih hothers hv (by omega)).bind (.pure _)

theorem setNames_nameTokens {name : String} {names : List String}
    (h : Opens ts (nameTokens name names) rest) (hr : atMark ',' rest = false) :
    setNames ts = .ok (name :: names, rest) := by
  induction names generalizing name ts with
  | nil =>
    rw [nameTokens, List.map_singleton, separated_singleton] at h
    obtain ⟨line, vs, rfl, hv⟩ := Opens.cons_iff.1 h
    obtain rfl := Opens.nil_iff.1 hv
    rw [setNames]
    rintro line' ts rfl
    cases hr
  | cons name' names ih =>
    obtain ⟨line', vs, hu, hv⟩ := opens_separated h
    obtain ⟨line, ws, rfl, hw⟩ := Opens.cons_iff.1 hu
    obtain rfl := Opens.nil_iff.1 hw
    rw [setNames, ih hv]
    rfl

theorem loopTargets_targetTokens {targets : LoopTargets}
    (h : Opens ts (targetTokens targets) (⟨.name "in", line⟩ :: rest)) :
    loopTargets ts = .ok (targets, rest) := by
  obtain ⟨value, _ | key⟩ := targets
  · obtain ⟨line₁, us, rfl, h₁⟩ := Opens.cons_iff.1 h
    obtain rfl := Opens.nil_iff.1 h₁
    rfl
  · obtain ⟨line₁, us, rfl, h₁⟩ := Opens.cons_iff.1 h
    obtain ⟨line₂, vs, rfl, h₂⟩ := Opens.cons_iff.1 h₁
    obtain ⟨line₃, ws, rfl, h₃⟩ := Opens.cons_iff.1 h₂
    obtain rfl := Opens.nil_iff.1 h₃
    rfl

theorem exprEnds_clause {word : String} {o : Option Expr} {us : List Token}
    (hword : word ∈ ["if", "with", "from", "into"]) (h : Opens ts (clauseTokens word o) us)
    (hu : ExprEnds us) : ExprEnds ts := by
  cases o with
  | none => exact Opens.nil_iff.1 h ▸ hu
  | some e =>
    obtain ⟨line, vs, rfl, -⟩ := Opens.cons_iff.1 h
    exact ⟨decide_eq_true hword, by rintro ⟨⟩⟩

theorem exprEnds_clausesTokens {clauses : TransClauses}
    (h : Opens ts (clausesTokens clauses) (⟨.tagEnd .block, line⟩ :: rest)) : ExprEnds ts := by
  obtain ⟨us, hv, hu⟩ := Opens.append_iff.1 h
  obtain ⟨vs, hd, hl⟩ := Opens.append_iff.1 hu
  have hlocale := exprEnds_clause (by decide) hl (exprEnds_tagEnd _ _ _)
  exact exprEnds_clause (by decide) hv (exprEnds_clause (by decide) hd hlocale)

theorem yields_loopCondition {o : Option Expr}
    (ho : ∀ e ∈ o, level + 3 * e.node.height ≤ depth)
    (h : Opens ts (clauseTokens "if" o) (⟨.tagEnd .block, line⟩ :: rest)) :
    Yields depth (loopCondition level ts) (o.map Expr.node, ⟨.tagEnd .block, line⟩ :: rest) := by
  cases o with
  | none =>
    obtain rfl := Opens.nil_iff.1 h
    exact .pure _
  | some e =>
    obtain ⟨line', vs, rfl, hv⟩ := Opens.cons_iff.1 h
    rw [loopCondition, if_pos (by rfl)]
    exact (Expr.yields_wholeExpression hv (exprEnds_tagEnd _ _ _) (ho e rfl)).bind (.pure _)

theorem yields_transOptions_into {vars domain : Option Node} {locale : Option Expr}
    (hl : ∀ e ∈ locale, level + 3 * e.node.height ≤ depth)
    (h : Opens ts (clauseTokens "into" locale) (⟨.tagEnd .block, line⟩ :: rest))
    (hf : ts.length ≤ fuel) :
    Yields depth (transOptions fuel level ⟨vars, domain, none⟩ ts)
      (⟨vars, domain, locale.map Expr.node⟩, ⟨.tagEnd .block, line⟩ :: rest) := by
  obtain _ | fuel := fuel
  · have := h.length
    rw [List.length_cons] at this
    omega
  cases locale with
  | none =>
    obtain rfl := Opens.nil_iff.1 h
    exact .pure _
  | some e =>
    obtain ⟨line', us, rfl, hu⟩ := Opens.cons_iff.1 h
    have hlt := length_lt_of_opens hu
    rw [List.length_cons] at hf hlt
    obtain _ | fuel := fuel
    · omega
    rw [transOptions, if_neg (by exact Bool.false_ne_true), if_neg (by exact Bool.false_ne_true),
      if_pos (by rfl)]
    exact (Expr.yields_wholeExpression hu (exprEnds_tagEnd _ _ _) (hl e rfl)).bind (.pure _)

theorem yields_transOptions_from {vars : Option Node} {domain locale : Option Expr}
    (hd : ∀ e ∈ domain, level + 3 * e.node.height ≤ depth)
    (hl : ∀ e ∈ locale, level + 3 * e.node.height ≤ depth)
    (h : Opens ts (clauseTokens "from" domain ++ clauseTokens "into" locale)
      (⟨.tagEnd .block, line⟩ :: rest))
    (hf : ts.length ≤ fuel) :
    Yields depth (transOptions fuel level ⟨vars, none, none⟩ ts)
      (⟨vars, domain.map Expr.node, locale.map Expr.node⟩, ⟨.tagEnd .block, line⟩ :: rest) := by
  obtain ⟨us, hu, hv⟩ := Opens.append_iff.1 h
  cases domain with
  | none =>
    obtain rfl := Opens.nil_iff.1 hu
    exact yields_transOptions_into hl hv hf
  | some e =>
    obtain ⟨line', ws, rfl, hw⟩ := Opens.cons_iff.1 hu
    have hlt := length_lt_of_opens hw
    rw [List.length_cons] at hf
    obtain _ | fuel := fuel
    · omega
    have hends := exprEnds_clause (by decide) hv (exprEnds_tagEnd _ _ _)
    rw [transOptions, if_neg (by exact Bool.false_ne_true), if_pos (by rfl)]
    exact (Expr.yields_wholeExpression hw hends (hd e rfl)).bind
      (yields_transOptions_into hl hv (by omega))

theorem yields_transOptions {clauses : TransClauses}
    (hv : ∀ e ∈ clauses.vars, level + 3 * e.node.height ≤ depth)
    (hd : ∀ e ∈ clauses.domain, level + 3 * e.node.height ≤ depth)
    (hl : ∀ e ∈ clauses.locale, level + 3 * e.node.height ≤ depth)
    (h : Opens ts (clausesTokens clauses) (⟨.tagEnd .block, line⟩ :: rest))
    (hf : ts.length ≤ fuel) :
    Yields depth (transOptions fuel level {} ts)
      (⟨clauses.vars.map Expr.node, clauses.domain.map Expr.node, clauses.locale.map Expr.node⟩,
        ⟨.tagEnd .block, line⟩ :: rest) := by
  obtain ⟨vars, domain, locale⟩ := clauses
  obtain ⟨us, hu, ho⟩ := Opens.append_iff.1 h
  cases vars with
  | none =>
    obtain rfl := Opens.nil_iff.1 hu
    exact yields_transOptions_from hd hl ho hf
  | some e =>
    obtain ⟨line', ws, rfl, hw⟩ := Opens.cons_iff.1 hu
    have hlt := length_lt_of_opens hw
    rw [List.length_cons] at hf
    obtain _ | fuel := fuel
    · omega
    have hends : ExprEnds us := by
      obtain ⟨vs, hd', hl'⟩ := Opens.append_iff.1 ho
      exact exprEnds_clause (by decide) hd'
        (exprEnds_clause (by decide) hl' (exprEnds_tagEnd _ _ _))
    rw [transOptions, if_pos (by rfl)]
    exact (Expr.yields_wholeExpression hw hends (hv e rfl)).bind
      (yields_transOptions_from hd hl ho (by omega))

end Stmt
end Phrasebook
