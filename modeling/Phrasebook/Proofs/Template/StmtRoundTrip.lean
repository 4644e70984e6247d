import Phrasebook.Proofs.Template.StmtClauses

namespace Phrasebook
namespace Stmt

/-- A statement is read back in front of whatever statements are read behind it. A node takes three
levels of nesting at most. -/
def ReadsBack (s : Stmt) : Prop :=
  ∀ ⦃fuel level depth : Nat⦄ ⦃closing : List String⦄ ⦃ts us rest : List Token⦄ ⦃ns : List Node⦄
    ⦃close : Option String⦄, Opens ts s.tokens us →
    (∀ name ∈ closing, isContinuation name = true) → 8 * ts.length ≤ fuel →
    level + 3 * s.node.height ≤ depth →
    Yields depth (statements fuel level closing us) ((ns, close), rest) →
    Yields depth (statements (fuel + 1) level closing ts) ((s.node :: ns, close), rest)

def Fits (level depth : Nat) (s : Stmt) : Prop :=
  s.ReadsBack ∧ level + 3 * s.node.height ≤ depth

theorem fits_of_mem_inner {s p : Stmt} {level depth : Nat} (hs : ∀ p ∈ s.inner, p.ReadsBack)
    (hd : level + 3 * s.node.height ≤ depth) (h : p ∈ s.inner) : p.Fits (level + 1) depth := by
  have := height_lt_of_mem_inner h
  exact ⟨hs p h, by omega⟩

theorem room_of_mem_exprs {s : Stmt} {e : Expr} {level depth : Nat}
    (hd : level + 3 * s.node.height ≤ depth) (h : e ∈ s.exprs) :
    level + 3 * e.node.height ≤ depth := by
  have := height_lt_of_mem_exprs h
  omega

variable {fuel level depth line : Nat} {closing : List String} {ts us vs rest : List Token}

theorem length_lt_of_opens_tokens {s : Stmt} (h : Opens ts s.tokens rest) :
    rest.length < ts.length := by
  have hpos : 0 < s.tokens.length := by
    cases s with
    | trans count clauses content => cases count <;> exact Nat.succ_pos _
    | _ => exact Nat.succ_pos _
  have := h.length
  omega

theorem yields_contentTokens {ss : List Stmt} {close : Option String}
    (hs : ∀ s ∈ ss, s.Fits level depth) (h : Opens ts (contentTokens ss) us)
    (hc : ∀ name ∈ closing, isContinuation name = true) (hf : 8 * ts.length + 1 ≤ fuel)
    (hu : ∀ fuel, 0 < fuel →
      Yields depth (statements fuel level closing us) (([], close), rest)) :
    Yields depth (statements fuel level closing ts) ((nodes ss, close), rest) := by
  induction ss generalizing fuel ts with
  | nil =>
    obtain rfl := Opens.nil_iff.1 h
    exact hu fuel (by omega)
  | cons s ss ih =>
    obtain ⟨hfirst, hothers⟩ := List.forall_mem_cons.1 hs
    obtain ⟨vs, ht, hv⟩ := Opens.append_iff.1 h
    have hlt := length_lt_of_opens_tokens ht
    obtain _ | fuel := fuel
    · omega
    exact hfirst.1 ht hc (by omega) hfirst.2 (ih hothers hv (by omega))

theorem yields_block {ss : List Stmt} {name : String} {line' : Nat}
    (hs : ∀ s ∈ ss, s.Fits (level + 1) depth)
    (h : Opens ts (contentTokens ss) (⟨.tagStart .block, line⟩ :: ⟨.name name, line'⟩ :: rest))
    (hname : name ∈ closing) (hc : ∀ name ∈ closing, isContinuation name = true)
    (hf : 8 * ts.length + 2 ≤ fuel) (hd : level + 1 ≤ depth) :
    Yields depth (block fuel level closing ts) ((nodes ss, some name), rest) := by
  obtain _ | fuel := fuel
  · omega
  rw [block]
  refine (Yields.descend hd ts).bind (yields_contentTokens hs h hc (by omega) ?_)
  intro fuel hf
  obtain _ | fuel := fuel
  · cases hf
  exact yields_statements_close hname

theorem opens_tagTokens {name : String} {ks : List TokenKind}
    (h : Opens ts (tagTokens name ks) rest) :
    ∃ line line' line'' us, ts = ⟨.tagStart .block, line⟩ :: ⟨.name name, line'⟩ :: us ∧
      Opens us ks (⟨.tagEnd .block, line''⟩ :: rest) := by
  obtain ⟨line, us, rfl, hu⟩ := Opens.cons_iff.1 h
  obtain ⟨line', vs, rfl, hv⟩ := Opens.cons_iff.1 hu
  obtain ⟨ws, hw, he⟩ := Opens.append_iff.1 hv
  obtain ⟨line'', xs, rfl, hx⟩ := Opens.cons_iff.1 he
  obtain rfl := Opens.nil_iff.1 hx
  exact ⟨line, line', line'', vs, rfl, hw⟩

theorem readsBack_of_tag {s : Stmt} {name : String} {ks ls : List TokenKind}
    (ht : s.tokens = tagTokens name ks ++ ls) (hname : isContinuation name = false)
    (h : ∀ ⦃fuel level depth line line' : Nat⦄ ⦃ts us rest : List Token⦄,
      Opens ts ks (⟨.tagEnd .block, line'⟩ :: us) → Opens us ls rest →
      8 * ts.length + 7 ≤ fuel → level + 3 * s.node.height ≤ depth →
      Yields depth (tag (fuel + 1) level name line ts) (s.node, rest)) : s.ReadsBack := by
  intro fuel level depth closing ts vs rest ns close ho hc hf hd hvs
  rw [ht] at ho
  obtain ⟨us, hts, hus⟩ := Opens.append_iff.1 ho
  obtain ⟨line, line', line'', ws, rfl, hks⟩ := opens_tagTokens hts
  rw [List.length_cons, List.length_cons] at hf
  obtain _ | fuel := fuel
  · omega
  -- Tags that close the body around this one have names of another kind.
  have hopen : name ∉ closing := fun hm => by
    cases hname.symm.trans (hc name hm)
  rw [statements]
  refine (Yields.pure (name, ws)).bind ?_
  show Yields depth (if name ∈ closing then _ else _) _
  rw [if_neg hopen]
  exact (h hks hus (by omega) hd).bind (hvs.bind (.pure _))

theorem opens_close {ss : List Stmt} {name : String}
    (h : Opens ts (contentTokens ss ++ tagTokens name []) rest) :
    ∃ line line' line'', Opens ts (contentTokens ss) (⟨.tagStart .block, line⟩ ::
      ⟨.name name, line'⟩ :: ⟨.tagEnd .block, line''⟩ :: rest) := by
  obtain ⟨us, ht, hu⟩ := Opens.append_iff.1 h
  obtain ⟨line, line', line'', vs, rfl, hv⟩ := opens_tagTokens hu
  obtain rfl := Opens.nil_iff.1 hv
  exact ⟨line, line', line'', ht⟩

theorem opens_else {content ss : List Stmt} {name : String}
    (h : Opens ts
      (contentTokens content ++ (otherwiseTokens (some ss) ++ tagTokens name [])) rest) :
    ∃ line line' line'' us, Opens ts (contentTokens content) (⟨.tagStart .block, line⟩ ::
      ⟨.name "else", line'⟩ :: ⟨.tagEnd .block, line''⟩ :: us) ∧
      Opens us (contentTokens ss ++ tagTokens name []) rest := by
  obtain ⟨us, ht, hu⟩ := Opens.append_iff.1 h
  rw [otherwiseTokens, List.append_assoc] at hu
  obtain ⟨vs, hv, hvs⟩ := Opens.append_iff.1 hu
  obtain ⟨line, line', line'', ws, rfl, hw⟩ := opens_tagTokens hv
  obtain rfl := Opens.nil_iff.1 hw
  exact ⟨line, line', line'', vs, ht, hvs⟩

theorem readsBack_text (data : String) : (text data).ReadsBack := by
  intro fuel level depth closing ts us rest ns close ho hc hf hd hus
  obtain ⟨line, vs, rfl, hv⟩ := Opens.cons_iff.1 ho
  obtain rfl := Opens.nil_iff.1 hv
  exact yields_statements_text data hus

theorem readsBack_print (e : Expr) : (print e).ReadsBack := by
  intro fuel level depth closing ts us rest ns close ho hc hf hd hus
  obtain ⟨line, vs, rfl, hv⟩ := Opens.cons_iff.1 ho
  obtain ⟨ws, he, hw⟩ := Opens.append_iff.1 hv
  obtain ⟨line', xs, rfl, hx⟩ := Opens.cons_iff.1 hw
  obtain rfl := Opens.nil_iff.1 hx
  have hroom := room_of_mem_exprs (s := print e) hd (List.mem_singleton.2 rfl)
  exact yields_statements_print (Expr.yields_wholeExpression he (exprEnds_tagEnd _ _ _) hroom) hus

theorem readsBack_blockTag {name : String} {content : List Stmt}
    (hs : ∀ s ∈ content, s.ReadsBack) : (blockTag name content).ReadsBack := by
  refine readsBack_of_tag rfl (by decide) ?_
  intro fuel level depth line line' ts us rest ht hu hf hd
  obtain ⟨line₁, vs, rfl, hv⟩ := Opens.cons_iff.1 ht
  obtain rfl := Opens.nil_iff.1 hv
  obtain ⟨line₂, line₃, line₄, hcontent⟩ := opens_close hu
  have hpos := (blockTag name content).node.height_pos
  simp only [List.length_cons] at hf
  have hfits : ∀ s ∈ content, s.Fits (level + 1) depth := fun s h =>
    fits_of_mem_inner (s := blockTag name content) hs hd h
  rw [tag, if_neg (by decide), if_neg (by decide), if_neg (by decide), if_neg (by decide),
    if_pos rfl]
  refine (Yields.pure (name, _)).bind ?_
  show Yields depth (if TokenKind.tagEnd .block = .tagEnd .block then _ else _) _
  rw [if_pos rfl]
  exact (yields_block hfits hcontent (by decide) (by decide) (by omega) (by omega)).bind (.pure _)

theorem yields_branches {more : List (Expr × List Stmt)} {content : List Stmt}
    {otherwise : Option (List Stmt)} {n : Node} (hd : level + 1 ≤ depth)
    (hcontent : ∀ s ∈ content, s.Fits (level + 1) depth)
    (hmore : ∀ s ∈ more.flatMap Prod.snd, s.Fits (level + 1) depth)
    (hconditions : ∀ e ∈ more.map Prod.fst, level + 3 * e.node.height ≤ depth)
    (hotherwise : ∀ s ∈ otherwise.getD [], s.Fits (level + 1) depth)
    (h : Opens ts (contentTokens content ++ (branchTokens more ++
      (otherwiseTokens otherwise ++ tagTokens "endif" []))) rest)
    (hf : 8 * ts.length + 3 ≤ fuel) :
    Yields depth (branches fuel level n ts)
      ((n :: .body (nodes content) :: branchNodes more, otherwiseNode otherwise), rest) := by
  induction more generalizing content n ts fuel with
  | nil =>
    obtain _ | fuel := fuel
    · omega
    cases otherwise with
    | none =>
      obtain ⟨line, line', line'', ht⟩ := opens_close h
      rw [branches]
      refine (yields_block hcontent ht (by decide) (by decide) (by omega) hd).bind ?_
      exact .pure _
    | some ss =>
      obtain ⟨line, line', line'', us, ht, hu⟩ := opens_else h
      obtain ⟨line₁, line₂, line₃, hus⟩ := opens_close hu
      have hlen := ht.length
      simp only [List.length_cons] at hlen
      rw [branches]
      refine (yields_block hcontent ht (by decide) (by decide) (by omega) hd).bind ?_
      refine (Yields.of_eq (expect_cons _ line'' us)).bind ?_
      refine (yields_block hotherwise hus (by decide) (by decide) (by omega) hd).bind ?_
      exact .pure _
  | cons b more ih =>
    obtain ⟨c, ss⟩ := b
    obtain ⟨hc, hconditions'⟩ := List.forall_mem_cons.1 hconditions
    rw [List.flatMap_cons, List.forall_mem_append] at hmore
    rw [branchTokens, List.append_assoc, List.append_assoc] at h
    obtain ⟨us, ht, hu⟩ := Opens.append_iff.1 h
    obtain ⟨vs, hv, hvs⟩ := Opens.append_iff.1 hu
    obtain ⟨line, line', line'', ws, rfl, hw⟩ := opens_tagTokens hv
    have hlen := ht.length
    have hlt := length_lt_of_opens hw
    simp only [List.length_cons] at hlen hlt
    obtain _ | fuel := fuel
    · omega
    rw [branches]
    refine (yields_block hcontent ht (by decide) (by decide) (by omega) hd).bind ?_
    refine (Expr.yields_wholeExpression hw (exprEnds_tagEnd _ _ _) hc).bind ?_
    refine (Yields.of_eq (expect_cons _ line'' vs)).bind ?_
    exact (ih hmore.1 hmore.2 hconditions' hvs (by omega)).bind (.pure _)

theorem readsBack_ifTag {c : Expr} {content : List Stmt} {more : List (Expr × List Stmt)}
    {otherwise : Option (List Stmt)}
    (hs : ∀ s ∈ (ifTag c content more otherwise).inner, s.ReadsBack) :
    (ifTag c content more otherwise).ReadsBack := by
  refine readsBack_of_tag rfl (by decide) ?_
  intro fuel level depth line line' ts us rest ht hu hf hd
  have hpos := (ifTag c content more otherwise).node.height_pos
  have hlt := length_lt_of_opens ht
  rw [List.length_cons] at hlt
  have hfits : ∀ s ∈ content ++ (more.flatMap Prod.snd ++ otherwise.getD []),
      s.Fits (level + 1) depth := fun s h => fits_of_mem_inner hs hd h
  have hexprs : ∀ e ∈ c :: more.map Prod.fst, level + 3 * e.node.height ≤ depth := fun e h =>
    room_of_mem_exprs hd h
  obtain ⟨hc, hconditions⟩ := List.forall_mem_cons.1 hexprs
  rw [List.forall_mem_append, List.forall_mem_append] at hfits
  obtain ⟨hcontent, hmore, hotherwise⟩ := hfits
  rw [tag, if_neg (by decide), if_neg (by decide), if_pos rfl]
  refine (Expr.yields_wholeExpression ht (exprEnds_tagEnd _ _ _) hc).bind ?_
  refine (Yields.of_eq (expect_cons _ line' us)).bind ?_
  exact (yields_branches (by omega) hcontent hmore hconditions hotherwise hu (by omega)).bind
    (.pure _)

theorem readsBack_forTag {targets : LoopTargets} {sequence : Expr} {condition : Option Expr}
    {content : List Stmt} {otherwise : Option (List Stmt)}
    (hs : ∀ s ∈ (forTag targets sequence condition content otherwise).inner, s.ReadsBack) :
    (forTag targets sequence condition content otherwise).ReadsBack := by
  refine readsBack_of_tag rfl (by decide) ?_
  intro fuel level depth line line' ts us rest ht hu hf hd
  have hpos := (forTag targets sequence condition content otherwise).node.height_pos
  have hfits : ∀ s ∈ content ++ otherwise.getD [], s.Fits (level + 1) depth := fun s h =>
    fits_of_mem_inner hs hd h
  have hexprs : ∀ e ∈ sequence :: condition.toList, level + 3 * e.node.height ≤ depth :=
    fun e h => room_of_mem_exprs hd h
  obtain ⟨hsequence, hcondition⟩ := List.forall_mem_cons.1 hexprs
  obtain ⟨hcontent, hotherwise⟩ := List.forall_mem_append.1 hfits
  obtain ⟨vs, htargets, hv⟩ := Opens.append_iff.1 ht
  obtain ⟨line₁, ws, rfl, hw⟩ := Opens.cons_iff.1 hv
  obtain ⟨xs, hseq, hif⟩ := Opens.append_iff.1 hw
  have hlen := htargets.length
  have hlt := length_lt_of_opens hseq
  have hlen' := hif.length
  rw [List.length_cons] at hlen hlen'
  rw [tag, if_neg (by decide), if_neg (by decide), if_neg (by decide), if_pos rfl]
  refine (Yields.of_eq (loopTargets_targetTokens htargets)).bind ?_
  have hends := exprEnds_clause (by decide) hif (exprEnds_tagEnd _ _ _)
  refine (Expr.yields_wholeExpression hseq hends hsequence).bind ?_
  refine (yields_loopCondition (fun e h => hcondition e (Option.mem_toList.2 h)) hif).bind ?_
  refine (Yields.of_eq (expect_cons _ line' us)).bind ?_
  cases otherwise with
  | none =>
    obtain ⟨line₂, line₃, line₄, hus⟩ := opens_close hu
    refine (yields_block hcontent hus (by decide) (by decide) (by omega) (by omega)).bind ?_
    exact .pure _
  | some ss =>
    obtain ⟨line₂, line₃, line₄, ys, hus, hy⟩ := opens_else hu
    obtain ⟨line₅, line₆, line₇, hys⟩ := opens_close hy
    have hlen'' := hus.length
    simp only [List.length_cons] at hlen''
    refine (yields_block hcontent hus (by decide) (by decide) (by omega) (by omega)).bind ?_
    refine (Yields.of_eq (expect_cons _ line₄ ys)).bind ?_
    refine (yields_block hotherwise hys (by decide) (by decide) (by omega) (by omega)).bind ?_
    exact .pure _

theorem readsBack_setValues {name : String} {names : List String} {value : Expr}
    {values : List Expr} : (setValues name names value values).ReadsBack := by
  refine readsBack_of_tag (List.append_nil _).symm (by decide) ?_
  intro fuel level depth line line' ts us rest ht hu hf hd
  obtain rfl := Opens.nil_iff.1 hu
  obtain ⟨vs, hnames, hv⟩ := Opens.append_iff.1 ht
  obtain ⟨line₁, ws, rfl, hvalues⟩ := Opens.cons_iff.1 hv
  have hexprs : ∀ e ∈ value :: values, level + 3 * e.node.height ≤ depth := fun e h =>
    room_of_mem_exprs (s := setValues name names value values) hd h
  rw [tag, if_neg (by decide), if_neg (by decide), if_neg (by decide), if_neg (by decide),
    if_neg (by decide), if_pos rfl]
  refine (Yields.of_eq (setNames_nameTokens hnames rfl)).bind ?_
  refine (yields_expressionList hexprs hvalues (Nat.le_succ _)).bind ?_
  exact .pure _

theorem readsBack_setContent {name : String} {names : List String} {content : List Stmt}
    (hs : ∀ s ∈ content, s.ReadsBack) : (setContent name names content).ReadsBack := by
  refine readsBack_of_tag rfl (by decide) ?_
  intro fuel level depth line line' ts us rest ht hu hf hd
  obtain ⟨line₁, line₂, line₃, hcontent⟩ := opens_close hu
  have hpos := (setContent name names content).node.height_pos
  have hlen := ht.length
  rw [List.length_cons] at hlen
  have hfits : ∀ s ∈ content, s.Fits (level + 1) depth := fun s h =>
    fits_of_mem_inner (s := setContent name names content) hs hd h
  rw [tag, if_neg (by decide), if_neg (by decide), if_neg (by decide), if_neg (by decide),
    if_neg (by decide), if_pos rfl]
  refine (Yields.of_eq (setNames_nameTokens ht rfl)).bind ?_
  refine (Yields.of_eq (expect_cons _ line' us)).bind ?_
  exact (yields_block hfits hcontent (by decide) (by decide) (by omega) (by omega)).bind (.pure _)

theorem readsBack_paired {name : String} {known : name ∈ pairedTags} {arguments : List Expr}
    {content : List Stmt} (hs : ∀ s ∈ content, s.ReadsBack) :
    (paired name known arguments content).ReadsBack := by
  have hnames : ∀ name ∈ pairedTags, isContinuation name = false ∧
      isContinuation ("end" ++ name) = true ∧
      name ∉ ["trans", "transchoice", "if", "for", "block", "set"] := by decide
  obtain ⟨hname, hclose, hkeyword⟩ := hnames name known
  simp only [List.mem_cons, List.not_mem_nil, or_false, not_or] at hkeyword
  obtain ⟨h₁, h₂, h₃, h₄, h₅, h₆⟩ := hkeyword
  refine readsBack_of_tag rfl hname ?_
  intro fuel level depth line line' ts us rest ht hu hf hd
  obtain ⟨line₁, line₂, line₃, hcontent⟩ := opens_close hu
  have hpos := (paired name known arguments content).node.height_pos
  have hlen := ht.length
  rw [List.length_cons] at hlen
  have hfits : ∀ s ∈ content, s.Fits (level + 1) depth := fun s h =>
    fits_of_mem_inner (s := paired name known arguments content) hs hd h
  have hexprs : ∀ e ∈ arguments, level + 3 * e.node.height ≤ depth := fun e h =>
    room_of_mem_exprs (s := paired name known arguments content) hd h
  rw [tag, if_neg h₁, if_neg h₂, if_neg h₃, if_neg h₄, if_neg h₅, if_neg h₆, if_pos known]
  refine (yields_tagArguments hexprs ht (Nat.le_succ _)).bind ?_
  refine (Yields.of_eq (expect_cons _ line' us)).bind ?_
  exact (yields_block hfits hcontent (List.mem_singleton.2 rfl) (List.forall_mem_singleton.2 hclose)
    (by omega) (by omega)).bind (.pure _)

theorem readsBack_loose {tag : LooseTag} {arguments : List Expr} :
    (loose tag arguments).ReadsBack := by
  have hkeyword := tag.keyword
  simp only [List.mem_cons, List.not_mem_nil, or_false, not_or] at hkeyword
  obtain ⟨h₁, h₂, h₃, h₄, h₅, h₆⟩ := hkeyword
  refine readsBack_of_tag (List.append_nil _).symm tag.free ?_
  intro fuel level depth line line' ts us rest ht hu hf hd
  obtain rfl := Opens.nil_iff.1 hu
  have hexprs : ∀ e ∈ arguments, level + 3 * e.node.height ≤ depth := fun e h =>
    room_of_mem_exprs (s := loose tag arguments) hd h
  have hfree : ¬isContinuation tag.name = true := by
    rw [tag.free]
    exact Bool.false_ne_true
  rw [Phrasebook.tag, if_neg h₁, if_neg h₂, if_neg h₃, if_neg h₄, if_neg h₅, if_neg h₆,
    if_neg tag.unpaired, if_neg hfree]
  exact (yields_tagArguments hexprs ht (Nat.le_succ _)).bind (.pure _)

theorem transBody_text (start : Nat) (data : String) :
    transBody start [.text data] = .ok (.text data) := by
  simp [transBody, isText, Node.literalText?, String.join]

theorem yields_block_trans {content : TransContent} {closing : String} {line line' start : Nat}
    (h : Opens ts (transContentTokens content)
      (⟨.tagStart .block, line⟩ :: ⟨.name closing, line'⟩ :: rest))
    (hf : 8 * ts.length + 2 ≤ fuel) (hd : level + 1 + 3 * content.node.height ≤ depth) :
    ∃ n, Yields depth (block fuel level [closing] ts) (([n], some closing), rest) ∧
      transBody start [n] = .ok content.node := by
  have hlen := h.length
  simp only [List.length_cons] at hlen
  obtain ⟨fuel, rfl⟩ : ∃ f, fuel = f + 3 := ⟨fuel - 3, by omega⟩
  rw [block]
  cases content with
  | text data =>
    obtain ⟨line₁, us, rfl, hu⟩ := Opens.cons_iff.1 h
    obtain rfl := Opens.nil_iff.1 hu
    refine ⟨.text data, (Yields.descend (by omega) _).bind ?_, transBody_text start data⟩
    exact yields_statements_text data (yields_statements_close (List.mem_singleton.2 rfl))
  | print e =>
    obtain ⟨line₁, us, rfl, hu⟩ := Opens.cons_iff.1 h
    obtain ⟨vs, he, hv⟩ := Opens.append_iff.1 hu
    obtain ⟨line₂, ws, rfl, hw⟩ := Opens.cons_iff.1 hv
    obtain rfl := Opens.nil_iff.1 hw
    refine ⟨.print e.node, (Yields.descend (by omega) _).bind ?_, rfl⟩
    exact yields_statements_print (Expr.yields_wholeExpression he (exprEnds_tagEnd _ _ _) hd)
      (yields_statements_close (List.mem_singleton.2 rfl))

theorem yields_transTag {count : Option Node} {clauses : TransClauses} {content : TransContent}
    {closing : String} {start line : Nat}
    (hv : ∀ e ∈ clauses.vars, level + 3 * e.node.height ≤ depth)
    (hd : ∀ e ∈ clauses.domain, level + 3 * e.node.height ≤ depth)
    (hl : ∀ e ∈ clauses.locale, level + 3 * e.node.height ≤ depth)
    (ht : Opens ts (clausesTokens clauses) (⟨.tagEnd .block, line⟩ :: us))
    (hu : Opens us (transContentTokens content ++ tagTokens closing []) rest)
    (hf : 8 * ts.length + 3 ≤ fuel) (hlevel : level + 1 + 3 * content.node.height ≤ depth) :
    Yields depth (transTag fuel level closing count start ts)
      (.trans content.node (clauses.domain.map Expr.node) (clauses.vars.map Expr.node) count
        (clauses.locale.map Expr.node), rest) := by
  obtain _ | fuel := fuel
  · omega
  obtain ⟨vs, hcontent, hclose⟩ := Opens.append_iff.1 hu
  obtain ⟨line₁, line₂, line₃, ws, rfl, hw⟩ := opens_tagTokens hclose
  obtain rfl := Opens.nil_iff.1 hw
  have hlen := ht.length
  rw [List.length_cons] at hlen
  obtain ⟨n, hblock, hbody⟩ : ∃ n, Yields depth (block fuel level [closing] us)
      (([n], some closing), _) ∧ transBody start [n] = .ok content.node :=
    yields_block_trans hcontent (by omega) hlevel
  rw [transTag]
  refine (yields_transOptions hv hd hl ht (Nat.le_succ _)).bind ?_
  refine (Yields.of_eq (expect_cons _ line us)).bind (hblock.bind ?_)
  have hend : closeTag (⟨.tagEnd .block, line₃⟩ :: rest) = .ok rest := rfl
  refine (Yields.of_eq hend).bind ?_
  exact (Yields.of_eq hbody).bind (.pure _)

theorem readsBack_trans {count : Option Expr} {clauses : TransClauses} {content : TransContent} :
    (trans count clauses content).ReadsBack := by
  have hcontent : content.node.height < (trans count clauses content).node.height :=
    Node.height_lt_of_mem_children List.mem_cons_self
  have hclauses : ∀ {level depth : Nat},
      level + 3 * (trans count clauses content).node.height ≤ depth →
      (∀ e ∈ clauses.vars, level + 3 * e.node.height ≤ depth) ∧
      (∀ e ∈ clauses.domain, level + 3 * e.node.height ≤ depth) ∧
      (∀ e ∈ clauses.locale, level + 3 * e.node.height ≤ depth) := by
    intro level depth hd
    refine ⟨fun e h => ?_, fun e h => ?_, fun e h => ?_⟩ <;>
    · apply room_of_mem_exprs hd
      rw [Option.mem_def] at h
      simp [exprs, h]
  cases count with
  | none =>
    refine readsBack_of_tag rfl (by decide) ?_
    intro fuel level depth line line' ts us rest ht hu hf hd
    obtain ⟨hv, hdomain, hl⟩ := hclauses hd
    rw [tag, if_pos rfl]
    exact yields_transTag hv hdomain hl ht hu (by omega) (by omega)
  | some count =>
    refine readsBack_of_tag rfl (by decide) ?_
    intro fuel level depth line line' ts us rest ht hu hf hd
    obtain ⟨hv, hdomain, hl⟩ := hclauses hd
    obtain ⟨vs, hcount, hoptions⟩ := Opens.append_iff.1 ht
    have hlt := length_lt_of_opens hcount
    rw [tag, if_neg (by decide), if_pos rfl]
    have hends := exprEnds_clausesTokens hoptions
    have hroom := room_of_mem_exprs (s := trans (some count) clauses content) hd List.mem_cons_self
    refine (Expr.yields_wholeExpression hcount hends hroom).bind ?_
    exact yields_transTag hv hdomain hl hoptions hu (by omega) (by omega)

theorem readsBack (s : Stmt) : s.ReadsBack := by
  induction s using innerInduction with
  | step s hs =>
    cases s with
    | text data => exact readsBack_text data
    | print e => exact readsBack_print e
    | ifTag => exact readsBack_ifTag hs
    | forTag => exact readsBack_forTag hs
    | blockTag => exact readsBack_blockTag hs
    | setValues => exact readsBack_setValues
    | setContent => exact readsBack_setContent hs
    | paired => exact readsBack_paired hs
    | loose => exact readsBack_loose
    | trans => exact readsBack_trans

def tree (ss : List Stmt) : Node := .module (.body (nodes ss))

/-- Parsing the tokens of statements gives their tree, or the nesting error, which no tree of up to
forty levels gives. -/
theorem parseTokens_contentTokens (ss : List Stmt) {ts : List Token}
    (h : ts.map Token.kind = contentTokens ss ++ [.eof]) :
    (parseTokens ts = .ok (tree ss) ∨ ∃ line, parseTokens ts = .error (.tooDeep line)) ∧
    ((tree ss).height ≤ 40 → parseTokens ts = .ok (tree ss)) := by
  suffices hy : Yields (3 * (tree ss).height) (parseTokens ts) (tree ss) by
    refine ⟨hy.ok_or_tooDeep, fun hle => hy.ok_of_le ?_⟩
    rw [maxNesting]
    omega
  obtain ⟨us, ht, hu⟩ := Opens.append_iff.1 (show Opens ts (contentTokens ss ++ [.eof]) [] from
    ⟨ts, h, (List.append_nil ts).symm⟩)
  obtain ⟨line, vs, rfl, -⟩ := Opens.cons_iff.1 hu
  have hbody : (Node.body (nodes ss)).height < (tree ss).height :=
    Node.height_lt_of_mem_children List.mem_cons_self
  have hss : ∀ s ∈ ss, s.Fits 1 (3 * (tree ss).height) := by
    intro s hs
    have := height_lt_body (mem_nodes hs)
    exact ⟨s.readsBack, by omega⟩
  have hstatements : Yields (3 * (tree ss).height) (statements (8 * ts.length + 7) 1 [] ts)
      ((nodes ss, none), ⟨.eof, line⟩ :: vs) := by
    refine yields_contentTokens hss ht (List.forall_mem_nil _) (by omega) fun fuel hf => ?_
    obtain _ | fuel := fuel
    · cases hf
    exact yields_statements_eof
  exact yields_parseTokens hstatements (by omega)

theorem parseTokens_contentTokens_menu :
    let order : Expr := .name ⟨"order", by decide⟩
    let ss : List Stmt :=
      [.forTag ⟨"dish", none⟩ order (some (.test (.word "empty" (by decide)) order none))
        [.trans (some (.constant (.int 2))) ⟨none, some (.constant (.str "menu")), none⟩
          (.text "Soup")]
        (some [.setValues "a" ["b"] order [order], .text "Nothing"])]
    parseTokens ((contentTokens ss ++ [TokenKind.eof]).map fun k => ⟨k, 1⟩) = .ok (tree ss) :=
  (parseTokens_contentTokens _ (by decide)).2 (by decide)

end Stmt
end Phrasebook
