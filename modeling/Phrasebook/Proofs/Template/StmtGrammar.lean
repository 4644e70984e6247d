import Phrasebook.Proofs.Template.ExprGrammar

namespace Phrasebook

inductive StmtPart
  | statements (level : Nat) (closing : List String) (nodes : List Node) (close : Option String)
  | block (level : Nat) (closing : List String) (nodes : List Node) (close : Option String)
  | tag (level : Nat) (name : String) (node : Node)
  | transTag (level : Nat) (closing : String) (count : Option Node) (node : Node)
  | branches (level : Nat) (condition : Node) (tests : List Node) (otherwise : Option Node)
  | alternative (level : Nat) (close : Option String) (closing : String) (otherwise : Option Node)

namespace StmtPart

inductive Reads : StmtPart → List Token → List Token → Prop
  | eof {level : Nat} {ts : List Token} (h : (current ts).kind = .eof) :
      Reads (.statements level [] [] none) ts ts
  | text {level line : Nat} {data : String} {closing : List String} {nodes : List Node}
      {close : Option String} {ts us : List Token}
      (hs : Reads (.statements level closing nodes close) ts us) :
      Reads (.statements level closing (.text data :: nodes) close) (⟨.text data, line⟩ :: ts) us
  | print {level line line' : Nat} {e : Node} {closing : List String} {nodes : List Node}
      {close : Option String} {ts us vs : List Token}
      (he : ExprPart.Reads (.expression 0 level e) ts (⟨.tagEnd .print, line'⟩ :: us))
      (hs : Reads (.statements level closing nodes close) us vs) :
      Reads (.statements level closing (.print e :: nodes) close)
        (⟨.tagStart .print, line⟩ :: ts) vs
  | close {level line line' : Nat} {name : String} {closing : List String} {ts : List Token}
      (h : name ∈ closing) :
      Reads (.statements level closing [] (some name))
        (⟨.tagStart .block, line⟩ :: ⟨.name name, line'⟩ :: ts) ts
  | tag {level line line' : Nat} {name : String} {node : Node} {closing : List String}
      {nodes : List Node} {close : Option String} {ts us vs : List Token} (h : name ∉ closing)
      (ht : Reads (.tag level name node) ts us)
      (hs : Reads (.statements level closing nodes close) us vs) :
      Reads (.statements level closing (node :: nodes) close)
        (⟨.tagStart .block, line⟩ :: ⟨.name name, line'⟩ :: ts) vs
  | block {level : Nat} {closing : List String} {nodes : List Node} {close : Option String}
      {ts us : List Token} (hl : level < maxNesting)
      (hs : Reads (.statements (level + 1) closing nodes close) ts us) :
      Reads (.block level closing nodes close) ts us
  | trans {level : Nat} {node : Node} {ts us : List Token}
      (ht : Reads (.transTag level "endtrans" none node) ts us) :
      Reads (.tag level "trans" node) ts us
  | transChoice {level : Nat} {count node : Node} {ts us vs : List Token}
      (hc : ExprPart.Reads (.expression 0 level count) ts us)
      (ht : Reads (.transTag level "endtranschoice" (some count) node) us vs) :
      Reads (.tag level "transchoice" node) ts vs
  | ifTag {level line : Nat} {condition : Node} {tests : List Node} {otherwise : Option Node}
      {ts us vs : List Token}
      (hc : ExprPart.Reads (.expression 0 level condition) ts (⟨.tagEnd .block, line⟩ :: us))
      (hb : Reads (.branches level condition tests otherwise) us vs) :
      Reads (.tag level "if" (.ifTag tests otherwise)) ts vs
  | forTag {level line : Nat} {targets : LoopTargets} {sequence : Node}
      {condition otherwise : Option Node} {nodes : List Node} {close : Option String}
      {ts us vs ws xs ys zs : List Token} (ht : loopTargets ts = .ok (targets, us))
      (hs : ExprPart.Reads (.expression 0 level sequence) us vs)
      (hc : ExprPart.Reads (.loopCondition level condition) vs (⟨.tagEnd .block, line⟩ :: ws))
      (hb : Reads (.block level ["else", "endfor"] nodes close) ws xs)
      (ho : Reads (.alternative level close "endfor" otherwise) xs ys)
      (hz : closeTag ys = .ok zs) :
      Reads (.tag level "for" (.forTag targets sequence condition (.body nodes) otherwise)) ts zs
  | blockBody {level line line' : Nat} {name : String} {nodes : List Node}
      {close : Option String} {ts us vs : List Token}
      (hb : Reads (.block level ["endblock"] nodes close) ts us) (hc : closeTag us = .ok vs) :
      Reads (.tag level "block" (.blockTag name (.body nodes)))
        (⟨.name name, line⟩ :: ⟨.tagEnd .block, line'⟩ :: ts) vs
  | blockValue {level line line' : Nat} {name : String} {e : Node} {ts us : List Token}
      (h : (current ts).kind ≠ .tagEnd .block)
      (he : ExprPart.Reads (.expression 0 level e) ts (⟨.tagEnd .block, line'⟩ :: us)) :
      Reads (.tag level "block" (.blockTag name (.body [.print e]))) (⟨.name name, line⟩ :: ts) us
  | setValues {level line line' : Nat} {names : List String} {values : List Node}
      {ts us vs : List Token} (hn : setNames ts = .ok (names, ⟨.punctuation '=', line⟩ :: us))
      (hv : ExprPart.Reads (.expressionList level values) us (⟨.tagEnd .block, line'⟩ :: vs)) :
      Reads (.tag level "set" (.setTag names (.body values))) ts vs
  | setBody {level line : Nat} {names : List String} {nodes : List Node} {close : Option String}
      {ts us vs ws : List Token} (hn : setNames ts = .ok (names, ⟨.tagEnd .block, line⟩ :: us))
      (hb : Reads (.block level ["endset"] nodes close) us vs) (hc : closeTag vs = .ok ws) :
      Reads (.tag level "set" (.setTag names (.body nodes))) ts ws
  | paired {level line : Nat} {name : String} {arguments nodes : List Node}
      {close : Option String} {ts us vs ws : List Token} (h : name ∈ pairedTags)
      (ha : ExprPart.Reads (.tagArguments level arguments) ts (⟨.tagEnd .block, line⟩ :: us))
      (hb : Reads (.block level ["end" ++ name] nodes close) us vs)
      (hc : closeTag vs = .ok ws) :
      Reads (.tag level name (.tag name arguments (some (.body nodes)))) ts ws
  | loose {level line : Nat} {name : String} {arguments : List Node} {ts us : List Token}
      (h : name ∉ ["trans", "transchoice", "if", "for", "block", "set"] ++ pairedTags)
      (hc : isContinuation name = false)
      (ha : ExprPart.Reads (.tagArguments level arguments) ts (⟨.tagEnd .block, line⟩ :: us)) :
      Reads (.tag level name (.tag name arguments none)) ts us
  | transTag {level line start : Nat} {closing : String} {count : Option Node}
      {options : TransOptions} {nodes : List Node} {close : Option String} {content : Node}
      {ts us vs ws : List Token}
      (ho : ExprPart.Reads (.transOptions level {} options) ts (⟨.tagEnd .block, line⟩ :: us))
      (hb : Reads (.block level [closing] nodes close) us vs) (hc : closeTag vs = .ok ws)
      (hm : transBody start nodes = .ok content) :
      Reads (.transTag level closing count
        (.trans content options.domain options.vars count options.locale)) ts ws
  | elseif {level line : Nat} {condition next : Node} {nodes tests : List Node}
      {otherwise : Option Node} {ts us vs ws : List Token}
      (hb : Reads (.block level ["elseif", "else", "endif"] nodes (some "elseif")) ts us)
      (hn : ExprPart.Reads (.expression 0 level next) us (⟨.tagEnd .block, line⟩ :: vs))
      (hr : Reads (.branches level next tests otherwise) vs ws) :
      Reads (.branches level condition (condition :: .body nodes :: tests) otherwise) ts ws
  | lastBranch {level : Nat} {condition : Node} {nodes : List Node} {close : Option String}
      {otherwise : Option Node} {ts us vs ws : List Token}
      (hb : Reads (.block level ["elseif", "else", "endif"] nodes close) ts us)
      (h : close ≠ some "elseif") (ho : Reads (.alternative level close "endif" otherwise) us vs)
      (hc : closeTag vs = .ok ws) :
      Reads (.branches level condition [condition, .body nodes] otherwise) ts ws
  | noElse {level : Nat} {close : Option String} {closing : String} {ts : List Token}
      (h : close ≠ some "else") : Reads (.alternative level close closing none) ts ts
  | someElse {level line : Nat} {closing : String} {others : List Node} {close : Option String}
      {ts us : List Token} (hb : Reads (.block level [closing] others close) ts us) :
      Reads (.alternative level (some "else") closing (some (.body others)))
        (⟨.tagEnd .block, line⟩ :: ts) us

variable {level : Nat} {closing : List String} {nodes : List Node} {close : Option String}
  {ts us : List Token}

theorem Reads.close_mem {name : String}
    (h : Reads (.statements level closing nodes close) ts us) (hn : name ∈ closing) :
    ∃ other ∈ closing, close = some other := by
  generalize hp : StmtPart.statements level closing nodes close = p at h
  induction h generalizing nodes with
  | eof => cases hp; cases hn
  | text _ ih => cases hp; exact ih rfl
  | print _ _ ih => cases hp; exact ih rfl
  | close hc => cases hp; exact ⟨_, hc, rfl⟩
  | tag _ _ _ _ ih => cases hp; exact ih rfl
  | _ => cases hp

theorem Reads.close_mem_of_block {name : String}
    (h : Reads (.block level closing nodes close) ts us) (hn : name ∈ closing) :
    ∃ other ∈ closing, close = some other := by
  cases h with
  | block _ hs => exact hs.close_mem hn

theorem Reads.close_eq_none (h : Reads (.statements level [] nodes close) ts us) :
    close = none := by
  generalize hp : StmtPart.statements level [] nodes close = p at h
  induction h generalizing nodes with
  | eof => cases hp; rfl
  | text _ ih => cases hp; exact ih rfl
  | print _ _ ih => cases hp; exact ih rfl
  | close hc => cases hp; cases hc
  | tag _ _ _ _ ih => cases hp; exact ih rfl
  | _ => cases hp

end StmtPart

structure ReadsByStatements (fuel : Nat) : Prop where
  statements {level : Nat} {closing : List String} {nodes : List Node} {close : Option String}
    {ts us : List Token} :
    statements fuel level closing ts = .ok ((nodes, close), us) →
      StmtPart.Reads (.statements level closing nodes close) ts us
  block {level : Nat} {closing : List String} {nodes : List Node} {close : Option String}
    {ts us : List Token} :
    block fuel level closing ts = .ok ((nodes, close), us) →
      StmtPart.Reads (.block level closing nodes close) ts us
  tag {level line : Nat} {name : String} {node : Node} {ts us : List Token} :
    tag fuel level name line ts = .ok (node, us) → StmtPart.Reads (.tag level name node) ts us
  transTag {level start : Nat} {closing : String} {count : Option Node} {node : Node}
    {ts us : List Token} :
    transTag fuel level closing count start ts = .ok (node, us) →
      StmtPart.Reads (.transTag level closing count node) ts us
  branches {level : Nat} {condition : Node} {tests : List Node} {otherwise : Option Node}
    {ts us : List Token} :
    branches fuel level condition ts = .ok ((tests, otherwise), us) →
      StmtPart.Reads (.branches level condition tests otherwise) ts us

namespace ReadsByStatements

open StmtPart (Reads)

variable {fuel level line : Nat} {closing : List String} {nodes : List Node}
  {close : Option String} {name : String} {node : Node} {ts us : List Token}

theorem zero : ReadsByStatements 0 where
  statements h := by
    rw [Phrasebook.statements] at h
    cases h
  block h := by
    rw [Phrasebook.block] at h
    cases h
  tag h := by
    rw [Phrasebook.tag] at h
    cases h
  transTag h := by
    rw [Phrasebook.transTag] at h
    cases h
  branches h := by
    rw [Phrasebook.branches] at h
    cases h

theorem exists_cons_of_endTag (h : endTag ts = .ok us) :
    ∃ line, ts = ⟨.tagEnd .block, line⟩ :: us :=
  exists_cons_of_expect h (by rintro ⟨⟩)

theorem read_statements (ih : ReadsByStatements fuel)
    (h : Phrasebook.statements (fuel + 1) level closing ts = .ok ((nodes, close), us)) :
    Reads (.statements level closing nodes close) ts us := by
  rw [Phrasebook.statements.eq_def] at h
  dsimp only at h
  split at h
  · obtain ⟨⟨⟨ns, c⟩, vs⟩, hs, h⟩ := ok_of_bind h
    cases h
    exact .text (ih.statements hs)
  · obtain ⟨⟨e, vs⟩, he, h⟩ := ok_of_bind h
    obtain ⟨ws, hw, h⟩ := ok_of_bind h
    obtain ⟨⟨⟨ns, c⟩, xs⟩, hs, h⟩ := ok_of_bind h
    cases h
    obtain ⟨line', rfl⟩ := exists_cons_of_expect hw (by rintro ⟨⟩)
    exact .print (.of_wholeExpression he) (ih.statements hs)
  · obtain ⟨⟨name, vs⟩, hn, hr⟩ := ok_of_bind h
    obtain ⟨line', rfl⟩ := exists_cons_of_expectName hn
    dsimp only at hr
    split at hr
    · next hc =>
      cases hr
      exact .close hc
    · next hc =>
      obtain ⟨⟨node, ws⟩, ht, hr⟩ := ok_of_bind hr
      obtain ⟨⟨⟨ns, c⟩, xs⟩, hs, hr⟩ := ok_of_bind hr
      cases hr
      exact .tag hc (ih.tag ht) (ih.statements hs)
  · split at h
    · next he =>
      split at h
      · next hc =>
        cases h
        cases List.isEmpty_iff.1 hc
        exact .eof he
      · cases h
    · cases h

theorem read_block (ih : ReadsByStatements fuel)
    (h : Phrasebook.block (fuel + 1) level closing ts = .ok ((nodes, close), us)) :
    Reads (.block level closing nodes close) ts us := by
  rw [Phrasebook.block] at h
  obtain ⟨level', hl, h⟩ := ok_of_bind h
  obtain ⟨hlt, rfl⟩ := descend_eq_ok hl
  exact .block hlt (ih.statements h)

theorem read_transTag {start : Nat} {closing : String} {count : Option Node}
    (ih : ReadsByStatements fuel)
    (h : Phrasebook.transTag (fuel + 1) level closing count start ts = .ok (node, us)) :
    Reads (.transTag level closing count node) ts us := by
  rw [Phrasebook.transTag] at h
  obtain ⟨⟨options, vs⟩, ho, hr⟩ := ok_of_bind h
  obtain ⟨ws, hw, hr⟩ := ok_of_bind hr
  obtain ⟨⟨⟨ns, c⟩, xs⟩, hb, hr⟩ := ok_of_bind hr
  obtain ⟨ys, hy, hr⟩ := ok_of_bind hr
  obtain ⟨content, hm, hr⟩ := ok_of_bind hr
  cases hr
  obtain ⟨line, rfl⟩ := exists_cons_of_endTag hw
  exact .transTag (.of_transOptions ho) (ih.block hb) hy hm

theorem read_branches {condition : Node} {tests : List Node} {otherwise : Option Node}
    (ih : ReadsByStatements fuel)
    (h : Phrasebook.branches (fuel + 1) level condition ts = .ok ((tests, otherwise), us)) :
    Reads (.branches level condition tests otherwise) ts us := by
  rw [Phrasebook.branches] at h
  obtain ⟨⟨⟨ns, c⟩, vs⟩, hb, hr⟩ := ok_of_bind h
  dsimp only at hr
  have hb := ih.block hb
  split at hr
  · next hc =>
    obtain ⟨⟨next, ws⟩, hn, hr⟩ := ok_of_bind hr
    obtain ⟨xs, hx, hr⟩ := ok_of_bind hr
    obtain ⟨⟨⟨tests, otherwise⟩, ys⟩, ht, hr⟩ := ok_of_bind hr
    cases hr
    obtain ⟨line, rfl⟩ := exists_cons_of_endTag hx
    subst hc
    exact .elseif hb (.of_wholeExpression hn) (ih.branches ht)
  · next hc =>
    split at hr
    · next he =>
      obtain ⟨ws, hw, hr⟩ := ok_of_bind hr
      obtain ⟨⟨⟨others, d⟩, xs⟩, ho, hr⟩ := ok_of_bind hr
      obtain ⟨ys, hy, hr⟩ := ok_of_bind hr
      cases hr
      obtain ⟨line, rfl⟩ := exists_cons_of_endTag hw
      subst he
      exact .lastBranch hb hc (.someElse (ih.block ho)) hy
    · next he =>
      obtain ⟨ws, hw, hr⟩ := ok_of_bind hr
      cases hr
      exact .lastBranch hb hc (.noElse he) hw

theorem read_for (ih : ReadsByStatements fuel)
    (h : Phrasebook.tag (fuel + 1) level "for" line ts = .ok (node, us)) :
    Reads (.tag level "for" node) ts us := by
  rw [Phrasebook.tag, if_neg (by decide), if_neg (by decide), if_neg (by decide),
    if_pos rfl] at h
  obtain ⟨⟨targets, vs⟩, ht, hr⟩ := ok_of_bind h
  obtain ⟨⟨sequence, ws⟩, hs, hr⟩ := ok_of_bind hr
  obtain ⟨⟨condition, xs⟩, hc, hr⟩ := ok_of_bind hr
  obtain ⟨ys, hy, hr⟩ := ok_of_bind hr
  obtain ⟨⟨⟨ns, c⟩, zs⟩, hb, hr⟩ := ok_of_bind hr
  obtain ⟨line', hy⟩ := exists_cons_of_endTag hy
  have hs := ExprPart.Reads.of_wholeExpression hs
  have hc := ExprPart.Reads.of_loopCondition hc
  dsimp only at hr
  split at hr
  · next he =>
    obtain ⟨as, hw, hr⟩ := ok_of_bind hr
    obtain ⟨⟨⟨others, d⟩, bs⟩, ho, hr⟩ := ok_of_bind hr
    obtain ⟨_, ⟨⟩, hr⟩ := ok_of_bind hr
    obtain ⟨cs, hz, hr⟩ := ok_of_bind hr
    cases hr
    obtain ⟨line'', rfl⟩ := exists_cons_of_endTag hw
    subst hy he
    exact .forTag ht hs hc (ih.block hb) (.someElse (ih.block ho)) hz
  · next he =>
    obtain ⟨_, ⟨⟩, hr⟩ := ok_of_bind hr
    obtain ⟨as, hz, hr⟩ := ok_of_bind hr
    cases hr
    subst hy
    exact .forTag ht hs hc (ih.block hb) (.noElse he) hz

theorem read_blockTag (ih : ReadsByStatements fuel)
    (h : Phrasebook.tag (fuel + 1) level "block" line ts = .ok (node, us)) :
    Reads (.tag level "block" node) ts us := by
  rw [Phrasebook.tag, if_neg (by decide), if_neg (by decide), if_neg (by decide),
    if_neg (by decide), if_pos rfl] at h
  obtain ⟨⟨name, vs⟩, hn, hr⟩ := ok_of_bind h
  obtain ⟨line', rfl⟩ := exists_cons_of_expectName hn
  dsimp only at hr
  split at hr
  · next he =>
    obtain ⟨line'', ws, rfl⟩ := exists_cons_of_current he (by rintro ⟨⟩)
    obtain ⟨⟨⟨ns, c⟩, xs⟩, hb, hr⟩ := ok_of_bind hr
    obtain ⟨ys, hy, hr⟩ := ok_of_bind hr
    cases hr
    exact .blockBody (ih.block hb) hy
  · next he =>
    obtain ⟨⟨e, ws⟩, hv, hr⟩ := ok_of_bind hr
    obtain ⟨xs, hx, hr⟩ := ok_of_bind hr
    cases hr
    obtain ⟨line'', rfl⟩ := exists_cons_of_endTag hx
    exact .blockValue he (.of_wholeExpression hv)

theorem read_set (ih : ReadsByStatements fuel)
    (h : Phrasebook.tag (fuel + 1) level "set" line ts = .ok (node, us)) :
    Reads (.tag level "set" node) ts us := by
  rw [Phrasebook.tag, if_neg (by decide), if_neg (by decide), if_neg (by decide),
    if_neg (by decide), if_neg (by decide), if_pos rfl] at h
  obtain ⟨⟨names, vs⟩, hn, hr⟩ := ok_of_bind h
  dsimp only at hr
  split at hr
  · next hm =>
    obtain ⟨line', ws, rfl⟩ := exists_cons_of_atMark hm
    obtain ⟨⟨values, xs⟩, hv, hr⟩ := ok_of_bind hr
    obtain ⟨ys, hy, hr⟩ := ok_of_bind hr
    cases hr
    obtain ⟨line'', rfl⟩ := exists_cons_of_endTag hy
    exact .setValues hn (.of_expressionList hv)
  · next hm =>
    obtain ⟨ws, hw, hr⟩ := ok_of_bind hr
    obtain ⟨⟨⟨ns, c⟩, xs⟩, hb, hr⟩ := ok_of_bind hr
    obtain ⟨ys, hy, hr⟩ := ok_of_bind hr
    cases hr
    obtain ⟨line', rfl⟩ := exists_cons_of_endTag hw
    exact .setBody hn (ih.block hb) hy

theorem read_tag (ih : ReadsByStatements fuel)
    (h : Phrasebook.tag (fuel + 1) level name line ts = .ok (node, us)) :
    Reads (.tag level name node) ts us := by
  -- The tags with a lemma of their own unfold the function again once their name is known.
  have hname := h
  rw [Phrasebook.tag] at h
  split at h
  · next hn =>
    subst hn
    exact .trans (ih.transTag h)
  · next hn₁ =>
    split at h
    · next hn =>
      subst hn
      obtain ⟨⟨count, vs⟩, hc, h⟩ := ok_of_bind h
      exact .transChoice (.of_wholeExpression hc) (ih.transTag h)
    · next hn₂ =>
      split at h
      · next hn =>
        subst hn
        obtain ⟨⟨condition, vs⟩, hc, hr⟩ := ok_of_bind h
        obtain ⟨ws, hw, hr⟩ := ok_of_bind hr
        obtain ⟨⟨⟨tests, otherwise⟩, xs⟩, hb, hr⟩ := ok_of_bind hr
        cases hr
        obtain ⟨line', rfl⟩ := exists_cons_of_endTag hw
        exact .ifTag (.of_wholeExpression hc) (ih.branches hb)
      · next hn₃ =>
        by_cases hn₄ : name = "for"
        · subst hn₄
          exact ih.read_for hname
        · by_cases hn₅ : name = "block"
          · subst hn₅
            exact ih.read_blockTag hname
          · by_cases hn₆ : name = "set"
            · subst hn₆
              exact ih.read_set hname
            · rw [if_neg hn₄, if_neg hn₅, if_neg hn₆] at h
              split at h
              · next hp =>
                obtain ⟨⟨arguments, vs⟩, ha, hr⟩ := ok_of_bind h
                obtain ⟨ws, hw, hr⟩ := ok_of_bind hr
                obtain ⟨⟨⟨ns, c⟩, xs⟩, hb, hr⟩ := ok_of_bind hr
                obtain ⟨ys, hy, hr⟩ := ok_of_bind hr
                cases hr
                obtain ⟨line', rfl⟩ := exists_cons_of_endTag hw
                exact .paired hp (.of_tagArguments ha) (ih.block hb) hy
              · next hp =>
                split at h
                · cases h
                · next hc =>
                  obtain ⟨⟨arguments, vs⟩, ha, hr⟩ := ok_of_bind h
                  obtain ⟨ws, hw, hr⟩ := ok_of_bind hr
                  cases hr
                  obtain ⟨line', rfl⟩ := exists_cons_of_endTag hw
                  refine .loose ?_ (Bool.eq_false_iff.2 hc) (.of_tagArguments ha)
                  simp [hn₁, hn₂, hn₃, hn₄, hn₅, hn₆, hp]

theorem all (fuel : Nat) : ReadsByStatements fuel := by
  induction fuel with
  | zero => exact zero
  | succ fuel ih =>
    exact {
      statements := ih.read_statements
      block := ih.read_block
      tag := ih.read_tag
      transTag := ih.read_transTag
      branches := ih.read_branches }

end ReadsByStatements

/-- An accepted template is read as the statements of its tree. -/
theorem parseTokens_reads {ts : List Token} {tree : Node} (h : parseTokens ts = .ok tree) :
    ∃ nodes us, StmtPart.Reads (.statements 1 [] nodes none) ts us ∧
      tree = .module (.body nodes) := by
  obtain ⟨⟨⟨nodes, close⟩, us⟩, hb, h⟩ := ok_of_bind h
  cases h
  cases (ReadsByStatements.all _).block hb with
  | block hl hs => exact ⟨nodes, us, by rwa [hs.close_eq_none] at hs, rfl⟩

theorem exists_tokens_of_parseTemplate {source : String} {tree : Node}
    (h : parseTemplate source = .ok tree) :
    ∃ ts, tokenize source = .ok ts ∧ parseTokens ts = .ok tree := by
  rw [parseTemplate] at h
  split at h
  · next ts ht => exact ⟨ts, ht, h⟩
  · cases h

end Phrasebook
