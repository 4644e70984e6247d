import Phrasebook.Proofs.Template.Expr
import Phrasebook.Template.Statement

namespace Phrasebook

/-- The name of a tag that stands for itself: no tag of the grammar and no part of one. -/
structure LooseTag where
  name : String
  keyword : name ∉ ["trans", "transchoice", "if", "for", "block", "set"]
  unpaired : name ∉ pairedTags
  free : isContinuation name = false

structure TransClauses where
  vars : Option Expr
  domain : Option Expr
  locale : Option Expr

inductive TransContent
  | text (data : String)
  | print (e : Expr)

def TransContent.node : TransContent → Node
  | text data => .text data
  | print e => e.node

inductive Stmt
  | text (data : String)
  | print (e : Expr)
  /-- Further branches are pairs of a condition and a body. -/
  | ifTag (condition : Expr) (content : List Stmt) (more : List (Expr × List Stmt))
      (otherwise : Option (List Stmt))
  | forTag (targets : LoopTargets) (sequence : Expr) (condition : Option Expr)
      (content : List Stmt) (otherwise : Option (List Stmt))
  | blockTag (name : String) (content : List Stmt)
  | setValues (name : String) (names : List String) (value : Expr) (values : List Expr)
  | setContent (name : String) (names : List String) (content : List Stmt)
  | paired (name : String) (known : name ∈ pairedTags) (arguments : List Expr)
      (content : List Stmt)
  | loose (tag : LooseTag) (arguments : List Expr)
  /-- With a count, a tag that chooses among the forms of its message. -/
  | trans (count : Option Expr) (clauses : TransClauses) (content : TransContent)

namespace Stmt

mutual

def node : Stmt → Node
  | text data => .text data
  | print e => .print e.node
  | ifTag c content more otherwise =>
    .ifTag (c.node :: .body (nodes content) :: branchNodes more) (otherwiseNode otherwise)
  | forTag targets sequence condition content otherwise =>
    .forTag targets sequence.node (condition.map Expr.node) (.body (nodes content))
      (otherwiseNode otherwise)
  | blockTag name content => .blockTag name (.body (nodes content))
  | setValues name names value values =>
    .setTag (name :: names) (.body (value.node :: values.map Expr.node))
  | setContent name names content => .setTag (name :: names) (.body (nodes content))
  | paired name _ arguments content =>
    .tag name (arguments.map Expr.node) (some (.body (nodes content)))
  | loose tag arguments => .tag tag.name (arguments.map Expr.node) none
  | trans count clauses content =>
    .trans content.node (clauses.domain.map Expr.node) (clauses.vars.map Expr.node)
      (count.map Expr.node) (clauses.locale.map Expr.node)

def nodes : List Stmt → List Node
  | [] => []
  | s :: ss => s.node :: nodes ss

def branchNodes : List (Expr × List Stmt) → List Node
  | [] => []
  | (c, ss) :: more => c.node :: .body (nodes ss) :: branchNodes more

def otherwiseNode : Option (List Stmt) → Option Node
  | none => none
  | some ss => some (.body (nodes ss))

end

def tagTokens (name : String) (ks : List TokenKind) : List TokenKind :=
  .tagStart .block :: .name name :: (ks ++ [.tagEnd .block])

def separated (kss : List (List TokenKind)) : List TokenKind := [.punctuation ','].intercalate kss

def targetTokens (targets : LoopTargets) : List TokenKind :=
  match targets.key with
  | some key => [.name key, .punctuation ',', .name targets.value]
  | none => [.name targets.value]

def clauseTokens (word : String) : Option Expr → List TokenKind
  | none => []
  | some e => .name word :: e.tokens

def clausesTokens (clauses : TransClauses) : List TokenKind :=
  clauseTokens "with" clauses.vars ++
    (clauseTokens "from" clauses.domain ++ clauseTokens "into" clauses.locale)

def transContentTokens : TransContent → List TokenKind
  | .text data => [.text data]
  | .print e => .tagStart .print :: (e.tokens ++ [.tagEnd .print])

def nameTokens (name : String) (names : List String) : List TokenKind :=
  separated ((name :: names).map fun n => [.name n])

def exprTokens (es : List Expr) : List TokenKind := separated (es.map Expr.tokens)

mutual

def tokens : Stmt → List TokenKind
  | text data => [.text data]
  | print e => .tagStart .print :: (e.tokens ++ [.tagEnd .print])
  | ifTag c content more otherwise =>
    tagTokens "if" c.tokens ++ (contentTokens content ++ (branchTokens more ++
      (otherwiseTokens otherwise ++ tagTokens "endif" [])))
  | forTag targets sequence condition content otherwise =>
    tagTokens "for" (targetTokens targets ++ .name "in" ::
      (sequence.tokens ++ clauseTokens "if" condition)) ++
    (contentTokens content ++ (otherwiseTokens otherwise ++ tagTokens "endfor" []))
  | blockTag name content =>
    tagTokens "block" [.name name] ++ (contentTokens content ++ tagTokens "endblock" [])
  | setValues name names value values =>
    tagTokens "set" (nameTokens name names ++ .punctuation '=' :: exprTokens (value :: values))
  | setContent name names content =>
    tagTokens "set" (nameTokens name names) ++ (contentTokens content ++ tagTokens "endset" [])
  | paired name _ arguments content =>
    tagTokens name (exprTokens arguments) ++
      (contentTokens content ++ tagTokens ("end" ++ name) [])
  | loose tag arguments => tagTokens tag.name (exprTokens arguments)
  | trans none clauses content =>
    tagTokens "trans" (clausesTokens clauses) ++
      (transContentTokens content ++ tagTokens "endtrans" [])
  | trans (some count) clauses content =>
    tagTokens "transchoice" (count.tokens ++ clausesTokens clauses) ++
      (transContentTokens content ++ tagTokens "endtranschoice" [])

def contentTokens : List Stmt → List TokenKind
  | [] => []
  | s :: ss => s.tokens ++ contentTokens ss

def branchTokens : List (Expr × List Stmt) → List TokenKind
  | [] => []
  | (c, ss) :: more =>
    tagTokens "elseif" c.tokens ++ (contentTokens ss ++ branchTokens more)

def otherwiseTokens : Option (List Stmt) → List TokenKind
  | none => []
  | some ss => tagTokens "else" [] ++ contentTokens ss

end

def inner : Stmt → List Stmt
  | ifTag _ content more otherwise => content ++ (more.flatMap Prod.snd ++ otherwise.getD [])
  | forTag _ _ _ content otherwise => content ++ otherwise.getD []
  | blockTag _ content => content
  | setContent _ _ content => content
  | paired _ _ _ content => content
  | _ => []

def exprs : Stmt → List Expr
  | text _ => []
  | print e => [e]
  | ifTag c _ more _ => c :: more.map Prod.fst
  | forTag _ sequence condition _ _ => sequence :: condition.toList
  | blockTag _ _ => []
  | setValues _ _ value values => value :: values
  | setContent _ _ _ => []
  | paired _ _ arguments _ => arguments
  | loose _ arguments => arguments
  | trans count clauses content =>
    count.toList ++ (clauses.vars.toList ++ (clauses.domain.toList ++ (clauses.locale.toList ++
      match content with
      | .text _ => []
      | .print e => [e])))

theorem sizeOf_lt_of_mem_otherwise {p : Stmt} {otherwise : Option (List Stmt)}
    (h : p ∈ otherwise.getD []) : sizeOf p < sizeOf otherwise := by
  cases otherwise with
  | none => cases h
  | some ss =>
    have := List.sizeOf_lt_of_mem (show p ∈ ss from h)
    rw [Option.some.sizeOf_spec]
    omega

theorem sizeOf_lt_of_mem_inner {p s : Stmt} (h : p ∈ s.inner) : sizeOf p < sizeOf s := by
  cases s with
  | ifTag c content more otherwise =>
    rw [ifTag.sizeOf_spec]
    rcases List.mem_append.1 h with h | h
    · have := List.sizeOf_lt_of_mem h
      omega
    · rcases List.mem_append.1 h with h | h
      · obtain ⟨⟨d, ss⟩, hm, hp⟩ := List.mem_flatMap.1 h
        have := List.sizeOf_lt_of_mem hm
        have := List.sizeOf_lt_of_mem hp
        rw [Prod.mk.sizeOf_spec] at *
        simp only at *
        omega
      · have := sizeOf_lt_of_mem_otherwise h
        omega
  | forTag targets sequence condition content otherwise =>
    rw [forTag.sizeOf_spec]
    rcases List.mem_append.1 h with h | h
    · have := List.sizeOf_lt_of_mem h
      omega
    · have := sizeOf_lt_of_mem_otherwise h
      omega
  | blockTag | setContent | paired =>
    have := List.sizeOf_lt_of_mem h
    simp only [blockTag.sizeOf_spec, setContent.sizeOf_spec, paired.sizeOf_spec, inner] at *
    omega
  | _ => cases h

theorem innerInduction {motive : Stmt → Prop}
    (step : ∀ s : Stmt, (∀ p ∈ s.inner, motive p) → motive s) (s : Stmt) : motive s :=
  step s fun p _ => innerInduction step p
termination_by sizeOf s
decreasing_by exact sizeOf_lt_of_mem_inner (by assumption)

theorem height_lt_body {n : Node} {ns : List Node} (h : n ∈ ns) :
    n.height < (Node.body ns).height :=
  Node.height_lt_of_mem_children (by rw [Node.children_body]; exact h)

theorem children_ifTag (tests : List Node) (otherwise : Option Node) :
    (Node.ifTag tests otherwise).children = .body tests :: otherwise.toList := by
  cases otherwise <;> rfl

theorem children_forTag (targets : LoopTargets) (sequence content : Node)
    (condition otherwise : Option Node) :
    (Node.forTag targets sequence condition content otherwise).children =
      sequence :: (condition.toList ++ content :: otherwise.toList) := by
  obtain ⟨value, key⟩ := targets
  cases key <;> cases condition <;> cases otherwise <;> rfl

theorem children_tag (name : String) (arguments : List Node) (content : Option Node) :
    (Node.tag name arguments content).children = .body arguments :: content.toList := by
  cases content <;> rfl

theorem mem_nodes {p : Stmt} {ss : List Stmt} (h : p ∈ ss) : p.node ∈ nodes ss := by
  induction ss with
  | nil => cases h
  | cons s ss ih =>
    rcases List.mem_cons.1 h with rfl | h
    · exact List.mem_cons_self
    · exact List.mem_cons_of_mem _ (ih h)

theorem condition_mem_branchNodes {c : Expr} {more : List (Expr × List Stmt)}
    (h : c ∈ more.map Prod.fst) : c.node ∈ branchNodes more := by
  induction more with
  | nil => cases h
  | cons b more ih =>
    rcases List.mem_cons.1 h with rfl | h
    · exact List.mem_cons_self
    · exact List.mem_cons_of_mem _ (List.mem_cons_of_mem _ (ih h))

theorem body_mem_branchNodes {b : Expr × List Stmt} {more : List (Expr × List Stmt)}
    (h : b ∈ more) : .body (nodes b.2) ∈ branchNodes more := by
  induction more with
  | nil => cases h
  | cons c more ih =>
    rcases List.mem_cons.1 h with rfl | h
    · exact List.mem_cons_of_mem _ List.mem_cons_self
    · exact List.mem_cons_of_mem _ (List.mem_cons_of_mem _ (ih h))

theorem height_lt_of_mem_content {p : Stmt} {ss : List Stmt} {n : Node}
    (hn : .body (nodes ss) ∈ n.children) (h : p ∈ ss) : p.node.height < n.height :=
  Nat.lt_trans (height_lt_body (mem_nodes h)) (Node.height_lt_of_mem_children hn)

theorem height_lt_of_mem_otherwise {p : Stmt} {otherwise : Option (List Stmt)} {n : Node}
    (hn : ∀ m ∈ otherwiseNode otherwise, m ∈ n.children) (h : p ∈ otherwise.getD []) :
    p.node.height < n.height := by
  cases otherwise with
  | none => cases h
  | some ss => exact height_lt_of_mem_content (hn _ rfl) h

theorem height_lt_of_mem_inner {p s : Stmt} (h : p ∈ s.inner) :
    p.node.height < s.node.height := by
  cases s with
  | ifTag c content more otherwise =>
    have htests : ∀ n ∈ c.node :: .body (nodes content) :: branchNodes more,
        n.height < (ifTag c content more otherwise).node.height := by
      intro n hn
      refine Nat.lt_trans (height_lt_body hn) (Node.height_lt_of_mem_children ?_)
      rw [node, children_ifTag]
      exact List.mem_cons_self
    rcases List.mem_append.1 h with h | h
    · have hbody := htests (.body (nodes content)) (List.mem_cons_of_mem _ List.mem_cons_self)
      exact Nat.lt_trans (height_lt_body (mem_nodes h)) hbody
    · rcases List.mem_append.1 h with h | h
      · obtain ⟨b, hb, hp⟩ := List.mem_flatMap.1 h
        have hbody := htests _ (List.mem_cons_of_mem _ (List.mem_cons_of_mem _
          (body_mem_branchNodes hb)))
        exact Nat.lt_trans (height_lt_body (mem_nodes hp)) hbody
      · refine height_lt_of_mem_otherwise (fun m hm => ?_) h
        rw [node, children_ifTag]
        exact List.mem_cons_of_mem _ (Option.mem_toList.2 hm)
  | forTag targets sequence condition content otherwise =>
    rcases List.mem_append.1 h with h | h
    · refine height_lt_of_mem_content ?_ h
      rw [node, children_forTag]
      exact List.mem_cons_of_mem _ (List.mem_append_right _ List.mem_cons_self)
    · refine height_lt_of_mem_otherwise (fun m hm => ?_) h
      rw [node, children_forTag]
      exact List.mem_cons_of_mem _ (List.mem_append_right _ (List.mem_cons_of_mem _
        (Option.mem_toList.2 hm)))
  | blockTag name content => exact height_lt_of_mem_content List.mem_cons_self h
  | setContent name names content =>
    exact height_lt_of_mem_content (List.mem_cons_of_mem _ List.mem_cons_self) h
  | paired name known arguments content =>
    refine height_lt_of_mem_content ?_ h
    rw [node, children_tag]
    exact List.mem_cons_of_mem _ List.mem_cons_self
  | _ => cases h

theorem height_lt_of_mem_exprs {e : Expr} {s : Stmt} (h : e ∈ s.exprs) :
    e.node.height < s.node.height := by
  cases s with
  | print e =>
    rw [List.mem_singleton.1 h]
    exact Node.height_lt_of_mem_children List.mem_cons_self
  | ifTag c content more otherwise =>
    have htests : e.node ∈ c.node :: .body (nodes content) :: branchNodes more := by
      rcases List.mem_cons.1 h with rfl | h
      · exact List.mem_cons_self
      · exact List.mem_cons_of_mem _ (List.mem_cons_of_mem _ (condition_mem_branchNodes h))
    refine Nat.lt_trans (height_lt_body htests) (Node.height_lt_of_mem_children ?_)
    rw [node, children_ifTag]
    exact List.mem_cons_self
  | forTag targets sequence condition content otherwise =>
    apply Node.height_lt_of_mem_children
    rw [node, children_forTag]
    rcases List.mem_cons.1 h with rfl | h
    · exact List.mem_cons_self
    · rw [Option.mem_toList.1 h]
      exact List.mem_cons_of_mem _ List.mem_cons_self
  | setValues name names value values =>
    have hvalues : e.node ∈ value.node :: values.map Expr.node := List.mem_map_of_mem h
    exact Nat.lt_trans (height_lt_body hvalues)
      (Node.height_lt_of_mem_children (List.mem_cons_of_mem _ List.mem_cons_self))
  | paired name known arguments content =>
    refine Nat.lt_trans (height_lt_body (List.mem_map_of_mem h))
      (Node.height_lt_of_mem_children ?_)
    rw [node, children_tag]
    exact List.mem_cons_self
  | loose tag arguments =>
    exact Nat.lt_trans (height_lt_body (List.mem_map_of_mem h))
      (Node.height_lt_of_mem_children List.mem_cons_self)
  | trans count clauses content =>
    apply Node.height_lt_of_mem_children
    have hclause : ∀ o ∈ [clauses.domain, clauses.vars, count, clauses.locale], e ∈ o →
        e.node ∈ (trans count clauses content).node.children := by
      rintro o ho rfl
      refine List.mem_cons_of_mem _ (List.mem_filterMap.2 ⟨some e.node, ?_, rfl⟩)
      exact List.mem_map_of_mem (f := Option.map Expr.node) ho
    simp only [exprs, List.mem_append, Option.mem_toList] at h
    rcases h with h | h | h | h | h
    · exact hclause count (by simp) h
    · exact hclause clauses.vars (by simp) h
    · exact hclause clauses.domain (by simp) h
    · exact hclause clauses.locale (by simp) h
    · cases content with
      | text data => cases h
      | print e' =>
        rw [List.mem_singleton.1 h]
        exact List.mem_cons_self
  | _ => cases h

end Stmt
end Phrasebook
