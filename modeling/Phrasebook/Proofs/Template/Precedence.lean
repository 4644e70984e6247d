import Phrasebook.Proofs.Template.ExprRoundTrip
import Phrasebook.Proofs.Template.OperatorTree

namespace Phrasebook
namespace OperatorTree

variable {t l r : OperatorTree} {c : Connective} {x : Variable}
  {rest : List (Connective × Variable)} {ts us : List Token}

def node : OperatorTree → Node
  | operand x => .ofName x.text
  | joined c l r => .binary c.op.symbol l.node r.node

def kinds : OperatorTree → List TokenKind
  | operand x => [.name x.text]
  | joined c l r => l.kinds ++ (c.op.kinds ++ r.kinds)

def spine : OperatorTree → Nat
  | operand _ => 0
  | joined _ l _ => l.spine + 1

theorem spine_le (t : OperatorTree) : t.spine ≤ t.others.length := by
  induction t with
  | operand x => exact Nat.le_refl 0
  | joined c l r ihl ihr =>
    rw [spine, others, List.length_append, List.length_cons]
    omega

/-- No mark goes on with the last operand, and no operator follows that the right operand of the
root would take in. -/
structure Ends (t : OperatorTree) (ts : List Token) : Prop where
  unmarked : ∀ m ∈ ['(', '.', '[', '|', '?'], atMark m ts = false
  loose : ∀ d ∈ t.root?, ∀ op us, BinaryOperator.next? ts = some (op, us) → ¬d.op.HoldsRight op

theorem ends_of_groupEnds (t : OperatorTree) (h : GroupEnds ts) : t.Ends ts where
  unmarked m hm := by
    apply h.not_atMark
    simp only [List.mem_cons, List.not_mem_nil, or_false] at hm
    rcases hm with rfl | rfl | rfl | rfl | rfl <;> decide
  loose _ _ op us hn := by
    rw [h.next?] at hn
    cases hn

theorem Bound.ends_left (h : (joined c l r).Bound) (ho : Opens ts c.op.kinds us) : l.Ends ts where
  unmarked m _ := BinaryOperator.not_atMark_kinds c.known ho m
  loose d hd op vs hn := by
    rw [BinaryOperator.next?_kinds c.known c.connects ho] at hn
    cases hn
    exact (BinaryOperator.holdsLeft_iff d.known c.known).1 (h.1 d hd)

theorem Ends.right (h : (joined c l r).Ends ts) (hb : (joined c l r).Bound) : r.Ends ts where
  unmarked := h.unmarked
  loose d hd op us hn := (hb.2.1 d hd).not_holdsRight (h.loose c rfl op us hn)

theorem Ends.operations (h : (joined c l r).Ends ts) {fuel : Nat} (hf : 0 < fuel) (s : Chain) :
    operations fuel c.op.rightMinimum s ts = .ok (s, ts) := by
  refine operations_loose (fun op us hn => ?_) hf
  have hloose := h.loose c rfl op us hn
  rw [BinaryOperator.holdsRight_iff] at hloose
  exact Nat.not_le.1 hloose

/-- Where a tree ends, its tokens are read back, and the operators behind it are read next. A chain
goes one level deeper with each operator of its own, and its right operands start two levels below
it. -/
def ReadsBack (t : OperatorTree) : Prop :=
  ∀ ⦃fuel minimum level depth : Nat⦄ ⦃ts us : List Token⦄ ⦃out : Reading Chain⦄,
    Opens ts t.kinds us → t.Ends us → (∀ d ∈ t.root?, minimum ≤ d.op.precedence) →
    8 * ts.length + 2 ≤ fuel → level + 2 * t.others.length ≤ depth →
    (∀ fuel', 8 * us.length + 2 ≤ fuel' →
      Yields depth (operations fuel' minimum (t.node, level + t.spine) us) out) →
    Yields depth (operatorChain fuel minimum level ts) out

theorem readsBack_operand (x : Variable) : (operand x).ReadsBack := by
  intro fuel minimum level depth ts us out ho he _ hf _ hout
  have hs := Expr.name_ne_sign x ho
  obtain ⟨line, vs, rfl, hv⟩ := Opens.cons_iff.1 ho
  obtain rfl := Opens.nil_iff.1 hv
  rw [List.length_cons] at hf
  obtain ⟨fuel, rfl⟩ : ∃ f, fuel = f + 2 := ⟨fuel - 2, by omega⟩
  have hp : primary (fuel + 1) level (⟨.name x.text, line⟩ :: vs) =
      .ok (.ofName x.text, vs) := by
    rw [primary, if_neg (by simp [he.unmarked]), x.ofWord_text]
  have hl : links (fuel + 1) (.ofName x.text, level) vs = .ok ((.ofName x.text, level), vs) :=
    links_stop ⟨he.unmarked _ (by decide), he.unmarked _ (by decide), he.unmarked _ (by decide)⟩
      (by omega)
  exact (Expr.yields_operand hs (.of_eq hp) (.of_eq hl)).bind (hout _ (by omega))

theorem ReadsBack.yields_right (hr : r.ReadsBack) (hb : (joined c l r).Bound)
    {fuel level depth : Nat} (ho : Opens ts r.kinds us) (he : (joined c l r).Ends us)
    (hf : 8 * ts.length + 3 ≤ fuel) (hd : level + 1 + 2 * r.others.length ≤ depth) :
    Yields depth (expression fuel c.op.rightMinimum level ts) (r.node, us) := by
  obtain _ | fuel := fuel
  · omega
  have hm : ∀ d ∈ r.root?, c.op.rightMinimum ≤ d.op.precedence :=
    fun d hd => BinaryOperator.holdsRight_iff.1 (hb.2.1 d hd)
  have hchain : Yields depth (operatorChain fuel c.op.rightMinimum (level + 1) ts)
      ((r.node, level + 1 + r.spine), us) :=
    hr ho (he.right hb) hm (by omega) hd fun _ hf' => .of_eq (he.operations (by omega) _)
  exact Expr.yields_expression_of_chain hchain (he.unmarked _ (by decide)) (by omega) (by omega)

theorem readsBack_joined (hb : (joined c l r).Bound) (hl : l.ReadsBack) (hr : r.ReadsBack) :
    (joined c l r).ReadsBack := by
  intro fuel minimum level depth ts us out ho he hm hf hd hout
  obtain ⟨vs, hvs, hv⟩ := Opens.append_iff.1 ho
  obtain ⟨ws, hop, hw⟩ := Opens.append_iff.1 hv
  have hlen := hop.length
  have hshort := BinaryOperator.length_kinds_pos c.known
  have hspine := l.spine_le
  rw [others, List.length_append, List.length_cons] at hd
  have hc : minimum ≤ c.op.precedence := hm c rfl
  have hml : ∀ d ∈ l.root?, minimum ≤ d.op.precedence :=
    fun d hd => Nat.le_trans hc (hb.1 d hd).precedence_le
  refine hl hvs (hb.ends_left hop) hml hf (by omega) fun fuel' hf' => ?_
  -- The operator and the right operand come next, and the chain goes on behind them.
  have hus := hw.length
  obtain _ | fuel' := fuel'
  · omega
  refine Expr.yields_operations_binary c hop hc (by simp only; omega) ?_ (hout fuel' (by omega))
  exact hr.yields_right hb hw he (by omega) (by simp only; omega)

theorem Bound.readsBack (h : t.Bound) : t.ReadsBack := by
  induction t with
  | operand x => exact readsBack_operand x
  | joined c l r ihl ihr => exact readsBack_joined h (ihl h.2.2.1) (ihr h.2.2.2)

theorem Bound.yields_wholeExpression (h : t.Bound) {level depth : Nat} (ho : Opens ts t.kinds us)
    (hu : GroupEnds us) (hd : level + 1 + 2 * t.others.length ≤ depth) :
    Yields depth (wholeExpression level ts) (t.node, us) := by
  have he := t.ends_of_groupEnds hu
  have hchain : Yields depth (operatorChain (8 * ts.length + 7) 0 (level + 1) ts)
      ((t.node, level + 1 + t.spine), us) :=
    h.readsBack ho he (fun _ _ => Nat.zero_le _) (by omega) hd fun _ hf =>
      .of_eq (operations_stop hu.next? (by omega))
  exact Expr.yields_expression_of_chain hchain (he.unmarked _ (by decide)) (by omega) (by omega)

def sourceKinds (x : Variable) (rest : List (Connective × Variable)) : List TokenKind :=
  .name x.text :: rest.flatMap fun e => e.1.op.kinds ++ [.name e.2.text]

def source (x : Variable) (rest : List (Connective × Variable)) : String :=
  "\x7b\x7b " ++ x.text ++
    String.join (rest.map fun e => " " ++ e.1.op.symbol ++ " " ++ e.2.text) ++ " \x7d\x7d"

theorem kinds_eq (t : OperatorTree) : t.kinds = sourceKinds t.first t.others := by
  induction t with
  | operand x => rfl
  | joined c l r ihl ihr =>
    rw [kinds, ihl, ihr]
    simp [sourceKinds, first, others]

theorem spelling_kinds {op : BinaryOperator} (h : op ∈ binaryOperators) :
    (op.kinds.flatMap fun k => ' ' :: k.spelling) = ' ' :: op.symbol.toList := by
  revert op
  decide

theorem isSpellable_kinds {op : BinaryOperator} (h : op ∈ binaryOperators) :
    ∀ k ∈ op.kinds, k.isSpellable = true := by
  revert op
  decide

theorem isSpellable_sourceKinds (hx : isIdentifier x.text.toList = true)
    (hr : ∀ e ∈ rest, isIdentifier e.2.text.toList = true) :
    ∀ k ∈ sourceKinds x rest, k.isSpellable = true := by
  refine List.forall_mem_cons.2 ⟨hx, fun k hk => ?_⟩
  obtain ⟨e, he, hk⟩ := List.mem_flatMap.1 hk
  rcases List.mem_append.1 hk with hk | hk
  · exact isSpellable_kinds e.1.known k hk
  · rw [List.mem_singleton.1 hk]
    exact hr e he

theorem balanced_sourceKinds (x : Variable) (rest : List (Connective × Variable)) :
    Balanced (sourceKinds x rest) := by
  refine .cons (fun _ => rfl) ?_
  induction rest with
  | nil => exact .nil
  | cons e rest ih =>
    rw [List.flatMap_cons]
    exact ((Expr.balanced_kinds e.1.known).append (.cons (fun _ => rfl) .nil)).append ih

theorem source_eq (x : Variable) (rest : List (Connective × Variable)) :
    source x rest = String.ofList (Passage.ofKinds (sourceKinds x rest)).text := by
  have hentry (e : Connective × Variable) :
      ((e.1.op.kinds ++ [TokenKind.name e.2.text]).flatMap fun k => ' ' :: k.spelling) =
        (" " ++ e.1.op.symbol ++ " " ++ e.2.text).toList := by
    rw [List.flatMap_append, spelling_kinds e.1.known]
    simp [TokenKind.spelling]
  have htext : Spaced.text (Expr.spread (sourceKinds x rest)) = ' ' :: (x.text.toList ++
      rest.flatMap fun e => (" " ++ e.1.op.symbol ++ " " ++ e.2.text).toList) := by
    rw [Expr.spread, Spaced.text, List.flatMap_map, sourceKinds, List.flatMap_cons,
      List.flatMap_assoc]
    exact congrArg (' ' :: x.text.toList ++ ·) (List.flatMap_congr fun e _ => hentry e)
  rw [← String.toList_inj, String.toList_ofList, Passage.text, Passage.ofKinds, htext]
  simp [source, String.toList_join, List.flatMap_map, TagKind.opening, TagKind.closing]

/-- A print of operands with up to sixty-three operators between them holds the only tree that has
them in this order and binds them by precedence. -/
theorem parseTemplate_arranged
    (hx : ∀ y ∈ x :: rest.map Prod.snd, isIdentifier y.text.toList = true)
    (hn : rest.length ≤ 63) :
    ∃ t : OperatorTree, t.Arranges x rest ∧ (∀ u : OperatorTree, u.Arranges x rest → u = t) ∧
      parseTemplate (source x rest) = .ok (.module (.body [.print t.node])) := by
  obtain ⟨t, ht⟩ := exists_arranges x rest
  refine ⟨t, ht, fun u hu => hu.unique ht, ?_⟩
  obtain ⟨hx, hr⟩ := List.forall_mem_cons.1 hx
  rw [List.forall_mem_map] at hr
  have hkinds : t.kinds = sourceKinds x rest := by
    rw [kinds_eq, ht.first, ht.others]
  have hdepth : 1 + 1 + 2 * t.others.length ≤ maxNesting := by
    rw [ht.others, maxNesting]
    omega
  rw [source_eq]
  refine (Passage.yields_parseTemplate_ofKinds (isSpellable_sourceKinds hx hr)
    (balanced_sourceKinds x rest) (by decide) fun us vs ho he => ?_).ok_of_le (Nat.le_refl _)
  rw [← hkinds] at ho
  exact ht.bound.yields_wholeExpression ho he.1 hdepth

/-- Words of operators stand for variables where an operand is due. -/
theorem parseTemplate_arranged_words :
    let a : Variable := ⟨"a", by decide⟩
    let in_ : Variable := ⟨"in", by decide⟩
    let is : Variable := ⟨"is", by decide⟩
    let with_ : Variable := ⟨"with", by decide⟩
    let starts : Connective := ⟨⟨"starts with", 20, false⟩, by decide, by decide⟩
    let default : Connective := ⟨⟨"??", 300, true⟩, by decide, by decide⟩
    let minus : Connective := ⟨⟨"-", 30, false⟩, by decide, by decide⟩
    let and_ : Connective := ⟨⟨"and", 15, false⟩, by decide, by decide⟩
    let rest := [(starts, in_), (default, a), (default, is), (minus, a), (minus, in_),
      (and_, with_)]
    let tree := joined and_ (joined starts (operand a) (joined minus (joined minus
      (joined default (operand in_) (joined default (operand a) (operand is))) (operand a))
        (operand in_))) (operand with_)
    (∀ y ∈ a :: rest.map Prod.snd, isIdentifier y.text.toList = true) ∧ rest.length ≤ 63 ∧
      source a rest = "\x7b\x7b a starts with in ?? a ?? is - a - in and with \x7d\x7d" ∧
      parseTemplate (source a rest) = .ok (.module (.body [.print tree.node])) := by
  intro a in_ is with_ starts default minus and_ rest tree
  have hx : ∀ y ∈ a :: rest.map Prod.snd, isIdentifier y.text.toList = true := by decide
  refine ⟨hx, by decide, by decide, ?_⟩
  obtain ⟨t, -, ht, hp⟩ := parseTemplate_arranged hx (by decide)
  rw [hp, ht tree ⟨rfl, rfl, by decide⟩]

end OperatorTree
end Phrasebook
