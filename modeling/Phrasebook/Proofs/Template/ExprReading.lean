import Phrasebook.Proofs.Template.Expr
import Phrasebook.Proofs.Template.Yields

/-!
Expressions are read back from the tokens that write them. Each production is read back when its
parts are; all calls on the way get along with eight steps for each unread token.
-/
namespace Phrasebook

theorem exprEnds_tagEnd (kind : TagKind) (line : Nat) (ts : List Token) :
    ExprEnds (⟨.tagEnd kind, line⟩ :: ts) :=
  ⟨rfl, by rintro ⟨⟩⟩

theorem exprEnds_mark {c : Char} (h : c ∈ [')', ']', '}', ',']) (line : Nat) (ts : List Token) :
    ExprEnds (⟨.punctuation c, line⟩ :: ts) := by
  simp only [List.mem_cons, List.not_mem_nil, or_false] at h
  rcases h with rfl | rfl | rfl | rfl <;> exact ⟨rfl, by rintro ⟨⟩⟩

namespace BinaryOperator

theorem kinds_cases {op : BinaryOperator} (h : op ∈ binaryOperators) :
    (op.kinds = [.operator op.symbol] ∨ op.kinds = [.name op.symbol]) ∧
        ofSymbol? op.symbol = some op ∨
      ∃ w ∈ twoWordOperators, op.kinds = [.name w.1, .name w.2] ∧
        ofSymbol? (w.1 ++ " " ++ w.2) = some op := by
  revert op
  decide

theorem length_kinds_pos {op : BinaryOperator} (h : op ∈ binaryOperators) :
    0 < op.kinds.length := by
  rcases kinds_cases h with ⟨hk | hk, -⟩ | ⟨w, -, hk, -⟩ <;> rw [hk] <;> exact Nat.succ_pos _

theorem notMem_twoWordOperators {op : BinaryOperator} (h : op ∈ binaryOperators)
    (hc : op.symbol ≠ "is" ∧ op.symbol ≠ "is not") :
    op.symbol ∉ twoWordOperators.map Prod.fst := by
  revert op
  decide

theorem next?_kinds {op : BinaryOperator} (h : op ∈ binaryOperators)
    (hc : op.symbol ≠ "is" ∧ op.symbol ≠ "is not") {ts us : List Token}
    (ho : Opens ts op.kinds us) : next? ts = some (op, us) := by
  rcases kinds_cases h with ⟨hk | hk, hs⟩ | ⟨w, hw, hk, hs⟩ <;> rw [hk] at ho
  · obtain ⟨l, vs, rfl, hv⟩ := Opens.cons_iff.1 ho
    rw [Opens.nil_iff.1 hv, next?, hs]
    rfl
  · obtain ⟨l, vs, rfl, hv⟩ := Opens.cons_iff.1 ho
    obtain rfl := Opens.nil_iff.1 hv
    have hpair (second : String) : (op.symbol, second) ∉ twoWordOperators :=
      fun hm => notMem_twoWordOperators h hc (List.mem_map_of_mem hm)
    rw [next?.eq_def]
    split
    · next he => cases he
    · next he =>
      cases he
      rw [if_neg (hpair _), hs]
      rfl
    · next he =>
      cases he
      rw [hs]
      rfl
    · next hno => exact absurd rfl (hno _ _ _)
  · obtain ⟨l, vs, rfl, hv⟩ := Opens.cons_iff.1 ho
    obtain ⟨l', ws, rfl, hw'⟩ := Opens.cons_iff.1 hv
    rw [Opens.nil_iff.1 hw', next?, if_pos hw, hs]
    rfl

theorem not_atMark_kinds {op : BinaryOperator} (h : op ∈ binaryOperators) {ts rest : List Token}
    (ho : Opens ts op.kinds rest) (c : Char) : atMark c ts = false := by
  apply atMark_eq_false
  rcases kinds_cases h with ⟨hk | hk, -⟩ | ⟨w, -, hk, -⟩ <;>
  · rw [hk] at ho
    obtain ⟨l, vs, rfl, -⟩ := Opens.cons_iff.1 ho
    exact fun he => by cases he

theorem next?_is {t : String} (h : t ≠ "not") (l l' : Nat) (us : List Token) :
    next? (⟨.name "is", l⟩ :: ⟨.name t, l'⟩ :: us) =
      some (⟨"is", 100, false⟩, ⟨.name t, l'⟩ :: us) := by
  have hw : ("is", t) ∉ twoWordOperators := by
    simp [twoWordOperators, h]
  rw [next?, if_neg hw]
  rfl

end BinaryOperator

section Stop

variable {fuel minimum : Nat} {s : Chain} {ts : List Token}

theorem links_stop (h : atMark '.' ts = false ∧ atMark '[' ts = false ∧ atMark '|' ts = false)
    (hf : 0 < fuel) : links fuel s ts = .ok (s, ts) := by
  obtain ⟨fuel, rfl⟩ := Nat.exists_eq_add_of_lt hf
  simp [links, h]

theorem operations_loose (h : ∀ op us, BinaryOperator.next? ts = some (op, us) →
    op.precedence < minimum) (hf : 0 < fuel) : operations fuel minimum s ts = .ok (s, ts) := by
  obtain _ | fuel := fuel
  · omega
  rw [operations]
  split
  · rfl
  · next op us hn => rw [if_pos (h op us hn)]

theorem operations_stop (h : BinaryOperator.next? ts = none) (hf : 0 < fuel) :
    operations fuel minimum s ts = .ok (s, ts) :=
  operations_loose (by rw [h]; nofun) hf

theorem conditionals_stop (h : atMark '?' ts = false) (hf : 0 < fuel) :
    conditionals fuel s ts = .ok (s, ts) := by
  obtain ⟨fuel, rfl⟩ := Nat.exists_eq_add_of_lt hf
  simp [conditionals, h]

theorem GroupEnds.links (h : GroupEnds ts) (hf : 0 < fuel) : links fuel s ts = .ok (s, ts) :=
  links_stop ⟨h.not_atMark (by decide), h.not_atMark (by decide), h.not_atMark (by decide)⟩ hf

theorem GroupEnds.conditionals (h : GroupEnds ts) (hf : 0 < fuel) :
    conditionals fuel s ts = .ok (s, ts) :=
  conditionals_stop (h.not_atMark (by decide)) hf

end Stop

def operatorChain (fuel minimum level : Nat) (ts : List Token) :
    Except ParseError (Reading Chain) := do
  let (first, ts) ← operand fuel level ts
  operations fuel minimum first ts

namespace Expr

/-- Wherever an expression ends, it is read back from its tokens. A node takes three levels of
nesting at most. -/
def ReadsBack (e : Expr) : Prop :=
  ∀ ⦃fuel level depth : Nat⦄ ⦃ts rest : List Token⦄, Opens ts e.tokens rest → ExprEnds rest →
    8 * ts.length + 3 ≤ fuel → level + 3 * e.node.height ≤ depth →
    Yields depth (expression fuel 0 level ts) (e.node, rest)

/-- An expression that is read back, with enough room below a level for parentheses around it. -/
def Fits (level depth : Nat) (e : Expr) : Prop :=
  e.ReadsBack ∧ level + 1 + 3 * e.node.height ≤ depth

theorem fits_of_mem_parts {e p : Expr} {l level depth : Nat} (he : ∀ p ∈ e.parts, p.ReadsBack)
    (hd : level + 3 * e.node.height ≤ depth) (h : p ∈ e.parts) (hl : l ≤ level + 2) :
    p.Fits l depth := by
  have := height_lt_of_mem_parts h
  exact ⟨he p h, by omega⟩

section Steps

variable {e : Expr} {c c' : Chain} {n : Node} {fuel level depth minimum : Nat}
  {ts us vs rest : List Token}

theorem yields_operand (hs : ∀ sign : Sign, (current ts).kind ≠ sign.kind)
    (hp : Yields depth (primary fuel level ts) (n, us))
    (hl : Yields depth (links fuel (n, level) us) (c, rest)) :
    Yields depth (operand (fuel + 1) level ts) (c, rest) := by
  have hn : ¬atName "not" ts = true := fun h => hs .not (eq_of_beq h)
  have hm : (current ts).kind ≠ .operator "-" := hs .minus
  have hp' : (current ts).kind ≠ .operator "+" := hs .plus
  rw [operand, if_neg hn, if_neg hm, if_neg hp']
  exact hp.bind hl

theorem yields_expression_of_chain (h : Yields depth (operatorChain fuel minimum (level + 1) ts)
    (c, rest)) (hr : atMark '?' rest = false) (hf : 0 < fuel) (hd : level + 1 ≤ depth) :
    Yields depth (expression (fuel + 1) minimum level ts) (c.1, rest) := by
  have hc : Yields depth (operatorChain fuel minimum (level + 1) ts >>= fun p =>
      if minimum = 0 then do
        let (whole, us) ← conditionals fuel p.1 p.2
        return (whole.1, us)
      else return (p.1.1, p.2)) (c.1, rest) := by
    refine h.bind ?_
    split
    · exact (Yields.of_eq (conditionals_stop hr hf)).bind (.pure _)
    · exact .pure _
  rw [operatorChain, bind_assoc] at hc
  rw [expression]
  exact (Yields.descend hd ts).bind hc

theorem yields_expression (ho : Yields depth (operand fuel (level + 1) ts) (c, rest))
    (hr : GroupEnds rest) (hf : 0 < fuel) (hd : level + 1 ≤ depth) :
    Yields depth (expression (fuel + 1) minimum level ts) (c.1, rest) :=
  yields_expression_of_chain (ho.bind (.of_eq (operations_stop hr.next? hf)))
    (hr.not_atMark (by decide)) hf hd

theorem opens_group (h : Opens ts (group e.tokens) rest) : ∃ line line' us,
    ts = ⟨.punctuation '(', line⟩ :: us ∧
      Opens us e.tokens (⟨.punctuation ')', line'⟩ :: rest) := by
  obtain ⟨line, us, rfl, hu⟩ := Opens.cons_iff.1 h
  obtain ⟨vs, hv, hc⟩ := Opens.append_iff.1 hu
  obtain ⟨line', ws, rfl, hw⟩ := Opens.cons_iff.1 hc
  obtain rfl := Opens.nil_iff.1 hw
  exact ⟨line, line', us, rfl, hv⟩

theorem yields_primary_group (he : e.ReadsBack) (h : Opens ts (group e.tokens) rest)
    (hf : 8 * ts.length + 1 ≤ fuel) (hd : level + 3 * e.node.height ≤ depth) :
    Yields depth (primary fuel level ts) (e.node, rest) := by
  obtain ⟨line, line', us, rfl, hu⟩ := opens_group h
  rw [List.length_cons] at hf
  obtain _ | fuel := fuel
  · omega
  rw [primary]
  exact (he hu (exprEnds_mark (by decide) line' rest) (by omega) hd).bind (.pure _)

theorem group_ne_sign (h : Opens ts (group e.tokens) rest) (sign : Sign) :
    (current ts).kind ≠ sign.kind := by
  obtain ⟨line, line', us, rfl, -⟩ := opens_group h
  cases sign <;> rintro ⟨⟩

theorem yields_operand_group (he : e.ReadsBack) (h : Opens ts (group e.tokens) rest)
    (hr : atMark '.' rest = false ∧ atMark '[' rest = false ∧ atMark '|' rest = false)
    (hf : 8 * ts.length + 2 ≤ fuel) (hd : level + 3 * e.node.height ≤ depth) :
    Yields depth (operand fuel level ts) ((e.node, level), rest) := by
  obtain ⟨fuel, rfl⟩ : ∃ f, fuel = f + 2 := ⟨fuel - 2, by omega⟩
  exact yields_operand (group_ne_sign h) (yields_primary_group he h (by omega) hd)
    (.of_eq (links_stop hr (by omega)))

theorem yields_group (he : e.Fits level depth) (h : Opens ts (group e.tokens) rest)
    (hr : GroupEnds rest) (hf : 8 * ts.length + 3 ≤ fuel) :
    Yields depth (expression fuel minimum level ts) (e.node, rest) := by
  obtain ⟨fuel, rfl⟩ : ∃ f, fuel = f + 3 := ⟨fuel - 3, by omega⟩
  have hd := he.2
  refine yields_expression (yields_operand_group he.1 h ?_ (by omega) hd) hr (by omega) (by omega)
  exact ⟨hr.not_atMark (by decide), hr.not_atMark (by decide), hr.not_atMark (by decide)⟩

def ListGoesOn (close : Char) (kss : List (List TokenKind)) (ts rest : List Token) : Prop :=
  (kss = [] ∧ ∃ line, ts = ⟨.punctuation close, line⟩ :: rest) ∨
    ∃ line us, ts = ⟨.punctuation ',', line⟩ :: us ∧ Opens us (listed close kss) rest

theorem opens_listed_cons {close : Char} {ks : List TokenKind} {kss : List (List TokenKind)}
    (h : Opens ts (listed close (ks :: kss)) rest) :
    ∃ us, Opens ts ks us ∧ ListGoesOn close kss us rest := by
  cases kss with
  | nil =>
    obtain ⟨us, hu, hc⟩ := Opens.append_iff.1 h
    obtain ⟨line, vs, rfl, hv⟩ := Opens.cons_iff.1 hc
    obtain rfl := Opens.nil_iff.1 hv
    exact ⟨_, hu, .inl ⟨rfl, line, rfl⟩⟩
  | cons ls kss =>
    obtain ⟨us, hu, hc⟩ := Opens.append_iff.1 h
    obtain ⟨line, vs, rfl, hv⟩ := Opens.cons_iff.1 hc
    exact ⟨_, hu, .inr ⟨line, vs, rfl, hv⟩⟩

namespace ListGoesOn

variable {close : Char} {kss : List (List TokenKind)}

theorem exprEnds (h : ListGoesOn close kss ts rest) (hc : close ∈ [')', ']', '}']) :
    ExprEnds ts := by
  obtain ⟨-, line, rfl⟩ | ⟨line, us, rfl, -⟩ := h
  · exact exprEnds_mark (List.mem_append_left [','] hc) line rest
  · exact exprEnds_mark (by decide) line us

theorem yields (ns : List Node) {loop : List Token → Except ParseError (Reading (List Node))}
    {ms : List Node} (h : ListGoesOn close kss ts rest) (hc : close ∈ [')', ']', '}'])
    (hms : kss = [] → ms = [])
    (hloop : ∀ us, us.length < ts.length → Opens us (listed close kss) rest →
      Yields depth (loop us) (ms, rest)) :
    Yields depth
      (if atMark ',' ts then do
        let (others, us) ← loop ts.tail
        return (ns ++ others, us)
      else return (ns, ← expectMark close ts)) (ns ++ ms, rest) := by
  obtain ⟨rfl, line, rfl⟩ | ⟨line, us, rfl, hu⟩ := h
  · have hcomma : ¬atMark ',' (⟨.punctuation close, line⟩ :: rest) = true := by
      intro he
      obtain rfl : close = ',' := TokenKind.punctuation.inj (eq_of_beq he)
      exact absurd hc (by decide)
    rw [if_neg hcomma, expectMark, expect_cons, hms rfl, List.append_nil]
    exact .pure _
  · have hcomma : atMark ',' (⟨.punctuation ',', line⟩ :: us) = true := beq_self_eq_true _
    rw [if_pos hcomma]
    exact (hloop us (Nat.lt_succ_self _) hu).bind (.pure _)

end ListGoesOn

theorem yields_itemList {es : List Expr} (he : ∀ e ∈ es, e.Fits level depth)
    (h : Opens ts (listed ']' (itemTokens es)) rest) (hf : 8 * ts.length + 4 ≤ fuel) :
    Yields depth (itemList fuel level ts) (nodes es, rest) := by
  induction es generalizing fuel ts with
  | nil =>
    obtain ⟨line, us, rfl, hu⟩ := Opens.cons_iff.1 h
    obtain rfl := Opens.nil_iff.1 hu
    obtain _ | fuel := fuel
    · omega
    rw [itemList]
    exact .pure _
  | cons e es ih =>
    obtain ⟨hfirst, hothers⟩ := List.forall_mem_cons.1 he
    obtain ⟨us, hu, hmore⟩ := opens_listed_cons h
    have hlen := hu.length
    have hopen : ¬atMark ']' ts = true := by
      obtain ⟨line, vs, rfl, -⟩ := Opens.cons_iff.1 hu
      rintro ⟨⟩
    obtain _ | fuel := fuel
    · omega
    rw [itemList, if_neg hopen]
    refine (yields_group hfirst hu (hmore.exprEnds (by decide)).1 (by omega)).bind ?_
    refine hmore.yields [e.node] (by decide) ?_ fun vs hlt hv => ih hothers hv (by omega)
    intro hes
    cases es with
    | nil => rfl
    | cons => cases hes

theorem argument_of_ne_name (h : ∀ name, (current ts).kind ≠ .name name) :
    argument (fuel + 1) level ts = expression fuel 0 level ts := by
  rw [argument]
  intro name _ _ _ ht
  subst ht
  exact h name rfl

theorem yields_argument {a : Option String × Expr} (he : a.2.Fits level depth)
    (h : Opens ts (argumentKinds a) rest) (hr : GroupEnds rest) (hf : 8 * ts.length + 4 ≤ fuel) :
    Yields depth (argument fuel level ts) (argumentNode a, rest) := by
  obtain _ | fuel := fuel
  · omega
  obtain ⟨_ | name, e⟩ := a
  · rw [argument_of_ne_name]
    · exact yields_group he h hr (by omega)
    · obtain ⟨line, us, rfl, -⟩ := Opens.cons_iff.1 h
      rintro _ ⟨⟩
  · obtain ⟨line, us, rfl, hu⟩ := Opens.cons_iff.1 h
    obtain ⟨line', vs, rfl, hv⟩ := Opens.cons_iff.1 hu
    rw [List.length_cons, List.length_cons] at hf
    rw [argument]
    exact (yields_group he hv hr (by omega)).bind (.pure _)

theorem argumentKinds_ne_close {a : Option String × Expr} (h : Opens ts (argumentKinds a) rest) :
    ¬atMark ')' ts = true := by
  obtain ⟨_ | name, e⟩ := a
  all_goals
    obtain ⟨line, us, rfl, -⟩ := Opens.cons_iff.1 h
    rintro ⟨⟩

theorem yields_argumentList {as : List (Option String × Expr)}
    (he : ∀ e ∈ as.map Prod.snd, e.Fits level depth)
    (h : Opens ts (listed ')' (argumentTokens as)) rest) (hf : 8 * ts.length + 5 ≤ fuel) :
    Yields depth (argumentList fuel level ts) (argumentNodes as, rest) := by
  induction as generalizing fuel ts with
  | nil =>
    obtain ⟨line, us, rfl, hu⟩ := Opens.cons_iff.1 h
    obtain rfl := Opens.nil_iff.1 hu
    obtain _ | fuel := fuel
    · omega
    rw [argumentList]
    exact .pure _
  | cons a as ih =>
    obtain ⟨hfirst, hothers⟩ := List.forall_mem_cons.1 he
    rw [argumentTokens_cons] at h
    obtain ⟨us, hu, hmore⟩ := opens_listed_cons h
    have hlen := hu.length
    obtain _ | fuel := fuel
    · omega
    rw [argumentList, if_neg (argumentKinds_ne_close hu), argumentNodes_cons]
    refine (yields_argument hfirst hu (hmore.exprEnds (by decide)).1 (by omega)).bind ?_
    refine hmore.yields [argumentNode a] (by decide) ?_ fun vs hlt hv =>
      ih hothers hv (by omega)
    intro has
    cases as with
    | nil => rfl
    | cons b as => cases (argumentTokens_cons b as).symm.trans has

theorem yields_entryKey (he : e.Fits level depth) (h : Opens ts (group e.tokens) rest)
    (hf : 8 * ts.length + 1 ≤ fuel) :
    Yields depth (entryKey fuel level ts) (e.node, rest) := by
  obtain ⟨line, line', us, rfl, hu⟩ := opens_group h
  rw [List.length_cons] at hf
  obtain _ | fuel := fuel
  · omega
  have hd := he.2
  rw [entryKey]
  exact (he.1 hu (exprEnds_mark (by decide) line' rest) (by omega) (by omega)).bind (.pure _)

theorem yields_entryList {es : List (Expr × Expr)}
    (he : ∀ e ∈ es.flatMap fun e => [e.1, e.2], e.Fits level depth)
    (h : Opens ts (listed '}' (entryTokens es)) rest) (hf : 8 * ts.length + 4 ≤ fuel) :
    Yields depth (entryList fuel level ts) (entryNodes es, rest) := by
  induction es generalizing fuel ts with
  | nil =>
    obtain ⟨line, us, rfl, hu⟩ := Opens.cons_iff.1 h
    obtain rfl := Opens.nil_iff.1 hu
    obtain _ | fuel := fuel
    · omega
    rw [entryList]
    exact .pure _
  | cons e es ih =>
    obtain ⟨key, value⟩ := e
    rw [List.flatMap_cons, List.forall_mem_append, List.forall_mem_cons,
      List.forall_mem_singleton] at he
    obtain ⟨⟨hkey, hvalue⟩, hothers⟩ := he
    obtain ⟨us, hu, hmore⟩ := opens_listed_cons h
    obtain ⟨vs, hk, hu'⟩ := Opens.append_iff.1 hu
    obtain ⟨line, ws, rfl, hv⟩ := Opens.cons_iff.1 hu'
    have hlen := hk.length
    have hlen' := hv.length
    rw [List.length_cons] at hlen
    have hopen : ¬atMark '}' ts = true := by
      obtain ⟨line, vs, rfl, -⟩ := Opens.cons_iff.1 hk
      rintro ⟨⟩
    obtain _ | fuel := fuel
    · omega
    rw [entryList, if_neg hopen]
    refine (yields_entryKey hkey hk (by omega)).bind ?_
    refine (Yields.of_eq (expect_cons (.punctuation ':') line ws)).bind ?_
    refine (yields_group hvalue hv (hmore.exprEnds (by decide)).1 (by omega)).bind ?_
    refine hmore.yields [key.node, value.node] (by decide) ?_ fun vs hlt hv =>
      ih hothers hv (by omega)
    intro hes
    cases es with
    | nil => rfl
    | cons => cases hes

end Steps

theorem exists_tokens_eq_cons (e : Expr) : ∃ k ks, e.tokens = k :: ks ∧
    k ≠ .tagEnd .block ∧ k ≠ .punctuation ',' ∧ k ≠ .punctuation '=' := by
  cases e with
  | constant value =>
    cases value <;> exact ⟨_, _, rfl, by rintro ⟨⟩, by rintro ⟨⟩, by rintro ⟨⟩⟩
  | member o key as => cases as <;> exact ⟨_, _, rfl, by rintro ⟨⟩, by decide, by decide⟩
  | filter s n as => cases as <;> exact ⟨_, _, rfl, by rintro ⟨⟩, by decide, by decide⟩
  | unary sign e => cases sign <;> exact ⟨_, _, rfl, by rintro ⟨⟩, by rintro ⟨⟩, by rintro ⟨⟩⟩
  | test t s as => cases as <;> exact ⟨_, _, rfl, by rintro ⟨⟩, by decide, by decide⟩
  | name | call => exact ⟨_, _, rfl, by rintro ⟨⟩, by rintro ⟨⟩, by rintro ⟨⟩⟩
  | _ => exact ⟨_, _, rfl, by rintro ⟨⟩, by decide, by decide⟩

end Expr
end Phrasebook
