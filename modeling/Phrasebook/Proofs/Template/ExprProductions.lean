import Phrasebook.Proofs.Template.ExprReading

namespace Phrasebook

theorem Variable.ofWord_text (x : Variable) : Node.ofWord x.text = Node.ofName x.text := by
  have h := x.free.2
  simp only [Node.isConstantWord, List.mem_cons, List.not_mem_nil, or_false,
    decide_eq_false_iff_not, not_or] at h
  simp [Node.ofWord, h]

namespace Expr

theorem readsBack_of_primary {e : Expr}
    (hs : ∀ ⦃ts rest⦄, Opens ts e.tokens rest → ∀ sign : Sign, (current ts).kind ≠ sign.kind)
    (h : ∀ ⦃fuel level depth : Nat⦄ ⦃ts rest : List Token⦄, Opens ts e.tokens rest →
      GroupEnds rest → 8 * ts.length + 1 ≤ fuel → level + 3 * e.node.height ≤ depth →
      Yields depth (primary fuel (level + 1) ts) (e.node, rest)) : e.ReadsBack := by
  intro fuel level depth ts rest ht hr hf hd
  obtain ⟨fuel, rfl⟩ : ∃ f, fuel = f + 3 := ⟨fuel - 3, by omega⟩
  have hpos := e.node.height_pos
  have hp : Yields depth (primary (fuel + 1) (level + 1) ts) (e.node, rest) :=
    h ht hr.1 (by omega) hd
  exact yields_expression (yields_operand (hs ht) hp (.of_eq (hr.1.links (by omega)))) hr.1
    (by omega) (by omega)

theorem primary_constant (value : Scalar) (fuel level line : Nat) (ts : List Token) :
    primary (fuel + 1) level (⟨constantKind value, line⟩ :: ts) = .ok (.constant value, ts) := by
  cases value with
  | bool b => cases b <;> simp [constantKind, primary, Node.isConstantWord, Node.ofWord]
  | _ => simp [constantKind, primary, Node.isConstantWord, Node.ofWord, Node.ofString]

theorem readsBack_constant (value : Scalar) : (constant value).ReadsBack := by
  apply readsBack_of_primary
  · intro ts rest ht sign
    obtain ⟨line, us, rfl, -⟩ := Opens.cons_iff.1 ht
    cases value with
    | bool b => cases b <;> cases sign <;> simp [constantKind, Sign.kind]
    | _ => cases sign <;> simp [constantKind, Sign.kind]
  · intro fuel level depth ts rest ht hr hf hd
    obtain ⟨line, us, rfl, hu⟩ := Opens.cons_iff.1 ht
    obtain rfl := Opens.nil_iff.1 hu
    obtain _ | fuel := fuel
    · omega
    exact .of_eq (primary_constant value fuel (level + 1) line us)

theorem name_ne_sign (x : Variable) {ks : List TokenKind} {ts rest : List Token}
    (ht : Opens ts (.name x.text :: ks) rest) (sign : Sign) : (current ts).kind ≠ sign.kind := by
  obtain ⟨line, us, rfl, -⟩ := Opens.cons_iff.1 ht
  cases sign with
  | not => exact fun h => x.free.1 (TokenKind.name.inj h)
  | minus | plus => rintro ⟨⟩

theorem readsBack_name (x : Variable) : (name x).ReadsBack := by
  apply readsBack_of_primary fun _ _ => name_ne_sign x
  intro fuel level depth ts rest ht hr hf hd
  obtain ⟨line, us, rfl, hu⟩ := Opens.cons_iff.1 ht
  obtain rfl := Opens.nil_iff.1 hu
  obtain _ | fuel := fuel
  · omega
  have hcall : ¬(!Node.isConstantWord x.text && atMark '(' us) = true := by
    simp [hr.not_atMark]
  rw [primary, if_neg hcall, x.ofWord_text]
  exact .pure _

theorem readsBack_call {f : Variable} {as : List (Option String × Expr)}
    (hp : ∀ p ∈ (call f as).parts, p.ReadsBack) : (call f as).ReadsBack := by
  apply readsBack_of_primary fun _ _ => name_ne_sign f
  intro fuel level depth ts rest ht hr hf hd
  obtain ⟨line, us, rfl, hu⟩ := Opens.cons_iff.1 ht
  obtain ⟨line', vs, rfl, hv⟩ := Opens.cons_iff.1 hu
  rw [List.length_cons, List.length_cons] at hf
  obtain _ | fuel := fuel
  · omega
  have hcall : (!Node.isConstantWord f.text && atMark '(' (⟨.punctuation '(', line'⟩ :: vs)) =
      true := by
    rw [f.free.2]
    rfl
  have has : ∀ p ∈ as.map Prod.snd, p.Fits (level + 1) depth := fun p h =>
    fits_of_mem_parts hp hd h (by omega)
  rw [primary, if_pos hcall]
  exact (yields_argumentList has hv (by omega)).bind (.pure _)

theorem readsBack_array {es : List Expr} (hp : ∀ p ∈ es, p.ReadsBack) :
    (array es).ReadsBack := by
  apply readsBack_of_primary
  · intro ts rest ht sign
    obtain ⟨line, us, rfl, -⟩ := Opens.cons_iff.1 ht
    cases sign <;> rintro ⟨⟩
  · intro fuel level depth ts rest ht hr hf hd
    obtain ⟨line, us, rfl, hu⟩ := Opens.cons_iff.1 ht
    rw [List.length_cons] at hf
    obtain _ | fuel := fuel
    · omega
    have hes : ∀ p ∈ es, p.Fits (level + 1) depth := fun p h =>
      fits_of_mem_parts (e := array es) hp hd h (by omega)
    rw [primary, if_pos rfl]
    exact (yields_itemList hes hu (by omega)).bind (.pure _)

theorem readsBack_hash {es : List (Expr × Expr)} (hp : ∀ p ∈ (hash es).parts, p.ReadsBack) :
    (hash es).ReadsBack := by
  apply readsBack_of_primary
  · intro ts rest ht sign
    obtain ⟨line, us, rfl, -⟩ := Opens.cons_iff.1 ht
    cases sign <;> rintro ⟨⟩
  · intro fuel level depth ts rest ht hr hf hd
    obtain ⟨line, us, rfl, hu⟩ := Opens.cons_iff.1 ht
    rw [List.length_cons] at hf
    obtain _ | fuel := fuel
    · omega
    have hes : ∀ p ∈ (hash es).parts, p.Fits (level + 1) depth := fun p h =>
      fits_of_mem_parts hp hd h (by omega)
    rw [primary, if_neg (by decide), if_pos rfl]
    exact (yields_entryList hes hu (by omega)).bind (.pure _)

theorem yields_optionalArguments {as : Option (List (Option String × Expr))}
    {fuel level depth : Nat} {ts rest : List Token}
    (has : ∀ p ∈ (as.getD []).map Prod.snd, p.Fits level depth)
    (h : Opens ts (optionalTokens as) rest) (hr : GroupEnds rest) (hf : 8 * ts.length < fuel) :
    Yields depth (optionalArguments fuel level ts) (as.map argumentNodes, rest) := by
  obtain _ | fuel := fuel
  · omega
  cases as with
  | none =>
    obtain rfl := Opens.nil_iff.1 h
    rw [optionalArguments, hr.not_atMark (by decide)]
    exact .pure _
  | some as =>
    obtain ⟨line, us, rfl, hu⟩ := Opens.cons_iff.1 h
    rw [List.length_cons] at hf
    rw [optionalArguments, if_pos (by rfl)]
    exact (yields_argumentList has hu (by omega)).bind (.pure _)

theorem readsBack_of_links {e s : Expr} {ks : List TokenKind}
    (ht : e.tokens = group s.tokens ++ ks) (hs : s ∈ e.parts) (hp : ∀ p ∈ e.parts, p.ReadsBack)
    (h : ∀ ⦃fuel level depth : Nat⦄ ⦃us rest : List Token⦄, Opens us ks rest → GroupEnds rest →
      8 * us.length ≤ fuel → level + 3 * e.node.height ≤ depth →
      Yields depth (links fuel (s.node, level + 1) us) ((e.node, level + 2), rest)) :
    e.ReadsBack := by
  intro fuel level depth ts rest ho hr hf hd
  rw [ht] at ho
  obtain ⟨us, hts, hus⟩ := Opens.append_iff.1 ho
  have hlen := hts.length
  obtain ⟨fuel, rfl⟩ : ∃ f, fuel = f + 3 := ⟨fuel - 3, by omega⟩
  have hfit : s.Fits (level + 1) depth := fits_of_mem_parts hp hd hs (by omega)
  have hroom := hfit.2
  have hprimary : Yields depth (primary (fuel + 1) (level + 1) ts) (s.node, us) :=
    yields_primary_group hfit.1 hts (by omega) (by omega)
  have hlinks : Yields depth (links (fuel + 1) (s.node, level + 1) us)
      ((e.node, level + 2), rest) :=
    h hus hr.1 (by omega) hd
  exact yields_expression (yields_operand (group_ne_sign hts) hprimary hlinks) hr.1 (by omega)
    (by omega)

theorem yields_links_member {key : AttributeKey} {c : Chain} {as : Option (List Node)}
    {fuel depth line line' : Nat} {us rest : List Token}
    (has : Yields depth (optionalArguments fuel (c.2 + 1) us) (as, rest)) (hr : GroupEnds rest)
    (hf : 0 < fuel) (hd : c.2 + 1 ≤ depth) :
    Yields depth (links (fuel + 1) c (⟨.punctuation '.', line⟩ :: ⟨key.kind, line'⟩ :: us))
      ((.lookup (if as.isSome then "method" else "any") c.1 key.node as, c.2 + 1), rest) := by
  have hpoint : atMark '.' (⟨.punctuation '.', line⟩ :: ⟨key.kind, line'⟩ :: us) = true := rfl
  have hkey : attributeKey (⟨key.kind, line'⟩ :: us) = .ok (key.node, us) := by
    cases key <;> rfl
  rw [links, if_pos hpoint]
  refine (Yields.descend hd _).bind ((Yields.of_eq hkey).bind (has.bind ?_))
  exact .of_eq (hr.links hf)

theorem readsBack_member {o : Expr} {key : AttributeKey}
    {as : Option (List (Option String × Expr))} (hp : ∀ p ∈ (member o key as).parts, p.ReadsBack) :
    (member o key as).ReadsBack := by
  have hnode : (member o key as).node =
      .lookup (if (as.map argumentNodes).isSome then "method" else "any") o.node key.node
        (as.map argumentNodes) := by
    cases as <;> rfl
  apply readsBack_of_links (tokens_member o key as) List.mem_cons_self hp
  intro fuel level depth us rest ho hr hf hd
  obtain ⟨line, vs, rfl, hv⟩ := Opens.cons_iff.1 ho
  obtain ⟨line', ws, rfl, hw⟩ := Opens.cons_iff.1 hv
  simp only [List.length_cons] at hf
  obtain _ | fuel := fuel
  · omega
  have has : ∀ p ∈ (as.getD []).map Prod.snd, p.Fits (level + 2) depth := fun p h =>
    fits_of_mem_parts hp hd (List.mem_cons_of_mem _ h) (Nat.le_refl _)
  have hroom := (fits_of_mem_parts hp hd List.mem_cons_self (Nat.le_refl _)).2
  rw [hnode]
  exact yields_links_member (yields_optionalArguments has hw hr (by omega)) hr (by omega)
    (by simp only; omega)

theorem readsBack_item {o key : Expr} (hp : ∀ p ∈ (item o key).parts, p.ReadsBack) :
    (item o key).ReadsBack := by
  have hs : o ∈ (item o key).parts := List.mem_cons_self
  have hk : key ∈ (item o key).parts := List.mem_cons_of_mem _ List.mem_cons_self
  apply readsBack_of_links rfl hs hp
  intro fuel level depth us rest ho hr hf hd
  obtain ⟨line, vs, rfl, hv⟩ := Opens.cons_iff.1 ho
  obtain ⟨ws, hkey, hw⟩ := Opens.append_iff.1 hv
  obtain ⟨line', xs, rfl, hx⟩ := Opens.cons_iff.1 hw
  obtain rfl := Opens.nil_iff.1 hx
  rw [List.length_cons] at hf
  obtain _ | fuel := fuel
  · omega
  have hfit : key.Fits (level + 2) depth := fits_of_mem_parts hp hd hk (Nat.le_refl _)
  have hroom := hfit.2
  have hopen : atMark '[' (⟨.punctuation '[', line⟩ :: vs) = true := rfl
  rw [links, if_neg (by exact Bool.false_ne_true), if_pos hopen]
  refine (Yields.descend (by simp only; omega) _).bind ?_
  refine (yields_group hfit hkey (exprEnds_mark (by decide) line' xs).1 (by omega)).bind ?_
  exact .of_eq (hr.links (by omega))

theorem yields_links_filter {name : String} {c : Chain} {as : Option (List Node)}
    {fuel depth line line' : Nat} {us rest : List Token}
    (has : Yields depth (optionalArguments fuel (c.2 + 1) us) (as, rest)) (hr : GroupEnds rest)
    (hf : 0 < fuel) (hd : c.2 + 1 ≤ depth) :
    Yields depth (links (fuel + 1) c (⟨.punctuation '|', line⟩ :: ⟨.name name, line'⟩ :: us))
      ((.filter c.1 name (as.getD []), c.2 + 1), rest) := by
  have hbar : atMark '|' (⟨.punctuation '|', line⟩ :: ⟨.name name, line'⟩ :: us) = true := rfl
  rw [links, if_neg (by exact Bool.false_ne_true), if_neg (by exact Bool.false_ne_true),
    if_pos hbar]
  refine (Yields.descend hd _).bind ((Yields.pure (name, us)).bind (has.bind ?_))
  exact .of_eq (hr.links hf)

theorem readsBack_filter {s : Expr} {name : String} {as : List (Option String × Expr)}
    (hp : ∀ p ∈ (filter s name as).parts, p.ReadsBack) : (filter s name as).ReadsBack := by
  -- Where no arguments are written, the list that is read is empty.
  obtain ⟨os, hos, rfl⟩ : ∃ os : Option (List (Option String × Expr)),
      (if as.isEmpty then none else some as) = os ∧ os.getD [] = as := by
    cases as <;> exact ⟨_, rfl, rfl⟩
  have hnode : (filter s name (os.getD [])).node =
      .filter s.node name ((os.map argumentNodes).getD []) := by
    cases os <;> rfl
  apply readsBack_of_links (hos ▸ tokens_filter s name (os.getD [])) List.mem_cons_self hp
  intro fuel level depth us rest ho hr hf hd
  obtain ⟨line, vs, rfl, hv⟩ := Opens.cons_iff.1 ho
  obtain ⟨line', ws, rfl, hw⟩ := Opens.cons_iff.1 hv
  simp only [List.length_cons] at hf
  obtain _ | fuel := fuel
  · omega
  have has : ∀ p ∈ (os.getD []).map Prod.snd, p.Fits (level + 2) depth := fun p h =>
    fits_of_mem_parts hp hd (List.mem_cons_of_mem _ h) (Nat.le_refl _)
  have hroom := (fits_of_mem_parts hp hd List.mem_cons_self (Nat.le_refl _)).2
  rw [hnode]
  exact yields_links_filter (yields_optionalArguments has hw hr (by omega)) hr (by omega)
    (by simp only; omega)

theorem yields_operand_sign (sign : Sign) {n : Node} {fuel level depth line : Nat}
    {us rest : List Token}
    (h : ∀ minimum, Yields depth (expression fuel minimum level us) (n, rest)) :
    Yields depth (operand (fuel + 1) level (⟨sign.kind, line⟩ :: us))
      ((.unary sign.symbol n, level), rest) := by
  cases sign with
  | not =>
    rw [operand, if_pos (by rfl)]
    exact (h _).bind (.pure _)
  | minus =>
    rw [operand, if_neg (by exact Bool.false_ne_true), if_pos (by rfl)]
    exact (h _).bind (.pure _)
  | plus =>
    have hminus : (current (⟨Sign.plus.kind, line⟩ :: us)).kind ≠ .operator "-" := by
      simp [Sign.kind]
    rw [operand, if_neg (by exact Bool.false_ne_true), if_neg hminus, if_pos (by rfl)]
    exact (h _).bind (.pure _)

theorem readsBack_unary {sign : Sign} {e : Expr} (hp : ∀ p ∈ (unary sign e).parts, p.ReadsBack) :
    (unary sign e).ReadsBack := by
  intro fuel level depth ts rest ht hr hf hd
  obtain ⟨line, us, rfl, hu⟩ := Opens.cons_iff.1 ht
  rw [List.length_cons] at hf
  obtain ⟨fuel, rfl⟩ : ∃ f, fuel = f + 2 := ⟨fuel - 2, by omega⟩
  have hfit : e.Fits (level + 1) depth :=
    fits_of_mem_parts hp hd (List.mem_singleton.2 rfl) (by omega)
  have hroom := hfit.2
  have he : ∀ minimum, Yields depth (expression fuel minimum (level + 1) us) (e.node, rest) :=
    fun minimum => yields_group hfit hu hr.1 (by omega)
  exact yields_expression (yields_operand_sign sign he) hr.1 (by omega) (by omega)

theorem yields_of_group {e : Expr} {c c' : Chain} {fuel level depth : Nat}
    {ts us vs rest : List Token} (he : e.Fits (level + 1) depth)
    (h : Opens ts (group e.tokens) us)
    (hl : atMark '.' us = false ∧ atMark '[' us = false ∧ atMark '|' us = false)
    (hf : 8 * ts.length + 2 ≤ fuel)
    (ho : Yields depth (operations fuel 0 (e.node, level + 1) us) (c, vs))
    (hc : Yields depth (conditionals fuel c vs) (c', rest)) :
    Yields depth (expression (fuel + 1) 0 level ts) (c'.1, rest) := by
  have hroom := he.2
  rw [expression]
  refine (Yields.descend (by omega) ts).bind ?_
  refine (yields_operand_group he.1 h hl hf (by omega)).bind ?_
  exact ho.bind (hc.bind (.pure _))

theorem readsBack_of_operations {e s : Expr} {ks : List TokenKind}
    (ht : e.tokens = group s.tokens ++ ks) (hs : s ∈ e.parts) (hp : ∀ p ∈ e.parts, p.ReadsBack)
    (hk : ∀ ⦃us rest⦄, Opens us ks rest → ∀ c, atMark c us = false)
    (h : ∀ ⦃fuel level depth : Nat⦄ ⦃us rest : List Token⦄, Opens us ks rest → GroupEnds rest →
      8 * us.length ≤ fuel → level + 3 * e.node.height ≤ depth →
      Yields depth (operations fuel 0 (s.node, level + 1) us) ((e.node, level + 2), rest)) :
    e.ReadsBack := by
  intro fuel level depth ts rest ho hr hf hd
  rw [ht] at ho
  obtain ⟨us, hts, hus⟩ := Opens.append_iff.1 ho
  have hlen := hts.length
  obtain _ | fuel := fuel
  · omega
  have hoperations : Yields depth (operations fuel 0 (s.node, level + 1) us)
      ((e.node, level + 2), rest) := h hus hr.1 (by omega) hd
  exact yields_of_group (fits_of_mem_parts hp hd hs (by omega)) hts ⟨hk hus _, hk hus _, hk hus _⟩
    (by omega) hoperations (.of_eq (hr.1.conditionals (by omega)))

theorem yields_operations_binary (c : Connective) {left : Chain} {r : Node}
    {out : Reading Chain} {fuel minimum depth : Nat} {ts us vs : List Token}
    (hop : Opens ts c.op.kinds us) (hm : minimum ≤ c.op.precedence) (hd : left.2 + 1 ≤ depth)
    (hr : Yields depth (expression fuel c.op.rightMinimum (left.2 + 1) us) (r, vs))
    (ho : Yields depth (operations fuel minimum (.binary c.op.symbol left.1 r, left.2 + 1) vs)
      out) :
    Yields depth (operations (fuel + 1) minimum left ts) out := by
  have htest : ¬(c.op.symbol = "is" ∨ c.op.symbol = "is not") := not_or.2 c.connects
  simp only [operations, BinaryOperator.next?_kinds c.known c.connects hop, Nat.not_lt.2 hm,
    if_false, if_neg htest]
  exact (Yields.descend hd us).bind (hr.bind ho)

theorem readsBack_binary {c : Connective} {l r : Expr}
    (hp : ∀ p ∈ (binary c l r).parts, p.ReadsBack) : (binary c l r).ReadsBack := by
  apply readsBack_of_operations rfl List.mem_cons_self hp
  · intro us rest ho
    obtain ⟨vs, hop, -⟩ := Opens.append_iff.1 ho
    exact BinaryOperator.not_atMark_kinds c.known hop
  · intro fuel level depth us rest ho hr hf hd
    obtain ⟨vs, hop, hv⟩ := Opens.append_iff.1 ho
    have hlen := hop.length
    have hshort := BinaryOperator.length_kinds_pos c.known
    obtain _ | fuel := fuel
    · omega
    have hfit : r.Fits (level + 2) depth :=
      fits_of_mem_parts hp hd (List.mem_cons_of_mem _ List.mem_cons_self) (Nat.le_refl _)
    have hroom := hfit.2
    exact yields_operations_binary c hop (Nat.zero_le _) (by simp only; omega)
      (yields_group hfit hv hr (by omega)) (.of_eq (operations_stop hr.next? (by omega)))

theorem testName_kinds (t : TestName) {us vs : List Token} (h : Opens us t.kinds vs)
    (hv : ∀ n, (current vs).kind = .name n → n ≠ "by" ∧ n ≠ "as") :
    testName us = .ok (t.text, vs) := by
  cases t with
  | word text free =>
    obtain ⟨line, ws, rfl, hw⟩ := Opens.cons_iff.1 h
    obtain rfl := Opens.nil_iff.1 hw
    rcases ws with _ | ⟨⟨k, line'⟩, ws⟩
    · rfl
    · cases k with
      | name n =>
        obtain ⟨hby, has⟩ := hv n rfl
        have hone : ¬(text = "divisible" ∧ n = "by" ∨ text = "same" ∧ n = "as") := by
          simp [hby, has]
        exact if_neg hone
      | _ => rfl
  | divisibleBy | sameAs =>
    obtain ⟨line, ws, rfl, hw⟩ := Opens.cons_iff.1 h
    obtain ⟨line', xs, rfl, hx⟩ := Opens.cons_iff.1 hw
    obtain rfl := Opens.nil_iff.1 hx
    rfl

theorem next?_test (t : TestName) {line : Nat} {us vs : List Token} (h : Opens us t.kinds vs) :
    BinaryOperator.next? (⟨.name "is", line⟩ :: us) = some (⟨"is", 100, false⟩, us) := by
  cases t with
  | word text free =>
    obtain ⟨line', ws, rfl, -⟩ := Opens.cons_iff.1 h
    exact BinaryOperator.next?_is free line line' ws
  | divisibleBy | sameAs =>
    obtain ⟨line', ws, rfl, -⟩ := Opens.cons_iff.1 h
    exact BinaryOperator.next?_is (by decide) line line' ws

theorem yields_operations_test (t : TestName) {c : Chain} {as : Option (List Node)}
    {fuel depth line : Nat} {us vs rest : List Token} (h : Opens us t.kinds vs)
    (hv : ∀ n, (current vs).kind = .name n → n ≠ "by" ∧ n ≠ "as")
    (has : Yields depth (optionalArguments fuel (c.2 + 1) vs) (as, rest)) (hr : GroupEnds rest)
    (hf : 0 < fuel) (hd : c.2 + 1 ≤ depth) :
    Yields depth (operations (fuel + 1) 0 c (⟨.name "is", line⟩ :: us))
      ((.test t.text c.1 as, c.2 + 1), rest) := by
  simp only [operations, next?_test t h, Nat.not_lt_zero, if_false, true_or, if_true]
  refine (Yields.descend hd us).bind ?_
  refine (Yields.of_eq (testName_kinds t h hv)).bind (has.bind ?_)
  exact .of_eq (operations_stop hr.next? hf)

theorem readsBack_test {t : TestName} {s : Expr} {as : Option (List (Option String × Expr))}
    (hp : ∀ p ∈ (test t s as).parts, p.ReadsBack) : (test t s as).ReadsBack := by
  have hnode : (test t s as).node = .test t.text s.node (as.map argumentNodes) := by
    cases as <;> rfl
  apply readsBack_of_operations (tokens_test t s as) List.mem_cons_self hp
  · intro us rest ho c
    obtain ⟨line, vs, rfl, -⟩ := Opens.cons_iff.1 ho
    rfl
  · intro fuel level depth us rest ho hr hf hd
    obtain ⟨line, vs, rfl, hv⟩ := Opens.cons_iff.1 ho
    obtain ⟨ws, ht, hw⟩ := Opens.append_iff.1 hv
    have hlen := ht.length
    rw [List.length_cons] at hf
    obtain _ | fuel := fuel
    · omega
    have has : ∀ p ∈ (as.getD []).map Prod.snd, p.Fits (level + 2) depth := fun p h =>
      fits_of_mem_parts hp hd (List.mem_cons_of_mem _ h) (Nat.le_refl _)
    have hroom := (fits_of_mem_parts hp hd List.mem_cons_self (Nat.le_refl _)).2
    -- A word behind the name could be taken for its second half.
    have hword : ∀ n, (current ws).kind = .name n → n ≠ "by" ∧ n ≠ "as" := by
      intro n hn
      cases as with
      | none =>
        obtain rfl := Opens.nil_iff.1 hw
        have hmem := hr.mem_of_name hn
        constructor <;> rintro rfl <;> exact absurd hmem (by decide)
      | some as =>
        obtain ⟨line', xs, rfl, -⟩ := Opens.cons_iff.1 hw
        cases hn
    rw [hnode]
    exact yields_operations_test t ht hword (yields_optionalArguments has hw hr (by omega)) hr
      (by omega) (by simp only; omega)

theorem readsBack_of_conditionals {e s : Expr} {ks : List TokenKind}
    (ht : e.tokens = group s.tokens ++ .punctuation '?' :: ks) (hs : s ∈ e.parts)
    (hp : ∀ p ∈ e.parts, p.ReadsBack)
    (h : ∀ ⦃fuel level depth line : Nat⦄ ⦃us rest : List Token⦄, Opens us ks rest → ExprEnds rest →
      8 * us.length + 8 ≤ fuel → level + 3 * e.node.height ≤ depth →
      Yields depth (conditionals fuel (s.node, level + 1) (⟨.punctuation '?', line⟩ :: us))
        ((e.node, level + 2), rest)) : e.ReadsBack := by
  intro fuel level depth ts rest ho hr hf hd
  rw [ht] at ho
  obtain ⟨vs, hts, hvs⟩ := Opens.append_iff.1 ho
  obtain ⟨line, us, rfl, hus⟩ := Opens.cons_iff.1 hvs
  have hlen := hts.length
  rw [List.length_cons] at hlen
  obtain _ | fuel := fuel
  · omega
  have hconditionals : Yields depth
      (conditionals fuel (s.node, level + 1) (⟨.punctuation '?', line⟩ :: us))
      ((e.node, level + 2), rest) := h hus hr (by omega) hd
  exact yields_of_group (fits_of_mem_parts hp hd hs (by omega)) hts ⟨rfl, rfl, rfl⟩ (by omega)
    (.of_eq (operations_stop rfl (by omega))) hconditionals

theorem readsBack_choice {c y n : Expr} (hp : ∀ p ∈ (choice c y n).parts, p.ReadsBack) :
    (choice c y n).ReadsBack := by
  apply readsBack_of_conditionals rfl List.mem_cons_self hp
  intro fuel level depth line us rest ho hr hf hd
  have hfit : ∀ p ∈ (choice c y n).parts, p.Fits (level + 1) depth := fun p h =>
    fits_of_mem_parts hp hd h (by omega)
  obtain ⟨-, hy, hn⟩ : c.Fits (level + 1) depth ∧ y.Fits (level + 1) depth ∧
      n.Fits (level + 1) depth := by simpa [parts] using hfit
  have hroom := hn.2
  obtain ⟨vs, hyes, hv⟩ := Opens.append_iff.1 ho
  obtain ⟨line', ws, rfl, hno⟩ := Opens.cons_iff.1 hv
  have hlen := hyes.length
  rw [List.length_cons] at hlen
  obtain _ | fuel := fuel
  · omega
  have hyields : Yields depth (expression fuel 0 (level + 1) us) (y.node, _) :=
    yields_group hy hyes rfl (by omega)
  obtain ⟨line'', xs, rfl, -⟩ := Opens.cons_iff.1 hyes
  rw [conditionals, if_neg (by exact Bool.false_ne_true), if_neg (by exact Bool.false_ne_true)]
  refine hyields.bind ((yields_group hn hno hr.1 (by omega)).bind ?_)
  refine (Yields.descend (by simp only; omega) _).bind ?_
  exact .of_eq (hr.1.conditionals (by omega))

theorem readsBack_guarded {c y : Expr} (hp : ∀ p ∈ (guarded c y).parts, p.ReadsBack) :
    (guarded c y).ReadsBack := by
  apply readsBack_of_conditionals rfl List.mem_cons_self hp
  intro fuel level depth line us rest ho hr hf hd
  have hy : y.Fits (level + 1) depth :=
    fits_of_mem_parts hp hd (List.mem_cons_of_mem _ List.mem_cons_self) (by omega)
  have hroom := hy.2
  obtain _ | fuel := fuel
  · omega
  have hyields : Yields depth (expression fuel 0 (level + 1) us) (y.node, rest) :=
    yields_group hy ho hr.1 (by omega)
  have hcolon : ¬atMark ':' rest = true := by
    rw [atMark_eq_false hr.2]
    exact Bool.false_ne_true
  obtain ⟨line', xs, rfl, -⟩ := Opens.cons_iff.1 ho
  rw [conditionals, if_neg (by exact Bool.false_ne_true), if_neg (by exact Bool.false_ne_true)]
  refine hyields.bind ?_
  simp only [if_neg hcolon]
  refine (Yields.descend (by omega) _).bind ?_
  exact .of_eq (hr.1.conditionals (by omega))

theorem readsBack_fallback {c n : Expr} (hp : ∀ p ∈ (fallback c n).parts, p.ReadsBack) :
    (fallback c n).ReadsBack := by
  apply readsBack_of_conditionals rfl List.mem_cons_self hp
  intro fuel level depth line us rest ho hr hf hd
  have hn : n.Fits (level + 1) depth :=
    fits_of_mem_parts hp hd (List.mem_cons_of_mem _ List.mem_cons_self) (by omega)
  have hroom := hn.2
  obtain ⟨line', vs, rfl, hv⟩ := Opens.cons_iff.1 ho
  rw [List.length_cons] at hf
  obtain _ | fuel := fuel
  · omega
  rw [conditionals, if_neg (by exact Bool.false_ne_true), if_pos (by rfl)]
  refine (yields_group hn hv hr.1 (by omega)).bind ?_
  refine (Yields.descend (by simp only; omega) _).bind ?_
  exact .of_eq (hr.1.conditionals (by omega))

theorem readsBack (e : Expr) : e.ReadsBack := by
  induction e using partsInduction with
  | step e hp =>
    cases e with
    | constant value => exact readsBack_constant value
    | name x => exact readsBack_name x
    | call => exact readsBack_call hp
    | array => exact readsBack_array hp
    | hash => exact readsBack_hash hp
    | member => exact readsBack_member hp
    | item => exact readsBack_item hp
    | filter => exact readsBack_filter hp
    | unary => exact readsBack_unary hp
    | binary => exact readsBack_binary hp
    | test => exact readsBack_test hp
    | choice => exact readsBack_choice hp
    | guarded => exact readsBack_guarded hp
    | fallback => exact readsBack_fallback hp

theorem yields_wholeExpression {e : Expr} {level depth : Nat} {ts rest : List Token}
    (h : Opens ts e.tokens rest) (hr : ExprEnds rest) (hd : level + 3 * e.node.height ≤ depth) :
    Yields depth (wholeExpression level ts) (e.node, rest) :=
  e.readsBack h hr (by rw [expressionFuel]; omega) hd

end Expr
end Phrasebook
