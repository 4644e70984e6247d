import Phrasebook.Proofs.Template.Expr
import Phrasebook.Template.Statement

/-!
The grammar of expressions as a relation. `Reads p ts us` says that the tokens `ts` begin with the
part `p` and go on with `us`; a part says at which nesting level it stands and what it comes to.
Whatever the parser reads is read so, which leaves its properties to inductions on the relation.
-/
namespace Phrasebook

theorem ok_of_bind {ε α β : Type} {x : Except ε α} {f : α → Except ε β} {b : β}
    (h : x >>= f = .ok b) : ∃ a, x = .ok a ∧ f a = .ok b := by
  cases x with
  | error e => cases h
  | ok a => exact ⟨a, rfl, h⟩

section Steps

variable {ts us : List Token} {k : TokenKind} {level level' : Nat} {name : String}

theorem exists_cons_of_current (h : (current ts).kind = k) (hk : k ≠ .eof) :
    ∃ line us, ts = ⟨k, line⟩ :: us := by
  cases ts with
  | nil => exact absurd h.symm hk
  | cons t ts =>
    subst h
    exact ⟨t.line, ts, rfl⟩

theorem exists_cons_of_atMark {c : Char} (h : atMark c ts = true) :
    ∃ line us, ts = ⟨.punctuation c, line⟩ :: us :=
  exists_cons_of_current (eq_of_beq h) (by rintro ⟨⟩)

theorem exists_cons_of_atName (h : atName name ts = true) :
    ∃ line us, ts = ⟨.name name, line⟩ :: us :=
  exists_cons_of_current (eq_of_beq h) (by rintro ⟨⟩)

theorem exists_cons_of_expect (h : expect k ts = .ok us) (hk : k ≠ .eof) :
    ∃ line, ts = ⟨k, line⟩ :: us := by
  rw [expect] at h
  split at h
  · next hc =>
    obtain ⟨line, vs, rfl⟩ := exists_cons_of_current hc hk
    cases h
    exact ⟨line, rfl⟩
  · cases h

theorem exists_cons_of_expectMark {c : Char} (h : expectMark c ts = .ok us) :
    ∃ line, ts = ⟨.punctuation c, line⟩ :: us :=
  exists_cons_of_expect h (by rintro ⟨⟩)

theorem exists_cons_of_expectName (h : expectName ts = .ok (name, us)) :
    ∃ line, ts = ⟨.name name, line⟩ :: us := by
  rw [expectName.eq_def] at h
  split at h
  · cases h
    exact ⟨_, rfl⟩
  · cases h

theorem descend_eq_ok (h : descend level ts = .ok level') :
    level < maxNesting ∧ level' = level + 1 := by
  rw [descend] at h
  split at h
  · next hl =>
    cases h
    exact ⟨hl, rfl⟩
  · cases h

end Steps

def Sign.minimum : Sign → Nat
  | not => notPrecedence
  | minus | plus => signPrecedence

/-- A part of an expression, or of a tag that holds expressions, and what it comes to. -/
inductive ExprPart
  | expression (minimum level : Nat) (e : Node)
  | operand (level : Nat) (c : Chain)
  | operations (minimum : Nat) (left c : Chain)
  | conditionals (condition c : Chain)
  | primary (level : Nat) (e : Node)
  | links (subject c : Chain)
  | optionalArguments (level : Nat) (arguments : Option (List Node))
  | argumentList (level : Nat) (arguments : List Node)
  | argument (level : Nat) (e : Node)
  | itemList (level : Nat) (items : List Node)
  | entryList (level : Nat) (entries : List Node)
  | entryKey (level : Nat) (key : Node)
  | tagArguments (level : Nat) (arguments : List Node)
  | expressionList (level : Nat) (values : List Node)
  | transOptions (level : Nat) (given options : TransOptions)
  | loopCondition (level : Nat) (condition : Option Node)

namespace ExprPart

inductive Reads : ExprPart → List Token → List Token → Prop
  | bounded {minimum level : Nat} {first left : Chain} {ts us vs : List Token}
      (hm : minimum ≠ 0) (hl : level < maxNesting)
      (hf : Reads (.operand (level + 1) first) ts us)
      (ho : Reads (.operations minimum first left) us vs) :
      Reads (.expression minimum level left.1) ts vs
  | whole {level : Nat} {first left whole : Chain} {ts us vs ws : List Token}
      (hl : level < maxNesting) (hf : Reads (.operand (level + 1) first) ts us)
      (ho : Reads (.operations 0 first left) us vs)
      (hc : Reads (.conditionals left whole) vs ws) :
      Reads (.expression 0 level whole.1) ts ws
  | sign (s : Sign) {level line : Nat} {e : Node} {ts us : List Token}
      (he : Reads (.expression s.minimum level e) ts us) :
      Reads (.operand level (.unary s.symbol e, level)) (⟨s.kind, line⟩ :: ts) us
  | chain {level : Nat} {e : Node} {c : Chain} {ts us vs : List Token}
      (hs : ∀ s : Sign, (current ts).kind ≠ s.kind) (hp : Reads (.primary level e) ts us)
      (hl : Reads (.links (e, level) c) us vs) : Reads (.operand level c) ts vs
  | operationsEnd {minimum : Nat} {left : Chain} {ts : List Token}
      (h : ∀ op us, BinaryOperator.next? ts = some (op, us) → op.precedence < minimum) :
      Reads (.operations minimum left left) ts ts
  | test {minimum : Nat} {op : BinaryOperator} {name : String} {arguments : Option (List Node)}
      {left c : Chain} {ts us vs ws xs : List Token}
      (hn : BinaryOperator.next? ts = some (op, us)) (hp : minimum ≤ op.precedence)
      (hl : left.2 < maxNesting) (hs : op.symbol = "is") (ht : testName us = .ok (name, vs))
      (ha : Reads (.optionalArguments (left.2 + 1) arguments) vs ws)
      (ho : Reads (.operations minimum (.test name left.1 arguments, left.2 + 1) c) ws xs) :
      Reads (.operations minimum left c) ts xs
  | negatedTest {minimum : Nat} {op : BinaryOperator} {name : String}
      {arguments : Option (List Node)} {left c : Chain} {ts us vs ws xs : List Token}
      (hn : BinaryOperator.next? ts = some (op, us)) (hp : minimum ≤ op.precedence)
      (hl : left.2 < maxNesting) (hs : op.symbol = "is not")
      (ht : testName us = .ok (name, vs))
      (ha : Reads (.optionalArguments (left.2 + 1) arguments) vs ws)
      (ho : Reads (.operations minimum
        (.unary "not" (.test name left.1 arguments), left.2 + 1) c) ws xs) :
      Reads (.operations minimum left c) ts xs
  | binary {minimum : Nat} {op : BinaryOperator} {right : Node} {left c : Chain}
      {ts us vs ws : List Token} (hn : BinaryOperator.next? ts = some (op, us))
      (hp : minimum ≤ op.precedence) (hl : left.2 < maxNesting)
      (hs : op.symbol ≠ "is" ∧ op.symbol ≠ "is not")
      (hr : Reads (.expression op.rightMinimum (left.2 + 1) right) us vs)
      (ho : Reads (.operations minimum (.binary op.symbol left.1 right, left.2 + 1) c) vs ws) :
      Reads (.operations minimum left c) ts ws
  | conditionalsEnd {condition : Chain} {ts : List Token} (h : atMark '?' ts = false) :
      Reads (.conditionals condition condition) ts ts
  | fallback {line line' : Nat} {no : Node} {condition c : Chain} {ts us vs : List Token}
      (hn : Reads (.expression 0 condition.2 no) ts us) (hl : condition.2 < maxNesting)
      (hc : Reads (.conditionals
        (.conditional condition.1 none (some no), condition.2 + 1) c) us vs) :
      Reads (.conditionals condition c)
        (⟨.punctuation '?', line⟩ :: ⟨.punctuation ':', line'⟩ :: ts) vs
  | choice {line line' : Nat} {yes no : Node} {condition c : Chain} {ts us vs ws : List Token}
      (hq : atMark ':' ts = false)
      (hy : Reads (.expression 0 condition.2 yes) ts (⟨.punctuation ':', line'⟩ :: us))
      (hn : Reads (.expression 0 condition.2 no) us vs) (hl : condition.2 < maxNesting)
      (hc : Reads (.conditionals
        (.conditional condition.1 (some yes) (some no), condition.2 + 1) c) vs ws) :
      Reads (.conditionals condition c) (⟨.punctuation '?', line⟩ :: ts) ws
  | guarded {line : Nat} {yes : Node} {condition c : Chain} {ts us vs : List Token}
      (hq : atMark ':' ts = false) (hy : Reads (.expression 0 condition.2 yes) ts us)
      (hq' : atMark ':' us = false) (hl : condition.2 < maxNesting)
      (hc : Reads (.conditionals
        (.conditional condition.1 (some yes) none, condition.2 + 1) c) us vs) :
      Reads (.conditionals condition c) (⟨.punctuation '?', line⟩ :: ts) vs
  | word {level line : Nat} {name : String} {ts : List Token}
      (h : Node.isConstantWord name = true ∨ atMark '(' ts = false) :
      Reads (.primary level (.ofWord name)) (⟨.name name, line⟩ :: ts) ts
  | call {level line line' : Nat} {name : String} {arguments : List Node} {ts us : List Token}
      (h : Node.isConstantWord name = false) (ha : Reads (.argumentList level arguments) ts us) :
      Reads (.primary level (.call name arguments))
        (⟨.name name, line⟩ :: ⟨.punctuation '(', line'⟩ :: ts) us
  | number {level line : Nat} {value : Scalar} {ts : List Token} :
      Reads (.primary level (.constant value)) (⟨.number value, line⟩ :: ts) ts
  | str {level line : Nat} {value : String} {ts : List Token} :
      Reads (.primary level (.ofString value)) (⟨.str value, line⟩ :: ts) ts
  | array {level line : Nat} {items : List Node} {ts us : List Token}
      (hi : Reads (.itemList level items) ts us) :
      Reads (.primary level (.array items)) (⟨.punctuation '[', line⟩ :: ts) us
  | hash {level line : Nat} {entries : List Node} {ts us : List Token}
      (he : Reads (.entryList level entries) ts us) :
      Reads (.primary level (.hash entries)) (⟨.punctuation '{', line⟩ :: ts) us
  | group {level line line' : Nat} {e : Node} {ts us : List Token}
      (he : Reads (.expression 0 level e) ts (⟨.punctuation ')', line'⟩ :: us)) :
      Reads (.primary level e) (⟨.punctuation '(', line⟩ :: ts) us
  | linksEnd {subject : Chain} {ts : List Token}
      (h : ∀ c ∈ ['.', '[', '|'], atMark c ts = false) : Reads (.links subject subject) ts ts
  | member {line : Nat} {key : Node} {arguments : Option (List Node)} {subject c : Chain}
      {ts us vs ws : List Token} (hl : subject.2 < maxNesting)
      (hk : attributeKey ts = .ok (key, us))
      (ha : Reads (.optionalArguments (subject.2 + 1) arguments) us vs)
      (hc : Reads (.links (.lookup (if arguments.isSome then "method" else "any") subject.1 key
        arguments, subject.2 + 1) c) vs ws) :
      Reads (.links subject c) (⟨.punctuation '.', line⟩ :: ts) ws
  | item {line line' : Nat} {key : Node} {subject c : Chain} {ts us vs : List Token}
      (hl : subject.2 < maxNesting)
      (hk : Reads (.expression 0 (subject.2 + 1) key) ts (⟨.punctuation ']', line'⟩ :: us))
      (hc : Reads (.links (.lookup "array" subject.1 key none, subject.2 + 1) c) us vs) :
      Reads (.links subject c) (⟨.punctuation '[', line⟩ :: ts) vs
  | filter {line line' : Nat} {name : String} {arguments : Option (List Node)}
      {subject c : Chain} {ts us vs : List Token} (hl : subject.2 < maxNesting)
      (ha : Reads (.optionalArguments (subject.2 + 1) arguments) ts us)
      (hc : Reads (.links (.filter subject.1 name (arguments.getD []), subject.2 + 1) c) us vs) :
      Reads (.links subject c) (⟨.punctuation '|', line⟩ :: ⟨.name name, line'⟩ :: ts) vs
  | noArguments {level : Nat} {ts : List Token} (h : atMark '(' ts = false) :
      Reads (.optionalArguments level none) ts ts
  | someArguments {level line : Nat} {arguments : List Node} {ts us : List Token}
      (ha : Reads (.argumentList level arguments) ts us) :
      Reads (.optionalArguments level (some arguments)) (⟨.punctuation '(', line⟩ :: ts) us
  | argumentsEnd {level line : Nat} {ts : List Token} :
      Reads (.argumentList level []) (⟨.punctuation ')', line⟩ :: ts) ts
  | arguments {level line : Nat} {e : Node} {others : List Node} {ts us vs : List Token}
      (ha : Reads (.argument level e) ts (⟨.punctuation ',', line⟩ :: us))
      (ho : Reads (.argumentList level others) us vs) :
      Reads (.argumentList level (e :: others)) ts vs
  | lastArgument {level line : Nat} {e : Node} {ts us : List Token}
      (ha : Reads (.argument level e) ts (⟨.punctuation ')', line⟩ :: us)) :
      Reads (.argumentList level [e]) ts us
  | named {level line line' : Nat} {name : String} {value : Node} {ts us : List Token}
      (hv : Reads (.expression 0 level value) ts us) :
      Reads (.argument level (.namedArgument name value))
        (⟨.name name, line⟩ :: ⟨.punctuation '=', line'⟩ :: ts) us
  | unnamed {level : Nat} {e : Node} {ts us : List Token}
      (he : Reads (.expression 0 level e) ts us) : Reads (.argument level e) ts us
  | itemsEnd {level line : Nat} {ts : List Token} :
      Reads (.itemList level []) (⟨.punctuation ']', line⟩ :: ts) ts
  | items {level line : Nat} {e : Node} {others : List Node} {ts us vs : List Token}
      (he : Reads (.expression 0 level e) ts (⟨.punctuation ',', line⟩ :: us))
      (ho : Reads (.itemList level others) us vs) :
      Reads (.itemList level (e :: others)) ts vs
  | lastItem {level line : Nat} {e : Node} {ts us : List Token}
      (he : Reads (.expression 0 level e) ts (⟨.punctuation ']', line⟩ :: us)) :
      Reads (.itemList level [e]) ts us
  | entriesEnd {level line : Nat} {ts : List Token} :
      Reads (.entryList level []) (⟨.punctuation '}', line⟩ :: ts) ts
  | entries {level line line' : Nat} {key value : Node} {others : List Node}
      {ts us vs ws : List Token}
      (hk : Reads (.entryKey level key) ts (⟨.punctuation ':', line⟩ :: us))
      (hv : Reads (.expression 0 level value) us (⟨.punctuation ',', line'⟩ :: vs))
      (ho : Reads (.entryList level others) vs ws) :
      Reads (.entryList level (key :: value :: others)) ts ws
  | lastEntry {level line line' : Nat} {key value : Node} {ts us vs : List Token}
      (hk : Reads (.entryKey level key) ts (⟨.punctuation ':', line⟩ :: us))
      (hv : Reads (.expression 0 level value) us (⟨.punctuation '}', line'⟩ :: vs)) :
      Reads (.entryList level [key, value]) ts vs
  | strKey {level line : Nat} {key : String} {ts : List Token} :
      Reads (.entryKey level (.ofString key)) (⟨.str key, line⟩ :: ts) ts
  | nameKey {level line : Nat} {key : String} {ts : List Token} :
      Reads (.entryKey level (.ofString key)) (⟨.name key, line⟩ :: ts) ts
  | numberKey {level line : Nat} {key : Scalar} {ts : List Token} :
      Reads (.entryKey level (.constant key)) (⟨.number key, line⟩ :: ts) ts
  | groupKey {level line line' : Nat} {key : Node} {ts us : List Token}
      (hk : Reads (.expression 0 level key) ts (⟨.punctuation ')', line'⟩ :: us)) :
      Reads (.entryKey level key) (⟨.punctuation '(', line⟩ :: ts) us
  | tagArgumentsEnd {level : Nat} {ts : List Token} (h : (current ts).kind = .tagEnd .block) :
      Reads (.tagArguments level []) ts ts
  | tagSeparator {c : Char} (hc : c = ',' ∨ c = '=') {level line : Nat} {arguments : List Node}
      {ts us : List Token} (ha : Reads (.tagArguments level arguments) ts us) :
      Reads (.tagArguments level arguments) (⟨.punctuation c, line⟩ :: ts) us
  | tagArgument {level : Nat} {e : Node} {others : List Node} {ts us vs : List Token}
      (he : Reads (.expression 0 level e) ts us) (ho : Reads (.tagArguments level others) us vs) :
      Reads (.tagArguments level (e :: others)) ts vs
  | lastValue {level : Nat} {e : Node} {ts us : List Token}
      (he : Reads (.expression 0 level e) ts us) (h : atMark ',' us = false) :
      Reads (.expressionList level [e]) ts us
  | lastComma {level line : Nat} {e : Node} {ts us : List Token}
      (he : Reads (.expression 0 level e) ts (⟨.punctuation ',', line⟩ :: us))
      (h : (current us).kind = .tagEnd .block) : Reads (.expressionList level [e]) ts us
  | values {level line : Nat} {e : Node} {others : List Node} {ts us vs : List Token}
      (he : Reads (.expression 0 level e) ts (⟨.punctuation ',', line⟩ :: us))
      (ho : Reads (.expressionList level others) us vs) :
      Reads (.expressionList level (e :: others)) ts vs
  | optionsEnd {level : Nat} {options : TransOptions} {ts : List Token}
      (h : ∀ word ∈ ["with", "from", "into"], atName word ts = false) :
      Reads (.transOptions level options options) ts ts
  | vars {level line : Nat} {e : Node} {given options : TransOptions} {ts us vs : List Token}
      (he : Reads (.expression 0 level e) ts us)
      (ho : Reads (.transOptions level { given with vars := some e } options) us vs) :
      Reads (.transOptions level given options) (⟨.name "with", line⟩ :: ts) vs
  | domain {level line : Nat} {e : Node} {given options : TransOptions} {ts us vs : List Token}
      (he : Reads (.expression 0 level e) ts us)
      (ho : Reads (.transOptions level { given with domain := some e } options) us vs) :
      Reads (.transOptions level given options) (⟨.name "from", line⟩ :: ts) vs
  | locale {level line : Nat} {e : Node} {given options : TransOptions} {ts us vs : List Token}
      (he : Reads (.expression 0 level e) ts us)
      (ho : Reads (.transOptions level { given with locale := some e } options) us vs) :
      Reads (.transOptions level given options) (⟨.name "into", line⟩ :: ts) vs
  | noCondition {level : Nat} {ts : List Token} (h : atName "if" ts = false) :
      Reads (.loopCondition level none) ts ts
  | condition {level line : Nat} {e : Node} {ts us : List Token}
      (he : Reads (.expression 0 level e) ts us) :
      Reads (.loopCondition level (some e)) (⟨.name "if", line⟩ :: ts) us

end ExprPart

structure ReadsByGrammar (fuel : Nat) : Prop where
  expression {minimum level : Nat} {e : Node} {ts us : List Token} :
    expression fuel minimum level ts = .ok (e, us) →
      ExprPart.Reads (.expression minimum level e) ts us
  operand {level : Nat} {c : Chain} {ts us : List Token} :
    operand fuel level ts = .ok (c, us) → ExprPart.Reads (.operand level c) ts us
  operations {minimum : Nat} {left c : Chain} {ts us : List Token} :
    operations fuel minimum left ts = .ok (c, us) →
      ExprPart.Reads (.operations minimum left c) ts us
  conditionals {condition c : Chain} {ts us : List Token} :
    conditionals fuel condition ts = .ok (c, us) →
      ExprPart.Reads (.conditionals condition c) ts us
  primary {level : Nat} {e : Node} {ts us : List Token} :
    primary fuel level ts = .ok (e, us) → ExprPart.Reads (.primary level e) ts us
  links {subject c : Chain} {ts us : List Token} :
    links fuel subject ts = .ok (c, us) → ExprPart.Reads (.links subject c) ts us
  optionalArguments {level : Nat} {arguments : Option (List Node)} {ts us : List Token} :
    optionalArguments fuel level ts = .ok (arguments, us) →
      ExprPart.Reads (.optionalArguments level arguments) ts us
  argumentList {level : Nat} {arguments : List Node} {ts us : List Token} :
    argumentList fuel level ts = .ok (arguments, us) →
      ExprPart.Reads (.argumentList level arguments) ts us
  argument {level : Nat} {e : Node} {ts us : List Token} :
    argument fuel level ts = .ok (e, us) → ExprPart.Reads (.argument level e) ts us
  itemList {level : Nat} {items : List Node} {ts us : List Token} :
    itemList fuel level ts = .ok (items, us) → ExprPart.Reads (.itemList level items) ts us
  entryList {level : Nat} {entries : List Node} {ts us : List Token} :
    entryList fuel level ts = .ok (entries, us) → ExprPart.Reads (.entryList level entries) ts us
  entryKey {level : Nat} {key : Node} {ts us : List Token} :
    entryKey fuel level ts = .ok (key, us) → ExprPart.Reads (.entryKey level key) ts us

namespace ReadsByGrammar

open ExprPart (Reads)

variable {fuel minimum level : Nat} {e : Node} {c left subject condition : Chain}
  {ts us : List Token}

theorem zero : ReadsByGrammar 0 where
  expression h := by
    rw [Phrasebook.expression] at h
    cases h
  operand h := by
    rw [Phrasebook.operand] at h
    cases h
  operations h := by
    rw [Phrasebook.operations] at h
    cases h
  conditionals h := by
    rw [Phrasebook.conditionals] at h
    cases h
  primary h := by
    rw [Phrasebook.primary] at h
    cases h
  links h := by
    rw [Phrasebook.links] at h
    cases h
  optionalArguments h := by
    rw [Phrasebook.optionalArguments] at h
    cases h
  argumentList h := by
    rw [Phrasebook.argumentList] at h
    cases h
  argument h := by
    rw [Phrasebook.argument] at h
    cases h
  itemList h := by
    rw [Phrasebook.itemList] at h
    cases h
  entryList h := by
    rw [Phrasebook.entryList] at h
    cases h
  entryKey h := by
    rw [Phrasebook.entryKey] at h
    cases h

theorem read_expression (ih : ReadsByGrammar fuel)
    (h : Phrasebook.expression (fuel + 1) minimum level ts = .ok (e, us)) :
    Reads (.expression minimum level e) ts us := by
  rw [Phrasebook.expression] at h
  obtain ⟨level', hl, h⟩ := ok_of_bind h
  obtain ⟨hlt, rfl⟩ := descend_eq_ok hl
  obtain ⟨⟨first, vs⟩, hf, h⟩ := ok_of_bind h
  obtain ⟨⟨left, ws⟩, ho, h⟩ := ok_of_bind h
  dsimp only at h
  split at h
  · next hm =>
    obtain ⟨⟨whole, xs⟩, hc, h⟩ := ok_of_bind h
    cases h
    subst hm
    exact .whole hlt (ih.operand hf) (ih.operations ho) (ih.conditionals hc)
  · next hm =>
    cases h
    exact .bounded hm hlt (ih.operand hf) (ih.operations ho)

theorem read_operand (ih : ReadsByGrammar fuel)
    (h : Phrasebook.operand (fuel + 1) level ts = .ok (c, us)) :
    Reads (.operand level c) ts us := by
  rw [Phrasebook.operand] at h
  split at h
  · next hn =>
    obtain ⟨line, vs, rfl⟩ := exists_cons_of_atName hn
    obtain ⟨⟨e, ws⟩, he, h⟩ := ok_of_bind h
    cases h
    exact .sign .not (ih.expression he)
  · next hn =>
    split at h
    · next hm =>
      obtain ⟨line, vs, rfl⟩ := exists_cons_of_current hm (by rintro ⟨⟩)
      obtain ⟨⟨e, ws⟩, he, h⟩ := ok_of_bind h
      cases h
      exact .sign .minus (ih.expression he)
    · next hm =>
      split at h
      · next hp =>
        obtain ⟨line, vs, rfl⟩ := exists_cons_of_current hp (by rintro ⟨⟩)
        obtain ⟨⟨e, ws⟩, he, h⟩ := ok_of_bind h
        cases h
        exact .sign .plus (ih.expression he)
      · next hp =>
        obtain ⟨⟨e, vs⟩, he, h⟩ := ok_of_bind h
        refine .chain ?_ (ih.primary he) (ih.links h)
        intro s
        cases s with
        | not => exact fun hk => hn (beq_iff_eq.2 hk)
        | minus => exact hm
        | plus => exact hp

theorem read_operations (ih : ReadsByGrammar fuel)
    (h : Phrasebook.operations (fuel + 1) minimum left ts = .ok (c, us)) :
    Reads (.operations minimum left c) ts us := by
  rw [Phrasebook.operations] at h
  split at h
  · next hn =>
    cases h
    exact .operationsEnd (by simp [hn])
  · next op vs hn =>
    split at h
    · next hp =>
      cases h
      refine .operationsEnd ?_
      intro op' us' hn'
      cases hn.symm.trans hn'
      exact hp
    · next hp =>
      have hp := Nat.not_lt.1 hp
      obtain ⟨level', hl, h⟩ := ok_of_bind h
      obtain ⟨hlt, rfl⟩ := descend_eq_ok hl
      split at h
      · next hs =>
        obtain ⟨⟨name, ws⟩, ht, h⟩ := ok_of_bind h
        obtain ⟨⟨arguments, xs⟩, ha, h⟩ := ok_of_bind h
        dsimp only at h
        split at h
        · next hneg =>
          exact .negatedTest hn hp hlt hneg ht (ih.optionalArguments ha) (ih.operations h)
        · next hneg =>
          exact .test hn hp hlt (hs.resolve_right hneg) ht (ih.optionalArguments ha)
            (ih.operations h)
      · next hs =>
        obtain ⟨⟨right, ws⟩, hr, h⟩ := ok_of_bind h
        exact .binary hn hp hlt (not_or.1 hs) (ih.expression hr) (ih.operations h)

theorem read_conditionals (ih : ReadsByGrammar fuel)
    (h : Phrasebook.conditionals (fuel + 1) condition ts = .ok (c, us)) :
    Reads (.conditionals condition c) ts us := by
  rw [Phrasebook.conditionals] at h
  split at h
  · next hq =>
    cases h
    exact .conditionalsEnd (Bool.not_eq_true' _ ▸ hq)
  · next hq =>
    obtain ⟨line, vs, rfl⟩ := exists_cons_of_atMark (by simpa using hq)
    split at h
    · next hf =>
      obtain ⟨line', ws, hv⟩ := exists_cons_of_atMark hf
      rw [List.tail_cons] at hv
      subst hv
      obtain ⟨⟨no, xs⟩, hn, h⟩ := ok_of_bind h
      obtain ⟨level', hl, h⟩ := ok_of_bind h
      obtain ⟨hlt, rfl⟩ := descend_eq_ok hl
      exact .fallback (ih.expression hn) hlt (ih.conditionals h)
    · next hf =>
      have hf := Bool.eq_false_iff.2 hf
      obtain ⟨⟨yes, ws⟩, hy, h⟩ := ok_of_bind h
      dsimp only at h
      split at h
      · next ha =>
        obtain ⟨line', xs, rfl⟩ := exists_cons_of_atMark ha
        obtain ⟨⟨no, ys⟩, hn, h⟩ := ok_of_bind h
        obtain ⟨level', hl, h⟩ := ok_of_bind h
        obtain ⟨hlt, rfl⟩ := descend_eq_ok hl
        exact .choice hf (ih.expression hy) (ih.expression hn) hlt (ih.conditionals h)
      · next ha =>
        obtain ⟨level', hl, h⟩ := ok_of_bind h
        obtain ⟨hlt, rfl⟩ := descend_eq_ok hl
        exact .guarded hf (ih.expression hy) (Bool.eq_false_iff.2 ha) hlt (ih.conditionals h)

theorem read_primary (ih : ReadsByGrammar fuel)
    (h : Phrasebook.primary (fuel + 1) level ts = .ok (e, us)) :
    Reads (.primary level e) ts us := by
  rw [Phrasebook.primary.eq_def] at h
  dsimp only at h
  split at h
  · next name line vs =>
    split at h
    · next hc =>
      rw [Bool.and_eq_true, Bool.not_eq_true'] at hc
      obtain ⟨line', ws, rfl⟩ := exists_cons_of_atMark hc.2
      obtain ⟨⟨arguments, xs⟩, ha, h⟩ := ok_of_bind h
      cases h
      exact .call hc.1 (ih.argumentList ha)
    · next hc =>
      cases h
      apply Reads.word
      rw [Bool.and_eq_true, Bool.not_eq_true', not_and_or] at hc
      simpa using hc
  · cases h
    exact .number
  · cases h
    exact .str
  · next m line vs =>
    split at h
    · next hm =>
      subst hm
      obtain ⟨⟨items, ws⟩, hi, h⟩ := ok_of_bind h
      cases h
      exact .array (ih.itemList hi)
    · split at h
      · next hm =>
        subst hm
        obtain ⟨⟨entries, ws⟩, he, h⟩ := ok_of_bind h
        cases h
        exact .hash (ih.entryList he)
      · split at h
        · next hm =>
          subst hm
          obtain ⟨⟨e', ws⟩, he, h⟩ := ok_of_bind h
          obtain ⟨xs, hx, h⟩ := ok_of_bind h
          obtain ⟨line', rfl⟩ := exists_cons_of_expectMark hx
          cases h
          exact .group (ih.expression he)
        · cases h
  · cases h

theorem read_links (ih : ReadsByGrammar fuel)
    (h : Phrasebook.links (fuel + 1) subject ts = .ok (c, us)) :
    Reads (.links subject c) ts us := by
  rw [Phrasebook.links] at h
  split at h
  · next hm =>
    obtain ⟨line, vs, rfl⟩ := exists_cons_of_atMark hm
    obtain ⟨level', hl, h⟩ := ok_of_bind h
    obtain ⟨hlt, rfl⟩ := descend_eq_ok hl
    obtain ⟨⟨key, ws⟩, hk, h⟩ := ok_of_bind h
    obtain ⟨⟨arguments, xs⟩, ha, h⟩ := ok_of_bind h
    exact .member hlt hk (ih.optionalArguments ha) (ih.links h)
  · next hm =>
    split at h
    · next hi =>
      obtain ⟨line, vs, rfl⟩ := exists_cons_of_atMark hi
      obtain ⟨level', hl, h⟩ := ok_of_bind h
      obtain ⟨hlt, rfl⟩ := descend_eq_ok hl
      obtain ⟨⟨key, ws⟩, hk, h⟩ := ok_of_bind h
      obtain ⟨xs, hx, h⟩ := ok_of_bind h
      obtain ⟨line', rfl⟩ := exists_cons_of_expectMark hx
      exact .item hlt (ih.expression hk) (ih.links h)
    · next hi =>
      split at h
      · next hf =>
        obtain ⟨line, vs, rfl⟩ := exists_cons_of_atMark hf
        obtain ⟨level', hl, h⟩ := ok_of_bind h
        obtain ⟨hlt, rfl⟩ := descend_eq_ok hl
        obtain ⟨⟨name, ws⟩, hn, hr⟩ := ok_of_bind h
        obtain ⟨⟨arguments, xs⟩, ha, hr⟩ := ok_of_bind hr
        obtain ⟨line', hv⟩ := exists_cons_of_expectName hn
        rw [List.tail_cons] at hv
        subst hv
        exact .filter hlt (ih.optionalArguments ha) (ih.links hr)
      · next hf =>
        cases h
        exact .linksEnd (by simp [hm, hi, hf])

theorem read_optionalArguments {arguments : Option (List Node)} (ih : ReadsByGrammar fuel)
    (h : Phrasebook.optionalArguments (fuel + 1) level ts = .ok (arguments, us)) :
    Reads (.optionalArguments level arguments) ts us := by
  rw [Phrasebook.optionalArguments] at h
  split at h
  · next ha =>
    obtain ⟨line, vs, rfl⟩ := exists_cons_of_atMark ha
    obtain ⟨⟨arguments, ws⟩, ha, h⟩ := ok_of_bind h
    cases h
    exact .someArguments (ih.argumentList ha)
  · next ha =>
    cases h
    exact .noArguments (Bool.eq_false_iff.2 ha)

theorem read_argumentList {arguments : List Node} (ih : ReadsByGrammar fuel)
    (h : Phrasebook.argumentList (fuel + 1) level ts = .ok (arguments, us)) :
    Reads (.argumentList level arguments) ts us := by
  rw [Phrasebook.argumentList] at h
  split at h
  · next he =>
    obtain ⟨line, vs, rfl⟩ := exists_cons_of_atMark he
    cases h
    exact .argumentsEnd
  · obtain ⟨⟨e, vs⟩, he, h⟩ := ok_of_bind h
    dsimp only at h
    split at h
    · next hc =>
      obtain ⟨line, ws, rfl⟩ := exists_cons_of_atMark hc
      obtain ⟨⟨others, xs⟩, ho, h⟩ := ok_of_bind h
      cases h
      exact .arguments (ih.argument he) (ih.argumentList ho)
    · obtain ⟨ws, hw, h⟩ := ok_of_bind h
      obtain ⟨line, rfl⟩ := exists_cons_of_expectMark hw
      cases h
      exact .lastArgument (ih.argument he)

theorem read_argument (ih : ReadsByGrammar fuel)
    (h : Phrasebook.argument (fuel + 1) level ts = .ok (e, us)) :
    Reads (.argument level e) ts us := by
  rw [Phrasebook.argument.eq_def] at h
  dsimp only at h
  split at h
  · obtain ⟨⟨value, vs⟩, hv, h⟩ := ok_of_bind h
    cases h
    exact .named (ih.expression hv)
  · exact .unnamed (ih.expression h)

theorem read_itemList {items : List Node} (ih : ReadsByGrammar fuel)
    (h : Phrasebook.itemList (fuel + 1) level ts = .ok (items, us)) :
    Reads (.itemList level items) ts us := by
  rw [Phrasebook.itemList] at h
  split at h
  · next he =>
    obtain ⟨line, vs, rfl⟩ := exists_cons_of_atMark he
    cases h
    exact .itemsEnd
  · obtain ⟨⟨e, vs⟩, he, h⟩ := ok_of_bind h
    dsimp only at h
    split at h
    · next hc =>
      obtain ⟨line, ws, rfl⟩ := exists_cons_of_atMark hc
      obtain ⟨⟨others, xs⟩, ho, h⟩ := ok_of_bind h
      cases h
      exact .items (ih.expression he) (ih.itemList ho)
    · obtain ⟨ws, hw, h⟩ := ok_of_bind h
      obtain ⟨line, rfl⟩ := exists_cons_of_expectMark hw
      cases h
      exact .lastItem (ih.expression he)

theorem read_entryList {entries : List Node} (ih : ReadsByGrammar fuel)
    (h : Phrasebook.entryList (fuel + 1) level ts = .ok (entries, us)) :
    Reads (.entryList level entries) ts us := by
  rw [Phrasebook.entryList] at h
  split at h
  · next he =>
    obtain ⟨line, vs, rfl⟩ := exists_cons_of_atMark he
    cases h
    exact .entriesEnd
  · obtain ⟨⟨key, vs⟩, hk, h⟩ := ok_of_bind h
    obtain ⟨ws, hw, hr⟩ := ok_of_bind h
    obtain ⟨⟨value, xs⟩, hv, hr⟩ := ok_of_bind hr
    obtain ⟨line, rfl⟩ := exists_cons_of_expectMark hw
    dsimp only at hr
    split at hr
    · next hc =>
      obtain ⟨line', ys, rfl⟩ := exists_cons_of_atMark hc
      obtain ⟨⟨others, zs⟩, ho, hr⟩ := ok_of_bind hr
      cases hr
      exact .entries (ih.entryKey hk) (ih.expression hv) (ih.entryList ho)
    · obtain ⟨ys, hy, hr⟩ := ok_of_bind hr
      obtain ⟨line', rfl⟩ := exists_cons_of_expectMark hy
      cases hr
      exact .lastEntry (ih.entryKey hk) (ih.expression hv)

theorem read_entryKey (ih : ReadsByGrammar fuel)
    (h : Phrasebook.entryKey (fuel + 1) level ts = .ok (e, us)) :
    Reads (.entryKey level e) ts us := by
  rw [Phrasebook.entryKey.eq_def] at h
  dsimp only at h
  split at h
  · cases h
    exact .strKey
  · cases h
    exact .nameKey
  · cases h
    exact .numberKey
  · obtain ⟨⟨key, vs⟩, hk, h⟩ := ok_of_bind h
    obtain ⟨ws, hw, h⟩ := ok_of_bind h
    obtain ⟨line, rfl⟩ := exists_cons_of_expectMark hw
    cases h
    exact .groupKey (ih.expression hk)
  · cases h

/-- What the parser reads of an expression is read by the grammar. -/
theorem all (fuel : Nat) : ReadsByGrammar fuel := by
  induction fuel with
  | zero => exact zero
  | succ fuel ih =>
    exact {
      expression := ih.read_expression
      operand := ih.read_operand
      operations := ih.read_operations
      conditionals := ih.read_conditionals
      primary := ih.read_primary
      links := ih.read_links
      optionalArguments := ih.read_optionalArguments
      argumentList := ih.read_argumentList
      argument := ih.read_argument
      itemList := ih.read_itemList
      entryList := ih.read_entryList
      entryKey := ih.read_entryKey }

end ReadsByGrammar

namespace ExprPart

variable {fuel level : Nat} {ts us : List Token}

theorem Reads.of_wholeExpression {e : Node} (h : wholeExpression level ts = .ok (e, us)) :
    Reads (.expression 0 level e) ts us :=
  (ReadsByGrammar.all _).expression h

theorem Reads.of_tagArguments {arguments : List Node}
    (h : Phrasebook.tagArguments fuel level ts = .ok (arguments, us)) :
    Reads (.tagArguments level arguments) ts us := by
  induction fuel generalizing ts arguments with
  | zero =>
    rw [Phrasebook.tagArguments] at h
    cases h
  | succ fuel ih =>
    rw [Phrasebook.tagArguments] at h
    split at h
    · next he =>
      cases h
      exact .tagArgumentsEnd he
    · split at h
      · next hs =>
        obtain hc | hc := Bool.or_eq_true_iff.1 hs
        all_goals
          obtain ⟨line, vs, rfl⟩ := exists_cons_of_atMark hc
          exact .tagSeparator (by simp) (ih h)
      · obtain ⟨⟨e, vs⟩, he, h⟩ := ok_of_bind h
        obtain ⟨⟨others, ws⟩, ho, h⟩ := ok_of_bind h
        cases h
        exact .tagArgument (.of_wholeExpression he) (ih ho)

theorem Reads.of_expressionList {values : List Node}
    (h : Phrasebook.expressionList fuel level ts = .ok (values, us)) :
    Reads (.expressionList level values) ts us := by
  induction fuel generalizing ts values with
  | zero =>
    rw [Phrasebook.expressionList] at h
    cases h
  | succ fuel ih =>
    rw [Phrasebook.expressionList] at h
    obtain ⟨⟨e, vs⟩, he, h⟩ := ok_of_bind h
    have he := Reads.of_wholeExpression he
    dsimp only at h
    split at h
    · next hm =>
      cases h
      exact .lastValue he (by simpa using hm)
    · next hm =>
      obtain ⟨line, ws, rfl⟩ := exists_cons_of_atMark (by simpa using hm)
      split at h
      · next ht =>
        cases h
        exact .lastComma he ht
      · obtain ⟨⟨others, xs⟩, ho, h⟩ := ok_of_bind h
        cases h
        exact .values he (ih ho)

theorem Reads.of_transOptions {given options : TransOptions}
    (h : Phrasebook.transOptions fuel level given ts = .ok (options, us)) :
    Reads (.transOptions level given options) ts us := by
  induction fuel generalizing ts given with
  | zero =>
    rw [Phrasebook.transOptions] at h
    cases h
  | succ fuel ih =>
    rw [Phrasebook.transOptions] at h
    split at h
    · next hw =>
      obtain ⟨line, vs, rfl⟩ := exists_cons_of_atName hw
      obtain ⟨⟨e, ws⟩, he, h⟩ := ok_of_bind h
      exact .vars (.of_wholeExpression he) (ih h)
    · next hw =>
      split at h
      · next hf =>
        obtain ⟨line, vs, rfl⟩ := exists_cons_of_atName hf
        obtain ⟨⟨e, ws⟩, he, h⟩ := ok_of_bind h
        exact .domain (.of_wholeExpression he) (ih h)
      · next hf =>
        split at h
        · next hi =>
          obtain ⟨line, vs, rfl⟩ := exists_cons_of_atName hi
          obtain ⟨⟨e, ws⟩, he, h⟩ := ok_of_bind h
          exact .locale (.of_wholeExpression he) (ih h)
        · next hi =>
          cases h
          exact .optionsEnd (by simp [hw, hf, hi])

theorem Reads.of_loopCondition {condition : Option Node}
    (h : Phrasebook.loopCondition level ts = .ok (condition, us)) :
    Reads (.loopCondition level condition) ts us := by
  rw [Phrasebook.loopCondition] at h
  split at h
  · next hi =>
    obtain ⟨line, vs, rfl⟩ := exists_cons_of_atName hi
    obtain ⟨⟨e, ws⟩, he, h⟩ := ok_of_bind h
    cases h
    exact .condition (.of_wholeExpression he)
  · next hi =>
    cases h
    exact .noCondition (by simpa using hi)

end ExprPart
end Phrasebook
