import Mathlib.Data.List.Basic
import Phrasebook.Proofs.Template.Height
import Phrasebook.Template.Expression

namespace Phrasebook

structure Variable where
  text : String
  free : text ≠ "not" ∧ Node.isConstantWord text = false

inductive Sign
  | not
  | minus
  | plus
  deriving DecidableEq, Repr

namespace Sign

def symbol : Sign → String
  | not => "not"
  | minus => "-"
  | plus => "+"

def kind : Sign → TokenKind
  | not => .name "not"
  | minus => .operator "-"
  | plus => .operator "+"

end Sign

namespace BinaryOperator

def words (op : BinaryOperator) : List String :=
  match twoWordOperators.find? fun w => w.1 ++ " " ++ w.2 == op.symbol with
  | some (first, second) => [first, second]
  | none => [op.symbol]

def kinds (op : BinaryOperator) : List TokenKind :=
  if op.symbol ∈ dashedOperators ++ symbolOperators then [.operator op.symbol]
  else op.words.map .name

end BinaryOperator

/-- A binary operator with two operands: all but those that begin a test. -/
structure Connective where
  op : BinaryOperator
  known : op ∈ binaryOperators
  connects : op.symbol ≠ "is" ∧ op.symbol ≠ "is not"

inductive TestName
  | word (text : String) (free : text ≠ "not")
  | divisibleBy
  | sameAs

namespace TestName

def text : TestName → String
  | word text _ => text
  | divisibleBy => "divisible by"
  | sameAs => "same as"

def kinds : TestName → List TokenKind
  | word text _ => [.name text]
  | divisibleBy => [.name "divisible", .name "by"]
  | sameAs => [.name "same", .name "as"]

end TestName

inductive AttributeKey
  | word (text : String)
  | number (value : Scalar)

namespace AttributeKey

def node : AttributeKey → Node
  | word text => .ofString text
  | number value => .constant value

def kind : AttributeKey → TokenKind
  | word text => .name text
  | number value => .number value

end AttributeKey

def constantKind : Scalar → TokenKind
  | .null => .name "null"
  | .bool b => .name (if b then "true" else "false")
  | .int n => .number (.int n)
  | .float x => .number (.float x)
  | .str s => .str s

inductive Expr
  | constant (value : Scalar)
  | name (x : Variable)
  /-- Arguments may have names, here and below. -/
  | call (f : Variable) (arguments : List (Option String × Expr))
  | array (items : List Expr)
  | hash (entries : List (Expr × Expr))
  /-- `a.b` or, with arguments, `a.b(…)`. -/
  | member (object : Expr) (key : AttributeKey)
      (arguments : Option (List (Option String × Expr)))
  /-- `a[b]` -/
  | item (object key : Expr)
  | filter (subject : Expr) (name : String) (arguments : List (Option String × Expr))
  | unary (sign : Sign) (operand : Expr)
  | binary (connective : Connective) (left right : Expr)
  | test (name : TestName) (subject : Expr) (arguments : Option (List (Option String × Expr)))
  /-- `a ? b : c` -/
  | choice (condition yes no : Expr)
  /-- `a ? b` -/
  | guarded (condition yes : Expr)
  /-- `a ?: c` -/
  | fallback (condition no : Expr)

namespace Expr

mutual

def node : Expr → Node
  | constant value => .constant value
  | name x => .ofName x.text
  | call f as => .call f.text (argumentNodes as)
  | array es => .array (nodes es)
  | hash es => .hash (entryNodes es)
  | member o key none => .lookup "any" o.node key.node none
  | member o key (some as) => .lookup "method" o.node key.node (some (argumentNodes as))
  | item o key => .lookup "array" o.node key.node none
  | filter s n as => .filter s.node n (argumentNodes as)
  | unary sign e => .unary sign.symbol e.node
  | binary c l r => .binary c.op.symbol l.node r.node
  | test t s none => .test t.text s.node none
  | test t s (some as) => .test t.text s.node (some (argumentNodes as))
  | choice c y n => .conditional c.node (some y.node) (some n.node)
  | guarded c y => .conditional c.node (some y.node) none
  | fallback c n => .conditional c.node none (some n.node)

def nodes : List Expr → List Node
  | [] => []
  | e :: es => e.node :: nodes es

def argumentNodes : List (Option String × Expr) → List Node
  | [] => []
  | (none, e) :: as => e.node :: argumentNodes as
  | (some n, e) :: as => .namedArgument n e.node :: argumentNodes as

def entryNodes : List (Expr × Expr) → List Node
  | [] => []
  | (key, value) :: es => key.node :: value.node :: entryNodes es

end

def group (ks : List TokenKind) : List TokenKind :=
  .punctuation '(' :: (ks ++ [.punctuation ')'])

def listed (close : Char) : List (List TokenKind) → List TokenKind
  | [] => [.punctuation close]
  | [ks] => ks ++ [.punctuation close]
  | ks :: kss => ks ++ .punctuation ',' :: listed close kss

mutual

/-- The tokens of an expression, with every part in parentheses. -/
def tokens : Expr → List TokenKind
  | constant value => [constantKind value]
  | name x => [.name x.text]
  | call f as => .name f.text :: .punctuation '(' :: listed ')' (argumentTokens as)
  | array es => .punctuation '[' :: listed ']' (itemTokens es)
  | hash es => .punctuation '{' :: listed '}' (entryTokens es)
  | member o key none => group o.tokens ++ [.punctuation '.', key.kind]
  | member o key (some as) =>
    group o.tokens ++
      .punctuation '.' :: key.kind :: .punctuation '(' :: listed ')' (argumentTokens as)
  | item o key => group o.tokens ++ .punctuation '[' :: (group key.tokens ++ [.punctuation ']'])
  | filter s n [] => group s.tokens ++ [.punctuation '|', .name n]
  | filter s n (a :: as) =>
    group s.tokens ++
      .punctuation '|' :: .name n :: .punctuation '(' :: listed ')' (argumentTokens (a :: as))
  | unary sign e => sign.kind :: group e.tokens
  | binary c l r => group l.tokens ++ (c.op.kinds ++ group r.tokens)
  | test t s none => group s.tokens ++ .name "is" :: t.kinds
  | test t s (some as) =>
    group s.tokens ++
      .name "is" :: (t.kinds ++ .punctuation '(' :: listed ')' (argumentTokens as))
  | choice c y n =>
    group c.tokens ++
      .punctuation '?' :: (group y.tokens ++ .punctuation ':' :: group n.tokens)
  | guarded c y => group c.tokens ++ .punctuation '?' :: group y.tokens
  | fallback c n => group c.tokens ++ .punctuation '?' :: .punctuation ':' :: group n.tokens

def itemTokens : List Expr → List (List TokenKind)
  | [] => []
  | e :: es => group e.tokens :: itemTokens es

def argumentTokens : List (Option String × Expr) → List (List TokenKind)
  | [] => []
  | (none, e) :: as => group e.tokens :: argumentTokens as
  | (some n, e) :: as =>
    (.name n :: .punctuation '=' :: group e.tokens) :: argumentTokens as

def entryTokens : List (Expr × Expr) → List (List TokenKind)
  | [] => []
  | (key, value) :: es =>
    (group key.tokens ++ .punctuation ':' :: group value.tokens) :: entryTokens es

end

def argumentNode : Option String × Expr → Node
  | (none, e) => e.node
  | (some n, e) => .namedArgument n e.node

theorem argumentNodes_cons (a : Option String × Expr) (as : List (Option String × Expr)) :
    argumentNodes (a :: as) = argumentNode a :: argumentNodes as := by
  obtain ⟨_ | n, e⟩ := a <;> rfl

def argumentKinds : Option String × Expr → List TokenKind
  | (none, e) => group e.tokens
  | (some n, e) => .name n :: .punctuation '=' :: group e.tokens

theorem argumentTokens_cons (a : Option String × Expr) (as : List (Option String × Expr)) :
    argumentTokens (a :: as) = argumentKinds a :: argumentTokens as := by
  obtain ⟨_ | n, e⟩ := a <;> rfl

def optionalTokens : Option (List (Option String × Expr)) → List TokenKind
  | none => []
  | some as => .punctuation '(' :: listed ')' (argumentTokens as)

theorem tokens_member (o : Expr) (key : AttributeKey)
    (as : Option (List (Option String × Expr))) :
    (member o key as).tokens =
      group o.tokens ++ .punctuation '.' :: key.kind :: optionalTokens as := by
  cases as <;> rfl

theorem tokens_test (t : TestName) (s : Expr) (as : Option (List (Option String × Expr))) :
    (test t s as).tokens = group s.tokens ++ .name "is" :: (t.kinds ++ optionalTokens as) := by
  cases as with
  | none => rw [tokens, optionalTokens, List.append_nil]
  | some as => rfl

theorem tokens_filter (s : Expr) (n : String) (as : List (Option String × Expr)) :
    (filter s n as).tokens = group s.tokens ++
      .punctuation '|' :: .name n :: optionalTokens (if as.isEmpty then none else some as) := by
  cases as <;> rfl

def parts : Expr → List Expr
  | constant _ => []
  | name _ => []
  | call _ as => as.map Prod.snd
  | array es => es
  | hash es => es.flatMap fun e => [e.1, e.2]
  | member o _ as => o :: (as.getD []).map Prod.snd
  | item o key => [o, key]
  | filter s _ as => s :: as.map Prod.snd
  | unary _ e => [e]
  | binary _ l r => [l, r]
  | test _ s as => s :: (as.getD []).map Prod.snd
  | choice c y n => [c, y, n]
  | guarded c y => [c, y]
  | fallback c n => [c, n]

theorem sizeOf_lt_of_mem_map {p : Expr} {as : List (Option String × Expr)}
    (h : p ∈ as.map Prod.snd) : sizeOf p < sizeOf as := by
  obtain ⟨⟨n, e⟩, ha, rfl⟩ := List.mem_map.1 h
  have := List.sizeOf_lt_of_mem ha
  rw [Prod.mk.sizeOf_spec] at this
  simp only
  omega

theorem sizeOf_lt_of_mem_getD {p : Expr} {as : Option (List (Option String × Expr))}
    (h : p ∈ (as.getD []).map Prod.snd) : sizeOf p < sizeOf as := by
  cases as with
  | none => cases h
  | some as =>
    have := sizeOf_lt_of_mem_map h
    rw [Option.some.sizeOf_spec]
    simp only [Option.getD_some] at this
    omega

theorem sizeOf_lt_of_mem_parts {p e : Expr} (h : p ∈ e.parts) : sizeOf p < sizeOf e := by
  cases e with
  | constant | name => cases h
  | call f as =>
    have := sizeOf_lt_of_mem_map h
    rw [call.sizeOf_spec]
    omega
  | array es =>
    have := List.sizeOf_lt_of_mem (show p ∈ es from h)
    rw [array.sizeOf_spec]
    omega
  | hash es =>
    obtain ⟨⟨key, value⟩, he, hp⟩ := List.mem_flatMap.1 h
    have := List.sizeOf_lt_of_mem he
    rw [Prod.mk.sizeOf_spec] at this
    rw [hash.sizeOf_spec]
    simp only [List.mem_cons, List.not_mem_nil, or_false] at hp
    rcases hp with rfl | rfl <;> omega
  | member o key as =>
    rw [member.sizeOf_spec]
    rcases List.mem_cons.1 h with rfl | h
    · omega
    · have := sizeOf_lt_of_mem_getD h
      omega
  | filter s n as =>
    rw [filter.sizeOf_spec]
    rcases List.mem_cons.1 h with rfl | h
    · omega
    · have := sizeOf_lt_of_mem_map h
      omega
  | test t s as =>
    rw [test.sizeOf_spec]
    rcases List.mem_cons.1 h with rfl | h
    · omega
    · have := sizeOf_lt_of_mem_getD h
      omega
  | unary sign e =>
    rw [List.mem_singleton.1 h, unary.sizeOf_spec]
    omega
  | item | binary | guarded | fallback =>
    rcases List.mem_pair.1 h with rfl | rfl
    all_goals
      simp only [item.sizeOf_spec, binary.sizeOf_spec, guarded.sizeOf_spec, fallback.sizeOf_spec]
      omega
  | choice c y n =>
    rw [choice.sizeOf_spec]
    simp only [parts, List.mem_cons, List.not_mem_nil, or_false] at h
    rcases h with rfl | rfl | rfl <;> omega

theorem partsInduction {motive : Expr → Prop}
    (step : ∀ e : Expr, (∀ p ∈ e.parts, motive p) → motive e) (e : Expr) : motive e :=
  step e fun p _ => partsInduction step p
termination_by sizeOf e
decreasing_by exact sizeOf_lt_of_mem_parts (by assumption)

theorem mem_argumentNodes {p : Expr} {as : List (Option String × Expr)}
    (h : p ∈ as.map Prod.snd) : ∃ n ∈ argumentNodes as, p.node.height ≤ n.height := by
  induction as with
  | nil => cases h
  | cons a as ih =>
    obtain ⟨name, e⟩ := a
    rcases List.mem_cons.1 h with rfl | h
    · cases name with
      | none => exact ⟨_, List.mem_cons_self, Nat.le_refl _⟩
      | some name =>
        refine ⟨_, List.mem_cons_self, Nat.le_of_lt ?_⟩
        exact Node.height_lt_of_mem_children (List.mem_singleton.2 rfl)
    · obtain ⟨n, hn, hle⟩ := ih h
      cases name <;> exact ⟨n, List.mem_cons_of_mem _ hn, hle⟩

theorem mem_nodes {p : Expr} {es : List Expr} (h : p ∈ es) : p.node ∈ nodes es := by
  induction es with
  | nil => cases h
  | cons e es ih =>
    rcases List.mem_cons.1 h with rfl | h
    · exact List.mem_cons_self
    · exact List.mem_cons_of_mem _ (ih h)

theorem mem_entryNodes {p : Expr} {es : List (Expr × Expr)}
    (h : p ∈ es.flatMap fun e => [e.1, e.2]) : p.node ∈ entryNodes es := by
  induction es with
  | nil => cases h
  | cons e es ih =>
    obtain ⟨key, value⟩ := e
    rw [List.flatMap_cons, List.mem_append, List.mem_pair] at h
    rcases h with (rfl | rfl) | h
    · exact List.mem_cons_self
    · exact List.mem_cons_of_mem _ List.mem_cons_self
    · exact List.mem_cons_of_mem _ (List.mem_cons_of_mem _ (ih h))

theorem height_lt_of_mem_arguments {p : Expr} {n : Node} {as : List (Option String × Expr)}
    (hn : .body (argumentNodes as) ∈ n.children) (h : p ∈ as.map Prod.snd) :
    p.node.height < n.height := by
  obtain ⟨m, hm, hle⟩ := mem_argumentNodes h
  have h₁ := Node.height_lt_of_mem_children hn
  have h₂ : m.height < (Node.body (argumentNodes as)).height :=
    Node.height_lt_of_mem_children (by rw [Node.children_body]; exact hm)
  omega

theorem height_lt_of_mem_parts {p e : Expr} (h : p ∈ e.parts) :
    p.node.height < e.node.height := by
  cases e with
  | constant | name => cases h
  | call f as => exact height_lt_of_mem_arguments (List.mem_singleton.2 rfl) h
  | array es =>
    apply Node.height_lt_of_mem_children
    rw [node, Node.array, Node.new, Node.children_pushAll]
    exact mem_nodes h
  | hash es =>
    apply Node.height_lt_of_mem_children
    rw [node, Node.hash, Node.new, Node.children_pushAll]
    exact mem_entryNodes h
  | member o key as =>
    cases as with
    | none =>
      rw [List.mem_singleton.1 h]
      exact Node.height_lt_of_mem_children List.mem_cons_self
    | some as =>
      rcases List.mem_cons.1 h with rfl | h
      · exact Node.height_lt_of_mem_children List.mem_cons_self
      · exact height_lt_of_mem_arguments
          (List.mem_cons_of_mem _ (List.mem_cons_of_mem _ List.mem_cons_self)) h
  | filter s n as =>
    rcases List.mem_cons.1 h with rfl | h
    · exact Node.height_lt_of_mem_children List.mem_cons_self
    · obtain ⟨m, hm, hle⟩ := mem_argumentNodes h
      have := Node.height_lt_of_mem_children (n := (filter s n as).node)
        (List.mem_cons_of_mem _ hm)
      omega
  | test t s as =>
    cases as with
    | none =>
      rw [List.mem_singleton.1 h]
      exact Node.height_lt_of_mem_children List.mem_cons_self
    | some as =>
      rcases List.mem_cons.1 h with rfl | h
      · exact Node.height_lt_of_mem_children List.mem_cons_self
      · exact height_lt_of_mem_arguments (List.mem_cons_of_mem _ List.mem_cons_self) h
  | unary sign e =>
    rw [List.mem_singleton.1 h]
    exact Node.height_lt_of_mem_children List.mem_cons_self
  | item | binary | guarded | fallback =>
    rcases List.mem_pair.1 h with rfl | rfl
    · exact Node.height_lt_of_mem_children List.mem_cons_self
    · exact Node.height_lt_of_mem_children (List.mem_cons_of_mem _ List.mem_cons_self)
  | choice c y n =>
    apply Node.height_lt_of_mem_children
    simp only [parts, List.mem_cons, List.not_mem_nil, or_false] at h
    rcases h with rfl | rfl | rfl
    · exact List.mem_cons_self
    · exact List.mem_cons_of_mem _ List.mem_cons_self
    · exact List.mem_cons_of_mem _ (List.mem_cons_of_mem _ List.mem_cons_self)

end Expr
end Phrasebook
