import Phrasebook.Template.Operator
import Phrasebook.Template.ParseError

/-!
Expressions of templates. Operators are read by precedence climbing; every link of a chain of
operators, lookups or filters goes one level deeper until the whole expression is read.
-/
namespace Phrasebook

namespace Node

def unary (operator : String) (operand : Node) : Node :=
  ((new .unary).setAttribute "operator" (.str operator)).add innerSlot operand

def binary (operator : String) (left right : Node) : Node :=
  (((new .binary).setAttribute "operator" (.str operator)).add "left" left).add "right" right

def conditional (condition : Node) (yes no : Option Node) : Node :=
  (((new .conditional).add "condition" condition).addOptional "then" yes).addOptional "else" no

def test (name : String) (subject : Node) (arguments : Option (List Node)) : Node :=
  (((new .test).setAttribute "name" (.str name)).add innerSlot subject).addOptional "arguments"
    (arguments.map body)

def call (name : String) (arguments : List Node) : Node :=
  ((new .call).setAttribute "name" (.str name)).add "arguments" (body arguments)

def namedArgument (name : String) (value : Node) : Node :=
  ((new .namedArgument).setAttribute "name" (.str name)).add innerSlot value

/-- The lookup of an attribute, written `a.b`, `a.b()` or `a[b]`. -/
def lookup (type : String) (object key : Node) (arguments : Option (List Node)) : Node :=
  ((((new .access).setAttribute "type" (.str type)).add innerSlot object).add "attribute"
    key).addOptional "arguments" (arguments.map body)

def array (items : List Node) : Node := (new .array).pushAll items

def hash (entries : List Node) : Node := (new .hash).pushAll entries

def ofWord (name : String) : Node :=
  if name = "true" ∨ name = "TRUE" then constant (.bool true)
  else if name = "false" ∨ name = "FALSE" then constant (.bool false)
  else if name = "null" ∨ name = "NULL" ∨ name = "none" ∨ name = "NONE" then constant .null
  else ofName name

def isConstantWord (name : String) : Bool :=
  name ∈ ["true", "TRUE", "false", "FALSE", "null", "NULL", "none", "NONE"]

end Node

def testName (ts : List Token) : Except ParseError (Reading String) := do
  let (first, ts) ← expectName ts
  match ts with
  | ⟨.name second, _⟩ :: rest =>
    if (first = "divisible" ∧ second = "by") ∨ (first = "same" ∧ second = "as") then
      return (first ++ " " ++ second, rest)
    else return (first, ts)
  | _ => return (first, ts)

def attributeKey : List Token → Except ParseError (Reading Node)
  | ⟨.name name, _⟩ :: ts => .ok (.ofString name, ts)
  | ⟨.number value, _⟩ :: ts => .ok (.constant value, ts)
  | ts => .error (.expectedAttribute (current ts))

/-- A partial expression with the level that its chain has reached. -/
abbrev Chain := Node × Nat

mutual

/-- An expression whose operators bind at least as tightly as `minimum`; a conditional may follow
when that is zero. -/
def expression (fuel minimum level : Nat) (ts : List Token) : Except ParseError (Reading Node) :=
  match fuel with
  | 0 => .error .exhausted
  | fuel + 1 => do
    let level ← descend level ts
    let (first, ts) ← operand fuel level ts
    let (left, ts) ← operations fuel minimum first ts
    if minimum = 0 then
      let (whole, ts) ← conditionals fuel left ts
      return (whole.1, ts)
    else return (left.1, ts)

def operand (fuel level : Nat) (ts : List Token) : Except ParseError (Reading Chain) :=
  match fuel with
  | 0 => .error .exhausted
  | fuel + 1 =>
    if atName "not" ts then do
      let (e, ts) ← expression fuel notPrecedence level ts.tail
      return ((.unary "not" e, level), ts)
    else if (current ts).kind = .operator "-" then do
      let (e, ts) ← expression fuel signPrecedence level ts.tail
      return ((.unary "-" e, level), ts)
    else if (current ts).kind = .operator "+" then do
      let (e, ts) ← expression fuel signPrecedence level ts.tail
      return ((.unary "+" e, level), ts)
    else do
      let (e, ts) ← primary fuel level ts
      links fuel (e, level) ts

def operations (fuel minimum : Nat) (left : Chain) (ts : List Token) :
    Except ParseError (Reading Chain) :=
  match fuel with
  | 0 => .error .exhausted
  | fuel + 1 =>
    match BinaryOperator.next? ts with
    | none => .ok (left, ts)
    | some (op, rest) =>
      if op.precedence < minimum then .ok (left, ts)
      else do
        let level ← descend left.2 rest
        if op.symbol = "is" ∨ op.symbol = "is not" then
          let (name, rest) ← testName rest
          let (arguments, rest) ← optionalArguments fuel level rest
          let test := Node.test name left.1 arguments
          let node := if op.symbol = "is not" then Node.unary "not" test else test
          operations fuel minimum (node, level) rest
        else
          let (right, rest) ← expression fuel op.rightMinimum level rest
          operations fuel minimum (.binary op.symbol left.1 right, level) rest

/-- The conditionals behind an expression: `? a : b`, `? a` and `?: b`. -/
def conditionals (fuel : Nat) (condition : Chain) (ts : List Token) :
    Except ParseError (Reading Chain) :=
  match fuel with
  | 0 => .error .exhausted
  | fuel + 1 =>
    if !atMark '?' ts then .ok (condition, ts)
    else if atMark ':' ts.tail then do
      let (no, ts) ← expression fuel 0 condition.2 ts.tail.tail
      let level ← descend condition.2 ts
      conditionals fuel (.conditional condition.1 none (some no), level) ts
    else do
      let (yes, ts) ← expression fuel 0 condition.2 ts.tail
      if atMark ':' ts then
        let (no, ts) ← expression fuel 0 condition.2 ts.tail
        let level ← descend condition.2 ts
        conditionals fuel (.conditional condition.1 (some yes) (some no), level) ts
      else
        let level ← descend condition.2 ts
        conditionals fuel (.conditional condition.1 (some yes) none, level) ts

/-- A constant, a variable, a call, an array, a hash or an expression in parentheses. -/
def primary (fuel level : Nat) (ts : List Token) : Except ParseError (Reading Node) :=
  match fuel with
  | 0 => .error .exhausted
  | fuel + 1 =>
    match ts with
    | ⟨.name name, _⟩ :: ts =>
      if !Node.isConstantWord name && atMark '(' ts then do
        let (arguments, ts) ← argumentList fuel level ts.tail
        return (.call name arguments, ts)
      else .ok (.ofWord name, ts)
    | ⟨.number value, _⟩ :: ts => .ok (.constant value, ts)
    | ⟨.str value, _⟩ :: ts => .ok (.ofString value, ts)
    | ⟨.punctuation c, line⟩ :: ts =>
      if c = '[' then do
        let (items, ts) ← itemList fuel level ts
        return (.array items, ts)
      else if c = '{' then do
        let (entries, ts) ← entryList fuel level ts
        return (.hash entries, ts)
      else if c = '(' then do
        let (e, ts) ← expression fuel 0 level ts
        return (e, ← expectMark ')' ts)
      else .error (.unexpected ⟨.punctuation c, line⟩)
    | ts => .error (.unexpected (current ts))

/-- The lookups and filters behind a primary. -/
def links (fuel : Nat) (subject : Chain) (ts : List Token) : Except ParseError (Reading Chain) :=
  match fuel with
  | 0 => .error .exhausted
  | fuel + 1 =>
    if atMark '.' ts then do
      let level ← descend subject.2 ts
      let (key, ts) ← attributeKey ts.tail
      let (arguments, ts) ← optionalArguments fuel level ts
      let type := if arguments.isSome then "method" else "any"
      links fuel (.lookup type subject.1 key arguments, level) ts
    else if atMark '[' ts then do
      let level ← descend subject.2 ts
      let (key, ts) ← expression fuel 0 level ts.tail
      let ts ← expectMark ']' ts
      links fuel (.lookup "array" subject.1 key none, level) ts
    else if atMark '|' ts then do
      let level ← descend subject.2 ts
      let (name, ts) ← expectName ts.tail
      let (arguments, ts) ← optionalArguments fuel level ts
      links fuel (.filter subject.1 name (arguments.getD []), level) ts
    else .ok (subject, ts)

def optionalArguments (fuel level : Nat) (ts : List Token) :
    Except ParseError (Reading (Option (List Node))) :=
  match fuel with
  | 0 => .error .exhausted
  | fuel + 1 =>
    if atMark '(' ts then do
      let (arguments, ts) ← argumentList fuel level ts.tail
      return (some arguments, ts)
    else .ok (none, ts)

def argumentList (fuel level : Nat) (ts : List Token) : Except ParseError (Reading (List Node)) :=
  match fuel with
  | 0 => .error .exhausted
  | fuel + 1 =>
    if atMark ')' ts then .ok ([], ts.tail)
    else do
      let (argument, ts) ← argument fuel level ts
      if atMark ',' ts then
        let (others, ts) ← argumentList fuel level ts.tail
        return (argument :: others, ts)
      else return ([argument], ← expectMark ')' ts)

def argument (fuel level : Nat) (ts : List Token) : Except ParseError (Reading Node) :=
  match fuel with
  | 0 => .error .exhausted
  | fuel + 1 =>
    match ts with
    | ⟨.name name, _⟩ :: ⟨.punctuation '=', _⟩ :: ts => do
      let (value, ts) ← expression fuel 0 level ts
      return (.namedArgument name value, ts)
    | ts => expression fuel 0 level ts

def itemList (fuel level : Nat) (ts : List Token) : Except ParseError (Reading (List Node)) :=
  match fuel with
  | 0 => .error .exhausted
  | fuel + 1 =>
    if atMark ']' ts then .ok ([], ts.tail)
    else do
      let (item, ts) ← expression fuel 0 level ts
      if atMark ',' ts then
        let (others, ts) ← itemList fuel level ts.tail
        return (item :: others, ts)
      else return ([item], ← expectMark ']' ts)

def entryList (fuel level : Nat) (ts : List Token) : Except ParseError (Reading (List Node)) :=
  match fuel with
  | 0 => .error .exhausted
  | fuel + 1 =>
    if atMark '}' ts then .ok ([], ts.tail)
    else do
      let (key, ts) ← entryKey fuel level ts
      let ts ← expectMark ':' ts
      let (value, ts) ← expression fuel 0 level ts
      if atMark ',' ts then
        let (others, ts) ← entryList fuel level ts.tail
        return (key :: value :: others, ts)
      else return ([key, value], ← expectMark '}' ts)

/-- The key of a hash entry: a name, a string, a number, or an expression in parentheses. -/
def entryKey (fuel level : Nat) (ts : List Token) : Except ParseError (Reading Node) :=
  match fuel with
  | 0 => .error .exhausted
  | fuel + 1 =>
    match ts with
    | ⟨.str key, _⟩ :: ts => .ok (.ofString key, ts)
    | ⟨.name key, _⟩ :: ts => .ok (.ofString key, ts)
    | ⟨.number key, _⟩ :: ts => .ok (.constant key, ts)
    | ⟨.punctuation '(', _⟩ :: ts => do
      let (key, ts) ← expression fuel 0 level ts
      return (key, ← expectMark ')' ts)
    | ts => .error (.unexpected (current ts))

end

/-- Steps that suffice for an expression: every round of calls reads a token. -/
def expressionFuel (ts : List Token) : Nat := 8 * ts.length + 8

def wholeExpression (level : Nat) (ts : List Token) : Except ParseError (Reading Node) :=
  expression (expressionFuel ts) 0 level ts

end Phrasebook
