import Phrasebook.Proofs.Template.StmtGrammar

/-!
The calls that the parser makes. Every loop of the grammar is a function that calls itself, so that
the relation between a call and the calls that it makes covers loops and recursion alike.
-/
namespace Phrasebook

/-- A function that reads tokens, with all that it is given besides fuel and tokens. -/
inductive Reader
  | expression (minimum level : Nat)
  | operand (level : Nat)
  | operations (minimum : Nat) (left : Chain)
  | conditionals (condition : Chain)
  | primary (level : Nat)
  | links (subject : Chain)
  | optionalArguments (level : Nat)
  | argumentList (level : Nat)
  | argument (level : Nat)
  | itemList (level : Nat)
  | entryList (level : Nat)
  | entryKey (level : Nat)
  | tagArguments (level : Nat)
  | expressionList (level : Nat)
  | transOptions (level : Nat) (given : TransOptions)
  | setNames
  | closeTag
  | statements (level : Nat) (closing : List String)
  | block (level : Nat) (closing : List String)
  | tag (level : Nat) (name : String) (line : Nat)
  | transTag (level : Nat) (closing : String) (count : Option Node) (start : Nat)
  | branches (level : Nat) (condition : Node)

/-- A call of a reading function. `setNames` and `closeTag` take no fuel and ignore it. -/
structure Call where
  reader : Reader
  fuel : Nat
  tokens : List Token

namespace Call

def rest : Call → Except ParseError (List Token)
  | ⟨.expression minimum level, fuel, ts⟩ => (expression fuel minimum level ts).map Prod.snd
  | ⟨.operand level, fuel, ts⟩ => (operand fuel level ts).map Prod.snd
  | ⟨.operations minimum left, fuel, ts⟩ => (operations fuel minimum left ts).map Prod.snd
  | ⟨.conditionals condition, fuel, ts⟩ => (conditionals fuel condition ts).map Prod.snd
  | ⟨.primary level, fuel, ts⟩ => (primary fuel level ts).map Prod.snd
  | ⟨.links subject, fuel, ts⟩ => (links fuel subject ts).map Prod.snd
  | ⟨.optionalArguments level, fuel, ts⟩ => (optionalArguments fuel level ts).map Prod.snd
  | ⟨.argumentList level, fuel, ts⟩ => (argumentList fuel level ts).map Prod.snd
  | ⟨.argument level, fuel, ts⟩ => (argument fuel level ts).map Prod.snd
  | ⟨.itemList level, fuel, ts⟩ => (itemList fuel level ts).map Prod.snd
  | ⟨.entryList level, fuel, ts⟩ => (entryList fuel level ts).map Prod.snd
  | ⟨.entryKey level, fuel, ts⟩ => (entryKey fuel level ts).map Prod.snd
  | ⟨.tagArguments level, fuel, ts⟩ => (tagArguments fuel level ts).map Prod.snd
  | ⟨.expressionList level, fuel, ts⟩ => (expressionList fuel level ts).map Prod.snd
  | ⟨.transOptions level given, fuel, ts⟩ => (transOptions fuel level given ts).map Prod.snd
  | ⟨.setNames, _, ts⟩ => (setNames ts).map Prod.snd
  | ⟨.closeTag, _, ts⟩ => closeTag ts
  | ⟨.statements level closing, fuel, ts⟩ => (statements fuel level closing ts).map Prod.snd
  | ⟨.block level closing, fuel, ts⟩ => (block fuel level closing ts).map Prod.snd
  | ⟨.tag level name line, fuel, ts⟩ => (tag fuel level name line ts).map Prod.snd
  | ⟨.transTag level closing count start, fuel, ts⟩ =>
    (transTag fuel level closing count start ts).map Prod.snd
  | ⟨.branches level condition, fuel, ts⟩ => (branches fuel level condition ts).map Prod.snd

def whole (level : Nat) (ts : List Token) : Call := ⟨.expression 0 level, expressionFuel ts, ts⟩

/-- The calls that a call makes, each with what the earlier ones came to. -/
inductive Makes : Call → Call → Prop
  | operand {fuel minimum level : Nat} {ts : List Token} (hl : level < maxNesting) :
      Makes ⟨.expression minimum level, fuel + 1, ts⟩ ⟨.operand (level + 1), fuel, ts⟩
  | operations {fuel minimum level : Nat} {first : Chain} {ts us : List Token}
      (hl : level < maxNesting) (hf : Phrasebook.operand fuel (level + 1) ts = .ok (first, us)) :
      Makes ⟨.expression minimum level, fuel + 1, ts⟩ ⟨.operations minimum first, fuel, us⟩
  | conditionals {fuel level : Nat} {first left : Chain} {ts us vs : List Token}
      (hl : level < maxNesting) (hf : Phrasebook.operand fuel (level + 1) ts = .ok (first, us))
      (ho : Phrasebook.operations fuel 0 first us = .ok (left, vs)) :
      Makes ⟨.expression 0 level, fuel + 1, ts⟩ ⟨.conditionals left, fuel, vs⟩
  | signed (s : Sign) {fuel level line : Nat} {ts : List Token} :
      Makes ⟨.operand level, fuel + 1, ⟨s.kind, line⟩ :: ts⟩
        ⟨.expression s.minimum level, fuel, ts⟩
  | primary {fuel level : Nat} {ts : List Token} (hs : ∀ s : Sign, (current ts).kind ≠ s.kind) :
      Makes ⟨.operand level, fuel + 1, ts⟩ ⟨.primary level, fuel, ts⟩
  | links {fuel level : Nat} {e : Node} {ts us : List Token}
      (hs : ∀ s : Sign, (current ts).kind ≠ s.kind)
      (hp : Phrasebook.primary fuel level ts = .ok (e, us)) :
      Makes ⟨.operand level, fuel + 1, ts⟩ ⟨.links (e, level), fuel, us⟩
  | testArguments {fuel minimum : Nat} {op : BinaryOperator} {name : String} {left : Chain}
      {ts us vs : List Token} (hn : BinaryOperator.next? ts = some (op, us))
      (hp : minimum ≤ op.precedence) (hl : left.2 < maxNesting)
      (hs : op.symbol = "is" ∨ op.symbol = "is not") (ht : testName us = .ok (name, vs)) :
      Makes ⟨.operations minimum left, fuel + 1, ts⟩ ⟨.optionalArguments (left.2 + 1), fuel, vs⟩
  | afterTest {fuel minimum : Nat} {op : BinaryOperator} {name : String}
      {arguments : Option (List Node)} {left : Chain} {ts us vs ws : List Token}
      (hn : BinaryOperator.next? ts = some (op, us)) (hp : minimum ≤ op.precedence)
      (hl : left.2 < maxNesting) (hs : op.symbol = "is" ∨ op.symbol = "is not")
      (ht : testName us = .ok (name, vs))
      (ha : optionalArguments fuel (left.2 + 1) vs = .ok (arguments, ws)) :
      Makes ⟨.operations minimum left, fuel + 1, ts⟩
        ⟨.operations minimum
          (if op.symbol = "is not" then .unary "not" (.test name left.1 arguments)
            else .test name left.1 arguments, left.2 + 1), fuel, ws⟩
  | rightOperand {fuel minimum : Nat} {op : BinaryOperator} {left : Chain} {ts us : List Token}
      (hn : BinaryOperator.next? ts = some (op, us)) (hp : minimum ≤ op.precedence)
      (hl : left.2 < maxNesting) (hs : ¬(op.symbol = "is" ∨ op.symbol = "is not")) :
      Makes ⟨.operations minimum left, fuel + 1, ts⟩
        ⟨.expression op.rightMinimum (left.2 + 1), fuel, us⟩
  | afterBinary {fuel minimum : Nat} {op : BinaryOperator} {right : Node} {left : Chain}
      {ts us vs : List Token} (hn : BinaryOperator.next? ts = some (op, us))
      (hp : minimum ≤ op.precedence) (hl : left.2 < maxNesting)
      (hs : ¬(op.symbol = "is" ∨ op.symbol = "is not"))
      (hr : expression fuel op.rightMinimum (left.2 + 1) us = .ok (right, vs)) :
      Makes ⟨.operations minimum left, fuel + 1, ts⟩
        ⟨.operations minimum (.binary op.symbol left.1 right, left.2 + 1), fuel, vs⟩
  | fallback {fuel line line' : Nat} {condition : Chain} {ts : List Token} :
      Makes ⟨.conditionals condition, fuel + 1,
          ⟨.punctuation '?', line⟩ :: ⟨.punctuation ':', line'⟩ :: ts⟩
        ⟨.expression 0 condition.2, fuel, ts⟩
  | afterFallback {fuel line line' : Nat} {no : Node} {condition : Chain} {ts us : List Token}
      (hn : expression fuel 0 condition.2 ts = .ok (no, us)) (hl : condition.2 < maxNesting) :
      Makes ⟨.conditionals condition, fuel + 1,
          ⟨.punctuation '?', line⟩ :: ⟨.punctuation ':', line'⟩ :: ts⟩
        ⟨.conditionals (.conditional condition.1 none (some no), condition.2 + 1), fuel, us⟩
  | yes {fuel line : Nat} {condition : Chain} {ts : List Token} (hq : atMark ':' ts = false) :
      Makes ⟨.conditionals condition, fuel + 1, ⟨.punctuation '?', line⟩ :: ts⟩
        ⟨.expression 0 condition.2, fuel, ts⟩
  | no {fuel line line' : Nat} {yes : Node} {condition : Chain} {ts us : List Token}
      (hq : atMark ':' ts = false)
      (hy : expression fuel 0 condition.2 ts = .ok (yes, ⟨.punctuation ':', line'⟩ :: us)) :
      Makes ⟨.conditionals condition, fuel + 1, ⟨.punctuation '?', line⟩ :: ts⟩
        ⟨.expression 0 condition.2, fuel, us⟩
  | afterChoice {fuel line line' : Nat} {yes no : Node} {condition : Chain}
      {ts us vs : List Token} (hq : atMark ':' ts = false)
      (hy : expression fuel 0 condition.2 ts = .ok (yes, ⟨.punctuation ':', line'⟩ :: us))
      (hn : expression fuel 0 condition.2 us = .ok (no, vs)) (hl : condition.2 < maxNesting) :
      Makes ⟨.conditionals condition, fuel + 1, ⟨.punctuation '?', line⟩ :: ts⟩
        ⟨.conditionals (.conditional condition.1 (some yes) (some no), condition.2 + 1), fuel, vs⟩
  | afterGuarded {fuel line : Nat} {yes : Node} {condition : Chain} {ts us : List Token}
      (hq : atMark ':' ts = false) (hy : expression fuel 0 condition.2 ts = .ok (yes, us))
      (hq' : atMark ':' us = false) (hl : condition.2 < maxNesting) :
      Makes ⟨.conditionals condition, fuel + 1, ⟨.punctuation '?', line⟩ :: ts⟩
        ⟨.conditionals (.conditional condition.1 (some yes) none, condition.2 + 1), fuel, us⟩
  | callArguments {fuel level line line' : Nat} {name : String} {ts : List Token}
      (h : Node.isConstantWord name = false) :
      Makes ⟨.primary level, fuel + 1, ⟨.name name, line⟩ :: ⟨.punctuation '(', line'⟩ :: ts⟩
        ⟨.argumentList level, fuel, ts⟩
  | array {fuel level line : Nat} {ts : List Token} :
      Makes ⟨.primary level, fuel + 1, ⟨.punctuation '[', line⟩ :: ts⟩ ⟨.itemList level, fuel, ts⟩
  | hash {fuel level line : Nat} {ts : List Token} :
      Makes ⟨.primary level, fuel + 1, ⟨.punctuation '{', line⟩ :: ts⟩
        ⟨.entryList level, fuel, ts⟩
  | group {fuel level line : Nat} {ts : List Token} :
      Makes ⟨.primary level, fuel + 1, ⟨.punctuation '(', line⟩ :: ts⟩
        ⟨.expression 0 level, fuel, ts⟩
  | memberArguments {fuel line : Nat} {key : Node} {subject : Chain} {ts us : List Token}
      (hl : subject.2 < maxNesting) (hk : attributeKey ts = .ok (key, us)) :
      Makes ⟨.links subject, fuel + 1, ⟨.punctuation '.', line⟩ :: ts⟩
        ⟨.optionalArguments (subject.2 + 1), fuel, us⟩
  | afterMember {fuel line : Nat} {key : Node} {arguments : Option (List Node)}
      {subject : Chain} {ts us vs : List Token} (hl : subject.2 < maxNesting)
      (hk : attributeKey ts = .ok (key, us))
      (ha : optionalArguments fuel (subject.2 + 1) us = .ok (arguments, vs)) :
      Makes ⟨.links subject, fuel + 1, ⟨.punctuation '.', line⟩ :: ts⟩
        ⟨.links (.lookup (if arguments.isSome then "method" else "any") subject.1 key arguments,
          subject.2 + 1), fuel, vs⟩
  | itemKey {fuel line : Nat} {subject : Chain} {ts : List Token} (hl : subject.2 < maxNesting) :
      Makes ⟨.links subject, fuel + 1, ⟨.punctuation '[', line⟩ :: ts⟩
        ⟨.expression 0 (subject.2 + 1), fuel, ts⟩
  | afterItem {fuel line line' : Nat} {key : Node} {subject : Chain} {ts us : List Token}
      (hl : subject.2 < maxNesting)
      (hk : expression fuel 0 (subject.2 + 1) ts = .ok (key, ⟨.punctuation ']', line'⟩ :: us)) :
      Makes ⟨.links subject, fuel + 1, ⟨.punctuation '[', line⟩ :: ts⟩
        ⟨.links (.lookup "array" subject.1 key none, subject.2 + 1), fuel, us⟩
  | filterArguments {fuel line line' : Nat} {name : String} {subject : Chain} {ts : List Token}
      (hl : subject.2 < maxNesting) :
      Makes ⟨.links subject, fuel + 1, ⟨.punctuation '|', line⟩ :: ⟨.name name, line'⟩ :: ts⟩
        ⟨.optionalArguments (subject.2 + 1), fuel, ts⟩
  | afterFilter {fuel line line' : Nat} {name : String} {arguments : Option (List Node)}
      {subject : Chain} {ts us : List Token} (hl : subject.2 < maxNesting)
      (ha : optionalArguments fuel (subject.2 + 1) ts = .ok (arguments, us)) :
      Makes ⟨.links subject, fuel + 1, ⟨.punctuation '|', line⟩ :: ⟨.name name, line'⟩ :: ts⟩
        ⟨.links (.filter subject.1 name (arguments.getD []), subject.2 + 1), fuel, us⟩
  | arguments {fuel level line : Nat} {ts : List Token} :
      Makes ⟨.optionalArguments level, fuel + 1, ⟨.punctuation '(', line⟩ :: ts⟩
        ⟨.argumentList level, fuel, ts⟩
  | argument {fuel level : Nat} {ts : List Token} (h : atMark ')' ts = false) :
      Makes ⟨.argumentList level, fuel + 1, ts⟩ ⟨.argument level, fuel, ts⟩
  | nextArgument {fuel level line : Nat} {e : Node} {ts us : List Token}
      (h : atMark ')' ts = false)
      (ha : Phrasebook.argument fuel level ts = .ok (e, ⟨.punctuation ',', line⟩ :: us)) :
      Makes ⟨.argumentList level, fuel + 1, ts⟩ ⟨.argumentList level, fuel, us⟩
  | named {fuel level line line' : Nat} {name : String} {ts : List Token} :
      Makes ⟨.argument level, fuel + 1, ⟨.name name, line⟩ :: ⟨.punctuation '=', line'⟩ :: ts⟩
        ⟨.expression 0 level, fuel, ts⟩
  | unnamed {fuel level : Nat} {ts : List Token}
      (h : ∀ name line line' us, ts ≠ ⟨.name name, line⟩ :: ⟨.punctuation '=', line'⟩ :: us) :
      Makes ⟨.argument level, fuel + 1, ts⟩ ⟨.expression 0 level, fuel, ts⟩
  | item {fuel level : Nat} {ts : List Token} (h : atMark ']' ts = false) :
      Makes ⟨.itemList level, fuel + 1, ts⟩ ⟨.expression 0 level, fuel, ts⟩
  | nextItem {fuel level line : Nat} {e : Node} {ts us : List Token} (h : atMark ']' ts = false)
      (he : expression fuel 0 level ts = .ok (e, ⟨.punctuation ',', line⟩ :: us)) :
      Makes ⟨.itemList level, fuel + 1, ts⟩ ⟨.itemList level, fuel, us⟩
  | key {fuel level : Nat} {ts : List Token} (h : atMark '}' ts = false) :
      Makes ⟨.entryList level, fuel + 1, ts⟩ ⟨.entryKey level, fuel, ts⟩
  | entryValue {fuel level line : Nat} {key : Node} {ts us : List Token}
      (h : atMark '}' ts = false)
      (hk : entryKey fuel level ts = .ok (key, ⟨.punctuation ':', line⟩ :: us)) :
      Makes ⟨.entryList level, fuel + 1, ts⟩ ⟨.expression 0 level, fuel, us⟩
  | nextEntry {fuel level line line' : Nat} {key value : Node} {ts us vs : List Token}
      (h : atMark '}' ts = false)
      (hk : entryKey fuel level ts = .ok (key, ⟨.punctuation ':', line⟩ :: us))
      (hv : expression fuel 0 level us = .ok (value, ⟨.punctuation ',', line'⟩ :: vs)) :
      Makes ⟨.entryList level, fuel + 1, ts⟩ ⟨.entryList level, fuel, vs⟩
  | groupKey {fuel level line : Nat} {ts : List Token} :
      Makes ⟨.entryKey level, fuel + 1, ⟨.punctuation '(', line⟩ :: ts⟩
        ⟨.expression 0 level, fuel, ts⟩
  | separator {c : Char} {fuel level line : Nat} {ts : List Token} (hc : c ∈ [',', '=']) :
      Makes ⟨.tagArguments level, fuel + 1, ⟨.punctuation c, line⟩ :: ts⟩
        ⟨.tagArguments level, fuel, ts⟩
  | tagArgument {fuel level : Nat} {ts : List Token}
      (h : (current ts).kind ∉ [.tagEnd .block, .punctuation ',', .punctuation '=']) :
      Makes ⟨.tagArguments level, fuel + 1, ts⟩ (whole level ts)
  | nextTagArgument {fuel level : Nat} {e : Node} {ts us : List Token}
      (h : (current ts).kind ∉ [.tagEnd .block, .punctuation ',', .punctuation '='])
      (he : wholeExpression level ts = .ok (e, us)) :
      Makes ⟨.tagArguments level, fuel + 1, ts⟩ ⟨.tagArguments level, fuel, us⟩
  | value {fuel level : Nat} {ts : List Token} :
      Makes ⟨.expressionList level, fuel + 1, ts⟩ (whole level ts)
  | nextValue {fuel level line : Nat} {e : Node} {ts us : List Token}
      (he : wholeExpression level ts = .ok (e, ⟨.punctuation ',', line⟩ :: us))
      (h : (current us).kind ≠ .tagEnd .block) :
      Makes ⟨.expressionList level, fuel + 1, ts⟩ ⟨.expressionList level, fuel, us⟩
  | option {word : String} {fuel level line : Nat} {given : TransOptions} {ts : List Token}
      (hw : word ∈ ["with", "from", "into"]) :
      Makes ⟨.transOptions level given, fuel + 1, ⟨.name word, line⟩ :: ts⟩ (whole level ts)
  | afterVars {fuel level line : Nat} {e : Node} {given : TransOptions} {ts us : List Token}
      (he : wholeExpression level ts = .ok (e, us)) :
      Makes ⟨.transOptions level given, fuel + 1, ⟨.name "with", line⟩ :: ts⟩
        ⟨.transOptions level { given with vars := some e }, fuel, us⟩
  | afterDomain {fuel level line : Nat} {e : Node} {given : TransOptions} {ts us : List Token}
      (he : wholeExpression level ts = .ok (e, us)) :
      Makes ⟨.transOptions level given, fuel + 1, ⟨.name "from", line⟩ :: ts⟩
        ⟨.transOptions level { given with domain := some e }, fuel, us⟩
  | afterLocale {fuel level line : Nat} {e : Node} {given : TransOptions} {ts us : List Token}
      (he : wholeExpression level ts = .ok (e, us)) :
      Makes ⟨.transOptions level given, fuel + 1, ⟨.name "into", line⟩ :: ts⟩
        ⟨.transOptions level { given with locale := some e }, fuel, us⟩
  | nextName {fuel line line' : Nat} {name : String} {ts : List Token} :
      Makes ⟨.setNames, fuel, ⟨.name name, line⟩ :: ⟨.punctuation ',', line'⟩ :: ts⟩
        ⟨.setNames, fuel, ts⟩
  | skipped {fuel : Nat} {t : Token} {ts : List Token} (h : t.kind ∉ [.tagEnd .block, .eof]) :
      Makes ⟨.closeTag, fuel, t :: ts⟩ ⟨.closeTag, fuel, ts⟩
  | afterText {fuel level line : Nat} {data : String} {closing : List String} {ts : List Token} :
      Makes ⟨.statements level closing, fuel + 1, ⟨.text data, line⟩ :: ts⟩
        ⟨.statements level closing, fuel, ts⟩
  | printed {fuel level line : Nat} {closing : List String} {ts : List Token} :
      Makes ⟨.statements level closing, fuel + 1, ⟨.tagStart .print, line⟩ :: ts⟩ (whole level ts)
  | afterPrint {fuel level line line' : Nat} {e : Node} {closing : List String}
      {ts us : List Token}
      (he : wholeExpression level ts = .ok (e, ⟨.tagEnd .print, line'⟩ :: us)) :
      Makes ⟨.statements level closing, fuel + 1, ⟨.tagStart .print, line⟩ :: ts⟩
        ⟨.statements level closing, fuel, us⟩
  | tag {fuel level line line' : Nat} {name : String} {closing : List String} {ts : List Token}
      (h : name ∉ closing) :
      Makes ⟨.statements level closing, fuel + 1,
          ⟨.tagStart .block, line⟩ :: ⟨.name name, line'⟩ :: ts⟩ ⟨.tag level name line, fuel, ts⟩
  | afterTag {fuel level line line' : Nat} {name : String} {node : Node} {closing : List String}
      {ts us : List Token} (h : name ∉ closing)
      (ht : Phrasebook.tag fuel level name line ts = .ok (node, us)) :
      Makes ⟨.statements level closing, fuel + 1,
          ⟨.tagStart .block, line⟩ :: ⟨.name name, line'⟩ :: ts⟩
        ⟨.statements level closing, fuel, us⟩
  | statements {fuel level : Nat} {closing : List String} {ts : List Token}
      (hl : level < maxNesting) :
      Makes ⟨.block level closing, fuel + 1, ts⟩ ⟨.statements (level + 1) closing, fuel, ts⟩
  | trans {fuel level line : Nat} {ts : List Token} :
      Makes ⟨.tag level "trans" line, fuel + 1, ts⟩
        ⟨.transTag level "endtrans" none (current ts).line, fuel, ts⟩
  | count {fuel level line : Nat} {ts : List Token} :
      Makes ⟨.tag level "transchoice" line, fuel + 1, ts⟩ (whole level ts)
  | transChoice {fuel level line : Nat} {count : Node} {ts us : List Token}
      (hc : wholeExpression level ts = .ok (count, us)) :
      Makes ⟨.tag level "transchoice" line, fuel + 1, ts⟩
        ⟨.transTag level "endtranschoice" (some count) (current ts).line, fuel, us⟩
  | condition {fuel level line : Nat} {ts : List Token} :
      Makes ⟨.tag level "if" line, fuel + 1, ts⟩ (whole level ts)
  | branches {fuel level line line' : Nat} {condition : Node} {ts us : List Token}
      (hc : wholeExpression level ts = .ok (condition, ⟨.tagEnd .block, line'⟩ :: us)) :
      Makes ⟨.tag level "if" line, fuel + 1, ts⟩ ⟨.branches level condition, fuel, us⟩
  | sequence {fuel level line : Nat} {targets : LoopTargets} {ts us : List Token}
      (ht : loopTargets ts = .ok (targets, us)) :
      Makes ⟨.tag level "for" line, fuel + 1, ts⟩ (whole level us)
  | loopCondition {fuel level line line' : Nat} {targets : LoopTargets} {sequence : Node}
      {ts us vs : List Token} (ht : loopTargets ts = .ok (targets, us))
      (hs : wholeExpression level us = .ok (sequence, ⟨.name "if", line'⟩ :: vs)) :
      Makes ⟨.tag level "for" line, fuel + 1, ts⟩ (whole level vs)
  | loopBody {fuel level line line' : Nat} {targets : LoopTargets} {sequence : Node}
      {condition : Option Node} {ts us vs ws : List Token}
      (ht : loopTargets ts = .ok (targets, us)) (hs : wholeExpression level us = .ok (sequence, vs))
      (hc : Phrasebook.loopCondition level vs = .ok (condition, ⟨.tagEnd .block, line'⟩ :: ws)) :
      Makes ⟨.tag level "for" line, fuel + 1, ts⟩ ⟨.block level ["else", "endfor"], fuel, ws⟩
  | loopElse {fuel level line line' line'' : Nat} {targets : LoopTargets} {sequence : Node}
      {condition : Option Node} {nodes : List Node} {ts us vs ws xs : List Token}
      (ht : loopTargets ts = .ok (targets, us)) (hs : wholeExpression level us = .ok (sequence, vs))
      (hc : Phrasebook.loopCondition level vs = .ok (condition, ⟨.tagEnd .block, line'⟩ :: ws))
      (hb : block fuel level ["else", "endfor"] ws =
        .ok ((nodes, some "else"), ⟨.tagEnd .block, line''⟩ :: xs)) :
      Makes ⟨.tag level "for" line, fuel + 1, ts⟩ ⟨.block level ["endfor"], fuel, xs⟩
  | loopElseEnd {fuel level line line' line'' : Nat} {targets : LoopTargets} {sequence : Node}
      {condition : Option Node} {nodes : List Node} {others : Block}
      {ts us vs ws xs ys : List Token}
      (ht : loopTargets ts = .ok (targets, us)) (hs : wholeExpression level us = .ok (sequence, vs))
      (hc : Phrasebook.loopCondition level vs = .ok (condition, ⟨.tagEnd .block, line'⟩ :: ws))
      (hb : block fuel level ["else", "endfor"] ws =
        .ok ((nodes, some "else"), ⟨.tagEnd .block, line''⟩ :: xs))
      (ho : block fuel level ["endfor"] xs = .ok (others, ys)) :
      Makes ⟨.tag level "for" line, fuel + 1, ts⟩ ⟨.closeTag, fuel, ys⟩
  | loopEnd {fuel level line line' : Nat} {targets : LoopTargets} {sequence : Node}
      {condition : Option Node} {nodes : List Node} {close : Option String}
      {ts us vs ws xs : List Token} (ht : loopTargets ts = .ok (targets, us))
      (hs : wholeExpression level us = .ok (sequence, vs))
      (hc : Phrasebook.loopCondition level vs = .ok (condition, ⟨.tagEnd .block, line'⟩ :: ws))
      (hb : block fuel level ["else", "endfor"] ws = .ok ((nodes, close), xs))
      (he : close ≠ some "else") :
      Makes ⟨.tag level "for" line, fuel + 1, ts⟩ ⟨.closeTag, fuel, xs⟩
  | blockBody {fuel level line line' line'' : Nat} {name : String} {ts : List Token} :
      Makes ⟨.tag level "block" line, fuel + 1,
          ⟨.name name, line'⟩ :: ⟨.tagEnd .block, line''⟩ :: ts⟩
        ⟨.block level ["endblock"], fuel, ts⟩
  | blockEnd {fuel level line line' line'' : Nat} {name : String} {content : Block}
      {ts us : List Token} (hb : block fuel level ["endblock"] ts = .ok (content, us)) :
      Makes ⟨.tag level "block" line, fuel + 1,
          ⟨.name name, line'⟩ :: ⟨.tagEnd .block, line''⟩ :: ts⟩
        ⟨.closeTag, fuel, us⟩
  | blockValue {fuel level line line' : Nat} {name : String} {ts : List Token}
      (h : (current ts).kind ≠ .tagEnd .block) :
      Makes ⟨.tag level "block" line, fuel + 1, ⟨.name name, line'⟩ :: ts⟩ (whole level ts)
  | setNames {fuel level line : Nat} {ts : List Token} :
      Makes ⟨.tag level "set" line, fuel + 1, ts⟩ ⟨.setNames, fuel, ts⟩
  | setValues {fuel level line line' : Nat} {names : List String} {ts us : List Token}
      (hn : Phrasebook.setNames ts = .ok (names, ⟨.punctuation '=', line'⟩ :: us)) :
      Makes ⟨.tag level "set" line, fuel + 1, ts⟩ ⟨.expressionList level, us.length + 1, us⟩
  | setBody {fuel level line line' : Nat} {names : List String} {ts us : List Token}
      (hn : Phrasebook.setNames ts = .ok (names, ⟨.tagEnd .block, line'⟩ :: us)) :
      Makes ⟨.tag level "set" line, fuel + 1, ts⟩ ⟨.block level ["endset"], fuel, us⟩
  | setEnd {fuel level line line' : Nat} {names : List String} {content : Block}
      {ts us vs : List Token}
      (hn : Phrasebook.setNames ts = .ok (names, ⟨.tagEnd .block, line'⟩ :: us))
      (hb : block fuel level ["endset"] us = .ok (content, vs)) :
      Makes ⟨.tag level "set" line, fuel + 1, ts⟩ ⟨.closeTag, fuel, vs⟩
  | pairedArguments {fuel level line : Nat} {name : String} {ts : List Token}
      (h : name ∈ pairedTags) :
      Makes ⟨.tag level name line, fuel + 1, ts⟩ ⟨.tagArguments level, ts.length + 1, ts⟩
  | pairedBody {fuel level line line' : Nat} {name : String} {arguments : List Node}
      {ts us : List Token} (h : name ∈ pairedTags)
      (ha : tagArguments (ts.length + 1) level ts =
        .ok (arguments, ⟨.tagEnd .block, line'⟩ :: us)) :
      Makes ⟨.tag level name line, fuel + 1, ts⟩ ⟨.block level ["end" ++ name], fuel, us⟩
  | pairedEnd {fuel level line line' : Nat} {name : String} {arguments : List Node}
      {content : Block} {ts us vs : List Token} (h : name ∈ pairedTags)
      (ha : tagArguments (ts.length + 1) level ts =
        .ok (arguments, ⟨.tagEnd .block, line'⟩ :: us))
      (hb : block fuel level ["end" ++ name] us = .ok (content, vs)) :
      Makes ⟨.tag level name line, fuel + 1, ts⟩ ⟨.closeTag, fuel, vs⟩
  | looseArguments {fuel level line : Nat} {name : String} {ts : List Token}
      (h : name ∉ ["trans", "transchoice", "if", "for", "block", "set"] ++ pairedTags)
      (hc : isContinuation name = false) :
      Makes ⟨.tag level name line, fuel + 1, ts⟩ ⟨.tagArguments level, ts.length + 1, ts⟩
  | transOptions {fuel level start : Nat} {closing : String} {count : Option Node}
      {ts : List Token} :
      Makes ⟨.transTag level closing count start, fuel + 1, ts⟩
        ⟨.transOptions level {}, ts.length + 1, ts⟩
  | transBody {fuel level line start : Nat} {closing : String} {count : Option Node}
      {options : TransOptions} {ts us : List Token}
      (ho : Phrasebook.transOptions (ts.length + 1) level {} ts =
        .ok (options, ⟨.tagEnd .block, line⟩ :: us)) :
      Makes ⟨.transTag level closing count start, fuel + 1, ts⟩ ⟨.block level [closing], fuel, us⟩
  | transEnd {fuel level line start : Nat} {closing : String} {count : Option Node}
      {options : TransOptions} {content : Block} {ts us vs : List Token}
      (ho : Phrasebook.transOptions (ts.length + 1) level {} ts =
        .ok (options, ⟨.tagEnd .block, line⟩ :: us))
      (hb : block fuel level [closing] us = .ok (content, vs)) :
      Makes ⟨.transTag level closing count start, fuel + 1, ts⟩ ⟨.closeTag, fuel, vs⟩
  | branchBody {fuel level : Nat} {condition : Node} {ts : List Token} :
      Makes ⟨.branches level condition, fuel + 1, ts⟩
        ⟨.block level ["elseif", "else", "endif"], fuel, ts⟩
  | nextCondition {fuel level : Nat} {condition : Node} {nodes : List Node} {ts us : List Token}
      (hb : block fuel level ["elseif", "else", "endif"] ts = .ok ((nodes, some "elseif"), us)) :
      Makes ⟨.branches level condition, fuel + 1, ts⟩ (whole level us)
  | nextBranch {fuel level line : Nat} {condition next : Node} {nodes : List Node}
      {ts us vs : List Token}
      (hb : block fuel level ["elseif", "else", "endif"] ts = .ok ((nodes, some "elseif"), us))
      (hn : wholeExpression level us = .ok (next, ⟨.tagEnd .block, line⟩ :: vs)) :
      Makes ⟨.branches level condition, fuel + 1, ts⟩ ⟨.branches level next, fuel, vs⟩
  | elseBody {fuel level line : Nat} {condition : Node} {nodes : List Node} {ts us : List Token}
      (hb : block fuel level ["elseif", "else", "endif"] ts =
        .ok ((nodes, some "else"), ⟨.tagEnd .block, line⟩ :: us)) :
      Makes ⟨.branches level condition, fuel + 1, ts⟩ ⟨.block level ["endif"], fuel, us⟩
  | elseEnd {fuel level line : Nat} {condition : Node} {nodes : List Node} {others : Block}
      {ts us vs : List Token}
      (hb : block fuel level ["elseif", "else", "endif"] ts =
        .ok ((nodes, some "else"), ⟨.tagEnd .block, line⟩ :: us))
      (ho : block fuel level ["endif"] us = .ok (others, vs)) :
      Makes ⟨.branches level condition, fuel + 1, ts⟩ ⟨.closeTag, fuel, vs⟩
  | branchesEnd {fuel level : Nat} {condition : Node} {nodes : List Node}
      {close : Option String} {ts us : List Token}
      (hb : block fuel level ["elseif", "else", "endif"] ts = .ok ((nodes, close), us))
      (he : close ≠ some "elseif" ∧ close ≠ some "else") :
      Makes ⟨.branches level condition, fuel + 1, ts⟩ ⟨.closeTag, fuel, us⟩

end Call
end Phrasebook
