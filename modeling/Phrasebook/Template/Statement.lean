import Phrasebook.Template.Expression

namespace Phrasebook

/-- Tags that wrap a body closed by the tag `end` with their name. -/
def pairedTags : List String :=
  ["spaceless", "autoescape", "filter", "apply", "macro", "embed", "sandbox", "with"]

/-- Whether a tag only stands where another tag expects it. -/
def isContinuation (name : String) : Bool :=
  name == "else" || name == "elseif" || startsWith "end" name.toList

def closeTag : List Token → Except ParseError (List Token)
  | [] => .error (.unexpected (current []))
  | ⟨.tagEnd .block, _⟩ :: ts => .ok ts
  | ⟨.eof, line⟩ :: _ => .error (.unexpected ⟨.eof, line⟩)
  | _ :: ts => closeTag ts

def endTag (ts : List Token) : Except ParseError (List Token) := expect (.tagEnd .block) ts

/-- The options of a translation tag, each the last one of its word. -/
structure TransOptions where
  vars : Option Node := none
  domain : Option Node := none
  locale : Option Node := none
  deriving Repr

def transOptions (fuel level : Nat) (options : TransOptions) (ts : List Token) :
    Except ParseError (Reading TransOptions) :=
  match fuel with
  | 0 => .error .exhausted
  | fuel + 1 =>
    if atName "with" ts then do
      let (e, ts) ← wholeExpression level ts.tail
      transOptions fuel level { options with vars := some e } ts
    else if atName "from" ts then do
      let (e, ts) ← wholeExpression level ts.tail
      transOptions fuel level { options with domain := some e } ts
    else if atName "into" ts then do
      let (e, ts) ← wholeExpression level ts.tail
      transOptions fuel level { options with locale := some e } ts
    else .ok (options, ts)

def isText : Node → Bool
  | .text _ => true
  | _ => false

def isBlankText : Node → Bool
  | .text data => data.toList.all isBlank
  | _ => false

/-- The message of a translation: its text, or the one expression that blanks may surround. -/
def transBody (line : Nat) (nodes : List Node) : Except ParseError Node :=
  if !nodes.isEmpty && nodes.all isText then
    .ok (.text (String.join (nodes.filterMap Node.literalText?)))
  else
    match nodes.filter (!isBlankText ·) with
    | [.print expr] => .ok expr
    | _ => .error (.mixedTranslation line)

/-- Loosely reads the arguments of a tag, skipping the separators `,` and `=`. -/
def tagArguments (fuel level : Nat) (ts : List Token) : Except ParseError (Reading (List Node)) :=
  match fuel with
  | 0 => .error .exhausted
  | fuel + 1 =>
    if (current ts).kind = .tagEnd .block then .ok ([], ts)
    else if atMark ',' ts || atMark '=' ts then tagArguments fuel level ts.tail
    else do
      let (argument, ts) ← wholeExpression level ts
      let (others, ts) ← tagArguments fuel level ts
      return (argument :: others, ts)

/-- Expressions between commas up to the end of a tag, where a last comma may stand. -/
def expressionList (fuel level : Nat) (ts : List Token) : Except ParseError (Reading (List Node)) :=
  match fuel with
  | 0 => .error .exhausted
  | fuel + 1 => do
    let (first, ts) ← wholeExpression level ts
    if !atMark ',' ts then return ([first], ts)
    else if (current ts.tail).kind = .tagEnd .block then return ([first], ts.tail)
    else
      let (others, ts) ← expressionList fuel level ts.tail
      return (first :: others, ts)

def setNames : List Token → Except ParseError (Reading (List String))
  | ⟨.name name, _⟩ :: ⟨.punctuation ',', _⟩ :: ts => do
    let (others, ts) ← setNames ts
    return (name :: others, ts)
  | ⟨.name name, _⟩ :: ts => .ok ([name], ts)
  | ts => .error (.expectedName (current ts))

structure LoopTargets where
  value : String
  key : Option String
  deriving DecidableEq, Repr

def loopTargets (ts : List Token) : Except ParseError (Reading LoopTargets) := do
  let (first, ts) ← expectName ts
  let (targets, ts) ← if atMark ',' ts then do
      let (second, ts) ← expectName ts.tail
      pure (LoopTargets.mk second (some first), ts)
    else pure (LoopTargets.mk first none, ts)
  if atName "in" ts then return (targets, ts.tail) else throw (.unexpected (current ts))

def loopCondition (level : Nat) (ts : List Token) : Except ParseError (Reading (Option Node)) :=
  if atName "if" ts then do
    let (condition, ts) ← wholeExpression level ts.tail
    return (some condition, ts)
  else .ok (none, ts)

namespace Node

/-- Conditions and bodies in turn, and the body for when none holds. -/
def ifTag (tests : List Node) (otherwise : Option Node) : Node :=
  ((new .ifTag).add "tests" (body tests)).addOptional "else" otherwise

def forTag (targets : LoopTargets) (sequence : Node) (condition : Option Node) (content : Node)
    (otherwise : Option Node) : Node :=
  let node := (new .forTag).setAttribute "value_target" (.str targets.value)
  let node := match targets.key with
    | some key => node.setAttribute "key_target" (.str key)
    | none => node
  (((node.add "seq" sequence).addOptional "condition" condition).add "body" content).addOptional
    "else" otherwise

def blockTag (name : String) (content : Node) : Node :=
  ((new .blockTag).setAttribute "name" (.str name)).add "body" content

def setTag (names : List String) (values : Node) : Node :=
  ((new .setTag).add "names" (body (names.map ofName))).add "values" values

def tag (name : String) (arguments : List Node) (content : Option Node) : Node :=
  let node := ((new .tag).setAttribute "name" (.str name)).add "arguments" (body arguments)
  match content with
  | some content => node.add "body" content
  | none => node

end Node

/-- Statements and the closing tag that ended them. -/
abbrev Block := List Node × Option String

mutual

/-- Statements up to a block tag with one of the given names, or to the end of the template when
none is given. The rest of that tag is left unread. -/
def statements (fuel level : Nat) (closing : List String) (ts : List Token) :
    Except ParseError (Reading Block) :=
  match fuel with
  | 0 => .error .exhausted
  | fuel + 1 =>
    match ts with
    | ⟨.text data, _⟩ :: ts => do
      let ((nodes, close), ts) ← statements fuel level closing ts
      return ((.text data :: nodes, close), ts)
    | ⟨.tagStart .print, _⟩ :: ts => do
      let (e, ts) ← wholeExpression level ts
      let ts ← expect (.tagEnd .print) ts
      let ((nodes, close), ts) ← statements fuel level closing ts
      return ((.print e :: nodes, close), ts)
    | ⟨.tagStart .block, line⟩ :: ts => do
      let (name, ts) ← expectName ts
      if name ∈ closing then return (([], some name), ts)
      else
        let (node, ts) ← tag fuel level name line ts
        let ((nodes, close), ts) ← statements fuel level closing ts
        return ((node :: nodes, close), ts)
    | ts =>
      if (current ts).kind = .eof then
        if closing.isEmpty then .ok (([], none), ts) else .error (.unclosed closing)
      else .error (.unexpected (current ts))

def block (fuel level : Nat) (closing : List String) (ts : List Token) :
    Except ParseError (Reading Block) :=
  match fuel with
  | 0 => .error .exhausted
  | fuel + 1 => do
    let level ← descend level ts
    statements fuel level closing ts

def tag (fuel level : Nat) (name : String) (line : Nat) (ts : List Token) :
    Except ParseError (Reading Node) :=
  match fuel with
  | 0 => .error .exhausted
  | fuel + 1 =>
    if name = "trans" then transTag fuel level "endtrans" none (current ts).line ts
    else if name = "transchoice" then do
      let start := (current ts).line
      let (count, ts) ← wholeExpression level ts
      transTag fuel level "endtranschoice" (some count) start ts
    else if name = "if" then do
      let (condition, ts) ← wholeExpression level ts
      let ts ← endTag ts
      let ((tests, otherwise), ts) ← branches fuel level condition ts
      return (.ifTag tests otherwise, ts)
    else if name = "for" then do
      let (targets, ts) ← loopTargets ts
      let (sequence, ts) ← wholeExpression level ts
      let (condition, ts) ← loopCondition level ts
      let ts ← endTag ts
      let ((nodes, close), ts) ← block fuel level ["else", "endfor"] ts
      let (otherwise, ts) ← if close = some "else" then do
          let ts ← endTag ts
          let ((others, _), ts) ← block fuel level ["endfor"] ts
          pure (some (Node.body others), ts)
        else pure (none, ts)
      return (.forTag targets sequence condition (.body nodes) otherwise, ← closeTag ts)
    else if name = "block" then do
      let (blockName, ts) ← expectName ts
      if (current ts).kind = .tagEnd .block then
        let ((nodes, _), ts) ← block fuel level ["endblock"] ts.tail
        return (.blockTag blockName (.body nodes), ← closeTag ts)
      else
        let (e, ts) ← wholeExpression level ts
        return (.blockTag blockName (.body [.print e]), ← endTag ts)
    else if name = "set" then do
      let (names, ts) ← setNames ts
      if atMark '=' ts then
        let (values, ts) ← expressionList ts.length level ts.tail
        return (.setTag names (.body values), ← endTag ts)
      else
        let ts ← endTag ts
        let ((nodes, _), ts) ← block fuel level ["endset"] ts
        return (.setTag names (.body nodes), ← closeTag ts)
    else if name ∈ pairedTags then do
      let (arguments, ts) ← tagArguments (ts.length + 1) level ts
      let ts ← endTag ts
      let ((nodes, _), ts) ← block fuel level ["end" ++ name] ts
      return (.tag name arguments (some (.body nodes)), ← closeTag ts)
    else if isContinuation name then .error (.unexpectedTag name line)
    else do
      let (arguments, ts) ← tagArguments (ts.length + 1) level ts
      return (.tag name arguments none, ← endTag ts)

/-- A translation tag, from its options on; `start` is the line that a message about it names. -/
def transTag (fuel level : Nat) (closing : String) (count : Option Node) (start : Nat)
    (ts : List Token) : Except ParseError (Reading Node) :=
  match fuel with
  | 0 => .error .exhausted
  | fuel + 1 => do
    let (options, ts) ← transOptions (ts.length + 1) level {} ts
    let ts ← endTag ts
    let ((nodes, _), ts) ← block fuel level [closing] ts
    let ts ← closeTag ts
    let content ← transBody start nodes
    return (.trans content options.domain options.vars count options.locale, ts)

def branches (fuel level : Nat) (condition : Node) (ts : List Token) :
    Except ParseError (Reading (List Node × Option Node)) :=
  match fuel with
  | 0 => .error .exhausted
  | fuel + 1 => do
    let ((nodes, close), ts) ← block fuel level ["elseif", "else", "endif"] ts
    if close = some "elseif" then
      let (next, ts) ← wholeExpression level ts
      let ts ← endTag ts
      let ((tests, otherwise), ts) ← branches fuel level next ts
      return ((condition :: .body nodes :: tests, otherwise), ts)
    else if close = some "else" then
      let ts ← endTag ts
      let ((others, _), ts) ← block fuel level ["endif"] ts
      return (([condition, .body nodes], some (.body others)), ← closeTag ts)
    else return (([condition, .body nodes], none), ← closeTag ts)

end

/-- Steps that suffice for all statements: every round of calls reads a token. -/
def statementFuel (ts : List Token) : Nat := 8 * ts.length + 8

def parseTokens (ts : List Token) : Except ParseError Node := do
  let ((nodes, _), _) ← block (statementFuel ts) 0 [] ts
  return .module (.body nodes)

def parseTemplate (source : String) : Except ParseError Node :=
  match tokenize source with
  | .ok ts => parseTokens ts
  | .error e => .error (.token e)

end Phrasebook
