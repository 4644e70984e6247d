import Phrasebook.Catalog
import Phrasebook.Template.Node

/-!
Extraction of messages from syntax trees. Two constructs carry messages: translated blocks with a
literal body, and prints whose filter chain holds the translation filter. Each message is recorded
once per domain, under its first occurrence.
-/
namespace Phrasebook

def transFilter : String := "trans"

structure ExtractOptions where
  /-- Put in front of a new message to form its placeholder. -/
  placeholder : String := "__"
  defaultDomain : String := "messages"
  maxDepth : Nat := 512
  deriving DecidableEq, Repr

namespace Node

mutual

/-- The constant inside a chain of single-child wrappers, as text. -/
def message? : Node → Option String
  | constant value => value.text?
  | filter subject _ _ => subject.message?
  | generic _ _ cs => innerMessage? cs
  | _ => none

def innerMessage? : List (Slot × Option Node) → Option String
  | [] => none
  | (slot, n) :: cs =>
    if slot = .named innerSlot then
      match n with
      | some n => n.message?
      | none => none
    else innerMessage? cs

end

/-- The domain of a printed expression: that of the outermost translation filter of its filter
chain, which names the domain in its second argument. -/
def domain? (default : String) : Node → Option String
  | filter subject name arguments =>
    if name = transFilter then
      match arguments[1]? with
      | some domain => domain.literalText?
      | none => some default
    else subject.domain? default
  | _ => none

def entry? (options : ExtractOptions) : Node → Option (String × String)
  | trans body domain _ _ _ =>
    if body.isAccess then none
    else do
      let domain ← match domain with
        | some d => d.literalText?
        | none => some options.defaultDomain
      return (domain, ← body.literalText?)
  | print expr => do return (← expr.domain? options.defaultDomain, ← expr.message?)
  | _ => none

end Node

/-- The state of a search: what it recorded, and whether it met a node that lies too deep. -/
structure Search where
  catalog : Catalog
  tooDeep : Bool := false
  deriving Repr

namespace Search

def record (options : ExtractOptions) (n : Node) (c : Catalog) : Catalog :=
  match n.entry? options with
  | some (domain, message) =>
    c.insertIfAbsent domain message (.ofString (options.placeholder ++ message))
  | none => c

/-- Visits one node: nothing after the limit was met, and below it the node's own message first. -/
def visit (options : ExtractOptions) (depth : Nat) (s : Search) (n : Node)
    (below : Search → Search) : Search :=
  if s.tooDeep then s
  else if options.maxDepth < depth then { s with tooDeep := true }
  else below { s with catalog := record options n s.catalog }

mutual

def node (options : ExtractOptions) (depth : Nat) (s : Search) : Node → Search
  | .trans body domain vars count locale =>
    visit options depth s (.trans body domain vars count locale) fun s =>
      if body.isAccess then
        let s := node options (depth + 1) s body
        let s := option options (depth + 1) s domain
        let s := option options (depth + 1) s vars
        let s := option options (depth + 1) s count
        option options (depth + 1) s locale
      else s
  | .print expr => visit options depth s (.print expr) id
  | .filter subject name arguments =>
    visit options depth s (.filter subject name arguments) fun s =>
      list options (depth + 1) (node options (depth + 1) s subject) arguments
  | .constant value => visit options depth s (.constant value) id
  | .text data => visit options depth s (.text data) id
  | .generic kind attributes children =>
    visit options depth s (.generic kind attributes children) fun s =>
      slots options (depth + 1) s children

def option (options : ExtractOptions) (depth : Nat) (s : Search) : Option Node → Search
  | none => s
  | some n => node options depth s n

def list (options : ExtractOptions) (depth : Nat) (s : Search) : List Node → Search
  | [] => s
  | n :: ns => list options depth (node options depth s n) ns

def slots (options : ExtractOptions) (depth : Nat) (s : Search) :
    List (Slot × Option Node) → Search
  | [] => s
  | (_, n) :: cs => slots options depth (option options depth s n) cs

end

end Search

def Catalog.extract (c : Catalog) (options : ExtractOptions) (tree : Node) : Search :=
  Search.node options 0 { catalog := c } tree

def ExtractOptions.depthMessage (options : ExtractOptions) : String :=
  "Template nesting exceeds the maximum depth of " ++ toString options.maxDepth
end Phrasebook
