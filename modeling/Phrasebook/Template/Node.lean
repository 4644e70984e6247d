import Phrasebook.Entries
import Phrasebook.Scalar

/-!
Syntax trees of templates. The nodes that carry messages have constructors of their own; all other
constructs are generic nodes with a kind, scalar attributes and child slots.
-/
namespace Phrasebook

inductive NodeKind
  | module
  | body
  | ifTag
  | forTag
  | blockTag
  | setTag
  | tag
  | name
  | access
  | call
  | array
  | hash
  | unary
  | binary
  | test
  | conditional
  | namedArgument
  deriving DecidableEq, Repr

inductive Slot
  | named (name : String)
  | position (i : Nat)
  deriving DecidableEq, Repr

def Slot.isPosition : Slot → Bool
  | named _ => false
  | position _ => true

inductive Node
  | trans (body : Node) (domain vars count locale : Option Node)
  | print (expr : Node)
  | filter (subject : Node) (name : String) (arguments : List Node)
  | constant (value : Scalar)
  | text (data : String)
  | generic (kind : NodeKind) (attributes : List (String × Scalar))
      (children : List (Slot × Option Node))
  deriving Repr, Inhabited

abbrev Children := List (Slot × Option Node)

namespace Children

def child? : Children → String → Option Node
  | [], _ => none
  | (slot, n) :: cs, name => if slot = .named name then n else child? cs name

def push (cs : Children) (n : Node) : Children :=
  cs ++ [(.position (cs.countP fun c => c.1.isPosition), some n)]

def pushAll (cs : Children) (ns : List Node) : Children := ns.foldl push cs

def nodes (cs : Children) : List Node := cs.filterMap Prod.snd

end Children

namespace Node

/-- The slot of the wrapped expression in wrappers with one child. -/
def innerSlot : String := "node"

def new (kind : NodeKind) : Node := generic kind [] []

def setAttribute : Node → String → Scalar → Node
  | generic k as cs, name, value => generic k (Entries.insert as name value) cs
  | n, _, _ => n

def addOptional : Node → String → Option Node → Node
  | generic k as cs, name, child => generic k as (cs ++ [(.named name, child)])
  | n, _, _ => n

def add (n : Node) (name : String) (child : Node) : Node := n.addOptional name (some child)

def push : Node → Node → Node
  | generic k as cs, child => generic k as (Children.push cs child)
  | n, _ => n

def pushAll (n : Node) (children : List Node) : Node := children.foldl push n

def child? : Node → String → Option Node
  | generic _ _ cs, name => Children.child? cs name
  | _, _ => none

def attribute? : Node → String → Option Scalar
  | generic _ as _, name => Entries.get? as name
  | _, _ => none

def kind? : Node → Option NodeKind
  | generic k _ _ => some k
  | _ => none

def ofString (s : String) : Node := constant (.str s)

def ofName (name : String) : Node := (new .name).setAttribute "name" (.str name)

def access (object key : Node) : Node := ((new .access).add innerSlot object).add "attribute" key

def body (nodes : List Node) : Node := (new .body).pushAll nodes

def module (body : Node) : Node := (new .module).add "body" body

def children : Node → List Node
  | trans body domain vars count locale =>
    body :: [domain, vars, count, locale].filterMap id
  | print expr => [expr]
  | filter subject _ arguments => subject :: arguments
  | constant _ => []
  | text _ => []
  | generic _ _ cs => Children.nodes cs

def inner? : Node → Option Node
  | filter subject _ _ => some subject
  | generic _ _ cs => Children.child? cs innerSlot
  | _ => none

def literalText? : Node → Option String
  | constant value => value.text?
  | text data => some data
  | _ => none

/-- Whether the node looks up an attribute when the template runs. -/
def isAccess : Node → Bool
  | generic .access _ _ => true
  | _ => false

mutual

/-- Equality of trees, with scalars by value and attributes in any order. -/
def equal : Node → Node → Bool
  | trans b d v c l, trans b' d' v' c' l' =>
    b.equal b' && equalOption d d' && equalOption v v' && equalOption c c' && equalOption l l'
  | print e, print e' => e.equal e'
  | filter s n as, filter s' n' as' => s.equal s' && n == n' && equalList as as'
  | constant v, constant v' => v.equal v'
  | text d, text d' => d == d'
  | generic k as cs, generic k' as' cs' =>
    k == k' && Entries.sameBy Scalar.equal as as' && equalChildren cs cs'
  | _, _ => false

def equalOption : Option Node → Option Node → Bool
  | none, none => true
  | some n, some n' => n.equal n'
  | _, _ => false

def equalList : List Node → List Node → Bool
  | [], [] => true
  | n :: ns, n' :: ns' => n.equal n' && equalList ns ns'
  | _, _ => false

def equalChildren : List (Slot × Option Node) → List (Slot × Option Node) → Bool
  | [], [] => true
  | (s, n) :: cs, (s', n') :: cs' => s == s' && equalOption n n' && equalChildren cs cs'
  | _, _ => false

end

end Node
end Phrasebook
