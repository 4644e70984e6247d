import Phrasebook.Yaml.Token

namespace Phrasebook.Yaml

/-- What may stand in front of a node. Anchors are labels of any kind. -/
structure Properties (α : Type) where
  anchor : Option α := none
  tag : Option String := none
  deriving DecidableEq, Repr

inductive Node (α : Type)
  | reference (label : α)
  | scalar (properties : Properties α) (text : String) (style : ScalarStyle)
  | sequence (properties : Properties α) (items : List (Node α))
  | mapping (properties : Properties α) (entries : List (Node α × Node α))
  deriving Repr

namespace Node

variable {α : Type}

def empty : Node α := .scalar {} "" .plain

mutual

/-- The number of events that present the node: a collection has one at either end. -/
def events : Node α → Nat
  | reference _ => 1
  | scalar .. => 1
  | sequence _ items => eventsOfItems items + 2
  | mapping _ entries => eventsOfEntries entries + 2

def eventsOfItems : List (Node α) → Nat
  | [] => 0
  | n :: ns => n.events + eventsOfItems ns

def eventsOfEntries : List (Node α × Node α) → Nat
  | [] => 0
  | (k, v) :: es => k.events + v.events + eventsOfEntries es

end

end Node
end Phrasebook.Yaml
