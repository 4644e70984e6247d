import Phrasebook.Entries
import Phrasebook.Yaml.Node

/-!
Anchors and aliases. An anchor is numbered by the count of the names known before it, so that a
name given again can share its number with the name after it; the later node then counts for both.
-/
namespace Phrasebook.Yaml

abbrev Labels := Entries Nat

def Properties.label (labels : Labels) (p : Properties String) : Properties Nat × Labels :=
  match p.anchor with
  | none => ({ tag := p.tag }, labels)
  | some name =>
    ({ anchor := labels.length, tag := p.tag }, Entries.insert labels name labels.length)

namespace Node

mutual

/-- Numbers the anchors and aliases of a node in the order of the text. An alias must follow its
anchor. -/
def label? (labels : Labels) : Node String → Option (Node Nat × Labels)
  | reference name => (Entries.get? labels name).map fun id => (.reference id, labels)
  | scalar p text style =>
    let (p, labels) := p.label labels
    some (.scalar p text style, labels)
  | sequence p items => do
    let (p, labels) := p.label labels
    let (items, labels) ← labelItems? labels items
    return (.sequence p items, labels)
  | mapping p entries => do
    let (p, labels) := p.label labels
    let (entries, labels) ← labelEntries? labels entries
    return (.mapping p entries, labels)

def labelItems? (labels : Labels) : List (Node String) → Option (List (Node Nat) × Labels)
  | [] => some ([], labels)
  | n :: ns => do
    let (n, labels) ← n.label? labels
    let (ns, labels) ← labelItems? labels ns
    return (n :: ns, labels)

def labelEntries? (labels : Labels) :
    List (Node String × Node String) → Option (List (Node Nat × Node Nat) × Labels)
  | [] => some ([], labels)
  | (k, v) :: es => do
    let (k, labels) ← k.label? labels
    let (v, labels) ← v.label? labels
    let (es, labels) ← labelEntries? labels es
    return ((k, v) :: es, labels)

end

def anchored (p : Properties Nat) (n : Node Nat) : List (Nat × Node Nat) :=
  match p.anchor with
  | none => []
  | some id => [(id, n)]

mutual

def targets : Node Nat → List (Nat × Node Nat)
  | reference _ => []
  | scalar p text style => anchored p (.scalar p text style)
  | sequence p items => anchored p (.sequence p items) ++ targetsOfItems items
  | mapping p entries => anchored p (.mapping p entries) ++ targetsOfEntries entries

def targetsOfItems : List (Node Nat) → List (Nat × Node Nat)
  | [] => []
  | n :: ns => n.targets ++ targetsOfItems ns

def targetsOfEntries : List (Node Nat × Node Nat) → List (Nat × Node Nat)
  | [] => []
  | (k, v) :: es => k.targets ++ v.targets ++ targetsOfEntries es

end

end Node
end Phrasebook.Yaml
