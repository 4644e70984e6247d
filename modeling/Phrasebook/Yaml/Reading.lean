import Phrasebook.Yaml.Anchor
import Phrasebook.Yaml.Document
import Phrasebook.Yaml.Plain
import Phrasebook.Yaml.Tokens

namespace Phrasebook.Yaml

def maxNesting : Nat := 128

/-- How many aliases a document may follow for each of its events. -/
def aliasesPerEvent : Nat := 100

/-- A computation that may fail and that counts the aliases which may still be followed. -/
abbrev Following := StateT Nat Option

/-- The anchored nodes of a document under their numbers, the last ones first. -/
abbrev Targets := List (Nat × Node Nat)

def follow (targets : Targets) : Node Nat → Following (Node Nat)
  | .reference id => do
    let left ← get
    if left = 0 then failure
    set (left - 1)
    match targets.lookup id with
    | some n => return n
    | none => failure
  | n => return n

namespace Node

def tag? : Node Nat → Option String
  | reference _ => none
  | scalar p _ _ => p.tag
  | sequence p _ => p.tag
  | mapping p _ => p.tag

def isAlias : Node Nat → Bool
  | reference _ => true
  | _ => false

def localTag? (n : Node Nat) : Option String :=
  match n.tag?.map String.toList with
  | some ('!' :: cs) => some (String.ofList cs)
  | _ => none

end Node

def addEntry (entries : List (Data × Data)) (k v : Data) : Following (List (Data × Data)) :=
  if entries.any fun e => k.same e.1 then failure else return entries ++ [(k, v)]

/-- The data of a node in which up to `depth` collections lie in one another. The tag of a node
that is `tagged` already is passed over, as are those of the keys that stand in it. -/
def data (targets : Targets) (depth : Nat) (tagged : Bool) (n : Node Nat) : Following Data := do
  let name := if tagged then none else n.localTag?
  if name = some "" then failure
  let tagged := tagged || name.isSome
  let content ← match depth, n with
    | _, .reference _ => failure
    | _, .scalar p text style =>
      (scalarData? (if tagged then none else p.tag) text style : Option Data)
    | 0, _ => failure
    | depth + 1, .sequence _ items =>
      .sequence <$> items.mapM fun item => do data targets depth false (← follow targets item)
    | depth + 1, .mapping _ entries =>
      .mapping <$> entries.foldlM (fun es e => do
        let key ← follow targets e.1
        let k ← data targets depth (tagged && !e.1.isAlias) key
        let v ← data targets depth false (← follow targets e.2)
        addEntry es k v) []
  return match name with
    | some name => .tagged name content
    | none => content

def Node.data? (n : Node String) : Option Data := do
  let (n, _) ← n.label? []
  let (d, _) ← (data n.targets.reverse maxNesting false n).run (aliasesPerEvent * n.events)
  return d

def Data.read? (text : String) : Option Data := do
  match ← document? (← tokens? text.toList) with
  | none => return .null
  | some n => n.data?

end Phrasebook.Yaml
