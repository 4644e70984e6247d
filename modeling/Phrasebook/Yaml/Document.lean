import Phrasebook.Entries
import Phrasebook.Yaml.Node

namespace Phrasebook.Yaml

/-- Where a node stands: inside a flow collection, as an item of a block, or as a key or value of
a block mapping, where a sequence needs no indentation of its own. -/
inductive Place
  | flow
  | item
  | entry
  deriving DecidableEq, Repr

abbrev Parsed (α : Type) := α × List Token

/-- The text of a tag, given the leads of the handles. A tag without a handle is complete. -/
def tagText? (handles : Entries String) (handle suffix : String) : Option String :=
  if handle = "" then some suffix else (Entries.get? handles handle).map (· ++ suffix)

/-- Reads an anchor and a tag, in either order and each at most once. -/
def properties? (handles : Entries String) :
    List Token → Option (Parsed (Properties String))
  | .anchor name :: .tag handle suffix :: ts => do
    return ({ anchor := name, tag := ← tagText? handles handle suffix }, ts)
  | .tag handle suffix :: .anchor name :: ts => do
    return ({ anchor := name, tag := ← tagText? handles handle suffix }, ts)
  | .anchor name :: ts => some ({ anchor := name }, ts)
  | .tag handle suffix :: ts => do return ({ tag := ← tagText? handles handle suffix }, ts)
  | ts => some ({}, ts)

/-- A scalar with the tag `!` alone counts as untagged. -/
def Properties.ofScalar (p : Properties String) : Properties String :=
  if p.tag = some "!" then { p with tag := none } else p

mutual

/-- Reads a node. A node that has only properties is an empty scalar. -/
def node? (handles : Entries String) (place : Place) :
    Nat → List Token → Option (Parsed (Node String))
  | 0, _ => none
  | _ + 1, .reference name :: ts => some (.reference name, ts)
  | fuel + 1, ts => do
    let (p, ts) ← properties? handles ts
    let bare : Option (Parsed (Node String)) :=
      if p = {} then none else some (.scalar p "" .plain, ts)
    match ts with
    | .scalar text style :: ts => return (.scalar p.ofScalar text style, ts)
    | .flowSequenceStart :: ts =>
      let (items, ts) ← flowItems? handles true fuel ts
      return (.sequence p items, ts)
    | .flowMappingStart :: ts =>
      let (entries, ts) ← flowEntries? handles true fuel ts
      return (.mapping p entries, ts)
    | .blockEntry :: _ =>
      if place = .entry then
        let (items, ts) ← looseItems? handles fuel ts
        return (.sequence p items, ts)
      else bare
    | .blockSequenceStart :: rest =>
      if place = .flow then bare
      else
        let (items, ts) ← blockItems? handles fuel rest
        return (.sequence p items, ts)
    | .blockMappingStart :: rest =>
      if place = .flow then bare
      else
        let (entries, ts) ← blockEntries? handles fuel rest
        return (.mapping p entries, ts)
    | _ => bare

def nodeUnless? (handles : Entries String) (place : Place) (ends : List Token) :
    Nat → List Token → Option (Parsed (Node String))
  | 0, _ => none
  | fuel + 1, ts =>
    if ts.head?.any (· ∈ ends) then some (.empty, ts) else node? handles place fuel ts

def blockItems? (handles : Entries String) :
    Nat → List Token → Option (Parsed (List (Node String)))
  | fuel + 1, .blockEntry :: ts => do
    let (n, ts) ← nodeUnless? handles .item [.blockEntry, .blockEnd] fuel ts
    let (ns, ts) ← blockItems? handles fuel ts
    return (n :: ns, ts)
  | _ + 1, .blockEnd :: ts => some ([], ts)
  | _, _ => none

/-- Reads the items of a sequence that has no indentation of its own. -/
def looseItems? (handles : Entries String) :
    Nat → List Token → Option (Parsed (List (Node String)))
  | fuel + 1, .blockEntry :: ts => do
    let (n, ts) ← nodeUnless? handles .item [.blockEntry, .key, .value, .blockEnd] fuel ts
    let (ns, ts) ← looseItems? handles fuel ts
    return (n :: ns, ts)
  | _ + 1, ts => some ([], ts)
  | 0, _ => none

def blockEntries? (handles : Entries String) :
    Nat → List Token → Option (Parsed (List (Node String × Node String)))
  | fuel + 1, .key :: ts => do
    let (k, ts) ← nodeUnless? handles .entry [.key, .value, .blockEnd] fuel ts
    let (v, ts) ← blockValue? handles fuel ts
    let (es, ts) ← blockEntries? handles fuel ts
    return ((k, v) :: es, ts)
  | _ + 1, .blockEnd :: ts => some ([], ts)
  | _, _ => none

def blockValue? (handles : Entries String) :
    Nat → List Token → Option (Parsed (Node String))
  | fuel + 1, .value :: ts => nodeUnless? handles .entry [.key, .value, .blockEnd] fuel ts
  | _ + 1, ts => some (.empty, ts)
  | 0, _ => none

/-- Reads the items of a flow sequence to its end. A key makes a mapping of one entry. -/
def flowItems? (handles : Entries String) (first : Bool) :
    Nat → List Token → Option (Parsed (List (Node String)))
  | 0, _ => none
  | _ + 1, .flowSequenceEnd :: ts => some ([], ts)
  | fuel + 1, ts => do
    let ts ← match first, ts with
      | true, ts => some ts
      | false, .flowEntry :: ts => some ts
      | false, _ => none
    match ts with
    | .flowSequenceEnd :: ts => return ([], ts)
    | .key :: ts =>
      let (k, ts) ← flowItemKey? handles fuel ts
      let (v, ts) ← flowValue? handles [.flowEntry, .flowSequenceEnd] fuel ts
      let (ns, ts) ← flowItems? handles false fuel ts
      return (.mapping {} [(k, v)] :: ns, ts)
    | ts =>
      let (n, ts) ← node? handles .flow fuel ts
      let (ns, ts) ← flowItems? handles false fuel ts
      return (n :: ns, ts)

/-- Reads the key of an entry in a flow sequence. Where none stands, the token in its place is
dropped. -/
def flowItemKey? (handles : Entries String) :
    Nat → List Token → Option (Parsed (Node String))
  | 0, _ => none
  | fuel + 1, ts =>
    match ts with
    | .value :: ts => some (.empty, ts)
    | .flowEntry :: ts => some (.empty, ts)
    | .flowSequenceEnd :: ts => some (.empty, ts)
    | ts => node? handles .flow fuel ts

def flowValue? (handles : Entries String) (ends : List Token) :
    Nat → List Token → Option (Parsed (Node String))
  | fuel + 1, .value :: ts => nodeUnless? handles .flow ends fuel ts
  | _ + 1, ts => some (.empty, ts)
  | 0, _ => none

/-- Reads the entries of a flow mapping to its end. A node without a key mark is a key alone. -/
def flowEntries? (handles : Entries String) (first : Bool) :
    Nat → List Token → Option (Parsed (List (Node String × Node String)))
  | 0, _ => none
  | _ + 1, .flowMappingEnd :: ts => some ([], ts)
  | fuel + 1, ts => do
    let ts ← match first, ts with
      | true, ts => some ts
      | false, .flowEntry :: ts => some ts
      | false, _ => none
    match ts with
    | .flowMappingEnd :: ts => return ([], ts)
    | .key :: ts =>
      let (k, ts) ← nodeUnless? handles .flow [.value, .flowEntry, .flowMappingEnd] fuel ts
      let (v, ts) ← flowValue? handles [.flowEntry, .flowMappingEnd] fuel ts
      let (es, ts) ← flowEntries? handles false fuel ts
      return ((k, v) :: es, ts)
    | ts =>
      let (k, ts) ← node? handles .flow fuel ts
      let (es, ts) ← flowEntries? handles false fuel ts
      return ((k, .empty) :: es, ts)

end

/-- The directives in front of a document: whether a version was given, and the leads of the
handles. -/
structure Directives where
  version : Bool := false
  handles : Entries String := []

def defaultHandles : Entries String := [("!", "!"), ("!!", "tag:yaml.org,2002:")]

def Directives.inForce (d : Directives) : Entries String :=
  defaultHandles.foldl (fun es h => Entries.insertIfAbsent es h.1 h.2) d.handles

/-- Reads the directives: one version, which is 1.1 or 1.2, and each handle once. -/
def directives? (d : Directives) : List Token → Option (Parsed Directives)
  | .versionDirective major minor :: ts =>
    if d.version || major ≠ 1 || (minor ≠ 1 && minor ≠ 2) then none
    else directives? { d with version := true } ts
  | .tagDirective handle lead :: ts =>
    if Entries.contains d.handles handle then none
    else directives? { d with handles := Entries.insert d.handles handle lead } ts
  | ts => some (d, ts)

def endsContent : List Token → Bool
  | [] => true
  | .versionDirective .. :: _ => true
  | .tagDirective .. :: _ => true
  | .documentStart :: _ => true
  | .documentEnd :: _ => true
  | _ => false

/-- Fuel that the nodes of a document never use up: every third step consumes a token. -/
def documentFuel (ts : List Token) : Nat := 3 * ts.length + 3

/-- Reads a document. Only one with directives or content before it needs a start mark. -/
def documentFrom? (ts : List Token) : Option (Parsed (Node String)) := do
  let (d, rest) ← directives? {} ts
  match rest with
  | .documentStart :: body =>
    if endsContent body then return (.empty, body)
    else node? d.inForce .item (documentFuel body) body
  | _ =>
    if d.version || !d.handles.isEmpty then none
    else node? d.inForce .item (documentFuel ts) ts

def document? (ts : List Token) : Option (Option (Node String)) :=
  if ts.isEmpty then some none
  else do
    let (n, rest) ← documentFrom? ts
    if (rest.dropWhile (· = .documentEnd)).isEmpty then return some n else none

end Phrasebook.Yaml
