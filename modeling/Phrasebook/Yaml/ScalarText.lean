import Phrasebook.Number.Based
import Phrasebook.Yaml.Cursor

namespace Phrasebook.Yaml

/-- The white space between two runs of a scalar: spaces on one line, or line breaks of which the
first one is told apart. An escaped break counts as broken without a first break. -/
structure Gap where
  spaces : List Char := []
  broken : Bool := false
  first : Option Char := none
  others : List Char := []
  deriving Repr

namespace Gap

/-- What the gap contributes: a single line break folds into a space. -/
def text (g : Gap) : List Char :=
  if !g.broken then g.spaces
  else if g.first == some '\n' then (if g.others.isEmpty then [' '] else g.others)
  else g.first.toList ++ g.others

/-- Reads on while there is white space. A tab before the column `limit` of a later line is
refused. -/
def extend? (limit : Nat) : Nat → Gap → Cursor → Option (Gap × Cursor)
  | 0, g, c => some (g, c)
  | fuel + 1, g, c =>
    match c.rest with
    | [] => some (g, c)
    | x :: _ =>
      if isSpace x then
        if !g.broken then extend? limit fuel { g with spaces := g.spaces ++ [x] } (c.skip 1)
        else if x == '\t' && c.column < limit then none
        else extend? limit fuel g (c.skip 1)
      else
        match c.takeBreak? with
        | none => some (g, c)
        | some (b, next) =>
          if g.broken then extend? limit fuel { g with others := g.others ++ [b] } next
          else extend? limit fuel { g with broken := true, first := some b } next

end Gap

def flowIndicators : List Char := [',', '[', ']', '{', '}']

/-- The length of the run of a plain scalar that holds no white space. In a flow collection a
colon right before an indicator is refused. -/
def plainRun? (flow : Bool) : List Char → Option Nat
  | [] => some 0
  | c :: cs =>
    if isSeparator (some c) then some 0
    else if flow && c == ':' && cs.head?.any (fun d => d == '?' || d ∈ flowIndicators) then none
    else if c == ':' && isSeparator cs.head? then some 0
    else if flow && c ∈ flowIndicators then some 0
    else (plainRun? flow cs).map (· + 1)

/-- A scalar that has been read, and whether a line break was passed behind it. -/
structure Scanned where
  text : List Char
  broken : Bool := false
  cursor : Cursor
  deriving Repr

/-- Reads a plain scalar on from a place where a run may begin. Its later lines are indented to at
least the column `limit` outside of flow collections. -/
def plainFrom? (flow : Bool) (limit : Nat) : Nat → List Char → Gap → Cursor → Option Scanned
  | 0, text, gap, c => some { text, broken := gap.broken, cursor := c }
  | fuel + 1, text, gap, c =>
    if c.atDocumentMark || c.sees '#' then some { text, broken := gap.broken, cursor := c }
    else do
      let n ← plainRun? flow c.rest
      if n = 0 then return { text, broken := gap.broken, cursor := c }
      let text := text ++ gap.text ++ c.rest.take n
      let (gap, next) ← Gap.extend? limit c.rest.length {} (c.skip n)
      if !flow && gap.broken && next.column < limit then
        return { text, broken := true, cursor := next }
      else plainFrom? flow limit fuel text gap next

def plain? (flow : Bool) (limit : Nat) (c : Cursor) : Option Scanned :=
  plainFrom? flow limit (c.rest.length + 1) [] {} c

def charOfCode? (n : Nat) : Option Char :=
  if n.isValidChar then some (Char.ofNat n) else none

def escapes : List (Char × Char) :=
  [('0', '\x00'), ('a', '\x07'), ('b', '\x08'), ('t', '\t'), ('\t', '\t'), ('n', '\n'),
   ('v', '\x0b'), ('f', '\x0c'), ('r', '\r'), ('e', '\x1b'), (' ', ' '), ('"', '"'), ('/', '/'),
   ('\\', '\\'), ('N', '\u0085'), ('_', '\u00a0'), ('L', '\u2028'), ('P', '\u2029')]

/-- A run of a quoted scalar: its text, its length in the source, and whether it stopped at a
backslash before a line break. -/
structure QuotedRun where
  text : List Char := []
  length : Nat := 0
  escapedBreak : Bool := false
  deriving Repr

def QuotedRun.prepend (c : Char) (n : Nat) (r : QuotedRun) : QuotedRun :=
  { r with text := c :: r.text, length := r.length + n }

def singleRun : List Char → QuotedRun
  | [] => {}
  | '\'' :: '\'' :: cs => (singleRun cs).prepend '\'' 2
  | c :: cs => if c == '\'' || isSeparator (some c) then {} else (singleRun cs).prepend c 1

def doubleRun? : List Char → Option QuotedRun
  | [] => some {}
  | '\\' :: 'x' :: a :: b :: cs => do
    let c ← (natural? 16 [a, b]).bind charOfCode?
    return (← doubleRun? cs).prepend c 4
  | '\\' :: 'u' :: a :: b :: d :: e :: cs => do
    let c ← (natural? 16 [a, b, d, e]).bind charOfCode?
    return (← doubleRun? cs).prepend c 6
  | '\\' :: 'U' :: a :: b :: d :: e :: f :: g :: h :: i :: cs => do
    let c ← (natural? 16 [a, b, d, e, f, g, h, i]).bind charOfCode?
    return (← doubleRun? cs).prepend c 10
  | '\\' :: c :: cs =>
    if isBreak c then some { escapedBreak := true }
    else do
      let value ← escapes.lookup c
      return (← doubleRun? cs).prepend value 2
  | c :: cs =>
    if c == '\\' then none
    else if c == '"' || isSeparator (some c) then some {}
    else (doubleRun? cs).map (·.prepend c 1)

def quotedRun? (quote : Char) (cs : List Char) : Option QuotedRun :=
  if quote == '\'' then some (singleRun cs) else doubleRun? cs

def quotedFrom? (quote : Char) : Nat → List Char → Cursor → Option Scanned
  | 0, _, _ => none
  | fuel + 1, text, c =>
    if c.atDocumentMark || c.rest.isEmpty then none
    else do
      let run ← quotedRun? quote c.rest
      let text := text ++ run.text
      let c := c.skip run.length
      let c := if run.escapedBreak then (c.skip 1).skipBreak else c
      if c.sees quote then return { text, cursor := c.skip 1 }
      let (gap, c) ← Gap.extend? 0 c.rest.length { broken := run.escapedBreak } c
      quotedFrom? quote fuel (text ++ gap.text) c

def quoted? (quote : Char) (c : Cursor) : Option Scanned :=
  quotedFrom? quote (c.rest.length + 1) [] (c.skip 1)

/-- What becomes of the line breaks at the end of a block scalar. -/
inductive Chomping
  | strip
  | clip
  | keep
  deriving DecidableEq, Repr

def chomping? : Option Char → Option Chomping
  | some '+' => some .keep
  | some '-' => some .strip
  | _ => none

def increment? (c : Cursor) : Option (Nat × Cursor) :=
  match c.rest with
  | x :: _ =>
    if x == '0' then none
    else if x.isDigit then some (x.toNat - '0'.toNat, c.skip 1)
    else some (0, c)
  | [] => some (0, c)

/-- Reads the indicators behind `|` or `>`, in either order. An increment of zero stands for
none. -/
def blockHeader? (c : Cursor) : Option (Chomping × Nat × Cursor) :=
  match chomping? c.head? with
  | some chomping => do
    let (n, c) ← increment? (c.skip 1)
    return (chomping, n, c)
  | none => do
    let (n, c) ← increment? c
    match if n = 0 then none else chomping? c.head? with
    | some chomping => return (chomping, n, c.skip 1)
    | none => return (.clip, n, c)

/-- Skips indentation and empty lines in front of a line of a block scalar, keeping their breaks.
While the indentation is unknown it is zero, and the deepest one seen is returned. -/
def blockBreaks? (indent : Nat) : Nat → Nat → List Char → Cursor → Option (Nat × List Char × Cursor)
  | 0, deepest, breaks, c => some (deepest, breaks, c)
  | fuel + 1, deepest, breaks, c =>
    let spaces := (c.rest.takeWhile (· == ' ')).length
    let c := c.skip (if indent = 0 then spaces else min spaces (indent - c.column))
    let deepest := max deepest c.column
    if (indent == 0 || c.column < indent) && c.sees '\t' then none
    else
      match c.takeBreak? with
      | some (b, next) => blockBreaks? indent fuel deepest (breaks ++ [b]) next
      | none => some (deepest, breaks, c)

/-- The text of a block scalar so far: the break behind its last line, the breaks of the empty
lines after it, and whether that line began with white space. -/
structure BlockText where
  text : List Char := []
  first : List Char := []
  others : List Char := []
  indented : Bool := false
  deriving Repr

/-- Adds a line. Folding joins it to the line before unless one of them begins with white space. -/
def BlockText.addLine (folded : Bool) (b : BlockText) (line : List Char) : BlockText :=
  let indented := line.head?.any isSpace
  let joined :=
    if folded && b.first == ['\n'] && !b.indented && !indented then
      (if b.others.isEmpty then [' '] else [])
    else b.first
  { text := b.text ++ joined ++ b.others ++ line, indented }

def BlockText.finish (chomping : Chomping) (b : BlockText) : List Char :=
  match chomping with
  | .strip => b.text
  | .clip => b.text ++ b.first
  | .keep => b.text ++ b.first ++ b.others

def blockLines? (folded : Bool) (indent : Nat) : Nat → BlockText → Cursor →
    Option (BlockText × Cursor)
  | 0, b, c => some (b, c)
  | fuel + 1, b, c =>
    if c.column ≠ indent || c.rest.isEmpty then some (b, c)
    else do
      let line := c.rest.takeWhile (!isBreak ·)
      let c := c.skip line.length
      let (first, c) := match c.takeBreak? with
        | some (x, next) => ([x], next)
        | none => ([], c)
      let (_, others, c) ← blockBreaks? indent (c.rest.length + 1) 0 [] c
      blockLines? folded indent fuel { b.addLine folded line with first, others } c

/-- Reads a block scalar in a block whose indentation is `parent`, which is -1 outside of all
blocks. -/
def block? (folded : Bool) (parent : Int) (c : Cursor) : Option Scanned := do
  let (chomping, increment, c) ← blockHeader? (c.skip 1)
  let c ← c.finishLine?
  let given := if increment = 0 then 0 else (max parent 0).toNat + increment
  let (deepest, others, c) ← blockBreaks? given (c.rest.length + 1) 0 [] c
  let indent := if given = 0 then max deepest (max (parent + 1).toNat 1) else given
  let (b, c) ← blockLines? folded indent (c.rest.length + 1) { others } c
  return { text := b.finish chomping, cursor := c }

end Phrasebook.Yaml
