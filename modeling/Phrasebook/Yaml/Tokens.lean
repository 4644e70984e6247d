import Phrasebook.Yaml.Property

/-!
The tokens of a document. Indentation opens and closes blocks, and a key that no indicator marks
is recognised by the colon behind it: until then its place is remembered.
-/
namespace Phrasebook.Yaml

/-- A place where an unmarked key may have begun. A required one is the first on a line of its
block, so that nothing else could stand there. -/
structure KeyPlace where
  required : Bool
  tokens : Nat
  index : Nat
  line : Nat
  column : Nat
  deriving Repr

def maxKeyLength : Nat := 1024

structure Scanner where
  cursor : Cursor
  /-- The tokens so far, the last one first. -/
  tokens : List Token := []
  /-- Possible keys, one for each open flow collection and one for the block around them. -/
  keys : List (Option KeyPlace) := [none]
  keyAllowed : Bool := true
  /-- The column of the innermost open block, and those of the blocks around it. -/
  indent : Int := -1
  indents : List Int := []
  deriving Repr

namespace Scanner

def flow (s : Scanner) : Bool := 1 < s.keys.length

def emit (s : Scanner) (t : Token) : Scanner := { s with tokens := t :: s.tokens }

def emitAt (s : Scanner) (n : Nat) (t : Token) : Scanner :=
  let later := s.tokens.length - n
  { s with tokens := s.tokens.take later ++ t :: s.tokens.drop later }

def emitMark (s : Scanner) (n : Nat) (t : Token) : Scanner :=
  { s.emit t with cursor := s.cursor.skip n }

def allow (s : Scanner) (allowed : Bool) : Scanner := { s with keyAllowed := allowed }

def closeBlocks (column : Int) : List Int → Scanner → Scanner
  | [], s => s
  | outer :: indents, s =>
    if column < s.indent then
      closeBlocks column indents { s.emit .blockEnd with indent := outer, indents }
    else s

def unroll (s : Scanner) (column : Int) : Scanner :=
  if s.flow then s else closeBlocks column s.indents s

/-- Opens a block at a column, unless one is open there or a flow collection surrounds it. The
token goes in front of all but the first `n` tokens. -/
def roll (s : Scanner) (column n : Nat) (t : Token) : Scanner :=
  if s.flow || (column : Int) ≤ s.indent then s
  else { s.emitAt n t with indent := column, indents := s.indent :: s.indents }

def dropKey? (s : Scanner) : Option Scanner :=
  match s.keys with
  | some k :: keys => if k.required then none else some { s with keys := none :: keys }
  | _ => some s

def saveKey? (s : Scanner) : Option Scanner :=
  if !s.keyAllowed then some s
  else do
    let s ← s.dropKey?
    let place : KeyPlace :=
      { required := !s.flow && s.indent == (s.cursor.column : Int), tokens := s.tokens.length,
        index := s.cursor.index, line := s.cursor.line, column := s.cursor.column }
    return { s with keys := some place :: s.keys.tail }

def isFresh (s : Scanner) (k : KeyPlace) : Bool :=
  k.line == s.cursor.line && s.cursor.index ≤ k.index + maxKeyLength

def dropStaleKeys? (s : Scanner) : Option Scanner := do
  let keys ← s.keys.mapM fun key =>
    match key with
    | none => some none
    | some k => if s.isFresh k then some (some k) else if k.required then none else some none
  return { s with keys }

/-- Steps over white space, comments and line breaks. Tabs count as white space only where no key
may begin. A byte order mark that starts the text is stepped over too, as a column of its line. -/
def skipBlanks : Nat → Scanner → Scanner
  | 0, s => s
  | fuel + 1, s =>
    let c := if s.cursor.index == 0 && s.cursor.sees '\ufeff' then s.cursor.skip 1 else s.cursor
    let tabs := s.flow || !s.keyAllowed
    let c := c.skipWhile fun x => x == ' ' || (tabs && x == '\t')
    let c := if c.sees '#' then c.skipWhile (!isBreak ·) else c
    match c.takeBreak? with
    | some (_, next) =>
      skipBlanks fuel { s with cursor := next, keyAllowed := s.keyAllowed || !s.flow }
    | none => { s with cursor := c }

/-- Opens a flow collection, which may itself be a key. -/
def openFlow? (s : Scanner) (t : Token) : Option Scanner := do
  let s ← s.saveKey?
  return ({ s with keys := none :: s.keys }.allow true).emitMark 1 t

def closeFlow? (s : Scanner) (t : Token) : Option Scanner := do
  let s ← s.dropKey?
  let keys := if s.flow then s.keys.tail else s.keys
  return ({ s with keys }.allow false).emitMark 1 t

def flowEntry? (s : Scanner) : Option Scanner := do
  let s ← s.dropKey?
  return (s.allow true).emitMark 1 .flowEntry

def openBlock? (s : Scanner) (t : Token) : Option Scanner :=
  if s.flow then some s
  else if s.keyAllowed then some (s.roll s.cursor.column s.tokens.length t)
  else none

def blockEntry? (s : Scanner) : Option Scanner := do
  let s ← s.openBlock? .blockSequenceStart
  let s ← s.dropKey?
  return (s.allow true).emitMark 1 .blockEntry

def key? (s : Scanner) : Option Scanner := do
  let s ← s.openBlock? .blockMappingStart
  let s ← s.dropKey?
  return (s.allow !s.flow).emitMark 1 .key

/-- A colon: it makes the possible key a key, or stands alone. -/
def value? (s : Scanner) : Option Scanner :=
  match s.keys with
  | some k :: keys =>
    let s := { s with keys := none :: keys }.emitAt k.tokens .key
    some (((s.roll k.column k.tokens .blockMappingStart).allow false).emitMark 1 .value)
  | _ => do
    let s ← s.openBlock? .blockMappingStart
    return (s.allow !s.flow).emitMark 1 .value

def endBlocks? (s : Scanner) : Option Scanner := do
  let s ← (s.unroll (-1)).dropKey?
  return s.allow false

def property? (s : Scanner) (read : Cursor → Option Read) : Option Scanner := do
  let s ← s.saveKey?
  let (t, c) ← read s.cursor
  return { (s.emit t).allow false with cursor := c }

def scalar? (s : Scanner) (style : ScalarStyle) (scanned : Scanned) : Scanner :=
  { s.emit (.scalar (String.ofList scanned.text) style) with cursor := scanned.cursor }

def quoted? (s : Scanner) (quote : Char) (style : ScalarStyle) : Option Scanner := do
  let s ← s.saveKey?
  return (s.scalar? style (← Yaml.quoted? quote s.cursor)).allow false

def block? (s : Scanner) (folded : Bool) : Option Scanner := do
  let s ← s.dropKey?
  return (s.scalar? .block (← Yaml.block? folded s.indent s.cursor)).allow true

def plain? (s : Scanner) : Option Scanner := do
  let s ← s.saveKey?
  let scanned ← Yaml.plain? s.flow (s.indent + 1).toNat s.cursor
  return (s.scalar? .plain scanned).allow scanned.broken

def indicators : List Char :=
  ['-', '?', ':', ',', '[', ']', '{', '}', '#', '&', '*', '!', '|', '>', '\'', '"', '%', '@', '`']

def startsPlain (s : Scanner) (x : Char) (next : Option Char) : Bool :=
  !(isSeparator (some x) || x ∈ indicators) ||
    (x == '-' && !next.any isSpace) ||
    (!s.flow && (x == '?' || x == ':') && !isSeparator next)

def dispatch? (s : Scanner) (x : Char) : Option Scanner :=
  let next := s.cursor.rest[1]?
  let anchor (make : String → Token) (c : Cursor) : Option Read :=
    (anchorName? (c.skip 1)).map fun r => (make r.1, r.2)
  if s.cursor.column == 0 && x == '%' then do
    let s ← s.endBlocks?
    let (t, c) ← directive? s.cursor
    return { s.emit t with cursor := c }
  else if s.cursor.atMark '-' then s.endBlocks?.map (·.emitMark 3 .documentStart)
  else if s.cursor.atMark '.' then s.endBlocks?.map (·.emitMark 3 .documentEnd)
  else if x == '[' then s.openFlow? .flowSequenceStart
  else if x == '{' then s.openFlow? .flowMappingStart
  else if x == ']' then s.closeFlow? .flowSequenceEnd
  else if x == '}' then s.closeFlow? .flowMappingEnd
  else if x == ',' then s.flowEntry?
  else if x == '-' && isSeparator next then s.blockEntry?
  else if x == '?' && (s.flow || isSeparator next) then s.key?
  else if x == ':' && (s.flow || isSeparator next) then s.value?
  else if x == '*' then s.property? (anchor .reference)
  else if x == '&' then s.property? (anchor .anchor)
  else if x == '!' then s.property? (tag? s.flow)
  else if x == '|' && !s.flow then s.block? false
  else if x == '>' && !s.flow then s.block? true
  else if x == '\'' then s.quoted? '\'' .single
  else if x == '"' then s.quoted? '"' .double
  else if s.startsPlain x next then s.plain?
  else none

def finish? (s : Scanner) : Option (List Token) := do
  let s ← s.endBlocks?
  return s.tokens.reverse

def run? : Nat → Scanner → Option (List Token)
  | 0, _ => none
  | fuel + 1, s => do
    let s ← (skipBlanks (s.cursor.rest.length + 1) s).dropStaleKeys?
    let s := s.unroll s.cursor.column
    match s.cursor.rest with
    | [] => s.finish?
    | x :: _ => run? fuel (← s.dispatch? x)

end Scanner

def tokens? (text : List Char) : Option (List Token) :=
  if text.all isPrintable then Scanner.run? (text.length + 1) { cursor := { rest := text } }
  else none

end Phrasebook.Yaml
