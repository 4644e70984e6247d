import Phrasebook.Json.Value

namespace Phrasebook.JsonValue

def isJsonBlank (c : Char) : Bool := c == ' ' || c == '\n' || c == '\t' || c == '\r'

def skipBlanks (cs : List Char) : List Char := cs.dropWhile isJsonBlank

def letters : List (Char × Char) := ('/', '/') :: escapes.map fun e => (e.2, e.1)

/-- Reads the codes of a text up to its closing quote, each escape by itself. -/
def codes? : List Char → Option (List Nat × List Char)
  | [] => none
  | '\\' :: 'u' :: a :: b :: c :: d :: cs => do
    let n ← natural? 16 [a, b, c, d]
    let (ns, rest) ← codes? cs
    return (n :: ns, rest)
  | '\\' :: c :: cs => do
    let letter ← letters.lookup c
    let (ns, rest) ← codes? cs
    return (letter.toNat :: ns, rest)
  | c :: cs =>
    if c == '"' then some ([], cs)
    else if c == '\\' || c.toNat < 0x20 then none
    else (codes? cs).map fun r => (c.toNat :: r.1, r.2)

/-- The characters that codes stand for. Two halves of a pair are one character, and no half may
stand alone. -/
def charsOfCodes? : List Nat → Option (List Char)
  | [] => some []
  | a :: b :: ns =>
    if 0xD800 ≤ a && a ≤ 0xDBFF then
      if 0xDC00 ≤ b && b ≤ 0xDFFF then
        (charsOfCodes? ns).map (Char.ofNat (0x10000 + 0x400 * (a - 0xD800) + (b - 0xDC00)) :: ·)
      else none
    else if a.isValidChar then (charsOfCodes? (b :: ns)).map (Char.ofNat a :: ·)
    else none
  | [a] => if a.isValidChar then some [Char.ofNat a] else none

def takeText? (cs : List Char) : Option (Option String × List Char) :=
  (codes? cs).map fun r => ((charsOfCodes? r.1).map String.ofList, r.2)

def takeDigits (cs : List Char) : List Char × List Char :=
  (cs.takeWhile Char.isDigit, cs.dropWhile Char.isDigit)

def takeFraction? : List Char → Option (List Char × List Char)
  | '.' :: cs =>
    let (digits, rest) := takeDigits cs
    if digits.isEmpty then none else some ('.' :: digits, rest)
  | cs => some ([], cs)

def takeExponent? : List Char → Option (List Char × List Char)
  | c :: cs =>
    if c == 'e' || c == 'E' then
      let sign := cs.take 1 |>.filter fun d => d == '+' || d == '-'
      let (digits, rest) := takeDigits (cs.drop sign.length)
      if digits.isEmpty then none else some (c :: sign ++ digits, rest)
    else some ([], c :: cs)
  | [] => some ([], [])

/-- Reads a number. It does not begin with a needless zero. -/
def takeNumber? (cs : List Char) : Option (List Char × List Char) := do
  let sign := cs.take 1 |>.filter (· == '-')
  let (digits, rest) := takeDigits (cs.drop sign.length)
  if digits.isEmpty || (digits.head? == some '0' && 1 < digits.length) then none
  let (fraction, rest) ← takeFraction? rest
  let (exponent, rest) ← takeExponent? rest
  return (sign ++ digits ++ fraction ++ exponent, rest)

def words : List (List Char × JsonValue) :=
  [("null".toList, null), ("true".toList, bool true), ("false".toList, bool false)]

def takeWord? (cs : List Char) : Option (JsonValue × List Char) :=
  (words.find? fun w => w.1.isPrefixOf cs).map fun w => (w.2, cs.drop w.1.length)

mutual

def value? : Nat → List Char → Option (JsonValue × List Char)
  | 0, _ => none
  | fuel + 1, cs =>
    match skipBlanks cs with
    | '"' :: cs => (takeText? cs).map fun r => (.text r.1, r.2)
    | '[' :: cs =>
      match skipBlanks cs with
      | ']' :: rest => some (.array [], rest)
      | cs => (items? fuel cs).map fun r => (.array r.1, r.2)
    | '{' :: cs =>
      match skipBlanks cs with
      | '}' :: rest => some (.object [], rest)
      | cs => (members? fuel cs).map fun r => (.object r.1, r.2)
    | cs =>
      match takeWord? cs with
      | some r => some r
      | none => (takeNumber? cs).map fun r => (.number r.1, r.2)

/-- Reads the items of an array, at least one, past its bracket. -/
def items? : Nat → List Char → Option (List JsonValue × List Char)
  | 0, _ => none
  | fuel + 1, cs => do
    let (v, rest) ← value? fuel cs
    match skipBlanks rest with
    | ']' :: rest => return ([v], rest)
    | ',' :: rest =>
      let (vs, rest) ← items? fuel rest
      return (v :: vs, rest)
    | _ => none

def members? : Nat → List Char → Option (List (Option String × JsonValue) × List Char)
  | 0, _ => none
  | fuel + 1, cs => do
    let (key, rest) ← match skipBlanks cs with
      | '"' :: cs => takeText? cs
      | _ => none
    let (v, rest) ← match skipBlanks rest with
      | ':' :: cs => value? fuel cs
      | _ => none
    match skipBlanks rest with
    | '}' :: rest => return ([(key, v)], rest)
    | ',' :: rest =>
      let (ms, rest) ← members? fuel rest
      return ((key, v) :: ms, rest)
    | _ => none

end

/-- Reads a text as a value. Each step but one in two takes a character. -/
def read? (text : String) : Option JsonValue := do
  let (v, rest) ← value? (2 * text.length + 2) text.toList
  if (skipBlanks rest).isEmpty then return v else none

end Phrasebook.JsonValue
