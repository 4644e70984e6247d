import Phrasebook.Yaml.Cursor
import Phrasebook.Yaml.Plain

/-!
How a text is written as a scalar: plain where nothing in it could be taken for something else, as
an indented block when it has several lines, and between quotes otherwise.
-/
namespace Phrasebook.Yaml

def isWritable (c : Char) : Bool :=
  let n := c.toNat
  n == 0x0A || (0x20 ≤ n && n ≤ 0x7E) || (0xA0 ≤ n && n ≤ 0xD7FF) ||
    (0xE000 ≤ n && n ≤ 0xFFFD && n != 0xFEFF) || 0x10000 ≤ n

def endsWord (cs : List Char) : Bool := isSeparator cs.head?

def leadIndicators : List Char :=
  ['#', ',', '[', ']', '{', '}', '&', '*', '!', '|', '>', '\'', '"', '%', '@', '`']

def hasLeadIndicator : List Char → Bool
  | [] => false
  | c :: cs =>
    c ∈ leadIndicators || ((c == '-' || c == '?' || c == ':') && endsWord cs) ||
      [c, c, c].isPrefixOf (c :: cs) && (c == '-' || c == '.')

/-- Whether a text holds a colon before white space, or a number sign behind it. -/
def hasInnerIndicator : List Char → Bool
  | a :: b :: cs =>
    (b == ':' && endsWord cs) || (b == '#' && isSeparator (some a)) || hasInnerIndicator (b :: cs)
  | _ => false

/-- Whether a character with the first property stands right before one with the second. -/
def hasPair (p q : Char → Bool) : List Char → Bool
  | a :: b :: cs => (p a && q b) || hasPair p q (b :: cs)
  | _ => false

def isBlankSpace (c : Char) : Bool := c == ' '

def startsWithAny (p : Char → Bool) (cs : List Char) : Bool := cs.head?.any p

def endsWithAny (p : Char → Bool) (cs : List Char) : Bool := cs.getLast?.any p

def needsEscapes (cs : List Char) : Bool :=
  cs.any (!isWritable ·) || hasPair isBlankSpace isBreak cs

def mayBePlain (cs : List Char) : Bool :=
  !needsEscapes cs && !cs.any isBreak && !startsWithAny isBlankSpace cs &&
    !endsWithAny isBlankSpace cs && !hasLeadIndicator cs && !hasInnerIndicator cs

def mayBeSingle (cs : List Char) : Bool := !needsEscapes cs && !hasPair isBreak isBlankSpace cs

def mayBeBlock (cs : List Char) : Bool :=
  !cs.isEmpty && !needsEscapes cs && !endsWithAny isBlankSpace cs

def isAmbiguous (text : String) : Bool :=
  isZeroLed (takeSign text.toList).2 ||
    match plainData? text with
    | some (.string _) => false
    | _ => true

/-- The style of a text: a block if it has a line feed, plain if it cannot be misread. -/
def styleOf (text : String) : ScalarStyle :=
  let cs := text.toList
  if '\n' ∈ cs then (if mayBeBlock cs then .block else .double)
  else if !isAmbiguous text && mayBePlain cs then .plain
  else if mayBeSingle cs then .single
  else .double

def spaces (n : Nat) : List Char := List.replicate n ' '

/-- A text between single quotes. Line breaks in it are followed by indentation. -/
def singleBody (indent : Nat) (broken : Bool) : List Char → List Char
  | [] => if broken then spaces indent else []
  | c :: cs =>
    if isBreak c then c :: singleBody indent true cs
    else
      (if broken then spaces indent else []) ++ (if c == '\'' then ['\'', '\''] else [c]) ++
        singleBody indent false cs

def escapeLetters : List (Char × Char) :=
  [('\x00', '0'), ('\x07', 'a'), ('\x08', 'b'), ('\t', 't'), ('\n', 'n'), ('\x0b', 'v'),
   ('\x0c', 'f'), ('\r', 'r'), ('\x1b', 'e'), ('"', '"'), ('\\', '\\'), ('\u0085', 'N'),
   ('\u00a0', '_'), ('\u2028', 'L'), ('\u2029', 'P')]

def codeEscape (c : Char) : List Char :=
  let n := c.toNat
  if n ≤ 0xFF then 'x' :: upperHex 2 n
  else if n ≤ 0xFFFF then 'u' :: upperHex 4 n
  else 'U' :: upperHex 8 n

def doubleChar (c : Char) : List Char :=
  if !isWritable c || isBreak c || c == '"' || c == '\\' then
    match escapeLetters.lookup c with
    | some letter => ['\\', letter]
    | none => '\\' :: codeEscape c
  else [c]

def blockBody (indent : Nat) (broken : Bool) : List Char → List Char
  | [] => []
  | c :: cs =>
    if isBreak c then c :: blockBody indent true cs
    else (if broken then spaces indent else []) ++ c :: blockBody indent false cs

/-- The indicators of a block: the indentation where the text hides it, and what becomes of the
line breaks at its end. -/
def blockHints (cs : List Char) : List Char :=
  let lead := if cs.head?.any (fun c => c == ' ' || isBreak c) then ['2'] else []
  let chomping := match cs.reverse with
    | [] => ['-']
    | [c] => if isBreak c then ['+'] else ['-']
    | c :: d :: _ => if !isBreak c then ['-'] else if isBreak d then ['+'] else []
  lead ++ chomping

def scalarText (indent : Nat) (text : String) : List Char :=
  let cs := text.toList
  match styleOf text with
  | .plain => cs
  | .single => '\'' :: singleBody indent false cs ++ ['\'']
  | .double => '"' :: cs.flatMap doubleChar ++ ['"']
  | .block => '|' :: blockHints cs ++ '\n' :: blockBody indent true cs

end Phrasebook.Yaml
