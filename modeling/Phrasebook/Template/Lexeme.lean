import Phrasebook.Template.Token
import Phrasebook.Text.Blank

namespace Phrasebook

def dashedOperators : List String := ["b-and", "b-xor", "b-or"]

/-- Symbol operators, the longest first. -/
def symbolOperators : List String :=
  ["==", "!=", "<=", ">=", "..", "//", "**", "??", "+", "-", "*", "/", "%", "~", "<", ">"]

def punctuationMarks : List Char := ['(', ')', '[', ']', '{', '}', '?', ':', '.', ',', '|', '=']

def isAscii (c : Char) : Bool := c.toNat < 128

def isNameStart (c : Char) : Bool := c.isAlpha || c == '_' || !isAscii c

def isNameChar (c : Char) : Bool := c.isAlphanum || c == '_' || !isAscii c

def fractionText : List Char → List Char
  | '.' :: c :: cs => if c.isDigit then '.' :: c :: cs.takeWhile Char.isDigit else []
  | _ => []

def signedDigits : List Char → List Char
  | [] => []
  | c :: cs =>
    if c = '+' ∨ c = '-' then
      let digits := cs.takeWhile Char.isDigit
      if digits.isEmpty then [] else c :: digits
    else (c :: cs).takeWhile Char.isDigit

def exponentPart : List Char → List Char
  | [] => []
  | c :: cs =>
    if c = 'e' ∨ c = 'E' then
      let digits := signedDigits cs
      if digits.isEmpty then [] else c :: digits
    else []

/-- The longest number at the start of a text. -/
def numberText (cs : List Char) : List Char :=
  let whole := cs.takeWhile Char.isDigit
  let fraction := fractionText (cs.drop whole.length)
  whole ++ fraction ++ exponentPart (cs.drop (whole.length + fraction.length))

/-- The value of a number: an integer when it is all digits and fits, else a binary number. -/
def numberValue? (cs : List Char) : Option Scalar :=
  match readInt64? cs with
  | some n => some (.int n)
  | none => (Numeral.read? cs).map fun n => .float n.toBinary64

def unescape (c : Char) : List Char :=
  if c = 'n' then ['\n']
  else if c = 't' then ['\t']
  else if c = 'r' then ['\r']
  else if c = '\\' ∨ c = '\'' ∨ c = '"' then [c]
  else ['\\', c]

/-- A string without its opening quote: its value, its source text with the closing quote, and
what follows. -/
structure StringBody where
  value : List Char
  text : List Char
  rest : List Char
  deriving DecidableEq, Repr

def stringBody? (quote : Char) : List Char → Option StringBody
  | [] => none
  | '\\' :: [] => none
  | '\\' :: c :: cs =>
    (stringBody? quote cs).map fun b =>
      { value := unescape c ++ b.value, text := '\\' :: c :: b.text, rest := b.rest }
  | c :: cs =>
    if c = quote then some { value := [], text := [c], rest := cs }
    else (stringBody? quote cs).map fun b =>
      { value := c :: b.value, text := c :: b.text, rest := b.rest }

structure Lexeme where
  kind : TokenKind
  text : List Char
  rest : List Char
  deriving DecidableEq, Repr

inductive LexemeError
  | invalidNumber (text : List Char)
  | unclosedString
  | unexpected (c : Char)
  deriving DecidableEq, Repr

def Lexeme.take (kind : TokenKind) (n : Nat) (cs : List Char) : Lexeme :=
  { kind, text := cs.take n, rest := cs.drop n }

def dashedOperator? (cs : List Char) : Option String :=
  dashedOperators.find? fun op =>
    match afterStart? op cs with
    | some rest => !(rest.head?.any isNameChar)
    | none => false

def symbolOperator? (cs : List Char) : Option String := symbolOperators.find? (startsWith · cs)

/-- Reads one lexeme of a text given as its first character and the others. -/
def lexeme (c : Char) (cs : List Char) : Except LexemeError Lexeme :=
  if c.isDigit then
    let text := numberText (c :: cs)
    match numberValue? text with
    | some value => .ok (.take (.number value) text.length (c :: cs))
    | none => .error (.invalidNumber text)
  else if c = '\'' ∨ c = '"' then
    match stringBody? c cs with
    | some b => .ok { kind := .str (String.ofList b.value), text := c :: b.text, rest := b.rest }
    | none => .error .unclosedString
  else match dashedOperator? (c :: cs) with
  | some op => .ok (.take (.operator op) op.length (c :: cs))
  | none =>
    if isNameStart c then
      let tail := cs.takeWhile isNameChar
      .ok (.take (.name (String.ofList (c :: tail))) (tail.length + 1) (c :: cs))
    else match symbolOperator? (c :: cs) with
    | some op => .ok (.take (.operator op) op.length (c :: cs))
    | none =>
      if c ∈ punctuationMarks then .ok (.take (.punctuation c) 1 (c :: cs))
      else .error (.unexpected c)

theorem StringBody.rest_lt {quote : Char} {cs : List Char} {b : StringBody}
    (h : stringBody? quote cs = some b) : b.rest.length < cs.length := by
  fun_induction stringBody? quote cs generalizing b with
  | case1 => simp at h
  | case2 => simp at h
  | case3 c cs ih =>
    obtain ⟨b', hb, rfl⟩ := Option.map_eq_some_iff.1 h
    have := ih hb
    simp only [List.length_cons]
    omega
  | case4 =>
    cases h
    simp
  | case5 c cs _ _ _ ih =>
    obtain ⟨b', hb, rfl⟩ := Option.map_eq_some_iff.1 h
    have := ih hb
    simp only [List.length_cons]
    omega

theorem Lexeme.take_rest_lt {kind : TokenKind} {n : Nat} {c : Char} {cs : List Char} (h : 0 < n) :
    (Lexeme.take kind n (c :: cs)).rest.length < (c :: cs).length := by
  simp only [Lexeme.take, List.length_drop, List.length_cons]
  omega

theorem numberText_length_pos {c : Char} {cs : List Char} (h : c.isDigit = true) :
    0 < (numberText (c :: cs)).length := by
  simp [numberText, h]

theorem dashedOperator?_length_pos {cs : List Char} {op : String}
    (h : dashedOperator? cs = some op) : 0 < op.length := by
  have hm := List.mem_of_find?_eq_some h
  simp only [dashedOperators, List.mem_cons, List.not_mem_nil, or_false] at hm
  rcases hm with rfl | rfl | rfl <;> decide

theorem symbolOperator?_length_pos {cs : List Char} {op : String}
    (h : symbolOperator? cs = some op) : 0 < op.length := by
  have hall : ∀ s ∈ symbolOperators, 0 < s.length := by decide
  exact hall op (List.mem_of_find?_eq_some h)

theorem lexeme_rest_lt {c : Char} {cs : List Char} {l : Lexeme} (h : lexeme c cs = .ok l) :
    l.rest.length < (c :: cs).length := by
  unfold lexeme at h
  split at h
  next hd =>
    dsimp only at h
    split at h
    · cases h
      exact Lexeme.take_rest_lt (numberText_length_pos hd)
    · cases h
  next =>
    split at h
    · split at h
      next b hb =>
        cases h
        have := StringBody.rest_lt hb
        simp only [List.length_cons]
        omega
      · cases h
    · split at h
      next op hop =>
        cases h
        exact Lexeme.take_rest_lt (dashedOperator?_length_pos hop)
      · split at h
        · cases h
          exact Lexeme.take_rest_lt (Nat.succ_pos _)
        · split at h
          next op hop =>
            cases h
            exact Lexeme.take_rest_lt (symbolOperator?_length_pos hop)
          · split at h
            · cases h
              exact Lexeme.take_rest_lt Nat.one_pos
            · cases h

end Phrasebook
