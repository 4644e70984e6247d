import Phrasebook.Proofs.Key
import Phrasebook.Proofs.Text.Pattern
import Phrasebook.Template.Tokens

/-!
Spellings of tokens. A name, an integer, a string, an operator or a mark has texts from which it is
read back, as long as nothing follows that would make it a longer one. One of the texts is the
spelling; strings may be written with other escapes, and integers with zeros in front.
-/
namespace Phrasebook

/-- A name as it can stand in a tag. A blank outside of ASCII may continue a name, not begin it. -/
def isIdentifier : List Char → Bool
  | [] => false
  | c :: cs => isNameStart c && !isBlank c && cs.all isNameChar

def escaped : List Char → List Char
  | [] => []
  | c :: cs => if c = '\\' ∨ c = '\'' then '\\' :: c :: escaped cs else c :: escaped cs

def isPlainBlank (c : Char) : Bool := c ∈ [' ', '\t', '\n', '\x0b', '\x0c', '\r']

namespace TokenKind

def spelling : TokenKind → List Char
  | name n => n.toList
  | number value => value.display.toList
  | str s => '\'' :: (escaped s.toList ++ ['\''])
  | operator op => op.toList
  | punctuation c => [c]
  | _ => []

def isSpellable : TokenKind → Bool
  | name n => isIdentifier n.toList
  | number (.int n) => 0 ≤ n.toInt
  | str _ => true
  | operator op => op ∈ dashedOperators ++ symbolOperators
  | punctuation c => c ∈ punctuationMarks
  | _ => false

/-- Whether the spelling of the token can end in front of a text. -/
def endsAt : TokenKind → List Char → Bool
  | name _, rest => rest.head?.all fun c => !isNameChar c && c != '-'
  | number _, rest => rest.head?.all fun c => !isNameChar c && c != '.'
  | operator _, rest => rest.head?.any isPlainBlank
  | punctuation c, rest => c ∉ ['.', '?', '='] || rest.head?.any isPlainBlank
  | _, _ => true

end TokenKind

theorem isNameChar_of_isPlainBlank {c : Char} (h : isPlainBlank c = true) :
    isNameChar c = false := by
  simp only [isPlainBlank, List.mem_cons, List.not_mem_nil, or_false, decide_eq_true_eq] at h
  rcases h with rfl | rfl | rfl | rfl | rfl | rfl <;> decide

theorem isBlank_of_isPlainBlank {c : Char} (h : isPlainBlank c = true) : isBlank c = true := by
  simp only [isPlainBlank, List.mem_cons, List.not_mem_nil, or_false, decide_eq_true_eq] at h
  rcases h with rfl | rfl | rfl | rfl | rfl | rfl <;> decide

theorem TokenKind.endsAt_blank (k : TokenKind) {c : Char} (h : isPlainBlank c = true)
    (cs : List Char) : k.endsAt (c :: cs) = true := by
  have hn := isNameChar_of_isPlainBlank h
  have hd : (c != '-') = true ∧ (c != '.') = true := by
    simp only [isPlainBlank, List.mem_cons, List.not_mem_nil, or_false, decide_eq_true_eq] at h
    rcases h with rfl | rfl | rfl | rfl | rfl | rfl <;> decide
  cases k <;> simp [endsAt, h, hn, hd]

/-- What may stand between the quotes of a string, and the value that it stands for. -/
inductive Escapes : List Char → List Char → Prop
  | nil : Escapes [] []
  | plain {c : Char} {s v : List Char} (hb : c ≠ '\\') (hq : c ≠ '\'') (h : Escapes s v) :
    Escapes (c :: s) (c :: v)
  | escape (c : Char) {s v : List Char} (h : Escapes s v) :
    Escapes ('\\' :: c :: s) (unescape c ++ v)

inductive Spells : List Char → TokenKind → Prop
  | name {cs : List Char} (h : isIdentifier cs = true) : Spells cs (.name (String.ofList cs))
  | integer {cs : List Char} {n : Int64} (h : isDigits cs = true)
    (hn : (digitsValue cs : Int) = n.toInt) : Spells cs (.number (.int n))
  | str {s v : List Char} (h : Escapes s v) :
    Spells ('\'' :: (s ++ ['\''])) (.str (String.ofList v))
  | operator {op : String} (h : op ∈ dashedOperators ++ symbolOperators) :
    Spells op.toList (.operator op)
  | punctuation {c : Char} (h : c ∈ punctuationMarks) : Spells [c] (.punctuation c)

theorem escapes_escaped (v : List Char) : Escapes (escaped v) v := by
  induction v with
  | nil => exact .nil
  | cons c v ih =>
    rw [escaped]
    split
    · next h =>
      have hu : unescape c = [c] := by rcases h with rfl | rfl <;> rfl
      have he := Escapes.escape c ih
      rwa [hu] at he
    · next h =>
      rw [not_or] at h
      exact .plain h.1 h.2 ih

theorem TokenKind.spells_spelling {k : TokenKind} (h : k.isSpellable = true) :
    Spells k.spelling k := by
  cases k with
  | name n =>
    have hs := Spells.name h
    rwa [String.ofList_toList] at hs
  | number value =>
    cases value with
    | int n =>
      have hn : 0 ≤ n.toInt := of_decide_eq_true h
      rw [spelling, Scalar.display, toList_toString_int, if_pos hn, List.nil_append]
      apply Spells.integer (isDigits_toDigits _)
      rw [digitsValue_toDigits]
      omega
    | _ => cases h
  | str s =>
    have hs := Spells.str (escapes_escaped s.toList)
    rwa [String.ofList_toList] at hs
  | operator op => exact .operator (of_decide_eq_true h)
  | punctuation c => exact .punctuation (of_decide_eq_true h)
  | _ => cases h

theorem Escapes.stringBody? {s v : List Char} (h : Escapes s v) (rest : List Char) :
    stringBody? '\'' (s ++ '\'' :: rest) = some { value := v, text := s ++ ['\''], rest } := by
  induction h with
  | nil => rfl
  | plain hb hq h ih =>
    rw [List.cons_append, Phrasebook.stringBody?, if_neg hq, ih, Option.map_some]
    · rfl
    · intro he _
      exact hb he
    · intro _ _ he
      exact absurd he hb
  | escape c h ih =>
    rw [List.cons_append, List.cons_append, Phrasebook.stringBody?, ih, Option.map_some]
    rfl

theorem lexeme_str {s v : List Char} (h : Escapes s v) (rest : List Char) :
    lexeme '\'' (s ++ '\'' :: rest) = .ok
      { kind := .str (String.ofList v), text := '\'' :: (s ++ ['\'']), rest } := by
  have hd : ('\'').isDigit = false := rfl
  simp only [lexeme, hd, Bool.false_eq_true, if_false, true_or, if_true, h.stringBody?]

theorem isNameStart_of_isDigit {c : Char} (h : c.isDigit = true) : isNameStart c = false := by
  have hn : 48 ≤ c.toNat ∧ c.toNat ≤ 57 := by
    simpa [Char.isDigit, UInt32.le_iff_toNat_le] using h
  have hne : c ≠ '_' := by
    rintro rfl
    cases h
  have hupper : c.isUpper = false := by
    delta Char.isUpper
    simp [UInt32.le_iff_toNat_le]
    omega
  have hlower : c.isLower = false := by
    delta Char.isLower
    simp [UInt32.le_iff_toNat_le]
    omega
  have halpha : c.isAlpha = false := by
    delta Char.isAlpha
    rw [hupper, hlower]
    rfl
  simp [isNameStart, halpha, isAscii, hne]
  omega

theorem isBlank_of_isDigit {c : Char} (h : c.isDigit = true) : isBlank c = false := by
  have hn : 48 ≤ c.toNat ∧ c.toNat ≤ 57 := by
    simpa [Char.isDigit, UInt32.le_iff_toNat_le] using h
  simp [isBlank]
  omega

theorem isNameChar_of_isDigit {c : Char} (h : c.isDigit = true) : isNameChar c = true := by
  simp [isNameChar, Char.isAlphanum, h]

theorem dashedOperator?_eq_none (c : Char) {cs : List Char} (h : cs.head? ≠ some '-') :
    dashedOperator? (c :: cs) = none := by
  cases cs with
  | nil => simp [dashedOperator?, dashedOperators, afterStart?, startsWith]
  | cons d cs =>
    have hd : d ≠ '-' := fun he => h (congrArg some he)
    simp [dashedOperator?, dashedOperators, afterStart?, startsWith, Ne.symm hd]

theorem Lexeme.take_append (kind : TokenKind) (cs rest : List Char) :
    Lexeme.take kind cs.length (cs ++ rest) = { kind, text := cs, rest } := by
  simp [Lexeme.take]

theorem lexeme_name {c : Char} {cs rest : List Char} (hi : isIdentifier (c :: cs) = true)
    (hr : ∀ d, rest.head? = some d → isNameChar d = false ∧ d ≠ '-') :
    lexeme c (cs ++ rest) =
      .ok { kind := .name (String.ofList (c :: cs)), text := c :: cs, rest } := by
  simp only [isIdentifier, Bool.and_eq_true, List.all_eq_true] at hi
  obtain ⟨⟨hc, -⟩, hcs⟩ := hi
  have hdigit : c.isDigit = false := by
    by_contra hd
    rw [isNameStart_of_isDigit (Bool.not_eq_false _ ▸ hd)] at hc
    cases hc
  have hquote : ¬(c = '\'' ∨ c = '"') := by
    rintro (rfl | rfl) <;> cases hc
  have hdash : (cs ++ rest).head? ≠ some '-' := by
    intro he
    cases cs with
    | nil => exact (hr '-' he).2 rfl
    | cons d cs =>
      cases he
      cases hcs '-' List.mem_cons_self
  have htail : (cs ++ rest).takeWhile isNameChar = cs :=
    takeWhile_append_of_head hcs fun d hd => (hr d hd).1
  simp only [lexeme, hdigit, Bool.false_eq_true, if_false, if_neg hquote,
    dashedOperator?_eq_none c hdash, hc, if_true, htail]
  exact congrArg Except.ok (Lexeme.take_append _ (c :: cs) rest)

theorem numberText_digits {cs rest : List Char} (h : ∀ c ∈ cs, c.isDigit = true)
    (hr : ∀ d, rest.head? = some d → isNameChar d = false ∧ d ≠ '.') :
    numberText (cs ++ rest) = cs := by
  have hw : (cs ++ rest).takeWhile Char.isDigit = cs := by
    refine takeWhile_append_of_head h fun d hd => ?_
    by_contra hdigit
    have hn := isNameChar_of_isDigit (Bool.not_eq_false _ ▸ hdigit)
    rw [(hr d hd).1] at hn
    cases hn
  have hf : fractionText rest = [] := by
    rw [fractionText.eq_def]
    split
    · exact absurd rfl (hr '.' rfl).2
    · rfl
  have he : exponentPart rest = [] := by
    cases rest with
    | nil => rfl
    | cons d rest =>
      have hne : ¬(d = 'e' ∨ d = 'E') := by
        rintro (rfl | rfl) <;> cases (hr _ rfl).1
      rw [exponentPart, if_neg hne]
  simp [numberText, hw, hf, he]

theorem readInt64?_digits {cs : List Char} {n : Int64} (h : isDigits cs = true)
    (hn : (digitsValue cs : Int) = n.toInt) : readInt64? cs = some n := by
  have hd : ∀ c ∈ cs, c.isDigit = true := by
    rw [isDigits, Bool.and_eq_true, List.all_eq_true] at h
    exact h.2
  have hr : int64InRange n.toInt = true := by
    have hl := n.le_toInt
    have hu := n.toInt_lt
    exact int64InRange_iff.2 (by omega)
  rw [readInt64?, takeSign_digits hd]
  simp only [h, if_true, Bool.false_eq_true, if_false, hn, hr, Int64.ofInt_toInt]

theorem lexeme_integer {n : Int64} {c : Char} {cs rest : List Char}
    (h : isDigits (c :: cs) = true) (hn : (digitsValue (c :: cs) : Int) = n.toInt)
    (hr : ∀ d, rest.head? = some d → isNameChar d = false ∧ d ≠ '.') :
    lexeme c (cs ++ rest) = .ok { kind := .number (.int n), text := c :: cs, rest } := by
  have hds : ∀ d ∈ c :: cs, d.isDigit = true := by
    rw [isDigits, Bool.and_eq_true, List.all_eq_true] at h
    exact h.2
  have ht := numberText_digits hds hr
  rw [List.cons_append] at ht
  simp only [lexeme, hds c List.mem_cons_self, if_true, ht, numberValue?, readInt64?_digits h hn]
  exact congrArg Except.ok (Lexeme.take_append _ (c :: cs) rest)

theorem exists_of_any_isPlainBlank {rest : List Char} (h : rest.head?.any isPlainBlank = true) :
    ∃ b ∈ [' ', '\t', '\n', '\x0b', '\x0c', '\r'], ∃ cs, rest = b :: cs := by
  cases rest with
  | nil => cases h
  | cons b cs => exact ⟨b, of_decide_eq_true h, cs, rfl⟩

theorem lexeme_operator {op : String} {c : Char} {cs rest : List Char}
    (ho : op ∈ dashedOperators ++ symbolOperators) (hs : op.toList = c :: cs)
    (hr : rest.head?.any isPlainBlank = true) :
    lexeme c (cs ++ rest) = .ok { kind := .operator op, text := c :: cs, rest } := by
  obtain ⟨b, hb, rest, rfl⟩ := exists_of_any_isPlainBlank hr
  simp only [dashedOperators, symbolOperators, List.cons_append, List.nil_append, List.mem_cons,
    List.not_mem_nil, or_false] at ho hb
  rcases ho with rfl | rfl | rfl | rfl | rfl | rfl | rfl | rfl | rfl | rfl | rfl | rfl | rfl |
    rfl | rfl | rfl | rfl | rfl | rfl <;> cases hs <;>
    rcases hb with rfl | rfl | rfl | rfl | rfl | rfl <;> rfl

theorem lexeme_punctuation {c : Char} {rest : List Char} (hc : c ∈ punctuationMarks)
    (hr : c ∉ ['.', '?', '='] ∨ rest.head?.any isPlainBlank = true) :
    lexeme c rest = .ok { kind := .punctuation c, text := [c], rest } := by
  by_cases hm : c ∈ ['.', '?', '=']
  · obtain ⟨b, hb, rest, rfl⟩ := exists_of_any_isPlainBlank (hr.resolve_left (not_not_intro hm))
    simp only [List.mem_cons, List.not_mem_nil, or_false] at hm hb
    rcases hm with rfl | rfl | rfl <;> rcases hb with rfl | rfl | rfl | rfl | rfl | rfl <;> rfl
  · have hc : c ∈ ['(', ')', '[', ']', '{', '}', ':', ',', '|'] := by
      grind [punctuationMarks]
    simp only [List.mem_cons, List.not_mem_nil, or_false] at hc
    rcases hc with rfl | rfl | rfl | rfl | rfl | rfl | rfl | rfl | rfl <;> rfl

/-- A text of a token reads back as that token, and leaves what follows. -/
theorem Spells.lexeme {k : TokenKind} {c : Char} {cs rest : List Char} (h : Spells (c :: cs) k)
    (he : k.endsAt rest = true) :
    lexeme c (cs ++ rest) = .ok { kind := k, text := c :: cs, rest } := by
  generalize ht : c :: cs = text at h
  cases h with
  | name h =>
    subst ht
    exact lexeme_name h (by simpa [TokenKind.endsAt, Option.all_eq_true] using he)
  | integer h hn =>
    subst ht
    exact lexeme_integer h hn (by simpa [TokenKind.endsAt, Option.all_eq_true] using he)
  | str h =>
    cases ht
    rw [List.append_assoc]
    exact lexeme_str h rest
  | operator h =>
    rw [← ht]
    exact lexeme_operator h ht.symm he
  | punctuation h =>
    cases ht
    exact lexeme_punctuation h (by simpa [TokenKind.endsAt] using he)

end Phrasebook
