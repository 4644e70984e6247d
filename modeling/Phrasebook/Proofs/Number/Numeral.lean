import Phrasebook.Number.Numeral
import Phrasebook.Proofs.Text.Pattern

namespace Phrasebook

namespace Pattern

def isSign (c : Char) : Bool := c == '+' || c == '-'

def isPoint (c : Char) : Bool := c == '.'

def isExponentLetter (c : Char) : Bool := c == 'e' || c == 'E'

def digits : Language Char := someOf Char.isDigit

def sign : Language Char := optional (oneOf isSign)

def exponent : Language Char := oneOf isExponentLetter * (sign * digits)

/-- Digits with a point behind, between or before them, or with none. -/
def mantissa : Language Char :=
  digits * optional (oneOf isPoint * manyOf Char.isDigit) + oneOf isPoint * digits

def numeral : Language Char := sign * mantissa * optional exponent

theorem not_isDigit_of_isSign {c : Char} (h : isSign c = true) : c.isDigit = false := by
  simp only [isSign, Bool.or_eq_true, beq_iff_eq] at h
  rcases h with rfl | rfl <;> decide

theorem not_isSign_of_isDigit {c : Char} (h : c.isDigit = true) : isSign c = false := by
  rw [← Bool.not_eq_true]
  intro hs
  rw [not_isDigit_of_isSign hs] at h
  cases h

theorem not_isSign_of_isPoint {c : Char} (h : isPoint c = true) : isSign c = false := by
  rw [isPoint, beq_iff_eq] at h
  subst h
  decide

theorem not_isDigit_of_isPoint {c : Char} (h : isPoint c = true) : c.isDigit = false := by
  rw [isPoint, beq_iff_eq] at h
  subst h
  decide

theorem not_isDigit_of_isExponentLetter {c : Char} (h : isExponentLetter c = true) :
    c.isDigit = false := by
  simp only [isExponentLetter, Bool.or_eq_true, beq_iff_eq] at h
  rcases h with rfl | rfl <;> decide

theorem not_isPoint_of_isExponentLetter {c : Char} (h : isExponentLetter c = true) :
    isPoint c = false := by
  simp only [isExponentLetter, Bool.or_eq_true, beq_iff_eq] at h
  rcases h with rfl | rfl <;> decide

theorem nil_not_mem_digits : [] ∉ digits := nil_not_mem_oneOf_mul

theorem neverStarts_digits : NeverStarts isSign digits :=
  .oneOf_mul fun _ => not_isSign_of_isDigit

theorem neverStarts_optional_exponent : NeverStarts Char.isDigit (optional exponent) :=
  .optional (.oneOf_mul fun _ => not_isDigit_of_isExponentLetter)

variable {cs : List Char}

theorem isDigits_iff : isDigits cs = true ↔ cs ∈ digits := by
  rw [digits, mem_someOf, isDigits, Bool.and_eq_true, List.all_eq_true, Bool.not_eq_true',
    List.isEmpty_eq_false_iff]

theorem mem_sign_mul {l : Language Char} (hl : NeverStarts isSign l) :
    cs ∈ sign * l ↔ (takeSign cs).2 ∈ l := by
  have hsplit : cs ∈ sign * l ↔ cs ∈ l ∨ cs ∈ oneOf isSign * l := by
    rw [sign, optional, add_mul, one_mul, Language.mem_add]
  have hnot {c : Char} {ds : List Char} (hc : isSign c = true) : c :: ds ∉ l := by
    intro hm
    rw [hl _ hm c rfl] at hc
    cases hc
  rw [hsplit, takeSign.eq_def]
  split
  · rw [cons_mem_oneOf_mul]
    simp [hnot (c := '-') rfl, isSign]
  · rw [cons_mem_oneOf_mul]
    simp [hnot (c := '+') rfl, isSign]
  · next hminus hplus =>
    simp only [or_iff_left_iff_imp]
    intro hm
    obtain ⟨c, ds, rfl, hc, -⟩ := mem_oneOf_mul.1 hm
    simp only [isSign, Bool.or_eq_true, beq_iff_eq] at hc
    rcases hc with rfl | rfl
    · exact absurd rfl (hplus ds)
    · exact absurd rfl (hminus ds)

theorem isSome_readExponent? :
    (Numeral.readExponent? cs).isSome = true ↔ cs ∈ optional exponent := by
  rw [mem_optional]
  cases cs with
  | nil => simp [Numeral.readExponent?]
  | cons c cs =>
    have hc : (c = 'e' ∨ c = 'E') ↔ isExponentLetter c = true := by simp [isExponentLetter]
    rw [exponent, cons_mem_oneOf_mul, mem_sign_mul neverStarts_digits, ← isDigits_iff,
      Numeral.readExponent?]
    simp only [hc, reduceCtorEq, false_or]
    split
    · next hl =>
      split <;> simp_all
    · next hl => simp [hl]

/-- What follows the fraction is the rest of the text in front of which a fraction may stand. -/
theorem mem_fraction_mul : cs ∈ optional (oneOf isPoint * manyOf Char.isDigit) * optional exponent ↔
    (Numeral.takeFraction cs).2 ∈ optional exponent := by
  have hsplit : cs ∈ optional (oneOf isPoint * manyOf Char.isDigit) * optional exponent ↔
      cs ∈ optional exponent ∨
        cs ∈ oneOf isPoint * (manyOf Char.isDigit * optional exponent) := by
    rw [optional, add_mul, one_mul, mul_assoc, Language.mem_add]
  rw [hsplit, Numeral.takeFraction.eq_def]
  split
  · next ds =>
    have hnot : '.' :: ds ∉ optional exponent := by
      rw [mem_optional, exponent, cons_mem_oneOf_mul]
      simp [isExponentLetter]
    rw [cons_mem_oneOf_mul, mem_manyOf_mul neverStarts_optional_exponent]
    simp [hnot, isPoint]
  · next hpoint =>
    simp only [or_iff_left_iff_imp]
    intro hm
    obtain ⟨c, ds, rfl, hc, -⟩ := mem_oneOf_mul.1 hm
    rw [isPoint, beq_iff_eq] at hc
    subst hc
    exact absurd rfl (hpoint ds)

theorem neverStarts_fraction_mul (l : Language Char) :
    NeverStarts Char.isDigit (optional (oneOf isPoint * l) * optional exponent) :=
  .optional_mul (.oneOf_mul fun _ => not_isDigit_of_isPoint) neverStarts_optional_exponent

theorem mem_mantissa_mul : cs ∈ mantissa * optional exponent ↔
    (cs.takeWhile Char.isDigit ≠ [] ∨ (Numeral.takeFraction (cs.dropWhile Char.isDigit)).1 ≠ []) ∧
      (Numeral.takeFraction (cs.dropWhile Char.isDigit)).2 ∈ optional exponent := by
  have hsplit : cs ∈ mantissa * optional exponent ↔
      cs ∈ someOf Char.isDigit *
          (optional (oneOf isPoint * manyOf Char.isDigit) * optional exponent) ∨
        cs ∈ oneOf isPoint * (someOf Char.isDigit * optional exponent) := by
    rw [mantissa, add_mul, Language.mem_add, mul_assoc, mul_assoc]
    rfl
  rw [hsplit, mem_someOf_mul (neverStarts_fraction_mul _), mem_fraction_mul]
  by_cases hw : cs.takeWhile Char.isDigit = []
  · have hd : cs.dropWhile Char.isDigit = cs := by
      nth_rewrite 2 [← List.takeWhile_append_dropWhile (p := Char.isDigit) (l := cs)]
      rw [hw, List.nil_append]
    rw [hw, hd, Numeral.takeFraction.eq_def]
    split
    · next ds =>
      rw [cons_mem_oneOf_mul, mem_someOf_mul neverStarts_optional_exponent]
      simp [isPoint]
    · next hpoint =>
      simp only [ne_eq, not_true_eq_false, false_and, or_self, false_or, iff_false]
      intro hm
      obtain ⟨c, ds, rfl, hc, -⟩ := mem_oneOf_mul.1 hm
      rw [isPoint, beq_iff_eq] at hc
      subst hc
      exact absurd rfl (hpoint ds)
  · have hpoint : cs ∉ oneOf isPoint * (someOf Char.isDigit * optional exponent) := by
      intro hm
      obtain ⟨c, ds, rfl, hc, -⟩ := mem_oneOf_mul.1 hm
      exact hw (List.takeWhile_cons_of_neg (by simp [not_isDigit_of_isPoint hc]))
    simp [hw, hpoint]

theorem nil_not_mem_mantissa : [] ∉ mantissa := by
  intro h
  rcases (Language.mem_add ..).1 h with h | h
  · exact nil_not_mem_digits (nil_mem_mul h).1
  · exact nil_not_mem_oneOf_mul h

theorem neverStarts_mantissa : NeverStarts isSign mantissa :=
  .add (.mul neverStarts_digits nil_not_mem_digits) (.oneOf_mul fun _ => not_isSign_of_isPoint)

/-- A text is read as a numeral exactly when all of it matches the pattern. -/
theorem isSome_read? : (Numeral.read? cs).isSome = true ↔ cs ∈ numeral := by
  rw [numeral, mul_assoc, mem_sign_mul (neverStarts_mantissa.mul nil_not_mem_mantissa),
    mem_mantissa_mul, ← isSome_readExponent?, Numeral.read?]
  dsimp only
  split
  · next he =>
    rw [Bool.and_eq_true, List.isEmpty_iff, List.isEmpty_iff] at he
    simp [he]
  · next he =>
    rw [Bool.and_eq_true, List.isEmpty_iff, List.isEmpty_iff, not_and_or] at he
    rw [Option.isSome_map, and_iff_right he]

end Pattern
end Phrasebook
