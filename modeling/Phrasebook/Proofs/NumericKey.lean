import Phrasebook.Proofs.Key
import Phrasebook.Proofs.Number.Numeral

namespace Phrasebook

open Computability

namespace Pattern

/-- A numeral that blanks may surround. -/
def numericKey : Language Char := manyOf isKeyBlank * numeral * manyOf isKeyBlank

theorem numeral_le_manyOf : numeral ≤ manyOf fun c => !isKeyBlank c := by
  have hdigit : ∀ c, c.isDigit = true → (!isKeyBlank c) = true := by
    intro c hc
    rw [isKeyBlank_of_isDigit hc, Bool.not_false]
  have hdigits : digits ≤ manyOf fun c => !isKeyBlank c :=
    mul_le_manyOf (oneOf_le_manyOf hdigit) (manyOf_le_manyOf hdigit)
  have hsign : sign ≤ manyOf fun c => !isKeyBlank c := by
    refine optional_le_manyOf (oneOf_le_manyOf fun c hc => ?_)
    simp only [isSign, Bool.or_eq_true, beq_iff_eq] at hc
    rcases hc with rfl | rfl <;> decide
  have hpoint : oneOf isPoint ≤ manyOf fun c => !isKeyBlank c := by
    refine oneOf_le_manyOf fun c hc => ?_
    rw [isPoint, beq_iff_eq] at hc
    subst hc
    decide
  have hletter : oneOf isExponentLetter ≤ manyOf fun c => !isKeyBlank c := by
    refine oneOf_le_manyOf fun c hc => ?_
    simp only [isExponentLetter, Bool.or_eq_true, beq_iff_eq] at hc
    rcases hc with rfl | rfl <;> decide
  have hmantissa : mantissa ≤ manyOf fun c => !isKeyBlank c :=
    add_le (mul_le_manyOf hdigits
      (optional_le_manyOf (mul_le_manyOf hpoint (manyOf_le_manyOf hdigit))))
      (mul_le_manyOf hpoint hdigits)
  exact mul_le_manyOf (mul_le_manyOf hsign hmantissa)
    (optional_le_manyOf (mul_le_manyOf hletter (mul_le_manyOf hsign hdigits)))

theorem not_isKeyBlank_of_mem_numeral {cs : List Char} (h : cs ∈ numeral) :
    ∀ c ∈ cs, isKeyBlank c = false := by
  intro c hc
  have hb := mem_manyOf.1 (numeral_le_manyOf h) c hc
  rwa [Bool.not_eq_true'] at hb

theorem nil_not_mem_numeral : [] ∉ numeral := fun h =>
  nil_not_mem_mantissa (nil_mem_mul (nil_mem_mul h).1).2

/-- Trimming leaves a numeral exactly when one stands between blanks. -/
theorem mem_numericKey {cs : List Char} : cs ∈ numericKey ↔ trimKeyBlanks cs ∈ numeral := by
  have hstarts : NeverStarts isKeyBlank numeral := fun ds hd c hc =>
    not_isKeyBlank_of_mem_numeral hd c (List.mem_of_head? hc)
  have hends : NeverEnds isKeyBlank numeral := fun ds hd c hc =>
    not_isKeyBlank_of_mem_numeral hd c (List.mem_of_getLast? hc)
  rw [numericKey, mul_assoc, mem_manyOf_mul (hstarts.mul nil_not_mem_numeral),
    mem_mul_manyOf hends, trimKeyBlanks]

end Pattern

theorem integerKey?_eq_some_iff {key : String} {i : Int64} :
    integerKey? key = some i ↔ key = toString i.toInt := by
  constructor
  · exact eq_toString_of_integerKey?
  · rintro rfl
    have hr : int64InRange i.toInt = true :=
      int64InRange_iff.2 ⟨i.le_toInt, i.toInt_lt⟩
    rw [integerKey?_toString_int hr, Int64.ofInt_toInt]

/-- The numeric keys are the texts of the pattern. Those that stand for an integer are spelled like
it, and as long as the integer keys of a map lie below `2 ^ 62` the next index stands for an integer
above them all. -/
theorem isNumericKey_exact :
    (∀ key, isNumericKey key = true ↔ key.toList ∈ Pattern.numericKey) ∧
    (∀ key i, integerKey? key = some i → isNumericKey key = true ∧ key = toString i.toInt) ∧
    ∀ es : Messages, KeysBelow 4611686018427387904 es →
      ∃ i, integerKey? (Value.nextIndex es) = some i ∧
        Value.nextIndex es ∉ Entries.keys es ∧
        ∀ key ∈ Entries.keys es, ∀ j, integerKey? key = some j → j.toInt < i.toInt := by
  refine ⟨?_, ?_, ?_⟩
  · intro key
    rw [isNumericKey, numeralKey?, Pattern.isSome_read?, Pattern.mem_numericKey]
  · intro key i h
    have hk := integerKey?_eq_some_iff.1 h
    exact ⟨hk ▸ isNumericKey_toString_int i.toInt, hk⟩
  · intro es h
    have h := h.mono (show (4611686018427387904 : Int) ≤ 9223372036854775807 by decide)
    obtain ⟨i, hi, hb⟩ := Value.exists_integerKey?_nextIndex h
    exact ⟨i, hi, Value.nextIndex_not_mem h, hb⟩

/-- Keys with a sign, a fraction and an exponent, and the index behind a list with gaps. -/
theorem isNumericKey_exact_gaps :
    let es : Messages := [("3", .null), ("name", .null), ("1.5", .null), ("-7", .null)]
    KeysBelow 4611686018427387904 es ∧ Value.nextIndex es = "4" ∧
      "4" ∉ Entries.keys es ∧ " -1.5e+3\n".toList ∈ Pattern.numericKey ∧
      "1e".toList ∉ Pattern.numericKey := by
  intro es
  have hb : KeysBelow 4611686018427387904 es := by decide
  have hn : Value.nextIndex es = "4" := by decide
  obtain ⟨i, -, hm, -⟩ := isNumericKey_exact.2.2 es hb
  refine ⟨hb, hn, hn ▸ hm, (isNumericKey_exact.1 _).1 (by decide), fun h => ?_⟩
  exact absurd ((isNumericKey_exact.1 _).2 h) (by decide)

end Phrasebook
