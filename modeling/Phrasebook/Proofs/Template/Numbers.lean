import Phrasebook.Proofs.Key
import Phrasebook.Proofs.Number.Numeral
import Phrasebook.Template.Tokens

namespace Phrasebook

open Computability

namespace Pattern

/-- Digits, perhaps a point and digits, perhaps an exponent. -/
def number : Language Char := digits * optional (oneOf isPoint * digits) * optional exponent

variable {cs : List Char}

theorem sign_mul (l : Language Char) : sign * l = l + oneOf isSign * l := by
  rw [sign, optional, add_mul, one_mul]

theorem longest_signedDigits (cs : List Char) :
    LongestMatch (optional (sign * digits)) cs (signedDigits cs) := by
  have hsplit : optional (sign * digits) = optional digits + oneOf isSign * digits ∧
      optional (sign * digits) = optional (oneOf isSign * digits) + digits := by
    simp only [sign_mul, optional]
    exact ⟨(add_assoc ..).symm, by rw [add_comm digits, add_assoc]⟩
  cases cs with
  | nil =>
    rw [hsplit.1]
    refine (LongestMatch.optional_someOf Char.isDigit []).add_left (not_isPrefix_of_head ?_)
    rintro d ⟨⟩
  | cons c cs =>
    rw [signedDigits]
    split
    · next hc =>
      have hs : isSign c = true := by simpa [isSign] using hc
      rw [hsplit.2]
      refine ((LongestMatch.optional_someOf Char.isDigit cs).optional_cons hs
        nil_not_mem_digits).add_left (not_isPrefix_of_head ?_)
      rintro d ⟨⟩
      exact not_isDigit_of_isSign hs
    · next hc =>
      have hs : isSign c = false := by simpa [isSign] using hc
      rw [hsplit.1]
      refine (LongestMatch.optional_someOf Char.isDigit _).add_left (not_isPrefix_of_head ?_)
      rintro d ⟨⟩
      exact hs

theorem nil_not_mem_sign_mul_digits : [] ∉ sign * digits :=
  fun h => nil_not_mem_digits (nil_mem_mul h).2

theorem longest_exponentPart (cs : List Char) :
    LongestMatch (optional exponent) cs (exponentPart cs) := by
  cases cs with
  | nil => exact .nil (not_isPrefix_of_head (by rintro _ ⟨⟩))
  | cons c cs =>
    rw [exponentPart]
    split
    · next hc =>
      have hl : isExponentLetter c = true := by simpa [isExponentLetter] using hc
      exact (longest_signedDigits cs).optional_cons hl nil_not_mem_sign_mul_digits
    · next hc =>
      refine .nil (not_isPrefix_of_head ?_)
      rintro d ⟨⟩
      simpa [isExponentLetter] using hc

theorem drop_length_takeWhile (p : Char → Bool) (cs : List Char) :
    cs.drop (cs.takeWhile p).length = cs.dropWhile p := by
  nth_rewrite 2 [← List.takeWhile_append_dropWhile (p := p) (l := cs)]
  rw [List.drop_left]

/-- A point is read only if a digit follows it, and then no exponent can stand in its place. -/
theorem longest_fractionText (cs : List Char) :
    LongestMatch (optional (oneOf isPoint * digits) * optional exponent) cs
      (fractionText cs ++ exponentPart (cs.drop (fractionText cs).length)) := by
  have hsplit : optional (oneOf isPoint * digits) * optional exponent =
      optional exponent + oneOf isPoint * (digits * optional exponent) := by
    rw [optional, add_mul, one_mul, mul_assoc]
  have hpoint : NeverStarts isPoint (optional exponent) :=
    .optional (.oneOf_mul fun _ => not_isPoint_of_isExponentLetter)
  have hnone (h : ∀ c ds, cs = '.' :: c :: ds → c.isDigit = false) :
      LongestMatch (optional exponent + oneOf isPoint * (digits * optional exponent)) cs
        (exponentPart cs) := by
    refine (longest_exponentPart cs).add_left ?_
    rintro es he ⟨rest, rfl⟩
    obtain ⟨c, fs, rfl, hc, hf⟩ := mem_oneOf_mul.1 he
    rw [digits, someOf, mul_assoc] at hf
    obtain ⟨d, gs, rfl, hd, -⟩ := mem_oneOf_mul.1 hf
    rw [isPoint, beq_iff_eq] at hc
    subst hc
    rw [h d _ rfl] at hd
    cases hd
  rw [hsplit, fractionText.eq_def]
  split
  · next c ds =>
    split
    · next hc =>
      have hrun : (c :: ds).takeWhile Char.isDigit = c :: ds.takeWhile Char.isDigit :=
        List.takeWhile_cons_of_pos hc
      have hdrop := drop_length_takeWhile Char.isDigit (c :: ds)
      rw [hrun] at hdrop
      rw [List.length_cons, List.drop_succ_cons, hdrop, List.cons_append, ← hrun]
      refine LongestMatch.add_right (.oneOf_mul rfl (.someOf_mul neverStarts_optional_exponent
        (hrun ▸ List.cons_ne_nil _ _) (longest_exponentPart _))) ?_
      intro es he hp
      exact hpoint.eq_nil_of_isPrefix rfl he hp
    · next hc =>
      refine hnone fun d es he => ?_
      cases he
      exact Bool.eq_false_iff.2 hc
  · next hne =>
    exact hnone fun d es he => absurd he (hne d es)

theorem longest_numberText {c : Char} (h : c.isDigit = true) (cs : List Char) :
    LongestMatch number (c :: cs) (numberText (c :: cs)) := by
  have hn : (c :: cs).takeWhile Char.isDigit ≠ [] := by
    rw [List.takeWhile_cons_of_pos h]
    exact List.cons_ne_nil _ _
  have hlongest := LongestMatch.someOf_mul (neverStarts_fraction_mul digits) hn
    (longest_fractionText ((c :: cs).dropWhile Char.isDigit))
  rwa [← drop_length_takeWhile, List.drop_drop, ← List.append_assoc, ← mul_assoc] at hlongest

theorem number_le_numeral : number ≤ numeral := by
  have hdigits : digits ≤ manyOf Char.isDigit := fun cs hm => mem_manyOf.2 (mem_someOf.1 hm).2
  have hmantissa : digits * optional (oneOf isPoint * digits) ≤ mantissa := by
    refine le_trans ?_ le_self_add
    exact mul_le_mul' le_rfl (add_le_add le_rfl (mul_le_mul' le_rfl hdigits))
  have hsigned : mantissa ≤ sign * mantissa := by
    rw [sign_mul]
    exact le_self_add
  exact mul_le_mul' (hmantissa.trans hsigned) le_rfl

theorem exists_cons_of_mem_number (h : cs ∈ number) : ∃ c ds, cs = c :: ds ∧ c.isDigit = true := by
  rw [number, digits, someOf, mul_assoc, mul_assoc] at h
  obtain ⟨c, ds, rfl, hc, -⟩ := mem_oneOf_mul.1 h
  exact ⟨c, ds, rfl, hc⟩

end Pattern

variable {cs : List Char}

theorem readInt64?_eq_some_iff {c : Char} {ds : List Char} (hc : c.isDigit = true) {n : Int64} :
    readInt64? (c :: ds) = some n ↔
      (∀ d ∈ c :: ds, d.isDigit = true) ∧ (digitsValue (c :: ds) : Int) = n.toInt := by
  have hsign : takeSign (c :: ds) = (false, c :: ds) := by
    rw [takeSign.eq_def]
    split
    · next he => cases he; cases hc
    · next he => cases he; cases hc
    · rfl
  have hdigits : isDigits (c :: ds) = true ↔ ∀ d ∈ c :: ds, d.isDigit = true := by
    rw [isDigits, List.isEmpty_cons, Bool.not_false, Bool.true_and, List.all_eq_true]
  rw [readInt64?, hsign]
  simp only [hdigits, Bool.false_eq_true, if_false, Option.ite_none_right_eq_some,
    Option.some.injEq]
  constructor
  · rintro ⟨hd, hr, rfl⟩
    exact ⟨hd, (toInt_ofInt_of_inRange hr).symm⟩
  · rintro ⟨hd, hn⟩
    refine ⟨hd, ?_, ?_⟩
    · rw [hn, int64InRange_iff]
      exact ⟨n.le_toInt, n.toInt_lt⟩
    · rw [hn, Int64.ofInt_toInt]

def WritesInt (cs : List Char) : Prop :=
  (∀ c ∈ cs, c.isDigit = true) ∧ digitsValue cs ≤ 9223372036854775807

-- The instance for members of a list is named: another one would go through all characters.
instance : DecidablePred WritesInt := fun cs =>
  @instDecidableAnd _ _ (List.decidableBAll _ cs) (Nat.decLe _ _)

theorem exists_numberValue? (h : cs ∈ Pattern.number) :
    ∃ value, numberValue? cs = some value ∧ ((∃ n, value = .int n) ↔ WritesInt cs) ∧
      ∀ n, value = .int n → n.toInt = digitsValue cs := by
  obtain ⟨c, ds, rfl, hc⟩ := Pattern.exists_cons_of_mem_number h
  rw [numberValue?]
  cases hi : readInt64? (c :: ds) with
  | some n =>
    obtain ⟨hd, hn⟩ := (readInt64?_eq_some_iff hc).1 hi
    have hu := n.toInt_lt
    refine ⟨.int n, rfl, iff_of_true ⟨n, rfl⟩ ⟨hd, by omega⟩, ?_⟩
    rintro _ ⟨⟩
    exact hn.symm
  | none =>
    obtain ⟨m, hm⟩ := Option.isSome_iff_exists.1 (Pattern.isSome_read?.2
      (Pattern.number_le_numeral h))
    rw [hm]
    refine ⟨.float m.toBinary64, rfl, iff_of_false (by rintro ⟨_, ⟨⟩⟩) ?_, by rintro _ ⟨⟩⟩
    rintro ⟨hd, hv⟩
    have hr : int64InRange (digitsValue (c :: ds)) = true := int64InRange_iff.2 (by omega)
    rw [(readInt64?_eq_some_iff hc).2 ⟨hd, (toInt_ofInt_of_inRange hr).symm⟩] at hi
    cases hi

theorem lexeme_ne_invalidNumber (c : Char) (cs text : List Char) :
    lexeme c cs ≠ .error (.invalidNumber text) := by
  rw [lexeme]
  split
  · next hd =>
    obtain ⟨value, hv, -⟩ := exists_numberValue? (Pattern.longest_numberText hd cs).mem
    simp only [hv]
    rintro ⟨⟩
  · split
    · split <;> rintro ⟨⟩
    · split
      · rintro ⟨⟩
      · split
        · rintro ⟨⟩
        · split
          · rintro ⟨⟩
          · split <;> rintro ⟨⟩

theorem step_ne_invalidNumber (open_ : Brackets) (line : Nat) (k : TokenKind) (text : List Char)
    (line' : Nat) : open_.step line k ≠ .error (.invalidNumber text line') := by
  cases k with
  | punctuation c =>
    dsimp only [Brackets.step]
    split
    · rintro ⟨⟩
    · split
      · rintro ⟨⟩
      · rintro ⟨⟩
      · split <;> rintro ⟨⟩
  | _ => rintro ⟨⟩

theorem tagTokens_ne_invalidNumber (kind : TagKind) (start line : Nat) (open_ : Brackets)
    (cs text : List Char) (line' : Nat) :
    tagTokens kind start line open_ cs ≠ .error (.invalidNumber text line') := by
  fun_induction tagTokens kind start line open_ cs with
  | case1 | case2 | case6 => rintro ⟨⟩
  | case3 _ _ _ _ _ _ _ _ e he =>
    cases e with
    | invalidNumber text' => exact absurd he (lexeme_ne_invalidNumber _ _ _)
    | _ => rintro ⟨⟩
  | case4 _ _ _ _ _ _ _ _ _ _ e he =>
    rintro ⟨⟩
    exact absurd he (step_ne_invalidNumber _ _ _ _ _)
  | case5 _ _ _ _ _ _ _ _ _ _ _ _ e he ih =>
    rintro ⟨⟩
    exact absurd he ih

theorem markupTokens_ne_invalidNumber (line : Nat) (marker : Marker) (rest text : List Char)
    (line' : Nat) : markupTokens line marker rest ≠ .error (.invalidNumber text line') := by
  rw [markupTokens.eq_def]
  split
  · rw [commentTokens]
    split <;> rintro ⟨⟩
  · next kind =>
    split
    · rw [verbatimTokens]
      dsimp only
      split <;> rintro ⟨⟩
    · intro h
      cases ht : tagTokens kind line line [] (takeDash rest).2 with
      | error e =>
        rw [ht] at h
        cases h
        exact tagTokens_ne_invalidNumber _ _ _ _ _ _ _ ht
      | ok r =>
        rw [ht] at h
        cases h

theorem sourceTokens_ne_invalidNumber (r : Resume) (text : List Char) (line : Nat) :
    sourceTokens r ≠ .error (.invalidNumber text line) := by
  fun_induction sourceTokens r with
  | case1 | case4 => rintro ⟨⟩
  | case2 _ _ _ _ _ _ e he =>
    rintro ⟨⟩
    exact absurd he (markupTokens_ne_invalidNumber _ _ _ _ _)
  | case3 _ _ _ _ _ _ _ _ _ e he ih =>
    rintro ⟨⟩
    exact absurd he ih

/-- A number in a tag is the longest text of the pattern at its place. It has a value, which is an
integer when it is all digits and fits and a binary number otherwise, so that no source is refused
for an invalid number. -/
theorem lexeme_number :
    (∀ c cs, c.isDigit = true →
      LongestMatch Pattern.number (c :: cs) (numberText (c :: cs)) ∧
      1 ≤ (numberText (c :: cs)).length ∧
      ∃ value, lexeme c cs = .ok ⟨.number value, numberText (c :: cs),
          (c :: cs).drop (numberText (c :: cs)).length⟩ ∧
        ((∃ n, value = .int n) ↔ WritesInt (numberText (c :: cs))) ∧
        ∀ n, value = .int n → n.toInt = digitsValue (numberText (c :: cs))) ∧
    ∀ source text line, tokenize source ≠ .error (.invalidNumber text line) := by
  refine ⟨?_, fun source text line => sourceTokens_ne_invalidNumber _ text line⟩
  intro c cs hc
  have hl := Pattern.longest_numberText hc cs
  refine ⟨hl, numberText_length_pos hc, ?_⟩
  obtain ⟨value, hv, hint, hvalue⟩ := exists_numberValue? hl.mem
  refine ⟨value, ?_, hint, hvalue⟩
  have htake : (c :: cs).take (numberText (c :: cs)).length = numberText (c :: cs) :=
    (List.prefix_iff_eq_take.1 hl.begins).symm
  simp only [lexeme, hc, if_true, hv, Lexeme.take, htake]

/-- A range, in which the points belong to no number, and a number with all parts. -/
theorem lexeme_number_range :
    numberText "1..3".toList = "1".toList ∧ numberText "2.5e-3.x".toList = "2.5e-3".toList ∧
      (∃ value, lexeme '1' "..3".toList = .ok ⟨.number value, "1".toList, "..3".toList⟩ ∧
        ∃ n, value = .int n) ∧
      ∃ value, lexeme '2' ".5e-3.x".toList = .ok ⟨.number value, "2.5e-3".toList, ".x".toList⟩ ∧
        ¬∃ n, value = .int n := by
  have hrange : numberText "1..3".toList = "1".toList := by decide
  have hfull : numberText "2.5e-3.x".toList = "2.5e-3".toList := by decide
  refine ⟨hrange, hfull, ?_, ?_⟩
  · obtain ⟨-, -, value, hl, hi, -⟩ := lexeme_number.1 '1' "..3".toList (by decide)
    exact ⟨value, hl, hi.2 (by decide)⟩
  · obtain ⟨-, -, value, hl, hi, -⟩ := lexeme_number.1 '2' ".5e-3.x".toList (by decide)
    exact ⟨value, hl, fun h => absurd (hi.1 h) (by decide)⟩

end Phrasebook
