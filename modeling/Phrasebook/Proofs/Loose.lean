import Phrasebook.Merge

namespace Phrasebook
namespace Binary64

theorem magnitude_ofMagnitude (negative : Bool) {m : Nat} (h : m ≤ infinite) :
    (ofMagnitude negative m).magnitude = m := by
  simp only [infinite] at h
  simp only [magnitude, ofMagnitude, signBit, UInt64.toNat_ofNat']
  cases negative with
  | false =>
    simp only [Bool.false_eq_true, ↓reduceIte]
    omega
  | true =>
    simp only [↓reduceIte]
    omega

theorem isNaN_ofMagnitude (negative : Bool) {m : Nat} (h : m ≤ infinite) :
    (ofMagnitude negative m).isNaN = false := by
  rw [isNaN, magnitude_ofMagnitude negative h]
  exact decide_eq_false (Nat.not_lt_of_le h)

theorem nearest_le (num den : Nat) : nearest num den ≤ infinite := by
  rw [nearest]
  split
  · exact Nat.zero_le _
  · exact Nat.min_le_left _ _

theorem isNaN_ofDecimal (negative : Bool) (digits : Nat) (exponent : Int) :
    (ofDecimal negative digits exponent).isNaN = false := by
  simp only [ofDecimal]
  split
  · exact isNaN_ofMagnitude negative (Nat.zero_le _)
  · split
    · exact isNaN_ofMagnitude negative (Nat.le_refl _)
    · split
      · exact isNaN_ofMagnitude negative (Nat.zero_le _)
      · split <;> exact isNaN_ofMagnitude negative (nearest_le _ _)

theorem equal_self {x : Binary64} (h : x.isNaN = false) : x.equal x = true := by
  simp [equal, h]

end Binary64

theorem Quantity.equal_self_of_text {s : String} {q : Quantity} (h : Quantity.ofText? s = some q) :
    q.equal q = true := by
  obtain ⟨n, -, rfl⟩ := Option.map_eq_some_iff.1 h
  split
  · exact beq_self_eq_true _
  · exact Binary64.equal_self (Binary64.isNaN_ofDecimal _ _ _)

theorem Scalar.looselyEqual_str_self (s : String) :
    (Scalar.str s).looselyEqual (.str s) = true := by
  rw [Scalar.looselyEqual]
  split
  · next p q hp hq =>
    rw [hp] at hq
    cases hq
    exact Quantity.equal_self_of_text hp
  · exact beq_self_eq_true s

def Scalar.isNaN : Scalar → Bool
  | float x => x.isNaN
  | _ => false

theorem Scalar.looselyEqual_self {s : Scalar} (h : s.isNaN = false) : s.looselyEqual s = true := by
  cases s with
  | null => rfl
  | bool b => cases b <;> rfl
  | int n => exact beq_self_eq_true n
  | float x => exact Binary64.equal_self h
  | str s => exact looselyEqual_str_self s

end Phrasebook
