/-!
Binary floating-point numbers of 64 bits, given by their bits. The order and the arithmetic that
the library needs are stated on the exact value `significand * 2 ^ exponent`, and rounding from a
quotient of integers goes to the nearest number, a tie to the even one.
-/
namespace Phrasebook

structure Binary64 where
  bits : UInt64
  deriving DecidableEq, Repr

namespace Binary64

def signBit : Nat := 0x8000000000000000

def hiddenBit : Nat := 0x10000000000000

def infinite : Nat := 0x7ff0000000000000

/-- The bits without the sign. Magnitudes count the non-negative numbers in increasing order. -/
def magnitude (x : Binary64) : Nat := x.bits.toNat % signBit

def isNegative (x : Binary64) : Bool := signBit ≤ x.bits.toNat

def isZero (x : Binary64) : Bool := x.magnitude == 0

def isNaN (x : Binary64) : Bool := infinite < x.magnitude

def isInfinite (x : Binary64) : Bool := x.magnitude == infinite

def isFinite (x : Binary64) : Bool := x.magnitude < infinite

def ofMagnitude (negative : Bool) (m : Nat) : Binary64 :=
  ⟨UInt64.ofNat (if negative then signBit + m else m)⟩

/-- The one value that stands for every result that is no number. -/
def nan : Binary64 := ⟨0x7ff8000000000000⟩

def infinity (negative : Bool) : Binary64 := ofMagnitude negative infinite

/-- A finite number is `significand * 2 ^ exponent`, up to its sign. -/
def significand (x : Binary64) : Nat :=
  if x.magnitude < hiddenBit then x.magnitude else hiddenBit + x.magnitude % hiddenBit

def exponent (x : Binary64) : Int := (max 1 (x.magnitude / hiddenBit) : Nat) - 1075

/-- Numerical equality: zeros of either sign are equal, and nothing equals a NaN. -/
def equal (x y : Binary64) : Bool :=
  !x.isNaN && !y.isNaN && (x == y || x.isZero && y.isZero)

/-- The integer nearest to `num / den`, a tie going to the even one. -/
def roundDiv (num den : Nat) : Nat :=
  let q := num / den
  let r := num % den
  if den < 2 * r ∨ (2 * r = den ∧ q % 2 = 1) then q + 1 else q

def scale (num den : Nat) (e : Int) : Nat × Nat :=
  if e < 0 then (num <<< e.natAbs, den) else (num, den <<< e.natAbs)

def ilog2 (num den : Nat) : Int :=
  let e : Int := (num.log2 : Int) - den.log2
  let (n, d) := scale num den e
  if n < d then e - 1 else e

/-- The magnitude of the number nearest to `num / den`. A significand that rounds up to `2 ^ 53`
carries into the exponent, and what is too large is infinite. -/
def nearest (num den : Nat) : Nat :=
  if num = 0 then 0
  else
    let e := max (ilog2 num den - 52) (-1074)
    let (n, d) := scale num den e
    min infinite ((e + 1074).toNat * hiddenBit + roundDiv n d)

def ofRatio (negative : Bool) (num den : Nat) : Binary64 := ofMagnitude negative (nearest num den)

def ofInt (n : Int) : Binary64 := ofRatio (n < 0) n.natAbs 1

/-- The number nearest to `digits * 10 ^ exponent`. Exponents far outside the range are answered
without building the power of ten. -/
def ofDecimal (negative : Bool) (digits : Nat) (exponent : Int) : Binary64 :=
  if digits = 0 then ofMagnitude negative 0
  else
    let top := exponent + (Nat.toDigits 10 digits).length
    if 400 < top then infinity negative
    else if top < -400 then ofMagnitude negative 0
    else if exponent < 0 then ofRatio negative digits (Nat.pow 10 exponent.natAbs)
    else ofRatio negative (digits * Nat.pow 10 exponent.natAbs) 1

end Binary64
end Phrasebook
