import Phrasebook.Number.Binary64

/-!
The shortest decimal that reads back. Among the decimals that round to a given number, the ones
with the fewest digits are found on the grids of powers of ten, and of those the nearest is taken.
-/
namespace Phrasebook

structure Decimal where
  digits : Nat
  exponent : Int
  deriving DecidableEq, Repr

/-- Which of two equally near decimals is taken. -/
inductive Tie
  | even
  | up
  deriving DecidableEq, Repr

namespace Binary64

/-- `value`, `low` and `high` over one denominator: a finite positive number and the ends of the
interval of reals that round to it. -/
structure Reach where
  value : Nat
  low : Nat
  high : Nat
  den : Nat
  closed : Bool
  deriving Repr

/-- Below a power of two the numbers are twice as dense, so the lower half step is halved too. -/
def reach (x : Binary64) : Reach :=
  let m := x.significand
  let e := x.exponent - 2
  let down := if m = hiddenBit ∧ -1074 < x.exponent then 1 else 2
  let (up, den) := if e < 0 then (1, 1 <<< e.natAbs) else (1 <<< e.natAbs, 1)
  { value := 4 * m * up, low := (4 * m - down) * up, high := (4 * m + 2) * up, den,
    closed := m % 2 = 0 }

def onGrid (n d : Nat) (k : Int) : Nat × Nat :=
  if k < 0 then (n * Nat.pow 10 k.natAbs, d) else (n, d * Nat.pow 10 k.natAbs)

def Reach.admits (r : Reach) (c : Nat) (k : Int) : Bool :=
  let (low, d) := onGrid r.low r.den k
  let (high, _) := onGrid r.high r.den k
  if r.closed then low ≤ c * d && c * d ≤ high else low < c * d && c * d < high

def Reach.onGrid? (r : Reach) (tie : Tie) (k : Int) : Option Decimal :=
  let (n, d) := onGrid r.value r.den k
  let c := n / d
  let rest := n % d
  let below := c != 0 && r.admits c k
  let above := r.admits (c + 1) k
  let upper := d < 2 * rest ∨ (2 * rest = d ∧ (tie = .up ∨ c % 2 = 1))
  if below && (!above || !decide upper) then some ⟨c, k⟩
  else if above then some ⟨c + 1, k⟩
  else none

def Reach.top (r : Reach) : Int :=
  (Nat.toDigits 10 r.value).length - (Nat.toDigits 10 r.den).length + 1

def Reach.search (r : Reach) (tie : Tie) : Nat → Int → Option Decimal
  | 0, _ => none
  | n + 1, k => (r.onGrid? tie k).orElse fun _ => r.search tie n (k - 1)

/-- The shortest decimal that rounds to a finite positive number. Seventeen digits always do, so
twenty grids from the top reach one. -/
def shortest (tie : Tie) (x : Binary64) : Decimal :=
  (x.reach.search tie 20 x.reach.top).getD ⟨0, 0⟩

end Binary64
end Phrasebook
