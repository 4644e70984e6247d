import Phrasebook.Number.Shortest

namespace Phrasebook

/-- How numbers are written. `positional p` says whether a number whose point stands `p` places
after its first digit's left edge is written without an exponent. -/
structure NumberStyle where
  tie : Tie
  positional : Int → Bool
  whole : String
  infinite : String
  nan : String

namespace NumberStyle

def plain : NumberStyle :=
  { tie := .up, positional := fun _ => true, whole := "", infinite := "inf", nan := "NaN" }

/-- Catalog files: whole numbers keep a zero after the point, and numbers from `1e16` or below
`1e-5` take an exponent. -/
def catalog : NumberStyle :=
  { tie := .even, positional := fun p => -5 < p && p ≤ 16, whole := ".0", infinite := ".inf",
    nan := ".nan" }

def positionalText (style : NumberStyle) (digits : String) (p : Int) : String :=
  let zeros (n : Nat) := String.ofList (List.replicate n '0')
  if p ≤ 0 then "0." ++ zeros (-p).toNat ++ digits
  else if digits.length ≤ p.toNat then digits ++ zeros (p.toNat - digits.length) ++ style.whole
  else
    String.ofList (digits.toList.take p.toNat) ++ "." ++ String.ofList (digits.toList.drop p.toNat)

def exponentText (digits : String) (p : Int) : String :=
  let mantissa := match digits.toList with
    | [] => ""
    | [c] => String.ofList [c]
    | c :: cs => String.ofList (c :: '.' :: cs)
  mantissa ++ "e" ++ toString (p - 1)

def text (style : NumberStyle) (x : Binary64) : String :=
  let sign := if x.isNegative then "-" else ""
  if x.isNaN then style.nan
  else if x.isInfinite then sign ++ style.infinite
  else if x.isZero then sign ++ "0" ++ style.whole
  else
    let d := x.shortest style.tie
    let digits := toString d.digits
    let p := d.exponent + digits.length
    sign ++ if style.positional p then style.positionalText digits p else exponentText digits p

end NumberStyle
end Phrasebook
