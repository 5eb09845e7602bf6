import FieldAtlas.Text.Decimal

/-!
# `Json.DoubleRange` — the numbers that stay within the doubles

A real keeps its spelling and nothing else, and yet one that is too large for a double denotes
nothing.  What is too large depends on how the double is found, which is quick and not exact:

* the digits, with or without a point among them, are gathered into a word of 64 bits, and from
  a digit on that does not fit they are only counted;
* the word is rounded to a double, and so is the power of ten;
* the product of the two is rounded once more.

So the edge is uneven.  `17976931348623158079e289` lies below the bound and is too large, and
`179769313486231581e291` lies above it and is not.  A power of ten beyond all doubles is too
large by itself, unless the word is zero; a negative power never is.
-/

namespace FieldAtlas.Json

/-- Takes digits into a number as long as it fits in a word of 64 bits, and counts the rest. -/
def gather (n : Nat) : List Char → Nat × Nat
  | [] => (n, 0)
  | d :: ds =>
    let next := 10 * n + (d.toNat - 48)
    if next < Nat.pow 2 64 then gather next ds else (n, ds.length + 1)

/-- The nearest number with 53 significant bits, and of two the even one. -/
def roundToDouble (n : Nat) : Nat :=
  let unit := Nat.pow 2 (n.log2 + 1 - 53)
  let count := n / unit
  let rest := n % unit
  if unit < 2 * rest || (2 * rest == unit && count % 2 == 1) then (count + 1) * unit
  else count * unit

/-- The least number that rounds to no double: halfway from the largest double to the next step. -/
def overflowBound : Nat := Nat.pow 2 1024 - Nat.pow 2 970

/-- The largest power of ten within the doubles. -/
def maxPower : Int := 308

/-- Whether `n · 10 ^ exponent` is too large, by the product of the two as doubles. -/
def overflows (n : Nat) (exponent : Int) : Bool :=
  n != 0 && 0 ≤ exponent &&
    (maxPower < exponent ||
      overflowBound ≤ roundToDouble n * roundToDouble (Nat.pow 10 exponent.toNat))

/-- Whether a number is too large, from its digits before and behind the point and its exponent.
A digit left over before the point raises the exponent, one taken from behind it lowers it. -/
def exceedsDoubles (whole fraction : List Char) (exponent : Int) : Bool :=
  let (n, beyond) := gather 0 whole
  let (n, left) := gather n fraction
  overflows n (exponent + beyond - (fraction.length - left : Nat))

end FieldAtlas.Json
