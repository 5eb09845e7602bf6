/-!
# `Decimal` — integers in decimal

One spelling for printing: no sign but a minus, no leading zero.  Reading is wider and takes
any nonempty run of ASCII digits, so `007` is read as seven and printed as `7`.
-/

namespace FieldAtlas.Decimal

/-- The digits of a natural number, most significant first. -/
def digits (n : Nat) : List Char := Nat.toDigits 10 n

/-- An integer as a list of characters. -/
def chars : Int → List Char
  | .ofNat n => digits n
  | .negSucc n => '-' :: digits (n + 1)

/-- An integer as text. -/
def text (n : Int) : String := String.ofList (chars n)

/-- The number that a nonempty run of ASCII digits stands for. -/
def read? (ds : List Char) : Option Nat :=
  if !ds.isEmpty && ds.all Char.isDigit then some (Nat.ofDigitChars 10 ds 0) else none

/-- The largest key: keys and ordinals are signed words of 64 bits. -/
def maxKey : Nat := 0x7fffffffffffffff

/-- The key that a run of digits stands for, unless it is too large to be one. -/
def readKey? (ds : List Char) : Option Nat := (read? ds).filter (· ≤ maxKey)

theorem digits_ne_nil (n : Nat) : digits n ≠ [] := Nat.toDigits_ne_nil

theorem isDigit_of_mem_digits {n : Nat} {c : Char} (h : c ∈ digits n) : c.isDigit = true :=
  Nat.isDigit_of_mem_toDigits (by decide) (by decide) h

/-- Reading inverts printing. -/
theorem read?_digits (n : Nat) : read? (digits n) = some n := by
  have hall : (digits n).all Char.isDigit = true :=
    List.all_eq_true.mpr fun _ h => isDigit_of_mem_digits h
  have hval : Nat.ofDigitChars 10 (digits n) 0 = n :=
    Nat.ofDigitChars_toDigits (by decide) (by decide)
  simp [read?, hall, hval, digits_ne_nil]

/-- Printing loses nothing. -/
theorem digits_injective {m n : Nat} (h : digits m = digits n) : m = n := by
  have := congrArg read? h
  simpa [read?_digits] using this

end FieldAtlas.Decimal
