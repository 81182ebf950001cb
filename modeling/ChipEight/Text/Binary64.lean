/-!
Rounding to binary64: the nearest number with a 53-bit significand, the even one of two that are
equally near.
-/
namespace ChipEight.Binary64

/-- A quotient rounded to the nearest integer, a half to the even neighbour. -/
def roundDiv (num den : Nat) : Nat :=
  let quotient := num / den
  let twice := 2 * (num % den)
  if twice < den then quotient
  else if den < twice then quotient + 1
  else quotient + quotient % 2

/-- A quotient divided by a power of two, as numerator and denominator. -/
def scale (num den : Nat) (exponent : Int) : Nat × Nat :=
  if 0 ≤ exponent then (num, den * Nat.pow 2 exponent.toNat) else (num * Nat.pow 2 (-exponent).toNat, den)

/-- The exponent at which a quotient has 53 bits before the point, but not below that of the
subnormal numbers. -/
def exponent (num den : Nat) : Int :=
  let near : Int := (num.log2 : Int) - den.log2 - 52
  let (n, d) := scale num den near
  max (if n < d * Nat.pow 2 52 then near - 1 else near) (-1074)

/-- The least power of two above all finite numbers. -/
def limit : Rat := mkRat (Int.pow 2 1024) 1

/-- The nearest number, of a significand and an exponent that has no upper bound. -/
def nearest (num den : Nat) : Rat :=
  if num = 0 then
    0
  else
    let e := exponent num den
    let (n, d) := scale num den e
    let significand := roundDiv n d
    if 0 ≤ e then
      mkRat (significand * Nat.pow 2 e.toNat) 1
    else
      mkRat significand (Nat.pow 2 (-e).toNat)

example : nearest 5 10 = mkRat 1 2 := by decide +kernel
example : nearest (10 ^ 23) 1 = 99999999999999991611392 := by decide +kernel
example : nearest (3 * 10 ^ 20 + 1) (10 ^ 20) = 3 := by decide +kernel

end ChipEight.Binary64
