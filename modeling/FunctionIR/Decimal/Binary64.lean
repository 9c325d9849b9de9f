/-!
# Doubles as words

A floating point literal is kept as the 64 bits of its IEEE double, never as
a machine float: every question about it (its exact value, which double is
nearest to a fraction, whether two are equal) is then one of natural
numbers, and can be decided inside the logic.

A **magnitude** is the word of a double without its sign.  Magnitudes below
`infinity` are the finite doubles in increasing order, the one with
significand `m` and exponent `e` (the number `m * 2 ^ e`) being

    m + (e + 1074) * 2 ^ 52

for normal and subnormal numbers alike, because the leading one of a normal
significand carries into the exponent field.  `nearest` rounds a fraction to
a magnitude through this one formula; a significand that rounds up to
`2 ^ 53` carries by itself, and what comes out beyond the largest finite
number is infinite.  Powers of two are written as shifts: `x <<< k` is
`x * 2 ^ k`.
-/

namespace FunctionIR

/-- A double, as the word that stores it. -/
structure Binary64 where
  bits : UInt64
deriving DecidableEq

namespace Binary64

/-- The magnitude of the infinite doubles. -/
def infinity : Nat := 2047 <<< 52

/-- The sign bit is set. -/
def isNegative (x : Binary64) : Bool := 1 <<< 63 ≤ x.bits.toNat

/-- The word without its sign. -/
def magnitude (x : Binary64) : Nat := x.bits.toNat % (1 <<< 63)

/-- The double of a sign and a magnitude. -/
def ofMagnitude (negative : Bool) (magnitude : Nat) : Binary64 :=
  ⟨UInt64.ofNat (magnitude % (1 <<< 63) + if negative then 1 <<< 63 else 0)⟩

/-- Not a number. -/
def isNaN (x : Binary64) : Bool := infinity < x.magnitude

/-- One of the two infinite doubles. -/
def isInfinite (x : Binary64) : Bool := x.magnitude == infinity

/-- A double that stands for a number. -/
def isFinite (x : Binary64) : Bool := x.magnitude < infinity

/-- The integer `m` of a finite double `m * 2 ^ e`. -/
def significand (x : Binary64) : Nat :=
  if x.magnitude < 1 <<< 52 then x.magnitude
  else x.magnitude % (1 <<< 52) + (1 <<< 52)

/-- The exponent `e` of a finite double `m * 2 ^ e`. -/
def exponent (x : Binary64) : Int :=
  max 1 (x.magnitude >>> 52 : Nat) - 1075

/-- Equality of numbers: no NaN equals anything, and the two zeros are
equal. -/
def numEq (x y : Binary64) : Bool :=
  !x.isNaN && !y.isNaN && (x == y || (x.magnitude == 0 && y.magnitude == 0))

/-- The same number with the other sign. -/
def neg (x : Binary64) : Binary64 := ofMagnitude (!x.isNegative) x.magnitude

/-- The quotient `n / d` rounded to an integer, a half to the even one. -/
def roundHalfEven (n d : Nat) : Nat :=
  let q := n / d
  if 2 * (n % d) < d then q
  else if d < 2 * (n % d) then q + 1
  else q + q % 2

/-- A fraction and a power of two as one fraction `x / 2 ^ e`. -/
def scaleDown (num den : Nat) (e : Int) : Nat × Nat :=
  if 0 ≤ e then (num, den <<< e.toNat) else (num <<< (-e).toNat, den)

/-- The magnitude nearest to the fraction `num / den`, a half to the even
significand. -/
def nearest (num den : Nat) : Nat :=
  if num = 0 ∨ den = 0 then 0
  else
    let low : Int := (num.log2 : Int) - den.log2 - 53
    let (n, d) := scaleDown num den low
    let e : Int := max (-1074) (if n / d < 1 <<< 53 then low else low + 1)
    let (n, d) := scaleDown num den e
    min infinity (roundHalfEven n d + (e + 1074).toNat <<< 52)

/-- The double nearest to `digits * 10 ^ exponent`.  The two bounds on the
exponent only keep the powers of ten small: beyond them the answer is
infinite or zero whatever the digits. -/
def ofDecimal (negative : Bool) (digits : Nat) (exponent : Int) : Binary64 :=
  ofMagnitude negative <|
    if digits = 0 then 0
    else if 0 ≤ exponent then
      if 400 < exponent then infinity
      else nearest (digits * Nat.pow 10 exponent.toNat) 1
    else if (digits.log2 : Int) + 1 + 3 * exponent < -1080 then 0
    else nearest digits (Nat.pow 10 (-exponent).toNat)

/-- The exact value of a finite double, sign apart, as a fraction. -/
def toFraction (x : Binary64) : Nat × Nat :=
  if 0 ≤ x.exponent then (x.significand <<< x.exponent.toNat, 1)
  else (x.significand, 1 <<< (-x.exponent).toNat)

/-- The product of two finite doubles without sign, rounded. -/
def mul (x y : Binary64) : Binary64 :=
  let (a, b) := x.toFraction
  let (c, d) := y.toFraction
  ofMagnitude false (nearest (a * c) (b * d))

/-- The quotient of two finite doubles without sign, rounded. -/
def div (x y : Binary64) : Binary64 :=
  let (a, b) := x.toFraction
  let (c, d) := y.toFraction
  ofMagnitude false (nearest (a * d) (b * c))

end Binary64

end FunctionIR
