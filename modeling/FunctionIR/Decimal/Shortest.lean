import FunctionIR.Decimal.Binary64

/-!
# The shortest decimal of a double

Among all decimals that round to a double, the one written is the shortest,
and of the shortest ones the nearest to the double's exact value.

The decimals that round to `m * 2 ^ e` fill an interval around it: half a
step up, and half a step down (a quarter where `m` is the least significand
of its exponent, as the step below is half as wide).  The ends belong to it
exactly when `m` is even.  A decimal of few digits is a multiple of a high
power of ten, so the search goes down the powers of ten and stops at the
first one with a multiple in the interval.  Only the two multiples next to
the exact value have to be looked at: if any multiple lies in an interval
around the value, so does one of these.
-/

namespace FunctionIR.Decimal

/-- The interval of the fractions that round to one double, over a common
denominator: `low / den ≤ mid / den ≤ high / den`. -/
structure Interval where
  low : Nat
  mid : Nat
  high : Nat
  den : Nat
  closed : Bool

/-- What rounds to the finite double `m * 2 ^ e`. -/
def Interval.around (m : Nat) (e : Int) : Interval :=
  let below := if m = 1 <<< 52 ∧ -1074 < e then 1 else 2
  let unit := if 2 ≤ e then 1 <<< (e - 2).toNat else 1
  { low := (4 * m - below) * unit
    mid := 4 * m * unit
    high := (4 * m + 2) * unit
    den := if 2 ≤ e then 1 else 1 <<< (2 - e).toNat
    closed := m % 2 == 0 }

/-- The multiple `n * 10 ^ p` lies in the interval. -/
def Interval.holds (i : Interval) (n : Nat) (p : Int) : Bool :=
  let x := if 0 ≤ p then n * Nat.pow 10 p.toNat * i.den else n * i.den
  let scale := if 0 ≤ p then 1 else Nat.pow 10 (-p).toNat
  if i.closed then i.low * scale ≤ x && x ≤ i.high * scale
  else i.low * scale < x && x < i.high * scale

/-- The greatest multiple of `10 ^ p` that is not above the middle, as the
factor of `10 ^ p`, and whether the middle lies below, at or above the
half way to the next. -/
def Interval.floorAt (i : Interval) (p : Int) : Nat × Ordering :=
  let num := if 0 ≤ p then i.mid else i.mid * Nat.pow 10 (-p).toNat
  let den := if 0 ≤ p then i.den * Nat.pow 10 p.toNat else i.den
  (num / den, compare (2 * (num % den)) den)

/-- The multiple of `10 ^ p` in the interval that is nearest to the middle,
if there is one; `tieUp` says which of two equally near ones is taken. -/
def Interval.pick (tieUp : Bool) (i : Interval) (p : Int) : Option Nat :=
  let (n, half) := i.floorAt p
  match i.holds n p, i.holds (n + 1) p with
  | false, false => none
  | true, false => some n
  | false, true => some (n + 1)
  | true, true =>
    match half with
    | .lt => some n
    | .gt => some (n + 1)
    | .eq => if tieUp || n % 2 == 1 then some (n + 1) else some n

/-- The highest power of ten, from `10 ^ p` down over `steps` powers, that
has a multiple in the interval, with that multiple. -/
def Interval.search (tieUp : Bool) (i : Interval) : Nat → Int → Nat × Int
  | 0, p => (0, p)
  | steps + 1, p =>
    match i.pick tieUp p with
    | some n => (n, p)
    | none => i.search tieUp steps (p - 1)

/-- The digits and the exponent of ten of the shortest decimal that reads
back as a finite double other than zero.  No double reaches `10 ^ 309`, and
`10 ^ -324` has a multiple in every interval. -/
def shortest (tieUp : Bool) (x : Binary64) : Nat × Int :=
  (Interval.around x.significand x.exponent).search tieUp 640 309

end FunctionIR.Decimal
