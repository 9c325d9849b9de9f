import FunctionIR.Json.Reader
import Mathlib.Algebra.Group.Int.Defs
import Mathlib.Algebra.Group.Nat.Defs

/-!
# Which results are finite

Rounding to a double yields an infinite one only for what is too large.  The
bound here is not the sharp one; it is far above whatever a word can hold, and
that is all that is asked of it: a fraction that is at most `2 ^ 1020` is
rounded to a finite double (`nearest_lt_infinity`).

The value of a double is bounded by its exponent, so the bound is carried
through divisions by powers of ten: a number of a document that has a value
has a finite one (`realOfParts_finite`).
-/

namespace FunctionIR.Binary64

/-- A magnitude below the sign bit is read back from the word it is put in. -/
theorem magnitude_ofMagnitude {negative : Bool} {m : Nat} (h : m < 1 <<< 63) :
    (ofMagnitude negative m).magnitude = m := by
  simp only [Nat.one_shiftLeft] at h
  simp only [magnitude, ofMagnitude, UInt64.toNat_ofNat', Nat.one_shiftLeft]
  split <;> omega

/-- A magnitude below that of infinity makes a finite double. -/
theorem isFinite_ofMagnitude {negative : Bool} {m : Nat} (h : m < infinity) :
    (ofMagnitude negative m).isFinite = true := by
  have hbound : infinity < 1 <<< 63 := by decide
  simpa [isFinite, magnitude_ofMagnitude (Nat.lt_trans h hbound)] using h

/-- A finite double stays finite when its sign is turned. -/
theorem isFinite_neg {x : Binary64} (h : x.isFinite = true) : x.neg.isFinite = true :=
  isFinite_ofMagnitude (by simpa [isFinite] using h)

/-- Rounding adds at most one to the floor. -/
theorem roundHalfEven_le (n d : Nat) : roundHalfEven n d ≤ n / d + 1 := by
  unfold roundHalfEven
  simp only
  split
  · omega
  · split <;> omega

/-- A fraction that is scaled down by its logarithm has few digits. -/
theorem scaleDown_lt {num den : Nat} (hden : den ≠ 0) {e : Int}
    (he : (num.log2 : Int) - den.log2 - 53 ≤ e) :
    (scaleDown num den e).1 / (scaleDown num den e).2 < 2 ^ 54 := by
  have hnum : num < 2 ^ (num.log2 + 1) := Nat.lt_log2_self
  have hlow : 2 ^ den.log2 ≤ den := Nat.log2_self_le hden
  unfold scaleDown
  split
  next hpos =>
    rw [Nat.shiftLeft_eq]
    refine Nat.div_lt_of_lt_mul ?_
    calc num < 2 ^ (num.log2 + 1) := hnum
      _ ≤ 2 ^ (den.log2 + e.toNat + 54) := Nat.pow_le_pow_right (by omega) (by omega)
      _ = 2 ^ den.log2 * 2 ^ e.toNat * 2 ^ 54 := by rw [Nat.pow_add, Nat.pow_add]
      _ ≤ den * 2 ^ e.toNat * 2 ^ 54 :=
          Nat.mul_le_mul_right _ (Nat.mul_le_mul_right _ hlow)
  next hneg =>
    rw [Nat.shiftLeft_eq]
    refine Nat.div_lt_of_lt_mul ?_
    calc num * 2 ^ (-e).toNat < 2 ^ (num.log2 + 1) * 2 ^ (-e).toNat :=
          Nat.mul_lt_mul_of_pos_right hnum (Nat.two_pow_pos _)
      _ = 2 ^ (num.log2 + 1 + (-e).toNat) := (Nat.pow_add ..).symm
      _ ≤ 2 ^ (den.log2 + 54) := Nat.pow_le_pow_right (by omega) (by omega)
      _ = 2 ^ den.log2 * 2 ^ 54 := Nat.pow_add ..
      _ ≤ den * 2 ^ 54 := Nat.mul_le_mul_right _ hlow

/-- A quotient of at most `2 ^ k` bounds the logarithm of its numerator. -/
theorem log2_le_add {num den k : Nat} (hnum : num ≠ 0) (h : num ≤ den * 2 ^ k) :
    num.log2 ≤ den.log2 + k := by
  refine Nat.lt_succ_iff.mp ((Nat.log2_lt hnum).mpr ?_)
  calc num ≤ den * 2 ^ k := h
    _ < 2 ^ (den.log2 + 1) * 2 ^ k :=
        Nat.mul_lt_mul_of_pos_right Nat.lt_log2_self (Nat.two_pow_pos _)
    _ = 2 ^ (den.log2 + k + 1) := by rw [← Nat.pow_add]; congr 1; omega

/-- How large a fraction at most `2 ^ k` is rounded. -/
theorem nearest_le {num den k : Nat} (h : num ≤ den * 2 ^ k) :
    nearest num den ≤ (k + 1027) <<< 52 := by
  unfold nearest
  split
  · exact Nat.zero_le _
  next hne =>
    obtain ⟨hnum, hden⟩ := not_or.mp hne
    have hlog := log2_le_add hnum h
    simp only
    generalize hexp : max (-1074) _ = e
    have hlow : (num.log2 : Int) - den.log2 - 53 ≤ e := by
      split at hexp <;> omega
    have hhigh : (e + 1074).toNat ≤ k + 1022 := by
      split at hexp <;> omega
    have hround := roundHalfEven_le (scaleDown num den e).1 (scaleDown num den e).2
    have hquotient := scaleDown_lt hden hlow
    refine Nat.le_trans (Nat.min_le_right _ _) ?_
    simp only [Nat.shiftLeft_eq]
    omega

/-- **What is not too large is rounded to a finite double.** -/
theorem nearest_lt_infinity {num den k : Nat} (h : num ≤ den * 2 ^ k) (hk : k < 1020) :
    nearest num den < infinity := by
  refine Nat.lt_of_le_of_lt (nearest_le h) ?_
  simp only [infinity, Nat.shiftLeft_eq]
  omega

/-- Nothing is rounded beyond infinity. -/
theorem nearest_le_infinity (num den : Nat) : nearest num den ≤ infinity := by
  unfold nearest
  split
  · exact Nat.zero_le _
  · exact Nat.min_le_left _ _

/-- The one way for a rounded fraction not to be finite is to be infinite. -/
theorem isFinite_nearest {num den : Nat}
    (h : ¬ (ofMagnitude false (nearest num den)).isInfinite = true) :
    (ofMagnitude false (nearest num den)).isFinite = true := by
  have hbound : infinity < 1 <<< 63 := by decide
  have hle := nearest_le_infinity num den
  rw [isInfinite, magnitude_ofMagnitude (Nat.lt_of_le_of_lt hle hbound), beq_iff_eq] at h
  exact isFinite_ofMagnitude (by omega)

/-- A significand has at most 53 bits. -/
theorem significand_lt (x : Binary64) : x.significand < 2 ^ 53 := by
  unfold significand
  simp only [Nat.one_shiftLeft]
  split <;> omega

/-- The value of a double, sign apart, is at most `2 ^ k`. -/
def AtMost (k : Nat) (x : Binary64) : Prop := x.toFraction.1 ≤ x.toFraction.2 * 2 ^ k

/-- The exponent alone bounds a double. -/
theorem atMost_of_exponent {x : Binary64} {k : Nat} (h : x.exponent + 53 ≤ k) : x.AtMost k := by
  have hlt := x.significand_lt
  unfold AtMost toFraction
  split
  next hpos =>
    rw [Nat.shiftLeft_eq, Nat.one_mul]
    calc x.significand * 2 ^ x.exponent.toNat ≤ 2 ^ 53 * 2 ^ x.exponent.toNat :=
          Nat.mul_le_mul_right _ (Nat.le_of_lt hlt)
      _ = 2 ^ (53 + x.exponent.toNat) := (Nat.pow_add ..).symm
      _ ≤ 2 ^ k := Nat.pow_le_pow_right (by omega) (by omega)
  next hneg =>
    rw [Nat.one_shiftLeft, ← Nat.pow_add]
    exact Nat.le_trans (Nat.le_of_lt hlt) (Nat.pow_le_pow_right (by omega) (by omega))

/-- What is rounded is little more than it was. -/
theorem atMost_nearest {num den k : Nat} (h : num ≤ den * 2 ^ k) :
    (ofMagnitude false (nearest num den)).AtMost (k + 5) := by
  have hbound : infinity < 1 <<< 63 := by decide
  have hmagnitude := @magnitude_ofMagnitude false (nearest num den)
    (Nat.lt_of_le_of_lt (nearest_le_infinity num den) hbound)
  have hnearest := nearest_le h
  refine atMost_of_exponent ?_
  rw [exponent, hmagnitude, Nat.shiftRight_eq_div_pow]
  rw [Nat.shiftLeft_eq] at hnearest
  omega

/-- The value of a double is at least one. -/
def AtLeastOne (x : Binary64) : Prop := x.toFraction.2 ≤ x.toFraction.1

/-- Dividing by what is at least one keeps the bound. -/
theorem div_bound {x y : Binary64} {k : Nat} (hx : x.AtMost k) (hy : y.AtLeastOne) :
    x.toFraction.1 * y.toFraction.2 ≤ x.toFraction.2 * y.toFraction.1 * 2 ^ k :=
  calc x.toFraction.1 * y.toFraction.2 ≤ x.toFraction.2 * 2 ^ k * y.toFraction.1 :=
        Nat.mul_le_mul hx hy
    _ = x.toFraction.2 * y.toFraction.1 * 2 ^ k := by
        rw [Nat.mul_assoc, Nat.mul_comm (2 ^ k), ← Nat.mul_assoc]

/-- The quotient of a bounded double by one that is at least one is finite. -/
theorem isFinite_div {x y : Binary64} {k : Nat} (hx : x.AtMost k) (hy : y.AtLeastOne)
    (hk : k < 1020) : (x.div y).isFinite = true :=
  isFinite_ofMagnitude (nearest_lt_infinity (div_bound hx hy) hk)

/-- A division by a double of at least one adds at most five to the bound. -/
theorem atMost_div {x y : Binary64} {k : Nat} (hx : x.AtMost k) (hy : y.AtLeastOne) :
    (x.div y).AtMost (k + 5) := atMost_nearest (div_bound hx hy)

end FunctionIR.Binary64

namespace FunctionIR.Json

open Binary64

/-- The powers of ten that a number is divided by are none of the small
doubles. -/
theorem atLeastOne_powerOfTen {power : Nat} (h : power ≤ 308) : (powerOfTen power).AtLeastOne := by
  have hall : ∀ power < 309,
      (powerOfTen power).toFraction.2 ≤ (powerOfTen power).toFraction.1 := by
    decide +kernel
  exact hall power (by omega)

/-- **The value of a number is finite**, if it has one. -/
theorem realOfParts_finite {significand : Nat} {exponent : Int} {x : Binary64}
    (hsignificand : significand < 2 ^ 64) (h : realOfParts significand exponent = some x) :
    x.isFinite = true := by
  have hstart : significand ≤ 1 * 2 ^ 64 := by omega
  have hatMost := atMost_nearest hstart
  have hfinite (negative : Bool) := @isFinite_ofMagnitude negative _
    (nearest_lt_infinity hstart (by omega))
  unfold realOfParts at h
  simp only at h
  split at h
  · cases h
    exact hfinite false
  split at h
  · cases h
  split at h
  · -- A product is refused if it is infinite.
    split at h
    · cases h
    next hinfinite =>
      cases h
      exact isFinite_nearest hinfinite
  split at h
  · cases h
    exact isFinite_div hatMost (atLeastOne_powerOfTen (by omega)) (by omega)
  split at h
  · cases h
    exact isFinite_ofMagnitude (by decide)
  · cases h
    exact isFinite_div (atMost_div hatMost (atLeastOne_powerOfTen (by omega)))
      (atLeastOne_powerOfTen (by omega)) (by omega)

end FunctionIR.Json
