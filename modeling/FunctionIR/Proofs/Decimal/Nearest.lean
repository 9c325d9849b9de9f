import FunctionIR.Proofs.Decimal.Finite
import FunctionIR.Proofs.Decimal.Intervals
import Mathlib.Algebra.Order.AbsoluteValue.Basic

/-!
# The nearest double

A decimal is rounded to the double that is nearest to it, and where two are as near, to
the one with the even significand (`Binary64.IsNearest`).  Beyond half way from the
largest finite double to the next power of two there is only the infinite one.

The quotient of the decimal and a power of two is rounded to an integer first
(`roundHalfEven_spec`).  The power is such that this integer has as many digits as a
significand may have (`exists_scale`), so it and the power make a magnitude
(`parts_of_magnitude`), and the boundaries around the integer are those around the
magnitude (`nearest_settles`).  What lies between the boundaries of a magnitude is
nearest to it, as these are half way to its neighbours (`nearest_of_settles`).
-/

namespace FunctionIR

namespace Decimal

open Binary64

/-! ### The numbers of magnitudes -/

/-- The number that a magnitude stands for. -/
def valueOf (magnitude : Nat) : ℚ := significandOf magnitude * 2 ^ exponentOf magnitude

/-- From a magnitude to the next the number grows by the power of two. -/
theorem valueOf_succ (k : Nat) : valueOf (k + 1) = valueOf k + 2 ^ exponentOf k := by
  unfold valueOf
  rcases magnitude_step k with ⟨hexp, hsig, -⟩ | ⟨hexp, hsig, hlast, -⟩
  · rw [hexp, hsig]
    push_cast
    ring
  · rw [hexp, hsig, hlast, zpow_add_one₀ (by norm_num)]
    push_cast
    ring

/-- The values of the magnitudes grow with them. -/
theorem valueOf_strictMono : StrictMono valueOf := by
  refine strictMono_nat_of_lt_succ fun k => ?_
  have hpos : (0 : ℚ) < 2 ^ exponentOf k := by positivity
  rw [valueOf_succ]
  linarith

/-- The boundary is half way from the one number to the next. -/
theorem upper_eq_half (k : Nat) : upper k = (valueOf k + valueOf (k + 1)) / 2 := by
  rw [valueOf_succ, upper, valueOf]
  ring

/-- An integer that has as many digits as a significand may have, and an exponent, are
those of the magnitude that they make. -/
theorem parts_of_magnitude {r a : Nat} (hr : r < 2 ^ 53) (hlow : a = 0 ∨ 2 ^ 52 ≤ r) :
    significandOf (r + a * 2 ^ 52) = r ∧ exponentOf (r + a * 2 ^ 52) = a - 1074 := by
  unfold significandOf exponentOf
  split <;> omega

/-! ### What rounds to a magnitude -/

/-- The number lies between the boundaries of the magnitude, and beyond a boundary only if
the magnitude is not odd.  There is no boundary below zero and none above infinity. -/
structure Settles (q : ℚ) (m : Nat) : Prop where
  below : ∀ k, m = k + 1 → upper k ≤ q ∧ (m % 2 = 1 → upper k < q)
  above : m < infinity → q ≤ upper m ∧ (m % 2 = 1 → q < upper m)
  bound : m ≤ infinity

/-- **What lies between the boundaries of a magnitude is nearest to its number**, and as
near to another one only if the magnitude is even. -/
theorem nearest_of_settles {q : ℚ} {m n : Nat} (h : Settles q m) (hm : m < infinity) :
    |q - valueOf m| ≤ |q - valueOf n| ∧
      (|q - valueOf m| = |q - valueOf n| → n = m ∨ m % 2 = 0) := by
  -- the boundary towards `n` is half way to the neighbour, which is no farther than `n`
  rcases Nat.lt_trichotomy n m with hlt | rfl | hlt
  · obtain ⟨k, rfl⟩ := Nat.exists_eq_succ_of_ne_zero (Nat.ne_zero_of_lt hlt)
    obtain ⟨hle, hodd⟩ := h.below k rfl
    have hn : valueOf n ≤ valueOf k := valueOf_strictMono.monotone (by omega)
    have hk : valueOf k < valueOf (k + 1) := valueOf_strictMono (Nat.lt_succ_self k)
    rw [upper_eq_half] at hle hodd
    have hnear : |q - valueOf (k + 1)| ≤ q - valueOf n := abs_le.mpr ⟨by linarith, by linarith⟩
    refine ⟨hnear.trans (le_abs_self _), fun heq => .inr ?_⟩
    by_contra hparity
    have hstrict := hodd (by omega)
    have hnearer : |q - valueOf (k + 1)| < q - valueOf n := abs_lt.mpr ⟨by linarith, by linarith⟩
    exact absurd heq (ne_of_lt (hnearer.trans_le (le_abs_self _)))
  · exact ⟨le_refl _, fun _ => .inl rfl⟩
  · obtain ⟨hle, hodd⟩ := h.above hm
    have hn : valueOf (m + 1) ≤ valueOf n := valueOf_strictMono.monotone hlt
    have hk : valueOf m < valueOf (m + 1) := valueOf_strictMono (Nat.lt_succ_self m)
    rw [upper_eq_half] at hle hodd
    have hnear : |q - valueOf m| ≤ -(q - valueOf n) := abs_le.mpr ⟨by linarith, by linarith⟩
    refine ⟨hnear.trans (neg_le_abs _), fun heq => .inr ?_⟩
    by_contra hparity
    have hstrict := hodd (by omega)
    have hnearer : |q - valueOf m| < -(q - valueOf n) := abs_lt.mpr ⟨by linarith, by linarith⟩
    exact absurd heq (ne_of_lt (hnearer.trans_le (neg_le_abs _)))

/-! ### Rounding a quotient -/

/-- The integer is at most a half away from the number, and less than a half if it is
odd. -/
def RoundsTo (q : ℚ) (r : Nat) : Prop :=
  (r : ℚ) - 1 / 2 ≤ q ∧ q ≤ r + 1 / 2 ∧ (r % 2 = 1 → (r : ℚ) - 1 / 2 < q ∧ q < r + 1 / 2)

/-- Rounding a quotient gives the nearest natural number, the even one of two. -/
theorem roundHalfEven_roundsTo (n : Nat) {d : Nat} (hd : 0 < d) :
    RoundsTo (n / d) (roundHalfEven n d) := by
  -- the quotient is an integer and a fraction, above a half if twice the rest is above `d`
  have hpos : (0 : ℚ) < d := by exact_mod_cast hd
  have hsplit : (n / d : ℚ) = (n / d : Nat) + (n % d : Nat) / d := by
    rw [eq_comm, ← eq_sub_iff_add_eq', div_eq_iff hpos.ne', sub_mul, div_mul_cancel₀ _ hpos.ne']
    rw [eq_sub_iff_add_eq']
    exact_mod_cast Nat.div_add_mod' n d
  have hnonneg : (0 : ℚ) ≤ (n % d : Nat) / d := by positivity
  have hrest : ((n % d : Nat) : ℚ) / d < 1 := by
    rw [div_lt_one hpos]
    exact_mod_cast Nat.mod_lt n hd
  have hhalf : ((n % d : Nat) : ℚ) / d < 1 / 2 ↔ 2 * (n % d) < d := by
    rw [div_lt_iff₀ hpos, ← mul_lt_mul_iff_right₀ (by norm_num : (0 : ℚ) < 2)]
    rw [show (2 : ℚ) * (1 / 2 * d) = d by ring]
    exact_mod_cast Iff.rfl
  have hhalf' : 1 / 2 < ((n % d : Nat) : ℚ) / d ↔ d < 2 * (n % d) := by
    rw [lt_div_iff₀ hpos, ← mul_lt_mul_iff_right₀ (by norm_num : (0 : ℚ) < 2)]
    rw [show (2 : ℚ) * (1 / 2 * d) = d by ring]
    exact_mod_cast Iff.rfl
  rw [RoundsTo, hsplit]
  generalize ((n % d : Nat) : ℚ) / d = t at *
  unfold roundHalfEven
  simp only
  split
  next h =>
    have ht := hhalf.mpr h
    exact ⟨by linarith, by linarith, fun _ => ⟨by linarith, by linarith⟩⟩
  next h =>
    split
    next h' =>
      have ht := hhalf'.mpr h'
      push_cast
      exact ⟨by linarith, by linarith, fun _ => ⟨by linarith, by linarith⟩⟩
    next h' =>
      have ht : t = 1 / 2 := le_antisymm (not_lt.mp (mt hhalf'.mp h')) (not_lt.mp (mt hhalf.mp h))
      rcases Nat.mod_two_eq_zero_or_one (n / d) with heven | hodd
      · rw [heven]
        exact ⟨by push_cast; linarith, by push_cast; linarith, fun h => absurd h (by omega)⟩
      · rw [hodd]
        exact ⟨by push_cast; linarith, by push_cast; linarith, fun h => absurd h (by omega)⟩

/-- A fraction over a power of two. -/
theorem scaleDown_spec (num : Nat) {den : Nat} (hden : 0 < den) (e : Int) :
    0 < (scaleDown num den e).2 ∧
      ((scaleDown num den e).1 / (scaleDown num den e).2 : ℚ) = num / den / 2 ^ e := by
  unfold scaleDown
  split
  next he =>
    obtain ⟨k, rfl⟩ := Int.eq_ofNat_of_zero_le he
    simp only [Int.toNat_natCast, Nat.shiftLeft_eq]
    refine ⟨Nat.mul_pos hden (Nat.two_pow_pos k), ?_⟩
    push_cast
    rw [zpow_natCast, div_div]
  next he =>
    obtain ⟨k, hk⟩ := Int.eq_ofNat_of_zero_le (show 0 ≤ -e by omega)
    obtain rfl : e = -k := by omega
    simp only [neg_neg, Int.toNat_natCast, Nat.shiftLeft_eq]
    refine ⟨hden, ?_⟩
    push_cast
    rw [zpow_neg, zpow_natCast, div_inv_eq_mul]
    ring

/-- A whole quotient is below a bound if the fraction is. -/
theorem quotient_lt_iff (num : Nat) {den : Nat} (hden : 0 < den) (e : Int) (k : Nat) :
    (scaleDown num den e).1 / (scaleDown num den e).2 < 1 <<< k ↔
      (num / den : ℚ) < 2 ^ k * 2 ^ e := by
  obtain ⟨hpos, hquotient⟩ := scaleDown_spec num hden e
  have hpos' : (0 : ℚ) < (scaleDown num den e).2 := by exact_mod_cast hpos
  have hpower : (0 : ℚ) < 2 ^ e := by positivity
  rw [Nat.div_lt_iff_lt_mul hpos, Nat.one_shiftLeft, ← div_lt_iff₀ hpower, ← hquotient,
    div_lt_iff₀ hpos']
  exact_mod_cast Iff.rfl

/-- The exponent at which a fraction has about as many digits as a significand. -/
def lowExponent (num den : Nat) : Int := (num.log2 : Int) - den.log2 - 53

/-- The lower of the two exponents in question puts the quotient into two adjacent binades. -/
theorem lowExponent_spec {num den : Nat} (hnum : num ≠ 0) (hden : den ≠ 0) :
    (2 : ℚ) ^ 52 * 2 ^ lowExponent num den ≤ num / den ∧
      (num / den : ℚ) < 2 ^ 54 * 2 ^ lowExponent num den := by
  have hpower (k : Nat) (i : Int) : (2 : ℚ) ^ k * 2 ^ i = 2 ^ (k + i) := by
    rw [zpow_add₀ two_ne_zero, zpow_natCast]
  have hquotient (i j : Nat) : (2 : ℚ) ^ i / 2 ^ j = 2 ^ ((i : Int) - j) := by
    rw [zpow_sub₀ two_ne_zero, zpow_natCast, zpow_natCast]
  have hnumLow : (2 : ℚ) ^ num.log2 ≤ num := by exact_mod_cast Nat.log2_self_le hnum
  have hnumHigh : (num : ℚ) < 2 ^ (num.log2 + 1) := by exact_mod_cast Nat.lt_log2_self
  have hdenLow : (2 : ℚ) ^ den.log2 ≤ den := by exact_mod_cast Nat.log2_self_le hden
  have hdenHigh : (den : ℚ) < 2 ^ (den.log2 + 1) := by exact_mod_cast Nat.lt_log2_self
  have hpos : (0 : ℚ) < den := by exact_mod_cast Nat.pos_of_ne_zero hden
  unfold lowExponent
  constructor
  · calc (2 : ℚ) ^ 52 * 2 ^ ((num.log2 : Int) - den.log2 - 53)
        = 2 ^ num.log2 / 2 ^ (den.log2 + 1) := by
          rw [hpower, hquotient]
          congr 1
          push_cast
          ring
      _ ≤ num / 2 ^ (den.log2 + 1) := by gcongr
      _ ≤ num / den := by gcongr
  · calc (num / den : ℚ) ≤ num / 2 ^ den.log2 := by gcongr
      _ < 2 ^ (num.log2 + 1) / 2 ^ den.log2 := by gcongr
      _ = 2 ^ 54 * 2 ^ ((num.log2 : Int) - den.log2 - 53) := by
          rw [hpower, hquotient]
          congr 1
          push_cast
          ring

/-- The exponent that a fraction is rounded at. -/
def roundingExponent (num den : Nat) : Int :=
  max (-1074)
    (if (scaleDown num den (lowExponent num den)).1 / (scaleDown num den (lowExponent num den)).2 <
        1 <<< 53 then lowExponent num den else lowExponent num den + 1)

/-- The fraction over this power of two has no more digits than a significand, and no
fewer unless the exponent is the least one. -/
theorem roundingExponent_spec {num den : Nat} (hnum : num ≠ 0) (hden : den ≠ 0) :
    (num / den : ℚ) < 2 ^ 53 * 2 ^ roundingExponent num den ∧
      (-1074 < roundingExponent num den →
        (2 : ℚ) ^ 52 * 2 ^ roundingExponent num den ≤ num / den) := by
  obtain ⟨e, hrounding, hlow, hhigh⟩ : ∃ e, roundingExponent num den = max (-1074) e ∧
      (2 : ℚ) ^ 52 * 2 ^ e ≤ num / den ∧ (num / den : ℚ) < 2 ^ 53 * 2 ^ e := by
    obtain ⟨hlow, hhigh⟩ := lowExponent_spec hnum hden
    have hiff := quotient_lt_iff num (Nat.pos_of_ne_zero hden) (lowExponent num den) 53
    refine ⟨_, rfl, ?_⟩
    split
    next h => exact ⟨hlow, hiff.mp h⟩
    next h =>
      have hdigits := not_lt.mp (mt hiff.mpr h)
      rw [zpow_add_one₀ two_ne_zero]
      exact ⟨by linarith, by linarith⟩
  rw [hrounding]
  constructor
  · refine hhigh.trans_le ?_
    gcongr
    · norm_num
    · exact le_max_right _ _
  · intro hleast
    rwa [max_eq_right (by omega)]

section

variable {q : ℚ} {r a : Nat} (hround : RoundsTo (q / 2 ^ ((a : Int) - 1074)) r)
  (hhigh : q < 2 ^ 53 * 2 ^ ((a : Int) - 1074))
  (hlow : a = 0 ∨ (2 : ℚ) ^ 52 * 2 ^ ((a : Int) - 1074) ≤ q)

include hround hhigh hlow

/-- The rounded quotient has the digits of a significand, or it has been rounded up to one
digit more. -/
theorem digits_of_rounded : r ≤ 2 ^ 53 ∧ (a = 0 ∨ 2 ^ 52 ≤ r) := by
  have hpower : (0 : ℚ) < 2 ^ ((a : Int) - 1074) := by positivity
  obtain ⟨hbelow, habove, -⟩ := hround
  constructor
  · rw [← div_lt_iff₀ hpower] at hhigh
    have hlt : (r : ℚ) < (2 ^ 53 + 1 : Nat) := by
      push_cast
      linarith
    exact Nat.lt_succ_iff.mp (by exact_mod_cast hlt)
  · refine hlow.imp_right fun hlow => ?_
    rw [← le_div_iff₀ hpower] at hlow
    have hlt : ((2 ^ 52 : Nat) : ℚ) < (r + 1 : Nat) := by
      push_cast
      linarith
    exact Nat.lt_succ_iff.mp (by exact_mod_cast hlt)

/-- The number is below the boundary of the magnitude. -/
theorem le_upper_of_rounded : q ≤ upper (r + a * 2 ^ 52) ∧
    ((r + a * 2 ^ 52) % 2 = 1 → q < upper (r + a * 2 ^ 52)) := by
  have hpower : (0 : ℚ) < 2 ^ ((a : Int) - 1074) := by positivity
  obtain ⟨hmost, hleast⟩ := digits_of_rounded hround hhigh hlow
  obtain ⟨-, habove, hodd⟩ := hround
  rcases Nat.lt_or_eq_of_le hmost with hlt | rfl
  · obtain ⟨hsig, hexp⟩ := parts_of_magnitude hlt hleast
    rw [upper, hsig, hexp, ← div_le_iff₀ hpower, ← div_lt_iff₀ hpower]
    exact ⟨habove, fun h => (hodd (by omega)).2⟩
  · -- The quotient was rounded up to a power of two: the next exponent.
    have hmagnitude : 2 ^ 53 + a * 2 ^ 52 = 2 ^ 52 + (a + 1) * 2 ^ 52 := by ring
    obtain ⟨hsig, hexp⟩ :=
      parts_of_magnitude (r := 2 ^ 52) (a := a + 1) (by decide) (.inr (le_refl _))
    have hlt : q < upper (2 ^ 53 + a * 2 ^ 52) := by
      rw [hmagnitude, upper, hsig, hexp, show ((a + 1 : Nat) : Int) - 1074 = a - 1074 + 1 by omega,
        zpow_add_one₀ two_ne_zero]
      push_cast
      linarith
    exact ⟨hlt.le, fun _ => hlt⟩

/-- The number is above the boundary of the magnitude before. -/
theorem upper_le_of_rounded {k : Nat} (hk : r + a * 2 ^ 52 = k + 1) :
    upper k ≤ q ∧ ((r + a * 2 ^ 52) % 2 = 1 → upper k < q) := by
  have hpower : (0 : ℚ) < 2 ^ ((a : Int) - 1074) := by positivity
  obtain ⟨hmost, hleast⟩ := digits_of_rounded hround hhigh hlow
  obtain ⟨hbelow, -, hodd⟩ := hround
  by_cases hfirst : a ≠ 0 ∧ r = 2 ^ 52
  · -- The magnitude before has the exponent before, and the number was not rounded down.
    obtain ⟨hne, rfl⟩ := hfirst
    obtain ⟨b, rfl⟩ := Nat.exists_eq_succ_of_ne_zero hne
    obtain rfl : k = 2 ^ 53 - 1 + b * 2 ^ 52 := by omega
    obtain ⟨hsig, hexp⟩ :=
      parts_of_magnitude (r := 2 ^ 53 - 1) (a := b) (by decide) (.inr (by decide))
    have hlow := hlow.resolve_left hne
    rw [show ((b + 1 : Nat) : Int) - 1074 = b - 1074 + 1 by omega, zpow_add_one₀ two_ne_zero]
      at hlow
    have hpower : (0 : ℚ) < 2 ^ ((b : Int) - 1074) := by positivity
    have hlt : upper (2 ^ 53 - 1 + b * 2 ^ 52) < q := by
      rw [upper, hsig, hexp]
      push_cast
      linarith
    exact ⟨hlt.le, fun _ => hlt⟩
  · obtain ⟨s, rfl⟩ : ∃ s, r = s + 1 := ⟨r - 1, by omega⟩
    obtain rfl : k = s + a * 2 ^ 52 := by omega
    obtain ⟨hsig, hexp⟩ := parts_of_magnitude (r := s) (a := a) (by omega) (by omega)
    push_cast at hbelow hodd
    rw [upper, hsig, hexp, ← le_div_iff₀ hpower, ← lt_div_iff₀ hpower]
    exact ⟨by linarith, fun h => by linarith [(hodd (by omega)).1]⟩

/-- What is between the boundaries settles, at infinity if the magnitude is beyond. -/
theorem settles_of_rounded : Settles q (min infinity (r + a * 2 ^ 52)) := by
  have hbelow {k : Nat} := upper_le_of_rounded (k := k) hround hhigh hlow
  have habove := le_upper_of_rounded hround hhigh hlow
  rcases Nat.lt_or_ge (r + a * 2 ^ 52) infinity with hlt | hge
  · rw [min_eq_right hlt.le]
    exact ⟨fun k hk => hbelow hk, fun _ => habove, hlt.le⟩
  · rw [min_eq_left hge]
    refine ⟨fun k hk => ?_, fun h => absurd h (lt_irrefl _), le_refl _⟩
    obtain ⟨l, hl⟩ := Nat.exists_eq_succ_of_ne_zero (Nat.ne_zero_of_lt (hk ▸ hge))
    have hle : upper k ≤ upper l := upper_strictMono.monotone (by omega)
    refine ⟨hle.trans (hbelow hl).1, fun hodd => ?_⟩
    exact absurd hodd (by decide)

end

/-- The nearest magnitude is the rounded quotient on the scale of its exponent, and infinity at
most. -/
theorem nearest_eq {num den : Nat} (hnum : num ≠ 0) (hden : den ≠ 0) :
    nearest num den =
      min infinity (roundHalfEven (scaleDown num den (roundingExponent num den)).1
          (scaleDown num den (roundingExponent num den)).2 +
        (roundingExponent num den + 1074).toNat <<< 52) := by
  rw [nearest, if_neg (by simp [hnum, hden])]
  rfl

/-- **A fraction settles at the magnitude that is found.** -/
theorem settles_nearest (num : Nat) {den : Nat} (hden : den ≠ 0) :
    Settles (num / den) (nearest num den) := by
  by_cases hnum : num = 0
  · rw [hnum, nearest, if_pos (.inl rfl)]
    refine ⟨nofun, fun _ => ⟨?_, nofun⟩, Nat.zero_le _⟩
    rw [upper]
    simp only [Nat.cast_zero, zero_div]
    positivity
  · obtain ⟨hhigh, hlow⟩ := roundingExponent_spec hnum hden
    obtain ⟨hpos, hquotient⟩ :=
      scaleDown_spec num (Nat.pos_of_ne_zero hden) (roundingExponent num den)
    rw [nearest_eq hnum hden, Nat.shiftLeft_eq]
    have hround := roundHalfEven_roundsTo (scaleDown num den (roundingExponent num den)).1 hpos
    rw [hquotient] at hround
    have hleast : -1074 ≤ roundingExponent num den := le_max_left _ _
    obtain ⟨a, ha⟩ := Int.eq_ofNat_of_zero_le (show 0 ≤ roundingExponent num den + 1074 by omega)
    have hexponent : roundingExponent num den = a - 1074 := by omega
    rw [ha, Int.toNat_natCast]
    rw [hexponent] at hround hhigh hlow
    rw [hexponent]
    refine settles_of_rounded hround hhigh ?_
    rcases Nat.eq_zero_or_pos a with hzero | hpositive
    · exact .inl hzero
    · exact .inr (hlow (by omega))

/-- The boundary of the largest finite double. -/
theorem upper_last {k : Nat} (hk : infinity = k + 1) : upper k = (2 ^ 54 - 1) * 2 ^ 970 := by
  obtain rfl : k = infinity - 1 := by omega
  have hsig : significandOf (infinity - 1) = 2 ^ 53 - 1 := by decide
  have hexp : exponentOf (infinity - 1) = 971 := by decide
  rw [upper, hsig, hexp, show (971 : Int) = (970 : Nat) + 1 by decide, zpow_add_one₀ two_ne_zero,
    zpow_natCast]
  generalize (2 : ℚ) ^ 970 = power
  norm_num
  ring

/-- What settles is infinite from the last boundary on. -/
theorem Settles.lt_infinity_iff {q : ℚ} {m : Nat} (h : Settles q m) :
    m < infinity ↔ q < (2 ^ 54 - 1) * 2 ^ 970 := by
  obtain ⟨k, hk⟩ : ∃ k, infinity = k + 1 := ⟨infinity - 1, by decide⟩
  rw [← upper_last hk]
  constructor
  · intro hm
    obtain ⟨hle, hodd⟩ := h.above hm
    rcases Nat.lt_or_eq_of_le (show m ≤ k by omega) with hlt | rfl
    · exact hle.trans_lt (upper_strictMono hlt)
    · exact hodd (by rw [show m = infinity - 1 by omega]; decide)
  · intro hq
    by_contra hm
    obtain rfl : m = infinity := le_antisymm h.bound (not_lt.mp hm)
    exact absurd hq (not_lt.mpr (h.below k hk).1)

/-! ### Decimals -/

/-- Above the least boundary nothing rounds to zero. -/
theorem upper_zero : upper 0 = 2 ^ (-1075 : Int) := by
  have hsig : significandOf 0 = 0 := by decide
  have hexp : exponentOf 0 = -1074 := by decide
  rw [upper, hsig, hexp, show (-1074 : Int) = -1075 + 1 by decide, zpow_add_one₀ two_ne_zero]
  ring

theorem settles_zero {q : ℚ} (h : q ≤ upper 0) : Settles q 0 :=
  ⟨nofun, fun _ => ⟨h, nofun⟩, Nat.zero_le _⟩

/-- From half a unit above the largest finite double on, everything settles to infinity. -/
theorem settles_infinity {q : ℚ} (h : (2 ^ 54 - 1) * 2 ^ 970 ≤ q) : Settles q infinity where
  below k hk := by
    rw [upper_last hk]
    exact ⟨h, fun hodd => absurd hodd (by decide)⟩
  above h := absurd h (lt_irrefl _)
  bound := le_refl _

/-- Beyond this power of ten all numbers are infinite. -/
theorem limit_le_of_large {digits : Nat} {exponent : Int} (hdigits : digits ≠ 0)
    (hlarge : 400 < exponent) : ((2 : ℚ) ^ 54 - 1) * 2 ^ 970 ≤ digits * 10 ^ exponent := by
  have hone : (1 : ℚ) ≤ digits := by exact_mod_cast Nat.one_le_iff_ne_zero.mpr hdigits
  have hpower : (10 : ℚ) ^ (401 : Int) ≤ 10 ^ exponent :=
    zpow_le_zpow_right₀ (by norm_num) (by omega)
  have hbound : 2 ^ 54 * 2 ^ 970 ≤ 10 ^ 401 := by decide +kernel
  calc ((2 : ℚ) ^ 54 - 1) * 2 ^ 970 ≤ 2 ^ 54 * 2 ^ 970 := by
        gcongr
        exact sub_le_self _ zero_le_one
    _ ≤ 1 * 10 ^ (401 : Int) := by
        rw [one_mul, show (401 : Int) = (401 : Nat) from rfl, zpow_natCast]
        exact_mod_cast hbound
    _ ≤ digits * 10 ^ exponent := by gcongr

/-- Numbers of few digits below a small power of ten are zero. -/
theorem le_upper_of_small {digits : Nat} {exponent : Int} (hneg : exponent < 0)
    (hsmall : (digits.log2 : Int) + 1 + 3 * exponent < -1080) :
    (digits * 10 ^ exponent : ℚ) ≤ upper 0 := by
  have hdigits : (digits : ℚ) ≤ 2 ^ ((digits.log2 : Int) + 1) := by
    exact_mod_cast (Nat.lt_log2_self (n := digits)).le
  have hpower : (10 : ℚ) ^ exponent ≤ 2 ^ (3 * exponent) := by
    obtain ⟨k, rfl⟩ : ∃ k : Nat, exponent = -k := ⟨(-exponent).toNat, by omega⟩
    rw [zpow_mul, zpow_neg, zpow_neg, zpow_natCast, zpow_natCast]
    gcongr
    norm_num
  rw [upper_zero]
  calc (digits * 10 ^ exponent : ℚ) ≤ 2 ^ ((digits.log2 : Int) + 1) * 2 ^ (3 * exponent) := by
        gcongr
    _ = 2 ^ ((digits.log2 : Int) + 1 + 3 * exponent) := (zpow_add₀ two_ne_zero _ _).symm
    _ ≤ 2 ^ (-1075 : Int) := zpow_le_zpow_right₀ (by norm_num) (by omega)

/-- **A decimal settles at the magnitude that it is read as.** -/
theorem settles_ofDecimal (negative : Bool) (digits : Nat) (exponent : Int) :
    ∃ m, ofDecimal negative digits exponent = ofMagnitude negative m ∧
      Settles (digits * 10 ^ exponent) m := by
  refine ⟨_, rfl, ?_⟩
  split_ifs with hzero hpositive hlarge hsmall
  · refine settles_zero ?_
    rw [hzero, Nat.cast_zero, zero_mul, upper_zero]
    positivity
  · exact settles_infinity (limit_le_of_large hzero hlarge)
  · obtain ⟨k, rfl⟩ := Int.eq_ofNat_of_zero_le hpositive
    have hsettles := settles_nearest (digits * Nat.pow 10 k) one_ne_zero
    rw [Int.toNat_natCast, zpow_natCast]
    rw [Nat.pow_eq, Nat.cast_one, div_one] at hsettles
    exact_mod_cast hsettles
  · exact settles_zero (le_upper_of_small (by omega) hsmall)
  · obtain ⟨k, rfl⟩ : ∃ k : Nat, exponent = -k := ⟨(-exponent).toNat, by omega⟩
    have hsettles := settles_nearest digits (pow_ne_zero k (by decide : 10 ≠ 0))
    rw [neg_neg, Int.toNat_natCast, Nat.pow_eq, zpow_neg, zpow_natCast, ← div_eq_mul_inv]
    exact_mod_cast hsettles

end Decimal

namespace Binary64

open Decimal

/-- The number that a finite double stands for, sign apart. -/
def size (x : Binary64) : ℚ := x.significand * 2 ^ x.exponent

/-- The double is the nearest one to the number of the sign and the size: no other one is
nearer, and as near is one only if the significand is even.  From half way between the
largest finite double and the next power of two on it is infinite. -/
structure IsNearest (x : Binary64) (negative : Bool) (q : ℚ) : Prop where
  sign : x.isNegative = negative
  finite : x.isFinite = true ↔ q < (2 ^ 54 - 1) * 2 ^ 970
  nearest : x.isFinite = true → ∀ y : Binary64, y.isFinite = true → |q - x.size| ≤ |q - y.size|
  even : x.isFinite = true → ∀ y : Binary64, y.isFinite = true →
    |q - x.size| = |q - y.size| → y.size = x.size ∨ x.significand % 2 = 0
  infinite : x.isFinite = false → x.isInfinite = true

/-- The size of a double is the value of its magnitude. -/
theorem size_eq (x : Binary64) : x.size = valueOf x.magnitude := by
  rw [size, significand_eq, exponent_eq, valueOf]

/-- The sign of a made double is the one it was made with. -/
theorem isNegative_ofMagnitude (negative : Bool) (m : Nat) :
    (ofMagnitude negative m).isNegative = negative := by
  simp only [isNegative, ofMagnitude, UInt64.toNat_ofNat', Nat.one_shiftLeft]
  cases negative <;> simp <;> omega

/-- **A decimal is read as the nearest double**, and if two are as near, as the one with
the even significand. -/
theorem ofDecimal_isNearest (negative : Bool) (digits : Nat) (exponent : Int) :
    (ofDecimal negative digits exponent).IsNearest negative (digits * 10 ^ exponent) := by
  obtain ⟨m, heq, hsettles⟩ := settles_ofDecimal negative digits exponent
  have hword : infinity < 1 <<< 63 := by decide
  have hmagnitude : (ofMagnitude negative m).magnitude = m :=
    magnitude_ofMagnitude (Nat.lt_of_le_of_lt hsettles.bound hword)
  have hfinite : (ofMagnitude negative m).isFinite = true ↔ m < infinity := by
    rw [isFinite, hmagnitude, decide_eq_true_iff]
  rw [heq]
  constructor
  · exact isNegative_ofMagnitude negative m
  · rw [hfinite]
    exact hsettles.lt_infinity_iff
  · intro hx y _
    rw [size_eq, size_eq, hmagnitude]
    exact (nearest_of_settles hsettles (hfinite.mp hx)).1
  · intro hx y _ hsame
    rw [size_eq, size_eq, hmagnitude] at hsame
    rw [size_eq, size_eq, hmagnitude, significand_eq, significandOf_mod_two, hmagnitude]
    exact ((nearest_of_settles hsettles (hfinite.mp hx)).2 hsame).imp_left (congrArg valueOf)
  · intro hx
    have hbeyond : ¬ m < infinity := mt hfinite.mpr (by simp [hx])
    have hsame : m = infinity := le_antisymm hsettles.bound (not_lt.mp hbeyond)
    rw [isInfinite, hmagnitude, hsame]
    rfl

/-! ### There is only one -/

/-- Sign and magnitude determine a double. -/
theorem eq_of_magnitude {x y : Binary64} (hsign : x.isNegative = y.isNegative)
    (hmagnitude : x.magnitude = y.magnitude) : x = y := by
  obtain ⟨bits⟩ := x
  obtain ⟨bits'⟩ := y
  have hlt := bits.toNat_lt
  have hlt' := bits'.toNat_lt
  simp only [isNegative, magnitude, Nat.one_shiftLeft, decide_eq_decide] at hsign hmagnitude
  exact congrArg Binary64.mk (UInt64.toNat_inj.mp (by omega))

/-- Between two magnitudes that are even there is a nearer one. -/
theorem nearer_of_even {q : ℚ} {m n : Nat} (hlt : m < n) (hm : m % 2 = 0) (hn : n % 2 = 0)
    (hsame : |q - valueOf m| = |q - valueOf n|) :
    |q - valueOf (m + 1)| < |q - valueOf m| := by
  have hbelow : valueOf m < valueOf (m + 1) := valueOf_strictMono (Nat.lt_succ_self m)
  have habove : valueOf (m + 1) < valueOf n := valueOf_strictMono (by omega)
  have hmiddle : q - valueOf m = -(q - valueOf n) :=
    (abs_eq_abs.mp hsame).resolve_left (by intro h; linarith)
  rw [abs_of_pos (show 0 < q - valueOf m by linarith)]
  exact abs_lt.mpr ⟨by linarith, by linarith⟩

section

variable {x y : Binary64} {negative : Bool} {q : ℚ}

/-- A double is finite exactly if its magnitude is below that of infinity. -/
theorem isFinite_iff : x.isFinite = true ↔ x.magnitude < infinity := decide_eq_true_iff

/-- No greater double is as near as the nearest one, if both are even. -/
theorem IsNearest.magnitude_le (hx : x.IsNearest negative q) (hfinite : x.isFinite = true)
    (hfinite' : y.isFinite = true) (hsame : |q - x.size| = |q - y.size|)
    (heven : x.magnitude % 2 = 0) (heven' : y.magnitude % 2 = 0) :
    y.magnitude ≤ x.magnitude := by
  by_contra hlt
  rw [isFinite_iff] at hfinite'
  rw [size_eq, size_eq] at hsame
  have hnearer := nearer_of_even (not_le.mp hlt) heven heven' hsame
  have hless : x.magnitude + 1 < infinity := by omega
  have hword : infinity < 1 <<< 63 := by decide
  have hnearest :=
    hx.nearest hfinite _ (isFinite_ofMagnitude hless : (ofMagnitude false _).isFinite = true)
  rw [size_eq, size_eq, magnitude_ofMagnitude (hless.trans hword)] at hnearest
  exact absurd hnearer (not_lt.mpr hnearest)

/-- **Only one double is the nearest** to a number. -/
theorem IsNearest.unique (hx : x.IsNearest negative q) (hy : y.IsNearest negative q) : x = y := by
  refine eq_of_magnitude (hx.sign.trans hy.sign.symm) ?_
  cases hfinite : x.isFinite with
  | false =>
      have hfinite' : y.isFinite = false := by
        rw [← Bool.not_eq_true, hy.finite, ← hx.finite, hfinite]
        decide
      exact (beq_iff_eq.mp (hx.infinite hfinite)).trans (beq_iff_eq.mp (hy.infinite hfinite')).symm
  | true =>
      have hfinite' : y.isFinite = true := hy.finite.mpr (hx.finite.mp hfinite)
      have hsame := le_antisymm (hx.nearest hfinite y hfinite') (hy.nearest hfinite' x hfinite)
      by_contra hne
      have hsize : y.size ≠ x.size := by
        rw [size_eq, size_eq]
        exact fun heq => hne (valueOf_strictMono.injective heq).symm
      have heven := (hx.even hfinite y hfinite' hsame).resolve_left hsize
      have heven' := (hy.even hfinite' x hfinite hsame.symm).resolve_left hsize.symm
      rw [significand_eq, significandOf_mod_two] at heven heven'
      exact hne (le_antisymm (hy.magnitude_le hfinite' hfinite hsame.symm heven' heven)
        (hx.magnitude_le hfinite hfinite' hsame heven heven'))

end

end Binary64

end FunctionIR
