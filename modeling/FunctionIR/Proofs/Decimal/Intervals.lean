import FunctionIR.Decimal.Shortest
import Mathlib.Algebra.Order.Field.Basic
import Mathlib.Algebra.Order.Field.Power
import Mathlib.Data.Rat.Cast.Order
import Mathlib.Order.Monotone.Basic
import Mathlib.Tactic.FieldSimp
import Mathlib.Tactic.Linarith
import Mathlib.Tactic.NormNum
import Mathlib.Tactic.Positivity
import Mathlib.Tactic.Ring

/-!
# The intervals around doubles

The magnitudes are in the order of the numbers that they stand for.  Half way from
each to the next lies a boundary (`upper`), and what rounds to a magnitude lies
between the boundary below it and its own, both of which it has if it is even and
neither of which if it is odd (`Rounds`).  So no number rounds to two magnitudes
(`Rounds.unique`).

The shortest decimal of a double is looked for in this interval, from the largest
powers of ten downwards.  The steps are enough to find one: at the power `-324` the
multiple next above the double is still in the interval (`holds_above`).  Hence the
decimal rounds to the double (`shortest_rounds`).
-/

namespace FunctionIR.Decimal

/-! ### Magnitudes in order -/

/-- The significand of a magnitude. -/
def significandOf (magnitude : Nat) : Nat :=
  if magnitude < 2 ^ 52 then magnitude else magnitude % 2 ^ 52 + 2 ^ 52

/-- The exponent of a magnitude. -/
def exponentOf (magnitude : Nat) : Int := max 1 (magnitude / 2 ^ 52 : Nat) - 1075

/-- The significand of a double depends on its magnitude only. -/
theorem significand_eq (x : Binary64) : x.significand = significandOf x.magnitude := by
  simp only [Binary64.significand, significandOf, Nat.one_shiftLeft]

/-- The exponent of a double depends on its magnitude only. -/
theorem exponent_eq (x : Binary64) : x.exponent = exponentOf x.magnitude := by
  simp only [Binary64.exponent, exponentOf, Nat.shiftRight_eq_div_pow]

/-- From a magnitude to the next the significand grows by one, or else the exponent
does and the significand starts anew. -/
theorem magnitude_step (k : Nat) :
    (exponentOf (k + 1) = exponentOf k ∧ significandOf (k + 1) = significandOf k + 1 ∧
      ¬ (significandOf (k + 1) = 2 ^ 52 ∧ -1074 < exponentOf (k + 1))) ∨
    (exponentOf (k + 1) = exponentOf k + 1 ∧ significandOf (k + 1) = 2 ^ 52 ∧
      significandOf k = 2 ^ 53 - 1 ∧ -1074 < exponentOf (k + 1)) := by
  unfold significandOf exponentOf
  split <;> split <;> omega

/-- A magnitude is even exactly if its significand is. -/
theorem significandOf_mod_two (magnitude : Nat) : significandOf magnitude % 2 = magnitude % 2 := by
  unfold significandOf
  split <;> omega

/-- Half way from the magnitude to the next. -/
def upper (magnitude : Nat) : ℚ := (significandOf magnitude + 1 / 2) * 2 ^ exponentOf magnitude

/-- The upper ends of the intervals grow with the magnitude. -/
theorem upper_strictMono : StrictMono upper := by
  refine strictMono_nat_of_lt_succ fun k => ?_
  have hpos : (0 : ℚ) < 2 ^ exponentOf k := by positivity
  unfold upper
  rcases magnitude_step k with ⟨hexp, hsig, -⟩ | ⟨hexp, hsig, hlast, -⟩
  · rw [hexp, hsig]
    push_cast
    nlinarith
  · rw [hexp, hsig, hlast, zpow_add_one₀ (by norm_num)]
    push_cast
    nlinarith

/-- The number rounds to the magnitude, which is not zero. -/
def Rounds : Nat → ℚ → Prop
  | 0, _ => False
  | k + 1, q => upper k ≤ q ∧ q ≤ upper (k + 1) ∧
    ((k + 1) % 2 = 1 → upper k < q ∧ q < upper (k + 1))

/-- A number does not round to a magnitude and to a greater one. -/
theorem not_rounds_of_lt {m n : Nat} {q : ℚ} (hlt : m < n) (hm : Rounds m q) : ¬ Rounds n q := by
  intro hn
  cases m with
  | zero => exact hm
  | succ m =>
    cases n with
    | zero => exact hn
    | succ n =>
      obtain ⟨-, habove, hodd⟩ := hm
      obtain ⟨hbelow, -, hodd'⟩ := hn
      have hle : upper (m + 1) ≤ upper n := upper_strictMono.monotone (by omega)
      -- the number is the boundary between neighbours, and one of these is odd
      have hsame : m + 1 = n := upper_strictMono.injective (by linarith)
      subst hsame
      rcases Nat.mod_two_eq_zero_or_one (m + 1) with heven | hodds
      · linarith [(hodd' (by omega)).1]
      · linarith [(hodd hodds).2]

/-- **No number rounds to two magnitudes.** -/
theorem Rounds.unique {m n : Nat} {q : ℚ} (hm : Rounds m q) (hn : Rounds n q) : m = n := by
  rcases Nat.lt_trichotomy m n with hlt | heq | hlt
  · exact absurd hn (not_rounds_of_lt hlt hm)
  · exact heq
  · exact absurd hm (not_rounds_of_lt hlt hn)

/-! ### The interval of a double -/

namespace Interval

/-- The number lies in the interval. -/
def Contains (i : Interval) (q : ℚ) : Prop :=
  (i.low : ℚ) / i.den ≤ q ∧ q ≤ i.high / i.den ∧
    (i.closed = false → (i.low : ℚ) / i.den < q ∧ q < i.high / i.den)

section

variable {den scale x : Nat} {q : ℚ} (hden : 0 < den) (hscale : 0 < scale)
  (hvalue : (x : ℚ) = q * den * scale)

include hden hscale hvalue

/-- Fractions of one denominator are compared as natural numbers on a scale. -/
theorem div_le_iff_scaled (n : Nat) : (n : ℚ) / den ≤ q ↔ n * scale ≤ x := by
  have hden : (0 : ℚ) < den := by exact_mod_cast hden
  have hscale : (0 : ℚ) < scale := by exact_mod_cast hscale
  rw [div_le_iff₀ hden, ← mul_le_mul_iff_left₀ hscale, ← hvalue]
  exact_mod_cast Iff.rfl

/-- The other comparison on the scale of the interval. -/
theorem le_div_iff_scaled (n : Nat) : q ≤ (n : ℚ) / den ↔ x ≤ n * scale := by
  have hden : (0 : ℚ) < den := by exact_mod_cast hden
  have hscale : (0 : ℚ) < scale := by exact_mod_cast hscale
  rw [le_div_iff₀ hden, ← mul_le_mul_iff_left₀ hscale, ← hvalue]
  exact_mod_cast Iff.rfl

end

/-- A multiple of a power of ten that the interval holds lies in it. -/
theorem contains_of_holds {i : Interval} {n : Nat} {p : Int} (hden : 0 < i.den)
    (h : i.holds n p = true) : i.Contains (n * 10 ^ p) := by
  -- the natural numbers that are compared are fractions of one scale
  obtain ⟨x, scale, hscale, hvalue, hholds⟩ : ∃ x scale : Nat, 0 < scale ∧
      (x : ℚ) = n * 10 ^ p * i.den * scale ∧
      if i.closed then i.low * scale ≤ x ∧ x ≤ i.high * scale
      else i.low * scale < x ∧ x < i.high * scale := by
    unfold holds at h
    by_cases hp : 0 ≤ p
    · obtain ⟨k, rfl⟩ := Int.eq_ofNat_of_zero_le hp
      refine ⟨n * 10 ^ k * i.den, 1, by norm_num, by push_cast; simp, ?_⟩
      cases hclosed : i.closed <;> simpa [hclosed] using h
    · obtain ⟨k, hk⟩ := Int.eq_ofNat_of_zero_le (show 0 ≤ -p by omega)
      obtain rfl : p = -k := by omega
      refine ⟨n * i.den, 10 ^ k, by positivity, ?_, ?_⟩
      · push_cast
        rw [zpow_neg, zpow_natCast]
        field_simp
      · simp only [if_neg hp, neg_neg, Int.toNat_natCast] at h
        cases hclosed : i.closed <;> simpa [hclosed] using h
  have hbelow := div_le_iff_scaled hden hscale hvalue
  have habove := le_div_iff_scaled hden hscale hvalue
  rw [Contains, hbelow, habove, ← not_le, ← not_le, hbelow, habove, not_le, not_le]
  cases hclosed : i.closed with
  | true => simpa [hclosed] using hholds
  | false =>
      have hstrict : i.low * scale < x ∧ x < i.high * scale := by simpa [hclosed] using hholds
      exact ⟨hstrict.1.le, hstrict.2.le, fun _ => hstrict⟩

/-- What is picked lies in the interval. -/
theorem pick_holds {tieUp : Bool} {i : Interval} {p : Int} {n : Nat}
    (h : i.pick tieUp p = some n) : i.holds n p = true := by
  unfold pick at h
  simp only at h
  split at h
  · cases h
  · cases h
    assumption
  · cases h
    assumption
  · split at h
    · cases h
      assumption
    · cases h
      assumption
    · split at h <;> cases h <;> assumption

/-- What is found by going down finds a multiple in the interval, if there is one on
the way. -/
theorem search_holds {tieUp : Bool} {i : Interval} {q : Int} (hpick : i.pick tieUp q ≠ none) :
    (steps : Nat) → (p : Int) → p - steps < q → q ≤ p →
      i.holds (i.search tieUp steps p).1 (i.search tieUp steps p).2 = true
  | 0, p, hlast, hfirst => absurd hlast (by omega)
  | steps + 1, p, hlast, hfirst => by
      rw [search]
      cases hp : i.pick tieUp p with
      | some n => exact pick_holds hp
      | none =>
          have hne : q ≠ p := by
            rintro rfl
            exact hpick hp
          exact search_holds hpick steps (p - 1) (by omega) (by omega)

theorem pick_ne_none {tieUp : Bool} {i : Interval} {p : Int}
    (h : i.holds ((i.floorAt p).1 + 1) p = true) : i.pick tieUp p ≠ none := by
  unfold pick
  cases hfloor : i.holds (i.floorAt p).1 p with
  | false => simp [hfloor, h]
  | true =>
      simp only [hfloor, h]
      split
      · simp
      · simp
      · split <;> simp

/-- The denominator of an interval is positive. -/
theorem den_around_pos (m : Nat) (e : Int) : 0 < (around m e).den := by
  simp only [around, Nat.one_shiftLeft]
  split
  · exact Nat.one_pos
  · exact Nat.two_pow_pos _

/-- The unit of the interval is a quarter of the step to the next double. -/
theorem unit_div_den (e : Int) :
    (((if 2 ≤ e then 1 <<< (e - 2).toNat else 1 : Nat) : ℚ) /
      ((if 2 ≤ e then 1 else 1 <<< (2 - e).toNat : Nat) : ℚ)) = 2 ^ e / 4 := by
  have hquarter : (2 : ℚ) ^ e / 4 = 2 ^ (e - 2) := by
    rw [zpow_sub₀ (by norm_num)]
    norm_num
  rw [hquarter]
  by_cases he : 2 ≤ e
  · obtain ⟨k, hk⟩ := Int.eq_ofNat_of_zero_le (show 0 ≤ e - 2 by omega)
    rw [if_pos he, if_pos he, hk, Int.toNat_natCast, Nat.one_shiftLeft]
    push_cast
    rw [div_one, zpow_natCast]
  · obtain ⟨k, hk⟩ := Int.eq_ofNat_of_zero_le (show 0 ≤ 2 - e by omega)
    rw [if_neg he, if_neg he, show e - 2 = -(k : Int) by omega, hk, Int.toNat_natCast,
      Nat.one_shiftLeft]
    push_cast
    rw [zpow_neg, zpow_natCast, one_div]

/-- The upper end of the interval around a magnitude, as a fraction. -/
theorem around_high (k : Nat) : ((around (significandOf k) (exponentOf k)).high : ℚ) /
    (around (significandOf k) (exponentOf k)).den = upper k := by
  simp only [around]
  rw [Nat.cast_mul, mul_div_assoc, unit_div_den, upper]
  push_cast
  ring

/-- The lower end of the interval is the upper end of the magnitude below. -/
theorem around_low (k : Nat) : ((around (significandOf (k + 1)) (exponentOf (k + 1))).low : ℚ) /
    (around (significandOf (k + 1)) (exponentOf (k + 1))).den = upper k := by
  simp only [around]
  rw [Nat.cast_mul, mul_div_assoc, unit_div_den, upper]
  rcases magnitude_step k with ⟨hexp, hsig, hnot⟩ | ⟨hexp, hsig, hlast, hlow⟩
  · rw [if_neg (by simpa [Nat.one_shiftLeft] using hnot), hexp, hsig,
      Nat.cast_sub (by omega)]
    push_cast
    ring
  · rw [if_pos ⟨by rw [hsig]; rfl, hlow⟩, hexp, hsig, hlast, zpow_add_one₀ (by norm_num),
      Nat.cast_sub (by omega)]
    push_cast
    ring

/-- What the interval around a double contains rounds to the double. -/
theorem rounds_of_contains {k : Nat} {q : ℚ}
    (h : (around (significandOf (k + 1)) (exponentOf (k + 1))).Contains q) : Rounds (k + 1) q := by
  obtain ⟨hlow, hhigh, hopen⟩ := h
  rw [around_low] at hlow hopen
  rw [around_high] at hhigh hopen
  refine ⟨hlow, hhigh, fun hodd => hopen ?_⟩
  have hparity := significandOf_mod_two (k + 1)
  simp [around, hparity, hodd]

/-- If the power of ten is smaller than the upper half of the interval, the multiple
next above the middle is in it. -/
theorem holds_next {i : Interval} {k : Nat} (hk : 0 < k) (hden : 0 < i.den) (hlow : i.low ≤ i.mid)
    (hhigh : i.mid * 10 ^ k + i.den < i.high * 10 ^ k) :
    i.holds ((i.floorAt (-k)).1 + 1) (-k) = true := by
  have hneg : ¬ (0 : Int) ≤ -k := by omega
  have hfloor : (i.floorAt (-k)).1 = i.mid * 10 ^ k / i.den := by
    simp only [floorAt, if_neg hneg, neg_neg, Int.toNat_natCast, Nat.pow_eq]
  rw [hfloor]
  generalize hn : i.mid * 10 ^ k / i.den = n
  have hbelow : n * i.den ≤ i.mid * 10 ^ k := hn ▸ Nat.div_mul_le_self _ _
  have habove : i.mid * 10 ^ k < (n + 1) * i.den := by
    rw [← hn, Nat.mul_comm _ i.den]
    exact Nat.lt_mul_div_succ _ hden
  have hscaled : i.low * 10 ^ k ≤ i.mid * 10 ^ k := Nat.mul_le_mul_right _ hlow
  have hsucc : (n + 1) * i.den = n * i.den + i.den := Nat.succ_mul n i.den
  have hleft : i.low * 10 ^ k < (n + 1) * i.den := by omega
  have hright : (n + 1) * i.den < i.high * 10 ^ k := by omega
  simp only [holds, if_neg hneg, neg_neg, Int.toNat_natCast, Nat.pow_eq]
  split
  · simp [hleft.le, hright.le]
  · simp [hleft, hright]

/-- At the power `-324` the multiple next above a double is in its interval. -/
theorem holds_above {m : Nat} {e : Int} (he : -1074 ≤ e) :
    (around m e).holds (((around m e).floorAt (-324)).1 + 1) (-324) = true := by
  have hpower : (2 : Nat) ^ 1076 < 2 * 10 ^ 324 := by decide +kernel
  refine holds_next (k := 324) (by decide) (den_around_pos m e) ?_ ?_
  · exact Nat.mul_le_mul_right _ (Nat.sub_le _ _)
  · simp only [around]
    rw [Nat.add_mul, Nat.add_mul, Nat.add_lt_add_iff_left]
    split
    · have hunit : 0 < 1 <<< (e - 2).toNat := by
        rw [Nat.one_shiftLeft]
        exact Nat.two_pow_pos _
      calc 1 < 2 * 1 * 10 ^ 324 := by decide +kernel
        _ ≤ 2 * (1 <<< (e - 2).toNat) * 10 ^ 324 :=
            Nat.mul_le_mul_right _ (Nat.mul_le_mul_left _ hunit)
    · rw [Nat.one_shiftLeft, Nat.mul_one]
      calc 2 ^ (2 - e).toNat ≤ 2 ^ 1076 := Nat.pow_le_pow_right (by decide) (by omega)
        _ < 2 * 10 ^ 324 := hpower

end Interval

/-- **The shortest decimal of a double rounds to the double.** -/
theorem shortest_rounds (tieUp : Bool) {x : Binary64} (hx : x.magnitude ≠ 0) :
    Rounds x.magnitude ((shortest tieUp x).1 * 10 ^ (shortest tieUp x).2) := by
  obtain ⟨k, hk⟩ := Nat.exists_eq_succ_of_ne_zero hx
  have hexponent : -1074 ≤ exponentOf (k + 1) := by
    unfold exponentOf
    omega
  rw [shortest, significand_eq, exponent_eq, hk]
  refine Interval.rounds_of_contains (Interval.contains_of_holds (Interval.den_around_pos _ _) ?_)
  exact Interval.search_holds (q := -324)
    (Interval.pick_ne_none (Interval.holds_above hexponent)) 640 309 (by decide) (by decide)

end FunctionIR.Decimal
