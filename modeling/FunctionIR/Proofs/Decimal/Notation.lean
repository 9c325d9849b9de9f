import FunctionIR.Proofs.Decimal.Finite
import FunctionIR.Proofs.Decimal.Intervals
import FunctionIR.Tree.Dump
import Mathlib.Data.List.TakeWhile

/-!
# What the text of a double says

Digits with a point among them, and perhaps an exponent behind, stand for a number
(`numberIn`).  However the digits of a double are arranged, they stand for the
shortest decimal of it, which rounds to the double (`unsigned_shortest`).  So the
text of a double in a dump tells the double from all others, a NaN apart
(`dumpLayout_injective`).
-/

namespace FunctionIR.Decimal

/-! ### Numbers in texts -/

/-- The number that digits with a point among them stand for. -/
def pointValue (text : List Char) : ℚ :=
  Nat.ofDigitChars 10 (text.filter (· ≠ '.')) 0 / 10 ^ ((text.dropWhile (· ≠ '.')).length - 1)

/-- The number that an exponent stands for. -/
def exponentValue : List Char → Int
  | '-' :: digits => -(Nat.ofDigitChars 10 digits 0 : Int)
  | digits => Nat.ofDigitChars 10 digits 0

/-- The number that a text without a sign stands for. -/
def numberIn (text : List Char) : ℚ :=
  pointValue (text.takeWhile (· ≠ 'e')) *
    10 ^ exponentValue ((text.dropWhile (· ≠ 'e')).drop 1)

section

variable {digits whole fraction : List Char} {lead : Int}

/-- A character that is no digit is in no run of digits. -/
theorem notMem_digits {d : Char} (hd : d.isDigit = false)
    (h : ∀ c ∈ digits, c.isDigit = true) : d ∉ digits := by
  intro hmem
  rw [h d hmem] at hd
  cases hd

/-- A character that a text lacks differs from each of its characters. -/
theorem differ_of_notMem {d : Char} {text : List Char} (h : d ∉ text) :
    ∀ c ∈ text, decide (c ≠ d) = true := by
  intro c hc
  refine decide_eq_true ?_
  rintro rfl
  exact h hc

/-- A run of digits has no point to drop. -/
theorem filter_point (h : ∀ c ∈ digits, c.isDigit = true) : digits.filter (· ≠ '.') = digits :=
  List.filter_eq_self.mpr (differ_of_notMem (notMem_digits rfl h))

/-- Digits without a point stand for their number. -/
theorem pointValue_digits (h : ∀ c ∈ digits, c.isDigit = true) :
    pointValue digits = Nat.ofDigitChars 10 digits 0 := by
  have hnone : digits.dropWhile (· ≠ '.') = [] :=
    List.dropWhile_eq_nil_iff.mpr (differ_of_notMem (notMem_digits rfl h))
  rw [pointValue, filter_point h, hnone]
  simp

/-- Digits with a point stand for their number over the power of ten of the fraction. -/
theorem pointValue_point (hwhole : ∀ c ∈ whole, c.isDigit = true)
    (hfraction : ∀ c ∈ fraction, c.isDigit = true) :
    pointValue (whole ++ '.' :: fraction) =
      Nat.ofDigitChars 10 (whole ++ fraction) 0 / 10 ^ fraction.length := by
  have hbehind : (whole ++ '.' :: fraction).dropWhile (· ≠ '.') = '.' :: fraction := by
    rw [List.dropWhile_append_of_pos (differ_of_notMem (notMem_digits rfl hwhole))]
    rfl
  have hdigits : (whole ++ '.' :: fraction).filter (· ≠ '.') = whole ++ fraction := by
    rw [List.filter_append, filter_point hwhole, List.filter_cons_of_neg (by decide),
      filter_point hfraction]
  rw [pointValue, hbehind, hdigits, List.length_cons, Nat.add_sub_cancel]

/-- Without an exponent a text stands for its mantissa. -/
theorem numberIn_of_no_exponent (h : 'e' ∉ digits) : numberIn digits = pointValue digits := by
  have hne := differ_of_notMem h
  rw [numberIn, List.takeWhile_eq_self_iff.mpr hne, List.dropWhile_eq_nil_iff.mpr hne]
  simp [exponentValue]

/-- With an exponent a text stands for its mantissa times the power of ten. -/
theorem numberIn_exponent {mantissa exponent : List Char} (h : 'e' ∉ mantissa) :
    numberIn (mantissa ++ 'e' :: exponent) = pointValue mantissa * 10 ^ exponentValue exponent := by
  have hne := differ_of_notMem h
  rw [numberIn, List.takeWhile_append_of_pos hne, List.dropWhile_append_of_pos hne]
  simp

/-- Positional notation has a point among digits, and these stand for what they are
worth. -/
theorem positional_eq (h : ∀ c ∈ digits, c.isDigit = true) (hne : digits ≠ []) (lead : Int) :
    ∃ whole fraction, positional digits lead = whole ++ '.' :: fraction ∧ whole ≠ [] ∧
      (∀ c ∈ whole, c.isDigit = true) ∧ (∀ c ∈ fraction, c.isDigit = true) ∧
      (Nat.ofDigitChars 10 (whole ++ fraction) 0 : ℚ) / 10 ^ fraction.length =
        Nat.ofDigitChars 10 digits 0 * 10 ^ (lead - digits.length + 1) := by
  have hzeros (n : Nat) : ∀ c ∈ List.replicate n '0', c.isDigit = true := fun c hc => by
    rw [List.eq_of_mem_replicate hc]
    rfl
  unfold positional
  split
  next hneg =>
    obtain ⟨k, hk⟩ := Int.eq_ofNat_of_zero_le (show 0 ≤ -lead - 1 by omega)
    refine ⟨['0'], List.replicate k '0' ++ digits, by rw [hk]; rfl, List.cons_ne_nil _ _,
      by simp, List.forall_mem_append.mpr ⟨hzeros k, h⟩, ?_⟩
    rw [show lead - digits.length + 1 = -(k + digits.length : Nat) by push_cast; omega,
      zpow_neg, zpow_natCast]
    simp [Nat.ofDigitChars_cons, Nat.ofDigitChars_append, Nat.ofDigitChars_replicate_zero,
      div_eq_mul_inv]
  next hneg =>
    obtain ⟨k, rfl⟩ := Int.eq_ofNat_of_zero_le (show 0 ≤ lead by omega)
    simp only [Int.toNat_natCast]
    split
    next hshort =>
      refine ⟨digits ++ List.replicate (k + 1 - digits.length) '0', ['0'], by simp,
        by simp [hne], List.forall_mem_append.mpr ⟨h, hzeros _⟩, by simp, ?_⟩
      rw [show (k : Int) - digits.length + 1 = (k + 1 - digits.length : Nat) by omega,
        zpow_natCast]
      simp [Nat.ofDigitChars_append, Nat.ofDigitChars_replicate_zero, Nat.ofDigitChars_cons]
      ring
    next hlong =>
      refine ⟨digits.take (k + 1), digits.drop (k + 1), rfl, by simp [hne],
        fun c hc => h c (List.mem_of_mem_take hc), fun c hc => h c (List.mem_of_mem_drop hc), ?_⟩
      rw [show (k : Int) - digits.length + 1 = -(digits.length - (k + 1) : Nat) by omega,
        zpow_neg, zpow_natCast, List.take_append_drop, List.length_drop, div_eq_mul_inv]

/-- The positional form stands for the digits at the place of the leading one. -/
theorem numberIn_positional (h : ∀ c ∈ digits, c.isDigit = true) (hne : digits ≠ [])
    (lead : Int) :
    numberIn (positional digits lead) =
      Nat.ofDigitChars 10 digits 0 * 10 ^ (lead - digits.length + 1) := by
  obtain ⟨whole, fraction, htext, -, hwhole, hfraction, hvalue⟩ := positional_eq h hne lead
  have hnone : 'e' ∉ whole ++ '.' :: fraction := by
    simp only [List.mem_append, List.mem_cons, not_or]
    exact ⟨notMem_digits rfl hwhole, by decide, notMem_digits rfl hfraction⟩
  rw [htext, numberIn_of_no_exponent hnone, pointValue_point hwhole hfraction, hvalue]

/-- An exponent is written as what it is. -/
theorem exponentValue_toDigits (lead : Int) :
    exponentValue ((if lead < 0 then ['-'] else "".toList) ++ Nat.toDigits 10 lead.natAbs) =
      lead := by
  have hread : Nat.ofDigitChars 10 (Nat.toDigits 10 lead.natAbs) 0 = lead.natAbs :=
    Nat.ofDigitChars_toDigits (by decide) (by decide)
  split
  next hneg =>
    simp only [List.singleton_append, exponentValue, hread]
    omega
  next hneg =>
    rw [String.toList_empty, List.nil_append]
    unfold exponentValue
    split
    next digits hdigits =>
      have hminus : '-' ∈ Nat.toDigits 10 lead.natAbs := by simp [hdigits]
      exact absurd hminus (notMem_digits rfl
        fun _ => Nat.isDigit_of_mem_toDigits (by decide) (by decide))
    next => omega

/-- An exponent stands behind digits that can have a point behind the first. -/
theorem exponential_eq (h : ∀ c ∈ digits, c.isDigit = true) (hne : digits ≠ []) (lead : Int) :
    ∃ mantissa, exponential "" digits lead = mantissa ++ 'e' ::
        ((if lead < 0 then ['-'] else "".toList) ++ Nat.toDigits 10 lead.natAbs) ∧
      mantissa.head? = digits.head? ∧ (∀ c ∈ mantissa, c.isDigit = true ∨ c = '.') ∧
      pointValue mantissa * 10 ^ lead =
        Nat.ofDigitChars 10 digits 0 * 10 ^ (lead - digits.length + 1) := by
  obtain ⟨first, rest, rfl⟩ := List.exists_cons_of_ne_nil hne
  have hpower : lead - ((first :: rest).length : Int) + 1 = lead - rest.length := by
    rw [List.length_cons]
    push_cast
    ring
  rw [hpower, zpow_sub₀ (by norm_num), zpow_natCast]
  cases rest with
  | nil =>
      refine ⟨[first], by simp [exponential], rfl, fun c hc => .inl (h c hc), ?_⟩
      rw [pointValue_digits h]
      simp
  | cons second rest =>
      obtain ⟨hfirst, hrest⟩ := List.forall_mem_cons.mp h
      refine ⟨[first] ++ '.' :: second :: rest, by simp [exponential], rfl, ?_, ?_⟩
      · simp only [List.singleton_append, List.forall_mem_cons]
        obtain ⟨hsecond, hmore⟩ := List.forall_mem_cons.mp hrest
        exact ⟨.inl hfirst, .inr trivial, .inl hsecond, fun c hc => .inl (hmore c hc)⟩
      · rw [pointValue_point (List.forall_mem_singleton.mpr hfirst) hrest, List.singleton_append]
        ring

/-- The exponential form stands for the same number. -/
theorem numberIn_exponential (h : ∀ c ∈ digits, c.isDigit = true) (hne : digits ≠ [])
    (lead : Int) :
    numberIn (exponential "" digits lead) =
      Nat.ofDigitChars 10 digits 0 * 10 ^ (lead - digits.length + 1) := by
  obtain ⟨mantissa, htext, -, hmantissa, hvalue⟩ := exponential_eq h hne lead
  have hnone : 'e' ∉ mantissa := fun he => absurd (hmantissa _ he) (by decide)
  rw [htext, numberIn_exponent hnone, exponentValue_toDigits, hvalue]

end

/-! ### The texts of doubles -/

/-- A character of a name or a number. -/
def InWord (c : Char) : Prop := c.isAlphanum = true ∨ c = '_' ∨ c = '.' ∨ c = '-'

instance : DecidablePred InWord := fun _ => inferInstanceAs (Decidable (_ ∨ _))

/-- A digit is a character of a word. -/
theorem inWord_of_digit {c : Char} (h : c.isDigit = true) : InWord c :=
  .inl (by simp [Char.isAlphanum, h])

/-- The text is that of the double without its sign. -/
inductive Unsigned (x : Binary64) : List Char → Prop
  | infinite : x.magnitude = Binary64.infinity → Unsigned x "inf".toList
  | zero : x.magnitude = 0 → Unsigned x "0.0".toList
  | number {first point : Char} {text : List Char} :
      text.head? = some first → first.isDigit = true → (∀ c ∈ text, InWord c) →
      point ∈ text → point = '.' ∨ point = 'e' → Rounds x.magnitude (numberIn text) →
      Unsigned x text

/-- Digits that are arranged in either way are the text of a double that they round
to. -/
theorem unsigned_of_digits {x : Binary64} {digits : List Char}
    (h : ∀ c ∈ digits, c.isDigit = true) (hne : digits ≠ []) {lead : Int}
    (hrounds : Rounds x.magnitude
      (Nat.ofDigitChars 10 digits 0 * 10 ^ (lead - digits.length + 1))) :
    Unsigned x (positional digits lead) ∧ Unsigned x (exponential "" digits lead) := by
  constructor
  · obtain ⟨whole, fraction, htext, hwhole, hdigits, hmore, -⟩ := positional_eq h hne lead
    obtain ⟨first, others, rfl⟩ := List.exists_cons_of_ne_nil hwhole
    have hfirst := hdigits first List.mem_cons_self
    rw [← numberIn_positional h hne] at hrounds
    rw [htext] at hrounds ⊢
    refine .number rfl hfirst ?_ (by simp) (.inl rfl) hrounds
    refine List.forall_mem_append.mpr ⟨fun c hc => inWord_of_digit (hdigits c hc), ?_⟩
    exact List.forall_mem_cons.mpr ⟨.inr (.inr (.inl rfl)), fun c hc => inWord_of_digit (hmore c hc)⟩
  · obtain ⟨mantissa, htext, hhead, hdigits, -⟩ := exponential_eq h hne lead
    obtain ⟨first, rest, rfl⟩ := List.exists_cons_of_ne_nil hne
    have hfirst := h first List.mem_cons_self
    rw [← numberIn_exponential h hne] at hrounds
    rw [htext] at hrounds ⊢
    refine .number (by rw [List.head?_append, hhead]; rfl) hfirst ?_ (by simp) (.inr rfl) hrounds
    refine List.forall_mem_append.mpr ⟨fun c hc => ?_, List.forall_mem_cons.mpr ⟨.inl rfl, ?_⟩⟩
    · rcases hdigits c hc with hc | rfl
      · exact inWord_of_digit hc
      · exact .inr (.inr (.inl rfl))
    · refine List.forall_mem_append.mpr ⟨fun c hc => ?_, fun c hc => inWord_of_digit
        (Nat.isDigit_of_mem_toDigits (by decide) (by decide) hc)⟩
      have hminus : c = '-' := by
        split at hc
        · simpa using hc
        · cases hc
      exact .inr (.inr (.inr hminus))

/-- The shortest digits of a double other than zero make an unsigned number of it, in the positional
form and in the exponential one. -/
theorem unsigned_shortest (tieUp : Bool) {x : Binary64} (hx : x.magnitude ≠ 0) :
    let digits := Nat.toDigits 10 (shortest tieUp x).1
    let lead := (shortest tieUp x).2 + digits.length - 1
    Unsigned x (positional digits lead) ∧ Unsigned x (exponential "" digits lead) := by
  intro digits lead
  have hread : Nat.ofDigitChars 10 digits 0 = (shortest tieUp x).1 :=
    Nat.ofDigitChars_toDigits (by decide) (by decide)
  have hpower : lead - digits.length + 1 = (shortest tieUp x).2 := by
    simp only [lead]
    ring
  refine unsigned_of_digits (fun c hc => Nat.isDigit_of_mem_toDigits (by decide) (by decide) hc)
    Nat.toDigits_ne_nil ?_
  rw [hread, hpower]
  exact shortest_rounds tieUp hx

/-- The text of a double has a sign only if the double has, and then says what the
double is. -/
theorem toList_write {x : Binary64} (hnan : x.isNaN = false) :
    ∃ text, (dumpLayout.write x).toList = (if x.isNegative then ['-'] else []) ++ text ∧
      Unsigned x text := by
  have hsign : (if x.isNegative then "-" else "").toList = if x.isNegative then ['-'] else [] := by
    split <;> rfl
  unfold Layout.write
  simp only [hnan, Bool.false_eq_true, if_false]
  split
  next hinfinite =>
    refine ⟨"inf".toList, ?_, .infinite (by simpa [Binary64.isInfinite] using hinfinite)⟩
    simp only [dumpLayout]
    split <;> rfl
  next =>
    split
    next hzero => exact ⟨"0.0".toList, by rw [String.toList_append, hsign], .zero hzero⟩
    next hzero =>
      obtain ⟨hpositional, hexponential⟩ := unsigned_shortest dumpLayout.tieUp hzero
      simp only [String.toList_append, String.toList_ofList, hsign]
      refine ⟨_, rfl, ?_⟩
      split
      · exact hpositional
      · exact hexponential

namespace Unsigned

variable {x y : Binary64} {text : List Char}

/-- It starts with a digit, or with the letter of an infinite double. -/
theorem head (h : Unsigned x text) : ∃ first more, text = first :: more ∧
    (first.isDigit = true ∨ first = 'i') := by
  cases h with
  | infinite => exact ⟨_, _, rfl, .inr rfl⟩
  | zero => exact ⟨_, _, rfl, .inl rfl⟩
  | @number first _ _ hhead hfirst =>
      obtain ⟨more, rfl⟩ := List.head?_eq_some_iff.mp hhead
      exact ⟨first, more, rfl, .inl hfirst⟩

/-- An unsigned text begins with no minus. -/
theorem ne_minus (h : Unsigned x text) (more : List Char) : text ≠ '-' :: more := by
  obtain ⟨first, others, rfl, hfirst⟩ := h.head
  rintro ⟨⟩
  rcases hfirst with hfirst | hfirst <;> revert hfirst <;> decide

/-- An unsigned text is made of characters of words. -/
theorem inWord (h : Unsigned x text) : ∀ c ∈ text, InWord c := by
  cases h with
  | infinite | zero => simp [InWord]
  | number _ _ hword => exact hword

/-- It is not that of an integer. -/
theorem exists_not_digit (h : Unsigned x text) : ∃ c ∈ text, c.isDigit = false ∧ c ≠ '-' := by
  cases h with
  | infinite => exact ⟨'i', by simp, rfl, by decide⟩
  | zero => exact ⟨'.', by simp, rfl, by decide⟩
  | @number _ point _ _ _ _ hmem hpoint =>
      refine ⟨point, hmem, ?_⟩
      rcases hpoint with rfl | rfl <;> decide

theorem upper_pos (k : Nat) : 0 < upper k := by
  unfold upper
  positivity

theorem numberIn_zero : numberIn "0.0".toList = 0 := by
  have hpoint : pointValue (['0'] ++ '.' :: ['0']) = _ := pointValue_point (by simp) (by simp)
  rw [numberIn_of_no_exponent (by decide)]
  exact hpoint.trans (by norm_num [Nat.ofDigitChars])

/-- Zero lies in the interval of no positive double. -/
theorem not_rounds_zero (n : Nat) : ¬ Rounds n 0 := by
  intro h
  cases n with
  | zero => exact h
  | succ k => exact absurd h.1 (not_le.mpr (upper_pos k))

/-- The text of a number is that of no infinite double and not that of zero. -/
theorem number_ne {text : List Char} {first : Char} {n : Nat} (hhead : text.head? = some first)
    (hfirst : first.isDigit = true) (hrounds : Rounds n (numberIn text)) :
    text ≠ "inf".toList ∧ text ≠ "0.0".toList := by
  constructor
  · rintro rfl
    cases hhead
    exact absurd hfirst (by decide)
  · rintro rfl
    rw [numberIn_zero] at hrounds
    exact not_rounds_zero n hrounds

/-- **The text tells the magnitude.** -/
theorem magnitude_eq {text' : List Char} (hx : Unsigned x text) (hy : Unsigned y text')
    (h : text = text') : x.magnitude = y.magnitude := by
  cases hx with
  | infinite hx =>
      cases hy with
      | infinite hy => exact hx.trans hy.symm
      | zero => exact absurd h (by decide)
      | number hhead hfirst _ _ _ hrounds =>
          exact absurd h.symm (number_ne hhead hfirst hrounds).1
  | zero hx =>
      cases hy with
      | infinite => exact absurd h (by decide)
      | zero hy => exact hx.trans hy.symm
      | number hhead hfirst _ _ _ hrounds =>
          exact absurd h.symm (number_ne hhead hfirst hrounds).2
  | number hhead hfirst _ _ _ hrounds =>
      cases hy with
      | infinite => exact absurd h (number_ne hhead hfirst hrounds).1
      | zero => exact absurd h (number_ne hhead hfirst hrounds).2
      | number _ _ _ _ _ hrounds' =>
          subst h
          exact hrounds.unique hrounds'

end Unsigned

/-- Sign and magnitude determine a double. -/
theorem eq_of_magnitude {x y : Binary64} (hsign : x.isNegative = y.isNegative)
    (h : x.magnitude = y.magnitude) : x = y := by
  have hx := x.bits.toNat_lt
  have hy := y.bits.toNat_lt
  simp only [Binary64.isNegative, Binary64.magnitude, Nat.one_shiftLeft, decide_eq_decide]
    at hsign h
  have hbits : x.bits.toNat = y.bits.toNat := by omega
  obtain ⟨x⟩ := x
  obtain ⟨y⟩ := y
  exact congrArg Binary64.mk (UInt64.toNat_inj.mp hbits)

/-- **Different doubles have different texts.** -/
theorem dumpLayout_injective {x y : Binary64} (hx : x.isNaN = false) (hy : y.isNaN = false)
    (h : dumpLayout.write x = dumpLayout.write y) : x = y := by
  obtain ⟨text, htext, hunsigned⟩ := toList_write hx
  obtain ⟨text', htext', hunsigned'⟩ := toList_write hy
  have hsame := htext.symm.trans ((congrArg String.toList h).trans htext')
  cases hxsign : x.isNegative <;> cases hysign : y.isNegative <;> rw [hxsign, hysign] at hsame
  · exact eq_of_magnitude (hxsign.trans hysign.symm) (hunsigned.magnitude_eq hunsigned' hsame)
  · exact absurd hsame (hunsigned.ne_minus _)
  · exact absurd hsame.symm (hunsigned'.ne_minus _)
  · exact eq_of_magnitude (hxsign.trans hysign.symm)
      (hunsigned.magnitude_eq hunsigned' (List.cons.inj hsame).2)

end FunctionIR.Decimal
