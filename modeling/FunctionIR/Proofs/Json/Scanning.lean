import FunctionIR.Json.Printer
import FunctionIR.Json.Reader
import Mathlib.Algebra.Group.Int.Defs
import Mathlib.Algebra.Group.Nat.Defs

/-!
# Reading back what is written: names, strings and integers

A reader takes some text off its cursor and goes on behind it.  Where the
cursor stands in lines and columns matters to faults only, so what is said
here of a reading that succeeds is which value it **gets** and which text it
leaves (`Gets`).

What may follow a value is a matter of numbers: a digit, a point or an
exponent would belong to them.  A text that starts with none of these is at
a **boundary**.
-/

namespace FunctionIR.Json

/-- The result is the value, and this text is left. -/
def Gets {α : Type} (result : Except ReadError (α × Cursor)) (value : α) (rest : List Char) :
    Prop :=
  ∃ line column, result = .ok (value, ⟨rest, line, column⟩)

theorem Gets.ok {α : Type} {value : α} {rest : List Char} {line column : Nat} :
    Gets (.ok (value, ⟨rest, line, column⟩)) value rest := ⟨line, column, rfl⟩

theorem Gets.bind {α β : Type} {result : Except ReadError (α × Cursor)}
    {next : α × Cursor → Except ReadError (β × Cursor)} {a : α} {b : β} {rest rest' : List Char}
    (h : Gets result a rest)
    (hnext : ∀ line column, Gets (next (a, ⟨rest, line, column⟩)) b rest') :
    Gets (result >>= next) b rest' := by
  obtain ⟨line, column, rfl⟩ := h
  exact hnext line column

/-! ### Blanks -/

/-- The text does not start with a blank. -/
def Solid (text : List Char) : Prop := ∀ c ∈ text.head?, isSpace c = false

theorem solid_nil : Solid [] := nofun

/-- Only the first character counts. -/
theorem solid_cons {c : Char} {more : List Char} : Solid (c :: more) ↔ isSpace c = false := by
  simp [Solid]

/-- Nothing is skipped where there is no blank. -/
theorem skipSpace_solid {cursor : Cursor} (h : Solid cursor.rest) : cursor.skipSpace = cursor := by
  obtain ⟨text, line, column⟩ := cursor
  cases text with
  | nil => rfl
  | cons c text => simp [Cursor.skipSpace, skipSpaceFrom, solid_cons.mp h]

/-- All blanks are skipped. -/
theorem solid_skipSpace (cursor : Cursor) : Solid cursor.skipSpace.rest := by
  obtain ⟨text, line, column⟩ := cursor
  rw [Cursor.skipSpace]
  induction text generalizing line column with
  | nil => exact solid_nil
  | cons c text ih =>
      simp only [skipSpaceFrom]
      split
      · split
        · exact ih _ _
        · exact ih _ _
      next hc => exact solid_cons.mpr (by simpa using hc)

/-- Blanks before a text are skipped. -/
theorem skipSpace_blanks {blanks rest : List Char} (hblanks : ∀ c ∈ blanks, isSpace c = true)
    (hrest : Solid rest) (line column : Nat) :
    ∃ line' column', Cursor.skipSpace ⟨blanks ++ rest, line, column⟩ = ⟨rest, line', column'⟩ := by
  induction blanks generalizing line column with
  | nil => exact ⟨line, column, skipSpace_solid hrest⟩
  | cons c blanks ih =>
      obtain ⟨hc, hblanks⟩ := List.forall_mem_cons.mp hblanks
      simp only [Cursor.skipSpace, List.cons_append, skipSpaceFrom, hc, if_true]
      split
      · exact ih hblanks _ _
      · exact ih hblanks _ _

/-- The characters that start a line. -/
theorem isSpace_lineStart (level : Nat) : ∀ c ∈ (lineStart level).toList, isSpace c = true := by
  intro c hc
  simp only [lineStart, String.toList_ofList, List.mem_cons, List.mem_replicate] at hc
  rcases hc with rfl | ⟨-, rfl⟩ <;> rfl

/-! ### Strings -/

section Escapes

variable {text rest more : List Char} (line column : Nat)
  (hmore : ∀ line column, Gets (readString line column more) text rest)

include hmore

/-- A character that stands for itself. -/
theorem readString_plain {c : Char} (hquote : c ≠ '"') (hslash : c ≠ '\\')
    (hcontrol : ¬ c.toNat < 0x20) : Gets (readString line column (c :: more)) (c :: text) rest := by
  rw [readString, if_neg hcontrol]
  · exact (hmore _ _).bind fun _ _ => .ok
  all_goals simp [hquote, hslash]

/-- A character that stands for itself after a backslash, or is named by a
letter. -/
theorem readString_simple {letter c : Char} (hne : letter ≠ 'u')
    (hletter : simpleEscape letter = some c) :
    Gets (readString line column ('\\' :: letter :: more)) (c :: text) rest := by
  rw [readString]
  · simp only [hletter]
    exact (hmore _ _).bind fun _ _ => .ok
  all_goals simp [hne]

/-- A control character that is given by its number. -/
theorem readString_control {a b c d ch : Char} (hquad : hexQuad a b c d = some ch.toNat)
    (hcontrol : ch.toNat < 0x20) :
    Gets (readString line column ('\\' :: 'u' :: a :: b :: c :: d :: more)) (ch :: text) rest := by
  rw [readString]
  simp only [hquad]
  rw [if_neg (by omega), if_pos (by omega), Char.ofNat_toNat]
  exact (hmore _ _).bind fun _ _ => .ok

end Escapes

/-- The digits of a control character. -/
theorem hexDigits_control : ∀ n < 0x20,
    if n < 0x10 then ∃ d, Text.hexDigits n = [d] ∧ hexQuad '0' '0' '0' d = some n
    else ∃ c d, Text.hexDigits n = [c, d] ∧ hexQuad '0' '0' c d = some n := by
  have hone : ∀ n < 0x10, Text.hexDigits n = [Nat.digitChar n] ∧
      hexQuad '0' '0' '0' (Nat.digitChar n) = some n := by decide
  have htwo : ∀ n < 0x20, ¬ n < 0x10 →
      Text.hexDigits n = [Nat.digitChar (n / 16), Nat.digitChar (n % 16)] ∧
        hexQuad '0' '0' (Nat.digitChar (n / 16)) (Nat.digitChar (n % 16)) = some n := by decide
  intro n hn
  split
  next hlt => exact ⟨_, hone n hlt⟩
  next hge => exact ⟨_, _, htwo n hn hge⟩

/-- A character that is written in a string is read back. -/
theorem readString_escape (c : Char) {more text rest : List Char}
    (hmore : ∀ line column, Gets (readString line column more) text rest) (line column : Nat) :
    Gets (readString line column (escapeChar c ++ more)) (c :: text) rest := by
  unfold escapeChar
  split
  iterate 7 exact readString_simple line column hmore (by decide) rfl
  next hquote hslash _ _ _ _ _ =>
    split
    next hlt =>
      have h := hexDigits_control c.toNat (by omega)
      rw [if_pos hlt] at h
      obtain ⟨d, hd, hquad⟩ := h
      rw [hd]
      exact readString_control line column hmore hquad (by omega)
    next hge =>
      split
      next hlt =>
        have h := hexDigits_control c.toNat hlt
        rw [if_neg hge] at h
        obtain ⟨a, d, hd, hquad⟩ := h
        rw [hd]
        exact readString_control line column hmore hquad hlt
      next hge => exact readString_plain line column hmore hquote hslash hge

/-- The characters of a written string, from after its opening quote. -/
def stringBody (s : String) : List Char := s.toList.flatMap escapeChar ++ ['"']

/-- The characters of a text in quotes. -/
theorem toList_stringText (s : String) : (stringText s).toList = '"' :: stringBody s := by
  simp [stringText, stringBody]

/-- **A string is read back.** -/
theorem string_stringBody (s : String) (rest : List Char) (line column : Nat) :
    Gets (Cursor.string ⟨stringBody s ++ rest, line, column⟩) s rest := by
  have hchars (chars : List Char) : ∀ line column,
      Gets (readString line column (chars.flatMap escapeChar ++ '"' :: rest)) chars rest := by
    induction chars with
    | nil =>
        intro line column
        rw [List.flatMap_nil, List.nil_append, readString_quote]
        exact .ok
    | cons c chars ih =>
        intro line column
        rw [List.flatMap_cons, List.append_assoc]
        exact readString_escape c ih line column
  have h := hchars s.toList line column
  simp only [Cursor.string, stringBody, List.append_assoc, List.singleton_append]
  refine h.bind fun line column => ?_
  rw [String.ofList_toList]
  exact .ok

/-! ### Integers -/

/-- A number cannot go on with the text. -/
def Boundary (rest : List Char) : Prop :=
  ∀ c ∈ rest.head?, c.isDigit = false ∧ c ≠ '.' ∧ c ≠ 'e' ∧ c ≠ 'E'

theorem boundary_nil : Boundary [] := nofun

/-- Only the first character counts. -/
theorem boundary_cons {c : Char} {more : List Char} :
    Boundary (c :: more) ↔ c.isDigit = false ∧ c ≠ '.' ∧ c ≠ 'e' ∧ c ≠ 'E' := by
  simp [Boundary]

/-- All digits are taken, up to what is no digit. -/
theorem takeDigits_append {digits rest : List Char} (hdigits : ∀ c ∈ digits, c.isDigit = true)
    (hrest : ∀ c ∈ rest.head?, c.isDigit = false) (line column : Nat) :
    ∃ column', takeDigits line column (digits ++ rest) =
      (digits.map digitValue, ⟨rest, line, column'⟩) := by
  induction digits generalizing column with
  | nil =>
      cases rest with
      | nil => exact ⟨column, rfl⟩
      | cons c rest =>
          refine ⟨column, ?_⟩
          have hc : c.isDigit = false := hrest c rfl
          simp [takeDigits, hc]
  | cons c digits ih =>
      obtain ⟨hc, hdigits⟩ := List.forall_mem_cons.mp hdigits
      obtain ⟨column', h⟩ := ih hdigits (column + 1)
      refine ⟨column', ?_⟩
      simp only [List.cons_append, takeDigits, hc, if_true, h, List.map_cons]

/-- The number of digits that come after another number. -/
def appended (sofar : Nat) (digits : List Nat) : Nat :=
  digits.foldl (fun sofar digit => sofar * 10 + digit) sofar

/-- Digits make a number no smaller. -/
theorem le_appended (sofar : Nat) (digits : List Nat) : sofar ≤ appended sofar digits := by
  induction digits generalizing sofar with
  | nil => exact Nat.le_refl _
  | cons digit digits ih => exact Nat.le_trans (by omega) (ih (sofar * 10 + digit))

/-- All digits go into a number that fits a word. -/
theorem accumulate_eq {sofar : Nat} {digits : List Nat} (h : appended sofar digits < 1 <<< 64) :
    accumulate sofar digits = (appended sofar digits, digits.length, 0) := by
  induction digits generalizing sofar with
  | nil => rfl
  | cons digit digits ih =>
      have hlt : sofar * 10 + digit < 1 <<< 64 := Nat.lt_of_le_of_lt (le_appended _ digits) h
      rw [accumulate, if_pos hlt, ih h]
      rfl

/-- The decimal digits of a number make the number again. -/
theorem appended_toDigits (n : Nat) : appended 0 ((Nat.toDigits 10 n).map digitValue) = n := by
  have h : Nat.ofDigitChars 10 (Nat.toDigits 10 n) 0 = n :=
    Nat.ofDigitChars_toDigits (by decide) (by decide)
  rw [Nat.ofDigitChars_eq_foldl] at h
  rw [appended, List.foldl_map]
  simpa only [digitValue, Nat.mul_comm] using h

/-- A positive number does not start with a zero. -/
theorem head_toDigits {n : Nat} (h : 0 < n) : (Nat.toDigits 10 n).head? ≠ some '0' := by
  induction n using Nat.strongRecOn with
  | ind n ih =>
      by_cases hlt : n < 10
      · rw [Nat.toDigits_of_lt_base hlt]
        have : ∀ n < 10, 0 < n → Nat.digitChar n ≠ '0' := by decide
        simpa using this n hlt h
      · rw [Nat.toDigits_of_base_le (by decide) (by omega)]
        have hhead := ih (n / 10) (by omega) (by omega)
        cases hdigits : Nat.toDigits 10 (n / 10) with
        | nil => exact absurd hdigits Nat.toDigits_ne_nil
        | cons c more => simpa [hdigits] using hhead

/-- The digits of a number that fits a word are read as that number. -/
theorem readNumber_toDigits {n : Nat} (h : n < 1 <<< 64) (negative : Bool) {rest : List Char}
    (hrest : Boundary rest) (line column : Nat) :
    Gets (readNumber negative ⟨Nat.toDigits 10 n ++ rest, line, column⟩)
      (integerOrReal negative n) rest := by
  have hall : ∀ c ∈ Nat.toDigits 10 n, c.isDigit = true := fun c hc =>
    Nat.isDigit_of_mem_toDigits (by decide) (by decide) hc
  obtain ⟨column', htake⟩ := takeDigits_append hall (fun c hc => (hrest c hc).1) line column
  change Cursor.digits ⟨Nat.toDigits 10 n ++ rest, line, column⟩ = _ at htake
  have haccumulate := @accumulate_eq 0 ((Nat.toDigits 10 n).map digitValue)
    (by rwa [appended_toDigits])
  rw [appended_toDigits, List.length_map] at haccumulate
  have hzero : ¬ ((Nat.toDigits 10 n).head? = some '0' ∧ 1 < (Nat.toDigits 10 n).length) := by
    rintro ⟨hhead, hlength⟩
    by_cases hn : 0 < n
    · exact head_toDigits hn hhead
    · obtain rfl : n = 0 := by omega
      simp [Nat.toDigits_zero] at hlength
  cases hdigits : Nat.toDigits 10 n with
  | nil => exact absurd hdigits Nat.toDigits_ne_nil
  | cons c more =>
      have hc : c.isDigit = true := hall c (by simp [hdigits])
      rw [hdigits] at htake haccumulate hzero
      rw [List.cons_append] at htake
      simp only [List.head?_cons, Option.some.injEq] at hzero
      simp only [readNumber, List.cons_append, hc, Bool.not_true, Bool.false_eq_true, if_false,
        htake, List.length_map, hzero, haccumulate]
      split
      · exact absurd rfl (hrest '.' (by simp_all)).2.1
      · exact absurd rfl (hrest 'e' (by simp_all)).2.2.1
      · exact absurd rfl (hrest 'E' (by simp_all)).2.2.2
      · exact .ok

end FunctionIR.Json
