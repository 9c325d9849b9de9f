import FunctionIR.Text.Quoted

/-!
# Quoting

A text in quotes shows where it ends: the quotes inside it are written behind a
backslash, and so is the backslash.  And it shows what it is, because no two
characters are written alike, nor one like the beginning of the other.  So a text
can be told from its quotation, whatever comes behind this (`quoted_append_inj`).
-/

namespace FunctionIR.Text

/-! ### Where a stretch ends -/

/-- Characters of one sort are told from what is behind them, if that begins with a
character of another sort. -/
theorem append_inj_of_stretch {p : Char → Prop} {text text' rest rest' : List Char}
    (htext : ∀ c ∈ text, p c) (htext' : ∀ c ∈ text', p c) (hrest : ∀ c ∈ rest.head?, ¬ p c)
    (hrest' : ∀ c ∈ rest'.head?, ¬ p c) (h : text ++ rest = text' ++ rest') :
    text = text' ∧ rest = rest' := by
  induction text generalizing text' with
  | nil =>
      cases text' with
      | nil => exact ⟨rfl, h⟩
      | cons c text' =>
          rw [List.nil_append] at h
          exact absurd (htext' c List.mem_cons_self) (hrest c (by simp [h]))
  | cons c text ih =>
      cases text' with
      | nil =>
          rw [List.nil_append] at h
          exact absurd (htext c List.mem_cons_self) (hrest' c (by simp [← h]))
      | cons c' text' =>
          obtain ⟨rfl, hmore⟩ := List.cons.inj h
          obtain ⟨rfl, hbehind⟩ :=
            ih (List.forall_mem_cons.mp htext).2 (List.forall_mem_cons.mp htext').2 hmore
          exact ⟨rfl, hbehind⟩

/-! ### Numbers -/

/-- Below sixteen a digit stands for one number. -/
theorem digitChar_inj {n m : Nat} (hn : n < 16) (hm : m < 16)
    (h : n.digitChar = m.digitChar) : n = m := by
  have hall : ∀ n < 16, ∀ m < 16, n.digitChar = m.digitChar → n = m := by decide
  exact hall n hn m hm h

/-- Different numbers have different digits. -/
theorem toDigits_inj {base n m : Nat} (hbase : 1 < base) (hsmall : base ≤ 16)
    (h : Nat.toDigits base n = Nat.toDigits base m) : n = m := by
  induction n using Nat.strongRecOn generalizing m with
  | ind n ih =>
    have hlength := congrArg List.length h
    have hdigit (k : Nat) : k % base < 16 := Nat.lt_of_lt_of_le (Nat.mod_lt _ (by omega)) hsmall
    by_cases hn : n < base
    · by_cases hm : m < base
      · rw [Nat.toDigits_of_lt_base hn, Nat.toDigits_of_lt_base hm] at h
        exact digitChar_inj (by omega) (by omega) (List.singleton_inj.mp h)
      · rw [Nat.toDigits_of_lt_base hn, Nat.toDigits_of_base_le hbase (by omega)] at hlength
        simp at hlength
    · rw [Nat.toDigits_of_base_le hbase (by omega)] at h hlength
      by_cases hm : m < base
      · rw [Nat.toDigits_of_lt_base hm] at hlength
        simp at hlength
      · rw [Nat.toDigits_of_base_le hbase (n := m) (by omega)] at h
        obtain ⟨hmore, hlast⟩ := List.append_inj' h rfl
        have hquotient := ih (n / base) (Nat.div_lt_self (by omega) hbase) hmore
        have hremainder := digitChar_inj (hdigit n) (hdigit m) (List.singleton_inj.mp hlast)
        rw [← Nat.div_add_mod n base, ← Nat.div_add_mod m base, hquotient, hremainder]

/-- The digits of a number in base sixteen are letters and digits. -/
theorem isAlphanum_of_mem_hexDigits {n : Nat} {c : Char} (h : c ∈ hexDigits n) :
    c.isAlphanum = true := by
  have hall : ∀ n < 16, n.digitChar.isAlphanum = true := by decide
  rw [hexDigits] at h
  induction n using Nat.strongRecOn with
  | ind n ih =>
    by_cases hn : n < 16
    · rw [Nat.toDigits_of_lt_base hn, List.mem_singleton] at h
      rw [h]
      exact hall n hn
    · rw [Nat.toDigits_of_base_le (by decide) (by omega)] at h
      rcases List.mem_append.mp h with h | h
      · exact ih (n / 16) (by omega) h
      · rw [List.mem_singleton.mp h]
        exact hall _ (Nat.mod_lt _ (by decide))

/-! ### Single characters -/

/-- The letters of the characters that have one behind a backslash. -/
def shortNames : List (Char × Char) :=
  [('\x00', '0'), ('\t', 't'), ('\n', 'n'), ('\r', 'r'), ('"', '"'), ('\\', '\\')]

/-- How a character can be written in quotes. -/
inductive Writes (c : Char) : List Char → Prop
  | plain : c ≠ '"' → c ≠ '\\' → Writes c [c]
  | short {name : Char} : (c, name) ∈ shortNames → Writes c ['\\', name]
  | numbered : Writes c ('\\' :: 'u' :: '\x7b' :: (hexDigits c.toNat ++ ['\x7d']))

/-- A quoted character is written in one of the ways. -/
theorem writes_quoteChar (c : Char) : Writes c (quoteChar c) := by
  unfold quoteChar
  split
  iterate 6 exact .short (by decide)
  next hquote hslash =>
    split
    · exact .plain (fun h => hquote h) (fun h => hslash h)
    · exact .numbered

/-- A letter behind a backslash names one character. -/
theorem eq_of_shortName : ∀ entry ∈ shortNames, ∀ entry' ∈ shortNames,
    entry.2 = entry'.2 → entry.1 = entry'.1 := by
  decide

/-- No letter is that of a number. -/
theorem shortName_ne_u : ∀ entry ∈ shortNames, entry.2 ≠ 'u' := by decide

namespace Writes

variable {c d : Char} {text text' rest rest' : List Char}

/-- No character is written like a quote that ends the text. -/
theorem ne_quote (h : Writes c text) : text ++ rest ≠ '"' :: rest' := by
  intro heq
  cases h with
  | plain hquote => exact hquote (List.cons.inj heq).1
  | short | numbered => exact absurd (List.cons.inj heq).1 (by decide)

/-- **Different characters are written differently**, and none like the beginning of
another. -/
theorem append_inj (hc : Writes c text) (hd : Writes d text') (h : text ++ rest = text' ++ rest') :
    c = d ∧ rest = rest' := by
  cases hc with
  | plain _ hslash =>
      cases hd with
      | plain => exact List.cons.inj h
      | short | numbered => exact absurd (List.cons.inj h).1 hslash
  | @short name hname =>
      cases hd with
      | plain _ hslash => exact absurd (List.cons.inj h).1.symm hslash
      | @short name' hname' =>
          obtain ⟨hsame, hbehind⟩ := List.cons.inj (List.cons.inj h).2
          exact ⟨eq_of_shortName _ hname _ hname' hsame, hbehind⟩
      | numbered =>
          have hsame : name = 'u' := (List.cons.inj (List.cons.inj h).2).1
          exact absurd hsame (shortName_ne_u _ hname)
  | numbered =>
      cases hd with
      | plain _ hslash => exact absurd (List.cons.inj h).1.symm hslash
      | @short name hname =>
          have hsame : 'u' = name := (List.cons.inj (List.cons.inj h).2).1
          exact absurd hsame.symm (shortName_ne_u _ hname)
      | numbered =>
          simp only [List.cons_append, List.append_assoc, List.nil_append, List.cons.injEq,
            true_and] at h
          obtain ⟨hcode, hbehind⟩ := append_inj_of_stretch (p := fun c => c.isAlphanum = true)
            (fun _ => isAlphanum_of_mem_hexDigits) (fun _ => isAlphanum_of_mem_hexDigits)
            (by simp) (by simp) h
          exact ⟨Char.toNat_inj.mp (toDigits_inj (by decide) (by decide) hcode),
            (List.cons.inj hbehind).2⟩

end Writes

/-! ### Whole texts -/

/-- Two quoted texts that go on alike are the same. -/
theorem append_inj_of_flatMap {chars chars' rest rest' : List Char}
    (h : chars.flatMap quoteChar ++ '"' :: rest = chars'.flatMap quoteChar ++ '"' :: rest') :
    chars = chars' ∧ rest = rest' := by
  induction chars generalizing chars' with
  | nil =>
      cases chars' with
      | nil => exact ⟨rfl, (List.cons.inj h).2⟩
      | cons c chars' =>
          rw [List.flatMap_cons, List.append_assoc] at h
          exact absurd h.symm (writes_quoteChar c).ne_quote
  | cons c chars ih =>
      rw [List.flatMap_cons, List.append_assoc] at h
      cases chars' with
      | nil => exact absurd h (writes_quoteChar c).ne_quote
      | cons c' chars' =>
          rw [List.flatMap_cons, List.append_assoc] at h
          obtain ⟨rfl, hmore⟩ := (writes_quoteChar c).append_inj (writes_quoteChar c') h
          obtain ⟨rfl, hbehind⟩ := ih hmore
          exact ⟨rfl, hbehind⟩

/-- The characters of a quoted text. -/
theorem toList_quoted (text : String) :
    (quoted text).toList = '"' :: (text.toList.flatMap quoteChar ++ ['"']) :=
  String.toList_ofList

/-- **Different texts have different quotations**, and none is the beginning of
another. -/
theorem quoted_append_inj {text text' : String} {rest rest' : List Char}
    (h : (quoted text).toList ++ rest = (quoted text').toList ++ rest') :
    text = text' ∧ rest = rest' := by
  simp only [toList_quoted, List.cons_append, List.append_assoc, List.nil_append,
    List.cons.injEq, true_and] at h
  obtain ⟨hchars, hrest⟩ := append_inj_of_flatMap h
  exact ⟨String.toList_injective hchars, hrest⟩

end FunctionIR.Text
