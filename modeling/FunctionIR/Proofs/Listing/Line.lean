import FunctionIR.Proofs.Grammar.Blocks
import FunctionIR.Proofs.Printing.Literal
import FunctionIR.Text.Blank

/-!
# Lines

A line break, the margin and the indentation of a block are matched by blanks
alone, so what matters of the rest of a text is whether it ends, and how far
its next line is indented.  A text **dedents** to an indentation
(`Dedents`) if it ends or its next line is indented no further.

A line deeper than that cannot come next: in a wider margin the margin is
avoided (`Dedents.avoids_line`).
-/

namespace FunctionIR.Listing

open Grammar Grammar.Pattern

/-- An indentation. -/
def spaces (n : Nat) : List Char := List.replicate n ' '

theorem spaces_append (n m : Nat) : spaces n ++ spaces m = spaces (n + m) :=
  List.replicate_append_replicate

/-- A character that a statement can begin with. -/
def Begins (c : Char) : Prop := Text.isBlank c = false ∧ c ≠ '#'

/-- A character that begins a statement is no blank. -/
theorem Begins.blank {c : Char} (h : Begins c) : CharClass.blank.holds c = false := by
  simp only [CharClass.holds, Bool.or_eq_false_iff, beq_eq_false_iff_ne, ne_eq]
  constructor <;> (rintro rfl; exact absurd h.1 (by decide))

/-- A character that begins a statement ends no line. -/
theorem Begins.breaks {c : Char} (h : Begins c) : c ≠ '\n' ∧ c ≠ '\r' := by
  constructor <;> (rintro rfl; exact absurd h.1 (by decide))

/-- A letter or an underscore begins a statement. -/
theorem begins_of_nameStart {c : Char} (h : CharClass.nameStart.holds c = true) : Begins c := by
  have hrange := Printing.nameStart_range h
  refine ⟨?_, by rintro rfl; revert hrange; decide⟩
  simp only [Text.isBlank, Text.inRanges, Text.blankRanges, List.any_cons, List.any_nil,
    Bool.or_eq_false_iff, Bool.and_eq_false_iff, decide_eq_false_iff_not, and_true]
  simp only [Char.reduceToNat] at hrange
  omega

/-- What remains of a line after its indentation: nothing, or a statement. -/
def Line (line : List Char) : Prop :=
  line = [] ∨ ∃ k c more, line = spaces k ++ c :: more ∧ Begins c

/-- The text ends, or its next line is indented no further. -/
inductive Dedents (n : Nat) : List Char → Prop
  | finish : Dedents n []
  | newline : Dedents n ['\n']
  | line {k : Nat} {c : Char} (hk : k ≤ n) (hc : Begins c) (more : List Char) :
      Dedents n ('\n' :: (spaces k ++ c :: more))

theorem Dedents.mono {n m : Nat} {rest : List Char} (h : Dedents n rest) (hle : n ≤ m) :
    Dedents m rest := by
  cases h with
  | finish => exact .finish
  | newline => exact .newline
  | line hk hc more => exact .line (Nat.le_trans hk hle) hc more

/-- No blanks come before a line break. -/
theorem Dedents.clear_eq {n : Nat} {rest : List Char} (h : Dedents n rest) :
    clear rest = rest := by
  cases h with
  | finish => rfl
  | newline => exact clear_cons (by decide) (by decide) (by decide) _
  | line => exact clear_cons (by decide) (by decide) (by decide) _

/-- An indentation is blank. -/
theorem spaces_blank (k : Nat) : ∀ c ∈ spaces k, CharClass.blank.holds c = true := by
  intro c hc
  rw [List.eq_of_mem_replicate hc]
  rfl

/-- Blanks, and no comment after them. -/
theorem blankRest_spells {k : Nat} {tail : List Char}
    (htail : ∀ c more, tail = c :: more → CharClass.blank.holds c = false ∧ c ≠ '#') :
    blankRest.Spells (spaces k) tail := by
  have hblank := spells_many_one (spaces_blank k) fun c more h => (htail c more h).1
  have hcomment : (lit "#").Rejects tail :=
    Printing.rejects_lit _ rfl fun c more h => (htail c more h).2
  have h : blankRest.Spells (spaces k ++ []) tail := hblank.seq hcomment.seq.opt
  rwa [List.append_nil] at h

/-- There is no line break where another character is next. -/
theorem newline_rejects {tail : List Char}
    (htail : ∀ c more, tail = c :: more → c ≠ '\n' ∧ c ≠ '\r') : newline.Rejects tail := by
  have hn : (lit "\n").Rejects tail := Printing.rejects_lit _ rfl fun c more h => (htail c more h).1
  have hr : (lit "\r").Rejects tail := Printing.rejects_lit _ rfl fun c more h => (htail c more h).2
  have hrn : (lit "\r\n").Rejects tail :=
    Printing.rejects_lit _ rfl fun c more h => (htail c more h).2
  exact hn.choice_rejects (hrn.choice_rejects hr)

theorem blankRest_nil : blankRest.Spells (spaces 0) [] := blankRest_spells nofun

theorem newline_rejects_nil : newline.Rejects [] := newline_rejects nofun

/-- **A line break** ends before the indentation of the next line. -/
theorem lineBreak_spells {line : List Char} (h : Line line) :
    lineBreak.Spells ['\n'] line := by
  have hnone : blankRest.Spells (spaces 0) ('\n' :: line) :=
    blankRest_spells (by rintro c more ⟨⟩; decide)
  have hnewline : newline.Spells ['\n'] line := (spells_text ['\n']).choice
  have hstop : (parts [blankRest, newline]).Rejects line := by
    rcases h with rfl | ⟨k, c, more, rfl, hc⟩
    · exact blankRest_nil.seq_rejects newline_rejects_nil
    · have hblanks : blankRest.Spells (spaces k) (c :: more) :=
        blankRest_spells (by rintro d _ ⟨⟩; exact ⟨hc.blank, hc.2⟩)
      exact hblanks.seq_rejects (newline_rejects (by rintro d _ ⟨⟩; exact hc.breaks))
  have h : lineBreak.Spells (spaces 0 ++ (['\n'] ++ [])) line :=
    hnone.seq (hnewline.seq hstop.many)
  exact h

/-- No line break comes at the end. -/
theorem lineBreak_rejects_nil : lineBreak.Rejects [] :=
  blankRest_nil.seq_rejects newline_rejects_nil.seq

/-- A line break leads to the next line. -/
theorem lays_lineBreak {margin : List (List Char)} {line : List Char} (h : Line line) :
    Lays .tight margin margin lineBreak ('\n' :: line) line Nothing :=
  (lineBreak_spells h).lays (by decide)

/-- There is no line break at the end of the text, whatever the margin. -/
theorem avoids_lineBreak {margin : List (List Char)} : Avoids .tight margin lineBreak [] :=
  lineBreak_rejects_nil.avoids (by decide)

/-- A wider margin does not come on a line indented less. -/
theorem not_prefix_spaces {n k : Nat} {c : Char} {more : List Char} (hlt : k < n)
    (hc : Begins c) : ¬ spaces n <+: spaces k ++ c :: more := by
  rintro ⟨tail, htail⟩
  obtain ⟨d, rfl⟩ : ∃ d, n = k + (d + 1) := ⟨n - k - 1, by omega⟩
  rw [← spaces_append, List.append_assoc, List.append_cancel_left_eq] at htail
  have hspace : c = ' ' := by
    simp only [spaces, List.replicate_succ, List.cons_append, List.cons.injEq] at htail
    exact htail.1.symm
  have hblank := hc.blank
  rw [hspace] at hblank
  exact absurd hblank (by decide)

/-- **A deeper line does not come next.** -/
theorem Dedents.avoids_line {n m : Nat} {rest : List Char} {margin : List (List Char)}
    {p : Pattern} (h : Dedents n rest) (hlt : n < m) (hmargin : margin.flatten = spaces m) :
    Avoids .tight margin (.seq lineBreak (.seq .margin p)) rest := by
  cases h with
  | finish => exact avoids_lineBreak.seq
  | newline =>
      refine (lays_lineBreak (.inl rfl)).seq_avoids (avoids_margin ?_).seq
      rw [hmargin]
      rintro ⟨tail, htail⟩
      obtain ⟨d, rfl⟩ : ∃ d, m = d + 1 := ⟨m - 1, by omega⟩
      simp [spaces, List.replicate_succ, Spacing.after] at htail
  | line hk hc more =>
      refine (lays_lineBreak (.inr ⟨_, _, more, rfl, hc⟩)).seq_avoids (avoids_margin ?_).seq
      rw [hmargin]
      exact not_prefix_spaces (by omega) hc

end FunctionIR.Listing
