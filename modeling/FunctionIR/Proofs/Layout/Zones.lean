import FunctionIR.Proofs.Layout.Returns

/-!
# Blanks between tokens

Whether blanks stand between two tokens is told by reading the text before them
character by character, without the grammar (`Zone`).  Behind some of it, the
text is in a comment or in a string, or else in the code; in the code it is in
a name or a number that may go on, or in neither.

A **seam** is a point in the code, with a token before it and a token behind it
(`Seam`).  A **run** of blanks can be put there: spaces, tabs, and backslashes
that hide the end of their line (`IsRun`).

The words of `not in` and `is not` are one token of the grammar, which has
spaces and tabs between them and no backslashes.  So there is one more thing
to be told of a seam, whether it lies between two such words
(`SplitsOperator`).  The word before it must be a word, and not the end of a
name: after `1` and after `1e5` there can be a word at once, after `a1` or
`x.e5` a name goes on.
-/

namespace FunctionIR.Grammar

/-! ### Zones -/

/-- What a text has come to. -/
inductive Zone
  /-- Neither a name nor a number goes on. -/
  | gap
  | name
  /-- The digits of a number. -/
  | number
  /-- Right behind the point of a number. -/
  | point
  /-- A number behind its point, or behind the `e` of its exponent. -/
  | fraction
  | comment
  /-- A string, and the quote that ends it. -/
  | string (quote : Char)
  /-- Right behind a backslash in a string. -/
  | escape (quote : Char)
deriving DecidableEq

namespace Zone

/-- The zone behind a character with which something new begins. -/
def opening (c : Char) : Zone :=
  if c = '"' ∨ c = '\'' then .string c
  else if c = '#' then .comment
  else if c.isDigit then .number
  else if CharClass.nameChar.holds c then .name
  else .gap

/-- The zone behind one more character. -/
def after : Zone → Char → Zone
  | .gap, c => opening c
  | .name, c => if CharClass.nameChar.holds c then .name else opening c
  | .number, c =>
      if c.isDigit ∨ c = '_' then .number
      else if CharClass.nameChar.holds c then .fraction
      else if c = '.' then .point
      else opening c
  | .point, c | .fraction, c => if CharClass.nameChar.holds c then .fraction else opening c
  | .comment, c => if endsLine c then .gap else .comment
  | .string quote, c =>
      if c = '\\' then .escape quote
      else if c = quote ∨ endsLine c then .gap
      else .string quote
  | .escape quote, _ => .string quote

/-- The zone behind a text. -/
def past (zone : Zone) (text : List Char) : Zone := text.foldl after zone

/-- The zone is in the code. -/
def isCode : Zone → Bool
  | .gap | .name | .number | .point | .fraction => true
  | .comment | .string _ | .escape _ => false

/-- The zone is in a number. -/
def isNumeric : Zone → Bool
  | .number | .point | .fraction => true
  | _ => false

end Zone

/-- A character that neither belongs to a name or number nor begins a string or a
comment. -/
def isNeutral (c : Char) : Bool :=
  !CharClass.nameChar.holds c && c != '.' && c != '"' && c != '\'' && c != '#'

namespace Zone

variable {zone : Zone} {text more : List Char} {c : Char}

theorem past_append (zone : Zone) (text more : List Char) :
    zone.past (text ++ more) = (zone.past text).past more :=
  List.foldl_append

/-- A number is code. -/
theorem isCode_of_isNumeric (h : zone.isNumeric = true) : zone.isCode = true := by
  cases zone with
  | number | point | fraction => rfl
  | _ => cases h

/-- A neutral character leads into a gap. -/
theorem after_neutral (hzone : zone.isCode = true) (hc : isNeutral c = true) :
    zone.after c = .gap := by
  simp only [isNeutral, Bool.and_eq_true, Bool.not_eq_true', bne_iff_ne] at hc
  obtain ⟨⟨⟨⟨hname, hpoint⟩, hquote⟩, hmark⟩, hhash⟩ := hc
  have hdigit : c.isDigit = false := by
    cases hd : c.isDigit with
    | false => rfl
    | true => simp [CharClass.holds, Char.isAlphanum, hd] at hname
  have hunder : c ≠ '_' := by
    rintro rfl
    cases hname
  cases zone with
  | comment | string | escape => cases hzone
  | _ => simp [after, opening, *]

/-- Behind neutral characters there is a gap. -/
theorem past_neutral (hzone : zone.isCode = true) (htext : ∀ c ∈ text, isNeutral c = true)
    (hne : text ≠ []) : zone.past text = .gap := by
  induction text generalizing zone with
  | nil => exact absurd rfl hne
  | cons c text ih =>
      obtain ⟨hc, hmore⟩ := List.forall_mem_cons.mp htext
      rw [past, List.foldl_cons, after_neutral hzone hc]
      by_cases hnil : text = []
      · rw [hnil]
        rfl
      · exact ih rfl hmore hnil

/-- From a gap neutral characters do not lead away. -/
theorem past_gap (htext : ∀ c ∈ text, isNeutral c = true) : gap.past text = .gap := by
  by_cases hne : text = []
  · rw [hne]
    rfl
  · exact past_neutral rfl htext hne

/-- A line break ends comments, names and numbers. -/
theorem past_endsLine (hzone : zone.isCode = true ∨ zone = .comment)
    (htext : ∀ c ∈ text, endsLine c = true) (hne : text ≠ []) : zone.past text = .gap := by
  have hneutral : ∀ c, endsLine c = true → isNeutral c = true := by
    intro c hc
    simp only [endsLine, Bool.or_eq_true, beq_iff_eq] at hc
    rcases hc with rfl | rfl <;> rfl
  rcases hzone with hzone | rfl
  · exact past_neutral hzone (fun c hc => hneutral c (htext c hc)) hne
  · obtain ⟨c, text, rfl⟩ := List.exists_cons_of_ne_nil hne
    obtain ⟨hc, hmore⟩ := List.forall_mem_cons.mp htext
    rw [past, List.foldl_cons, after, if_pos hc]
    exact past_gap fun d hd => hneutral d (hmore d hd)

/-- Names and numbers are code. -/
theorem isCode_after (hzone : zone.isCode = true) (hc : CharClass.nameChar.holds c = true) :
    (zone.after c).isCode = true := by
  have hne : ∀ d, CharClass.nameChar.holds d = false → c ≠ d := by
    rintro d hd rfl
    rw [hd] at hc
    cases hc
  have hquote : c ≠ '"' := hne _ rfl
  have hmark : c ≠ '\'' := hne _ rfl
  have hhash : c ≠ '#' := hne _ rfl
  have hopening : (opening c).isCode = true := by
    simp only [opening, hquote, hmark, hhash, or_self, if_false, hc, if_true]
    split <;> rfl
  cases zone with
  | gap => exact hopening
  | name | point | fraction =>
      rw [after, if_pos hc]
      rfl
  | number =>
      rw [after, if_pos hc]
      split <;> rfl
  | comment | string | escape => cases hzone

/-- Characters of names lead from code to code. -/
theorem isCode_past (hzone : zone.isCode = true)
    (htext : ∀ c ∈ text, CharClass.nameChar.holds c = true) : (zone.past text).isCode = true := by
  induction text generalizing zone with
  | nil => exact hzone
  | cons c text ih =>
      obtain ⟨hc, hmore⟩ := List.forall_mem_cons.mp htext
      exact ih (isCode_after hzone hc) hmore

/-- A point does not leave the code. -/
theorem isCode_point (hzone : zone.isCode = true) : (zone.after '.').isCode = true := by
  cases zone with
  | comment | string | escape => cases hzone
  | _ => rfl

/-- A comment begins in the code. -/
theorem after_hash (hzone : zone.isCode = true) : zone.after '#' = .comment := by
  cases zone with
  | comment | string | escape => cases hzone
  | _ => rfl

/-- A string begins in the code. -/
theorem after_quote (hzone : zone.isCode = true) {quote : Char} (h : quote = '"' ∨ quote = '\'') :
    zone.after quote = .string quote := by
  cases zone with
  | comment | string | escape => cases hzone
  | _ => rcases h with rfl | rfl <;> rfl

/-- A digit begins a number. -/
theorem gap_after_digit (hc : c.isDigit = true) : gap.after c = .number := by
  have hne : ∀ d : Char, d.isDigit = false → c ≠ d := by
    rintro d hd rfl
    rw [hd] at hc
    cases hc
  simp [after, opening, hc, hne '"' rfl, hne '\'' rfl, hne '#' rfl]

/-- A number goes on with what can be in a name. -/
theorem isNumeric_after (hzone : zone.isNumeric = true) (hc : CharClass.nameChar.holds c = true) :
    (zone.after c).isNumeric = true := by
  cases zone with
  | point | fraction =>
      rw [after, if_pos hc]
      rfl
  | number =>
      rw [after, if_pos hc]
      split <;> rfl
  | gap | name | comment | string | escape => cases hzone

end Zone

/-! ### Runs of blanks -/

/-- Spaces, tabs and backslashes that hide the end of their line, at least one of
them. -/
def IsRun (run : List Char) : Prop := run ≠ [] ∧ clear run = []

/-- Whether a text is a run can be seen by clearing it. -/
instance (run : List Char) : Decidable (IsRun run) := inferInstanceAs (Decidable (_ ∧ _))

/-- Spaces and tabs only. -/
def IsPlain (run : List Char) : Prop := ∀ c ∈ run, CharClass.blank.holds c = true

/-- Whether a run is plain can be seen from its characters. -/
instance (run : List Char) : Decidable (IsPlain run) :=
  List.decidableBAll (fun c => CharClass.blank.holds c = true) run

/-- A run begins with the character. -/
def opensRun (c : Char) : Bool := CharClass.blank.holds c || c == '\\'

/-- The character can be in a run. -/
def isLayout (c : Char) : Bool := opensRun c || endsLine c

/-- A character that a token can begin or end with. -/
def IsSolid (c : Char) : Prop := Text.isBlank c = false ∧ c ≠ '\\' ∧ c ≠ '#'

instance (c : Char) : Decidable (IsSolid c) := inferInstanceAs (Decidable (_ ∧ _ ∧ _))

/-- The text ends with a token. -/
def EndsSolid (text : List Char) : Prop := ∃ c, text.getLast? = some c ∧ IsSolid c

/-- Characters of runs, one by one. -/
theorem eq_of_isLayout {c : Char} (h : isLayout c = true) :
    c = ' ' ∨ c = '\t' ∨ c = '\\' ∨ c = '\n' ∨ c = '\r' := by
  simpa [isLayout, opensRun, endsLine, CharClass.holds, or_assoc] using h

/-- The characters of runs are neutral. -/
theorem isNeutral_of_isLayout {c : Char} (h : isLayout c = true) : isNeutral c = true := by
  rcases eq_of_isLayout h with rfl | rfl | rfl | rfl | rfl <;> rfl

/-- A character of a token is in no run. -/
theorem IsSolid.not_isLayout {c : Char} (h : IsSolid c) : isLayout c = false := by
  cases hc : isLayout c with
  | false => rfl
  | true =>
      rcases eq_of_isLayout hc with rfl | rfl | rfl | rfl | rfl <;> exact absurd h (by decide)

section

variable {run text behind : List Char} {c : Char}

/-- What is left of a text ends as the text does. -/
theorem EndsSolid.of_append {chars : List Char} (h : EndsSolid (chars ++ text)) (hne : text ≠ []) :
    EndsSolid text := by
  obtain ⟨c, hlast, hc⟩ := h
  rw [List.getLast?_append, List.getLast?_eq_some_getLast hne, Option.some_or] at hlast
  exact ⟨c, (List.getLast?_eq_some_getLast hne).trans hlast, hc⟩

/-- What a text ends with is no layout. -/
theorem EndsSolid.not_layout (h : EndsSolid text) : ¬ ∀ c ∈ text, isLayout c = true := by
  obtain ⟨c, hlast, hc⟩ := h
  intro hall
  have hlayout := hall c (List.mem_of_getLast? hlast)
  rw [hc.not_isLayout] at hlayout
  cases hlayout

/-- Behind layout more is left. -/
theorem EndsSolid.of_layout {chars : List Char} (h : EndsSolid (chars ++ text))
    (hchars : ∀ c ∈ chars, isLayout c = true) : text ≠ [] ∧ EndsSolid text := by
  have hne : text ≠ [] := by
    rintro rfl
    rw [List.append_nil] at h
    exact h.not_layout hchars
  exact ⟨hne, h.of_append hne⟩

/-- A run begins with a blank or a backslash. -/
theorem IsRun.head (h : IsRun run) : ∃ c rest, run = c :: rest ∧ opensRun c = true := by
  obtain ⟨hne, hclear⟩ := h
  cases run with
  | nil => exact absurd rfl hne
  | cons c rest =>
      refine ⟨c, rest, rfl, ?_⟩
      cases hopens : opensRun c with
      | true => rfl
      | false =>
          simp only [opensRun, CharClass.holds, Bool.or_eq_false_iff, beq_eq_false_iff_ne] at hopens
          rw [clear_cons hopens.1.1 hopens.1.2 hopens.2] at hclear
          cases hclear

/-- Blanks are skipped in a text as they are in the text alone, unless there is
nothing else in it. -/
theorem skipBlanks_append (text : List Char) :
    ∃ blanks, text = blanks ++ clear text ∧ (∀ c ∈ blanks, isLayout c = true) ∧
      ∀ behind, (∀ c more, behind = c :: more → endsLine c = false) → ∀ place,
        skipBlanks place (text ++ behind) =
          if clear text = [] then skipBlanks (blanks.foldl Place.after place) behind
          else (clear text ++ behind, blanks.foldl Place.after place) := by
  -- the blanks do not depend on the place they are skipped from
  rw [clear]
  generalize Place.origin = origin
  fun_induction skipBlanks origin text with
  | case1 origin rest ih =>
      obtain ⟨blanks, hrest, hblanks, hskip⟩ := ih
      exact ⟨' ' :: blanks, congrArg _ hrest, List.forall_mem_cons.mpr ⟨rfl, hblanks⟩,
        fun behind hbehind place => by
          rw [List.cons_append, skipBlanks, hskip behind hbehind]
          rfl⟩
  | case2 origin rest ih =>
      obtain ⟨blanks, hrest, hblanks, hskip⟩ := ih
      exact ⟨'\t' :: blanks, congrArg _ hrest, List.forall_mem_cons.mpr ⟨rfl, hblanks⟩,
        fun behind hbehind place => by
          rw [List.cons_append, skipBlanks, hskip behind hbehind]
          rfl⟩
  | case3 origin rest ih =>
      obtain ⟨blanks, hrest, hblanks, hskip⟩ := ih
      refine ⟨'\\' :: '\n' :: blanks, congrArg (['\\', '\n'] ++ ·) hrest, ?_,
        fun behind hbehind place => ?_⟩
      · exact List.forall_mem_cons.mpr ⟨rfl, List.forall_mem_cons.mpr ⟨rfl, hblanks⟩⟩
      · rw [List.cons_append, List.cons_append, skipBlanks, hskip behind hbehind]
        rfl
  | case4 origin rest ih =>
      obtain ⟨blanks, hrest, hblanks, hskip⟩ := ih
      refine ⟨'\\' :: '\r' :: '\n' :: blanks, congrArg (['\\', '\r', '\n'] ++ ·) hrest, ?_,
        fun behind hbehind place => ?_⟩
      · exact List.forall_mem_cons.mpr ⟨rfl, List.forall_mem_cons.mpr
          ⟨rfl, List.forall_mem_cons.mpr ⟨rfl, hblanks⟩⟩⟩
      · rw [List.cons_append, List.cons_append, List.cons_append, skipBlanks, hskip behind hbehind]
        rfl
  | case5 origin rest hfeed ih =>
      obtain ⟨blanks, hrest, hblanks, hskip⟩ := ih
      refine ⟨'\\' :: '\r' :: blanks, congrArg (['\\', '\r'] ++ ·) hrest, ?_,
        fun behind hbehind place => ?_⟩
      · exact List.forall_mem_cons.mpr ⟨rfl, List.forall_mem_cons.mpr ⟨rfl, hblanks⟩⟩
      · rw [List.cons_append, List.cons_append, skipBlanks, hskip behind hbehind]
        · rfl
        · -- the line feed that could come next would have to be behind the text
          intro more hmore
          cases rest with
          | nil => exact absurd (hbehind _ _ hmore) (by decide)
          | cons c rest =>
              obtain ⟨rfl, -⟩ := List.cons.inj hmore
              exact hfeed rest rfl
  | case6 origin rest hspace htab hfeed hboth hreturn =>
      refine ⟨[], rfl, List.forall_mem_nil _, fun behind hbehind place => ?_⟩
      by_cases hnil : rest = []
      · rw [if_pos hnil, hnil]
        rfl
      · obtain ⟨c, rest, rfl⟩ := List.exists_cons_of_ne_nil hnil
        rw [if_neg hnil, skipBlanks_self]
        · rfl
        · rintro more hmore
          obtain ⟨rfl, -⟩ := List.cons.inj hmore
          exact hspace rest rfl
        · rintro more hmore
          obtain ⟨rfl, -⟩ := List.cons.inj hmore
          exact htab rest rfl
        · rintro d more hd hmore
          obtain ⟨hc, htail⟩ := List.cons.inj hmore
          subst hc
          cases rest with
          | nil =>
              rw [hbehind d more htail] at hd
              cases hd
          | cons e rest =>
              obtain ⟨rfl, -⟩ := List.cons.inj htail
              simp only [endsLine, Bool.or_eq_true, beq_iff_eq] at hd
              rcases hd with rfl | rfl
              · exact hfeed rest rfl
              · exact hreturn rest rfl

/-- No blanks are skipped before a token. -/
theorem IsSolid.clear_cons (hc : IsSolid c) (later : List Char) :
    clear (c :: later) = c :: later := by
  have hlayout := hc.not_isLayout
  refine Grammar.clear_cons ?_ ?_ hc.2.1 later <;> rintro rfl <;> cases hlayout

/-- A run is skipped up to the token behind it. -/
theorem IsRun.skipBlanks_append (h : IsRun run) (hc : IsSolid c) (later : List Char)
    (place : Place) :
    skipBlanks place (run ++ c :: later) = (c :: later, run.foldl Place.after place) := by
  obtain ⟨blanks, hrun, -, hskip⟩ := Grammar.skipBlanks_append run
  rw [h.2, List.append_nil] at hrun
  have hbehind : ∀ d more, c :: later = d :: more → endsLine d = false := by
    intro d more hd
    obtain ⟨rfl, -⟩ := List.cons.inj hd
    exact (Bool.or_eq_false_iff.mp hc.not_isLayout).2
  rw [hskip _ hbehind, if_pos h.2, skipBlanks_of_clear (hc.clear_cons later), ← hrun]

/-- In a text that ends with a token blanks are skipped within the text. -/
theorem EndsSolid.skipBlanks_append (h : EndsSolid text) :
    ∃ blanks left, text = blanks ++ left ∧ left ≠ [] ∧ (∀ c ∈ blanks, isLayout c = true) ∧
      ∀ behind, (∃ c more, behind = c :: more ∧ opensRun c = true) → ∀ place,
        skipBlanks place (text ++ behind) = (left ++ behind, blanks.foldl Place.after place) := by
  obtain ⟨blanks, htext, hblanks, hskip⟩ := Grammar.skipBlanks_append text
  have hne : clear text ≠ [] := by
    intro hnil
    rw [hnil, List.append_nil] at htext
    exact h.not_layout (htext ▸ hblanks)
  refine ⟨blanks, clear text, htext, hne, hblanks, ?_⟩
  rintro behind ⟨d, more, rfl, hd⟩ place
  rw [hskip, if_neg hne]
  rintro c _ hc
  obtain ⟨rfl, -⟩ := List.cons.inj hc
  simp only [opensRun, CharClass.holds, Bool.or_eq_true, beq_iff_eq] at hd
  rcases hd with (rfl | rfl) | rfl <;> rfl

/-- A run is plain up to its first backslash. -/
theorem IsRun.exists_plain (h : IsRun run) : ∃ blanks tail, run = blanks ++ tail ∧
    IsPlain blanks ∧ (tail = [] ∨ ∃ more, tail = '\\' :: more) := by
  obtain ⟨-, hclear⟩ := h
  rw [clear] at hclear
  generalize Place.origin = origin at hclear
  fun_induction skipBlanks origin run with
  | case1 origin rest ih | case2 origin rest ih =>
      obtain ⟨blanks, tail, rfl, hblanks, htail⟩ := ih hclear
      exact ⟨_ :: blanks, tail, rfl, List.forall_mem_cons.mpr ⟨rfl, hblanks⟩, htail⟩
  | case3 origin rest | case4 origin rest | case5 origin rest =>
      exact ⟨[], _, rfl, List.forall_mem_nil _, .inr ⟨_, rfl⟩⟩
  | case6 origin rest => exact ⟨[], rest, rfl, List.forall_mem_nil _, .inl hclear⟩

end

/-! ### Seams -/

/-- The text starts with a token. -/
def StartsSolid (text : List Char) : Prop := ∃ c later, text = c :: later ∧ IsSolid c

/-- In the code, a token ends before the point and one starts behind it. -/
structure Seam (before after : List Char) : Prop where
  ends : EndsSolid before
  starts : StartsSolid after
  code : (Zone.gap.past before).isCode = true

/-- The text ends with the word, which is not the end of a name. -/
def EndsInWord (text : List Char) (word : String) : Prop :=
  ∃ early, text = early ++ word.toList ∧ Zone.gap.past early ≠ .name

/-- The text starts with the word, which is not the start of a name. -/
def StartsWithWord (text : List Char) (word : String) : Prop :=
  ∃ later, text = word.toList ++ later ∧ Pattern.Bounded later

/-- Before and behind the point stand the two words of an operator. -/
def SplitsOperator (before after : List Char) : Prop :=
  (EndsInWord before "not" ∧ StartsWithWord after "in") ∨
    (EndsInWord before "is" ∧ StartsWithWord after "not")

section

variable {text before after : List Char} {word : String}

instance : Decidable (EndsSolid text) :=
  decidable_of_iff (text.getLast?.any (IsSolid ·) = true) (by
    simp only [Option.any_eq_true, decide_eq_true_eq]
    rfl)

instance : Decidable (StartsSolid text) :=
  decidable_of_iff (text.head?.any (IsSolid ·) = true) (by
    simp only [Option.any_eq_true, decide_eq_true_eq, List.head?_eq_some_iff]
    constructor
    · rintro ⟨c, ⟨later, rfl⟩, hc⟩
      exact ⟨c, later, rfl, hc⟩
    · rintro ⟨c, later, rfl, hc⟩
      exact ⟨c, ⟨later, rfl⟩, hc⟩)

instance : Decidable (Seam before after) :=
  decidable_of_iff (EndsSolid before ∧ StartsSolid after ∧ (Zone.gap.past before).isCode = true)
    ⟨fun ⟨hends, hstarts, hcode⟩ => ⟨hends, hstarts, hcode⟩, fun h => ⟨h.ends, h.starts, h.code⟩⟩

instance : Decidable (EndsInWord text word) :=
  decidable_of_iff (word.toList <:+ text ∧
      Zone.gap.past (text.take (text.length - word.toList.length)) ≠ .name) (by
    constructor
    · rintro ⟨⟨early, rfl⟩, hzone⟩
      simp only [List.length_append, Nat.add_sub_cancel, List.take_left] at hzone
      exact ⟨early, rfl, hzone⟩
    · rintro ⟨early, rfl, hzone⟩
      simp only [List.length_append, Nat.add_sub_cancel, List.take_left]
      exact ⟨List.suffix_append early _, hzone⟩)

instance : Decidable (StartsWithWord text word) :=
  decidable_of_iff (word.toList <+: text ∧
      (text.drop word.toList.length).head?.all (!CharClass.nameChar.holds ·) = true) (by
    have hbounded : ∀ later : List Char,
        later.head?.all (!CharClass.nameChar.holds ·) = true ↔ Pattern.Bounded later := by
      intro later
      simp only [Option.all_eq_true, List.head?_eq_some_iff, Bool.not_eq_true']
      constructor
      · exact fun h c more hlater => h c ⟨more, hlater⟩
      · exact fun h c ⟨more, hlater⟩ => h c more hlater
    constructor
    · rintro ⟨⟨later, rfl⟩, hlater⟩
      rw [List.drop_left] at hlater
      exact ⟨later, rfl, (hbounded later).mp hlater⟩
    · rintro ⟨later, rfl, hlater⟩
      rw [List.drop_left]
      exact ⟨List.prefix_append _ later, (hbounded later).mpr hlater⟩)

instance : Decidable (SplitsOperator before after) := inferInstanceAs (Decidable (_ ∨ _))

end

end FunctionIR.Grammar
