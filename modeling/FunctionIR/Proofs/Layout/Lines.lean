import FunctionIR.Proofs.Grammar.Inversion

/-!
# Lines of a text

What stands before a place on its line is its **leading** text.  A match tells
it character by character: it grows with what is read, and is empty behind a
line break.  For that the state must be one in the text (`State.In`), which
every match keeps.
-/

namespace FunctionIR.Grammar

/-- A text moves a place on by as many lines as it has line feeds. -/
theorem Place.line_foldl (text : List Char) (place : Place) :
    (text.foldl Place.after place).line = place.line + text.count '\n' := by
  induction text generalizing place with
  | nil => rfl
  | cons c text ih =>
      rw [List.foldl_cons, ih, List.count_cons, Place.after]
      by_cases hc : c = '\n'
      · rw [if_pos hc, if_pos (beq_iff_eq.mpr hc)]
        dsimp only
        omega
      · rw [if_neg hc, if_neg (by simpa using hc)]
        rfl

/-- Behind a line feed a line starts. -/
theorem Place.column_foldl_break (text : List Char) (place : Place) :
    ((text ++ ['\n']).foldl Place.after place).column = 0 := by
  rw [List.foldl_append]
  rfl

/-- No two parts of a text end at the same line and column. -/
theorem Place.append_eq_self {chars : List Char} {place : Place}
    (hline : (chars.foldl Place.after place).line = place.line)
    (hcolumn : (chars.foldl Place.after place).column = place.column) : chars = [] := by
  have hnone : chars.count '\n' = 0 := by
    rw [Place.line_foldl] at hline
    omega
  have hcolumns : (chars.foldl Place.after place).column = place.column + chars.length := by
    clear hline hcolumn
    induction chars generalizing place with
    | nil => rfl
    | cons c chars ih =>
        rw [List.count_eq_zero, List.mem_cons, not_or] at hnone
        rw [List.foldl_cons, ih (List.count_eq_zero.mpr hnone.2), Place.after,
          if_neg (Ne.symm hnone.1), List.length_cons]
        dsimp only
        omega
  exact List.eq_nil_of_length_eq_zero (by omega)

/-- The character ends a line. -/
def endsLine (c : Char) : Bool := c == '\n' || c == '\r'

/-- The text of its line that comes before a place. -/
def leading (text : List Char) (place : Place) : List Char :=
  ((text.take place.offset).reverse.takeWhile fun c => !endsLine c).reverse

/-- The state is the one behind some part of the text. -/
def State.In (text : List Char) (s : State) : Prop :=
  ∃ before, text = before ++ s.rest ∧ s.place = before.foldl Place.after .origin

/-- The state that starts a text is in it. -/
theorem State.in_ofText (text : List Char) : (State.ofText text).In text := ⟨[], rfl, rfl⟩

/-- A match stays in the text. -/
theorem kept_in (text : List Char) : Kept fun s t => s.In text → t.In text where
  refl _ h := h
  trans h h' hs := h' (h hs)
  take {s c rest} hrest hs := by
    obtain ⟨before, htext, hplace⟩ := hs
    refine ⟨before ++ [c], ?_, ?_⟩
    · rw [htext, hrest]
      simp [State.take]
    · rw [State.take, List.foldl_append, ← hplace]
      rfl
  margin _ _ hs := hs
  rule {r spacing s t} h hs := by
    have hopen : (s.openRule r spacing).In text := by
      unfold State.openRule
      split <;> exact hs
    have ht := h hopen
    unfold State.afterRule State.closeRule
    split <;> exact ht

namespace State.In

variable {text : List Char} {s : State}

/-- What has been read of the text before some more. -/
theorem take_past {chars rest : List Char} (h : s.In text) (hs : s.rest = chars ++ rest) :
    text.take (s.past chars rest).place.offset = text.take s.place.offset ++ chars := by
  obtain ⟨before, rfl, hplace⟩ := h
  have hoffset : s.place.offset = before.length := by
    rw [hplace, Place.offset_foldl]
    exact Nat.zero_add _
  rw [State.past, Place.offset_foldl, hoffset, hs, List.take_left, ← List.append_assoc,
    ← List.length_append, List.take_left]

/-- The leading text grows with what is read on the line. -/
theorem leading_past {chars rest : List Char} (h : s.In text) (hs : s.rest = chars ++ rest)
    (hchars : ∀ c ∈ chars, endsLine c = false) :
    leading text (s.past chars rest).place = leading text s.place ++ chars := by
  have hall : ∀ c ∈ chars.reverse, (!endsLine c) = true := by
    intro c hc
    rw [hchars c (List.mem_reverse.mp hc)]
    rfl
  rw [leading, h.take_past hs, List.reverse_append, List.takeWhile_append_of_pos hall,
    List.reverse_append, List.reverse_reverse]
  rfl

/-- Behind the end of a line nothing has been read of the next. -/
theorem leading_break {chars rest : List Char} {c : Char} (h : s.In text)
    (hs : s.rest = (chars ++ [c]) ++ rest) (hc : endsLine c = true) :
    leading text (s.past (chars ++ [c]) rest).place = [] := by
  rw [leading, h.take_past hs, ← List.append_assoc, List.reverse_append, List.reverse_singleton,
    List.singleton_append, List.takeWhile_cons, hc]
  rfl

end State.In

namespace Pattern

variable {text : List Char} {spacing : Spacing} {s t : State} {n : Nat}

/-- A pattern without rules that does not change the margin changes nothing but
how far the text is read. -/
theorem MatchesIn.keeps {p : Pattern} (hp : p.uses (fun _ => false) = true)
    (h : p.MatchesIn n spacing s t) : t.margin = s.margin ∧ t.phrases = s.phrases := by
  have hR : Advances fun s t => t.margin = s.margin ∧ t.phrases = s.phrases :=
    ⟨fun _ => ⟨rfl, rfl⟩, fun h h' => ⟨h'.1.trans h.1, h'.2.trans h.2⟩, fun _ => ⟨rfl, rfl⟩⟩
  exact hR.of_uses (fun hr => by cases hr) hp h

/-! ### Line breaks -/

/-- A line break ends with a character that ends a line. -/
theorem newline_matches (h : newline.Matches spacing s t) :
    ∃ chars c rest, s.rest = (chars ++ [c]) ++ rest ∧ t = s.past (chars ++ [c]) rest ∧
      endsLine c = true := by
  rcases matches_choice_iff.mp h with h | ⟨-, h⟩
  · obtain ⟨rest, hs, ht⟩ := matches_text_iff.mp h
    exact ⟨[], '\n', rest, hs, ht, rfl⟩
  rcases matches_choice_iff.mp h with h | ⟨-, h⟩
  · obtain ⟨rest, hs, ht⟩ := matches_text_iff.mp h
    exact ⟨['\r'], '\n', rest, hs, ht, rfl⟩
  · obtain ⟨rest, hs, ht⟩ := matches_text_iff.mp h
    exact ⟨[], '\r', rest, hs, ht, rfl⟩

/-- Behind a line break a line begins. -/
theorem leading_newline (h : newline.Matches spacing s t) (hs : s.In text) :
    leading text t.place = [] := by
  obtain ⟨chars, c, rest, hrest, rfl, hc⟩ := newline_matches h
  exact hs.leading_break hrest hc

/-- A match stays in the text it starts in. -/
theorem Matches.in_text {p : Pattern} (h : p.Matches spacing s t) (hs : s.In text) : t.In text := by
  obtain ⟨n, hn⟩ := h
  exact (kept_in text).of_matched hn hs

/-- A blank line. -/
theorem leading_blankLine (h : (Pattern.seq blankRest newline).Matches .tight s t)
    (hs : s.In text) : leading text t.place = [] := by
  obtain ⟨u, hblank, hnewline⟩ := matches_seq_iff.mp h
  exact leading_newline hnewline (hblank.in_text hs)

/-- Behind blank lines a line begins. -/
theorem leading_blankLines (h : Rounds (.seq blankRest newline) .tight s t) (hs : s.In text)
    (hstart : leading text s.place = []) : leading text t.place = [] := by
  induction h with
  | none => exact hstart
  | more first _ ih => exact ih (first.in_text hs) (leading_blankLine first hs)

/-- Behind a line break, with any blank lines after it, a line starts. -/
theorem leading_lineBreak (h : lineBreak.Matches .tight s t) (hs : s.In text) :
    leading text t.place = [] := by
  obtain ⟨u, hblank, h⟩ := matches_seq_iff.mp h
  obtain ⟨v, hnewline, hmany⟩ := matches_seq_iff.mp h
  have hu : u.In text := hblank.in_text hs
  obtain ⟨hrounds, -⟩ := (matches_many_iff_rounds State.skip_tight).mp hmany
  exact leading_blankLines hrounds (hnewline.in_text hu) (leading_newline hnewline hu)

/-! ### Indentation -/

/-- Single characters one after the other, without anything between them. -/
theorem rounds_one {set : CharClass} (h : Rounds (.one set) .tight s t) :
    ∃ chars rest, s.rest = chars ++ rest ∧ t = s.past chars rest ∧
      ∀ c ∈ chars, set.holds c = true := by
  induction h with
  | none s => exact ⟨[], s.rest, rfl, rfl, List.forall_mem_nil _⟩
  | more first _ ih =>
      obtain ⟨c, rest, hs, hc, rfl⟩ := matches_one_iff.mp first
      obtain ⟨chars, rest', hrest, rfl, hchars⟩ := ih
      rw [State.past_rest] at hrest
      refine ⟨c :: chars, rest', ?_, ?_, List.forall_mem_cons.mpr ⟨hc, hchars⟩⟩
      · rw [State.skip_tight] at hs
        rw [hs, hrest]
        rfl
      · rw [State.past_past]
        rfl

/-- An indentation is some blanks. -/
theorem indentation_matches (h : indentation.Matches .tight s t) :
    ∃ width rest, s.rest = width ++ rest ∧ t = s.past width rest ∧ width ≠ [] ∧
      ∀ c ∈ width, CharClass.blank.holds c = true := by
  obtain ⟨u, hfirst, hmany⟩ := matches_seq_iff.mp h
  obtain ⟨hrounds, -⟩ := (matches_many_iff_rounds State.skip_tight).mp hmany
  obtain ⟨c, rest, hs, hc, rfl⟩ := matches_one_iff.mp hfirst
  obtain ⟨chars, rest', hrest, rfl, hchars⟩ := rounds_one hrounds
  change rest = chars ++ rest' at hrest
  refine ⟨c :: chars, rest', ?_, State.past_past s [c] chars rest rest', List.cons_ne_nil c chars,
    List.forall_mem_cons.mpr ⟨hc, hchars⟩⟩
  rw [hs, hrest]
  rfl

/-- An indentation adds blanks only to the margin. -/
theorem blank_of_indentation (h : indentation.Matches .tight s t) :
    ∀ c ∈ s.textUpTo t, CharClass.blank.holds c = true := by
  obtain ⟨width, rest, hrest, rfl, -, hblank⟩ := indentation_matches h
  rwa [State.textUpTo_past hrest]

/-- A blank does not end a line. -/
theorem endsLine_of_blank {c : Char} (h : CharClass.blank.holds c = true) : endsLine c = false := by
  simp only [CharClass.holds, Bool.or_eq_true, beq_iff_eq] at h
  rcases h with rfl | rfl <;> rfl

end Pattern

end FunctionIR.Grammar
