import FunctionIR.Proofs.Grammar.Invariant
import FunctionIR.Proofs.Grammar.Tokens
import Mathlib.Order.Defs.PartialOrder

/-!
# Where phrases lie

A phrase says where it starts and stops, which text it covers and of which
parts it is made.  In the phrases that come out of a match these agree
(`Phrase.InPlace`): the text leads from the start to the stop, and the parts
lie in the text one after the other, with gaps between them that belong to
none.

Places are compared by lines, then by columns, and reading only moves on.  So
a part lies within the phrase around it, and stops before the next part starts.
-/

namespace FunctionIR.Grammar

/-! ### The order of places -/

/-- A place comes before another by its line, or on the same line by its
column. -/
instance : Preorder Place where
  le a b := a.line < b.line ∨ (a.line = b.line ∧ a.column ≤ b.column)
  le_refl _ := .inr ⟨rfl, Nat.le_refl _⟩
  le_trans a b c hab hbc := by omega

/-- A character moves a place forwards. -/
theorem Place.le_after (place : Place) (c : Char) : place ≤ place.after c := by
  unfold Place.after
  split
  · exact .inl (Nat.lt_succ_self _)
  · exact .inr ⟨rfl, Nat.le_succ _⟩

/-- Reading moves on. -/
theorem Place.le_foldl (text : List Char) (place : Place) :
    place ≤ text.foldl Place.after place := by
  induction text generalizing place with
  | nil => exact le_refl place
  | cons c text ih => exact le_trans (place.le_after c) (ih _)

/-! ### Phrases in place -/

mutual

/-- The text of the phrase leads from where it starts to where it stops, and
its parts lie in it. -/
inductive Phrase.InPlace : Phrase → Prop
  | mk {rule : Rule} {start stop : Place} {text : List Char} {parts : List Phrase} :
      stop = text.foldl Place.after start → PartsInPlace start text parts →
      Phrase.InPlace (.mk rule start stop text parts)

/-- The phrases lie in the text that starts at the place, one after the
other. -/
inductive PartsInPlace : Place → List Char → List Phrase → Prop
  | nil {place : Place} {text : List Char} : PartsInPlace place text []
  | cons {place : Place} {text gap rest : List Char} {part : Phrase} {parts : List Phrase} :
      text = gap ++ (part.text ++ rest) → part.start = gap.foldl Place.after place →
      part.InPlace → PartsInPlace part.stop rest parts → PartsInPlace place text (part :: parts)

end

namespace Phrase.InPlace

variable {phrase : Phrase}

/-- A phrase ends where its text leads from its start. -/
theorem stop_eq (h : phrase.InPlace) :
    phrase.stop = phrase.text.foldl Place.after phrase.start := by
  cases h with
  | mk hstop _ => exact hstop

/-- The parts of a phrase lie within its text, in order. -/
theorem inside (h : phrase.InPlace) : PartsInPlace phrase.start phrase.text phrase.parts := by
  cases h with
  | mk _ hparts => exact hparts

/-- A phrase does not stop before it starts. -/
theorem start_le_stop (h : phrase.InPlace) : phrase.start ≤ phrase.stop := by
  rw [h.stop_eq]
  exact Place.le_foldl _ _

end Phrase.InPlace

namespace PartsInPlace

variable {place : Place} {text more : List Char} {parts after : List Phrase}

/-- What lies behind a gap lies behind a longer one. -/
theorem behind (gap : List Char) (h : PartsInPlace (gap.foldl Place.after place) text parts) :
    PartsInPlace place (gap ++ text) parts := by
  cases h with
  | nil => exact .nil
  | @cons _ _ gap' rest part parts htext hstart hpart hrest =>
      have hlonger : gap ++ text = (gap ++ gap') ++ (part.text ++ rest) := by
        rw [htext, List.append_assoc]
      refine .cons hlonger ?_ hpart hrest
      rw [hstart, List.foldl_append]

/-- Phrases in two texts, one behind the other. -/
theorem append (h : PartsInPlace place text parts)
    (h' : PartsInPlace (text.foldl Place.after place) more after) :
    PartsInPlace place (text ++ more) (parts ++ after) := by
  induction parts generalizing place text with
  | nil => exact h'.behind text
  | cons part parts ih =>
      cases h with
      | @cons _ _ gap rest _ _ htext hstart hpart hrest =>
          have hend : text.foldl Place.after place = rest.foldl Place.after part.stop := by
            rw [htext, List.foldl_append, List.foldl_append, ← hstart, hpart.stop_eq]
          rw [hend] at h'
          have hlonger : text ++ more = gap ++ (part.text ++ (rest ++ more)) := by
            rw [htext, List.append_assoc, List.append_assoc]
          exact .cons hlonger hstart hpart (ih hrest h')

/-- A part lies where the text lies. -/
theorem bounds (h : PartsInPlace place text parts) : ∀ part ∈ parts,
    part.InPlace ∧ place ≤ part.start ∧ part.stop ≤ text.foldl Place.after place := by
  induction parts generalizing place text with
  | nil => exact List.forall_mem_nil _
  | cons part parts ih =>
      cases h with
      | @cons _ _ gap rest _ _ htext hstart hpart hrest =>
          have hbefore : place ≤ part.start := by
            rw [hstart]
            exact Place.le_foldl _ _
          have hend : text.foldl Place.after place = rest.foldl Place.after part.stop := by
            rw [htext, List.foldl_append, List.foldl_append, ← hstart, hpart.stop_eq]
          rw [hend]
          refine List.forall_mem_cons.mpr
            ⟨⟨hpart, hbefore, Place.le_foldl _ _⟩, fun other hother => ?_⟩
          obtain ⟨hin, hstart', hstop'⟩ := ih hrest other hother
          exact ⟨hin, le_trans (le_trans hbefore hpart.start_le_stop) hstart', hstop'⟩

end PartsInPlace

namespace Phrase.InPlace

variable {phrase : Phrase}

/-- The parts of a phrase lie within it. -/
theorem parts (h : phrase.InPlace) : ∀ part ∈ phrase.parts,
    part.InPlace ∧ phrase.start ≤ part.start ∧ part.stop ≤ phrase.stop := by
  rw [h.stop_eq]
  exact h.inside.bounds

end Phrase.InPlace

/-! ### Matching puts phrases in place -/

/-- From the one state to the other a text is read, and phrases in it are
found. -/
def Covers (s t : State) : Prop :=
  ∃ text found, s.rest = text ++ t.rest ∧ t.place = text.foldl Place.after s.place ∧
    t.phrases = found.reverse ++ s.phrases ∧ PartsInPlace s.place text found

/-- What is covered is the text between the states. -/
theorem Covers.rest_eq {s t : State} (h : Covers s t) : s.rest = s.textUpTo t ++ t.rest := by
  obtain ⟨text, -, hrest, hplace, -⟩ := h
  have htext : s.textUpTo t = text := by
    simp [State.textUpTo, hplace, hrest, Place.offset_foldl]
  rw [htext, hrest]

/-- Reading a text keeps that it is covered. -/
theorem kept_covers : Kept Covers where
  refl s := ⟨[], [], rfl, rfl, rfl, .nil⟩
  trans {s t u} h h' := by
    obtain ⟨text, found, hrest, hplace, hphrases, hin⟩ := h
    obtain ⟨text', found', hrest', hplace', hphrases', hin'⟩ := h'
    refine ⟨text ++ text', found ++ found', ?_, ?_, ?_, hin.append ?_⟩
    · rw [hrest, hrest', List.append_assoc]
    · rw [hplace', hplace, List.foldl_append]
    · rw [hphrases', hphrases, List.reverse_append, List.append_assoc]
    · rwa [← hplace]
  take {s c rest} hrest := ⟨[c], [], hrest, rfl, rfl, .nil⟩
  margin s _ := ⟨[], [], rfl, rfl, rfl, .nil⟩
  rule {r spacing s t} h := by
    unfold State.openRule at h
    unfold State.afterRule
    split at h
    next hvisible =>
      obtain ⟨text, found, hrest, hplace, hphrases, hin⟩ := h
      have htext : s.textUpTo t = text := by
        simp only at hrest hplace
        simp [State.textUpTo, hplace, hrest, Place.offset_foldl]
      rw [if_pos hvisible, State.closeRule]
      split
      · refine ⟨text, [.mk r s.place t.place text found], hrest, hplace, ?_, ?_⟩
        · simp [htext, hphrases]
        · have hwhole : text = [] ++ (text ++ []) := by simp
          exact .cons hwhole rfl (.mk hplace hin) .nil
      · exact ⟨text, [], hrest, hplace, rfl, .nil⟩
    next hvisible => rwa [if_neg hvisible]

/-- **The phrases of a matched text are in place.** -/
theorem inPlace_of_matchText {rule : Rule} {text : List Char} {s : State} {tried : Attempts}
    (h : rule.matchText text = (.matched s, tried)) : ∀ phrase ∈ s.phrases, phrase.InPlace := by
  have hmatched : (Pattern.rule rule).outcome (stepsFor text.length) .loose (.ofText text) =
      .matched s := congrArg Prod.fst h
  obtain ⟨_, found, -, -, hphrases, hin⟩ := kept_covers.of_matched hmatched
  intro phrase hphrase
  rw [hphrases] at hphrase
  exact (hin.bounds phrase (by simpa [State.ofText] using hphrase)).1

end FunctionIR.Grammar
