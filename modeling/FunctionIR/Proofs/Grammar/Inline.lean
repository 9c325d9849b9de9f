import FunctionIR.Proofs.Grammar.Inversion

/-!
# Phrases inside a line

A rule without line breaks is made of such rules only, and so the phrase it
leaves has no others in it (`adds_inline`).

What a match adds to the phrases of a state can be told together with a
condition on how far it has come (`Adds`), which is more than the pattern alone
can tell.
-/

namespace FunctionIR.Grammar

/-- All rules in the phrase are without line breaks. -/
inductive Phrase.Inline : Phrase → Prop
  | mk {rule : Rule} {start stop : Place} {chars : List Char} {parts : List Phrase} :
      rule.isInline = true → (∀ part ∈ parts, part.Inline) →
      Phrase.Inline (.mk rule start stop chars parts)

namespace Phrase.Inline

variable {phrase : Phrase}

/-- An inline phrase is of an inline rule. -/
theorem rule (h : phrase.Inline) : phrase.rule.isInline = true := by
  cases h with
  | mk hrule _ => exact hrule

/-- It is no block. -/
theorem ne_block (h : phrase.Inline) : phrase.rule ≠ .block := by
  intro hblock
  have hrule := h.rule
  rw [hblock] at hrule
  cases hrule

end Phrase.Inline

/-! ### Adding phrases -/

/-- The condition lasts while more is read, and does not look at phrases. -/
structure Steady (C : State → Prop) : Prop where
  take : ∀ {s c rest}, s.rest = c :: rest → C s → C (s.take c rest)
  phrases : ∀ {s} (phrases), C s → C { s with phrases := phrases }

/-- From a state with the condition one comes to another, and the phrases found
on the way have the property. -/
def Adds (C : State → Prop) (P : Phrase → Prop) (s t : State) : Prop :=
  C s → C t ∧ ∃ found, t.phrases = found ++ s.phrases ∧ ∀ phrase ∈ found, P phrase

namespace Adds

variable {C : State → Prop} {P Q : Phrase → Prop} {s t u : State}

/-- A step that adds no phrase. -/
theorem none (h : C s → C t) (hphrases : t.phrases = s.phrases) : Adds C P s t :=
  fun hs => ⟨h hs, [], hphrases, List.forall_mem_nil _⟩

theorem trans (h : Adds C P s t) (h' : Adds C P t u) : Adds C P s u := by
  intro hs
  obtain ⟨ht, found, hfound, hP⟩ := h hs
  obtain ⟨hu, more, hmore, hP'⟩ := h' ht
  refine ⟨hu, more ++ found, ?_, ?_⟩
  · rw [hmore, hfound, List.append_assoc]
  · intro phrase hmem
    rcases List.mem_append.mp hmem with hmem | hmem
    · exact hP' phrase hmem
    · exact hP phrase hmem

theorem mono (h : Adds C P s t) (hPQ : ∀ phrase, P phrase → Q phrase) : Adds C Q s t := by
  intro hs
  obtain ⟨ht, found, hfound, hP⟩ := h hs
  exact ⟨ht, found, hfound, fun phrase hmem => hPQ phrase (hP phrase hmem)⟩

/-- What is added can be told along any run. -/
theorem advances (hC : Steady C) : Advances (Adds C P) where
  refl _ := none id rfl
  trans := trans
  take hrest := none (hC.take hrest) rfl

/-- The phrases found inside a rule that is seen are its parts. -/
theorem parts {r : Rule} {spacing : Spacing} (hC : Steady C) (hvisible : r.visible spacing = true)
    (h : Adds C P (s.openRule r spacing) t) (hs : C s) :
    C t ∧ ∀ part ∈ t.phrases.reverse, P part := by
  rw [State.openRule_of_visible hvisible] at h
  obtain ⟨ht, found, hfound, hP⟩ := h (hC.phrases [] hs)
  refine ⟨ht, fun part hpart => hP part ?_⟩
  rw [hfound] at hpart
  simpa using hpart

end Adds

section

open Pattern

variable {C : State → Prop} {s t : State} {n : Nat} {spacing : Spacing} {r : Rule}

/-- **A rule inside a line** leaves phrases that are inside a line, and the
margin as it is. -/
theorem adds_inline (hC : Steady C) (hr : r.isInline = true)
    (h : (Pattern.rule r).MatchesIn n spacing s t) : Adds C Phrase.Inline s t := by
  induction n using Nat.strongRecOn generalizing r spacing s t with
  | _ n ih =>
  obtain ⟨k, hk, u, hu, rfl⟩ := h.rule_inv
  have hadds : Adds C Phrase.Inline (s.openRule r spacing) u :=
    (Adds.advances hC).of_uses (ih k hk) (Rule.uses_inline hr) hu
  cases hvisible : r.visible spacing with
  | false => simpa [State.openRule, State.afterRule, hvisible] using hadds
  | true =>
      intro hs
      obtain ⟨hCu, hparts⟩ := hadds.parts hC hvisible hs
      rw [State.afterRule, if_pos hvisible]
      refine ⟨hC.phrases _ hCu, ?_⟩
      cases hkept : r.definition.kept with
      | false => exact ⟨[], rfl, List.forall_mem_nil _⟩
      | true => exact ⟨[_], rfl, List.forall_mem_singleton.mpr (.mk hr hparts)⟩

end

end FunctionIR.Grammar
