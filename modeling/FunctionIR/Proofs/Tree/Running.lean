import FunctionIR.Tree.Numbering

/-!
# Runs that succeed

A computation that creates nodes runs from a counter, and it may fail.  It
**yields** values with a property if all that it succeeds with have the property
(`Numbered.Yields`).

A run of two steps that succeeds is a run of the one step and then of the other
(`Numbered.runFrom_bind`).  With this a run is taken apart step by step.
-/

namespace FunctionIR.Numbered

variable {α β : Type} {P : α → Prop} {Q : β → Prop}

/-- What the computation succeeds with has the property. -/
def Yields (m : Numbered α) (P : α → Prop) : Prop :=
  ∀ counter a next, m.runFrom counter = (.ok a, next) → P a

theorem Yields.pure {a : α} (h : P a) : Yields (Pure.pure a) P := by
  rintro counter _ _ ⟨⟩
  exact h

/-- A fault yields no value. -/
theorem Yields.throw {fault : Fault} : Yields (MonadExcept.throw fault : Numbered α) P := by
  intro counter a next h
  cases h

/-- A run that succeeds goes on from some counter. -/
theorem runFrom_of_ok {m : Numbered α} {counter : Nat} {a : α}
    (h : (m.runFrom counter).1 = .ok a) :
    m.runFrom counter = (.ok a, (m.runFrom counter).2) :=
  Prod.ext h rfl

/-- A run of two steps. -/
theorem runFrom_bind {m : Numbered α} {k : α → Numbered β} {counter last : Nat} {b : β}
    (h : (m >>= k).runFrom counter = (.ok b, last)) :
    ∃ a next, m.runFrom counter = (.ok a, next) ∧ (k a).runFrom next = (.ok b, last) := by
  simp only [runFrom, ExceptT.run_bind, StateT.run_bind] at h
  cases hrun : m.runFrom counter with
  | mk outcome next =>
      change StateT.run (ExceptT.run m) counter = _ at hrun
      rw [hrun] at h
      cases outcome with
      | error fault => cases h
      | ok a => exact ⟨a, next, rfl, h⟩

theorem Yields.bind {m : Numbered α} {f : α → Numbered β} (hm : m.Yields P)
    (hf : ∀ a, P a → (f a).Yields Q) : Yields (m >>= f) Q := by
  intro counter b last h
  obtain ⟨a, next, hrun, h⟩ := runFrom_bind h
  exact hf a (hm counter a next hrun) next b last h

theorem Yields.mono {Q : α → Prop} {m : Numbered α} (h : m.Yields P) (himp : ∀ a, P a → Q a) :
    m.Yields Q :=
  fun counter a next hrun => himp a (h counter a next hrun)

/-- Nothing is asked of the value. -/
theorem yields_any (m : Numbered α) : m.Yields fun _ => True :=
  fun _ _ _ _ => trivial

/-- A new head has the kind and place that was asked for. -/
theorem yields_head (kind : Kind) (location : Option Location) (span : Option Span) :
    (head kind location span).Yields
      fun head => head.kind = kind ∧ head.location = location ∧ head.span = span := by
  rintro counter _ _ ⟨⟩
  exact ⟨rfl, rfl, rfl⟩

end FunctionIR.Numbered
