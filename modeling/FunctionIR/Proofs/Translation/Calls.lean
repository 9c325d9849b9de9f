import FunctionIR.Proofs.Translation.Course
import FunctionIR.Session

/-!
# Calls of a session

`generate` and `translateIn` run a translation in the session's scope,
`translate` runs it at the top.  What they return and how far they advance the
counter is read off the course of what is translated: a call succeeds where no
step is refused, and then the rendered fragment is what it returns.
-/

namespace FunctionIR

variable {session : Session}

/-- A fragment is a function where some function is that fragment. -/
theorem asFunction_eq_some {fragment : Fragment} {function : Function} :
    fragment.asFunction = some function ↔ fragment = function.toFragment := by
  cases fragment <;> simp [Fragment.asFunction, Function.toFragment]
  obtain ⟨_, _, _, _, _⟩ := function
  simp

namespace Session

/-- A value is translated where no step of its course is refused. -/
theorem generate_eq_ok {value : Value} {fragment : Fragment} :
    (session.generate value).1 = .ok fragment ↔
      (follow session.config.maxDepth (course 0 value) session.translator).1 = none ∧
      (rendered session.translator.scope session.translator.nextId value).1 = fragment := by
  have hrun := follows_value session.config 0 value session.translator
  simp only [generate]
  generalize follow session.config.maxDepth (course 0 value) session.translator = followed
    at hrun ⊢
  obtain ⟨refused, after⟩ := followed
  cases refused with
  | some fault =>
      simp only at hrun
      simp [hrun]
  | none => simp [hrun.1]

/-- The counter after a value is translated, or was to be. -/
theorem nextId_generate (value : Value) :
    (session.generate value).2.translator.nextId =
      (follow session.config.maxDepth (course 0 value) session.translator).2.nextId := by
  have hrun := follows_value session.config 0 value session.translator
  simp only [generate]
  generalize follow session.config.maxDepth (course 0 value) session.translator = followed
    at hrun ⊢
  obtain ⟨refused, after⟩ := followed
  cases refused with
  | some fault =>
      simp only at hrun
      rw [hrun]
  | none => rw [hrun.1]

/-- Registering a function changes neither the outcome nor the counter. -/
theorem translateIn_run (tree : Node) :
    (session.translateIn tree).1 =
        ((translateTree session.config tree).runFrom session.translator).1 ∧
      (session.translateIn tree).2.translator.nextId =
        ((translateTree session.config tree).runFrom session.translator).2.nextId := by
  simp only [translateIn]
  generalize (translateTree session.config tree).runFrom session.translator = ran
  obtain ⟨outcome, after⟩ := ran
  cases outcome <;> exact ⟨rfl, rfl⟩

/-- A tree is translated where no step of its course is refused and the
rendered fragment is a function. -/
theorem translateIn_eq_ok {tree : Node} {function : Function} :
    (session.translateIn tree).1 = .ok function ↔
      (follow session.config.maxDepth (course 0 tree.toValue) session.translator).1 = none ∧
      (rendered session.translator.scope session.translator.nextId tree.toValue).1 =
        function.toFragment := by
  rw [(translateIn_run tree).1, run_translateTree, ← asFunction_eq_some]
  generalize follow session.config.maxDepth (course 0 tree.toValue) session.translator = followed
  obtain ⟨refused, after⟩ := followed
  cases refused with
  | some fault => simp
  | none =>
      cases (rendered session.translator.scope session.translator.nextId
        tree.toValue).1.asFunction <;> simp

/-- The counter after a tree is translated, or was to be. -/
theorem nextId_translateIn (tree : Node) :
    (session.translateIn tree).2.translator.nextId =
      (follow session.config.maxDepth (course 0 tree.toValue)
        session.translator).2.nextId := by
  rw [(translateIn_run tree).2, run_translateTree]
  generalize follow session.config.maxDepth (course 0 tree.toValue) session.translator = followed
  obtain ⟨refused, after⟩ := followed
  cases refused with
  | some fault => rfl
  | none =>
      cases (rendered session.translator.scope session.translator.nextId
        tree.toValue).1.asFunction <;> rfl

/-- The session with its scope at the top. -/
def atTop (session : Session) : Session :=
  { session with
    translator := { session.translator with scope := .top session.config.separator } }

/-- Translating at the top is translating in the session's scope, were that at
the top. -/
theorem translate_atTop (tree : Node) :
    (session.translate tree).1 = (session.atTop.translateIn tree).1 ∧
      (session.translate tree).2.translator.nextId =
        (session.atTop.translateIn tree).2.translator.nextId := ⟨rfl, rfl⟩

end Session

end FunctionIR
