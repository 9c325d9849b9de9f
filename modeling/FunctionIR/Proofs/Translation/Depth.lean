import FunctionIR.Proofs.Translation.Calls
import FunctionIR.Tree.Numbering

/-!
# The bound on depth

How deep nodes may be is asked at one place only: where a node is looked at.
A step that is not refused for its depth is therefore the same step under every
higher bound (`Step.take_of_le`), and so is a whole course up to its first
refusal (`follow_of_le`).  A translation that does not fail for depth has its
result, its numbers and its events under every higher bound.

A bound is high enough if no visited value lies deeper
(`not_tooDeep_of_depths`).  A course is finite, so there is such a bound for
every tree.
-/

namespace FunctionIR

/-- The fault is that a node is too deep. -/
def Fault.isTooDeep : Fault → Bool
  | .tooDeep _ _ => true
  | _ => false

/-- The form of a node is not a matter of its depth. -/
theorem isTooDeep_formFault (head : Head) (fields : Fields) :
    (formFault head fields).any Fault.isTooDeep = false := by
  unfold formFault
  split
  · split <;> rfl
  · split
    next hform =>
      unfold functionForm at hform
      split at hform
      · cases hform
        rfl
      · split at hform <;> cases hform
        rfl
    · rfl
  · rfl

section Bounds

variable {limit limit' : Nat}

/-- A step that is not refused for its depth is the same under a higher
bound. -/
theorem Step.take_of_le (hle : limit ≤ limit') (step : Step) (t : Translator)
    (hdeep : (step.take limit t).1.any Fault.isTooDeep = false) :
    step.take limit' t = step.take limit t := by
  cases step with
  | make | enter | leave => rfl
  | visit v =>
      obtain ⟨depth, site, value⟩ := v
      cases value with
      | scalar | list | foreign => rfl
      | node head fields =>
          by_cases h : limit < depth
          · have hfault : ((Step.visit ⟨depth, site, .node head fields⟩).take limit t).1 =
                some (.tooDeep limit head.location) := if_pos h
            rw [hfault] at hdeep
            cases hdeep
          · have h' : ¬ limit' < depth := by omega
            simp only [Step.take, Visit.fault, Translator.reach, h, h', if_false]

/-- A course that is not broken off for depth is followed in the same way under
a higher bound. -/
theorem follow_of_le (hle : limit ≤ limit') (steps : List Step) (t : Translator)
    (hdeep : (follow limit steps t).1.any Fault.isTooDeep = false) :
    follow limit' steps t = follow limit steps t := by
  induction steps generalizing t with
  | nil => rfl
  | cons step steps ih =>
      have htake : step.take limit' t = step.take limit t := by
        refine step.take_of_le hle t ?_
        rw [follow] at hdeep
        generalize step.take limit t = taken at hdeep ⊢
        obtain ⟨_ | fault, after⟩ := taken
        · rfl
        · exact hdeep
      simp only [follow, htake] at hdeep ⊢
      generalize step.take limit t = taken at hdeep ⊢
      obtain ⟨_ | fault, after⟩ := taken
      · exact ih after hdeep
      · rfl

/-- Where no visited value is deeper than the bound, nothing fails for
depth. -/
theorem not_tooDeep_of_depths {steps : List Step} (h : ∀ v ∈ visits steps, v.depth ≤ limit)
    (t : Translator) : (follow limit steps t).1.any Fault.isTooDeep = false := by
  rw [follow_fault]
  cases hfault : (visits steps).findSome? (Visit.fault limit) with
  | none => rfl
  | some fault =>
      obtain ⟨⟨depth, site, value⟩, hv, hfault⟩ := List.exists_of_findSome?_eq_some hfault
      have hdepth : depth ≤ limit := h _ hv
      rw [← hfault]
      cases value with
      | scalar | list => rfl
      | foreign raw => cases site <;> rfl
      | node head fields =>
          have hform : Visit.fault limit ⟨depth, site, .node head fields⟩ =
              formFault head fields := if_neg (Nat.not_lt.mpr hdepth)
          rw [hform]
          exact isTooDeep_formFault head fields

end Bounds

/-- Some bound is high enough for a whole course. -/
theorem exists_depth_le (steps : List Step) : ∃ limit, ∀ v ∈ visits steps, v.depth ≤ limit := by
  induction visits steps with
  | nil => exact ⟨0, by simp⟩
  | cons first rest ih =>
      obtain ⟨limit, hrest⟩ := ih
      refine ⟨max first.depth limit, fun v hv => ?_⟩
      rcases List.mem_cons.mp hv with rfl | hv
      · exact Nat.le_max_left _ _
      · exact Nat.le_trans (hrest v hv) (Nat.le_max_right _ _)

namespace Session

/-- The session with another bound on the depth of nodes. -/
def bounded (limit : Nat) (session : Session) : Session :=
  { session with config := { session.config with maxDepth := limit } }

/-- The translation of a tree fails because a node is too deep. -/
def failsForDepth (session : Session) (tree : Node) : Bool :=
  match (session.translateIn tree).1 with
  | .error fault => fault.isTooDeep
  | .ok _ => false

/-- A translation fails for depth where its course is broken off for depth.
That the root is no function is found after the course. -/
theorem failsForDepth_eq (session : Session) (tree : Node) :
    session.failsForDepth tree =
      (follow session.config.maxDepth (course 0 tree.toValue)
        session.translator).1.any Fault.isTooDeep := by
  rw [failsForDepth, (translateIn_run tree).1, run_translateTree]
  generalize follow session.config.maxDepth (course 0 tree.toValue) session.translator = followed
  obtain ⟨_ | fault, after⟩ := followed
  · cases (rendered session.translator.scope session.translator.nextId
      tree.toValue).1.asFunction <;> rfl
  · rfl

end Session

/-- **A higher bound changes no answer that is not about depth.**  Where a
translation under one bound does not fail for depth, it has the same outcome
under every higher bound and leaves the same session, the bound apart: the same
function with the same numbers or the same fault, the same events and the same
counter.  For every tree there is a bound from which on no translation of it
fails for depth. -/
theorem translateIn_of_bound_le (tree : Node) :
    (∀ (session : Session) (limit limit' : Nat), limit ≤ limit' →
      (session.bounded limit).failsForDepth tree = false →
      (session.bounded limit').translateIn tree =
        (((session.bounded limit).translateIn tree).1,
          ((session.bounded limit).translateIn tree).2.bounded limit')) ∧
    ∃ limit, ∀ (session : Session) (limit' : Nat), limit ≤ limit' →
      (session.bounded limit').failsForDepth tree = false := by
  constructor
  · intro session limit limit' hle hdeep
    rw [Session.failsForDepth_eq] at hdeep
    have hfollow : follow limit' (course 0 tree.toValue) session.translator =
        follow limit (course 0 tree.toValue) session.translator := follow_of_le hle _ _ hdeep
    have hrun : (translateTree (session.bounded limit').config tree).runFrom
          (session.bounded limit').translator =
        (translateTree (session.bounded limit).config tree).runFrom
          (session.bounded limit).translator := by
      simp only [run_translateTree, Session.bounded, hfollow]
    simp only [Session.translateIn, hrun]
    generalize (translateTree (session.bounded limit).config tree).runFrom
      (session.bounded limit).translator = ran
    obtain ⟨_ | function, after⟩ := ran <;> rfl
  · obtain ⟨limit, hlimit⟩ := exists_depth_le (course 0 tree.toValue)
    refine ⟨limit, fun session limit' hle => ?_⟩
    rw [Session.failsForDepth_eq]
    exact not_tooDeep_of_depths (fun v hv => Nat.le_trans (hlimit v hv) hle) _

/-- A function in a function is too deep for the bound 2, and has one
translation under the bounds 3 and 7. -/
theorem translateIn_of_bound_le_nested :
    let source := Source.ofText "m" "def f():\n    def g():\n        pass\n" .program
    let session := Session.begin .standard "_"
    ∃ tree, (source.tree.runFrom 1).1 = .ok tree ∧
      ((session.bounded 2).failsForDepth tree = true ∧
        3 ≤ 7 ∧ (session.bounded 3).failsForDepth tree = false) ∧
      (session.bounded 7).translateIn tree =
        (((session.bounded 3).translateIn tree).1,
          ((session.bounded 3).translateIn tree).2.bounded 7) := by
  intro source session
  obtain ⟨tree, htree, hdeep⟩ : ∃ tree, (source.tree.runFrom 1).1 = .ok tree ∧
      ((session.bounded 2).failsForDepth tree = true ∧
        3 ≤ 7 ∧ (session.bounded 3).failsForDepth tree = false) := by
    decide +kernel
  exact ⟨tree, htree, hdeep,
    (translateIn_of_bound_le tree).1 session 3 7 hdeep.2.1 hdeep.2.2⟩

end FunctionIR
