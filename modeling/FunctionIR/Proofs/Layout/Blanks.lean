import FunctionIR.Proofs.Layout.SeamRules
import FunctionIR.Proofs.Layout.Comments
import FunctionIR.Proofs.Reading.Denotes

/-!
# Blanks between tokens are interchangeable

A run of blanks between two tokens can be replaced by any other run, with the
same tree up to numbers and places (`blanks_interchangeable`).  The tokens may
be any two, and the run may go over as many lines as it likes.

The one exception are the words of `not in` and `is not`.  They are one token,
with spaces and tabs between them, and there a run with a backslash is not as
good as one without (`operator_broken`).
-/

namespace FunctionIR

open Grammar Numbered Reading

/-! ### Forms of trees -/

section

variable {L : Location → Location → Prop}

mutual

/-- Values that differ in numbers and places have the same form. -/
theorem Relocates.form_eq : {value value' : Value} → Relocates L value value' →
    value'.form = value.form
  | _, _, .scalar _ => rfl
  | _, _, .node hhead hfields => by
      rw [Value.form, Value.form, hhead.kind, FieldsRelocate.form_eq hfields]
  | _, _, .list hitems => by rw [Value.form, Value.form, ItemsRelocate.form_eq hitems]

theorem ItemsRelocate.form_eq : {items items' : List Value} → ItemsRelocate L items items' →
    Value.formItems items' = Value.formItems items
  | _, _, .nil => rfl
  | _, _, .cons hitem hrest => by
      rw [Value.formItems, Value.formItems, Relocates.form_eq hitem, ItemsRelocate.form_eq hrest]

theorem FieldsRelocate.form_eq : {fields fields' : Fields} → FieldsRelocate L fields fields' →
    Value.formFields fields' = Value.formFields fields
  | _, _, .nil => rfl
  | _, _, .cons hvalue hrest => by
      rw [Value.formFields, Value.formFields, Relocates.form_eq hvalue,
        FieldsRelocate.form_eq hrest]

end

/-- So have trees. -/
theorem Node.Relocates.form_eq {tree tree' : Node} (h : tree.Relocates L tree') :
    tree'.toValue.form = tree.toValue.form :=
  FunctionIR.Relocates.form_eq (.node h.head h.fields)

end

/-! ### Texts with a seam -/

/-- A text with a token in it is not empty. -/
theorem Source.isEmpty_of_seam (name path : String) {before after : List Char}
    (hseam : Seam before after) (run : List Char) :
    (Source.ofProgram name path (before ++ (run ++ after))).isEmpty = false := by
  obtain ⟨c, hlast, hc⟩ := hseam.ends
  rw [Source.isEmpty_ofProgram, List.all_append, List.all_eq_false.mpr, Bool.false_and]
  exact ⟨c, List.mem_of_getLast? hlast, by rw [hc.1]; nofun⟩

/-- **Blanks between tokens are interchangeable**, but for those between the words
of an operator: these are for one another only if both go over a line or none. -/
theorem blanks_interchangeable (name path : String) {before after run run' : List Char}
    (hseam : Seam before after) (hrun : IsRun run) (hrun' : IsRun run')
    (hoperator : SplitsOperator before after → (IsPlain run ↔ IsPlain run'))
    (counter counter' : Nat) :
    ((∃ tree next, (Source.ofProgram name path (before ++ (run' ++ after))).tree.runFrom counter' =
        (.ok tree, next)) ↔
      ∃ tree next, (Source.ofProgram name path (before ++ (run ++ after))).tree.runFrom counter =
        (.ok tree, next)) ∧
    ∀ tree next tree' next',
      (Source.ofProgram name path (before ++ (run ++ after))).tree.runFrom counter =
        (.ok tree, next) →
      (Source.ofProgram name path (before ++ (run' ++ after))).tree.runFrom counter' =
        (.ok tree', next') →
      tree'.toValue.form = tree.toValue.form := by
  have hanswer : SameAnswer Anywhere (before ++ (run ++ after)) (before ++ (run' ++ after)) :=
    Swap.sameAnswer ⟨before, run, run', after, hseam, hrun, hrun', hoperator⟩
  have hforth := relocates_tree (L := fun _ _ => True) name path (fun _ => trivial) hanswer
    (Source.isEmpty_of_seam name path hseam run')
  have hback := relocates_tree (L := fun _ _ => True) name path (fun _ => trivial)
    (hanswer.flip (F := Anywhere) fun _ => trivial) (Source.isEmpty_of_seam name path hseam run)
  refine ⟨⟨?_, ?_⟩, ?_⟩
  · rintro ⟨tree', next', htree'⟩
    obtain ⟨tree, next, htree, -⟩ := hback counter' tree' next' htree' counter
    exact ⟨tree, next, htree⟩
  · rintro ⟨tree, next, htree⟩
    obtain ⟨tree', next', htree', -⟩ := hforth counter tree next htree counter'
    exact ⟨tree', next', htree'⟩
  · intro tree next tree' next' htree htree'
    obtain ⟨other, last, hother, hrelocates⟩ := hforth counter tree next htree counter'
    cases hother.symm.trans htree'
    exact hrelocates.form_eq

/-- Before an operator of two words, a line that goes on behind a backslash. -/
theorem blanks_interchangeable_before_operator :
    let before := "def f(a):  # \"\n    return a".toList
    let after := "not in [1]\n".toList
    let run := " ".toList
    let run' := "\\\n\t \\\r\n".toList
    Seam before after ∧ IsRun run ∧ IsRun run' ∧
      (SplitsOperator before after → (IsPlain run ↔ IsPlain run')) ∧
      (∃ tree, ((Source.ofProgram "m" "m" (before ++ (run ++ after))).tree.runFrom 1).1 = .ok tree ∧
        tree.head.kind = .module) ∧
      ((∃ tree next, (Source.ofProgram "m" "m" (before ++ (run' ++ after))).tree.runFrom 1 =
          (.ok tree, next)) ↔
        ∃ tree next, (Source.ofProgram "m" "m" (before ++ (run ++ after))).tree.runFrom 1 =
          (.ok tree, next)) ∧
      ∀ tree next tree' next',
        (Source.ofProgram "m" "m" (before ++ (run ++ after))).tree.runFrom 1 = (.ok tree, next) →
        (Source.ofProgram "m" "m" (before ++ (run' ++ after))).tree.runFrom 1 = (.ok tree', next') →
        tree'.toValue.form = tree.toValue.form := by
  intro before after run run'
  have hseam : Seam before after := by decide +kernel
  have hrun : IsRun run := by decide +kernel
  have hrun' : IsRun run' := by decide +kernel
  have hoperator : SplitsOperator before after → (IsPlain run ↔ IsPlain run') := by decide +kernel
  exact ⟨hseam, hrun, hrun', hoperator, by decide +kernel,
    blanks_interchangeable "m" "m" hseam hrun hrun' hoperator 1 1⟩

/-- Between the words of an operator a blank has a tree, and a line that goes on
behind a backslash has none. -/
theorem operator_broken :
    let before := "def f():\n    return a not".toList
    let after := "in b\n".toList
    let run := " ".toList
    let run' := " \\\n        ".toList
    Seam before after ∧ IsRun run ∧ IsRun run' ∧
      (∃ tree, ((Source.ofProgram "m" "m" (before ++ (run ++ after))).tree.runFrom 1).1 = .ok tree ∧
        tree.head.kind = .module) ∧
      ¬ ∃ tree next, (Source.ofProgram "m" "m" (before ++ (run' ++ after))).tree.runFrom 1 =
        (.ok tree, next) := by
  intro before after run run'
  refine ⟨by decide +kernel, by decide +kernel, by decide +kernel, by decide +kernel, ?_⟩
  rintro ⟨tree, next, htree⟩
  have hfault : ((Source.ofProgram "m" "m" (before ++ (run' ++ after))).tree.runFrom 1).1.toBool =
      false := by decide +kernel
  rw [htree] at hfault
  cases hfault

end FunctionIR
