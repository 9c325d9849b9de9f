import FunctionIR.Proofs.Exchange.Copy
import FunctionIR.Proofs.Translation.Discounting

/-!
# Reading from another counter

The counter gives the nodes of a tree their numbers and decides nothing else.
So a source that is read from one counter is read from every other, as a tree
that differs in its numbers only (`Source.mirrors_tree`).

For program text this is the case of phrases that are alike because they are
the same.  A serialized tree is followed along its document.
-/

namespace FunctionIR

open Numbered (Mirrors)

namespace Exchange

variable {file : String}

/-! ### Serialized trees -/

/-- Heads read from the same members differ in their numbers only. -/
theorem mirrors_headOf (members : List (String × Json)) :
    Mirrors (fun head head' => { head' with id := 0 } = { head with id := 0 })
      (headOf file members) (headOf file members) := by
  unfold headOf
  split
  · rintro counter _ _ ⟨⟩ counter'
    exact ⟨_, _, rfl, rfl⟩
  · exact .throw

mutual

/-- Values imported from the same document differ in their numbers only. -/
theorem mirrors_importValue : (document : Json) →
    Mirrors (fun value value' => value'.anonymous = value.anonymous)
      (importValue file document) (importValue file document)
  | .null | .bool _ | .number _ | .string _ => by
      rw [importValue]
      exact .pure rfl
  | .array items => by
      rw [importValue]
      refine (mirrors_importItems items).bind fun values values' hvalues => .pure ?_
      rw [Value.anonymous, Value.anonymous, hvalues]
  | .object members => by
      rw [importValue]
      split
      · refine (mirrors_headOf members).bind fun head head' hhead =>
          (mirrors_importFields members).bind fun fields fields' hfields => .pure ?_
        rw [Value.anonymous, Value.anonymous, hhead, hfields]
      · exact .pure rfl

theorem mirrors_importItems : (items : List Json) →
    Mirrors (fun values values' => Value.anonymousItems values' = Value.anonymousItems values)
      (importItems file items) (importItems file items)
  | [] => by
      rw [importItems]
      exact .pure rfl
  | item :: rest => by
      rw [importItems]
      refine (mirrors_importValue item).bind fun value value' hvalue =>
        (mirrors_importItems rest).bind fun values values' hvalues => .pure ?_
      rw [Value.anonymousItems, Value.anonymousItems, hvalue, hvalues]

theorem mirrors_importFields : (members : List (String × Json)) →
    Mirrors (fun fields fields' => Value.anonymousFields fields' = Value.anonymousFields fields)
      (importFields file members) (importFields file members)
  | [] => by
      rw [importFields]
      exact .pure rfl
  | (name, item) :: rest => by
      rw [importFields]
      split
      · exact mirrors_importFields rest
      · refine (mirrors_importValue item).bind fun value value' hvalue =>
          (mirrors_importFields rest).bind fun fields fields' hfields => .pure ?_
        rw [Value.anonymousFields, Value.anonymousFields, hvalue, hfields]

end

/-- Trees imported from the same text differ in their numbers only. -/
theorem mirrors_importTree (text : String) :
    Mirrors (fun tree tree' => tree'.anonymous = tree.anonymous)
      (importTree file text) (importTree file text) := by
  unfold importTree
  split
  · exact .throw
  next members _ =>
    split
    · refine (mirrors_headOf members).bind fun head head' hhead =>
        (mirrors_importFields members).bind fun fields fields' hfields => .pure ?_
      rw [Node.anonymous, Node.anonymous, hhead, hfields]
    · exact .throw
  · exact .throw

end Exchange

/-! ### Sources -/

namespace Source

/-- Programs read from the same text differ in their numbers only. -/
theorem mirrors_programTree (name text : String) :
    Mirrors (fun tree tree' => tree'.anonymous = tree.anonymous)
      (programTree name text) (programTree name text) := by
  unfold programTree
  split
  · have hlines : Reading.OnLines (fun line => line) fun p p' : Grammar.Place => p = p' :=
      fun h => h ▸ ⟨rfl, rfl⟩
    refine (Reading.moduleTree_moves hlines.locates
      (.refl (fun _ => rfl) _)).mono fun tree tree' h => ?_
    rw [Node.Moves.anonymous_eq h, tree.onLines_self]
  · exact .throw

/-- **A source is read alike from every counter**, but for the numbers. -/
theorem mirrors_tree (source : Source) :
    Mirrors (fun tree tree' => tree'.anonymous = tree.anonymous) source.tree source.tree := by
  unfold tree
  split
  · exact .throw
  · cases source.format with
    | program => exact mirrors_programTree source.name source.text
    | tree => exact Exchange.mirrors_importTree source.text

/-- From every counter the same comes of a source, but for the numbers. -/
theorem tree_anonymous (source : Source) (counter counter' : Nat) :
    (source.tree.runFrom counter').1.toOption.map Node.anonymous =
      (source.tree.runFrom counter).1.toOption.map Node.anonymous := by
  have hmirrors := source.mirrors_tree
  cases h : source.tree.runFrom counter with
  | mk outcome next =>
      cases outcome with
      | ok tree =>
          obtain ⟨tree', next', h', htree⟩ := hmirrors counter tree next h counter'
          rw [h']
          exact congrArg some htree
      | error fault =>
          cases h' : source.tree.runFrom counter' with
          | mk outcome' next' =>
              cases outcome' with
              | error fault' => rfl
              | ok tree' =>
                  obtain ⟨_, _, hok, -⟩ := hmirrors counter' tree' next' h' counter
                  rw [h] at hok
                  cases hok

end Source

end FunctionIR
