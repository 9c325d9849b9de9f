import FunctionIR.Proofs.Tree.Consistency

/-!
# Lines that do not fit a signed word

An import takes every line that has 64 bits, and a shift adds a signed distance to
it.  For the sum, the line is read as a signed word: from `2 ^ 63` on it counts as
negative (`signedLine_of_long`).  Whether the sum fits the signed range is told by the
line and the line that it should become: it does where both are below `2 ^ 63` or both
are not (`sumFits_iff`).

Where it fits, a line below `2 ^ 63` moves as far as it should, and every other line
goes to line 1, however small the distance is.  So **a shift of an imported tree is
exact just where all of its lines are below `2 ^ 63`** (`shift_of_import`), and not on
the whole range that the import admits (`shift_of_long_line`).
-/

namespace FunctionIR

/-! ### One line -/

/-- The sum of a line, read as a signed word, and a distance fits a signed word. -/
def SumFits (delta : Int64) (line : Nat) : Prop :=
  -2 ^ 63 ≤ signedLine line + delta.toInt ∧ signedLine line + delta.toInt < 2 ^ 63

/-- Whether the sum fits can be computed. -/
instance (delta : Int64) (line : Nat) : Decidable (SumFits delta line) :=
  inferInstanceAs (Decidable (_ ∧ _))

/-- The line at a distance from another among the integers, but at least the first. -/
def lineAt (delta : Int64) (line : Nat) : Nat := (max 1 (line + delta.toInt)).toNat

section

variable {delta : Int64} {line : Nat}

/-- A long line, read as a signed word, is negative. -/
theorem signedLine_of_long (hlong : 2 ^ 63 ≤ line) (hword : line < 2 ^ 64) :
    signedLine line = line - 2 ^ 64 := by
  unfold signedLine
  rw [Int.bmod_def, Int.emod_eq_of_lt (by omega) (by omega), if_neg (by omega)]
  omega

/-- The sum fits exactly if the line is as short as the line it should move to. -/
theorem sumFits_iff (hword : line < 2 ^ 64) (hmoved : line + delta.toInt < 2 ^ 64) :
    SumFits delta line ↔ (line < 2 ^ 63 ↔ line + delta.toInt < 2 ^ 63) := by
  have hleast := delta.le_toInt
  have hmost := delta.toInt_lt
  unfold SumFits
  by_cases hshort : line < 2 ^ 63
  · rw [signedLine_eq (by omega)]
    omega
  · rw [signedLine_of_long (by omega) hword]
    omega

/-- A short line is moved as among the integers. -/
theorem shiftLine_of_short (hshort : line < 2 ^ 63) :
    shiftLine delta.toInt line = lineAt delta line := by
  have hshift := shiftLine_eq (by omega : line < 1 <<< 63) delta.toInt
  unfold lineAt
  omega

/-- A long line becomes the first, whatever the distance is. -/
theorem shiftLine_of_long (hlong : 2 ^ 63 ≤ line) (hword : line < 2 ^ 64)
    (hmoved : line + delta.toInt < 2 ^ 64) : shiftLine delta.toInt line = 1 := by
  unfold shiftLine
  rw [signedLine_of_long hlong hword]
  omega

/-- **A line is moved as far as it should just if it is below `2 ^ 63`.** -/
theorem shiftLine_eq_lineAt_iff (hword : line < 2 ^ 64) (hmoved : line + delta.toInt < 2 ^ 64)
    (hfits : SumFits delta line) :
    shiftLine delta.toInt line = lineAt delta line ↔ line < 2 ^ 63 := by
  constructor
  · intro h
    by_contra hlong
    rw [shiftLine_of_long (by omega) hword hmoved] at h
    have hboth := (sumFits_iff hword hmoved).mp hfits
    unfold lineAt at h
    omega
  · exact shiftLine_of_short

end

/-! ### Whole trees -/

/-- The lines of a head on other lines. -/
theorem Head.lines_onLines (f : Nat → Nat) (head : Head) :
    (head.onLines f).lines = head.lines.map f := by
  obtain ⟨id, kind, location, span⟩ := head
  cases location <;> cases span <;> rfl

/-- The lines of a value on other lines. -/
theorem Value.lines_onLines (f : Nat → Nat) (value : Value) :
    (value.onLines f).lines = value.lines.map f := by
  rw [Value.lines, Value.heads_onLines, List.flatMap_map, Value.lines, List.map_flatMap]
  exact List.flatMap_congr fun head _ => head.lines_onLines f

/-- Trees on other lines are the same just if each of the lines is. -/
theorem Node.onLines_eq_iff {f g : Nat → Nat} {tree : Node} :
    tree.onLines f = tree.onLines g ↔ ∀ line ∈ tree.toValue.lines, f line = g line := by
  constructor
  · intro h
    have hlines : (tree.toValue.onLines f).lines = (tree.toValue.onLines g).lines :=
      congrArg (fun tree : Node => tree.toValue.lines) h
    rw [Value.lines_onLines, Value.lines_onLines] at hlines
    exact List.map_inj_left.mp hlines
  · exact Node.onLines_congr

/-- The lines of an imported tree have 64 bits. -/
theorem Exchange.lines_of_import {file text : String} {counter next : Nat} {tree : Node}
    (h : (importTree file text).runFrom counter = (.ok tree, next)) :
    ∀ line ∈ tree.toValue.lines, line < 2 ^ 64 := by
  intro line hline
  obtain ⟨head, hhead, hline⟩ := List.mem_flatMap.mp hline
  have hportable := eachHead_of_portable _ (importTree_yields file text counter tree next h).1
    head hhead
  obtain ⟨id, kind, location, span⟩ := head
  simp only [Head.lines, List.mem_append, List.mem_map, List.mem_flatMap, Option.mem_toList,
    List.mem_cons, List.not_mem_nil, or_false] at hline
  obtain ⟨location, hlocation, rfl⟩ | ⟨span, hspan, rfl | rfl⟩ := hline
  · exact (hportable.location location hlocation).2.1
  · exact (hportable.location span.start (hportable.start span hspan)).2.1
  · exact (hportable.stop span hspan).2.1

/-- **A shift of an imported tree is exact just where no line is too long.**  Every line
of an imported tree has 64 bits.  Let none leave them when the distance is added.
The signed sum fits just if the line and the line it should become are both below
`2 ^ 63`, or both not.  Where all sums fit, the shift moves the lines below `2 ^ 63` by
the distance, never past line 1, and puts all others on line 1; so it is what it
should be if and only if all lines of the tree are below `2 ^ 63`. -/
theorem shift_of_import {file text : String} {counter next : Nat} {tree : Node}
    (h : (Exchange.importTree file text).runFrom counter = (.ok tree, next)) (delta : Int64)
    (hmoved : ∀ line ∈ tree.toValue.lines, line + delta.toInt < 2 ^ 64) :
    (∀ line ∈ tree.toValue.lines, line < 2 ^ 64 ∧
        (SumFits delta line ↔ (line < 2 ^ 63 ↔ line + delta.toInt < 2 ^ 63))) ∧
      ((∀ line ∈ tree.toValue.lines, SumFits delta line) →
        tree.shift delta.toInt =
          tree.onLines (fun line => if line < 2 ^ 63 then lineAt delta line else 1) ∧
        (tree.shift delta.toInt = tree.onLines (lineAt delta) ↔
          ∀ line ∈ tree.toValue.lines, line < 2 ^ 63)) := by
  have hword := Exchange.lines_of_import h
  refine ⟨fun line hline => ⟨hword line hline, sumFits_iff (hword line hline) (hmoved line hline)⟩,
    fun hfits => ?_⟩
  rw [Node.shift_eq_onLines, Node.onLines_eq_iff, Node.onLines_eq_iff]
  constructor
  · intro line hline
    split
    next hshort => exact shiftLine_of_short hshort
    next hlong => exact shiftLine_of_long (by omega) (hword line hline) (hmoved line hline)
  · exact forall₂_congr fun line hline =>
      shiftLine_eq_lineAt_iff (hword line hline) (hmoved line hline) (hfits line hline)

/-- A statement on line 3 moves up by one line, and so should the name in it, which
goes to line 1. -/
theorem shift_of_import_mixed :
    let text := "\x7b\"_type\":\"Expr\",\"lineno\":3,\"value\":" ++
      "\x7b\"_type\":\"Name\",\"lineno\":9223372036854775809\x7d\x7d"
    ∃ tree next, (Exchange.importTree "t" text).runFrom 1 = (.ok tree, next) ∧
      tree.toValue.lines = [3, 2 ^ 63 + 1] ∧
      (∀ line ∈ tree.toValue.lines, line + (-1 : Int64).toInt < 2 ^ 64) ∧
      (∀ line ∈ tree.toValue.lines, SumFits (-1) line) ∧
      tree.shift (-1 : Int64).toInt =
        tree.onLines (fun line => if line < 2 ^ 63 then lineAt (-1) line else 1) ∧
      ¬tree.shift (-1 : Int64).toInt = tree.onLines (lineAt (-1)) := by
  intro text
  obtain ⟨tree, htree, hlines⟩ : ∃ tree, ((Exchange.importTree "t" text).runFrom 1).1 = .ok tree ∧
      tree.toValue.lines = [3, 2 ^ 63 + 1] := by
    decide +kernel
  have hrun : (Exchange.importTree "t" text).runFrom 1 = (.ok tree, _) := Prod.ext htree rfl
  have hmoved : ∀ line ∈ tree.toValue.lines, line + (-1 : Int64).toInt < 2 ^ 64 := by
    rw [hlines]
    decide
  have hfits : ∀ line ∈ tree.toValue.lines, SumFits (-1) line := by
    rw [hlines]
    decide
  obtain ⟨hall, hexact⟩ := (shift_of_import hrun (-1) hmoved).2 hfits
  refine ⟨tree, _, hrun, hlines, hmoved, hfits, hall, fun h => ?_⟩
  have hshort := hexact.mp h (2 ^ 63 + 1) (by simp [hlines])
  omega

/-- A statement on line `2 ^ 63` that is moved down by one line comes to line 1, though
no sum leaves its range. -/
theorem shift_of_long_line :
    ∃ tree, ((Exchange.importTree "t"
        "\x7b\"_type\":\"Pass\",\"lineno\":9223372036854775808\x7d").runFrom 1).1 = .ok tree ∧
      tree.toValue.lines = [2 ^ 63] ∧ SumFits 1 (2 ^ 63) ∧
      (tree.shift (1 : Int64).toInt).toValue.lines = [1] ∧
      (tree.onLines (lineAt 1)).toValue.lines = [2 ^ 63 + 1] := by
  decide +kernel

end FunctionIR
