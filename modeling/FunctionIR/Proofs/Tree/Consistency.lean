import FunctionIR.Proofs.Tree.Paths
import FunctionIR.Proofs.Tree.Preparation

/-!
# Places that agree

The place of a node is kept twice: as its location, and as the start of its span.
Trees come about in three ways, from one phrase of a program text, from two, and
from the members of a document, and each of them makes the two agree.  Moving by
lines treats them alike, so they still agree after any number of moves, of the
whole tree or of single nodes in it, one step at a time (`Move.keeps_agreement`).

Moves add up as long as no line reaches an end of its range.  On such lines a
move is the plain sum (`shiftLine_shiftLine`), and otherwise it stops at line 1,
from where nothing leads back.
-/

namespace FunctionIR

open Grammar (Place)

/-- If the node has a span, it has a location, where its span starts. -/
def Head.PlacesAgree (head : Head) : Prop :=
  ∀ span, head.span = some span → head.location = some span.start

/-! ### Trees that are read -/

namespace Exchange

mutual

/-- Every node of a value that a document can hold is one. -/
theorem eachHead_of_portable {file : String} : (value : Value) → value.Portable file →
    value.EachHead (Head.Portable file)
  | .scalar s, _ => Value.eachHead_scalar s
  | .foreign document, _ => Value.eachHead_foreign document
  | .list items, h => Value.eachHead_list.mpr (eachHead_of_itemsPortable items h)
  | .node _ fields, h =>
      Value.eachHead_node.mpr ⟨h.1, eachHead_of_fieldsPortable fields h.2.2⟩

theorem eachHead_of_itemsPortable {file : String} : (items : List Value) →
    Value.ItemsPortable file items → ∀ item ∈ items, item.EachHead (Head.Portable file)
  | [], _ => List.forall_mem_nil _
  | item :: rest, h =>
      List.forall_mem_cons.mpr
        ⟨eachHead_of_portable item h.1, eachHead_of_itemsPortable rest h.2⟩

theorem eachHead_of_fieldsPortable {file : String} : (fields : Fields) →
    Value.FieldsPortable file fields → ∀ field ∈ fields, field.2.EachHead (Head.Portable file)
  | [], _ => List.forall_mem_nil _
  | (_, value) :: rest, h =>
      List.forall_mem_cons.mpr
        ⟨eachHead_of_portable value h.2.1, eachHead_of_fieldsPortable rest h.2.2⟩

end

/-- The places of what a document can hold agree. -/
theorem placesAgree_of_portable {file : String} {value : Value} (h : value.Portable file) :
    value.EachHead Head.PlacesAgree :=
  fun head hhead => (eachHead_of_portable value h head hhead).start

end Exchange

namespace Reading

variable {H : Head → Prop}

mutual

/-- What is asked of the heads of a value that fits holds of all of them. -/
theorem eachHead_of_fits : {slot : Slot} → {value : Value} → Fits H slot value → value.EachHead H
  | _, _, .text _ | _, _, .leaf _ | _, _, .absent | _, _, .missing => Value.eachHead_scalar _
  | _, _, .present hvalue => eachHead_of_fits hvalue
  | _, _, .node _ hhead hfields => Value.eachHead_node.mpr ⟨hhead, each_of_fieldsFit hfields⟩
  | _, _, .list hitems => Value.eachHead_list.mpr (each_of_itemsFit hitems)

theorem each_of_itemsFit : {slot : Slot} → {items : List Value} → ItemsFit H slot items →
    ∀ item ∈ items, item.EachHead H
  | _, _, .nil => List.forall_mem_nil _
  | _, _, .cons hitem hrest =>
      List.forall_mem_cons.mpr ⟨eachHead_of_fits hitem, each_of_itemsFit hrest⟩

theorem each_of_fieldsFit : {signature : List (String × Slot)} → {fields : Fields} →
    FieldsFit H signature fields → ∀ field ∈ fields, field.2.EachHead H
  | _, _, .nil => List.forall_mem_nil _
  | _, _, .cons hvalue hrest =>
      List.forall_mem_cons.mpr ⟨eachHead_of_fits hvalue, each_of_fieldsFit hrest⟩

end

/-- A node in a text is located where its span starts. -/
theorem Placed.placesAgree {file : String} {P : Place → Prop} {head : Head}
    (h : Placed file P head) : head.PlacesAgree := by
  intro span hspan
  rcases h with ⟨-, hnone⟩ | ⟨start, stop, -, -, hlocation, hsome⟩
  · rw [hnone] at hspan
    cases hspan
  · rw [hsome] at hspan
    cases hspan
    exact hlocation

end Reading

/-- The places of a tree that is read agree, whichever form its source has. -/
theorem Source.tree_placesAgree (source : Source) :
    source.tree.Yields fun tree => tree.toValue.EachHead Head.PlacesAgree := by
  cases hformat : source.format with
  | program =>
      refine (Source.tree_fits hformat).mono fun tree htree => ?_
      obtain ⟨body, -, hhead, hfields, hbody⟩ := htree
      have hlists : ∀ field ∈ tree.fields, field.2.EachHead Head.PlacesAgree := by
        rw [hfields]
        refine List.forall_mem_cons.mpr ⟨?_, List.forall_mem_singleton.mpr ?_⟩
        · refine Value.eachHead_list.mpr fun item hitem => ?_
          exact (Reading.each_of_itemsFit hbody item hitem).mono fun _ => Reading.Placed.placesAgree
        · exact Value.eachHead_list.mpr (List.forall_mem_nil _)
      exact Value.eachHead_node.mpr ⟨hhead.placesAgree, hlists⟩
  | tree =>
      unfold Source.tree
      rw [hformat]
      split
      · exact .throw
      · refine (Exchange.importTree_yields source.name source.text).mono fun tree htree => ?_
        exact Exchange.placesAgree_of_portable htree.1

/-! ### Trees that are moved -/

/-- What can be done to the places of a tree. -/
inductive Move where
  /-- The node at the end of a way is moved by lines, with all that is in it. -/
  | shift (way : List Turn) (delta : Int)
  /-- The tree is prepared. -/
  | prepare (discount : Bool)

/-- A node some lines on; what is no node stays. -/
def Value.shiftNode (delta : Int) : Value → Value
  | .node head fields => (Node.shift delta ⟨head, fields⟩).toValue
  | value => value

/-- The tree after the move. -/
def Move.apply (tree : Node) : Move → Node
  | .shift way delta => ((tree.toValue.changeAt (Value.shiftNode delta) way).asNode).getD tree
  | .prepare discount => tree.prepare discount

/-- The tree after the moves, one after the other. -/
def Node.moved (tree : Node) (moves : List Move) : Node := moves.foldl Move.apply tree

/-- What a change of lines makes of each head it makes of all of them. -/
theorem Value.EachHead.onLines {P Q : Head → Prop} {f : Nat → Nat} {value : Value}
    (h : value.EachHead P) (hf : ∀ head, P head → Q (head.onLines f)) :
    (value.onLines f).EachHead Q := by
  unfold EachHead
  rw [Value.heads_onLines]
  exact List.forall_mem_map.mpr fun head hhead => hf head (h head hhead)

/-- Both the location and the start of the span get the other line. -/
theorem Head.PlacesAgree.onLines {head : Head} (h : head.PlacesAgree) (f : Nat → Nat) :
    (head.onLines f).PlacesAgree := by
  intro span hspan
  obtain ⟨old, hold, rfl⟩ := Option.map_eq_some_iff.mp hspan
  exact congrArg (Option.map (Location.onLines f)) (h old hold)

/-- A shift keeps places that agree. -/
theorem Node.placesAgree_shift {tree : Node} (h : tree.toValue.EachHead Head.PlacesAgree)
    (delta : Int) : (tree.shift delta).toValue.EachHead Head.PlacesAgree := by
  rw [Node.shift_eq_onLines]
  exact Value.EachHead.onLines h fun _ hhead => hhead.onLines _

/-- **One move** keeps the places in agreement. -/
theorem Move.keeps_agreement (move : Move) {tree : Node}
    (h : tree.toValue.EachHead Head.PlacesAgree) :
    (move.apply tree).toValue.EachHead Head.PlacesAgree := by
  cases move with
  | shift way delta =>
      have hnode : ∀ value : Value, value.EachHead Head.PlacesAgree →
          (value.shiftNode delta).EachHead Head.PlacesAgree := by
        intro value hvalue
        cases value with
        | node head fields => exact @Node.placesAgree_shift ⟨head, fields⟩ hvalue delta
        | scalar | list | foreign => exact hvalue
      have hchanged := Value.EachHead.changeAt hnode h way
      rw [Move.apply]
      cases hroot : (tree.toValue.changeAt (Value.shiftNode delta) way).asNode with
      | none => exact h
      | some root => rwa [asNode_eq_some_iff.mp hroot] at hchanged
  | prepare discount =>
      rw [Move.apply, Node.prepare.eq_def]
      split
      · exact Node.placesAgree_shift h _
      · exact h

/-- **A run of moves** keeps them so. -/
theorem Node.placesAgree_moved (moves : List Move) {tree : Node}
    (h : tree.toValue.EachHead Head.PlacesAgree) :
    (tree.moved moves).toValue.EachHead Head.PlacesAgree := by
  induction moves generalizing tree with
  | nil => exact h
  | cons move rest ih => exact ih (move.keeps_agreement h)

/-! ### Moves that add up -/

/-- The line can be moved by the distance and stays in the range of lines. -/
def MovesFreely (delta : Int) (line : Nat) : Prop :=
  1 ≤ line ∧ line < 2 ^ 63 ∧ 1 ≤ line + delta ∧ line + delta < 2 ^ 63

/-- Two shifts that move a line freely are one shift by their sum. -/
theorem shiftLine_shiftLine {a b : Int} {line : Nat} (h : MovesFreely a line) :
    shiftLine b (shiftLine a line) = shiftLine (a + b) line := by
  obtain ⟨-, hline, hpos, hmoved⟩ := h
  have hshort : line < 1 <<< 63 := by omega
  have ha := shiftLine_eq hshort a
  have hab := shiftLine_eq hshort (a + b)
  have hshort' : shiftLine a line < 1 <<< 63 := by omega
  have hb := shiftLine_eq hshort' b
  omega

theorem shiftLine_zero {line : Nat} (hpos : 1 ≤ line) (hline : line < 2 ^ 63) :
    shiftLine 0 line = line := by
  have hshort : line < 1 <<< 63 := by omega
  have h := shiftLine_eq hshort 0
  omega

/-- **Moves add up** where no line leaves its range. -/
theorem Node.shift_shift {tree : Node} {a : Int} (h : ∀ line ∈ tree.toValue.lines, MovesFreely a line)
    (b : Int) : (tree.shift a).shift b = tree.shift (a + b) := by
  rw [Node.shift_eq_onLines, Node.shift_eq_onLines, Node.shift_eq_onLines, Node.onLines_onLines]
  refine Node.onLines_congr fun line hline => ?_
  rw [Function.comp_apply, shiftLine_shiftLine (h line hline)]

/-- So the way back leads to the tree. -/
theorem Node.shift_back {tree : Node} {a : Int}
    (h : ∀ line ∈ tree.toValue.lines, MovesFreely a line) : (tree.shift a).shift (-a) = tree := by
  rw [Node.shift_shift h, Int.add_right_neg, Node.shift_eq_onLines]
  refine (Node.onLines_congr fun line hline => ?_).trans tree.onLines_self
  exact shiftLine_zero (h line hline).1 (h line hline).2.1

/-- **Places stay in agreement.**  In the tree of any source, program text or
document, and after any moves of it and of the nodes in it, whatever has a span
has a location, and it is where the span starts.  And where no line of a tree
leaves the range of lines, one move and then another is their sum, and a move and
then its opposite is none. -/
theorem places_consistent :
    (∀ (source : Source) (counter next : Nat) (tree : Node) (moves : List Move),
      source.tree.runFrom counter = (.ok tree, next) →
      ∀ head ∈ (tree.moved moves).toValue.heads, ∀ span,
        head.span = some span → head.location = some span.start) ∧
    ∀ (tree : Node) (a b : Int), (∀ line ∈ tree.toValue.lines, MovesFreely a line) →
      (tree.shift a).shift b = tree.shift (a + b) ∧ (tree.shift a).shift (-a) = tree :=
  ⟨fun source counter next tree moves h =>
      Node.placesAgree_moved moves (source.tree_placesAgree counter tree next h),
    fun _ _ b h => ⟨Node.shift_shift h b, Node.shift_back h⟩⟩

/-- A function is moved down inside its module, its decorator is discounted, and
the module is moved on. -/
theorem places_consistent_nested :
    let source := Source.ofText "m" "@d\ndef f(a):\n    return a + 1\n" .program
    let moves := [.shift [.field "body", .item 0] 7, .prepare true, .shift [] (-2)]
    ∃ tree, (source.tree.runFrom 1).1 = .ok tree ∧
      (tree.moved moves).toValue.lines ≠ tree.toValue.lines ∧
      (∀ head ∈ (tree.moved moves).toValue.heads, ∀ span,
        head.span = some span → head.location = some span.start) ∧
      (∀ line ∈ tree.toValue.lines, MovesFreely 4 line) ∧
      (tree.shift 4).shift (-3) = tree.shift (4 + -3) ∧ (tree.shift 4).shift (-4) = tree := by
  intro source moves
  obtain ⟨tree, hread, hlines, hrange⟩ : ∃ tree, (source.tree.runFrom 1).1 = .ok tree ∧
      (tree.moved moves).toValue.lines ≠ tree.toValue.lines ∧
      ∀ line ∈ tree.toValue.lines, 1 ≤ line ∧ line < 100 := by
    decide +kernel
  have hfree : ∀ line ∈ tree.toValue.lines, MovesFreely 4 line := by
    intro line hline
    obtain ⟨hpos, hsmall⟩ := hrange line hline
    exact ⟨hpos, by omega, by omega, by omega⟩
  have hrun : source.tree.runFrom 1 = (.ok tree, (source.tree.runFrom 1).2) := Prod.ext hread rfl
  obtain ⟨hsum, hback⟩ := places_consistent.2 tree 4 (-3) hfree
  exact ⟨tree, hread, hlines, places_consistent.1 source 1 _ tree moves hrun, hfree, hsum, hback⟩

end FunctionIR
