import FunctionIR.Proofs.Translation.Discounting
import Mathlib.Order.Bounds.Basic

/-!
# The discount, exactly

A tree is prepared for its translation by discounting decorators.  Whether there
is something to discount is found along a chain of lookups, each of which can
come to nothing: the tree has to stand for a function, the function has to be on
a line, a list of decorators has to be there, one of the nodes in it has to be
on a line, and the first of their lines has to be above the function's.  Said at
once this is a relation between a tree and two lines (`Node.Discounts`), and the
lookups find an offset just where it holds (`Node.decoratorOffset_eq_some_iff`).

Where it holds, every line of the tree moves up by the distance of the two lines,
and stops at the first.  Where it does not, and where the discount is off, the
tree is what it was.  Nothing of a tree but its lines is ever touched
(`prepare_exactly`).
-/

namespace FunctionIR

/-! ### Lines that are changed twice -/

section

variable (f g : Nat → Nat)

/-- Two changes of lines are one. -/
theorem Head.onLines_onLines (head : Head) :
    (head.onLines f).onLines g = head.onLines (g ∘ f) := by
  obtain ⟨id, kind, location, span⟩ := head
  cases location <;> cases span <;> rfl

mutual

theorem Value.onLines_onLines : (value : Value) →
    (value.onLines f).onLines g = value.onLines (g ∘ f)
  | .scalar _ | .foreign _ => rfl
  | .node head fields => by
      rw [Value.onLines, Value.onLines, Value.onLines, head.onLines_onLines,
        Value.onLinesFields_onLinesFields fields]
  | .list items => by
      rw [Value.onLines, Value.onLines, Value.onLines, Value.onLinesItems_onLinesItems items]

theorem Value.onLinesItems_onLinesItems : (items : List Value) →
    Value.onLinesItems g (Value.onLinesItems f items) = Value.onLinesItems (g ∘ f) items
  | [] => rfl
  | item :: rest => by
      rw [Value.onLinesItems, Value.onLinesItems, Value.onLinesItems,
        Value.onLines_onLines item, Value.onLinesItems_onLinesItems rest]

theorem Value.onLinesFields_onLinesFields : (fields : Fields) →
    Value.onLinesFields g (Value.onLinesFields f fields) = Value.onLinesFields (g ∘ f) fields
  | [] => rfl
  | (name, value) :: rest => by
      rw [Value.onLinesFields, Value.onLinesFields, Value.onLinesFields,
        Value.onLines_onLines value, Value.onLinesFields_onLinesFields rest]

end

theorem Node.onLines_onLines (tree : Node) : (tree.onLines f).onLines g = tree.onLines (g ∘ f) := by
  rw [Node.onLines, Node.onLines, Node.onLines, Head.onLines_onLines,
    Value.onLinesFields_onLinesFields]

end

/-! ### When there is something to discount -/

/-- The tree stands for the function: it is the function, or a module that begins
with it. -/
inductive Node.StandsFor (tree : Node) : Node → Prop
  | root : tree.head.kind = .functionDef → tree.StandsFor tree
  | first {function : Node} {rest : List Value} :
      tree.head.kind = .module → tree.listField? "body" = some (function.toValue :: rest) →
      function.head.kind = .functionDef → tree.StandsFor function

/-- The lines of the nodes in a list, those inside of these nodes left out. -/
def linesAmong (items : List Value) : Set Nat :=
  {line | ∃ node : Node, node.toValue ∈ items ∧ node.line? = some line}

/-- The tree stands for a function on the one line, and its decorators begin on
the other, which is above. -/
def Node.Discounts (tree : Node) (line first : Nat) : Prop :=
  ∃ function decorators, tree.StandsFor function ∧ function.line? = some line ∧
    function.listField? "decorator_list" = some decorators ∧
    IsLeast (linesAmong decorators) first ∧ first < line

section

variable {tree function : Node}

/-- A value is a node exactly if it is that node. -/
theorem asNode_eq_some_iff {value : Value} {node : Node} :
    value.asNode = some node ↔ value = node.toValue := by
  obtain ⟨head, fields⟩ := node
  cases value <;> simp [Value.asNode, Node.toValue]

/-- The function that a tree stands for is looked up. -/
theorem Node.leadingFunction_eq_some_iff :
    tree.leadingFunction = some function ↔ tree.StandsFor function := by
  constructor
  · intro h
    simp only [Node.leadingFunction, Option.bind_eq_bind] at h
    split at h
    next hkind =>
      rw [Option.bind_some, if_pos hkind] at h
      cases h
      exact .root hkind
    next hkind =>
      simp only [Option.bind_eq_some_iff] at h
      obtain ⟨body, hbody, value, hvalue, node, hnode, h⟩ := h
      split at h
      next hfunction =>
        cases h
        rw [asNode_eq_some_iff.mp hnode] at hvalue
        obtain ⟨rest, rfl⟩ := List.head?_eq_some_iff.mp hvalue
        exact .first hkind hbody hfunction
      next => cases h
    next => cases h
  · intro h
    cases h with
    | root hkind => simp [Node.leadingFunction, hkind]
    | first hkind hbody hfunction =>
        simp [Node.leadingFunction, hkind, hbody, hfunction, asNode_eq_some_iff.mpr rfl]

/-- The lines of several nodes are those among the items. -/
theorem mem_linesOfNodes {items : List Value} {line : Nat} :
    line ∈ (items.filterMap Value.asNode).filterMap Node.line? ↔ line ∈ linesAmong items := by
  simp only [linesAmong, Set.mem_ofPred_eq, List.mem_filterMap, asNode_eq_some_iff]
  constructor
  · rintro ⟨node, ⟨value, hvalue, rfl⟩, hline⟩
    exact ⟨node, hvalue, hline⟩
  · rintro ⟨node, hvalue, hline⟩
    exact ⟨node, ⟨_, hvalue, rfl⟩, hline⟩

/-- **The lookups find an offset** just where there is something to discount. -/
theorem Node.decoratorOffset_eq_some_iff {lines : Nat} :
    tree.decoratorOffset = some lines ↔
      ∃ line first, tree.Discounts line first ∧ lines = line - first := by
  simp only [Node.decoratorOffset, Option.bind_eq_bind, Option.bind_eq_some_iff,
    leadingFunction_eq_some_iff, List.min?_eq_some_iff, mem_linesOfNodes]
  constructor
  · rintro ⟨function, hfunction, line, hline, decorators, hlist, first, ⟨hmem, hleast⟩, h⟩
    split at h
    next hlt =>
      cases h
      exact ⟨line, first, ⟨function, decorators, hfunction, hline, hlist, ⟨hmem, hleast⟩, hlt⟩, rfl⟩
    next => cases h
  · rintro ⟨line, first, ⟨function, decorators, hfunction, hline, hlist, ⟨hmem, hleast⟩, hlt⟩, rfl⟩
    exact ⟨function, hfunction, line, hline, decorators, hlist, first, ⟨hmem, hleast⟩, if_pos hlt⟩

/-! ### Where the two lines are -/

variable {line first : Nat}

/-- The head in a list of a tree is one of the tree's. -/
theorem mem_heads_of_listField {items : List Value} {name : String} {value : Value}
    (hlist : tree.listField? name = some items) (hvalue : value ∈ items) {head : Head}
    (h : head ∈ value.heads) : head ∈ tree.toValue.heads := by
  rw [Node.listField?, Node.field?, Option.bind_eq_some_iff] at hlist
  obtain ⟨list, hfield, hlist⟩ := hlist
  have hmem : head ∈ list.heads := by
    cases list with
    | list =>
        cases hlist
        exact mem_headsOfItems hvalue h
    | scalar | node | foreign => cases hlist
  exact List.mem_cons_of_mem _ (mem_headsOfFields hfield hmem)

/-- The function that a tree stands for is in the tree. -/
theorem Node.StandsFor.heads (h : tree.StandsFor function) :
    ∀ head ∈ function.toValue.heads, head ∈ tree.toValue.heads := by
  cases h with
  | root => exact fun _ hhead => hhead
  | first _ hbody _ => exact fun _ hhead => mem_heads_of_listField hbody List.mem_cons_self hhead

/-- The line of a node is one of those of a value it is in. -/
theorem mem_lines_of_line? {node : Node} (h : node.line? = some line) {value : Value}
    (hnode : node.head ∈ value.heads) : line ∈ value.lines := by
  rw [Node.line?, Option.map_eq_some_iff] at h
  obtain ⟨location, hlocation, rfl⟩ := h
  exact List.mem_flatMap.mpr ⟨node.head, hnode, by simp [Head.lines, hlocation]⟩

/-- The lines of the function and of its first decorator are lines of the tree. -/
theorem Node.Discounts.mem_lines (h : tree.Discounts line first) :
    line ∈ tree.toValue.lines ∧ first ∈ tree.toValue.lines := by
  obtain ⟨function, decorators, hfunction, hline, hlist, ⟨⟨decorator, hmem, hfirst⟩, -⟩, -⟩ := h
  refine ⟨mem_lines_of_line? hline (hfunction.heads _ List.mem_cons_self), ?_⟩
  refine mem_lines_of_line? hfirst (hfunction.heads _ ?_)
  exact mem_heads_of_listField hlist hmem List.mem_cons_self

/-- On other lines a tree stands for the function on other lines. -/
theorem Node.StandsFor.onLines (f : Nat → Nat) (h : tree.StandsFor function) :
    (tree.onLines f).StandsFor (function.onLines f) := by
  cases h with
  | root hkind => exact .root hkind
  | @first function rest hkind hbody hfunction =>
      refine @Node.StandsFor.first _ _ (Value.onLinesItems f rest) hkind ?_ hfunction
      rw [Node.listField?, Node.field?, Option.bind_eq_some_iff] at hbody
      obtain ⟨list, hfield, hbody⟩ := hbody
      rw [Node.listField?, Node.field?, Node.onLines, get?_onLinesFields, hfield]
      cases list with
      | list =>
          cases hbody
          rfl
      | scalar | node | foreign => cases hbody

/-- The line of a node on other lines. -/
theorem Node.line?_onLines (f : Nat → Nat) (node : Node) :
    (node.onLines f).line? = node.line?.map f := by
  obtain ⟨⟨id, kind, location, span⟩, fields⟩ := node
  cases location <;> rfl

/-! ### What the discount does -/

/-- A discount moves the tree by the distance of the two lines. -/
theorem Node.prepare_of_discounts (h : tree.Discounts line first)
    (hlines : ∀ l ∈ tree.toValue.lines, 1 ≤ l ∧ l < 2 ^ 63) :
    tree.prepare true = tree.onLines fun l => max 1 (l - (line - first)) := by
  have hoffset : tree.decoratorOffset = some (line - first) :=
    Node.decoratorOffset_eq_some_iff.mpr ⟨line, first, h, rfl⟩
  rw [Node.prepare_eq_onLines hlines, hoffset, Option.getD_some]
  exact Node.onLines_congr fun l hl => raise_of_pos (hlines l hl).1

/-- Without a discount there is nothing to do. -/
theorem Node.prepare_of_not_discounts {discount : Bool}
    (h : discount = false ∨ ∀ line first, ¬ tree.Discounts line first) :
    tree.prepare discount = tree := by
  rcases h with rfl | hnone
  · rfl
  · have hoffset : tree.decoratorOffset = none := by
      refine Option.eq_none_iff_forall_ne_some.mpr fun lines hlines => ?_
      obtain ⟨line, first, h, -⟩ := Node.decoratorOffset_eq_some_iff.mp hlines
      exact hnone line first h
    rw [Node.prepare.eq_def, hoffset]
    cases discount <;> rfl

/-- Whatever a preparation does, it does to lines. -/
theorem Node.prepare_onLines_zero (discount : Bool) (tree : Node) :
    (tree.prepare discount).onLines (fun _ => 0) = tree.onLines fun _ => 0 := by
  rw [Node.prepare.eq_def]
  split
  · rw [Node.shift_eq_onLines, Node.onLines_onLines]
    rfl
  · rfl

end

/-- **Preparing a tree does the discount and nothing else.**

In no case anything but lines is changed: with all lines blotted out, the
prepared tree is the tree.  If the discount is on, and the tree stands for a
function on a line whose decorators begin on another line above, every line of
the tree moves up by their distance, but not above the first.  So the function
is then on the line on which its decorators began, the lines from the function
on are exactly that much smaller, and the order of lines is kept.  In every
other case the tree stays as it is. -/
theorem prepare_exactly (session : Session) (tree : Node) :
    let prepared := (session.prepare tree).1
    prepared.onLines (fun _ => 0) = tree.onLines (fun _ => 0) ∧
    (session.config.discountDecorators = false ∨ (∀ line first, ¬ tree.Discounts line first) →
      prepared = tree) ∧
    ∀ line first, session.config.discountDecorators = true → tree.Discounts line first →
      (∀ l ∈ tree.toValue.lines, 1 ≤ l ∧ l < 2 ^ 63) →
      let moved := fun l => max 1 (l - (line - first))
      prepared = tree.onLines moved ∧
      (∃ function, prepared.StandsFor function ∧ function.line? = some first) ∧
      (∀ l, line ≤ l → moved l + (line - first) = l) ∧
      ∀ l l', l ≤ l' → moved l ≤ moved l' := by
  intro prepared
  have hprepared : prepared = tree.prepare session.config.discountDecorators := rfl
  refine ⟨?_, ?_, ?_⟩
  · rw [hprepared]
    exact tree.prepare_onLines_zero _
  · intro h
    rw [hprepared]
    exact Node.prepare_of_not_discounts h
  · intro line first hon h hlines moved
    have hmoved : prepared = tree.onLines moved := by
      rw [hprepared, hon]
      exact Node.prepare_of_discounts h hlines
    have hfirst : 1 ≤ first := (hlines first h.mem_lines.2).1
    obtain ⟨function, -, hfunction, hline, -, -, hlt⟩ := h
    refine ⟨hmoved, ⟨function.onLines moved, ?_, ?_⟩, ?_, ?_⟩
    · rw [hmoved]
      exact hfunction.onLines moved
    · rw [Node.line?_onLines, hline, Option.map_some]
      congr 1
      simp only [moved]
      omega
    · intro l hl
      simp only [moved]
      omega
    · intro l l' hle
      simp only [moved]
      omega

/-- A function on line 5 with a decorator on line 2, and with nodes in a list in
its body on lines 6 and 3: they come to lie on lines 2, 1, 3 and 1. -/
theorem prepare_exactly_clamped :
    let pass := fun id line => Value.node ⟨id, .passStmt, some ⟨"m", line, 4⟩, none⟩ []
    let decorator := Value.node ⟨2, .name, some ⟨"m", 2, 1⟩, none⟩ [("id", .str "d")]
    let tree : Node := ⟨⟨1, .functionDef, some ⟨"m", 5, 0⟩, some ⟨⟨"m", 5, 0⟩, ⟨"m", 6, 8⟩⟩⟩,
      [("decorator_list", .list [decorator]), ("body", .list [.list [pass 3 6, pass 4 3]])]⟩
    let prepared := ((Session.begin .standard "_").prepare tree).1
    tree.Discounts 5 2 ∧ (∀ l ∈ tree.toValue.lines, 1 ≤ l ∧ l < 2 ^ 63) ∧
    prepared = tree.onLines (fun l => max 1 (l - (5 - 2))) ∧
    prepared.toValue.lines = [2, 2, 3, 1, 3, 1] := by
  intro pass decorator tree prepared
  have hleast : IsLeast (linesAmong [decorator]) 2 := by
    refine ⟨⟨⟨_, _⟩, List.mem_singleton_self _, rfl⟩, ?_⟩
    rintro line ⟨⟨head, fields⟩, hnode, hline⟩
    obtain ⟨hhead, -⟩ := Value.node.inj (List.mem_singleton.mp hnode)
    rw [Node.line?, hhead] at hline
    cases hline
    exact Nat.le_refl 2
  have hdiscounts : tree.Discounts 5 2 :=
    ⟨tree, [decorator], .root rfl, rfl, rfl, hleast, by decide⟩
  have hlines : ∀ l ∈ tree.toValue.lines, 1 ≤ l ∧ l < 2 ^ 63 := by decide +kernel
  have hmoved := ((prepare_exactly (Session.begin .standard "_") tree).2.2 5 2 rfl hdiscounts
    hlines).1
  exact ⟨hdiscounts, hlines, hmoved, by decide +kernel⟩

end FunctionIR
