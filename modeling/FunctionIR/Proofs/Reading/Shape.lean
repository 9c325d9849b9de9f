import FunctionIR.Proofs.Reading.Counts
import Mathlib.Data.List.Forall2

/-!
# The shape of trees

Every node of a tree that is read from program text has the fields of its
kind: their names in order, values of the right sort in them, and lists of the
lengths that are asked for (`Node.WellShaped`).  The root is a module, and no
other node is; no node is of a foreign kind and no value is foreign; and
statements stand in bodies and `orelse` lists only.

The condition on a node looks at the node and at what is directly in its
fields.  It says nothing about the nodes below, because it holds for these as
well (`tree_wellShaped`).
-/

namespace FunctionIR

/-! ### What a field holds -/

/-- The value is a node of the role. -/
def Value.IsA (role : Role) (value : Value) : Prop :=
  ∃ head fields, value = .node head fields ∧ head.kind.role = some role

theorem Value.not_isA_scalar (role : Role) (s : Scalar) : ¬ (Value.scalar s).IsA role := by
  intro h
  obtain ⟨head, fields, heq, -⟩ := h
  cases heq

/-- A list has no role. -/
theorem Value.not_isA_list (role : Role) (items : List Value) : ¬ (Value.list items).IsA role := by
  intro h
  obtain ⟨head, fields, heq, -⟩ := h
  cases heq

/-- The value is of the slot's sort. -/
def Slot.Holds : Slot → Value → Prop
  | .text, value => ∃ text, value = .str text
  | .leaf, value => ∃ s, value = .scalar s
  | .absent, value => value = .absent
  | .node role, value => value.IsA role
  | .optional role, value => value = .absent ∨ value.IsA role
  | .list item, value => ∃ items, value = .list items ∧ ∀ v ∈ items, item.Holds v

/-- The fields are those of the signature, in its order, and hold values of the
right sort. -/
def FieldsHold (signature : List (String × Slot)) (fields : Fields) : Prop :=
  List.Forall₂ (fun entry field => field.1 = entry.1 ∧ entry.2.Holds field.2) signature fields

/-- Statements are in no field but the lists of a body and of an `orelse`. -/
def StatementsInBodies (fields : Fields) : Prop :=
  ∀ field ∈ fields, ¬ field.2.IsA .statement ∧
    ∀ items, field.2 = .list items → (∃ item ∈ items, item.IsA .statement) →
      field.1 = "body" ∨ field.1 = "orelse"

/-- The node has what its kind asks for. -/
structure Node.WellShaped (node : Node) : Prop where
  known : node.head.kind.isOther = false
  fields : FieldsHold node.head.kind.signature node.fields
  counts : node.Counts
  statements : StatementsInBodies node.fields

/-- All nodes of the tree but the root. -/
def Node.descendants (tree : Node) : List Node := Value.nodesOfFields tree.fields

/-! ### What fits holds -/

variable {H : Head → Prop}

mutual

/-- What fits a slot is what the slot holds. -/
theorem Fits.holds : {slot : Slot} → {value : Value} → Fits H slot value → slot.Holds value
  | _, _, .text text => ⟨text, rfl⟩
  | _, _, .leaf s => ⟨s, rfl⟩
  | _, _, .absent => rfl
  | _, _, .node hrole _ _ => ⟨_, _, rfl, hrole⟩
  | _, _, .missing => .inl rfl
  | _, _, .present h => .inr (Fits.holds h)
  | _, _, .list hitems => ⟨_, rfl, ItemsFit.holds hitems⟩

/-- What fits a slot for items is what it holds, item by item. -/
theorem ItemsFit.holds : {slot : Slot} → {items : List Value} → ItemsFit H slot items →
    ∀ v ∈ items, slot.Holds v
  | _, _, .nil => List.forall_mem_nil _
  | _, _, .cons hitem hrest => List.forall_mem_cons.mpr ⟨Fits.holds hitem, ItemsFit.holds hrest⟩

end

/-- Fields that fit a signature hold what it says. -/
theorem FieldsFit.hold {signature : List (String × Slot)} {fields : Fields}
    (h : FieldsFit H signature fields) : FieldsHold signature fields := by
  induction fields generalizing signature with
  | nil =>
      cases h
      exact .nil
  | cons field rest ih =>
      cases h with
      | cons hvalue hrest => exact .cons ⟨rfl, hvalue.holds⟩ (ih hrest)

/-! ### Where statements stand -/

/-- No statement is in a slot that holds none. -/
theorem Slot.Holds.no_statement {slot : Slot} {value : Value} (h : slot.Holds value)
    (hslot : slot.holdsStatements = false) :
    ¬ value.IsA .statement ∧ ∀ items, value = .list items → ¬ ∃ item ∈ items, item.IsA .statement := by
  induction slot generalizing value with
  | text | leaf =>
      obtain ⟨_, rfl⟩ := h
      refine ⟨Value.not_isA_scalar _ _, ?_⟩
      intro items heq
      cases heq
  | absent =>
      cases h
      refine ⟨Value.not_isA_scalar _ _, ?_⟩
      intro items heq
      cases heq
  | node role =>
      obtain ⟨head, fields, rfl, hrole⟩ := h
      constructor
      · rintro ⟨_, _, ⟨⟩, hstatement⟩
        rw [hrole] at hstatement
        cases hstatement
        cases hslot
      · intro items heq
        cases heq
  | optional role =>
      rcases h with rfl | ⟨head, fields, rfl, hrole⟩
      · refine ⟨Value.not_isA_scalar _ _, ?_⟩
        intro items heq
        cases heq
      · constructor
        · rintro ⟨_, _, ⟨⟩, hstatement⟩
          rw [hrole] at hstatement
          cases hstatement
          cases hslot
        · intro items heq
          cases heq
  | list item ih =>
      obtain ⟨items, rfl, hitems⟩ := h
      refine ⟨Value.not_isA_list _ _, ?_⟩
      rintro _ ⟨⟩ ⟨v, hmem, hstatement⟩
      exact (ih (hitems v hmem) hslot).1 hstatement

/-- Where a signature has statements in bodies only, so do the fields. -/
theorem FieldsHold.statementsInBodies {signature : List (String × Slot)} {fields : Fields}
    (hsignature : ∀ entry ∈ signature, entry.2.holdsStatements = false ∨
      (entry.2 = .list (.node .statement) ∧ (entry.1 = "body" ∨ entry.1 = "orelse")))
    (h : FieldsHold signature fields) : StatementsInBodies fields := by
  induction h with
  | nil => exact List.forall_mem_nil _
  | @cons entry field signature fields hfield _ ih =>
      obtain ⟨hentry, hrest⟩ := List.forall_mem_cons.mp hsignature
      refine List.forall_mem_cons.mpr ⟨?_, ih hrest⟩
      obtain ⟨hname, hholds⟩ := hfield
      rcases hentry with hplain | ⟨hlist, hbody⟩
      · obtain ⟨hnode, hitems⟩ := hholds.no_statement hplain
        exact ⟨hnode, fun items heq hstatement => absurd hstatement (hitems items heq)⟩
      · rw [hlist] at hholds
        obtain ⟨items, heq, -⟩ := hholds
        rw [heq, hname]
        exact ⟨Value.not_isA_list _ _, fun _ _ _ => hbody⟩

/-! ### All nodes -/

/-- A node whose fields fit, and whose lists are long enough, is well shaped. -/
theorem FieldsFit.wellShaped {head : Head} {fields : Fields} (hknown : head.kind.isOther = false)
    (h : FieldsFit H head.kind.signature fields) (hcounts : head.kind.Counts fields) :
    Node.WellShaped ⟨head, fields⟩ :=
  ⟨hknown, h.hold, hcounts, h.hold.statementsInBodies (signature_statements head.kind)⟩

/-- A kind with a role is known, and is not that of a module. -/
theorem known_of_role {kind : Kind} {role : Role} (h : kind.role = some role) :
    kind.isOther = false ∧ kind ≠ .module := by
  cases kind <;> first | cases h; done | exact ⟨rfl, nofun⟩

mutual

/-- The nodes of a value that fits and is counted are well shaped, and none is a
module. -/
theorem Fits.wellShaped : {slot : Slot} → {value : Value} → Fits H slot value → value.Counted →
    ∀ node ∈ value.nodes, node.head.kind ≠ .module ∧ node.WellShaped
  | _, _, .text _, _ | _, _, .leaf _, _ | _, _, .absent, _ | _, _, .missing, _ =>
      List.forall_mem_nil _
  | _, _, .present h, hcounted => Fits.wellShaped h hcounted
  | _, _, .list hitems, hcounted =>
      ItemsFit.wellShaped hitems (Value.counted_list.mp hcounted)
  | _, _, .node hrole _ hfields, hcounted => by
      obtain ⟨hcounts, hfieldsCounted⟩ := Value.counted_node.mp hcounted
      obtain ⟨hknown, hne⟩ := known_of_role hrole
      exact List.forall_mem_cons.mpr ⟨⟨hne, hfields.wellShaped hknown hcounts⟩,
        FieldsFit.allWellShaped hfields hfieldsCounted⟩

/-- Items that fit and are counted have nodes of good shape. -/
theorem ItemsFit.wellShaped : {slot : Slot} → {items : List Value} → ItemsFit H slot items →
    ItemsCounted items →
    ∀ node ∈ Value.nodesOfItems items, node.head.kind ≠ .module ∧ node.WellShaped
  | _, _, .nil, _ => List.forall_mem_nil _
  | _, _, .cons hitem hrest, hcounted =>
      List.forall_mem_append.mpr ⟨Fits.wellShaped hitem (itemsCounted_cons.mp hcounted).1,
        ItemsFit.wellShaped hrest (itemsCounted_cons.mp hcounted).2⟩

/-- Fields that fit and are counted have nodes of good shape. -/
theorem FieldsFit.allWellShaped : {signature : List (String × Slot)} → {fields : Fields} →
    FieldsFit H signature fields → FieldsCounted fields →
    ∀ node ∈ Value.nodesOfFields fields, node.head.kind ≠ .module ∧ node.WellShaped
  | _, _, .nil, _ => List.forall_mem_nil _
  | _, _, .cons hvalue hrest, hcounted =>
      List.forall_mem_append.mpr ⟨Fits.wellShaped hvalue (List.forall_mem_cons.mp hcounted).1,
        FieldsFit.allWellShaped hrest (List.forall_mem_cons.mp hcounted).2⟩

end

/-- **The shape of a tree.**  The tree that program text is read as is a module,
and the only one in it; the module and all nodes below have the fields of their
kinds. -/
theorem tree_wellShaped {source : Source} (hformat : source.format = .program)
    {counter next : Nat} {tree : Node} (h : source.tree.runFrom counter = (.ok tree, next)) :
    tree.head.kind = .module ∧ tree.WellShaped ∧
      ∀ node ∈ tree.descendants, node.head.kind ≠ .module ∧ node.WellShaped := by
  obtain ⟨body, hkind, -, hfields, hbody⟩ := Source.tree_fits hformat counter tree next h
  have hcounted := Source.tree_counted hformat counter tree next h
  obtain ⟨head, fields⟩ := tree
  change head.kind = .module at hkind
  change fields = _ at hfields
  obtain ⟨hcounts, hall⟩ := Value.counted_node.mp hcounted
  have hfit : FieldsFit (Reading.Placed source.name (Grammar.Place.Within source.text.length))
      head.kind.signature fields := by
    rw [hkind, hfields]
    exact .cons (.list hbody) (.cons (.list .nil) .nil)
  have hknown : head.kind.isOther = false := by rw [hkind]; rfl
  exact ⟨hkind, hfit.wellShaped hknown hcounts, hfit.allWellShaped hall⟩

/-- A function with a comparison and an assignment in it. -/
theorem tree_wellShaped_function :
    let source := Source.ofText "m" "def f(x):\n    if x < 2:\n        a = x\n" .program
    ∃ tree, (source.tree.runFrom 1).1 = .ok tree ∧ tree.descendants.length = 14 ∧
      tree.head.kind = .module ∧ tree.WellShaped ∧
      ∀ node ∈ tree.descendants, node.head.kind ≠ .module ∧ node.WellShaped := by
  intro source
  obtain ⟨tree, hread, hlength⟩ :
      ∃ tree, (source.tree.runFrom 1).1 = .ok tree ∧ tree.descendants.length = 14 := by
    decide +kernel
  have hrun : source.tree.runFrom 1 = (.ok tree, (source.tree.runFrom 1).2) :=
    Prod.ext hread rfl
  exact ⟨tree, hread, hlength, tree_wellShaped rfl hrun⟩

end FunctionIR
