import FunctionIR.Tree.Lines

/-!
# Signatures

The trees that are read from program text have a fixed form.  A kind of node
has a **role**, which says where such a node may stand, and a **signature**:
the names of its fields in order, with a **slot** for each that says what the
field holds.

A value **fits** a slot if it is of the right sort and all nodes in it have
the fields of their signatures (`Fits`).  Such a value holds nothing foreign
and no module, and it holds function definitions only in lists of statements.
What else is known of the heads in it, such as their places, is a property
`H` that goes with the fit.

That values are read so is shown in `Proofs.Reading.Fitting` and
`Proofs.Reading.StatementFitting`.
-/

namespace FunctionIR

/-! ### The nodes of a value -/

namespace Value

mutual

/-- All nodes in a value, parents before children, in the order of the
fields. -/
def nodes : Value → List Node
  | .node head fields => ⟨head, fields⟩ :: nodesOfFields fields
  | .list items => nodesOfItems items
  | .scalar _ | .foreign _ => []

/-- All nodes in several values. -/
def nodesOfItems : List Value → List Node
  | [] => []
  | item :: rest => nodes item ++ nodesOfItems rest

/-- All nodes in fields. -/
def nodesOfFields : List (String × Value) → List Node
  | [] => []
  | (_, value) :: rest => nodes value ++ nodesOfFields rest

end

/-- A node in several values is in one of them. -/
theorem mem_nodesOfItems {node : Node} {items : List Value} :
    node ∈ nodesOfItems items ↔ ∃ item ∈ items, node ∈ item.nodes := by
  induction items with
  | nil => simp [nodesOfItems]
  | cons item items ih => simp [nodesOfItems, ih]

/-- A node in fields is in the value of one of them. -/
theorem mem_nodesOfFields {node : Node} {fields : Fields} :
    node ∈ nodesOfFields fields ↔ ∃ field ∈ fields, node ∈ field.2.nodes := by
  induction fields with
  | nil => simp [nodesOfFields]
  | cons field fields ih => simp [nodesOfFields, ih]

end Value

/-! ### Roles and slots -/

/-- What a node is used for. -/
inductive Role where
  | statement | expression | arguments | parameter | keyword
  | context | boolean | binary | unary | comparison
deriving DecidableEq

/-- What a field holds. -/
inductive Slot where
  /-- A text. -/
  | text
  /-- Any scalar. -/
  | leaf
  /-- Nothing. -/
  | absent
  /-- A node. -/
  | node (role : Role)
  /-- A node or nothing. -/
  | optional (role : Role)
  /-- Any number of values. -/
  | list (item : Slot)
deriving DecidableEq

/-- What a node of the kind is used for. -/
def Kind.role : Kind → Option Role
  | .functionDef | .passStmt | .breakStmt | .continueStmt | .returnStmt | .assign
  | .augAssign | .exprStmt | .ifStmt | .whileStmt | .forStmt => some .statement
  | .boolOp | .binOp | .unaryOp | .compare | .ifExp | .call | .attr | .subscript | .name
  | .constant | .list | .tuple => some .expression
  | .arguments => some .arguments
  | .arg => some .parameter
  | .keyword => some .keyword
  | .context _ => some .context
  | .boolean _ => some .boolean
  | .binary _ => some .binary
  | .unary _ => some .unary
  | .comparison _ => some .comparison
  | .module | .other _ => none

/-- The fields of a node of the kind. -/
def Kind.signature : Kind → List (String × Slot)
  | .module => [("body", .list (.node .statement)), ("type_ignores", .list .absent)]
  | .functionDef =>
    [("name", .text), ("args", .node .arguments), ("body", .list (.node .statement)),
     ("decorator_list", .list (.node .expression)), ("returns", .optional .expression),
     ("type_comment", .absent)]
  | .arguments =>
    [("posonlyargs", .list (.node .parameter)), ("args", .list (.node .parameter)),
     ("vararg", .optional .parameter), ("kwonlyargs", .list (.node .parameter)),
     ("kw_defaults", .list (.optional .expression)), ("kwarg", .optional .parameter),
     ("defaults", .list (.node .expression))]
  | .arg => [("arg", .text), ("annotation", .optional .expression), ("type_comment", .absent)]
  | .keyword => [("arg", .text), ("value", .node .expression)]
  | .returnStmt => [("value", .optional .expression)]
  | .assign =>
    [("targets", .list (.node .expression)), ("value", .node .expression),
     ("type_comment", .absent)]
  | .augAssign =>
    [("target", .node .expression), ("op", .node .binary), ("value", .node .expression)]
  | .exprStmt => [("value", .node .expression)]
  | .ifStmt | .whileStmt =>
    [("test", .node .expression), ("body", .list (.node .statement)),
     ("orelse", .list (.node .statement))]
  | .forStmt =>
    [("target", .node .expression), ("iter", .node .expression),
     ("body", .list (.node .statement)), ("orelse", .list (.node .statement)),
     ("type_comment", .absent)]
  | .boolOp => [("op", .node .boolean), ("values", .list (.node .expression))]
  | .binOp =>
    [("left", .node .expression), ("op", .node .binary), ("right", .node .expression)]
  | .unaryOp => [("op", .node .unary), ("operand", .node .expression)]
  | .compare =>
    [("left", .node .expression), ("ops", .list (.node .comparison)),
     ("comparators", .list (.node .expression))]
  | .ifExp =>
    [("test", .node .expression), ("body", .node .expression), ("orelse", .node .expression)]
  | .call =>
    [("func", .node .expression), ("args", .list (.node .expression)),
     ("keywords", .list (.node .keyword))]
  | .attr => [("value", .node .expression), ("attr", .text), ("ctx", .node .context)]
  | .subscript =>
    [("value", .node .expression), ("slice", .node .expression), ("ctx", .node .context)]
  | .name => [("id", .text), ("ctx", .node .context)]
  | .constant => [("value", .leaf), ("kind", .absent)]
  | .list | .tuple => [("elts", .list (.node .expression)), ("ctx", .node .context)]
  | .passStmt | .breakStmt | .continueStmt | .context _ | .boolean _ | .binary _ | .unary _
  | .comparison _ | .other _ => []

/-- The slot holds statements. -/
def Slot.holdsStatements : Slot → Bool
  | .node role | .optional role => role = .statement
  | .list item => item.holdsStatements
  | .text | .leaf | .absent => false

/-- A field of a kind holds no statements, or is the list of a body or an
`orelse`. -/
theorem signature_statements (kind : Kind) : ∀ entry ∈ kind.signature,
    entry.2.holdsStatements = false ∨
      (entry.2 = .list (.node .statement) ∧ (entry.1 = "body" ∨ entry.1 = "orelse")) := by
  cases kind <;> first | decide | (intro _ h; cases h)

/-- Only statements have statements in them. -/
theorem signature_without_statements {kind : Kind} {role : Role} (hrole : kind.role = some role)
    (hne : role ≠ .statement) : ∀ entry ∈ kind.signature, entry.2.holdsStatements = false := by
  cases kind <;> cases hrole <;> first | exact absurd rfl hne | decide | (intro _ h; cases h)

/-- What can be assigned to has a context. -/
theorem signature_of_isAssignable {kind : Kind} (h : kind.isAssignable = true) :
    Members.get? "ctx" kind.signature = some (.node .context) := by
  cases kind <;> first | rfl | cases h

/-- What holds elements holds expressions. -/
theorem elements_signature {kind : Kind} (h : kind = .tuple ∨ kind = .list) :
    kind.signature = [("elts", .list (.node .expression)), ("ctx", .node .context)] := by
  rcases h with rfl | rfl <;> rfl

/-! ### Fitting -/

mutual

/-- The value is of the slot's sort, all nodes in it have the fields of their
signatures, and all their heads have the property. -/
inductive Fits (H : Head → Prop) : Slot → Value → Prop
  | text (text : String) : Fits H .text (.str text)
  | leaf (s : Scalar) : Fits H .leaf (.scalar s)
  | absent : Fits H .absent .absent
  | node {role : Role} {head : Head} {fields : Fields} :
      head.kind.role = some role → H head → FieldsFit H head.kind.signature fields →
      Fits H (.node role) (.node head fields)
  | missing {role : Role} : Fits H (.optional role) .absent
  | present {role : Role} {value : Value} :
      Fits H (.node role) value → Fits H (.optional role) value
  | list {item : Slot} {items : List Value} : ItemsFit H item items → Fits H (.list item) (.list items)

/-- All values fit the slot. -/
inductive ItemsFit (H : Head → Prop) : Slot → List Value → Prop
  | nil {item : Slot} : ItemsFit H item []
  | cons {item : Slot} {value : Value} {rest : List Value} :
      Fits H item value → ItemsFit H item rest → ItemsFit H item (value :: rest)

/-- The fields have the names of the signature and fit its slots. -/
inductive FieldsFit (H : Head → Prop) : List (String × Slot) → Fields → Prop
  | nil : FieldsFit H [] []
  | cons {name : String} {slot : Slot} {value : Value} {signature : List (String × Slot)}
      {rest : Fields} :
      Fits H slot value → FieldsFit H signature rest →
      FieldsFit H ((name, slot) :: signature) ((name, value) :: rest)

end

variable {H : Head → Prop}

theorem ItemsFit.append {slot : Slot} {items more : List Value} (h : ItemsFit H slot items)
    (hmore : ItemsFit H slot more) : ItemsFit H slot (items ++ more) := by
  induction items with
  | nil => exact hmore
  | cons item items ih =>
      cases h with
      | cons hitem hitems => exact .cons hitem (ih hitems)

/-- The first value and the others. -/
theorem itemsFit_cons {slot : Slot} {item : Value} {rest : List Value} :
    ItemsFit H slot (item :: rest) ↔ Fits H slot item ∧ ItemsFit H slot rest := by
  refine ⟨fun h => ?_, fun h => .cons h.1 h.2⟩
  cases h with
  | cons hitem hrest => exact ⟨hitem, hrest⟩

theorem ItemsFit.single {slot : Slot} {item : Value} (h : Fits H slot item) :
    ItemsFit H slot [item] := .cons h .nil

theorem Fits.getD {role : Role} {value : Option Value}
    (h : ∀ v ∈ value, Fits H (.node role) v) : Fits H (.optional role) (value.getD .absent) := by
  cases value with
  | none => exact .missing
  | some v => exact .present (h v rfl)

/-- A node that fits is of a kind with the role and has the fields of that
kind. -/
theorem Fits.exists_node {role : Role} {value : Value} (h : Fits H (.node role) value) :
    ∃ head fields, value = .node head fields ∧ head.kind.role = some role ∧ H head ∧
      FieldsFit H head.kind.signature fields := by
  cases h with
  | node hrole hhead hfields => exact ⟨_, _, rfl, hrole, hhead, hfields⟩

/-- A value that fits a slot is a scalar, a list of values that fit, or a node
of a kind with a role. -/
theorem Fits.sort {slot : Slot} {value : Value} (h : Fits H slot value) :
    (∃ s, value = .scalar s) ∨
    (∃ item items, value = .list items ∧ ItemsFit H item items) ∨
    ∃ role head fields, value = .node head fields ∧ head.kind.role = some role ∧ H head ∧
      FieldsFit H head.kind.signature fields := by
  cases h with
  | text text => exact .inl ⟨_, rfl⟩
  | leaf s => exact .inl ⟨s, rfl⟩
  | absent => exact .inl ⟨_, rfl⟩
  | missing => exact .inl ⟨_, rfl⟩
  | list hitems => exact .inr (.inl ⟨_, _, rfl, hitems⟩)
  | node hrole hhead hfields => exact .inr (.inr ⟨_, _, _, rfl, hrole, hhead, hfields⟩)
  | present h =>
      obtain ⟨head, fields, rfl, hrole, hhead, hfields⟩ := h.exists_node
      exact .inr (.inr ⟨_, _, _, rfl, hrole, hhead, hfields⟩)

/-- The names of fields that fit are those of the signature. -/
theorem FieldsFit.names {signature : List (String × Slot)} {fields : Fields}
    (h : FieldsFit H signature fields) : fields.map Prod.fst = signature.map Prod.fst := by
  induction signature generalizing fields with
  | nil => cases h; rfl
  | cons entry signature ih =>
      cases h with
      | cons _ hrest => rw [List.map_cons, List.map_cons, ih hrest]

/-- A field that is set fits if the value fits the field's slot. -/
theorem FieldsFit.set {name : String} {slot : Slot} {value : Value}
    {signature : List (String × Slot)} {fields : Fields}
    (hslot : Members.get? name signature = some slot) (hvalue : Fits H slot value)
    (h : FieldsFit H signature fields) : FieldsFit H signature (Members.set name value fields) := by
  induction signature generalizing fields with
  | nil => cases hslot
  | cons entry signature ih =>
      obtain ⟨key, slot'⟩ := entry
      cases h with
      | cons hold hrest =>
          rw [Members.get?] at hslot
          rw [Members.set]
          split at hslot
          next hkey =>
            cases hslot
            rw [if_pos hkey]
            exact .cons hvalue hrest
          next hkey =>
            rw [if_neg hkey]
            exact .cons hold (ih hslot hrest)

mutual

/-- Less may be known of the heads. -/
theorem Fits.mono {H' : Head → Prop} (hH : ∀ head, H head → H' head) :
    {slot : Slot} → {value : Value} → Fits H slot value → Fits H' slot value
  | _, _, .text text => .text text
  | _, _, .leaf s => .leaf s
  | _, _, .absent => .absent
  | _, _, .missing => .missing
  | _, _, .present h => .present (Fits.mono hH h)
  | _, _, .node hrole hhead hfields => .node hrole (hH _ hhead) (FieldsFit.mono hH hfields)
  | _, _, .list hitems => .list (ItemsFit.mono hH hitems)

theorem ItemsFit.mono {H' : Head → Prop} (hH : ∀ head, H head → H' head) :
    {slot : Slot} → {items : List Value} → ItemsFit H slot items → ItemsFit H' slot items
  | _, _, .nil => .nil
  | _, _, .cons hitem hrest => .cons (Fits.mono hH hitem) (ItemsFit.mono hH hrest)

theorem FieldsFit.mono {H' : Head → Prop} (hH : ∀ head, H head → H' head) :
    {signature : List (String × Slot)} → {fields : Fields} → FieldsFit H signature fields →
    FieldsFit H' signature fields
  | _, _, .nil => .nil
  | _, _, .cons hvalue hrest => .cons (Fits.mono hH hvalue) (FieldsFit.mono hH hrest)

end

mutual

/-- A value that is moved fits as before. -/
theorem Fits.shift {H' : Head → Prop} {delta : Int} (hH : ∀ head, H head → H' (head.shift delta)) :
    {slot : Slot} → {value : Value} → Fits H slot value → Fits H' slot (value.shift delta)
  | _, _, .text text => .text text
  | _, _, .leaf s => .leaf s
  | _, _, .absent => .absent
  | _, _, .missing => .missing
  | _, _, .present h => .present (Fits.shift hH h)
  | _, _, .node hrole hhead hfields => .node hrole (hH _ hhead) (FieldsFit.shift hH hfields)
  | _, _, .list hitems => .list (ItemsFit.shift hH hitems)

theorem ItemsFit.shift {H' : Head → Prop} {delta : Int}
    (hH : ∀ head, H head → H' (head.shift delta)) : {slot : Slot} → {items : List Value} →
    ItemsFit H slot items → ItemsFit H' slot (Value.shiftItems delta items)
  | _, _, .nil => .nil
  | _, _, .cons hitem hrest => .cons (Fits.shift hH hitem) (ItemsFit.shift hH hrest)

theorem FieldsFit.shift {H' : Head → Prop} {delta : Int}
    (hH : ∀ head, H head → H' (head.shift delta)) : {signature : List (String × Slot)} →
    {fields : Fields} → FieldsFit H signature fields →
    FieldsFit H' signature (Value.shiftFields delta fields)
  | _, _, .nil => .nil
  | _, _, .cons hvalue hrest => .cons (Fits.shift hH hvalue) (FieldsFit.shift hH hrest)

end

end FunctionIR
