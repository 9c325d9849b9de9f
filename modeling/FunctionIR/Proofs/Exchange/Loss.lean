import FunctionIR.Proofs.Json.Result
import FunctionIR.Proofs.Reading.Signature
import FunctionIR.Tree.Exchange

/-!
# What a document does not tell

A document has numbers for finite doubles only; the others are written as
`null`, which is read as no value at all.  So the text of a document tells its
**written** part (`Json.written`), and the text of a tree the written part of
the tree (`Value.written`), in which every double is finite.  Where all doubles
are finite, nothing is lost.
-/

namespace FunctionIR

namespace Json

mutual

/-- The document as its text tells it: `null` for every double that is not
finite. -/
def written : Json → Json
  | .null => .null
  | .bool value => .bool value
  | .number (.integer value) => .number (.integer value)
  | .number (.real x) => if x.isFinite then .number (.real x) else .null
  | .string value => .string value
  | .array items => .array (itemsWritten items)
  | .object members => .object (membersWritten members)

/-- The documents as their texts tell them. -/
def itemsWritten : List Json → List Json
  | [] => []
  | item :: rest => written item :: itemsWritten rest

/-- The members as their texts tell them. -/
def membersWritten : List (String × Json) → List (String × Json)
  | [] => []
  | (name, value) :: rest => (name, written value) :: membersWritten rest

end

theorem membersWritten_append (members more : List (String × Json)) :
    membersWritten (members ++ more) = membersWritten members ++ membersWritten more := by
  induction members with
  | nil => rfl
  | cons member members ih =>
      obtain ⟨name, value⟩ := member
      simp only [List.cons_append, membersWritten, ih]

mutual

/-- **The written part has the same text.** -/
theorem indentedAt_written (level : Nat) : (document : Json) →
    document.written.indentedAt level = document.indentedAt level
  | .null => rfl
  | .bool _ => rfl
  | .number (.integer _) => rfl
  | .number (.real x) => by
      rw [written]
      split
      · rfl
      next h => rw [indentedAt, indentedAt, text_of_not_finite (by simpa using h)]
  | .string _ => rfl
  | .array [] => rfl
  | .array (item :: rest) => by
      have hitems := indentedItems_written (level + 1) (item :: rest)
      simp only [written, itemsWritten, indentedAt] at hitems ⊢
      rw [hitems]
  | .object [] => rfl
  | .object ((name, value) :: rest) => by
      have hmembers := indentedMembers_written (level + 1) ((name, value) :: rest)
      simp only [written, membersWritten, indentedAt] at hmembers ⊢
      rw [hmembers]

/-- Items print as what is written of them. -/
theorem indentedItems_written (level : Nat) : (items : List Json) →
    indentedItems level (itemsWritten items) = indentedItems level items
  | [] => rfl
  | [item] => by
      simp only [itemsWritten, indentedItems, indentedAt_written level item]
  | item :: next :: rest => by
      have hrest := indentedItems_written level (next :: rest)
      simp only [itemsWritten, indentedItems] at hrest ⊢
      rw [hrest, indentedAt_written level item]

/-- Members print as what is written of them. -/
theorem indentedMembers_written (level : Nat) : (members : List (String × Json)) →
    indentedMembers level (membersWritten members) = indentedMembers level members
  | [] => rfl
  | [(_, value)] => by
      simp only [membersWritten, indentedMembers, indentedAt_written level value]
  | (_, value) :: (name, value') :: rest => by
      have hrest := indentedMembers_written level ((name, value') :: rest)
      simp only [membersWritten, indentedMembers] at hrest ⊢
      rw [hrest, indentedAt_written level value]

end

/-- A document prints as what is written of it. -/
theorem indented_written (document : Json) : document.written.indented = document.indented :=
  indentedAt_written 0 document

mutual

/-- The written part nests as deep. -/
theorem nesting_written : (document : Json) → document.written.nesting = document.nesting
  | .null => rfl
  | .bool _ => rfl
  | .number (.integer _) => rfl
  | .number (.real x) => by
      rw [written]
      split <;> rfl
  | .string _ => rfl
  | .array items => by rw [written, nesting, nesting, itemsNesting_written items]
  | .object members => by rw [written, nesting, nesting, membersNesting_written members]

/-- What is written of items nests as deep as they do. -/
theorem itemsNesting_written : (items : List Json) →
    itemsNesting (itemsWritten items) = itemsNesting items
  | [] => rfl
  | item :: rest => by
      rw [itemsWritten, itemsNesting, itemsNesting, nesting_written item,
        itemsNesting_written rest]

/-- What is written of members nests as deep as they do. -/
theorem membersNesting_written : (members : List (String × Json)) →
    membersNesting (membersWritten members) = membersNesting members
  | [] => rfl
  | (name, value) :: rest => by
      rw [membersWritten, membersNesting, membersNesting, nesting_written value,
        membersNesting_written rest]

end

mutual

/-- The doubles of the written part are the finite ones. -/
theorem doubles_written : (document : Json) →
    document.written.doubles = document.doubles.filter Binary64.isFinite
  | .null => rfl
  | .bool _ => rfl
  | .number (.integer _) => rfl
  | .number (.real x) => by
      rw [written, doubles]
      cases h : x.isFinite <;> simp [doubles, h]
  | .string _ => rfl
  | .array items => by rw [written, doubles, doubles, itemsDoubles_written items]
  | .object members => by rw [written, doubles, doubles, membersDoubles_written members]

/-- The doubles that are written of items are the finite ones among theirs. -/
theorem itemsDoubles_written : (items : List Json) →
    itemsDoubles (itemsWritten items) = (itemsDoubles items).filter Binary64.isFinite
  | [] => rfl
  | item :: rest => by
      rw [itemsWritten, itemsDoubles, itemsDoubles, List.filter_append, doubles_written item,
        itemsDoubles_written rest]

/-- The doubles that are written of members are the finite ones among theirs. -/
theorem membersDoubles_written : (members : List (String × Json)) →
    membersDoubles (membersWritten members) = (membersDoubles members).filter Binary64.isFinite
  | [] => rfl
  | (name, value) :: rest => by
      rw [membersWritten, membersDoubles, membersDoubles, List.filter_append,
        doubles_written value, membersDoubles_written rest]

end

mutual

/-- Nothing is lost of a document whose doubles are finite. -/
theorem written_eq_self : (document : Json) → (∀ x ∈ document.doubles, IsFinite x) →
    document.written = document
  | .null, _ => rfl
  | .bool _, _ => rfl
  | .number (.integer _), _ => rfl
  | .number (.real x), h => by
      have hfinite : x.isFinite = true := h x List.mem_cons_self
      rw [written, if_pos hfinite]
  | .string _, _ => rfl
  | .array items, h => by rw [written, itemsWritten_eq_self items h]
  | .object members, h => by rw [written, membersWritten_eq_self members h]

/-- Items with finite doubles are written as they are. -/
theorem itemsWritten_eq_self : (items : List Json) → (∀ x ∈ itemsDoubles items, IsFinite x) →
    itemsWritten items = items
  | [], _ => rfl
  | item :: rest, h => by
      obtain ⟨hitem, hrest⟩ := List.forall_mem_append.mp h
      rw [itemsWritten, written_eq_self item hitem, itemsWritten_eq_self rest hrest]

/-- Members with finite doubles are written as they are. -/
theorem membersWritten_eq_self : (members : List (String × Json)) →
    (∀ x ∈ membersDoubles members, IsFinite x) → membersWritten members = members
  | [], _ => rfl
  | (name, value) :: rest, h => by
      obtain ⟨hvalue, hrest⟩ := List.forall_mem_append.mp h
      rw [membersWritten, written_eq_self value hvalue, membersWritten_eq_self rest hrest]

end

theorem membersDoubles_append (members more : List (String × Json)) :
    membersDoubles (members ++ more) = membersDoubles members ++ membersDoubles more := by
  induction members with
  | nil => rfl
  | cons member members ih =>
      obtain ⟨name, value⟩ := member
      simp only [List.cons_append, membersDoubles, ih, List.append_assoc]

end Json

namespace Value

mutual

/-- The value as a document tells it: none for every double that is not
finite. -/
def written : Value → Value
  | .scalar (.real x) => if x.isFinite then .scalar (.real x) else .absent
  | .scalar s => .scalar s
  | .node head fields => .node head (writtenFields fields)
  | .list items => .list (writtenItems items)
  | .foreign document => .foreign document.written

/-- The values as documents tell them. -/
def writtenItems : List Value → List Value
  | [] => []
  | item :: rest => written item :: writtenItems rest

/-- The fields as members tell them. -/
def writtenFields : List (String × Value) → List (String × Value)
  | [] => []
  | (name, value) :: rest => (name, written value) :: writtenFields rest

end

end Value

/-- The tree as a document tells it. -/
def Node.written (tree : Node) : Node := ⟨tree.head, Value.writtenFields tree.fields⟩

namespace Exchange

/-- The members for a place are told as they are. -/
theorem written_placeMembers (head : Head) :
    Json.membersWritten (placeMembers head) = placeMembers head := by
  unfold placeMembers
  rw [Json.membersWritten_append]
  cases head.location <;> cases head.span <;> rfl

mutual

/-- The document of the written part is the written part of the document. -/
theorem exportValue_written : (value : Value) →
    exportValue value.written = (exportValue value).written
  | .scalar .none => rfl
  | .scalar (.bool _) => rfl
  | .scalar (.int _) => rfl
  | .scalar (.real x) => by
      rw [Value.written, exportValue, exportScalar, Json.written]
      split <;> rfl
  | .scalar (.str _) => rfl
  | .node head fields => by
      rw [Value.written, exportValue, exportValue, Json.written, Json.membersWritten, Json.written,
        Json.membersWritten_append, written_placeMembers, exportFields_written fields]
  | .list items => by
      rw [Value.written, exportValue, exportValue, Json.written, exportItems_written items]
  | .foreign _ => rfl

/-- Dropping the infinite doubles of items before their export is dropping them after it. -/
theorem exportItems_written : (items : List Value) →
    exportItems (Value.writtenItems items) = Json.itemsWritten (exportItems items)
  | [] => rfl
  | item :: rest => by
      rw [Value.writtenItems, exportItems, exportItems, Json.itemsWritten,
        exportValue_written item, exportItems_written rest]

/-- Dropping the infinite doubles of fields before their export is dropping them after it. -/
theorem exportFields_written : (fields : Fields) →
    exportFields (Value.writtenFields fields) = Json.membersWritten (exportFields fields)
  | [] => rfl
  | (name, value) :: rest => by
      rw [Value.writtenFields, exportFields, exportFields, Json.membersWritten,
        exportValue_written value, exportFields_written rest]

end

/-- Dropping the infinite doubles of a tree before its export is dropping them after it. -/
theorem exportTree_written (tree : Node) :
    exportTree tree.written = (exportTree tree).written := by
  rw [exportTree, exportTree, ← exportValue_written, Node.toValue, Node.toValue, Value.written,
    Node.written]

/-- **A tree and its written part have the same text.** -/
theorem exportText_written (tree : Node) : exportText tree.written = exportText tree := by
  rw [exportText, exportText, exportTree_written, Json.indented_written]

end Exchange

namespace Exchange

/-- What holds of the doubles of a node's document holds of those of its
fields. -/
theorem doubles_exportFields {P : Binary64 → Prop} {head : Head} {fields : Fields}
    (h : ∀ x ∈ (exportValue (.node head fields)).doubles, P x) :
    ∀ x ∈ Json.membersDoubles (exportFields fields), P x := by
  rw [exportValue] at h
  simp only [Json.doubles, Json.membersDoubles, Json.membersDoubles_append,
    List.forall_mem_append] at h
  exact h.2.1

end Exchange

namespace Value

open Exchange (exportValue exportItems exportFields doubles_exportFields)

mutual

/-- Nothing is lost of a value whose doubles are finite. -/
theorem written_eq_self : (value : Value) → (∀ x ∈ (exportValue value).doubles, Json.IsFinite x) →
    value.written = value
  | .scalar .none, _ => rfl
  | .scalar (.bool _), _ => rfl
  | .scalar (.int _), _ => rfl
  | .scalar (.real x), h => by
      have hfinite : x.isFinite = true := h x List.mem_cons_self
      rw [written, if_pos hfinite]
  | .scalar (.str _), _ => rfl
  | .node _ fields, h => by
      rw [written, writtenFields_eq_self fields (doubles_exportFields h)]
  | .list items, h => by rw [written, writtenItems_eq_self items h]
  | .foreign document, h => by rw [written, Json.written_eq_self document h]

/-- Items with finite doubles keep all of them. -/
theorem writtenItems_eq_self : (items : List Value) →
    (∀ x ∈ Json.itemsDoubles (exportItems items), Json.IsFinite x) → writtenItems items = items
  | [], _ => rfl
  | item :: rest, h => by
      obtain ⟨hitem, hrest⟩ := List.forall_mem_append.mp h
      rw [writtenItems, written_eq_self item hitem, writtenItems_eq_self rest hrest]

/-- Fields with finite doubles keep all of them. -/
theorem writtenFields_eq_self : (fields : Fields) →
    (∀ x ∈ Json.membersDoubles (exportFields fields), Json.IsFinite x) →
    writtenFields fields = fields
  | [], _ => rfl
  | (name, value) :: rest, h => by
      obtain ⟨hvalue, hrest⟩ := List.forall_mem_append.mp h
      rw [writtenFields, written_eq_self value hvalue, writtenFields_eq_self rest hrest]

end

end Value

/-- Nothing is lost of a tree whose doubles are finite. -/
theorem Node.written_eq_self {tree : Node}
    (h : ∀ x ∈ (Exchange.exportTree tree).doubles, Json.IsFinite x) : tree.written = tree := by
  rw [Node.written, Value.writtenFields_eq_self tree.fields (Exchange.doubles_exportFields h)]

/-! ### Values that fit -/

mutual

/-- The written part of a value fits where the value does: any leaf can be
none. -/
theorem Fits.written {H : Head → Prop} : {slot : Slot} → {value : Value} → Fits H slot value →
    Fits H slot value.written
  | _, _, .text text => .text text
  | _, _, .leaf .none => .leaf .none
  | _, _, .leaf (.bool _) => .leaf _
  | _, _, .leaf (.int _) => .leaf _
  | _, _, .leaf (.real x) => by
      rw [Value.written]
      split <;> exact .leaf _
  | _, _, .leaf (.str _) => .leaf _
  | _, _, .absent => .absent
  | _, _, .missing => .missing
  | _, _, .present hvalue => .present (Fits.written hvalue)
  | _, _, .node hrole hhead hfields => .node hrole hhead (FieldsFit.written hfields)
  | _, _, .list hitems => .list (ItemsFit.written hitems)

/-- Items that fit a slot fit it after the loss. -/
theorem ItemsFit.written {H : Head → Prop} : {slot : Slot} → {items : List Value} →
    ItemsFit H slot items → ItemsFit H slot (Value.writtenItems items)
  | _, _, .nil => .nil
  | _, _, .cons hitem hrest => .cons (Fits.written hitem) (ItemsFit.written hrest)

/-- Fields that fit a signature fit it after the loss. -/
theorem FieldsFit.written {H : Head → Prop} : {signature : List (String × Slot)} →
    {fields : Fields} → FieldsFit H signature fields →
    FieldsFit H signature (Value.writtenFields fields)
  | _, _, .nil => .nil
  | _, _, .cons hvalue hrest => .cons (Fits.written hvalue) (FieldsFit.written hrest)

end

end FunctionIR
