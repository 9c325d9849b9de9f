import FunctionIR.Proofs.Exchange.Portable
import FunctionIR.Proofs.Reading.Denotes

/-!
# Copies of trees

A tree that is exported and imported again is another tree, for its nodes are
new; it is the same but for their numbers (`Value.anonymous`).  A portable
tree has such a copy, provided that its document can be read: it must not be
nested too deep, and its doubles must be settled.  An imported tree is
portable and never too deep, so it has one whenever its doubles are settled.
-/

namespace FunctionIR

namespace Value

mutual

/-- The value without the numbers of its nodes. -/
def anonymous : Value → Value
  | .scalar s => .scalar s
  | .node head fields => .node { head with id := 0 } (anonymousFields fields)
  | .list items => .list (anonymousItems items)
  | .foreign document => .foreign document

/-- The values without the numbers of their nodes. -/
def anonymousItems : List Value → List Value
  | [] => []
  | item :: rest => anonymous item :: anonymousItems rest

/-- The fields without the numbers of their nodes. -/
def anonymousFields : List (String × Value) → List (String × Value)
  | [] => []
  | (name, value) :: rest => (name, anonymous value) :: anonymousFields rest

end

end Value

/-- The tree without the numbers of its nodes. -/
def Node.anonymous (tree : Node) : Node :=
  ⟨{ tree.head with id := 0 }, Value.anonymousFields tree.fields⟩

namespace Exchange

open Numbered (Gives)

/-! ### The head of a node -/

/-- A name is looked up behind members of other names. -/
theorem get?_append {α : Type} {name : String} {members : List (String × α)}
    (h : name ∉ members.map Prod.fst) (more : List (String × α)) :
    Members.get? name (members ++ more) = Members.get? name more := by
  induction members with
  | nil => rfl
  | cons member rest ih =>
      obtain ⟨key, old⟩ := member
      simp only [List.map_cons, List.mem_cons, not_or] at h
      rw [List.cons_append, Members.get?, if_neg (Ne.symm h.1), ih h.2]

section Heads

variable {file : String} {head : Head} {fields : Fields}

/-- The members of an exported node. -/
def nodeMembers (head : Head) (fields : Fields) : List (String × Json) :=
  (typeKey, .string head.kind.tag) :: (exportFields fields ++ placeMembers head)

variable (hhead : head.Portable file) (hfields : Value.FieldsPortable file fields)

include hfields

/-- A member for the place is looked up among these. -/
theorem count?_nodeMembers {name : String} (h : name ∈ placeKeys) :
    count? (nodeMembers head fields) name = count? (placeMembers head) name := by
  have hkey : ∀ name ∈ placeKeys, typeKey ≠ name := by decide
  have hnotMem : name ∉ (exportFields fields).map Prod.fst := fun hmem =>
    (names_fields hfields name (names_exportFields fields ▸ hmem)).2 h
  rw [count?, count?, nodeMembers, Members.get?, if_neg (hkey name h), get?_append hnotMem]

include hhead

/-- The place of a node is read back from its members. -/
theorem locationOf_nodeMembers :
    locationOf file (nodeMembers head fields) = head.location := by
  have hlocation := hhead.location
  have hstart := hhead.start
  rw [locationOf, count?_nodeMembers hfields (by decide), count?_nodeMembers hfields (by decide)]
  unfold placeMembers
  cases hplace : head.location with
  | some location =>
      obtain ⟨rfl, -, -⟩ := hlocation location hplace
      simp [count?, Members.get?, ofCount]
  | none =>
      cases hspan : head.span with
      | some span => exact absurd (hplace.symm.trans (hstart span hspan)) (by simp)
      | none => simp [count?, Members.get?]

/-- The span of a node is read back from its members. -/
theorem spanFrom_nodeMembers : spanFrom file (nodeMembers head fields) = head.span := by
  have hstart := hhead.start
  have hstop := hhead.stop
  rw [spanFrom, locationOf_nodeMembers hhead hfields, count?_nodeMembers hfields (by decide),
    count?_nodeMembers hfields (by decide)]
  unfold placeMembers
  cases hspan : head.span with
  | some span =>
      obtain ⟨start, stop⟩ := span
      obtain ⟨hfile, -, -⟩ := hstop _ hspan
      simp only [hstart _ hspan]
      simp [count?, Members.get?, ofCount, ← hfile]
  | none => cases head.location <;> simp [count?, Members.get?]

/-- The head that an exported node is given is its own but for the number. -/
theorem headOf_nodeMembers :
    (headOf file (nodeMembers head fields)).Gives
      fun copy => ({ copy with id := 0 } : Head) = { head with id := 0 } := by
  have htag : Members.get? typeKey (nodeMembers head fields) =
      some (.string head.kind.tag) := by
    rw [nodeMembers, Members.get?, if_pos rfl]
  rw [headOf]
  simp only [htag, locationOf_nodeMembers hhead hfields, spanFrom_nodeMembers hhead hfields,
    hhead.kind.ofTag]
  refine (Numbered.gives_head _ _ _).mono fun copy hcopy => ?_
  obtain ⟨hkind, hlocation, hspan⟩ := hcopy
  simp only [hkind, hlocation, hspan]

end Heads

/-! ### Copies -/

/-- The members for a place are no fields. -/
theorem importFields_place {file : String} {members : List (String × Json)}
    (h : ∀ name ∈ members.map Prod.fst, name ∈ placeKeys) :
    importFields file members = pure [] := by
  induction members with
  | nil => rfl
  | cons member rest ih =>
      obtain ⟨name, item⟩ := member
      obtain ⟨hname, hrest⟩ := List.forall_mem_cons.mp h
      rw [importFields, if_pos (.inr hname), ih hrest]

mutual

/-- An exported value is imported as a copy. -/
theorem importValue_exportValue {file : String} : (value : Value) → value.Portable file →
    (importValue file (exportValue value)).Gives (·.anonymous = value.anonymous)
  | .scalar .none, _ => .pure rfl
  | .scalar (.bool _), _ => .pure rfl
  | .scalar (.int value), _ => by
      have hscalar : scalarOfNumber (.integer value.toInt) = .int value := by
        rw [scalarOfNumber, if_pos ⟨value.minValue_le_toInt, value.toInt_le⟩, Int64.ofInt_toInt]
      rw [exportValue, exportScalar, importValue, hscalar]
      exact .pure rfl
  | .scalar (.real _), _ => .pure rfl
  | .scalar (.str _), _ => .pure rfl
  | .node head fields, ⟨hhead, _, hfields⟩ => by
      have htag : (Members.get? typeKey (nodeMembers head fields)).isSome = true := by
        rw [nodeMembers, Members.get?, if_pos rfl]
        rfl
      rw [exportValue, ← nodeMembers, importValue, if_pos htag]
      refine (headOf_nodeMembers hhead hfields).bind fun copy hcopy => ?_
      rw [nodeMembers, importFields, if_pos (.inl rfl)]
      refine (importFields_exportFields fields hfields (placeMembers head) fun name hname =>
        (names_placeMembers head).subset hname).bind fun copies hcopies => .pure ?_
      rw [Value.anonymous, Value.anonymous, hcopy, hcopies]
  | .list items, h => by
      rw [exportValue, importValue]
      refine (importItems_exportItems items h).bind fun copies hcopies => .pure ?_
      rw [Value.anonymous, Value.anonymous, hcopies]
  | .foreign (.object members), h => by
      rw [exportValue, importValue, h.1]
      exact .pure rfl

/-- Exported items are imported as copies. -/
theorem importItems_exportItems {file : String} : (items : List Value) →
    Value.ItemsPortable file items →
    (importItems file (exportItems items)).Gives
      (Value.anonymousItems · = Value.anonymousItems items)
  | [], _ => .pure rfl
  | item :: rest, h => by
      rw [exportItems, importItems]
      refine (importValue_exportValue item h.1).bind fun copy hcopy =>
        (importItems_exportItems rest h.2).bind fun copies hcopies => .pure ?_
      rw [Value.anonymousItems, Value.anonymousItems, hcopy, hcopies]

/-- Exported fields are imported as copies, and the members for the place that
follow them are left out. -/
theorem importFields_exportFields {file : String} : (fields : Fields) →
    Value.FieldsPortable file fields → (place : List (String × Json)) →
    (∀ name ∈ place.map Prod.fst, name ∈ placeKeys) →
    (importFields file (exportFields fields ++ place)).Gives
      (Value.anonymousFields · = Value.anonymousFields fields)
  | [], _, place, hplace => by
      rw [exportFields, List.nil_append, importFields_place hplace]
      exact .pure rfl
  | (name, value) :: rest, h, place, hplace => by
      rw [exportFields, List.cons_append, importFields, if_neg (not_or.mpr h.1)]
      refine (importValue_exportValue value h.2.1).bind fun copy hcopy =>
        (importFields_exportFields rest h.2.2 place hplace).bind fun copies hcopies => .pure ?_
      rw [Value.anonymousFields, Value.anonymousFields, hcopy, hcopies]

end

/-- A portable tree whose document can be read has a copy. -/
theorem importTree_exportText {file : String} {tree : Node} (hportable : tree.Portable file)
    (hnesting : (exportTree tree).nesting < Json.nestingLimit)
    (hdoubles : ∀ x ∈ (exportTree tree).doubles, Json.Settled x) :
    (importTree file (exportText tree)).Gives (·.anonymous = tree.anonymous) := by
  have hread := Json.read_indented ((proper_exportTree hportable).of_doubles hdoubles) hnesting
  obtain ⟨head, fields⟩ := tree
  obtain ⟨hhead, -, hfields⟩ := hportable
  have hexport : exportTree ⟨head, fields⟩ = .object (nodeMembers head fields) := by
    rw [exportTree, Node.toValue, exportValue, nodeMembers]
  have htag : (Members.get? typeKey (nodeMembers head fields)).isSome = true := by
    rw [nodeMembers, Members.get?, if_pos rfl]
    rfl
  rw [importTree, exportText, hread, hexport]
  simp only [htag, if_true]
  refine (headOf_nodeMembers hhead hfields).bind fun copy hcopy => ?_
  rw [nodeMembers, importFields, if_pos (.inl rfl)]
  refine (importFields_exportFields fields hfields (placeMembers head) fun name hname =>
    (names_placeMembers head).subset hname).bind fun copies hcopies => .pure ?_
  rw [Node.anonymous, Node.anonymous]
  simp only [hcopy, hcopies]

/-- **A tree survives its document.**  A portable tree whose document nests at
most 127 arrays and objects, and whose doubles are settled, is imported from its
own export as it was, kinds, fields in order, values, locations and spans, with
new numbers for its nodes.  Every tree that is imported from a text, whatever
the text, is portable and nests no deeper, so importing the export of an import
gives that import again. -/
theorem copy_of_document (file : String) :
    (∀ tree : Node, tree.Portable file → (exportTree tree).nesting ≤ 127 →
      (∀ x ∈ (exportTree tree).doubles, Json.Settled x) →
      (importTree file (exportText tree)).Gives (·.anonymous = tree.anonymous)) ∧
    (∀ text, (importTree file text).Yields fun tree =>
      tree.Portable file ∧ (exportTree tree).nesting ≤ 127 ∧
      ((∀ x ∈ (exportTree tree).doubles, Json.Settled x) →
        (importTree file (exportText tree)).Gives (·.anonymous = tree.anonymous))) := by
  refine ⟨fun tree hportable hnesting hdoubles => ?_, fun text => ?_⟩
  · exact importTree_exportText hportable (Nat.lt_succ_of_le hnesting) hdoubles
  · refine (importTree_yields file text).mono fun tree htree => ?_
    exact ⟨htree.1, Nat.le_of_lt_succ htree.2, importTree_exportText htree.1 htree.2⟩

/-- A tree with a foreign kind, a place, a double, absent values and a foreign
part. -/
def portableSample : Node where
  head := ⟨7, .other "Widget", some ⟨"m.py", 3, 0⟩, some ⟨⟨"m.py", 3, 0⟩, ⟨"m.py", 4, 2⟩⟩⟩
  fields := [
    ("rate", .scalar (.real ⟨0x3FF8000000000000⟩)),
    ("parts", .list [.node ⟨8, .name, some ⟨"m.py", 3, 1⟩, none⟩ [("id", .str "x")], .absent]),
    ("extra", .foreign (.object [("deep", .array [.null])]))]

/-- The sample is one of the trees that survive. -/
theorem copy_of_document_sample :
    portableSample.Portable "m.py" ∧ (exportTree portableSample).nesting ≤ 127 ∧
      (∀ x ∈ (exportTree portableSample).doubles, Json.Settled x) ∧
      (importTree "m.py" (exportText portableSample)).Gives
        (·.anonymous = portableSample.anonymous) := by
  have hportable : portableSample.Portable "m.py" := by
    refine ⟨⟨?_, ?_, ?_, ?_⟩, by decide, by decide, ?_, by decide, ?_, by decide, ?_, trivial⟩
    · rintro _ ⟨⟩
      decide
    · rintro _ ⟨⟩
      exact ⟨rfl, by decide, by decide⟩
    · rintro _ ⟨⟩
      rfl
    · rintro _ ⟨⟩
      exact ⟨rfl, by decide, by decide⟩
    · show Json.IsFinite _
      rfl
    · refine ⟨⟨⟨nofun, ?_, nofun, nofun⟩, by decide, by decide, trivial, trivial⟩, trivial, trivial⟩
      rintro _ ⟨⟩
      exact ⟨rfl, by decide, by decide⟩
    · exact ⟨rfl, by decide, ⟨trivial, trivial⟩, trivial⟩
  have hnesting : (exportTree portableSample).nesting ≤ 127 := by decide
  have hdoubles : ∀ x ∈ (exportTree portableSample).doubles, Json.Settled x := by
    decide +kernel
  exact ⟨hportable, hnesting, hdoubles,
    (copy_of_document "m.py").1 portableSample hportable hnesting hdoubles⟩

end Exchange

end FunctionIR
