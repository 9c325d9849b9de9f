import FunctionIR.Proofs.Translation.FieldNames
import FunctionIR.Proofs.Translation.Registration
import FunctionIR.Translation.Export

/-!
# What an exported function tells

A document **exports** a fragment (`Exports`) when it has all of the fragment's
structure: a function is an object of ten members, a generic node an object whose
member `node` tells the node and where it comes from and whose other members are
its fields, one for each and in order.  From such a document the numbers of the
nodes can be read without looking at the fragment (`Json.nodeIds`), and they are
the numbers of the fragment (`Exports.nodeIds`).

What is written for a fragment exports it as long as no generic node in it has a
field that is itself called `node` (`Fragment.exports_toJson`).  Such a field
takes the place of the member that tells the node, so that this is also needed
(`Exports.nodup_fieldNames`).  A program has no field of that name, but a
serialized tree can have one (`not_exports_clashing`).
-/

namespace FunctionIR

open Exchange (ofCount)

/-! ### Documents that tell a fragment -/

/-- The member that tells a generic node: its number, the kind and the number of
the tree node it comes from, and where that stands. -/
def originMember (id : Nat) (origin : Head) : Json :=
  .object <|
    [("id", ofCount id), ("_type", .string origin.kind.tag), ("syntax_id", ofCount origin.id)] ++
    (match origin.location with
     | some location =>
       [("lineno", ofCount location.line), ("col_offset", ofCount location.column)]
     | none => [])

mutual

/-- The document has the structure of the fragment. -/
inductive Exports : Fragment → Json → Prop
  | function {head : FunctionHead} {decorators arguments returns : Fragment}
      {body : List Fragment} {decorators' arguments' returns' : Json} {body' : List Json} :
      Exports decorators decorators' → Exports arguments arguments' → Exports returns returns' →
      ItemsExport body body' →
      Exports (.function head decorators arguments returns body) (.object [
        ("_type", .string "Function"),
        ("id", ofCount head.id),
        ("name", .string head.name),
        ("qualified_name", .string head.qualifiedName),
        ("line", ofCount head.line),
        ("column", ofCount head.column),
        ("decorators", decorators'),
        ("arguments", arguments'),
        ("returns", returns'),
        ("body", .array body')])
  /-- No two members have the same name. -/
  | node {id : Nat} {origin : Head} {fields : List (String × Fragment)}
      {members : List (String × Json)} :
      ("node" :: fields.map Prod.fst).Nodup → FieldsExport fields members →
      Exports (.node id origin fields) (.object (("node", originMember id origin) :: members))
  | list {items : List Fragment} {items' : List Json} :
      ItemsExport items items' → Exports (.list items) (.array items')
  | scalar (s : Scalar) : Exports (.scalar s) (Fragment.exportLeaf s)

/-- The documents have the structure of the fragments one by one. -/
inductive ItemsExport : List Fragment → List Json → Prop
  | nil : ItemsExport [] []
  | cons {item : Fragment} {rest : List Fragment} {item' : Json} {rest' : List Json} :
      Exports item item' → ItemsExport rest rest' → ItemsExport (item :: rest) (item' :: rest')

/-- The names are the same, and the documents have the structure of the
fragments one by one. -/
inductive FieldsExport : List (String × Fragment) → List (String × Json) → Prop
  | nil : FieldsExport [] []
  | cons {name : String} {value : Fragment} {rest : List (String × Fragment)} {value' : Json}
      {rest' : List (String × Json)} :
      Exports value value' → FieldsExport rest rest' →
      FieldsExport ((name, value) :: rest) ((name, value') :: rest')

end

namespace Json

/-- The number under the name `id`. -/
def idIn (members : List (String × Json)) : List Nat :=
  match Members.get? "id" members with
  | some (.number (.integer id)) => [id.toNat]
  | _ => []

/-- The number of the node that an object stands for: a generic node tells it in
its member `node`, a function among its own members. -/
def ownId (members : List (String × Json)) : List Nat :=
  match Members.get? "node" members with
  | some (.object origin) => idIn origin
  | some _ => []
  | none => idIn members

mutual

/-- The numbers of the nodes that a document tells. -/
def nodeIds : Json → List Nat
  | .object members => ownId members ++ nodeIdsOfMembers members
  | .array items => nodeIdsOfItems items
  | .null | .bool _ | .number _ | .string _ => []

/-- The numbers of the nodes that several documents tell. -/
def nodeIdsOfItems : List Json → List Nat
  | [] => []
  | item :: rest => nodeIds item ++ nodeIdsOfItems rest

/-- The numbers of the nodes in the members of an object, besides the one that
tells the object's own. -/
def nodeIdsOfMembers : List (String × Json) → List Nat
  | [] => []
  | (name, value) :: rest =>
    if name = "node" then nodeIdsOfMembers rest else nodeIds value ++ nodeIdsOfMembers rest

end

end Json

/-! ### The exported document -/

namespace Fragment

/-- The member that is exported for a generic node, where the numbers of tree nodes
are asked for. -/
theorem originOf_true (id : Nat) (origin : Head) :
    originOf true id origin = originMember id origin := by
  cases h : origin.location <;> simp [originOf, originMember, h]

/-- A name that is not there is put at the end. -/
theorem set_of_notMem {α : Type} {name : String} {members : List (String × α)} (value : α)
    (h : name ∉ members.map Prod.fst) :
    Members.set name value members = members ++ [(name, value)] := by
  induction members with
  | nil => rfl
  | cons member rest ih =>
      obtain ⟨key, old⟩ := member
      rw [List.map_cons, List.mem_cons, not_or] at h
      rw [Members.set, if_neg (Ne.symm h.1), ih h.2, List.cons_append]

/-- Fields with new names are put one after the other at the end. -/
theorem toJsonFields_append (members : List (String × Json)) (fields : List (String × Fragment))
    (h : (members.map Prod.fst ++ fields.map Prod.fst).Nodup) :
    toJsonFields true members fields =
      members ++ fields.map fun (name, value) => (name, value.toJson true) := by
  induction fields generalizing members with
  | nil => rw [toJsonFields, List.map_nil, List.append_nil]
  | cons field rest ih =>
      obtain ⟨name, value⟩ := field
      have hname : name ∉ members.map Prod.fst := fun hmem =>
        (List.nodup_append.mp h).2.2 name hmem name List.mem_cons_self rfl
      rw [toJsonFields, set_of_notMem _ hname, ih, List.map_cons, List.append_assoc,
        List.singleton_append]
      rwa [List.map_append, List.append_assoc, List.map_singleton, List.singleton_append]

mutual

/-- **A fragment's document has its structure** if no field is called `node`. -/
theorem exports_toJson : (fragment : Fragment) →
    (∀ names ∈ fragment.fieldNames, ("node" :: names).Nodup) →
    Exports fragment (fragment.toJson true)
  | .scalar s, _ => by
      rw [toJson]
      exact .scalar s
  | .list items, h => by
      rw [toJson]
      exact .list (itemsExport_toJson items h)
  | .node id origin fields, h => by
      obtain ⟨hown, hfields⟩ := List.forall_mem_cons.mp h
      rw [toJson, toJsonFields_append _ _ (by exact hown), List.singleton_append, originOf_true]
      exact .node hown (fieldsExport_toJson fields hfields)
  | .function head decorators arguments returns body, h => by
      simp only [fieldNames, List.forall_mem_append] at h
      obtain ⟨hdecorators, harguments, hreturns, hbody⟩ := h
      rw [toJson]
      exact .function (exports_toJson decorators hdecorators)
        (exports_toJson arguments harguments) (exports_toJson returns hreturns)
        (itemsExport_toJson body hbody)

theorem itemsExport_toJson : (items : List Fragment) →
    (∀ names ∈ fieldNamesOfList items, ("node" :: names).Nodup) →
    ItemsExport items (toJsonItems true items)
  | [], _ => by
      rw [toJsonItems]
      exact .nil
  | item :: rest, h => by
      obtain ⟨hitem, hrest⟩ := List.forall_mem_append.mp h
      rw [toJsonItems]
      exact .cons (exports_toJson item hitem) (itemsExport_toJson rest hrest)

theorem fieldsExport_toJson : (fields : List (String × Fragment)) →
    (∀ names ∈ fieldNamesOfFields fields, ("node" :: names).Nodup) →
    FieldsExport fields (fields.map fun (name, value) => (name, value.toJson true))
  | [], _ => .nil
  | (_, value) :: rest, h => by
      obtain ⟨hvalue, hrest⟩ := List.forall_mem_append.mp h
      exact .cons (exports_toJson value hvalue) (fieldsExport_toJson rest hrest)

end

end Fragment

mutual

/-- A fragment of which a document tells the structure has no field called
`node`. -/
theorem Exports.nodup_fieldNames : {fragment : Fragment} → {document : Json} →
    Exports fragment document → ∀ names ∈ fragment.fieldNames, ("node" :: names).Nodup
  | _, _, .scalar _ => List.forall_mem_nil _
  | _, _, .list hitems => hitems.nodup_fieldNames
  | _, _, .node hown hfields => List.forall_mem_cons.mpr ⟨hown, hfields.nodup_fieldNames⟩
  | _, _, .function hdecorators harguments hreturns hbody => by
      simp only [Fragment.fieldNames, List.forall_mem_append]
      exact ⟨hdecorators.nodup_fieldNames, harguments.nodup_fieldNames,
        hreturns.nodup_fieldNames, hbody.nodup_fieldNames⟩

theorem ItemsExport.nodup_fieldNames : {items : List Fragment} → {documents : List Json} →
    ItemsExport items documents →
    ∀ names ∈ Fragment.fieldNamesOfList items, ("node" :: names).Nodup
  | _, _, .nil => List.forall_mem_nil _
  | _, _, .cons hitem hrest =>
      List.forall_mem_append.mpr ⟨hitem.nodup_fieldNames, hrest.nodup_fieldNames⟩

theorem FieldsExport.nodup_fieldNames : {fields : List (String × Fragment)} →
    {members : List (String × Json)} → FieldsExport fields members →
    ∀ names ∈ Fragment.fieldNamesOfFields fields, ("node" :: names).Nodup
  | _, _, .nil => List.forall_mem_nil _
  | _, _, .cons hvalue hrest =>
      List.forall_mem_append.mpr ⟨hvalue.nodup_fieldNames, hrest.nodup_fieldNames⟩

end

/-! ### The numbers in a document -/

namespace Json

/-- A leaf has no node. -/
theorem nodeIds_exportLeaf (s : Scalar) : (Fragment.exportLeaf s).nodeIds = [] := by
  unfold Fragment.exportLeaf
  split
  · split
    · rw [Exchange.exportScalar, nodeIds]
    · rw [nodeIds]
  · cases s <;> rw [Exchange.exportScalar, nodeIds]

/-- The number of a generic node is read off its first member. -/
theorem nodeIds_node (id : Nat) (origin : Head) (members : List (String × Json)) :
    nodeIds (.object (("node", originMember id origin) :: members)) =
      id :: nodeIdsOfMembers members := by
  have hown : ownId (("node", originMember id origin) :: members) = [id] := by
    simp [ownId, idIn, originMember, ofCount, Members.get?]
  rw [nodeIds, hown, nodeIdsOfMembers, if_pos rfl, List.singleton_append]

/-- The number of a function is one of its own members. -/
theorem nodeIds_function (head : FunctionHead) (decorators arguments returns : Json)
    (body : List Json) :
    nodeIds (.object [
        ("_type", .string "Function"),
        ("id", ofCount head.id),
        ("name", .string head.name),
        ("qualified_name", .string head.qualifiedName),
        ("line", ofCount head.line),
        ("column", ofCount head.column),
        ("decorators", decorators),
        ("arguments", arguments),
        ("returns", returns),
        ("body", .array body)]) =
      head.id :: (decorators.nodeIds ++ (arguments.nodeIds ++ (returns.nodeIds ++
        nodeIdsOfItems body))) := by
  simp [nodeIds, nodeIdsOfMembers, ownId, idIn, ofCount, Members.get?]

end Json

mutual

/-- **The numbers that a document tells** are those of the fragment. -/
theorem Exports.nodeIds : {fragment : Fragment} → {document : Json} →
    Exports fragment document → document.nodeIds.Perm fragment.ids
  | _, _, .scalar s => by rw [Json.nodeIds_exportLeaf]; exact .nil
  | _, _, .list hitems => by
      rw [Json.nodeIds]
      exact hitems.nodeIds
  | .node id origin fields, _, .node hown hfields => by
      rw [Json.nodeIds_node]
      exact (hfields.nodeIds (List.nodup_cons.mp hown).1).cons id
  | .function head decorators arguments returns body, _,
      .function hdecorators harguments hreturns hbody => by
      have h := hdecorators.nodeIds.append (harguments.nodeIds.append
        (hreturns.nodeIds.append (hbody.nodeIds)))
      rw [Json.nodeIds_function, Fragment.ids, Fragment.made]
      -- The function's number is told first and was handed out before its body's.
      refine (h.cons head.id).trans ?_
      simp only [Fragment.ids, List.map_append, List.map_cons, ← List.append_assoc]
      exact List.perm_middle.symm

theorem ItemsExport.nodeIds : {items : List Fragment} → {documents : List Json} →
    ItemsExport items documents →
    (Json.nodeIdsOfItems documents).Perm ((Fragment.madeOfList items).map Prod.fst)
  | _, _, .nil => .nil
  | _, _, .cons hitem hrest => by
      rw [Json.nodeIdsOfItems, Fragment.madeOfList, List.map_append]
      exact hitem.nodeIds.append hrest.nodeIds

/-- Fields that are not called `node`. -/
theorem FieldsExport.nodeIds : {fields : List (String × Fragment)} →
    {members : List (String × Json)} → FieldsExport fields members →
    "node" ∉ fields.map Prod.fst →
    (Json.nodeIdsOfMembers members).Perm ((Fragment.madeOfFields fields).map Prod.fst)
  | _, _, .nil, _ => .nil
  | _, _, .cons hvalue hrest, hnames => by
      rw [List.map_cons, List.mem_cons, not_or] at hnames
      rw [Json.nodeIdsOfMembers, if_neg (Ne.symm hnames.1), Fragment.madeOfFields,
        List.map_append]
      exact hvalue.nodeIds.append (hrest.nodeIds hnames.2)

end

/-! ### Functions of a source -/

/-- The fields of one generic node have different names, in a function that a
tree is translated into, if they have in the tree. -/
theorem Session.fieldNames_answer {session : Session} {request : Request} {function : Function}
    (h : (session.answer request).1.completed? = some function) :
    ∀ names ∈ function.toFragment.fieldNames, names ∈ request.value.fieldNames := by
  obtain ⟨scope, hfollow, hrendered⟩ := rendered_answer h
  have hmirrored := mirroredBy_rendered request.value 0 scope session.translator.nextId
    ((unrefused_iff_follow _).mpr hfollow)
  rw [hrendered] at hmirrored
  exact hmirrored.fieldNames

/-- **An exported function tells its structure and its numbers.**  Let a source
be read into a tree and the tree, prepared or not, be translated into a function.
The exported document has the structure of the function, and the numbers that it
tells are the numbers of the function's nodes, each once, just if no generic node
in the function has a field called `node`.  In a program none has. -/
theorem exported_function {source : Source} {counter next : Nat} {tree : Node}
    (haccepted : source.tree.runFrom counter = (.ok tree, next)) (discount : Bool)
    {session : Session} {request : Request}
    (hrequest : request.value = (tree.prepare discount).toValue) {function : Function}
    (hcompleted : (session.answer request).1.completed? = some function) :
    let document := function.toFragment.toJson true
    ((Exports function.toFragment document ∧
        document.nodeIds.Perm function.toFragment.ids ∧ document.nodeIds.Nodup) ↔
      ∀ names ∈ function.toFragment.fieldNames, "node" ∉ names) ∧
    (source.format = .program → ∀ names ∈ function.toFragment.fieldNames, "node" ∉ names) := by
  intro document
  have hnames : ∀ names ∈ function.toFragment.fieldNames,
      names.Nodup ∧ (source.format = .program → "node" ∉ names) := by
    intro names hmem
    have hmem := Session.fieldNames_answer hcompleted names hmem
    rw [hrequest, Node.fieldNames_prepare] at hmem
    exact source.tree_fieldNames counter tree next haccepted names hmem
  refine ⟨⟨fun ⟨hexports, _⟩ names hmem => ?_, fun hnode => ?_⟩,
    fun hformat names hmem => (hnames names hmem).2 hformat⟩
  · exact (List.nodup_cons.mp (hexports.nodup_fieldNames names hmem)).1
  · have hexports : Exports function.toFragment document :=
      Fragment.exports_toJson _ fun names hmem =>
        List.nodup_cons.mpr ⟨hnode names hmem, (hnames names hmem).1⟩
    obtain ⟨count, hids, -⟩ := (Session.ids_answer request).2 function hcompleted
    refine ⟨hexports, hexports.nodeIds, hexports.nodeIds.nodup_iff.mpr ?_⟩
    rw [hids]
    exact List.nodup_range'

/-- A function with a decorator and a foreign node. -/
def widgetDocument : Json :=
  .object [("_type", .string "FunctionDef"), ("name", .string "f"),
    ("decorator_list", .array [.object [("_type", .string "Name"), ("id", .string "d")]]),
    ("body", .array [.object [("_type", .string "Widget"), ("id", .array [])]])]

/-- A function with a node that has a field called `node`. -/
def clashingDocument : Json :=
  .object [("_type", .string "FunctionDef"), ("name", .string "f"),
    ("body", .array [.object [("_type", .string "Expr"), ("node", ofCount 1)]])]

/-- The numbers of the decorated function are told, its own before that of its
decorator, which was handed out first. -/
theorem exported_function_widget :
    let source := Source.ofText "m" widgetDocument.compact .tree
    ∃ tree next, source.tree.runFrom 1 = (.ok tree, next) ∧
      ∃ function, ((Session.begin .standard "_").answer
          (.translate (tree.prepare true))).1.completed? = some function ∧
        (∀ names ∈ function.toFragment.fieldNames, "node" ∉ names) ∧
        (function.toFragment.toJson true).nodeIds = [2, 1, 3] ∧
        Exports function.toFragment (function.toFragment.toJson true) := by
  intro source
  obtain ⟨tree, hread, function, hfunction, hnames, hids⟩ :
      ∃ tree, (source.tree.runFrom 1).1 = .ok tree ∧
        ∃ function, ((Session.begin .standard "_").translate (tree.prepare true)).1 = .ok function ∧
          (∀ names ∈ function.toFragment.fieldNames, "node" ∉ names) ∧
          (function.toFragment.toJson true).nodeIds = [2, 1, 3] := by
    decide +kernel
  have haccepted : source.tree.runFrom 1 = (.ok tree, (source.tree.runFrom 1).2) := by
    rw [← hread]
  have hcompleted : ((Session.begin .standard "_").answer
      (.translate (tree.prepare true))).1.completed? = some function :=
    Answer.completed?_ofTree.mpr hfunction
  exact ⟨tree, _, haccepted, function, hcompleted, hnames, hids,
    ((exported_function haccepted true rfl hcompleted).1.mpr hnames).1⟩

/-- A field called `node` takes the place of the member that tells the node: the
document does not have the structure of the function, and one of its two numbers
is lost. -/
theorem not_exports_clashing :
    let source := Source.ofText "m" clashingDocument.compact .tree
    ∃ tree next, source.tree.runFrom 1 = (.ok tree, next) ∧
      ∃ function, ((Session.begin .standard "_").translate tree).1 = .ok function ∧
        ¬ Exports function.toFragment (function.toFragment.toJson true) ∧
        function.toFragment.ids = [1, 2] ∧ (function.toFragment.toJson true).nodeIds = [1] := by
  intro source
  obtain ⟨tree, hread, function, hfunction, hnames, hids, htold⟩ :
      ∃ tree, (source.tree.runFrom 1).1 = .ok tree ∧
        ∃ function, ((Session.begin .standard "_").translate tree).1 = .ok function ∧
          (∃ names ∈ function.toFragment.fieldNames, "node" ∈ names) ∧
          function.toFragment.ids = [1, 2] ∧ (function.toFragment.toJson true).nodeIds = [1] := by
    decide +kernel
  have haccepted : source.tree.runFrom 1 = (.ok tree, (source.tree.runFrom 1).2) := by
    rw [← hread]
  obtain ⟨names, hmem, hnode⟩ := hnames
  refine ⟨tree, _, haccepted, function, hfunction, fun hexports => ?_, hids, htold⟩
  exact (List.nodup_cons.mp (hexports.nodup_fieldNames names hmem)).1 hnode

end FunctionIR
