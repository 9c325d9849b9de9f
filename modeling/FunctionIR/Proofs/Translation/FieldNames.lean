import FunctionIR.Proofs.Exchange.Program
import FunctionIR.Proofs.Translation.Mirroring

/-!
# Names of fields

What a generic node is exported to depends on the names of its fields, so it
matters which names can come together.  The names are listed node by node, in a
value (`Value.fieldNames`) and in a fragment (`Fragment.fieldNames`), where a
function has no fields.

The fields of one node have different names, whichever form the source has: a
document is read into objects without double members, and a program has the
fields of the signatures (`Source.tree_fieldNames`).  Only a document can name a
field `node`.  Moving a tree by lines leaves the names alone, and what mirrors a
value has no other names than the value (`MirroredBy.fieldNames`).
-/

namespace FunctionIR

namespace Value

mutual

/-- The names of the fields in a value, node by node. -/
def fieldNames : Value → List (List String)
  | .scalar _ | .foreign _ => []
  | .node _ fields => fields.map Prod.fst :: fieldNamesOfFields fields
  | .list items => fieldNamesOfItems items

/-- The names of the fields in several values. -/
def fieldNamesOfItems : List Value → List (List String)
  | [] => []
  | item :: rest => fieldNames item ++ fieldNamesOfItems rest

/-- The names of the fields in the values of fields. -/
def fieldNamesOfFields : List (String × Value) → List (List String)
  | [] => []
  | (_, value) :: rest => fieldNames value ++ fieldNamesOfFields rest

end

/-- A field has the names that are in its value. -/
theorem mem_fieldNamesOfFields {name : String} {value : Value} {names : List String}
    {fields : Fields} (hvalue : Members.get? name fields = some value)
    (h : names ∈ value.fieldNames) : names ∈ fieldNamesOfFields fields := by
  induction fields with
  | nil => cases hvalue
  | cons field rest ih =>
      obtain ⟨key, first⟩ := field
      rw [Members.get?] at hvalue
      rw [fieldNamesOfFields, List.mem_append]
      split at hvalue
      · cases hvalue
        exact .inl h
      · exact .inr (ih hvalue)

/-- A field has the names that are in its value, also where something stands for
it that has none. -/
theorem mem_fieldNamesOfFields_getD {name : String} {missing : Value} {names : List String}
    {fields : Fields} (hmissing : missing.fieldNames = [])
    (h : names ∈ ((Members.get? name fields).getD missing).fieldNames) :
    names ∈ fieldNamesOfFields fields := by
  cases hvalue : Members.get? name fields with
  | none =>
      rw [hvalue, Option.getD_none, hmissing] at h
      cases h
  | some value =>
      rw [hvalue, Option.getD_some] at h
      exact mem_fieldNamesOfFields hvalue h

/-! ### Names and lines -/

/-- A shift changes no field name. -/
theorem names_shiftFields (delta : Int) (fields : Fields) :
    (shiftFields delta fields).map Prod.fst = fields.map Prod.fst := by
  induction fields with
  | nil => rfl
  | cons field rest ih => rw [shiftFields, List.map_cons, List.map_cons, ih]

mutual

/-- Moving a value by lines leaves the names of its fields alone. -/
theorem fieldNames_shift (delta : Int) : (value : Value) →
    (value.shift delta).fieldNames = value.fieldNames
  | .scalar _ => by rw [shift]
  | .foreign _ => by rw [shift]
  | .list items => by rw [shift, fieldNames, fieldNames, fieldNamesOfItems_shift delta items]
  | .node head fields => by
      rw [shift, fieldNames, fieldNames, names_shiftFields, fieldNamesOfFields_shift delta fields]

theorem fieldNamesOfItems_shift (delta : Int) : (items : List Value) →
    fieldNamesOfItems (shiftItems delta items) = fieldNamesOfItems items
  | [] => by rw [shiftItems]
  | item :: rest => by
      rw [shiftItems, fieldNamesOfItems, fieldNamesOfItems, fieldNames_shift delta item,
        fieldNamesOfItems_shift delta rest]

theorem fieldNamesOfFields_shift (delta : Int) : (fields : List (String × Value)) →
    fieldNamesOfFields (shiftFields delta fields) = fieldNamesOfFields fields
  | [] => by rw [shiftFields]
  | (name, value) :: rest => by
      rw [shiftFields, fieldNamesOfFields, fieldNamesOfFields, fieldNames_shift delta value,
        fieldNamesOfFields_shift delta rest]

end

end Value

/-- Preparing a tree leaves the names of its fields alone. -/
theorem Node.fieldNames_prepare (discount : Bool) (tree : Node) :
    (tree.prepare discount).toValue.fieldNames = tree.toValue.fieldNames := by
  unfold prepare
  split
  · exact Value.fieldNames_shift _ tree.toValue
  · rfl

/-! ### Names in a source -/

namespace Value

mutual

/-- The fields of one node of a portable value have different names. -/
theorem Portable.nodup_fieldNames {file : String} : {value : Value} → value.Portable file →
    ∀ names ∈ value.fieldNames, names.Nodup
  | .scalar _, _ => List.forall_mem_nil _
  | .foreign _, _ => List.forall_mem_nil _
  | .list _, h => ItemsPortable.nodup_fieldNames h
  | .node _ _, h =>
      List.forall_mem_cons.mpr ⟨h.2.1, FieldsPortable.nodup_fieldNames h.2.2⟩

theorem ItemsPortable.nodup_fieldNames {file : String} : {items : List Value} →
    ItemsPortable file items → ∀ names ∈ fieldNamesOfItems items, names.Nodup
  | [], _ => List.forall_mem_nil _
  | _ :: _, h => List.forall_mem_append.mpr
      ⟨Portable.nodup_fieldNames h.1, ItemsPortable.nodup_fieldNames h.2⟩

theorem FieldsPortable.nodup_fieldNames {file : String} : {fields : List (String × Value)} →
    FieldsPortable file fields → ∀ names ∈ fieldNamesOfFields fields, names.Nodup
  | [], _ => List.forall_mem_nil _
  | (_, _) :: _, h => List.forall_mem_append.mpr
      ⟨Portable.nodup_fieldNames h.2.1, FieldsPortable.nodup_fieldNames h.2.2⟩

end

end Value

/-- The fields of a signature have different names, and none is `node`. -/
theorem Kind.nodup_signature (kind : Kind) : ("node" :: kind.signature.map Prod.fst).Nodup := by
  cases kind with
  | context | boolean | binary | unary | comparison | other => exact List.nodup_singleton "node"
  | _ => decide

section

variable {H : Head → Prop}

mutual

/-- A value that fits has no other fields than those of signatures. -/
theorem Fits.fieldNames : {slot : Slot} → {value : Value} → Fits H slot value →
    ∀ names ∈ value.fieldNames, ("node" :: names).Nodup
  | _, _, .text _ => List.forall_mem_nil _
  | _, _, .leaf _ => List.forall_mem_nil _
  | _, _, .absent => List.forall_mem_nil _
  | _, _, .missing => List.forall_mem_nil _
  | _, _, .present hvalue => hvalue.fieldNames
  | _, .node head _, .node _ _ hfields =>
      List.forall_mem_cons.mpr ⟨hfields.names ▸ head.kind.nodup_signature, hfields.fieldNames⟩
  | _, _, .list hitems => hitems.fieldNames

theorem ItemsFit.fieldNames : {slot : Slot} → {items : List Value} → ItemsFit H slot items →
    ∀ names ∈ Value.fieldNamesOfItems items, ("node" :: names).Nodup
  | _, _, .nil => List.forall_mem_nil _
  | _, _, .cons hitem hrest => List.forall_mem_append.mpr ⟨hitem.fieldNames, hrest.fieldNames⟩

theorem FieldsFit.fieldNames : {signature : List (String × Slot)} → {fields : Fields} →
    FieldsFit H signature fields →
    ∀ names ∈ Value.fieldNamesOfFields fields, ("node" :: names).Nodup
  | _, _, .nil => List.forall_mem_nil _
  | _, _, .cons hvalue hrest => List.forall_mem_append.mpr ⟨hvalue.fieldNames, hrest.fieldNames⟩

end

end

/-- **The fields of one node have different names** in the tree of a source, and
in that of a program none is called `node`. -/
theorem Source.tree_fieldNames (source : Source) :
    source.tree.Yields fun tree => ∀ names ∈ tree.toValue.fieldNames,
      names.Nodup ∧ (source.format = .program → "node" ∉ names) := by
  cases hformat : source.format with
  | program =>
      refine (Source.tree_fits hformat).mono fun tree htree names hnames => ?_
      obtain ⟨body, -, -, hfields, hbody⟩ := htree
      have hfit : FieldsFit (fun _ => True) Kind.module.signature tree.fields := by
        rw [hfields]
        exact .cons (.list (hbody.mono fun _ _ => trivial)) (.cons (.list .nil) .nil)
      have hall : ∀ names ∈ tree.toValue.fieldNames, ("node" :: names).Nodup :=
        List.forall_mem_cons.mpr ⟨hfit.names ▸ Kind.module.nodup_signature, hfit.fieldNames⟩
      have hnodup := List.nodup_cons.mp (hall names hnames)
      exact ⟨hnodup.2, fun _ => hnodup.1⟩
  | tree =>
      rw [Source.tree]
      split
      · exact .throw
      · rw [hformat]
        refine (Exchange.importTree_yields _ _).mono fun tree htree names hnames => ?_
        exact ⟨htree.1.nodup_fieldNames names hnames, nofun⟩

/-! ### Names in a fragment -/

namespace Fragment

mutual

/-- The names of the fields in a fragment, generic node by generic node. -/
def fieldNames : Fragment → List (List String)
  | .function _ decorators arguments returns body =>
    fieldNames decorators ++
      (fieldNames arguments ++ (fieldNames returns ++ fieldNamesOfList body))
  | .node _ _ fields => fields.map Prod.fst :: fieldNamesOfFields fields
  | .list items => fieldNamesOfList items
  | .scalar _ => []

/-- The names of the fields in several fragments. -/
def fieldNamesOfList : List Fragment → List (List String)
  | [] => []
  | item :: rest => fieldNames item ++ fieldNamesOfList rest

/-- The names of the fields in named fragments. -/
def fieldNamesOfFields : List (String × Fragment) → List (List String)
  | [] => []
  | (_, value) :: rest => fieldNames value ++ fieldNamesOfFields rest

end

end Fragment

/-- Fields that mirror others have their names. -/
theorem FieldsMirroredBy.names {fields : Fields} {fragments : List (String × Fragment)}
    (h : FieldsMirroredBy fields fragments) : fragments.map Prod.fst = fields.map Prod.fst := by
  induction fields generalizing fragments with
  | nil => cases h; rfl
  | cons field rest ih =>
      cases h with
      | cons _ hrest => rw [List.map_cons, List.map_cons, ih hrest]

mutual

/-- What mirrors a value has no other names than the value. -/
theorem MirroredBy.fieldNames : {value : Value} → {fragment : Fragment} →
    MirroredBy value fragment → ∀ names ∈ fragment.fieldNames, names ∈ value.fieldNames
  | _, _, .scalar _ => List.forall_mem_nil _
  | _, _, .list hitems => hitems.fieldNames
  | .node _ _, _, .module _ hbody hfirst => fun names hnames =>
      List.mem_cons_of_mem _ <| Value.mem_fieldNamesOfFields hbody <|
        List.mem_append_left _ (hfirst.fieldNames names hnames)
  | .node _ _, _, .function _ _ _ _ _ hdecorators harguments hreturns hbody hstatements => by
      intro names hnames
      refine List.mem_cons_of_mem _ ?_
      simp only [Fragment.fieldNames, List.mem_append] at hnames
      rcases hnames with h | h | h | h
      · exact Value.mem_fieldNamesOfFields_getD rfl (hdecorators.fieldNames names h)
      · exact Value.mem_fieldNamesOfFields_getD rfl (harguments.fieldNames names h)
      · exact Value.mem_fieldNamesOfFields_getD rfl (hreturns.fieldNames names h)
      · exact Value.mem_fieldNamesOfFields hbody (hstatements.fieldNames names h)
  | .node _ _, _, .generic _ hfields => by
      rw [Fragment.fieldNames, hfields.names]
      exact List.forall_mem_cons.mpr
        ⟨List.mem_cons_self,
          fun names hnames => List.mem_cons_of_mem _ (hfields.fieldNames names hnames)⟩

theorem ItemsMirroredBy.fieldNames : {items : List Value} → {fragments : List Fragment} →
    ItemsMirroredBy items fragments →
    ∀ names ∈ Fragment.fieldNamesOfList fragments, names ∈ Value.fieldNamesOfItems items
  | _, _, .nil => List.forall_mem_nil _
  | _, _, .cons hitem hrest => List.forall_mem_append.mpr
      ⟨fun names hnames => List.mem_append_left _ (hitem.fieldNames names hnames),
        fun names hnames => List.mem_append_right _ (hrest.fieldNames names hnames)⟩

theorem FieldsMirroredBy.fieldNames : {fields : Fields} → {fragments : List (String × Fragment)} →
    FieldsMirroredBy fields fragments →
    ∀ names ∈ Fragment.fieldNamesOfFields fragments, names ∈ Value.fieldNamesOfFields fields
  | _, _, .nil => List.forall_mem_nil _
  | _, _, .cons hvalue hrest => List.forall_mem_append.mpr
      ⟨fun names hnames => List.mem_append_left _ (hvalue.fieldNames names hnames),
        fun names hnames => List.mem_append_right _ (hrest.fieldNames names hnames)⟩

end

end FunctionIR
