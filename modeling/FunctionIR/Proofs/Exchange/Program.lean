import FunctionIR.Proofs.Exchange.Loss
import FunctionIR.Proofs.Exchange.Portable
import FunctionIR.Proofs.Reading.StatementFitting

/-!
# Trees of program texts are portable

The fields of such a tree are those of the signatures, none of which has the
name of a member with a meaning of its own, its nodes are of known kinds, and
it holds nothing foreign.  Its places lie within the text, so that they have 64
bits if the text is not longer than any text can be.  Only its doubles need
not be finite, for a literal too large is an infinite double; what a document
tells of the tree is portable all the same.
-/

namespace FunctionIR

open Json (IsFinite)
open Grammar (Place)

/-- A kind that has a role is not a foreign one. -/
theorem Kind.portable_of_role {kind : Kind} {role : Role} (h : kind.role = some role) :
    kind.Portable := by
  rintro tag rfl
  cases h

/-- The names in a signature are different and none is reserved. -/
theorem Kind.signature_names (kind : Kind) :
    (kind.signature.map Prod.fst).Nodup ∧ ∀ name ∈ kind.signature.map Prod.fst,
      name ≠ Exchange.typeKey ∧ name ∉ Exchange.placeKeys := by
  cases kind with
  | context | boolean | binary | unary | comparison | other =>
      exact ⟨List.nodup_nil, List.forall_mem_nil _⟩
  | _ => decide

namespace Reading

/-- A head of the text, if the text is not too long. -/
theorem Placed.portable {file : String} {length : Nat} (hlength : length < 2 ^ 63) {head : Head}
    (h : Placed file (Place.Within length) head) (hkind : head.kind.Portable) :
    head.Portable file := by
  have hplace (place : Place) (hplace : place.Within length) :
      (locate file place).Portable file := by
    obtain ⟨hline, hcolumn, hoffset⟩ := hplace
    exact ⟨rfl, by simp only [locate]; omega, by simp only [locate]; omega⟩
  rcases h with ⟨hlocation, hspan⟩ | ⟨start, stop, hstart, hstop, hlocation, hspan⟩
  · refine ⟨hkind, ?_, ?_, ?_⟩
    · rw [hlocation]; nofun
    · rw [hspan]; nofun
    · rw [hspan]; nofun
  · refine ⟨hkind, ?_, ?_, ?_⟩
    · rw [hlocation]
      rintro _ ⟨⟩
      exact hplace start hstart
    · rw [hspan, hlocation]
      rintro _ ⟨⟩
      rfl
    · rw [hspan]
      rintro _ ⟨⟩
      exact hplace stop hstop

end Reading

namespace Exchange

/-- What is known of a head makes it portable, if its kind is. -/
def Carries (file : String) (H : Head → Prop) : Prop :=
  ∀ head, H head → head.kind.Portable → head.Portable file

mutual

/-- A value that fits is portable, if its places and its doubles are. -/
theorem portable_of_fits {file : String} {H : Head → Prop} (hH : Carries file H) :
    {slot : Slot} → {value : Value} → Fits H slot value →
    (∀ x ∈ (exportValue value).doubles, IsFinite x) → value.Portable file
  | _, _, .text _, _ => trivial
  | _, _, .leaf .none, _ => trivial
  | _, _, .leaf (.bool _), _ => trivial
  | _, _, .leaf (.int _), _ => trivial
  | _, _, .leaf (.real x), h => h x List.mem_cons_self
  | _, _, .leaf (.str _), _ => trivial
  | _, _, .absent, _ => trivial
  | _, _, .missing, _ => trivial
  | _, _, .present hvalue, h => portable_of_fits hH hvalue h
  | _, .node head fields, .node hrole hhead hfields, h => by
      obtain ⟨hnodup, hnames⟩ := Kind.signature_names head.kind
      exact ⟨hH head hhead (Kind.portable_of_role hrole), hfields.names ▸ hnodup,
        portable_of_fieldsFit hH hfields hnames (doubles_exportFields h)⟩
  | _, _, .list hitems, h => portable_of_itemsFit hH hitems h

/-- Items that fit a slot with places of the file are portable, where every double is finite. -/
theorem portable_of_itemsFit {file : String} {H : Head → Prop} (hH : Carries file H) :
    {slot : Slot} → {items : List Value} → ItemsFit H slot items →
    (∀ x ∈ Json.itemsDoubles (exportItems items), IsFinite x) → Value.ItemsPortable file items
  | _, _, .nil, _ => trivial
  | _, _, .cons hitem hrest, h =>
      have h := List.forall_mem_append.mp h
      ⟨portable_of_fits hH hitem h.1, portable_of_itemsFit hH hrest h.2⟩

/-- Fields that fit a signature with places of the file are portable under the same condition. -/
theorem portable_of_fieldsFit {file : String} {H : Head → Prop} (hH : Carries file H) :
    {signature : List (String × Slot)} → {fields : Fields} → FieldsFit H signature fields →
    (∀ name ∈ signature.map Prod.fst, name ≠ typeKey ∧ name ∉ placeKeys) →
    (∀ x ∈ Json.membersDoubles (exportFields fields), IsFinite x) →
    Value.FieldsPortable file fields
  | _, _, .nil, _, _ => trivial
  | _, _, .cons hvalue hrest, hnames, h =>
      have h := List.forall_mem_append.mp h
      have hnames := List.forall_mem_cons.mp hnames
      ⟨hnames.1, portable_of_fits hH hvalue h.1, portable_of_fieldsFit hH hrest hnames.2 h.2⟩

end

/-- **The tree of a program text is portable**, as far as a document tells
it. -/
theorem portable_of_program {source : Source} (hformat : source.format = .program)
    (hlength : source.text.length < 2 ^ 63) :
    source.tree.Yields fun tree => tree.written.Portable source.name := by
  refine (Source.tree_fits hformat).mono fun tree htree => ?_
  obtain ⟨body, hkind, hhead, hfields, hbody⟩ := htree
  have hH : Carries source.name
      (Reading.Placed source.name (Place.Within source.text.length)) :=
    fun _ h hkind => h.portable hlength hkind
  have hfit : FieldsFit (Reading.Placed source.name (Place.Within source.text.length))
      Kind.module.signature tree.written.fields := by
    rw [Node.written, hfields]
    exact .cons (.list hbody.written) (.cons (.list .nil) .nil)
  have hfinite : ∀ x ∈ (exportTree tree.written).doubles, IsFinite x := by
    rw [exportTree_written, Json.doubles_written]
    exact fun x hx => (List.mem_filter.mp hx).2
  obtain ⟨hnodup, hnames⟩ := Kind.signature_names .module
  have hkind : tree.written.head.kind.Portable := by
    rw [Node.written, hkind]
    rintro _ ⟨⟩
  exact ⟨hH tree.head hhead hkind, hfit.names ▸ hnodup,
    portable_of_fieldsFit hH hfit hnames (doubles_exportFields hfinite)⟩

end Exchange

end FunctionIR
