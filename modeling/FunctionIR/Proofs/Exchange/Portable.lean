import FunctionIR.Proofs.Json.Result
import FunctionIR.Proofs.Tree.Running
import FunctionIR.Tree.Exchange

/-!
# Trees that a document can hold

A document has one member for each field of a node and four for its place, and
takes all that is left from the reader: the file of every location, and that a
span starts where the node is.  So a tree is **portable** if its fields keep
out of the members with a meaning of their own, its places are all of one file
and in the form that the four members give them, its kinds are told by their
tags, and its leaves and foreign parts are what a document can have.

A portable tree is exported to a proper document (`proper_exportTree`), and an
imported tree is portable (`importTree_yields`).
-/

namespace FunctionIR

/-- Every kind but the foreign ones is among the known. -/
theorem Kind.mem_known {kind : Kind} (h : kind.isOther = false) : kind ∈ Kind.known := by
  cases kind with
  | other => cases h
  | context c => cases c <;> decide
  | boolean op => cases op <;> decide
  | binary op => cases op <;> decide
  | unary op => cases op <;> decide
  | comparison op => cases op <;> decide
  | _ => decide

/-- A kind that is told by its tag. -/
def Kind.Portable (kind : Kind) : Prop :=
  ∀ tag, kind = .other tag → ∀ known ∈ Kind.known, known.tag ≠ tag

/-- A portable kind is the one its tag names. -/
theorem Kind.Portable.ofTag {kind : Kind} (h : kind.Portable) : Kind.ofTag kind.tag = kind := by
  cases hother : kind.isOther with
  | false => exact Kind.ofTag_tag (Kind.mem_known hother)
  | true =>
      cases kind with
      | other tag =>
          have hnone : Kind.known.find? (fun kind => kind.tag == tag) = none := by
            simpa using h tag rfl
          change (Kind.known.find? fun kind => kind.tag == tag).getD (.other tag) = .other tag
          rw [hnone, Option.getD_none]
      | _ => cases hother

/-- Whatever a tag names is a portable kind. -/
theorem Kind.portable_ofTag (tag : String) : (Kind.ofTag tag).Portable := by
  intro tag' htag known hknown heq
  -- A tag of a known kind is not left foreign.
  have htag' : tag' = tag := by
    have h := Kind.tag_ofTag tag
    rw [htag] at h
    exact h
  have hfound : Kind.ofTag tag = known := by
    rw [← htag', ← heq]
    exact Kind.ofTag_tag hknown
  have hother : known.isOther = false := by
    have hall : ∀ kind ∈ Kind.known, kind.isOther = false := by decide
    exact hall known hknown
  rw [← hfound, htag] at hother
  cases hother

/-- A line or a column that has 64 bits. -/
def Location.Portable (file : String) (location : Location) : Prop :=
  location.file = file ∧ location.line < 2 ^ 64 ∧ location.column < 2 ^ 64

/-- The kind is told by its tag, and the place has the form that a document
gives it. -/
structure Head.Portable (file : String) (head : Head) : Prop where
  kind : head.kind.Portable
  location : ∀ location ∈ head.location, location.Portable file
  start : ∀ span ∈ head.span, head.location = some span.start
  stop : ∀ span ∈ head.span, span.stop.Portable file

namespace Value

mutual

/-- The value is one that a document can hold. -/
def Portable (file : String) : Value → Prop
  | .scalar (.real x) => Json.IsFinite x
  | .scalar _ => True
  | .node head fields =>
    head.Portable file ∧ (fields.map Prod.fst).Nodup ∧ FieldsPortable file fields
  | .list items => ItemsPortable file items
  | .foreign (.object members) =>
    Members.get? Exchange.typeKey members = none ∧ (Json.object members).Proper Json.IsFinite
  | .foreign _ => False

/-- All items are portable. -/
def ItemsPortable (file : String) : List Value → Prop
  | [] => True
  | item :: rest => Portable file item ∧ ItemsPortable file rest

/-- All fields are portable, and none has the name of a member with a meaning
of its own. -/
def FieldsPortable (file : String) : List (String × Value) → Prop
  | [] => True
  | (name, value) :: rest =>
    (name ≠ Exchange.typeKey ∧ name ∉ Exchange.placeKeys) ∧ Portable file value ∧
      FieldsPortable file rest

end

end Value

/-- The tree is one that a document can hold. -/
def Node.Portable (file : String) (tree : Node) : Prop := tree.toValue.Portable file

namespace Exchange

open Json (IsFinite)

/-! ### Exported documents -/

/-- An export keeps the names of fields. -/
theorem names_exportFields (fields : Fields) :
    (exportFields fields).map Prod.fst = fields.map Prod.fst := by
  induction fields with
  | nil => rfl
  | cons field fields ih =>
      obtain ⟨name, value⟩ := field
      simp [exportFields, ih]

/-- The members for a place have the names of the place. -/
theorem names_placeMembers (head : Head) :
    ((placeMembers head).map Prod.fst).Sublist placeKeys := by
  unfold placeMembers
  cases head.location <;> cases head.span <;> simp [placeKeys]

/-- The names of portable fields clash neither with the type nor with the place. -/
theorem names_fields {file : String} {fields : Fields} (h : Value.FieldsPortable file fields) :
    ∀ name ∈ fields.map Prod.fst, name ≠ typeKey ∧ name ∉ placeKeys := by
  induction fields with
  | nil => exact List.forall_mem_nil _
  | cons field fields ih =>
      obtain ⟨name, value⟩ := field
      obtain ⟨hname, -, hfields⟩ := h
      exact List.forall_mem_cons.mpr ⟨hname, ih hfields⟩

/-- The members of an exported node have different names. -/
theorem nodup_members {file : String} {head : Head} {fields : Fields}
    (hnames : (fields.map Prod.fst).Nodup) (hfields : Value.FieldsPortable file fields)
    (tag : Json) :
    (((typeKey, tag) :: (exportFields fields ++ placeMembers head)).map Prod.fst).Nodup := by
  have hplace := names_placeMembers head
  have hreserved := names_fields hfields
  rw [List.map_cons, List.map_append, names_exportFields, List.nodup_cons, List.nodup_append]
  refine ⟨fun hmem => ?_, hnames, hplace.nodup (by decide), fun name hname name' hname' heq => ?_⟩
  · have hkey : typeKey ∉ placeKeys := by decide
    rcases List.mem_append.mp hmem with hmem | hmem
    · exact (hreserved typeKey hmem).1 rfl
    · exact hkey (hplace.subset hmem)
  · exact (hreserved name hname).2 (heq ▸ hplace.subset hname')

theorem membersProper_append {real : Binary64 → Prop} {members more : List (String × Json)} :
    Json.MembersProper real (members ++ more) ↔
      Json.MembersProper real members ∧ Json.MembersProper real more := by
  simp only [Json.membersProper_iff, List.forall_mem_append]

/-- A count of 64 bits is a proper number. -/
theorem proper_ofCount {n : Nat} (h : n < 2 ^ 64) : (ofCount n).Proper IsFinite :=
  ⟨by omega, by omega⟩

/-- The members for the place of a portable head are proper. -/
theorem proper_placeMembers {file : String} {head : Head} (h : head.Portable file) :
    Json.MembersProper IsFinite (placeMembers head) := by
  have hlocation := h.location
  have hstop := h.stop
  unfold placeMembers
  refine membersProper_append.mpr ⟨?_, ?_⟩
  · cases hplace : head.location with
    | none => trivial
    | some location =>
        obtain ⟨-, hline, hcolumn⟩ := hlocation location hplace
        exact ⟨proper_ofCount hline, proper_ofCount hcolumn, trivial⟩
  · cases hspan : head.span with
    | none => trivial
    | some span =>
        obtain ⟨-, hline, hcolumn⟩ := hstop span hspan
        exact ⟨proper_ofCount hline, proper_ofCount hcolumn, trivial⟩

mutual

/-- A portable value is exported to a proper document. -/
theorem proper_exportValue {file : String} : (value : Value) → value.Portable file →
    (exportValue value).Proper IsFinite
  | .scalar .none, _ => trivial
  | .scalar (.bool _), _ => trivial
  | .scalar (.int value), _ => by
      have hlow := value.le_toInt
      have hhigh := value.toInt_lt
      exact ⟨by omega, by omega⟩
  | .scalar (.real _), h => h
  | .scalar (.str _), _ => trivial
  | .node head fields, ⟨hhead, hnames, hfields⟩ =>
      ⟨nodup_members hnames hfields _, trivial, membersProper_append.mpr
        ⟨proper_exportFields fields hfields, proper_placeMembers hhead⟩⟩
  | .list items, h => proper_exportItems items h
  | .foreign (.object _), h => h.2

/-- Portable items are exported to proper documents. -/
theorem proper_exportItems {file : String} : (items : List Value) →
    Value.ItemsPortable file items → Json.ItemsProper IsFinite (exportItems items)
  | [], _ => trivial
  | item :: rest, h => ⟨proper_exportValue item h.1, proper_exportItems rest h.2⟩

/-- Portable fields are exported to proper members. -/
theorem proper_exportFields {file : String} : (fields : Fields) →
    Value.FieldsPortable file fields → Json.MembersProper IsFinite (exportFields fields)
  | [], _ => trivial
  | (_, value) :: rest, h => ⟨proper_exportValue value h.2.1, proper_exportFields rest h.2.2⟩

end

/-- The export of a portable tree is proper. -/
theorem proper_exportTree {file : String} {tree : Node} (h : tree.Portable file) :
    (exportTree tree).Proper IsFinite := proper_exportValue _ h

/-! ### Imported trees -/

/-- What is looked up is one of the members. -/
theorem mem_of_get? {α : Type} {name : String} {value : α} {members : List (String × α)}
    (h : Members.get? name members = some value) : (name, value) ∈ members := by
  induction members with
  | nil => cases h
  | cons member rest ih =>
      obtain ⟨key, old⟩ := member
      rw [Members.get?] at h
      split at h
      next heq => cases h; exact heq ▸ List.mem_cons_self
      next => exact List.mem_cons_of_mem _ (ih h)

/-- A count of a proper document has 64 bits. -/
theorem count?_lt {members : List (String × Json)} (h : Json.MembersProper IsFinite members)
    {name : String} {n : Nat} (hcount : count? members name = some n) : n < 2 ^ 64 := by
  unfold count? at hcount
  split at hcount
  next value hget =>
    have hproper := Json.membersProper_iff.mp h _ (mem_of_get? hget)
    obtain ⟨-, hhigh⟩ : -2 ^ 63 ≤ value ∧ value < 2 ^ 64 := hproper
    split at hcount
    · cases hcount
      omega
    · cases hcount
  next => cases hcount

/-- A place read from proper members is portable. -/
theorem locationOf_portable {file : String} {members : List (String × Json)}
    (h : Json.MembersProper IsFinite members) :
    ∀ location ∈ locationOf file members, location.Portable file := by
  intro location hlocation
  obtain ⟨line, hline, rfl⟩ := Option.map_eq_some_iff.mp hlocation
  refine ⟨rfl, count?_lt h hline, ?_⟩
  cases hcolumn : count? members "col_offset" with
  | none => exact Nat.two_pow_pos _
  | some column => exact count?_lt h hcolumn

/-- A span is read exactly from a start and two counts for its end. -/
theorem spanFrom_eq_some {file : String} {members : List (String × Json)} {span : Span}
    (h : spanFrom file members = some span) :
    locationOf file members = some span.start ∧ ∃ line column,
      count? members "end_lineno" = some line ∧ count? members "end_col_offset" = some column ∧
        span.stop = ⟨file, line, column⟩ := by
  simp only [spanFrom, Option.bind_eq_bind, Option.bind_eq_some_iff, Option.pure_def,
    Option.some.injEq] at h
  obtain ⟨start, hstart, line, hline, column, hcolumn, rfl⟩ := h
  exact ⟨hstart, line, column, hline, hcolumn, rfl⟩

/-- A head read from proper members is portable. -/
theorem headOf_yields {file : String} {members : List (String × Json)}
    (h : Json.MembersProper IsFinite members) :
    (headOf file members).Yields fun head => head.Portable file := by
  unfold headOf
  split
  next tag _ =>
    refine (Numbered.yields_head _ _ _).mono fun head hhead => ?_
    obtain ⟨hkind, hlocation, hspan⟩ := hhead
    refine ⟨hkind ▸ Kind.portable_ofTag tag, hlocation ▸ locationOf_portable h,
      fun span hmem => ?_, fun span hmem => ?_⟩
    · rw [hspan] at hmem
      exact hlocation.trans (spanFrom_eq_some hmem).1
    · rw [hspan] at hmem
      obtain ⟨-, line, column, hline, hcolumn, hstop⟩ := spanFrom_eq_some hmem
      rw [hstop]
      exact ⟨rfl, count?_lt h hline, count?_lt h hcolumn⟩
  next => exact .throw

/-- The number of a document is a leaf that a document can hold. -/
theorem portable_scalarOfNumber (file : String) {number : Json.Number}
    (h : (Json.number number).Proper IsFinite) :
    (Value.scalar (scalarOfNumber number)).Portable file := by
  cases number with
  | real x => exact h
  | integer value =>
      obtain ⟨hlow, hhigh⟩ : -2 ^ 63 ≤ value ∧ value < 2 ^ 64 := h
      rw [scalarOfNumber]
      split
      · trivial
      · exact Binary64.isFinite_ofMagnitude
          (@Binary64.nearest_lt_infinity value.natAbs 1 64 (by omega) (by omega))

theorem membersNesting_append (members more : List (String × Json)) :
    Json.membersNesting (members ++ more) =
      max (Json.membersNesting members) (Json.membersNesting more) := by
  induction members with
  | nil => simp [Json.membersNesting]
  | cons member members ih =>
      obtain ⟨name, value⟩ := member
      simp only [List.cons_append, Json.membersNesting, ih, Nat.max_assoc]

/-- The members for a place do not nest. -/
theorem membersNesting_placeMembers (head : Head) :
    Json.membersNesting (placeMembers head) = 0 := by
  unfold placeMembers
  rw [membersNesting_append]
  cases head.location <;> cases head.span <;> rfl

/-- A scalar does not nest. -/
theorem nesting_exportScalar (s : Scalar) : (exportScalar s).nesting = 0 := by
  cases s <;> simp [exportScalar, Json.nesting]

mutual

/-- The value of a proper document is portable, and its export is not nested
deeper. -/
theorem importValue_yields {file : String} : (document : Json) → document.Proper IsFinite →
    (importValue file document).Yields fun value =>
      value.Portable file ∧ (exportValue value).nesting ≤ document.nesting
  | .null, _ => by
      rw [importValue]
      exact .pure ⟨trivial, Nat.le_refl _⟩
  | .bool value, _ => by
      rw [importValue]
      exact .pure ⟨trivial, by simp [exportValue, nesting_exportScalar]⟩
  | .number value, h => by
      rw [importValue]
      exact .pure ⟨portable_scalarOfNumber file h, by simp [exportValue, nesting_exportScalar]⟩
  | .string value, _ => by
      rw [importValue]
      exact .pure ⟨trivial, by simp [Value.str, exportValue, nesting_exportScalar]⟩
  | .array items, h => by
      rw [importValue]
      refine (importItems_yields items h).bind fun values hvalues => .pure ⟨hvalues.1, ?_⟩
      have := hvalues.2
      simp only [exportValue, Json.nesting]
      omega
  | .object members, h => by
      rw [importValue]
      split
      · refine (headOf_yields h.2).bind fun head hhead =>
          (importFields_yields members h.2).bind fun fields hfields => .pure ?_
        obtain ⟨hportable, hnames, hnesting⟩ := hfields
        refine ⟨⟨hhead, hnames.nodup h.1, hportable⟩, ?_⟩
        simp only [exportValue, Json.nesting, Json.membersNesting, membersNesting_append,
          membersNesting_placeMembers]
        omega
      next hnone =>
        exact .pure ⟨⟨by simpa using hnone, h⟩, Nat.le_refl _⟩

/-- The values of proper documents are portable. -/
theorem importItems_yields {file : String} : (items : List Json) →
    Json.ItemsProper IsFinite items →
    (importItems file items).Yields fun values => Value.ItemsPortable file values ∧
      Json.itemsNesting (exportItems values) ≤ Json.itemsNesting items
  | [], _ => by
      rw [importItems]
      exact .pure ⟨trivial, Nat.le_refl _⟩
  | item :: rest, h => by
      rw [importItems]
      refine (importValue_yields item h.1).bind fun value hvalue =>
        (importItems_yields rest h.2).bind fun values hvalues => .pure ⟨⟨hvalue.1, hvalues.1⟩, ?_⟩
      have := hvalue.2
      have := hvalues.2
      simp only [exportItems, Json.itemsNesting]
      omega

/-- The fields of proper members are portable, and their names are among the
names of the members. -/
theorem importFields_yields {file : String} : (members : List (String × Json)) →
    Json.MembersProper IsFinite members →
    (importFields file members).Yields fun fields => Value.FieldsPortable file fields ∧
      (fields.map Prod.fst).Sublist (members.map Prod.fst) ∧
      Json.membersNesting (exportFields fields) ≤ Json.membersNesting members
  | [], _ => by
      rw [importFields]
      exact .pure ⟨trivial, List.Sublist.refl _, Nat.le_refl _⟩
  | (name, item) :: rest, h => by
      rw [importFields]
      split
      · refine (importFields_yields rest h.2).mono fun fields hfields => ?_
        exact ⟨hfields.1, hfields.2.1.cons _,
          Nat.le_trans hfields.2.2 (by rw [Json.membersNesting]; omega)⟩
      next hname =>
        refine (importValue_yields item h.1).bind fun value hvalue =>
          (importFields_yields rest h.2).bind fun fields hfields => .pure ?_
        refine ⟨⟨not_or.mp hname, hvalue.1, hfields.1⟩, hfields.2.1.cons_cons _, ?_⟩
        have := hvalue.2
        have := hfields.2.2
        simp only [exportFields, Json.membersNesting]
        omega

end

/-- **An imported tree is portable**, and its export can be nested no deeper
than a document that is read. -/
theorem importTree_yields (file text : String) :
    (importTree file text).Yields fun tree =>
      tree.Portable file ∧ (exportTree tree).nesting < Json.nestingLimit := by
  unfold importTree
  split
  · exact .throw
  next members hread =>
    obtain ⟨hproper, hnesting⟩ := Json.read_proper hread
    split
    next htag =>
      have hvalue := @importValue_yields file (.object members) hproper
      rw [importValue, if_pos htag] at hvalue
      refine (headOf_yields hproper.2).bind fun head hhead =>
        (importFields_yields members hproper.2).bind fun fields hfields => .pure ?_
      obtain ⟨hportable, hnames, hfieldsNesting⟩ := hfields
      refine ⟨⟨hhead, hnames.nodup hproper.1, hportable⟩, Nat.lt_of_le_of_lt ?_ hnesting⟩
      simp only [exportTree, Node.toValue, exportValue, Json.nesting, Json.membersNesting,
        membersNesting_append, membersNesting_placeMembers]
      omega
    next => exact .throw
  · exact .throw

end Exchange

end FunctionIR
