import FunctionIR.Proofs.Decimal.Finite
import FunctionIR.Proofs.Json.RoundTrip

/-!
# What reading yields

Whatever text is read, the document that comes out is proper: its integers are
those of 64 bits, its doubles finite and the names in an object different, and
its nesting stays below the limit (`read_proper`).  These are the conditions,
up to what rounding does to the doubles, under which a document that is
written is read back.
-/

namespace FunctionIR.Json

/-- The value, if there is one, has the property. -/
def Yields {α : Type} (property : α → Prop) (result : Except ReadError (α × Cursor)) : Prop :=
  ∀ a after, result = .ok (a, after) → property a

namespace Yields

variable {α β : Type} {property : α → Prop} {other : β → Prop}

theorem ok {a : α} (h : property a) (cursor : Cursor) : Yields property (.ok (a, cursor)) := by
  rintro _ _ ⟨⟩
  exact h

theorem here (cursor : Cursor) (cause : ReadError.Cause) :
    Yields property (cursor.here cause) := nofun

theorem beyond (cursor : Cursor) (cause : ReadError.Cause) :
    Yields property (cursor.beyond cause) := fun _ _ h => absurd h not_ok_beyond

theorem bind {result : Except ReadError (α × Cursor)}
    {next : α × Cursor → Except ReadError (β × Cursor)} (h : Yields property result)
    (hnext : ∀ a cursor, property a → Yields other (next (a, cursor))) :
    Yields other (result >>= next) := by
  cases result with
  | error e => nofun
  | ok pair => exact hnext pair.1 pair.2 (h pair.1 pair.2 rfl)

/-- Something that is read first and has no value. -/
theorem bind_cursor {result : Except ReadError Cursor}
    {next : Cursor → Except ReadError (β × Cursor)}
    (hnext : ∀ cursor, Yields other (next cursor)) : Yields other (result >>= next) := by
  cases result with
  | error e => nofun
  | ok cursor => exact hnext cursor

end Yields

/-- A double is finite. -/
def IsFinite (x : Binary64) : Prop := x.isFinite = true

/-- Whether a double is finite can be seen from its word. -/
instance : DecidablePred IsFinite := fun x => inferInstanceAs (Decidable (x.isFinite = true))

/-! ### Numbers -/

/-- A finite double is a proper document that nests nothing. -/
def FiniteNumber (document : Json) : Prop := document.Proper IsFinite ∧ document.nesting = 0

/-- A finite double is a finite number with either sign. -/
theorem finiteNumber_signed {x : Binary64} (h : x.isFinite = true) (negative : Bool) :
    FiniteNumber (signed negative x) := by
  refine ⟨?_, rfl⟩
  cases negative with
  | false => exact h
  | true => exact Binary64.isFinite_neg h

theorem finiteNumber_zero (negative : Bool) :
    FiniteNumber (signed negative (.ofMagnitude false 0)) :=
  finiteNumber_signed rfl negative

/-- What is accumulated fits a word. -/
theorem accumulate_lt {sofar : Nat} (h : sofar < 2 ^ 64) (digits : List Nat) :
    (accumulate sofar digits).1 < 2 ^ 64 := by
  induction digits generalizing sofar with
  | nil => exact h
  | cons digit digits ih =>
      rw [accumulate]
      split
      next hlt => exact ih (by simpa [Nat.one_shiftLeft] using hlt)
      next => exact h

/-- The end of a number with a fraction or an exponent yields a finite number. -/
theorem finishReal_yields {significand : Nat} (h : significand < 2 ^ 64) (negative : Bool)
    (exponent : Int) (cursor : Cursor) :
    Yields FiniteNumber (finishReal negative significand exponent cursor) := by
  unfold finishReal
  split
  next x hx => exact .ok (finiteNumber_signed (realOfParts_finite h hx) negative) _
  next => exact .here _ _

/-- An exponent yields a finite number. -/
theorem readExponent_yields {significand : Nat} (h : significand < 2 ^ 64) (negative : Bool)
    (start : Int) (cursor : Cursor) :
    Yields FiniteNumber (readExponent negative significand start cursor) := by
  rw [readExponent_eq, exponentFrom]
  split
  · exact .here _ _
  split
  · split
    · exact finishReal_yields h negative _ _
    · split
      · exact .here _ _
      · exact .ok (finiteNumber_zero negative) _
  · exact .beyond _ _

/-- A fraction yields a finite number. -/
theorem readFraction_yields {significand : Nat} (h : significand < 2 ^ 64) (negative : Bool)
    (exponent : Int) (cursor : Cursor) :
    Yields FiniteNumber (readFraction negative significand exponent cursor) := by
  unfold readFraction
  split
  · split
    · exact .here _ _
    · exact .beyond _ _
  next digits _ _ _ =>
    have hlt := accumulate_lt h digits
    simp only
    split
    · exact readExponent_yields hlt negative _ _
    · exact readExponent_yields hlt negative _ _
    · exact finishReal_yields hlt negative _ _

/-- A whole number of 64 bits is finite, as an integer or as a double. -/
theorem finiteNumber_integerOrReal {significand : Nat} (h : significand < 2 ^ 64)
    (negative : Bool) : FiniteNumber (integerOrReal negative significand) := by
  unfold integerOrReal
  split
  · exact ⟨⟨by omega, by omega⟩, rfl⟩
  split
  next hle =>
    simp only [Nat.one_shiftLeft] at hle
    exact ⟨⟨by omega, by omega⟩, rfl⟩
  next =>
    exact finiteNumber_signed (Binary64.isFinite_ofMagnitude
      (@Binary64.nearest_lt_infinity significand 1 64 (by omega) (by omega))) true

/-- A number that is read is finite. -/
theorem readNumber_yields (negative : Bool) (cursor : Cursor) :
    Yields FiniteNumber (readNumber negative cursor) := by
  unfold readNumber
  split
  · exact .here _ _
  split
  · exact .beyond _ _
  simp only
  split
  · exact .beyond _ _
  have hlt := @accumulate_lt 0 (by omega) cursor.digits.1
  split
  · exact readFraction_yields hlt negative _ _
  · exact readExponent_yields hlt negative _ _
  · exact readExponent_yields hlt negative _ _
  · split
    · exact .ok (finiteNumber_integerOrReal hlt negative) _
    · exact finishReal_yields hlt negative _ _

/-! ### Arrays and objects -/

section Lists

variable {property : Json → Prop} {value : ValueReader}
  (hvalue : ∀ cursor, Yields property (value cursor))

include hvalue

/-- Items have the property that every value read has. -/
theorem readItems_yields (rounds : Nat) (cursor : Cursor) :
    Yields (fun items => ∀ item ∈ items, property item) (readItems value rounds cursor) := by
  induction rounds generalizing cursor with
  | zero => exact .here _ _
  | succ rounds ih =>
      rw [readItems]
      simp only
      split
      · exact .here _ _
      · exact .ok (List.forall_mem_nil _) _
      · split
        · exact .here _ _
        · exact .beyond _ _
        · exact (hvalue _).bind fun item cursor hitem => (ih cursor).bind fun items cursor hitems =>
            .ok (List.forall_mem_cons.mpr ⟨hitem, hitems⟩) _
      · exact .beyond _ _

/-- An array has it of all its items. -/
theorem readArray_yields (rounds : Nat) (cursor : Cursor) :
    Yields (fun items => ∀ item ∈ items, property item) (readArray value rounds cursor) := by
  rw [readArray]
  simp only
  split
  · exact .here _ _
  · exact .ok (List.forall_mem_nil _) _
  · exact (hvalue _).bind fun item cursor hitem =>
      (readItems_yields hvalue rounds cursor).bind fun items cursor hitems =>
        .ok (List.forall_mem_cons.mpr ⟨hitem, hitems⟩) _

/-- A member has it of its value. -/
theorem readMember_yields (cursor : Cursor) :
    Yields (fun member => property member.2) (readMember value cursor) := by
  rw [readMember]
  refine Yields.bind (fun _ _ _ => trivial) fun name cursor (_ : True) => ?_
  simp only
  split
  · exact .here _ _
  · exact (hvalue _).bind fun item cursor hitem =>
      @Yields.ok _ (fun member => property member.2) (name, item) hitem cursor
  · exact .beyond _ _

/-- Members have it of all their values. -/
theorem readMembers_yields (rounds : Nat) (cursor : Cursor) :
    Yields (fun members => ∀ member ∈ members, property member.2)
      (readMembers value rounds cursor) := by
  induction rounds generalizing cursor with
  | zero => exact .here _ _
  | succ rounds ih =>
      rw [readMembers]
      simp only
      split
      · exact .here _ _
      · exact .ok (List.forall_mem_nil _) _
      · split
        · exact .here _ _
        · refine (readMember_yields hvalue _).bind fun member cursor hmember =>
            (ih cursor).bind fun members cursor hmembers => .ok ?_ _
          exact List.forall_mem_cons.mpr ⟨hmember, hmembers⟩
        · exact .beyond _ _
        · exact .beyond _ _
      · exact .beyond _ _

/-- An object has it of all its values. -/
theorem readObject_yields (rounds : Nat) (cursor : Cursor) :
    Yields (fun members => ∀ member ∈ members, property member.2)
      (readObject value rounds cursor) := by
  rw [readObject]
  simp only
  split
  · exact .here _ _
  · exact .ok (List.forall_mem_nil _) _
  · refine (readMember_yields hvalue _).bind fun member cursor hmember =>
      (readMembers_yields hvalue rounds cursor).bind fun members cursor hmembers => .ok ?_ _
    exact List.forall_mem_cons.mpr ⟨hmember, hmembers⟩
  · exact .beyond _ _

end Lists

/-! ### Documents -/

/-- Items are proper exactly if each of them is. -/
theorem itemsProper_iff {real : Binary64 → Prop} {items : List Json} :
    ItemsProper real items ↔ ∀ item ∈ items, item.Proper real := by
  induction items with
  | nil => simp [ItemsProper]
  | cons item items ih => simp [ItemsProper, ih]

/-- Members are proper exactly if each of their values is. -/
theorem membersProper_iff {real : Binary64 → Prop} {members : List (String × Json)} :
    MembersProper real members ↔ ∀ member ∈ members, member.2.Proper real := by
  induction members with
  | nil => simp [MembersProper]
  | cons member members ih =>
      obtain ⟨name, value⟩ := member
      simp only [MembersProper, ih, List.forall_mem_cons]

/-- Items nest less deep than a bound exactly if each of them does. -/
theorem itemsNesting_lt_iff {items : List Json} {depth : Nat} (hdepth : 0 < depth) :
    itemsNesting items < depth ↔ ∀ item ∈ items, item.nesting < depth := by
  induction items with
  | nil => simp [itemsNesting, hdepth]
  | cons item items ih => simp only [itemsNesting, Nat.max_lt, ih, List.forall_mem_cons]

/-- Members nest less deep than a bound exactly if each of their values does. -/
theorem membersNesting_lt_iff {members : List (String × Json)} {depth : Nat} (hdepth : 0 < depth) :
    membersNesting members < depth ↔ ∀ member ∈ members, member.2.nesting < depth := by
  induction members with
  | nil => simp [membersNesting, hdepth]
  | cons member members ih =>
      obtain ⟨name, value⟩ := member
      simp only [membersNesting, Nat.max_lt, ih, List.forall_mem_cons]

/-- What all members have and the new one has, all have after it is put among
them. -/
theorem forall_mem_set {α : Type} {property : String × α → Prop} {name : String} {value : α}
    {members : List (String × α)} (hvalue : property (name, value))
    (hmembers : ∀ member ∈ members, property member) :
    ∀ member ∈ Members.set name value members, property member := by
  induction members with
  | nil => simpa [Members.set] using hvalue
  | cons member rest ih =>
      obtain ⟨key, old⟩ := member
      obtain ⟨hold, hrest⟩ := List.forall_mem_cons.mp hmembers
      rw [Members.set]
      split
      next heq => exact List.forall_mem_cons.mpr ⟨heq ▸ hvalue, hrest⟩
      next => exact List.forall_mem_cons.mpr ⟨hold, ih hrest⟩

/-- Putting a value keeps names different. -/
theorem nodup_set {α : Type} {name : String} {value : α} {members : List (String × α)}
    (h : (members.map Prod.fst).Nodup) :
    ((Members.set name value members).map Prod.fst).Nodup := by
  induction members with
  | nil => simp [Members.set]
  | cons member rest ih =>
      obtain ⟨key, old⟩ := member
      obtain ⟨hkey, hrest⟩ := List.nodup_cons.mp h
      rw [Members.set]
      split
      next => exact h
      next hne =>
        refine List.nodup_cons.mpr ⟨fun hmem => ?_, ih hrest⟩
        obtain ⟨member, hmember, heq⟩ := List.mem_map.mp hmem
        refine @forall_mem_set _ (fun member => member.1 ≠ key) name value rest (Ne.symm hne)
          (fun member hmember heq => ?_) member hmember heq
        exact hkey (List.mem_map.mpr ⟨member, hmember, heq⟩)

/-- Merged members have different names, and their values are among those that
were merged. -/
theorem mergeMembers_spec {property : Json → Prop} {members : List (String × Json)}
    (h : ∀ member ∈ members, property member.2) :
    ((mergeMembers members).map Prod.fst).Nodup ∧
      ∀ member ∈ mergeMembers members, property member.2 := by
  have hfold (rest merged : List (String × Json)) (hrest : ∀ member ∈ rest, property member.2)
      (hnames : (merged.map Prod.fst).Nodup) (hmerged : ∀ member ∈ merged, property member.2) :
      ((rest.foldl (fun merged member => Members.set member.1 member.2 merged) merged).map
        Prod.fst).Nodup ∧
      ∀ member ∈ rest.foldl (fun merged member => Members.set member.1 member.2 merged) merged,
        property member.2 := by
    induction rest generalizing merged with
    | nil => exact ⟨hnames, hmerged⟩
    | cons member rest ih =>
        obtain ⟨hmember, hrest⟩ := List.forall_mem_cons.mp hrest
        exact ih _ hrest (nodup_set hnames)
          (@forall_mem_set _ (fun member => property member.2) _ _ _ hmember hmerged)
  rw [mergeMembers_eq_foldl]
  exact hfold members [] h List.nodup_nil (List.forall_mem_nil _)

/-- A document that fits a reader which goes so deep. -/
def Fitting (depth : Nat) (document : Json) : Prop :=
  document.Proper IsFinite ∧ document.nesting < depth

/-- A finite number fits any depth. -/
theorem FiniteNumber.fitting {document : Json} (h : FiniteNumber document) (depth : Nat) :
    document.Fitting (depth + 1) := ⟨h.1, by rw [h.2]; omega⟩

/-- An array fits one level more than its items. -/
theorem fitting_array {items : List Json} {depth : Nat} (hdepth : 0 < depth)
    (h : ∀ item ∈ items, item.Fitting depth) : (Json.array items).Fitting (depth + 1) := by
  refine ⟨itemsProper_iff.mpr fun item hitem => (h item hitem).1, ?_⟩
  have := (itemsNesting_lt_iff hdepth).mpr fun item hitem => (h item hitem).2
  rw [nesting]
  omega

/-- An object with distinct names fits one level more than its values. -/
theorem fitting_object {members : List (String × Json)} {depth : Nat} (hdepth : 0 < depth)
    (hnames : (members.map Prod.fst).Nodup) (h : ∀ member ∈ members, member.2.Fitting depth) :
    (Json.object members).Fitting (depth + 1) := by
  refine ⟨⟨hnames, membersProper_iff.mpr fun member hmember => (h member hmember).1⟩, ?_⟩
  have := (membersNesting_lt_iff hdepth).mpr fun member hmember => (h member hmember).2
  rw [nesting]
  omega

/-- Whatever value is read fits the depth it is read at. -/
theorem readValue_yields (rounds depth : Nat) (cursor : Cursor) :
    Yields (Fitting depth) (readValue rounds depth cursor) := by
  induction depth generalizing cursor with
  | zero =>
      rw [readValue_zero]
      exact .beyond _ _
  | succ depth ih =>
      have hflat {document : Json} (h : document.Fitting 1) : document.Fitting (depth + 1) :=
        ⟨h.1, Nat.lt_of_lt_of_le h.2 (by omega)⟩
      have hnumber (negative : Bool) (cursor : Cursor) :
          Yields (Fitting (depth + 1)) (readNumber negative cursor) := fun _ _ h =>
        (readNumber_yields negative cursor _ _ h).fitting depth
      rw [readValue]
      simp only
      split
      · exact .here _ _
      · exact .bind_cursor fun _ => .ok (@hflat .null ⟨trivial, by decide⟩) _
      · exact .bind_cursor fun _ => .ok (@hflat (.bool true) ⟨trivial, by decide⟩) _
      · exact .bind_cursor fun _ => .ok (@hflat (.bool false) ⟨trivial, by decide⟩) _
      · exact hnumber true _
      · refine Yields.bind (fun _ _ _ => trivial) fun text cursor (_ : True) => ?_
        exact .ok (@hflat (.string text) ⟨trivial, by simp [nesting]⟩) _
      · split
        · exact .beyond _ _
        next hdepth =>
          exact (readArray_yields ih rounds _).bind fun items cursor hitems =>
            .ok (fitting_array (by omega) hitems) _
      · split
        · exact .beyond _ _
        next hdepth =>
          refine (readObject_yields ih rounds _).bind fun members cursor hmembers => ?_
          obtain ⟨hnames, hmerged⟩ := mergeMembers_spec hmembers
          exact .ok (fitting_object (by omega) hnames hmerged) _
      · split
        · exact hnumber false _
        · exact .beyond _ _

/-- **A document that is read is proper**, and not nested too deep. -/
theorem read_proper {text : String} {document : Json} (h : read text = .ok document) :
    document.Proper IsFinite ∧ document.nesting < nestingLimit := by
  rw [read] at h
  cases hread : readValue text.length nestingLimit ⟨text.toList, 1, 0⟩ with
  | error e => simp [hread, bind, Except.bind] at h
  | ok result =>
      obtain ⟨value, after⟩ := result
      simp only [hread, bind, Except.bind] at h
      split at h
      · cases h
        exact readValue_yields _ _ _ _ _ hread
      · exact absurd h not_ok_beyond

end FunctionIR.Json
