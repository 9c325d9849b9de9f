import FunctionIR.Proofs.Translation.Calls
import FunctionIR.Tree.Numbering
import Mathlib.Data.List.Forall2

/-!
# What a shape is made of

A fragment shows a **face** and has parts: a function its decorators, its
parameters, its return annotation and its statements, a generic node its
fields, a list its items.  Every fragment inside another has a path of numbers
that leads to it (`Fragment.at?`).

Two fragments have the same shape if they show like faces at every path
(`sameShape_iff_faces`).  A function's face has its name, its qualified name,
its line and its column; the face of a generic node has its kind and the names
of its fields, but not its place.  So a shape tells where the functions are and
nothing of where the other nodes are.
-/

namespace FunctionIR.Fragment

/-! ### Parts and paths -/

/-- The fragments right below a fragment. -/
def parts : Fragment → List Fragment
  | .function _ decorators arguments returns body => decorators :: arguments :: returns :: body
  | .node _ _ fields => fields.map Prod.snd
  | .list items => items
  | .scalar _ => []

/-- A part is smaller than the fragment. -/
theorem sizeOf_part {fragment part : Fragment} (h : part ∈ fragment.parts) :
    sizeOf part < sizeOf fragment := by
  cases fragment with
  | scalar => cases h
  | list items =>
      have : sizeOf part < sizeOf items := List.sizeOf_lt_of_mem h
      simp only [Fragment.list.sizeOf_spec]
      omega
  | node id origin fields =>
      obtain ⟨⟨name, _⟩, hfield, rfl⟩ := List.mem_map.mp h
      have := List.sizeOf_lt_of_mem hfield
      simp only [Prod.mk.sizeOf_spec] at this
      simp only [Fragment.node.sizeOf_spec]
      omega
  | function head decorators arguments returns body =>
      simp only [parts, List.mem_cons] at h
      simp only [Fragment.function.sizeOf_spec]
      rcases h with rfl | rfl | rfl | h
      · omega
      · omega
      · omega
      · have := List.sizeOf_lt_of_mem h
        omega

/-- What holds of a fragment if it holds of its parts holds of every
fragment. -/
@[elab_as_elim]
theorem induction_on_parts {motive : Fragment → Prop}
    (step : ∀ fragment, (∀ part ∈ fragment.parts, motive part) → motive fragment)
    (fragment : Fragment) : motive fragment :=
  step fragment fun part _ => induction_on_parts step part
termination_by sizeOf fragment
decreasing_by exact sizeOf_part ‹_›

/-- The fragment at a path, where each number leads to a part. -/
def at? (fragment : Fragment) : List Nat → Option Fragment
  | [] => some fragment
  | i :: path => fragment.parts[i]?.bind fun part => part.at? path

/-- The condition holds of the fragment and of everything in it. -/
def Throughout (P : Fragment → Prop) (fragment : Fragment) : Prop :=
  ∀ path found, fragment.at? path = some found → P found

/-- What holds throughout holds at the top and throughout each part. -/
theorem throughout_iff {P : Fragment → Prop} {fragment : Fragment} :
    fragment.Throughout P ↔ P fragment ∧ ∀ part ∈ fragment.parts, part.Throughout P := by
  constructor
  · intro h
    refine ⟨h [] fragment rfl, fun part hpart path found hfound => ?_⟩
    obtain ⟨i, hi⟩ := List.getElem?_of_mem hpart
    exact h (i :: path) found (by rw [at?, hi, Option.bind_some, hfound])
  · rintro ⟨hself, hparts⟩ (_ | ⟨i, path⟩) found hfound
    · cases hfound
      exact hself
    · obtain ⟨part, hpart, hfound⟩ := Option.bind_eq_some_iff.mp hfound
      exact hparts part (List.mem_of_getElem? hpart) path found hfound

/-! ### Faces -/

/-- All that is compared of a fragment but its parts. -/
inductive Face where
  | function (name qualifiedName : String) (line column : Nat)
  /-- A generic node has its kind and the names of its fields. -/
  | node (kind : Kind) (names : List String)
  | list
  | scalar (s : Scalar)

/-- The face that a fragment shows. -/
def face : Fragment → Face
  | .function head _ _ _ _ => .function head.name head.qualifiedName head.line head.column
  | .node _ origin fields => .node origin.kind (fields.map Prod.fst)
  | .list _ => .list
  | .scalar s => .scalar s

/-- The faces are the same, but for doubles that are the same number. -/
def Face.Agrees : Face → Face → Prop
  | .scalar s, .scalar s' => s.agrees s' = true
  | face, other => face = other

/-- Fragments of one shape. -/
abbrev OneShape (a b : Fragment) : Prop := a.sameShape b = true

/-- Lists are of one shape item by item. -/
theorem sameShapes_iff (as bs : List Fragment) :
    sameShapes as bs = true ↔ List.Forall₂ OneShape as bs := by
  induction as generalizing bs with
  | nil => cases bs <;> simp [sameShapes]
  | cons a as ih => cases bs <;> simp [sameShapes, ih]

/-- Fields are of one shape if their names are the same and their values are, one by one. -/
theorem sameFields_iff (as bs : List (String × Fragment)) :
    sameFields as bs = true ↔ as.map Prod.fst = bs.map Prod.fst ∧
      List.Forall₂ OneShape (as.map Prod.snd) (bs.map Prod.snd) := by
  induction as generalizing bs with
  | nil => cases bs <;> simp [sameFields]
  | cons a as ih =>
      cases bs with
      | nil => simp [sameFields]
      | cons b bs =>
          simp only [sameFields, Bool.and_eq_true, beq_iff_eq, ih, List.map_cons, List.cons.injEq,
            List.forall₂_cons]
          tauto

/-- **Fragments of one shape** show faces that agree and have parts of one
shape. -/
theorem oneShape_iff_parts (a b : Fragment) :
    OneShape a b ↔ a.face.Agrees b.face ∧ List.Forall₂ OneShape a.parts b.parts := by
  cases a <;> cases b <;>
    simp only [OneShape, sameShape, face, Face.Agrees, parts, Face.function.injEq,
      Face.node.injEq, Bool.and_eq_true, beq_iff_eq, Bool.false_eq_true, reduceCtorEq, false_and,
      List.forall₂_cons, List.forall₂_nil_left_iff, ← sameShapes_iff, sameFields_iff, true_and,
      and_true] <;>
    tauto

/-- Related lists are related at each position. -/
theorem rel_getElem? {α : Type} {R : α → α → Prop} {as bs : List α} (h : List.Forall₂ R as bs)
    (i : Nat) : Option.Rel R as[i]? bs[i]? := by
  induction h generalizing i with
  | nil => exact .none
  | cons hab _ ih =>
      cases i with
      | zero => exact .some hab
      | succ i => exact ih i

/-- Lists that are related at each position are related. -/
theorem forall₂_of_rel_getElem? {α : Type} {R : α → α → Prop} {as bs : List α}
    (h : ∀ i : Nat, Option.Rel R as[i]? bs[i]?) : List.Forall₂ R as bs := by
  induction as generalizing bs with
  | nil =>
      cases bs with
      | nil => exact .nil
      | cons b bs => cases h 0
  | cons a as ih =>
      cases bs with
      | nil => cases h 0
      | cons b bs =>
          have hab : Option.Rel R (some a) (some b) := h 0
          exact .cons (Option.rel_some_some.mp hab) (ih fun i => h (i + 1))

/-- **Fragments have one shape if they show like faces at every path.** -/
theorem oneShape_iff_faces (a b : Fragment) :
    OneShape a b ↔
      ∀ path, Option.Rel Face.Agrees ((a.at? path).map face) ((b.at? path).map face) := by
  constructor
  · intro h path
    induction path generalizing a b with
    | nil => exact .some ((oneShape_iff_parts a b).mp h).1
    | cons i path ih =>
        have hpart := rel_getElem? ((oneShape_iff_parts a b).mp h).2 i
        rw [at?, at?]
        generalize a.parts[i]? = part, b.parts[i]? = part' at hpart ⊢
        cases hpart with
        | none => exact .none
        | some hpart => exact ih _ _ hpart
  · intro h
    induction a using induction_on_parts generalizing b with
    | step a ih =>
        refine (oneShape_iff_parts a b).mpr ⟨Option.rel_some_some.mp (h []), ?_⟩
        refine forall₂_of_rel_getElem? fun i => ?_
        have hhere := h [i]
        rw [at?, at?] at hhere
        cases hpart : a.parts[i]? with
        | none =>
            cases hpart' : b.parts[i]? with
            | none => exact .none
            | some part' =>
                rw [hpart, hpart'] at hhere
                cases hhere
        | some part =>
            cases hpart' : b.parts[i]? with
            | none =>
                rw [hpart, hpart'] at hhere
                cases hhere
            | some part' =>
                refine .some (ih part (List.mem_of_getElem? hpart) part' fun path => ?_)
                have hbelow := h (i :: path)
                rwa [at?, at?, hpart, hpart'] at hbelow

/-- A change that is made to the parts of a fragment is made to everything in
it. -/
theorem at?_of_parts {f : Fragment → Fragment}
    (hf : ∀ fragment, (f fragment).parts = fragment.parts.map f) (fragment : Fragment)
    (path : List Nat) : (f fragment).at? path = (fragment.at? path).map f := by
  induction path generalizing fragment with
  | nil => rfl
  | cons i path ih =>
      rw [at?, at?, hf, List.getElem?_map]
      cases fragment.parts[i]? with
      | none => rfl
      | some part => exact ih part

/-- Changes that no face shows leave shapes as they are. -/
theorem sameShape_of_unseen {f g : Fragment → Fragment}
    (hf : ∀ fragment, (f fragment).parts = fragment.parts.map f)
    (hg : ∀ fragment, (g fragment).parts = fragment.parts.map g)
    (hfaceF : ∀ fragment, (f fragment).face = fragment.face)
    (hfaceG : ∀ fragment, (g fragment).face = fragment.face) (a b : Fragment) :
    (f a).sameShape (g b) = a.sameShape b := by
  rw [Bool.eq_iff_iff]
  refine ((oneShape_iff_faces _ _).trans (forall_congr' fun path => ?_)).trans
    (oneShape_iff_faces _ _).symm
  rw [at?_of_parts hf, at?_of_parts hg]
  cases a.at? path <;> cases b.at? path <;> simp [hfaceF, hfaceG]

/-! ### Fragments elsewhere -/

mutual

/-- The fragment with other places for its generic nodes. -/
def relocated (place : Head → Option Location) : Fragment → Fragment
  | .function head decorators arguments returns body =>
    .function head (relocated place decorators) (relocated place arguments)
      (relocated place returns) (relocatedItems place body)
  | .node id origin fields =>
    .node id { origin with location := place origin } (relocatedFields place fields)
  | .list items => .list (relocatedItems place items)
  | .scalar s => .scalar s

/-- The fragments with other places for their generic nodes. -/
def relocatedItems (place : Head → Option Location) : List Fragment → List Fragment
  | [] => []
  | item :: rest => relocated place item :: relocatedItems place rest

/-- The named fragments with other places for their generic nodes. -/
def relocatedFields (place : Head → Option Location) :
    List (String × Fragment) → List (String × Fragment)
  | [] => []
  | (name, value) :: rest => (name, relocated place value) :: relocatedFields place rest

end

section Relocated

variable (place place' : Head → Option Location)

/-- Relocated items, one by one. -/
theorem relocatedItems_eq (items : List Fragment) :
    relocatedItems place items = items.map (relocated place) := by
  induction items with
  | nil => rfl
  | cons item rest ih => rw [relocatedItems, List.map_cons, ih]

/-- Relocated fields, one by one. -/
theorem relocatedFields_eq (fields : List (String × Fragment)) :
    relocatedFields place fields = fields.map fun field => (field.1, field.2.relocated place) := by
  induction fields with
  | nil => rfl
  | cons field rest ih => rw [relocatedFields, List.map_cons, ih]

/-- The parts of a relocated fragment are its relocated parts. -/
theorem parts_relocated (fragment : Fragment) :
    (fragment.relocated place).parts = fragment.parts.map (relocated place) := by
  cases fragment with
  | scalar => rfl
  | list items => exact relocatedItems_eq place items
  | node id origin fields =>
      rw [relocated, parts, parts, relocatedFields_eq, List.map_map, List.map_map]
      rfl
  | function head decorators arguments returns body =>
      rw [relocated, parts, parts, relocatedItems_eq]
      rfl

/-- No face shows the place of a generic node. -/
theorem face_relocated (fragment : Fragment) :
    (fragment.relocated place).face = fragment.face := by
  cases fragment with
  | scalar | list | function => rfl
  | node id origin fields =>
      rw [relocated, face, face, relocatedFields_eq, List.map_map]
      rfl

/-- **What a shape tells.**  Two fragments have the same shape just if the faces
at every path agree: the same functions by name, qualified name, line and
column, generic nodes of the same kinds with fields of the same names, lists of
the same lengths and the same leaves.  Where the generic nodes are has no part
in it: anywhere else they leave the shape as it is. -/
theorem sameShape_iff_faces (a b : Fragment) :
    (a.sameShape b = true ↔
      ∀ path, Option.Rel Face.Agrees ((a.at? path).map face) ((b.at? path).map face)) ∧
    (a.relocated place).sameShape (b.relocated place') = a.sameShape b :=
  ⟨oneShape_iff_faces a b,
    sameShape_of_unseen (parts_relocated place) (parts_relocated place') (face_relocated place)
      (face_relocated place') a b⟩

end Relocated

/-- The line and column that are reported of a node. -/
def reported : Fragment → Option (Nat × Nat)
  | .function head _ _ _ _ => some (head.line, head.column)
  | .node _ origin _ => origin.location.map fun location => (location.line, location.column)
  | .list _ | .scalar _ => none

/-- Where the body of a function is indented otherwise, its statement is
elsewhere and its shape is the same. -/
theorem sameShape_of_indented :
    let translated := fun text => do
      let tree ← ((Source.ofText "m" text .program).tree.runFrom 1).1
      ((Session.begin .standard "_").translate tree).1
    ∃ f, translated "def f():\n    x\n" = .ok f ∧
      ∃ g, translated "def f():\n  x\n" = .ok g ∧
        f.toFragment.sameShape g.toFragment = true ∧
        (f.toFragment.at? [3]).bind reported = some (2, 4) ∧
        (g.toFragment.at? [3]).bind reported = some (2, 2) := by
  intro translated
  decide +kernel

end FunctionIR.Fragment
