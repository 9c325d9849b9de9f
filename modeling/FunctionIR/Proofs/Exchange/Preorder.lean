import FunctionIR.Proofs.Reading.Drawing
import FunctionIR.Tree.Exchange

/-!
# The order of an imported tree

An import makes one node of each tagged object of a document and draws its number
before it goes into the members.  So the nodes are numbered in the order in which
their objects begin in the document (`nodeObjects`), without a gap, and the head of
each is what its own object says (`headWith`).  This is the whole list of heads, parents
first (`importTree_heads`).

An import that fails has drawn numbers for the nodes before the fault; no further
than they go does it move the counter (`draws_importTree`).
-/

namespace FunctionIR.Exchange

open Numbered (Draws)

variable {file : String}

/-! ### The objects of a document -/

mutual

/-- The members of the objects that become nodes: an object before those inside of
it, and these in the order in which they stand. -/
def nodeObjects : Json → List (List (String × Json))
  | .object members =>
    if (Members.get? typeKey members).isSome then members :: nodeObjectsOfMembers members else []
  | .array items => nodeObjectsOfItems items
  | _ => []

/-- The objects in several documents that become nodes. -/
def nodeObjectsOfItems : List Json → List (List (String × Json))
  | [] => []
  | item :: rest => nodeObjects item ++ nodeObjectsOfItems rest

/-- The objects in the members that hold fields. -/
def nodeObjectsOfMembers : List (String × Json) → List (List (String × Json))
  | [] => []
  | (name, item) :: rest =>
    if name = typeKey ∨ name ∈ placeKeys then nodeObjectsOfMembers rest
    else nodeObjects item ++ nodeObjectsOfMembers rest

end

/-- The tag of an object. -/
def tagOf (members : List (String × Json)) : String :=
  match Members.get? typeKey members with
  | some (.string tag) => tag
  | _ => ""

/-- The head that an object gives to the node of a number. -/
def headWith (file : String) (members : List (String × Json)) (id : Nat) : Head :=
  ⟨id, Kind.ofTag (tagOf members), locationOf file members, spanFrom file members⟩

/-- The heads of objects that are numbered from a counter on. -/
def headsFrom (file : String) (counter : Nat) (objects : List (List (String × Json))) :
    List Head :=
  (objects.zipIdx counter).map fun (members, id) => headWith file members id

/-- The first object gets the counter, the others go on from the next number. -/
theorem headsFrom_cons (counter : Nat) (members : List (String × Json))
    (rest : List (List (String × Json))) :
    headsFrom file counter (members :: rest) =
      headWith file members counter :: headsFrom file (counter + 1) rest := rfl

theorem headsFrom_append (counter : Nat) (objects more : List (List (String × Json))) :
    headsFrom file counter (objects ++ more) =
      headsFrom file counter objects ++ headsFrom file (counter + objects.length) more := by
  rw [headsFrom, List.zipIdx_append, List.map_append]
  rfl

/-- The numbers have no gap. -/
theorem map_id_headsFrom (counter : Nat) (objects : List (List (String × Json))) :
    (headsFrom file counter objects).map Head.id = List.range' counter objects.length := by
  rw [headsFrom, List.map_map, ← List.zipIdx_map_snd counter objects]
  rfl

/-! ### Nodes in the order of their objects -/

/-- A head takes one number and is made of its members. -/
theorem headOf_run {members : List (String × Json)} {counter next : Nat} {head : Head}
    (h : (headOf file members).runFrom counter = (.ok head, next)) :
    head = headWith file members counter ∧ next = counter + 1 := by
  unfold headOf at h
  split at h
  next tag htag =>
    cases h
    have htagOf : tagOf members = tag := by rw [tagOf, htag]
    rw [headWith, htagOf]
    exact ⟨rfl, rfl⟩
  next => cases h

mutual

/-- **The nodes of an imported value are numbered in the order of their objects.** -/
theorem importValue_heads : (document : Json) → ∀ {counter next : Nat} {value : Value},
    (importValue file document).runFrom counter = (.ok value, next) →
    value.heads = headsFrom file counter (nodeObjects document) ∧
      next = counter + (nodeObjects document).length
  | .null, _, _, _, h | .bool _, _, _, _, h | .number _, _, _, _, h | .string _, _, _, _, h => by
      rw [importValue] at h
      cases h
      exact ⟨rfl, rfl⟩
  | .array items, counter, next, value, h => by
      rw [importValue] at h
      obtain ⟨values, last, hvalues, h⟩ := Numbered.runFrom_bind h
      cases h
      rw [Value.heads, nodeObjects]
      exact importItems_heads items hvalues
  | .object members, counter, next, value, h => by
      rw [importValue] at h
      rw [nodeObjects]
      split at h
      next htagged =>
        obtain ⟨head, middle, hhead, h⟩ := Numbered.runFrom_bind h
        obtain ⟨fields, last, hfields, h⟩ := Numbered.runFrom_bind h
        cases h
        obtain ⟨rfl, rfl⟩ := headOf_run hhead
        obtain ⟨hheads, rfl⟩ := importFields_heads members hfields
        rw [if_pos htagged, Value.heads, headsFrom_cons, hheads, List.length_cons]
        exact ⟨rfl, by omega⟩
      next htagged =>
        cases h
        rw [if_neg htagged]
        exact ⟨rfl, rfl⟩

/-- The items of an array, one after the other. -/
theorem importItems_heads : (items : List Json) → ∀ {counter next : Nat} {values : List Value},
    (importItems file items).runFrom counter = (.ok values, next) →
    Value.headsOfItems values = headsFrom file counter (nodeObjectsOfItems items) ∧
      next = counter + (nodeObjectsOfItems items).length
  | [], _, _, _, h => by
      rw [importItems] at h
      cases h
      exact ⟨rfl, rfl⟩
  | item :: rest, counter, next, values, h => by
      rw [importItems] at h
      obtain ⟨value, middle, hvalue, h⟩ := Numbered.runFrom_bind h
      obtain ⟨others, last, hothers, h⟩ := Numbered.runFrom_bind h
      cases h
      obtain ⟨hheads, rfl⟩ := importValue_heads item hvalue
      obtain ⟨hmore, rfl⟩ := importItems_heads rest hothers
      rw [nodeObjectsOfItems, headsFrom_append, Value.headsOfItems, hheads, hmore,
        List.length_append]
      exact ⟨rfl, by omega⟩

/-- The members of an object, one after the other. -/
theorem importFields_heads : (members : List (String × Json)) →
    ∀ {counter next : Nat} {fields : Fields},
    (importFields file members).runFrom counter = (.ok fields, next) →
    Value.headsOfFields fields = headsFrom file counter (nodeObjectsOfMembers members) ∧
      next = counter + (nodeObjectsOfMembers members).length
  | [], _, _, _, h => by
      rw [importFields] at h
      cases h
      exact ⟨rfl, rfl⟩
  | (name, item) :: rest, counter, next, fields, h => by
      rw [importFields] at h
      rw [nodeObjectsOfMembers]
      split at h
      next hplace =>
        rw [if_pos hplace]
        exact importFields_heads rest h
      next hfield =>
        obtain ⟨value, middle, hvalue, h⟩ := Numbered.runFrom_bind h
        obtain ⟨others, last, hothers, h⟩ := Numbered.runFrom_bind h
        cases h
        obtain ⟨hheads, rfl⟩ := importValue_heads item hvalue
        obtain ⟨hmore, rfl⟩ := importFields_heads rest hothers
        rw [if_neg hfield, headsFrom_append, Value.headsOfFields, hheads, hmore,
          List.length_append]
        exact ⟨rfl, by omega⟩

end

/-- **The heads of an imported tree are those of the objects of its document**, in
the order of the document, numbered from the counter on. -/
theorem importTree_heads {text : String} {counter next : Nat} {tree : Node}
    (h : (importTree file text).runFrom counter = (.ok tree, next)) :
    ∃ document, Json.read text = .ok document ∧
      tree.toValue.heads = headsFrom file counter (nodeObjects document) := by
  unfold importTree at h
  split at h
  next => cases h
  next members hread =>
    refine ⟨_, hread, ?_⟩
    split at h
    next htagged =>
      obtain ⟨head, middle, hhead, h⟩ := Numbered.runFrom_bind h
      obtain ⟨fields, last, hfields, h⟩ := Numbered.runFrom_bind h
      cases h
      obtain ⟨rfl, rfl⟩ := headOf_run hhead
      rw [nodeObjects, if_pos htagged, headsFrom_cons, ← (importFields_heads members hfields).1]
      rfl
    next => cases h
  next => cases h

/-! ### What an import draws -/

/-- A head draws the one number it has. -/
theorem draws_headOf (members : List (String × Json)) :
    (headOf file members).Draws 0 fun head => {head.id} := by
  unfold headOf
  split
  · exact Numbered.draws_head _ _ _
  · exact .throw

mutual

/-- What an imported value draws are the numbers of its nodes. -/
theorem draws_importValue : (document : Json) →
    (importValue file document).Draws 0 Value.numbers
  | .null | .bool _ | .number _ | .string _ => by
      rw [importValue]
      exact .pure (le_refl 0)
  | .array items => by
      rw [importValue]
      exact (draws_importItems items).step fun _ => .pure (by simp)
  | .object members => by
      rw [importValue]
      split
      · exact (draws_headOf members).step fun _ => (draws_importFields members).step fun _ =>
          .pure (by simp)
      · exact .pure (le_refl 0)

theorem draws_importItems : (items : List Json) →
    (importItems file items).Draws 0 Value.numbersOfItems
  | [] => by
      rw [importItems]
      exact .pure (le_refl 0)
  | item :: rest => by
      rw [importItems]
      exact (draws_importValue item).step fun _ => (draws_importItems rest).step fun _ =>
        .pure (by simp)

theorem draws_importFields : (members : List (String × Json)) →
    (importFields file members).Draws 0 Value.numbersOfFields
  | [] => by
      rw [importFields]
      exact .pure (le_refl 0)
  | (name, item) :: rest => by
      rw [importFields]
      split
      · exact draws_importFields rest
      · exact (draws_importValue item).step fun _ => (draws_importFields rest).step fun _ =>
          .pure (by simp)

end

/-- **An import has only numbers that are drawn for it**, each of them once. -/
theorem draws_importTree (text : String) :
    (importTree file text).Draws 0 fun tree => tree.toValue.numbers := by
  unfold importTree
  split
  · exact .throw
  next members _ =>
    split
    · exact (draws_headOf members).step fun _ => (draws_importFields members).step fun _ =>
        .pure (by simp [Node.toValue])
    · exact .throw
  · exact .throw

end FunctionIR.Exchange
