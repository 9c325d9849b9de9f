import FunctionIR.Proofs.Exchange.Portable
import FunctionIR.Proofs.Translation.Program

/-!
# Ways through a tree

A way leads from a value to one inside of it, into fields by their names and to
the items of lists by their positions.  At its end a value can be looked up
(`Value.at?`) and changed (`Value.changeAt`), all else staying as it is.

What holds of the heads of all nodes in a value holds of those in its parts, and
is kept by a change that keeps it (`Value.EachHead.changeAt`).
-/

namespace FunctionIR

/-- A turn of a way. -/
inductive Turn where
  | field (name : String)
  | item (index : Nat)
deriving DecidableEq

namespace Value

/-- The value behind a turn. -/
def part? : Value → Turn → Option Value
  | .node _ fields, .field name => Members.get? name fields
  | .list items, .item index => items[index]?
  | _, _ => none

/-- The value with another one behind a turn. -/
def setPart (part : Value) : Value → Turn → Value
  | .node head fields, .field name => .node head (Members.set name part fields)
  | .list items, .item index => .list (items.set index part)
  | value, _ => value

/-- The value at the end of a way. -/
def at? (value : Value) : List Turn → Option Value
  | [] => some value
  | turn :: way => (value.part? turn).bind fun part => part.at? way

/-- The value with a change at the end of a way, if it leads anywhere. -/
def changeAt (f : Value → Value) (value : Value) : List Turn → Value
  | [] => f value
  | turn :: way =>
    match value.part? turn with
    | some part => (part.changeAt f way).setPart value turn
    | none => value

/-! ### What holds of all heads -/

/-- The condition holds of the heads of all nodes in the value. -/
def EachHead (P : Head → Prop) (value : Value) : Prop := ∀ head ∈ value.heads, P head

variable {P : Head → Prop}

/-- The heads of a list are those of its items. -/
theorem eachHead_list {items : List Value} :
    (list items).EachHead P ↔ ∀ item ∈ items, item.EachHead P := by
  unfold EachHead
  rw [heads]
  induction items with
  | nil => simp [headsOfItems]
  | cons item rest ih => rw [headsOfItems, List.forall_mem_append, ih, List.forall_mem_cons]

/-- The head of a node and those in its fields. -/
theorem eachHead_node {head : Head} {fields : Fields} :
    (node head fields).EachHead P ↔ P head ∧ ∀ field ∈ fields, field.2.EachHead P := by
  unfold EachHead
  rw [heads, List.forall_mem_cons]
  refine and_congr_right fun _ => ?_
  induction fields with
  | nil => simp [headsOfFields]
  | cons field rest ih => rw [headsOfFields, List.forall_mem_append, ih, List.forall_mem_cons]

theorem eachHead_scalar (s : Scalar) : (scalar s).EachHead P := List.forall_mem_nil _

theorem eachHead_foreign (document : Json) : (foreign document).EachHead P := List.forall_mem_nil _

theorem EachHead.mono {Q : Head → Prop} {value : Value} (h : value.EachHead P)
    (himp : ∀ head, P head → Q head) : value.EachHead Q :=
  fun head hhead => himp head (h head hhead)

/-- What is put under a name is all that is new. -/
theorem mem_set {name : String} {value : Value} {fields : Fields} :
    ∀ field ∈ Members.set name value fields, field.2 = value ∨ field ∈ fields := by
  induction fields with
  | nil => exact List.forall_mem_singleton.mpr (.inl rfl)
  | cons old rest ih =>
      rw [Members.set]
      split
      · exact List.forall_mem_cons.mpr
          ⟨.inl rfl, fun field hfield => .inr (List.mem_cons_of_mem _ hfield)⟩
      · refine List.forall_mem_cons.mpr ⟨.inr List.mem_cons_self, fun field hfield => ?_⟩
        exact (ih field hfield).imp_right (List.mem_cons_of_mem _)

/-- A part has the heads that the value has there. -/
theorem EachHead.part {value part : Value} {turn : Turn} (h : value.EachHead P)
    (hpart : value.part? turn = some part) : part.EachHead P := by
  cases value with
  | scalar | foreign => cases hpart
  | list items =>
      cases turn with
      | field => cases hpart
      | item => exact eachHead_list.mp h _ (List.mem_of_getElem? hpart)
  | node head fields =>
      cases turn with
      | field => exact (eachHead_node.mp h).2 _ (Exchange.mem_of_get? hpart)
      | item => cases hpart

/-- A part that is put in place brings its heads. -/
theorem EachHead.setPart {value part : Value} (turn : Turn) (h : value.EachHead P)
    (hpart : part.EachHead P) :
    (part.setPart value turn).EachHead P := by
  cases value with
  | scalar | foreign => exact h
  | list items =>
      cases turn with
      | field => exact h
      | item =>
          refine eachHead_list.mpr fun item hitem => ?_
          rcases List.mem_or_eq_of_mem_set hitem with hitem | rfl
          · exact eachHead_list.mp h item hitem
          · exact hpart
  | node head fields =>
      cases turn with
      | field =>
          obtain ⟨hhead, hfields⟩ := eachHead_node.mp h
          refine eachHead_node.mpr ⟨hhead, fun field hfield => ?_⟩
          rcases mem_set field hfield with heq | hfield
          · rwa [heq]
          · exact hfields field hfield
      | item => exact h

/-- **A change at the end of a way** keeps what it keeps of the value there. -/
theorem EachHead.changeAt {f : Value → Value}
    (hf : ∀ value : Value, value.EachHead P → (f value).EachHead P)
    {value : Value} (h : value.EachHead P) (way : List Turn) : (value.changeAt f way).EachHead P := by
  induction way generalizing value with
  | nil => exact hf value h
  | cons turn way ih =>
      rw [Value.changeAt]
      cases hpart : value.part? turn with
      | none => exact h
      | some part => exact h.setPart turn (ih (h.part hpart))

end Value

end FunctionIR
