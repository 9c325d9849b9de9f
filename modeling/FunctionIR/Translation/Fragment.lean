import FunctionIR.Tree.Dump

/-!
# Fragments

A fragment is what a tree is translated into.  Functions are its only nodes
of a special form: they carry a qualified name, which is the name of the
scope they are declared in.  Every other node is kept as it is, as a generic
node with its fields translated in order.  Lists stay lists and leaves stay
leaves.

Functions and generic nodes are numbered by one counter and remember the head
of the node they come from.  `heads` lists these heads, parents before
children, and all counts are read off that list.  Two fragments have the same
shape when they differ in numbers only; the places of generic nodes are not
part of the shape.
-/

namespace FunctionIR

/-- All of a function but its parts. -/
structure FunctionHead where
  id : Nat
  name : String
  /-- The name of the scope the function is declared in. -/
  qualifiedName : String
  line : Nat
  column : Nat
  origin : Head
deriving DecidableEq

/-- A translated value. -/
inductive Fragment where
  | function (head : FunctionHead) (decorators arguments returns : Fragment)
      (body : List Fragment)
  | node (id : Nat) (origin : Head) (fields : List (String × Fragment))
  | list (items : List Fragment)
  | scalar (s : Scalar)

/-- A translated function. -/
structure Function where
  head : FunctionHead
  decorators : Fragment
  arguments : Fragment
  returns : Fragment
  body : List Fragment

/-- The function as a fragment. -/
def Function.toFragment (f : Function) : Fragment :=
  .function f.head f.decorators f.arguments f.returns f.body

namespace Fragment

/-- The fragment as a function. -/
def asFunction : Fragment → Option Function
  | .function head decorators arguments returns body =>
    some ⟨head, decorators, arguments, returns, body⟩
  | _ => none

mutual

/-- The heads of the nodes in a fragment, parents before children. -/
def heads : Fragment → List Head
  | .function head decorators arguments returns body =>
    head.origin ::
      (heads decorators ++ heads arguments ++ heads returns ++ headsOfList body)
  | .node _ origin fields => origin :: headsOfFields fields
  | .list items => headsOfList items
  | .scalar _ => []

/-- The heads of the nodes in several fragments. -/
def headsOfList : List Fragment → List Head
  | [] => []
  | item :: rest => heads item ++ headsOfList rest

/-- The heads of the nodes in named fragments. -/
def headsOfFields : List (String × Fragment) → List Head
  | [] => []
  | (_, value) :: rest => heads value ++ headsOfFields rest

end

/-- How many nodes a fragment has. -/
def nodeCount (fragment : Fragment) : Nat := fragment.heads.length

mutual

/-- The functions of a fragment, outer before inner.  Functions in the
decorators, parameters or return annotation of a function do not count as
nested in it. -/
def functions : Fragment → List Function
  | .function head decorators arguments returns body =>
    ⟨head, decorators, arguments, returns, body⟩ :: functionsOfList body
  | .node _ _ fields => functionsOfFields fields
  | .list items => functionsOfList items
  | .scalar _ => []

/-- The functions of several fragments. -/
def functionsOfList : List Fragment → List Function
  | [] => []
  | item :: rest => functions item ++ functionsOfList rest

/-- The functions of named fragments. -/
def functionsOfFields : List (String × Fragment) → List Function
  | [] => []
  | (_, value) :: rest => functions value ++ functionsOfFields rest

end

mutual

/-- The fragments differ at most in numbers and in the places of generic
nodes. -/
def sameShape : Fragment → Fragment → Bool
  | .function a decorators arguments returns body,
      .function b decorators' arguments' returns' body' =>
    a.name == b.name && a.qualifiedName == b.qualifiedName && a.line == b.line &&
      a.column == b.column && sameShape arguments arguments' &&
      sameShape decorators decorators' && sameShape returns returns' &&
      sameShapes body body'
  | .node _ a fields, .node _ b fields' =>
    a.kind == b.kind && sameFields fields fields'
  | .list items, .list items' => sameShapes items items'
  | .scalar a, .scalar b => a.agrees b
  | _, _ => false

/-- The fragments have the same shapes one by one. -/
def sameShapes : List Fragment → List Fragment → Bool
  | [], [] => true
  | a :: as, b :: bs => sameShape a b && sameShapes as bs
  | _, _ => false

/-- The names are the same and the fragments have the same shapes, one by
one. -/
def sameFields : List (String × Fragment) → List (String × Fragment) → Bool
  | [], [] => true
  | (name, a) :: as, (name', b) :: bs =>
    name == name' && sameShape a b && sameFields as bs
  | _, _ => false

end

/-- The two fragments are the same function or the same generic node, told
by their numbers; fragments of other sorts have no identity. -/
def sameNode : Fragment → Fragment → Option Bool
  | .function a _ _ _ _, .function b _ _ _ _ => some (a.id == b.id)
  | .node a _ _, .node b _ _ => some (a == b)
  | _, _ => none

/-- The fragment in a few words. -/
def description : Fragment → String
  | .function head _ _ _ _ => "function `" ++ head.name ++ "`"
  | .node _ origin _ => origin.kind.tag
  | .list _ => "a sequence"
  | .scalar s => "scalar " ++ s.dump

end Fragment

/-- Count one more of a tag in a list sorted by tag. -/
def tallyTag (tag : String) : List (String × Nat) → List (String × Nat)
  | [] => [(tag, 1)]
  | (other, count) :: rest =>
    if tag = other then (other, count + 1) :: rest
    else if tag < other then (tag, 1) :: (other, count) :: rest
    else (other, count) :: tallyTag tag rest

namespace Function

/-- How many nodes the function has, itself included. -/
def nodeCount (f : Function) : Nat := f.toFragment.nodeCount

/-- How many nodes of each kind the function has, sorted by tag. -/
def histogram (f : Function) : List (String × Nat) :=
  f.toFragment.heads.foldl (fun counts head => tallyTag head.kind.tag counts) []

/-- The functions in the body, in the order of their text. -/
def nested (f : Function) : List Function := Fragment.functionsOfList f.body

end Function

end FunctionIR
