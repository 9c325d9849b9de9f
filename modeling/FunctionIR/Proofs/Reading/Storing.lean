import FunctionIR.Proofs.Reading.Fitting

/-!
# What is assigned to

A node stands where it is assigned to, or it does not: the targets of an
assignment do, the target of a loop does, and so do the elements of a tuple or
a list that does itself (`Kind.assigns`).  `Value.standings` goes through all
nodes of a value and says of each how it stands.

A target is read as an expression first and then stored.  If some node that is
assigned to is of a kind that cannot be, an **offender**, storing fails and
names the first one.  Otherwise it gives the value with other contexts
(`Stores`), and nothing else in it changes.
-/

namespace FunctionIR

/-! ### Where nodes stand -/

/-- What is in a field of the kind is assigned to, where the node itself is
assigned to or is not. -/
def Kind.assigns (kind : Kind) (assigned : Bool) (field : String) : Bool :=
  match kind with
  | .assign => field == "targets"
  | .augAssign | .forStmt => field == "target"
  | .tuple | .list => assigned && field == "elts"
  | _ => false

namespace Value

mutual

/-- All nodes in a value that is assigned to or is not, each with whether it is
assigned to. -/
def standings (assigned : Bool) : Value → List (Bool × Node)
  | .node head fields => (assigned, ⟨head, fields⟩) :: standingsOfFields head.kind assigned fields
  | .list items => standingsOfItems assigned items
  | .scalar _ | .foreign _ => []

/-- The same of several values. -/
def standingsOfItems (assigned : Bool) : List Value → List (Bool × Node)
  | [] => []
  | item :: rest => standings assigned item ++ standingsOfItems assigned rest

/-- The same of the fields of a kind. -/
def standingsOfFields (kind : Kind) (assigned : Bool) : List (String × Value) → List (Bool × Node)
  | [] => []
  | (name, value) :: rest =>
    standings (kind.assigns assigned name) value ++ standingsOfFields kind assigned rest

end

mutual

/-- No node is left out. -/
theorem map_standings (assigned : Bool) : (value : Value) →
    (value.standings assigned).map Prod.snd = value.nodes
  | .node head fields => by
      rw [standings, List.map_cons, map_standingsOfFields head.kind assigned fields, nodes]
  | .list items => by rw [standings, map_standingsOfItems assigned items, nodes]
  | .scalar _ | .foreign _ => by rw [standings, nodes, List.map_nil]

theorem map_standingsOfItems (assigned : Bool) : (items : List Value) →
    (standingsOfItems assigned items).map Prod.snd = nodesOfItems items
  | [] => by rw [standingsOfItems, nodesOfItems, List.map_nil]
  | item :: rest => by
      rw [standingsOfItems, List.map_append, map_standings assigned item,
        map_standingsOfItems assigned rest, nodesOfItems]

theorem map_standingsOfFields (kind : Kind) (assigned : Bool) : (fields : Fields) →
    (standingsOfFields kind assigned fields).map Prod.snd = nodesOfFields fields
  | [] => by rw [standingsOfFields, nodesOfFields, List.map_nil]
  | (name, value) :: rest => by
      rw [standingsOfFields, List.map_append, map_standings _ value,
        map_standingsOfFields kind assigned rest, nodesOfFields]

end

theorem standingsOfItems_append (assigned : Bool) (items more : List Value) :
    standingsOfItems assigned (items ++ more) =
      standingsOfItems assigned items ++ standingsOfItems assigned more := by
  induction items with
  | nil => rfl
  | cons item items ih =>
      rw [List.cons_append, standingsOfItems, standingsOfItems, ih, List.append_assoc]

end Value

/-- Fields stand alike below kinds that assign to the same of them. -/
theorem Value.standingsOfFields_congr {kind kind' : Kind} {assigned assigned' : Bool}
    {fields : Fields}
    (h : ∀ field ∈ fields, kind.assigns assigned field.1 = kind'.assigns assigned' field.1) :
    standingsOfFields kind assigned fields = standingsOfFields kind' assigned' fields := by
  induction fields with
  | nil => rfl
  | cons field rest ih =>
      obtain ⟨hfield, hrest⟩ := List.forall_mem_cons.mp h
      rw [standingsOfFields, standingsOfFields, hfield, ih hrest]

/-- Only the elements of tuples and lists stand as these do. -/
theorem Kind.assigns_eq {kind : Kind} (h : ¬ (kind = .tuple ∨ kind = .list)) (assigned : Bool)
    (field : String) : kind.assigns assigned field = kind.assigns false field := by
  cases kind <;> first | rfl | exact absurd (.inl rfl) h | exact absurd (.inr rfl) h

/-- The elements of a tuple or list stand as it does. -/
theorem Kind.assigns_elements {kind : Kind} (h : kind = .tuple ∨ kind = .list) (assigned : Bool) :
    kind.assigns assigned "elts" = assigned := by
  rcases h with rfl | rfl <;> exact Bool.and_true assigned

/-- No context is assigned to. -/
theorem Kind.assigns_ctx (kind : Kind) (assigned : Bool) : kind.assigns assigned "ctx" = false := by
  cases kind <;> simp [Kind.assigns]

/-- Apart from statements, only what is assigned to itself assigns to
something. -/
theorem Kind.assigns_false {kind : Kind} {role : Role} (h : kind.role = some role)
    (hrole : role ≠ .statement) (field : String) : kind.assigns false field = false := by
  cases kind <;> first | rfl | (cases h; exact absurd rfl hrole)

variable {H : Head → Prop}

mutual

/-- Where there is no statement and nothing is assigned to at the top, nothing
is below. -/
theorem Fits.unassigned : {slot : Slot} → {value : Value} → Fits H slot value →
    slot.holdsStatements = false → ∀ entry ∈ value.standings false, entry.1 = false
  | _, _, .text _, _ | _, _, .leaf _, _ | _, _, .absent, _ | _, _, .missing, _ =>
      List.forall_mem_nil _
  | _, _, .present h, hslot => Fits.unassigned h hslot
  | _, _, .list hitems, hslot => ItemsFit.unassigned hitems hslot
  | _, _, .node hrole _ hfields, hslot => by
      have hne := of_decide_eq_false hslot
      exact List.forall_mem_cons.mpr ⟨rfl, FieldsFit.unassigned hfields
        (signature_without_statements hrole hne) (Kind.assigns_false hrole hne)⟩

theorem ItemsFit.unassigned : {slot : Slot} → {items : List Value} → ItemsFit H slot items →
    slot.holdsStatements = false → ∀ entry ∈ Value.standingsOfItems false items, entry.1 = false
  | _, _, .nil, _ => List.forall_mem_nil _
  | _, _, .cons hitem hrest, hslot =>
      List.forall_mem_append.mpr ⟨Fits.unassigned hitem hslot, ItemsFit.unassigned hrest hslot⟩

theorem FieldsFit.unassigned {kind : Kind} : {signature : List (String × Slot)} →
    {fields : Fields} → FieldsFit H signature fields →
    (∀ entry ∈ signature, entry.2.holdsStatements = false) →
    (∀ field, kind.assigns false field = false) →
    ∀ entry ∈ Value.standingsOfFields kind false fields, entry.1 = false
  | _, _, .nil, _, _ => List.forall_mem_nil _
  | _, _, .cons hvalue hrest, hsignature, hkind => by
      obtain ⟨hslot, hothers⟩ := List.forall_mem_cons.mp hsignature
      refine List.forall_mem_append.mpr ⟨?_, FieldsFit.unassigned hrest hothers hkind⟩
      rw [hkind]
      exact Fits.unassigned hvalue hslot

end

/-! ### Offenders -/

/-- The nodes that are assigned to and cannot be. -/
def offending (entries : List (Bool × Node)) : List Node :=
  (entries.filter fun entry => entry.1 && !entry.2.head.kind.isAssignable).map Prod.snd

/-- The nodes that would be assigned to if the value were, and cannot be. -/
def Value.offenders (value : Value) : List Node := offending (value.standings true)

/-- The same of several values. -/
def Value.offendersOfItems (items : List Value) : List Node :=
  offending (standingsOfItems true items)

theorem offending_append (entries more : List (Bool × Node)) :
    offending (entries ++ more) = offending entries ++ offending more := by
  rw [offending, List.filter_append, List.map_append]
  rfl

/-- Where nothing is assigned to there is no offender. -/
theorem offending_eq_nil {entries : List (Bool × Node)}
    (h : ∀ entry ∈ entries, entry.1 = false) : offending entries = [] := by
  rw [offending, List.map_eq_nil_iff, List.filter_eq_nil_iff]
  intro entry hentry
  rw [h entry hentry]
  exact Bool.false_ne_true

/-- The offenders of the first value and those of the others. -/
theorem Value.offendersOfItems_cons (item : Value) (rest : List Value) :
    offendersOfItems (item :: rest) = item.offenders ++ offendersOfItems rest := by
  rw [offendersOfItems, standingsOfItems, offending_append]
  rfl

/-- A node that is assigned to is an offender itself, or some below it are. -/
theorem Value.offenders_node (head : Head) (fields : Fields) :
    (Value.node head fields).offenders =
      (if head.kind.isAssignable then [] else [⟨head, fields⟩]) ++
        offending (standingsOfFields head.kind true fields) := by
  rw [offenders, standings, offending, List.filter_cons]
  cases head.kind.isAssignable <;> rfl

/-- A tuple or a list can be assigned to. -/
theorem Kind.isAssignable_of_sequence {kind : Kind} (h : kind = .tuple ∨ kind = .list) :
    kind.isAssignable = true := by
  rcases h with rfl | rfl <;> rfl

/-- Of a tuple or a list that is assigned to the elements are. -/
theorem offenders_sequence {head : Head} {items : List Value} {ctx : Value}
    (hkind : head.kind = .tuple ∨ head.kind = .list) (hctx : Fits H (.node .context) ctx) :
    (Value.node head [("elts", .list items), ("ctx", ctx)]).offenders =
      Value.offendersOfItems items := by
  rw [Value.offenders_node, if_pos (Kind.isAssignable_of_sequence hkind), List.nil_append,
    Value.standingsOfFields, Value.standingsOfFields, Value.standingsOfFields,
    Kind.assigns_elements hkind, Kind.assigns_ctx, List.append_nil,
    offending_append, offending_eq_nil (hctx.unassigned rfl), List.append_nil]
  rfl

/-- Of another expression only the node itself is assigned to. -/
theorem offenders_single {head : Head} {fields : Fields} (hrole : head.kind.role = some .expression)
    (hkind : ¬ (head.kind = .tuple ∨ head.kind = .list))
    (hfields : FieldsFit H head.kind.signature fields) :
    (Value.node head fields).offenders =
      if head.kind.isAssignable then [] else [⟨head, fields⟩] := by
  have hnone : ∀ entry ∈ Value.standingsOfFields head.kind true fields, entry.1 = false := by
    rw [Value.standingsOfFields_congr fun field _ => Kind.assigns_eq hkind true field.1]
    exact hfields.unassigned (signature_without_statements hrole nofun)
      (Kind.assigns_false hrole nofun)
  rw [Value.offenders_node, offending_eq_nil hnone, List.append_nil]

/-! ### Storing -/

/-- A field of the signature is there. -/
theorem FieldsFit.exists_get? {name : String} {slot : Slot} {signature : List (String × Slot)}
    {fields : Fields} (h : FieldsFit H signature fields)
    (hslot : Members.get? name signature = some slot) :
    ∃ value, Members.get? name fields = some value := by
  induction signature generalizing fields with
  | nil => cases hslot
  | cons entry signature ih =>
      cases h with
      | @cons key _ value _ rest _ hrest =>
          rw [Members.get?] at hslot ⊢
          split at hslot
          next hkey => exact ⟨value, if_pos hkey⟩
          next hkey =>
            rw [if_neg hkey]
            exact ih hrest hslot

namespace Reading

open Numbered

/-- The fault that the node cannot be assigned to. -/
def notAssignable (node : Node) : Fault :=
  .badSyntax .error (.notAssignable node.head.kind) node.head.location node.head.span

/-- Without offenders the run succeeds, with a value and a counter of the
relation; with some it fails and names the first one. -/
def Names {α : Type} (offenders : List Node) (P : α → Nat → Prop) (run : Except Fault α × Nat) :
    Prop :=
  match offenders, run with
  | [], (.ok a, d) => P a d
  | first :: _, (.error fault, _) => fault = notAssignable first
  | _, _ => False

/-- Of two steps the first one that fails counts. -/
theorem Names.bind {α β : Type} {offenders more : List Node} {P : α → Nat → Prop}
    {Q : β → Nat → Prop} {m : Numbered α} {k : α → Numbered β} {c : Nat}
    (hm : Names offenders P (m.runFrom c))
    (hk : ∀ a d, P a d → Names more Q ((k a).runFrom d)) :
    Names (offenders ++ more) Q ((m >>= k).runFrom c) := by
  simp only [runFrom, ExceptT.run_bind, StateT.run_bind] at hm hk ⊢
  cases hrun : (m.run).run c with
  | mk outcome d =>
      rw [hrun] at hm
      cases outcome with
      | error fault =>
          cases offenders with
          | nil => exact hm.elim
          | cons first rest => exact hm
      | ok a =>
          cases offenders with
          | nil => exact hk a d hm
          | cons first rest => exact hm.elim

mutual

/-- From the one counter to the other, a value becomes a target. -/
inductive Stores : Nat → Value → Value → Nat → Prop
  | single {c : Nat} {head : Head} {fields : Fields} {ctx : Value} :
      ¬ (head.kind = .tuple ∨ head.kind = .list) → head.kind.isAssignable = true →
      Members.get? "ctx" fields = some ctx →
      Stores c (.node head fields)
        (.node head (Members.set "ctx" (bareNode c (.context .store)) fields)) (c + 1)
  | sequence {c d : Nat} {head : Head} {items stored : List Value} {ctx : Value} :
      head.kind = .tuple ∨ head.kind = .list → StoresAll c items stored d →
      Stores c (.node head [("elts", .list items), ("ctx", ctx)])
        (.node head [("elts", .list stored), ("ctx", bareNode d (.context .store))]) (d + 1)

/-- The same of several values. -/
inductive StoresAll : Nat → List Value → List Value → Nat → Prop
  | nil {c : Nat} : StoresAll c [] [] c
  | cons {c c' d : Nat} {value target : Value} {rest targets : List Value} :
      Stores c value target c' → StoresAll c' rest targets d →
      StoresAll c (value :: rest) (target :: targets) d

end

mutual

/-- **Storing an expression** succeeds where all that is assigned to can be, and
else names the first node that cannot. -/
theorem store_names (value : Value) (h : Fits H (.node .expression) value) (c : Nat) :
    Names value.offenders (fun target d => Stores c value target d) ((store value).runFrom c) := by
  obtain ⟨head, fields, rfl, hrole, -, hfields⟩ := h.exists_node
  rw [store]
  by_cases hkind : head.kind = .tuple ∨ head.kind = .list
  · rw [elements_signature hkind] at hfields
    cases hfields with
    | cons helements hfields =>
      cases hfields with
      | cons hctx hfields =>
        cases hfields
        cases helements with
        | @list _ items hitems =>
          rw [offenders_sequence hkind hctx, ← List.append_nil (Value.offendersOfItems items)]
          simp only [Kind.isAssignable_of_sequence hkind, Bool.not_true, Bool.false_eq_true,
            if_false, if_pos hkind, pure_bind, storeElements, bind_assoc]
          refine (storeAll_names items hitems c).bind fun stored d hstored => ?_
          exact .sequence hkind hstored
  · rw [offenders_single hrole hkind hfields]
    cases hassignable : head.kind.isAssignable with
    | false => rfl
    | true =>
        obtain ⟨ctx, hctx⟩ := hfields.exists_get? (signature_of_isAssignable hassignable)
        simp only [hkind, if_false]
        exact .single hkind hassignable hctx
termination_by sizeOf value

theorem storeAll_names (items : List Value) (h : ItemsFit H (.node .expression) items) (c : Nat) :
    Names (Value.offendersOfItems items) (fun targets d => StoresAll c items targets d)
      ((storeAll items).runFrom c) := by
  cases h with
  | nil => exact .nil
  | @cons _ value rest hvalue hrest =>
      rw [storeAll, Value.offendersOfItems_cons]
      refine (store_names value hvalue c).bind fun target d htarget => ?_
      rw [← List.append_nil (Value.offendersOfItems rest)]
      refine (storeAll_names rest hrest d).bind fun targets last htargets => ?_
      exact .cons htarget htargets
termination_by sizeOf items

end

end Reading

end FunctionIR
