import FunctionIR.Proofs.Translation.Calls

/-!
# Identity numbers

All fragments are numbered by one counter, whatever translator makes them.  A
translation numbers a fragment in one step of its course, and no other step
touches the counter; so the fragments that are **made** on the way have
consecutive numbers, also where a fault ends the way (`map_fst_madeBy`,
`follow_nextId`).

In a fragment that is returned the numbers stand in the order in which they
were handed out: a generic node before its fields, a function after its
decorators, parameters and return annotation and before its body
(`Fragment.made`).  This is the order of the course and not the one in which
`Fragment.heads` lists the same nodes (`made_perm_heads`).

A history is a run of calls on any number of translators that share the
counter.  `numbers_of_history` says that no number is used twice in it.
-/

namespace FunctionIR

/-! ### Numbered nodes -/

namespace Fragment

mutual

/-- The nodes of a fragment with their numbers, in the order in which they
are numbered. -/
def made : Fragment → List (Nat × Head)
  | .function head decorators arguments returns body =>
    made decorators ++ (made arguments ++ (made returns ++
      (head.id, head.origin) :: madeOfList body))
  | .node id origin fields => (id, origin) :: madeOfFields fields
  | .list items => madeOfList items
  | .scalar _ => []

/-- The numbered nodes of several fragments. -/
def madeOfList : List Fragment → List (Nat × Head)
  | [] => []
  | item :: rest => made item ++ madeOfList rest

/-- The numbered nodes of named fragments. -/
def madeOfFields : List (String × Fragment) → List (Nat × Head)
  | [] => []
  | (_, value) :: rest => made value ++ madeOfFields rest

end

/-- The numbers in a fragment, in the order in which they are handed out. -/
def ids (fragment : Fragment) : List Nat := fragment.made.map Prod.fst

mutual

/-- The numbered nodes are the nodes that are listed parents first. -/
theorem made_perm_heads : (fragment : Fragment) →
    (fragment.made.map Prod.snd).Perm fragment.heads
  | .function head decorators arguments returns body => by
      have h := (((made_perm_heads decorators).append (made_perm_heads arguments)).append
        (made_perm_heads returns)).append (madeOfList_perm_heads body)
      rw [made, heads]
      simp only [List.map_append, List.map_cons, ← List.append_assoc] at h ⊢
      exact List.perm_middle.trans (h.cons head.origin)
  | .node id origin fields => by
      rw [made, heads]
      exact (madeOfFields_perm_heads fields).cons origin
  | .list items => by
      rw [made, heads]
      exact madeOfList_perm_heads items
  | .scalar _ => by rw [made, heads]; exact .nil

theorem madeOfList_perm_heads : (items : List Fragment) →
    ((madeOfList items).map Prod.snd).Perm (headsOfList items)
  | [] => .nil
  | item :: rest => by
      rw [madeOfList, headsOfList, List.map_append]
      exact (made_perm_heads item).append (madeOfList_perm_heads rest)

theorem madeOfFields_perm_heads : (fields : List (String × Fragment)) →
    ((madeOfFields fields).map Prod.snd).Perm (headsOfFields fields)
  | [] => .nil
  | (_, value) :: rest => by
      rw [madeOfFields, headsOfFields, List.map_append]
      exact (made_perm_heads value).append (madeOfFields_perm_heads rest)

end

/-- A fragment has as many numbered nodes as it has nodes. -/
theorem length_made (fragment : Fragment) : fragment.made.length = fragment.nodeCount := by
  rw [nodeCount, ← (made_perm_heads fragment).length_eq, List.length_map]

end Fragment

/-! ### Numbers from a counter -/

/-- Heads with the numbers from `id` on. -/
def numberFrom (id : Nat) (heads : List Head) : List (Nat × Head) :=
  (List.range' id heads.length).zip heads

/-- The first head gets the number, the others go on from the next. -/
theorem numberFrom_cons (id : Nat) (head : Head) (heads : List Head) :
    numberFrom id (head :: heads) = (id, head) :: numberFrom (id + 1) heads := by
  simp [numberFrom, List.range'_succ]

theorem numberFrom_append (id : Nat) (heads more : List Head) :
    numberFrom id (heads ++ more) = numberFrom id heads ++ numberFrom (id + heads.length) more := by
  induction heads generalizing id with
  | nil => rfl
  | cons head heads ih =>
      rw [List.cons_append, numberFrom_cons, numberFrom_cons, ih, List.cons_append,
        List.length_cons, Nat.add_assoc, Nat.add_comm 1]

/-- The heads of the fragments that the steps make. -/
def makings (steps : List Step) : List Head :=
  steps.filterMap fun
    | .make head => some head
    | _ => none

/-- No steps make nothing. -/
@[simp] theorem makings_nil : makings [] = [] := rfl

/-- A visit makes nothing. -/
@[simp] theorem makings_visit (v : Visit) (steps : List Step) :
    makings (.visit v :: steps) = makings steps := rfl

/-- A step that makes a node makes one. -/
@[simp] theorem makings_make (head : Head) (steps : List Step) :
    makings (.make head :: steps) = head :: makings steps := rfl

/-- The entering of a scope makes nothing. -/
@[simp] theorem makings_enter (name : String) (steps : List Step) :
    makings (.enter name :: steps) = makings steps := rfl

/-- The leaving of a scope makes nothing. -/
@[simp] theorem makings_leave (name : String) (steps : List Step) :
    makings (.leave name :: steps) = makings steps := rfl

/-- What two stretches of steps make, in turn. -/
@[simp] theorem makings_append (steps more : List Step) :
    makings (steps ++ more) = makings steps ++ makings more :=
  List.filterMap_append

/-- The fragments that are made while the steps are followed, up to the first
that is refused. -/
def madeBy (limit : Nat) : List Step → Translator → List (Nat × Head)
  | [], _ => []
  | step :: rest, t =>
    match step, step.take limit t with
    | .make head, (_, t') => (t.nextId, head) :: madeBy limit rest t'
    | _, (none, t') => madeBy limit rest t'
    | _, (some _, _) => []

/-- **What is made has consecutive numbers**, and the counter is after the last
of them, whether or not a step is refused. -/
theorem follow_nextId (limit : Nat) (steps : List Step) (t : Translator) :
    (follow limit steps t).2.nextId = t.nextId + (madeBy limit steps t).length ∧
      (madeBy limit steps t).map Prod.fst =
        List.range' t.nextId (madeBy limit steps t).length := by
  induction steps generalizing t with
  | nil => exact ⟨rfl, rfl⟩
  | cons step steps ih =>
      cases step with
      | visit v =>
          simp only [follow, madeBy, Step.take]
          cases v.fault limit with
          | none =>
              have h := ih (t.reach limit v)
              rwa [reach_nextId] at h
          | some fault => exact ⟨reach_nextId limit v t, rfl⟩
      | make head =>
          simp only [follow, madeBy, Step.take]
          obtain ⟨hnext, hids⟩ := ih { t with nextId := t.nextId + 1 }
          refine ⟨?_, ?_⟩
          · rw [hnext, List.length_cons, Nat.add_assoc, Nat.add_comm 1]
          · rw [List.map_cons, hids, List.length_cons, List.range'_succ]
      | enter name => exact ih _
      | leave name => exact ih _

/-- What is made depends on the counter alone. -/
theorem madeBy_congr (limit : Nat) (steps : List Step) {t t' : Translator}
    (h : t.nextId = t'.nextId) : madeBy limit steps t = madeBy limit steps t' := by
  induction steps generalizing t t' with
  | nil => rfl
  | cons step steps ih =>
      cases step with
      | visit v =>
          simp only [madeBy, Step.take]
          cases v.fault limit with
          | none => exact ih (by rw [reach_nextId, reach_nextId, h])
          | some fault => rfl
      | make head =>
          simp only [madeBy, Step.take]
          rw [@ih { t with nextId := t.nextId + 1 } { t' with nextId := t'.nextId + 1 }
            (congrArg (· + 1) h), h]
      | enter name => exact ih h
      | leave name => exact ih h

/-- Where nothing is refused, everything is made. -/
theorem madeBy_of_follow {limit : Nat} {steps : List Step} {t : Translator}
    (h : (follow limit steps t).1 = none) :
    madeBy limit steps t = numberFrom t.nextId (makings steps) := by
  induction steps generalizing t with
  | nil => rfl
  | cons step steps ih =>
      cases step with
      | visit v =>
          simp only [follow, madeBy, Step.take] at h ⊢
          cases hfault : v.fault limit with
          | none =>
              rw [hfault] at h
              have h := ih h
              rwa [reach_nextId] at h
          | some fault =>
              rw [hfault] at h
              cases h
      | make head =>
          simp only [follow, madeBy, Step.take] at h ⊢
          rw [ih h]
          exact (numberFrom_cons t.nextId head (makings steps)).symm
      | enter name => exact ih h
      | leave name => exact ih h

/-! ### Numbers in a rendered fragment -/

/-- A fragment that stands for what is absent. -/
inductive Absent : Fragment → Prop
  | list : Absent (.list [])
  | scalar : Absent (.scalar .none)

/-- What stands for something absent has no node. -/
theorem Absent.made {fragment : Fragment} (h : Absent fragment) : fragment.made = [] := by
  cases h <;> rfl

/-- The fragment has just the nodes that are made, numbered from `id`, and
`after` is the number after them. -/
def NumberedBy (id : Nat) (makings : List Head) (made : List (Nat × Head)) (after : Nat) : Prop :=
  made = numberFrom id makings ∧ after = id + makings.length

theorem NumberedBy.nil (id : Nat) : NumberedBy id [] [] id := ⟨rfl, rfl⟩

theorem NumberedBy.append {id middle after : Nat} {heads more : List Head}
    {made further : List (Nat × Head)} (h : NumberedBy id heads made middle)
    (hmore : NumberedBy middle more further after) :
    NumberedBy id (heads ++ more) (made ++ further) after := by
  obtain ⟨rfl, rfl⟩ := h
  obtain ⟨rfl, rfl⟩ := hmore
  exact ⟨(numberFrom_append id heads more).symm, by rw [List.length_append, Nat.add_assoc]⟩

/-- One node and then those below it. -/
theorem NumberedBy.cons {id after : Nat} (head : Head) {heads : List Head}
    {made : List (Nat × Head)} (h : NumberedBy (id + 1) heads made after) :
    NumberedBy id (head :: heads) ((id, head) :: made) after := by
  obtain ⟨rfl, rfl⟩ := h
  exact ⟨(numberFrom_cons id head heads).symm, by rw [List.length_cons]; omega⟩

mutual

/-- **A rendered fragment has the nodes that its course makes**, numbered in
that order. -/
theorem rendered_numbered (depth : Nat) (scope : Scope) (id : Nat) : (value : Value) →
    NumberedBy id (makings (course depth value)) (rendered scope id value).1.made
      (rendered scope id value).2
  | .scalar _ | .foreign _ => by
      rw [rendered, course]
      exact .nil id
  | .list items => by
      rw [rendered, course]
      exact renderedItems_numbered depth scope id items
  | .node head fields => by
      rcases head.kind.by_rule with hkind | hkind | hkind
      · rw [rendered_module hkind, course_module hkind]
        exact renderedFirst_numbered (depth + 1) scope id fields
      · rw [rendered_function hkind, course_function hkind]
        have hfield := fun id name absent habsent =>
          renderedField_numbered (depth + 1) scope id name absent habsent fields
        have hbody := fun id =>
          renderedBody_numbered (depth + 1) (scope.enter (nameIn fields)) id fields
        have h := (hfield id "decorator_list" _ .list).append
          ((hfield _ "args" _ .scalar).append ((hfield _ "returns" _ .scalar).append
            ((hbody _).cons head)))
        simpa [Fragment.made, functionHead] using h
      · rw [rendered_generic hkind, course_generic hkind]
        exact (renderedFields_numbered (depth + 1) head scope (id + 1) fields).cons head

theorem renderedItems_numbered (depth : Nat) (scope : Scope) (id : Nat) :
    (items : List Value) →
    NumberedBy id (makings (courseOfItems depth items))
      (Fragment.madeOfList (renderedItems scope id items).1) (renderedItems scope id items).2
  | [] => .nil id
  | item :: rest => by
      rw [renderedItems, courseOfItems, makings_append]
      exact (rendered_numbered depth scope id item).append
        (renderedItems_numbered depth scope _ rest)

theorem renderedFields_numbered (depth : Nat) (owner : Head) (scope : Scope) (id : Nat) :
    (fields : List (String × Value)) →
    NumberedBy id (makings (courseOfFields depth owner fields))
      (Fragment.madeOfFields (renderedFields scope id fields).1) (renderedFields scope id fields).2
  | [] => .nil id
  | (name, .foreign raw) :: rest => by
      rw [renderedFields, courseOfFields]
      exact renderedFields_numbered depth owner scope id rest
  | (name, .scalar _) :: rest | (name, .list _) :: rest | (name, .node _ _) :: rest => by
      simp only [renderedFields, courseOfFields, makings_append]
      exact (rendered_numbered depth scope id _).append
        (renderedFields_numbered depth owner scope _ rest)

theorem renderedField_numbered (depth : Nat) (scope : Scope) (id : Nat) (name : String)
    (absent : Fragment) (habsent : Absent absent) : (fields : List (String × Value)) →
    NumberedBy id (makings (courseOfField depth name fields))
      (renderedField scope id name absent fields).1.made
      (renderedField scope id name absent fields).2
  | [] => by
      rw [renderedField, courseOfField, habsent.made]
      exact .nil id
  | (key, value) :: rest => by
      rw [renderedField, courseOfField]
      split
      · exact rendered_numbered depth scope id value
      · exact renderedField_numbered depth scope id name absent habsent rest

theorem renderedBody_numbered (depth : Nat) (scope : Scope) (id : Nat) :
    (fields : List (String × Value)) →
    NumberedBy id (makings (courseOfBody depth fields))
      (Fragment.madeOfList (renderedBody scope id fields).1) (renderedBody scope id fields).2
  | [] => .nil id
  | (key, .list items) :: rest => by
      simp only [renderedBody, courseOfBody]
      split
      · exact renderedItems_numbered depth scope id items
      · exact renderedBody_numbered depth scope id rest
  | (key, .scalar _) :: rest | (key, .node _ _) :: rest | (key, .foreign _) :: rest => by
      simp only [renderedBody, courseOfBody]
      split
      · exact .nil id
      · exact renderedBody_numbered depth scope id rest

theorem renderedFirst_numbered (depth : Nat) (scope : Scope) (id : Nat) :
    (fields : List (String × Value)) →
    NumberedBy id (makings (courseOfFirst depth fields)) (renderedFirst scope id fields).1.made
      (renderedFirst scope id fields).2
  | [] => .nil id
  | (key, .list (first :: _)) :: rest => by
      simp only [renderedFirst, courseOfFirst]
      split
      · exact rendered_numbered depth scope id first
      · exact renderedFirst_numbered depth scope id rest
  | (key, .list []) :: rest | (key, .scalar _) :: rest | (key, .node _ _) :: rest
  | (key, .foreign _) :: rest => by
      simp only [renderedFirst, courseOfFirst]
      split
      · exact .nil id
      · exact renderedFirst_numbered depth scope id rest

end

/-! ### Histories -/

/-- What is asked of a translator. -/
inductive Request where
  | translate (tree : Node)
  | translateIn (tree : Node)
  | generate (value : Value)

/-- The value that is translated. -/
def Request.value : Request → Value
  | .translate tree | .translateIn tree => tree.toValue
  | .generate value => value

/-- A call: a translator, as it is when it is called, and what is asked of
it.  The counter is not its own. -/
structure Call where
  session : Session
  request : Request

namespace Call

/-- The translator that is called, with the common counter. -/
def ready (counter : Nat) (call : Call) : Session :=
  { call.session with
    translator := { call.session.translator with nextId := counter } }

/-- The outcome of the call, and the counter after it. -/
def run (counter : Nat) (call : Call) : Except Fault Fragment × Nat :=
  match call.request with
  | .translate tree =>
    let (outcome, after) := (call.ready counter).translate tree
    (outcome.map Function.toFragment, after.translator.nextId)
  | .translateIn tree =>
    let (outcome, after) := (call.ready counter).translateIn tree
    (outcome.map Function.toFragment, after.translator.nextId)
  | .generate value =>
    let (outcome, after) := (call.ready counter).generate value
    (outcome, after.translator.nextId)

/-- The fragments that are made in the call, with their numbers, whether or not
it succeeds. -/
def made (counter : Nat) (call : Call) : List (Nat × Head) :=
  madeBy call.session.config.maxDepth (course 0 call.request.value)
    (call.ready counter).translator

end Call

/-- Calls one after the other, each with the counter it starts from. -/
def history (counter : Nat) : List Call → List (Nat × Call)
  | [] => []
  | call :: rest => (counter, call) :: history (call.run counter).2 rest

/-- A rendered fragment has what is made where no step is refused. -/
theorem made_rendered {limit : Nat} {value : Value} {t : Translator}
    (h : (follow limit (course 0 value) t).1 = none) :
    (rendered t.scope t.nextId value).1.made = madeBy limit (course 0 value) t := by
  rw [madeBy_of_follow h]
  exact (rendered_numbered 0 t.scope t.nextId value).1

/-- **A call uses the numbers of what it makes**, and returns what it made if it
succeeds. -/
theorem Call.run_made (counter : Nat) (call : Call) :
    (call.run counter).2 = counter + (call.made counter).length ∧
      ∀ fragment, (call.run counter).1 = .ok fragment → fragment.made = call.made counter := by
  obtain ⟨session, request⟩ := call
  have htree (session : Session) (tree : Node) :
      ∀ fragment, (session.translateIn tree).1.map Function.toFragment = .ok fragment →
        fragment.made =
          madeBy session.config.maxDepth (course 0 tree.toValue) session.translator := by
    intro fragment h
    cases hok : (session.translateIn tree).1 with
    | error fault => simp [hok, Except.map] at h
    | ok function =>
        obtain ⟨hfollow, hrendered⟩ := Session.translateIn_eq_ok.mp hok
        obtain rfl : function.toFragment = fragment := by simpa [hok, Except.map] using h
        rw [← hrendered]
        exact made_rendered hfollow
  cases request with
  | translate tree =>
      -- The scope is another one, but what is made does not depend on it.
      have hmade : madeBy session.config.maxDepth (course 0 tree.toValue)
          (ready counter ⟨session, .translate tree⟩).atTop.translator =
            Call.made counter ⟨session, .translate tree⟩ := madeBy_congr _ _ rfl
      rw [← hmade]
      refine ⟨?_, htree (ready counter ⟨session, .translate tree⟩).atTop tree⟩
      exact (Session.nextId_translateIn tree).trans (follow_nextId _ _ _).1
  | translateIn tree =>
      refine ⟨?_, htree (ready counter ⟨session, .translateIn tree⟩) tree⟩
      exact (Session.nextId_translateIn tree).trans (follow_nextId _ _ _).1
  | generate value =>
      refine ⟨(Session.nextId_generate value).trans (follow_nextId _ _ _).1, fun fragment h => ?_⟩
      obtain ⟨hfollow, hrendered⟩ := Session.generate_eq_ok.mp h
      rw [← hrendered]
      exact made_rendered hfollow

/-- What a call makes is numbered from the counter on. -/
theorem Call.map_fst_made (counter : Nat) (call : Call) :
    (call.made counter).map Prod.fst = List.range' counter (call.made counter).length :=
  (follow_nextId _ _ _).2

/-- The fragments that are made in a history have consecutive numbers. -/
theorem map_fst_history (counter : Nat) (calls : List Call) :
    ∃ n, ((history counter calls).flatMap fun (start, call) => call.made start).map Prod.fst =
      List.range' counter n := by
  induction calls generalizing counter with
  | nil => exact ⟨0, rfl⟩
  | cons call calls ih =>
      obtain ⟨n, hn⟩ := ih (call.run counter).2
      refine ⟨(call.made counter).length + n, ?_⟩
      rw [history, List.flatMap_cons, List.map_append, hn, call.map_fst_made,
        (call.run_made counter).1, List.range'_append_1]

/-- **No number is used twice** in a history, also not by fragments that are
made in a call that fails.  A call uses up a number for each fragment that it
makes.  A call that succeeds returns what it made, numbered without a gap from
the counter on, in the order that `Fragment.made` tells. -/
theorem numbers_of_history (counter : Nat) (calls : List Call) :
    (((history counter calls).flatMap fun (start, call) => call.made start).map
        Prod.fst).Nodup ∧
      ∀ entry ∈ history counter calls,
        (entry.2.run entry.1).2 = entry.1 + (entry.2.made entry.1).length ∧
        ∀ fragment, (entry.2.run entry.1).1 = .ok fragment →
          fragment.made = entry.2.made entry.1 ∧
          fragment.ids = List.range' entry.1 fragment.nodeCount := by
  refine ⟨?_, fun (start, call) _ => ?_⟩
  · obtain ⟨n, hn⟩ := map_fst_history counter calls
    rw [hn]
    exact List.nodup_range'
  · obtain ⟨hnext, hok⟩ := call.run_made start
    refine ⟨hnext, fun fragment h => ?_⟩
    have hmade := hok fragment h
    refine ⟨hmade, ?_⟩
    rw [Fragment.ids, hmade, call.map_fst_made, ← hmade, fragment.length_made]

end FunctionIR
