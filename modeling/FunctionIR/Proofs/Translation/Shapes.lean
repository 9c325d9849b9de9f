import FunctionIR.Proofs.Translation.Anonymity
import FunctionIR.Proofs.Translation.Faces
import FunctionIR.Proofs.Translation.Identity
import FunctionIR.Proofs.Translation.Likeness

/-!
# The laws of shapes

Having one shape is symmetric and transitive, and a fragment has its own shape
unless there is a double in it that is not a number (`oneShape_self_iff`).  All
of this is seen on faces.

No face shows a number (`sameShape_anonymous`).  Two calls for the same return
the same but for numbers (`Call.run_anonymous`), so what they return has one
shape; and a counter that only goes up gives them different numbers.

What is counted or listed in fragments of one shape is the same: the nodes, the
functions with what they show, and, where every function comes from a function
definition, the kinds in the order of a walk.  In what a translation returns
every function does (`Built.fromDefinitions`).
-/

namespace FunctionIR

/-! ### An equivalence -/

/-- A number equals itself exactly if it is one. -/
theorem Binary64.numEq_self_iff (x : Binary64) : x.numEq x = true ↔ x.isNaN = false := by
  simp [numEq]

/-- A scalar agrees with itself exactly if it is not the double that is no number. -/
theorem Scalar.agrees_self_iff (s : Scalar) :
    s.agrees s = true ↔ ∀ x, s = .real x → x.isNaN = false := by
  cases s <;> simp [agrees, Binary64.numEq_self_iff]

/-- Scalars agree both ways. -/
theorem Scalar.agrees_symm {s s' : Scalar} (h : s.agrees s' = true) : s'.agrees s = true := by
  cases s <;> cases s' <;> simp only [agrees, Binary64.numEq, Bool.false_eq_true] at h ⊢ <;> grind

/-- Scalars that agree with one in between agree. -/
theorem Scalar.agrees_trans {s s' s'' : Scalar} (h : s.agrees s' = true)
    (h' : s'.agrees s'' = true) : s.agrees s'' = true :=
  agrees_of_common h (agrees_symm h')

namespace Fragment

namespace Face

/-- A face agrees with itself exactly if it is not the double that is no number. -/
theorem agrees_self_iff (face : Face) :
    face.Agrees face ↔ ∀ x, face = .scalar (.real x) → x.isNaN = false := by
  cases face <;> simp [Agrees, Scalar.agrees_self_iff]

theorem Agrees.symm {face other : Face} (h : face.Agrees other) : other.Agrees face := by
  cases face <;> cases other <;> first | exact Scalar.agrees_symm h | exact Eq.symm h

theorem Agrees.trans {face other third : Face} (h : face.Agrees other)
    (h' : other.Agrees third) : face.Agrees third := by
  cases face <;> cases other <;> cases third <;>
    first | exact Scalar.agrees_trans h h' | exact Eq.trans h h' | cases h | cases h'

end Face

/-- No leaf of the fragment is a double that is not a number. -/
def NaNFree : Fragment → Prop :=
  Throughout fun fragment => ∀ x, fragment = .scalar (.real x) → x.isNaN = false

/-- **A fragment has its own shape** unless some double in it is not a number. -/
theorem oneShape_self_iff (fragment : Fragment) :
    OneShape fragment fragment ↔ fragment.NaNFree := by
  induction fragment using induction_on_parts with
  | step fragment ih =>
      have hface : fragment.face.Agrees fragment.face ↔
          ∀ x, fragment = .scalar (.real x) → x.isNaN = false := by
        rw [Face.agrees_self_iff]
        cases fragment <;> simp [face]
      rw [oneShape_iff_parts, NaNFree, throughout_iff, hface, List.forall₂_same]
      exact and_congr_right fun _ => forall₂_congr ih

theorem OneShape.symm {a b : Fragment} (h : OneShape a b) : OneShape b a := by
  rw [oneShape_iff_faces] at h ⊢
  intro path
  have hpath := h path
  generalize (a.at? path).map face = here, (b.at? path).map face = there at hpath ⊢
  cases hpath with
  | none => exact .none
  | some hagrees => exact .some hagrees.symm

theorem OneShape.trans {a b c : Fragment} (h : OneShape a b) (h' : OneShape b c) :
    OneShape a c := by
  rw [oneShape_iff_faces] at h h' ⊢
  intro path
  have hpath := h path
  have hpath' := h' path
  generalize (a.at? path).map face = first, (b.at? path).map face = second,
    (c.at? path).map face = third at hpath hpath' ⊢
  cases hpath with
  | none => exact hpath'
  | some hagrees =>
      cases hpath' with
      | some hagrees' => exact .some (hagrees.trans hagrees')

/-! ### What fragments of one shape have in common -/

/-- What is told of the parts of related lists part by part is the same. -/
theorem flatMap_congr {α β : Type} {R : α → α → Prop} {f : α → List β} {as bs : List α}
    (h : List.Forall₂ R as bs) (hf : ∀ a ∈ as, ∀ b ∈ bs, R a b → f a = f b) :
    as.flatMap f = bs.flatMap f := by
  induction h with
  | nil => rfl
  | @cons a b as bs hab hrest ih =>
      rw [List.flatMap_cons, List.flatMap_cons,
        hf a List.mem_cons_self b List.mem_cons_self hab,
        ih fun a ha b hb => hf a (List.mem_cons_of_mem _ ha) b (List.mem_cons_of_mem _ hb)]

/-- The head of the fragment itself, if it is a node. -/
def ownHeads : Fragment → List Head
  | .function head _ _ _ _ => [head.origin]
  | .node _ origin _ => [origin]
  | .list _ | .scalar _ => []

/-- The heads of several fragments, in turn. -/
theorem headsOfList_eq (items : List Fragment) : headsOfList items = items.flatMap heads := by
  induction items with
  | nil => rfl
  | cons item rest ih => rw [headsOfList, List.flatMap_cons, ih]

/-- The heads of fields, in turn. -/
theorem headsOfFields_eq (fields : List (String × Fragment)) :
    headsOfFields fields = (fields.map Prod.snd).flatMap heads := by
  induction fields with
  | nil => rfl
  | cons field rest ih => rw [headsOfFields, List.map_cons, List.flatMap_cons, ih]

/-- A walk visits a fragment and then its parts. -/
theorem heads_eq (fragment : Fragment) :
    fragment.heads = fragment.ownHeads ++ fragment.parts.flatMap heads := by
  cases fragment with
  | scalar => rfl
  | list items => exact headsOfList_eq items
  | node id origin fields => rw [heads, headsOfFields_eq]; rfl
  | function head decorators arguments returns body =>
      simp [heads, headsOfList_eq, ownHeads, parts]

/-- A fact about heads that faces and kinds decide is told alike by walks of one
shape. -/
theorem map_heads_of_oneShape {α : Type} {f : Head → α} {P : Fragment → Prop}
    (hown : ∀ a b, P a → P b → a.face.Agrees b.face → a.ownHeads.map f = b.ownHeads.map f)
    {a b : Fragment} (h : OneShape a b) (ha : a.Throughout P) (hb : b.Throughout P) :
    a.heads.map f = b.heads.map f := by
  induction a using induction_on_parts generalizing b with
  | step a ih =>
      obtain ⟨hface, hparts⟩ := (oneShape_iff_parts a b).mp h
      obtain ⟨haself, haparts⟩ := throughout_iff.mp ha
      obtain ⟨hbself, hbparts⟩ := throughout_iff.mp hb
      rw [heads_eq a, heads_eq b, List.map_append, List.map_append, List.map_flatMap,
        List.map_flatMap, hown a b haself hbself hface]
      exact congrArg _ (flatMap_congr hparts fun part hpart part' hpart' hone =>
        ih part hpart hone (haparts part hpart) (hbparts part' hpart'))

/-- **Fragments of one shape have as many nodes.** -/
theorem nodeCount_of_oneShape {a b : Fragment} (h : OneShape a b) : a.nodeCount = b.nodeCount := by
  have hmap := map_heads_of_oneShape (f := fun _ => ()) (P := fun _ => True)
    (fun a b _ _ hface => by cases a <;> cases b <;> first | rfl | cases hface) h
    (fun _ _ _ => trivial) fun _ _ _ => trivial
  simpa [nodeCount] using congrArg List.length hmap

/-- The origin of a function is a function definition. -/
def FromDefinition (fragment : Fragment) : Prop :=
  ∀ head decorators arguments returns body,
    fragment = .function head decorators arguments returns body → head.origin.kind = .functionDef

/-- **Fragments of one shape are walked through the same kinds**, if their
functions come from function definitions. -/
theorem kinds_of_oneShape {a b : Fragment} (h : OneShape a b) (ha : a.Throughout FromDefinition)
    (hb : b.Throughout FromDefinition) : a.heads.map Head.kind = b.heads.map Head.kind := by
  refine map_heads_of_oneShape (fun a b hadef hbdef hface => ?_) h ha hb
  cases a <;> cases b <;> first | rfl | cases hface | skip
  · simp only [ownHeads, List.map_cons, List.map_nil, hadef _ _ _ _ _ rfl, hbdef _ _ _ _ _ rfl]
  · simp only [ownHeads, List.map_cons, List.map_nil, (Face.node.inj hface).1]

/-- The functions of several fragments, in turn. -/
theorem functionsOfList_eq (items : List Fragment) :
    functionsOfList items = items.flatMap functions := by
  induction items with
  | nil => rfl
  | cons item rest ih => rw [functionsOfList, List.flatMap_cons, ih]

/-- The functions of fields, in turn. -/
theorem functionsOfFields_eq (fields : List (String × Fragment)) :
    functionsOfFields fields = (fields.map Prod.snd).flatMap functions := by
  induction fields with
  | nil => rfl
  | cons field rest ih => rw [functionsOfFields, List.map_cons, List.flatMap_cons, ih]

end Fragment

namespace Function

/-- What the registry would keep of a function, its number apart. -/
def profile (f : Function) : Registration := { f.registration with id := 0 }

/-- Nodes are counted by the kinds of a walk. -/
theorem histogram_eq (f : Function) :
    f.histogram = (f.toFragment.heads.map Head.kind).foldl
      (fun counts kind => tallyTag kind.tag counts) [] := by
  rw [histogram, List.foldl_map]

end Function

namespace Fragment

/-- **Fragments of one shape have the same functions**, by name, qualified name,
line, column and number of nodes. -/
theorem functions_of_oneShape {a b : Fragment} (h : OneShape a b) :
    a.functions.map Function.profile = b.functions.map Function.profile := by
  induction a using induction_on_parts generalizing b with
  | step a ih =>
      have hcount := nodeCount_of_oneShape h
      obtain ⟨hface, hparts⟩ := (oneShape_iff_parts a b).mp h
      have hfunctions {items others : List Fragment} (hitems : ∀ item ∈ items, item ∈ a.parts)
          (hall : List.Forall₂ OneShape items others) :
          (items.flatMap functions).map Function.profile =
            (others.flatMap functions).map Function.profile := by
        rw [List.map_flatMap, List.map_flatMap]
        exact flatMap_congr hall fun item hitem _ _ hone => ih item (hitems item hitem) hone
      cases a <;> cases b <;> first | rfl | (cases hface; done) | skip
      case function.function =>
          obtain ⟨hname, hqualified, hline, hcolumn⟩ := Face.function.inj hface
          simp only [parts, List.forall₂_cons] at hparts
          rw [functions, functions, List.map_cons, List.map_cons, functionsOfList_eq,
            functionsOfList_eq]
          refine congrArg₂ List.cons ?_ (hfunctions (fun item hitem => ?_) hparts.2.2.2)
          · simp only [Function.profile, Function.registration, hname, hqualified, hline, hcolumn,
              Function.nodeCount, Function.toFragment, hcount]
          · simp only [parts, List.mem_cons, hitem, or_true]
      case node.node =>
          rw [functions, functions, functionsOfFields_eq, functionsOfFields_eq]
          exact hfunctions (fun _ h => h) hparts
      case list.list =>
          rw [functions, functions, functionsOfList_eq, functionsOfList_eq]
          exact hfunctions (fun _ h => h) hparts

/-! ### Numbers do not show -/

/-- Anonymous items, one by one. -/
theorem anonymousItems_eq (items : List Fragment) :
    anonymousItems items = items.map anonymous := by
  induction items with
  | nil => rfl
  | cons item rest ih => rw [anonymousItems, List.map_cons, ih]

/-- Anonymous fields, one by one. -/
theorem anonymousFields_eq (fields : List (String × Fragment)) :
    anonymousFields fields = fields.map fun field => (field.1, field.2.anonymous) := by
  induction fields with
  | nil => rfl
  | cons field rest ih => rw [anonymousFields, List.map_cons, ih]

/-- The parts of an anonymous fragment are the anonymous parts. -/
theorem parts_anonymous (fragment : Fragment) :
    fragment.anonymous.parts = fragment.parts.map anonymous := by
  cases fragment with
  | scalar => rfl
  | list items => exact anonymousItems_eq items
  | node id origin fields =>
      rw [anonymous, parts, parts, anonymousFields_eq, List.map_map, List.map_map]
      rfl
  | function head decorators arguments returns body =>
      rw [anonymous, parts, parts, anonymousItems_eq]
      rfl

/-- The face of a fragment does not show its numbers. -/
theorem face_anonymous (fragment : Fragment) : fragment.anonymous.face = fragment.face := by
  cases fragment with
  | scalar | list | function => rfl
  | node id origin fields =>
      rw [anonymous, face, face, anonymousFields_eq, List.map_map]
      rfl

/-- No shape depends on numbers. -/
theorem sameShape_anonymous (a b : Fragment) :
    a.anonymous.sameShape b.anonymous = a.sameShape b :=
  sameShape_of_unseen parts_anonymous parts_anonymous face_anonymous face_anonymous a b

/-- Fragments that are the same but for numbers have the same shapes. -/
theorem sameShape_congr {a a' b b' : Fragment} (h : a.anonymous = a'.anonymous)
    (h' : b.anonymous = b'.anonymous) : a.sameShape b = a'.sameShape b' := by
  rw [← sameShape_anonymous a, ← sameShape_anonymous a', h, h']

end Fragment

/-! ### Calls -/

namespace Session

variable {session other : Session}

/-- A value is translated in the same scope with the same bound to the same
fragment but for numbers, or with the same fault. -/
theorem generate_anonymous (value : Value)
    (hconfig : other.config = session.config)
    (hscope : other.translator.scope = session.translator.scope) :
    (other.generate value).1.map Fragment.anonymous =
      (session.generate value).1.map Fragment.anonymous := by
  have hfault : (follow session.config.maxDepth (course 0 value) other.translator).1 =
      (follow session.config.maxDepth (course 0 value) session.translator).1 := by
    rw [follow_fault, follow_fault]
  have hrendered : (rendered session.translator.scope other.translator.nextId value).1.anonymous =
      (rendered session.translator.scope session.translator.nextId value).1.anonymous := by
    have h := rendered_anonymous value session.translator.scope
    rw [← h _ session.translator.nextId, ← h _ session.translator.nextId]
  have hrun := follows_value session.config 0 value session.translator
  have hrun' := follows_value session.config 0 value other.translator
  simp only [Session.generate, hconfig]
  generalize follow session.config.maxDepth (course 0 value) session.translator = followed,
    follow session.config.maxDepth (course 0 value) other.translator = followed'
    at hfault hrun hrun'
  obtain ⟨refused, after⟩ := followed
  obtain ⟨refused', after'⟩ := followed'
  obtain rfl : refused' = refused := hfault
  cases refused' with
  | some fault =>
      simp only at hrun hrun'
      rw [hrun, hrun']
  | none =>
      rw [hrun.1, hrun'.1, hscope]
      exact congrArg Except.ok hrendered

/-- A tree is translated in the same scope with the same choices to the same
function but for numbers, or with the same fault. -/
theorem translateIn_anonymous (tree : Node) (hconfig : other.config = session.config)
    (hscope : other.translator.scope = session.translator.scope) :
    (other.translateIn tree).1.map Function.anonymous =
      (session.translateIn tree).1.map Function.anonymous := by
  rw [(translateIn_run tree).1, (translateIn_run tree).1, hconfig,
    ← run_translateTree_anonymous session.config tree hscope.symm,
    ← run_translateTree_anonymous session.config tree rfl]

end Session

/-- A function without numbers is one as a fragment. -/
theorem map_toFragment_anonymous (outcome : Except Fault Function) :
    (outcome.map Function.toFragment).map Fragment.anonymous =
      (outcome.map Function.anonymous).map Function.toFragment := by
  cases outcome <;> rfl

namespace Call

/-- The calls ask for the same, with the same choices and in the same scope. -/
structure Repeats (second first : Call) : Prop where
  request : second.request = first.request
  config : second.session.config = first.session.config
  scope : second.session.translator.scope = first.session.translator.scope

/-- **A call that is repeated returns the same but for numbers**, or the same
fault. -/
theorem Repeats.run_anonymous {second first : Call} (h : second.Repeats first)
    (counter counter' : Nat) :
    (second.run counter').1.map Fragment.anonymous =
      (first.run counter).1.map Fragment.anonymous := by
  obtain ⟨session, request⟩ := first
  obtain ⟨other, request'⟩ := second
  obtain ⟨hrequest, hconfig, hscope⟩ := h
  obtain rfl : request' = request := hrequest
  cases request' with
  | translate tree =>
      have h : ((ready counter' ⟨other, .translate tree⟩).translate tree).1.map
            Function.anonymous =
          ((ready counter ⟨session, .translate tree⟩).translate tree).1.map Function.anonymous :=
        @Session.translate_anonymous (ready counter ⟨session, .translate tree⟩)
          (ready counter' ⟨other, .translate tree⟩) hconfig tree tree rfl
      simp only [run, map_toFragment_anonymous, h]
  | translateIn tree =>
      have h : ((ready counter' ⟨other, .translateIn tree⟩).translateIn tree).1.map
            Function.anonymous =
          ((ready counter ⟨session, .translateIn tree⟩).translateIn tree).1.map
            Function.anonymous :=
        Session.translateIn_anonymous tree hconfig hscope
      simp only [run, map_toFragment_anonymous, h]
  | generate value =>
      have h : ((ready counter' ⟨other, .generate value⟩).generate value).1.map
            Fragment.anonymous =
          ((ready counter ⟨session, .generate value⟩).generate value).1.map Fragment.anonymous :=
        Session.generate_anonymous value hconfig hscope
      exact h

/-- The numbers in what a call returns are handed out in the call. -/
theorem mem_ids {call : Call} {counter : Nat} {fragment : Fragment}
    (h : (call.run counter).1 = .ok fragment) {id : Nat} (hid : id ∈ fragment.ids) :
    counter ≤ id ∧ id < (call.run counter).2 := by
  obtain ⟨hafter, hmade⟩ := call.run_made counter
  rw [Fragment.ids, hmade fragment h, call.map_fst_made, List.mem_range'_1] at hid
  rw [hafter]
  exact hid

/-- What a call returns is rendered from what is asked. -/
theorem exists_rendered {call : Call} {counter : Nat} {fragment : Fragment}
    (h : (call.run counter).1 = .ok fragment) :
    ∃ scope, (rendered scope counter call.request.value).1 = fragment := by
  obtain ⟨session, request⟩ := call
  have htree (session : Session) (tree : Node)
      (h : (session.translateIn tree).1.map Function.toFragment = .ok fragment) :
      ∃ scope, (rendered scope session.translator.nextId tree.toValue).1 = fragment := by
    cases hok : (session.translateIn tree).1 with
    | error fault => simp [hok, Except.map] at h
    | ok function =>
        obtain rfl : function.toFragment = fragment := by simpa [hok, Except.map] using h
        exact ⟨_, (Session.translateIn_eq_ok.mp hok).2⟩
  cases request with
  | translate tree => exact htree (ready counter ⟨session, .translate tree⟩).atTop tree h
  | translateIn tree => exact htree (ready counter ⟨session, .translateIn tree⟩) tree h
  | generate value => exact ⟨_, (Session.generate_eq_ok.mp h).2⟩

end Call

namespace Fragment

/-- The fragment is returned by a call, or is inside one that is. -/
def Built (fragment : Fragment) : Prop :=
  ∃ (call : Call) (counter : Nat) (whole : Fragment) (path : List Nat),
    (call.run counter).1 = .ok whole ∧ whole.at? path = some fragment

end Fragment

/-- Every item is rendered on its own. -/
theorem mem_renderedItems {scope : Scope} {items : List Value} {id : Nat} {fragment : Fragment}
    (h : fragment ∈ (renderedItems scope id items).1) :
    ∃ item ∈ items, ∃ id, (rendered scope id item).1 = fragment := by
  induction items generalizing id with
  | nil => cases h
  | cons item rest ih =>
      rcases List.mem_cons.mp h with rfl | h
      · exact ⟨item, List.mem_cons_self, id, rfl⟩
      · obtain ⟨found, hfound, hrendered⟩ := ih h
        exact ⟨found, List.mem_cons_of_mem _ hfound, hrendered⟩

/-- Every field is rendered on its own. -/
theorem mem_renderedFields {scope : Scope} {fields : Fields} {id : Nat}
    {field : String × Fragment} (h : field ∈ (renderedFields scope id fields).1) :
    ∃ source ∈ fields, ∃ id, (rendered scope id source.2).1 = field.2 := by
  induction fields generalizing id with
  | nil => cases h
  | cons source rest ih =>
      rcases List.mem_cons.mp h with rfl | h
      · exact ⟨source, List.mem_cons_self, id, rfl⟩
      · obtain ⟨found, hfound, hrendered⟩ := ih h
        exact ⟨found, List.mem_cons_of_mem _ hfound, hrendered⟩

open Fragment (Throughout FromDefinition throughout_iff)

/-- What is rendered for an absent field has no function. -/
theorem Absent.fromDefinition {fragment : Fragment} (h : Absent fragment) :
    fragment.Throughout FromDefinition := by
  cases h <;> exact throughout_iff.mpr ⟨by rintro _ _ _ _ _ ⟨⟩, List.forall_mem_nil _⟩

/-- **Every rendered function comes from a function definition.** -/
theorem rendered_fromDefinition (value : Value) (scope : Scope) (id : Nat) :
    (rendered scope id value).1.Throughout FromDefinition := by
  induction value using Value.induction_by_rule generalizing scope id with
  | scalar s | foreign raw =>
      rw [rendered]
      exact throughout_iff.mpr ⟨by rintro _ _ _ _ _ ⟨⟩, List.forall_mem_nil _⟩
  | list items ih =>
      rw [rendered]
      refine throughout_iff.mpr ⟨by rintro _ _ _ _ _ ⟨⟩, fun part hpart => ?_⟩
      obtain ⟨item, hitem, id', rfl⟩ := mem_renderedItems hpart
      exact ih item hitem scope id'
  | module head fields hkind ih =>
      rw [rendered_module hkind, renderedFirst_eq]
      cases hfirst : (statementsIn fields).head? with
      | none => exact Absent.scalar.fromDefinition
      | some first => exact ih first (List.mem_of_mem_head? hfirst) scope id
  | function head fields hkind ihfield ihbody =>
      have hfield {name : String} {absent : Fragment} (habsent : Absent absent) (id : Nat) :
          (renderedField scope id name absent fields).1.Throughout FromDefinition := by
        rw [renderedField_eq]
        cases hvalue : Members.get? name fields with
        | none => exact habsent.fromDefinition
        | some value => exact ihfield name value hvalue scope id
      rw [rendered_function hkind]
      refine throughout_iff.mpr ⟨?_, fun part hpart => ?_⟩
      · rintro _ _ _ _ _ ⟨⟩
        exact hkind
      · simp only [Fragment.parts, List.mem_cons] at hpart
        rcases hpart with rfl | rfl | rfl | hpart
        · exact hfield .list _
        · exact hfield .scalar _
        · exact hfield .scalar _
        · rw [renderedBody_eq] at hpart
          obtain ⟨item, hitem, id', rfl⟩ := mem_renderedItems hpart
          exact ihbody item hitem _ id'
  | generic head fields hkind ih =>
      rw [rendered_generic hkind]
      refine throughout_iff.mpr ⟨by rintro _ _ _ _ _ ⟨⟩, fun part hpart => ?_⟩
      obtain ⟨field, hfield, rfl⟩ := List.mem_map.mp hpart
      obtain ⟨source, hsource, id', hrendered⟩ := mem_renderedFields hfield
      rw [← hrendered]
      exact ih source hsource scope id'

theorem Fragment.at?_append (fragment : Fragment) (path more : List Nat) :
    fragment.at? (path ++ more) = (fragment.at? path).bind fun found => found.at? more := by
  induction path generalizing fragment with
  | nil => rfl
  | cons i path ih =>
      rw [List.cons_append, at?, at?]
      cases fragment.parts[i]? with
      | none => rfl
      | some part => exact ih part

/-- All fragments of a built one come from definitions. -/
theorem Fragment.Built.fromDefinition {fragment : Fragment} (h : fragment.Built) :
    fragment.Throughout FromDefinition := by
  obtain ⟨call, counter, whole, path, hrun, hpath⟩ := h
  obtain ⟨scope, rfl⟩ := Call.exists_rendered hrun
  intro more found hfound
  refine rendered_fromDefinition call.request.value scope counter (path ++ more) found ?_
  rw [Fragment.at?_append, hpath, Option.bind_some, hfound]

/-- **The laws of shapes.**  Having one shape is symmetric and transitive, and
reflexive on the fragments without NaN and no others.  A call that is repeated
later, with any counter that is not behind, fails with the same fault or returns
a fragment with other numbers, of the same shape if there is no NaN in it.
Fragments of one shape have as many nodes and the same functions one by one, and
what a translation built is walked through the same kinds, and counted by
kind, like everything of its shape that a translation built. -/
theorem laws_of_shapes :
    (∀ a b c : Fragment, (a.sameShape a = true ↔ a.NaNFree) ∧
      (a.sameShape b = true → b.sameShape a = true) ∧
      (a.sameShape b = true → b.sameShape c = true → a.sameShape c = true)) ∧
    (∀ (first second : Call) (counter counter' : Nat), second.Repeats first →
      (first.run counter).2 ≤ counter' →
      match (first.run counter).1, (second.run counter').1 with
      | .ok a, .ok b => (a.NaNFree ↔ b.NaNFree) ∧ (a.sameShape b = true ↔ a.NaNFree) ∧
          a.ids.Disjoint b.ids
      | .error fault, .error fault' => fault' = fault
      | _, _ => False) ∧
    (∀ a b : Fragment, a.sameShape b = true →
      a.nodeCount = b.nodeCount ∧
      a.functions.map Function.profile = b.functions.map Function.profile ∧
      (a.Built → b.Built → a.heads.map Head.kind = b.heads.map Head.kind)) ∧
    (∀ f g : Function, f.toFragment.sameShape g.toFragment = true →
      f.nodeCount = g.nodeCount ∧
      f.nested.map Function.profile = g.nested.map Function.profile ∧
      (f.toFragment.Built → g.toFragment.Built → f.histogram = g.histogram)) := by
  -- the shape tells kinds of nodes only where all functions come from definitions
  have hkinds {a b : Fragment} (h : a.sameShape b = true) (ha : a.Built) (hb : b.Built) :
      a.heads.map Head.kind = b.heads.map Head.kind :=
    Fragment.kinds_of_oneShape h ha.fromDefinition hb.fromDefinition
  refine ⟨fun a b c => ⟨a.oneShape_self_iff, Fragment.OneShape.symm, Fragment.OneShape.trans⟩,
    fun first second counter counter' hrepeats hcounter => ?_,
    fun a b h => ⟨Fragment.nodeCount_of_oneShape h, Fragment.functions_of_oneShape h, hkinds h⟩,
    fun f g h => ⟨Fragment.nodeCount_of_oneShape h, ?_, fun hf hg => ?_⟩⟩
  · have hsame := hrepeats.run_anonymous counter counter'
    cases hfirst : (first.run counter).1 with
    | error fault =>
        cases hsecond : (second.run counter').1 with
        | error fault' =>
            rw [hfirst, hsecond] at hsame
            exact Except.error.inj hsame
        | ok b =>
            rw [hfirst, hsecond] at hsame
            cases hsame
    | ok a =>
        cases hsecond : (second.run counter').1 with
        | error fault' =>
            rw [hfirst, hsecond] at hsame
            cases hsame
        | ok b =>
            rw [hfirst, hsecond] at hsame
            have hanonymous : b.anonymous = a.anonymous := Except.ok.inj hsame
            refine ⟨?_, ?_, fun id ha hb => ?_⟩
            · rw [← a.oneShape_self_iff, ← b.oneShape_self_iff, Fragment.OneShape,
                Fragment.OneShape, Fragment.sameShape_congr hanonymous hanonymous]
            · rw [← a.oneShape_self_iff, Fragment.OneShape,
                Fragment.sameShape_congr rfl hanonymous]
            · have ha := Call.mem_ids hfirst ha
              have hb := Call.mem_ids hsecond hb
              omega
  · have hall := Fragment.functions_of_oneShape h
    simp only [Function.toFragment, Fragment.functions, List.map_cons, List.cons.injEq] at hall
    exact hall.2
  · rw [Function.histogram_eq, Function.histogram_eq, hkinds h hf hg]

/-- A function in a function is translated twice to functions of one shape with
different numbers. -/
theorem laws_of_shapes_nested :
    let text := "@d(1)\ndef f(x=2):\n    def g():\n        pass\n"
    let session := Session.begin .standard "_"
    ∃ tree, ((Source.ofText "m" text .program).tree.runFrom 1).1 = .ok tree ∧
      let call := Call.mk session (.translate tree)
      ∃ a, (call.run 1).1 = .ok a ∧ ∃ b, (call.run 40).1 = .ok b ∧
        (call.run 1).2 ≤ 40 ∧ call.Repeats call ∧ a.NaNFree ∧ a.Built ∧ b.Built ∧
        a.sameShape b = true ∧ a.ids.Disjoint b.ids ∧
        a.heads.map Head.kind = b.heads.map Head.kind := by
  intro text session
  obtain ⟨tree, htree, a, ha, b, hb, hcounter, hself⟩ :
      ∃ tree, ((Source.ofText "m" text .program).tree.runFrom 1).1 = .ok tree ∧
        ∃ a, ((Call.mk session (.translate tree)).run 1).1 = .ok a ∧
          ∃ b, ((Call.mk session (.translate tree)).run 40).1 = .ok b ∧
            ((Call.mk session (.translate tree)).run 1).2 ≤ 40 ∧ a.sameShape a = true := by
    decide +kernel
  have hrepeats : (Call.mk session (.translate tree)).Repeats ⟨session, .translate tree⟩ :=
    ⟨rfl, rfl, rfl⟩
  have hbuilt : a.Built := ⟨_, _, a, [], ha, rfl⟩
  have hbuilt' : b.Built := ⟨_, _, b, [], hb, rfl⟩
  have hnan : a.NaNFree := (laws_of_shapes.1 a a a).1.mp hself
  have htwice := laws_of_shapes.2.1 _ _ 1 40 hrepeats hcounter
  rw [ha, hb] at htwice
  have hshape := htwice.2.1.mpr hnan
  exact ⟨tree, htree, a, ha, b, hb, hcounter, hrepeats, hnan, hbuilt, hbuilt', hshape,
    htwice.2.2, (laws_of_shapes.2.2.1 a b hshape).2.2 hbuilt hbuilt'⟩

end FunctionIR
