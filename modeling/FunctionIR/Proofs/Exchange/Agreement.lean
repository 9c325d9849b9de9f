import FunctionIR.Proofs.Exchange.Copy
import FunctionIR.Proofs.Exchange.Program
import FunctionIR.Proofs.Translation.Likeness

/-!
# Programs and their dumps

The tree of a program text can be dumped, and the dump read as a source of its
own.  If the dump can be read and its finite doubles are settled, its tree is a
copy of what the dump tells of the program's tree, and such copies are alike
in the sense of translations, for nothing but their numbers differs.  So a
dump is translated like what it tells of the tree (`translation_of_dump`), and
where it tells everything, program and dump are translated to functions that
are alike, or are refused with the same fault.

It does not tell everything of every program.  A literal can be so large that
its double is infinite, and the dump has nothing in its place; the functions
are then of different shapes.  Nor can every dump be read: a text can be
accepted whose dump nests deeper than a document may.
-/

namespace FunctionIR

namespace Exchange

open Json (IsFinite)

/-! ### Copies are alike -/

/-- A finite double agrees with itself. -/
theorem agrees_of_finite {x : Binary64} (h : IsFinite x) :
    (Scalar.real x).agrees (.real x) = true := by
  have hnumber : x.isNaN = false := by
    simp only [IsFinite, Binary64.isFinite, decide_eq_true_eq] at h
    simpa only [Binary64.isNaN, decide_eq_false_iff_not, Nat.not_lt] using Nat.le_of_lt h
  simp [Scalar.agrees, Binary64.numEq, hnumber]

/-- A leaf with a value equals itself. -/
theorem agrees_of_doubles {s : Scalar} (h : ∀ x ∈ (exportScalar s).doubles, IsFinite x) :
    s.agrees s = true := by
  cases s with
  | real x => exact agrees_of_finite (h x List.mem_cons_self)
  | none => rfl
  | bool | int | str => exact beq_self_eq_true _

/-- Heads that are equal up to the number are alike. -/
theorem headLike_of_anonymous {head other : Head}
    (h : ({ head with id := 0 } : Head) = { other with id := 0 }) : head.Like other := by
  obtain ⟨-, hkind, hlocation, hspan⟩ := Head.mk.inj h
  exact ⟨hkind, hlocation, hspan⟩

mutual

/-- Values that are the same but for numbers are alike, if their doubles are
finite. -/
theorem like_of_anonymous : (value : Value) → {other : Value} →
    value.anonymous = other.anonymous → (∀ x ∈ (exportValue value).doubles, IsFinite x) →
    Like value other
  | .scalar s, other, h, hfinite => by
      cases other <;> cases h
      exact .scalar (agrees_of_doubles hfinite)
  | .foreign _, other, h, _ => by
      cases other <;> cases h
      exact .foreign _
  | .list items, other, h, hfinite => by
      cases other with
      | list others => exact .list (itemsLike_of_anonymous items (Value.list.inj h) hfinite)
      | _ => cases h
  | .node head fields, other, h, hfinite => by
      cases other with
      | node head' others =>
          obtain ⟨hhead, hfields⟩ := Value.node.inj h
          exact .node (headLike_of_anonymous hhead)
            (fieldsLike_of_anonymous fields hfields (doubles_exportFields hfinite))
      | _ => cases h
termination_by structural value => value

/-- Lists of values that are equal up to numbers are alike, where every double is finite. -/
theorem itemsLike_of_anonymous : (items : List Value) → {others : List Value} →
    Value.anonymousItems items = Value.anonymousItems others →
    (∀ x ∈ Json.itemsDoubles (exportItems items), IsFinite x) → ItemsLike items others
  | [], others, h, _ => by
      cases others <;> cases h
      exact .nil
  | item :: rest, others, h, hfinite => by
      cases others with
      | nil => cases h
      | cons other others =>
          obtain ⟨hitem, hrest⟩ := List.cons.inj h
          obtain ⟨hfirst, hfinite⟩ := List.forall_mem_append.mp hfinite
          exact .cons (like_of_anonymous item hitem hfirst)
            (itemsLike_of_anonymous rest hrest hfinite)
termination_by structural items => items

/-- Fields that are equal up to numbers are alike, where every double is finite. -/
theorem fieldsLike_of_anonymous : (fields : Fields) → {others : Fields} →
    Value.anonymousFields fields = Value.anonymousFields others →
    (∀ x ∈ Json.membersDoubles (exportFields fields), IsFinite x) → FieldsLike fields others
  | [], others, h, _ => by
      cases others <;> cases h
      exact .nil
  | (name, value) :: rest, others, h, hfinite => by
      cases others with
      | nil => cases h
      | cons field others =>
          obtain ⟨name', other⟩ := field
          obtain ⟨hfield, hrest⟩ := List.cons.inj h
          obtain ⟨rfl, hvalue⟩ := Prod.mk.inj hfield
          obtain ⟨hfirst, hfinite⟩ := List.forall_mem_append.mp hfinite
          exact .cons (like_of_anonymous value hvalue hfirst)
            (fieldsLike_of_anonymous rest hrest hfinite)
termination_by structural fields => fields

end

/-- Trees that are equal up to numbers are alike, where every double is finite. -/
theorem nodeLike_of_anonymous {tree other : Node} (h : tree.anonymous = other.anonymous)
    (hfinite : ∀ x ∈ (exportTree tree).doubles, IsFinite x) : tree.Like other := by
  obtain ⟨hhead, hfields⟩ := Node.mk.inj h
  exact ⟨headLike_of_anonymous hhead,
    fieldsLike_of_anonymous _ hfields (doubles_exportFields hfinite)⟩

/-! ### Dumps -/

/-- A source that is the dump of a tree. -/
def dump (name : String) (tree : Node) : Source := .ofText name (exportText tree) .tree

/-- A dump is not empty, for it starts with a bracket. -/
theorem isEmpty_dump (name : String) (tree : Node) : (dump name tree).isEmpty = false := by
  have htext : ∃ rest : String, exportText tree = "\x7b" ++ rest := by
    rw [exportText, exportTree, Node.toValue, exportValue, Json.indented, Json.indentedAt,
      String.append_assoc, String.append_assoc]
    · exact ⟨_, rfl⟩
    · exact List.cons_ne_nil _ _
  obtain ⟨rest, htext⟩ := htext
  have hbracket : Text.isBlank '{' = false := by decide
  show (exportText tree).toList.all Text.isBlank = false
  rw [htext, String.toList_append, List.all_append]
  simp [hbracket]

/-- The dump of a program is read as a copy of what it tells of the tree, if it
nests at most 127 arrays and objects and its finite doubles are settled. -/
theorem copy_of_program {source : Source} (hformat : source.format = .program)
    (hlength : source.text.length < 2 ^ 63) :
    source.tree.Yields fun tree => (exportTree tree).nesting ≤ 127 →
      (∀ x ∈ (exportTree tree).doubles, IsFinite x → Json.Settled x) →
      (dump source.name tree).tree.Gives (·.anonymous = tree.written.anonymous) := by
  refine (portable_of_program hformat hlength).mono fun tree hportable hnesting hdoubles => ?_
  have htold : (exportTree tree.written).nesting < Json.nestingLimit := by
    rw [exportTree_written, Json.nesting_written]
    exact Nat.lt_succ_of_le hnesting
  have hsettled : ∀ x ∈ (exportTree tree.written).doubles, Json.Settled x := by
    rw [exportTree_written, Json.doubles_written]
    intro x hx
    obtain ⟨hmem, hfinite⟩ := List.mem_filter.mp hx
    exact hdoubles x hmem hfinite
  rw [Source.tree, isEmpty_dump, dump, Source.ofText, ← exportText_written]
  exact importTree_exportText hportable htold hsettled

/-- A dump is translated like what it tells of the tree. -/
theorem translation_of_dump {source : Source} (hformat : source.format = .program)
    (hlength : source.text.length < 2 ^ 63) {counter next : Nat} {tree : Node}
    (haccepted : source.tree.runFrom counter = (.ok tree, next))
    (hnesting : (exportTree tree).nesting ≤ 127)
    (hdoubles : ∀ x ∈ (exportTree tree).doubles, IsFinite x → Json.Settled x) :
    (dump source.name tree).tree.Gives fun copy =>
      ∀ session other : Session, session.config = other.config →
        EndAlike (session.translate (session.prepare tree.written).1).1
          (other.translate (other.prepare copy).1).1 := by
  have hcopy := copy_of_program hformat hlength counter tree next haccepted hnesting hdoubles
  refine hcopy.mono fun copy hcopy session other hconfig => ?_
  have hlike : tree.written.Like copy := by
    refine nodeLike_of_anonymous hcopy.symm ?_
    rw [exportTree_written, Json.doubles_written]
    exact fun x hx => (List.mem_filter.mp hx).2
  rw [(Session.translate_atTop _).1, (Session.translate_atTop _).1]
  refine translateIn_alike ?_ (congrArg Config.maxDepth hconfig) ?_
  · rw [Session.prepare, Session.prepare, hconfig]
    exact hlike.prepare _
  · rw [Session.atTop, Session.atTop, hconfig]

/-- **A program and its dump agree.**  Take a program text that is accepted,
and let the dump of its tree nest at most 127 arrays and objects and have
settled doubles.  Then the dump is accepted as well, under the same name, and
preparing and translating the one or the other, in sessions that are configured
alike and whatever happened in them, ends in functions of the same shape with
the same places at corresponding nodes, or in the same fault. -/
theorem outcome_of_dump {source : Source} (hformat : source.format = .program)
    (hlength : source.text.length < 2 ^ 63) {counter next : Nat} {tree : Node}
    (haccepted : source.tree.runFrom counter = (.ok tree, next))
    (hnesting : (exportTree tree).nesting ≤ 127)
    (hdoubles : ∀ x ∈ (exportTree tree).doubles, Json.Settled x) :
    (dump source.name tree).tree.Gives fun copy =>
      ∀ session other : Session, session.config = other.config →
        EndAlike (session.translate (session.prepare tree).1).1
          (other.translate (other.prepare copy).1).1 := by
  have hall : tree.written = tree := Node.written_eq_self fun x hx => (hdoubles x hx).finite
  have htold := translation_of_dump hformat hlength haccepted hnesting
    fun x hx _ => hdoubles x hx
  rwa [hall] at htold

/-- A decorated function with doubles is such a program. -/
theorem outcome_of_dump_decorated :
    let source := Source.ofText "m" "@d(0.1)\ndef f(x=2):\n    return x * 1e300\n" .program
    ∃ tree next, source.tree.runFrom 1 = (.ok tree, next) ∧
      (exportTree tree).nesting ≤ 127 ∧ (∀ x ∈ (exportTree tree).doubles, Json.Settled x) ∧
      (dump source.name tree).tree.Gives fun copy =>
        ∀ session other : Session, session.config = other.config →
          EndAlike (session.translate (session.prepare tree).1).1
            (other.translate (other.prepare copy).1).1 := by
  intro source
  obtain ⟨tree, hread, hnesting, hdoubles⟩ : ∃ tree, (source.tree.runFrom 1).1 = .ok tree ∧
      (exportTree tree).nesting ≤ 127 ∧ ∀ x ∈ (exportTree tree).doubles, Json.Settled x := by
    decide +kernel
  have haccepted : source.tree.runFrom 1 = (.ok tree, (source.tree.runFrom 1).2) :=
    Prod.ext hread rfl
  have hlength : source.text.length < 2 ^ 63 := by decide +kernel
  exact ⟨tree, _, haccepted, hnesting, hdoubles,
    outcome_of_dump rfl hlength haccepted hnesting hdoubles⟩

/-- A literal too large is lost: the program returns an infinite double, and its
dump nothing. -/
theorem not_sameShape_dump_infinite :
    let source := Source.ofText "m" "def f():\n    return 1e309\n" .program
    let session := Session.begin .standard "_"
    ∃ tree next, source.tree.runFrom 1 = (.ok tree, next) ∧
      ∃ copy last, (dump source.name tree).tree.runFrom next = (.ok copy, last) ∧
        ∃ function other, (session.translate (session.prepare tree).1).1 = .ok function ∧
          (session.translate (session.prepare copy).1).1 = .ok other ∧
          function.toFragment.sameShape other.toFragment = false := by
  intro source session
  obtain ⟨tree, hread, hnesting, hdoubles, function, hfunction, told, htold, hdifferent⟩ :
      ∃ tree, (source.tree.runFrom 1).1 = .ok tree ∧ (exportTree tree).nesting ≤ 127 ∧
        (∀ x ∈ (exportTree tree).doubles, IsFinite x → Json.Settled x) ∧
        ∃ function, (session.translate (session.prepare tree).1).1 = .ok function ∧
          ∃ told, (session.translate (session.prepare tree.written).1).1 = .ok told ∧
            function.toFragment.sameShape told.toFragment = false := by
    decide +kernel
  have haccepted : source.tree.runFrom 1 = (.ok tree, (source.tree.runFrom 1).2) :=
    Prod.ext hread rfl
  have hlength : source.text.length < 2 ^ 63 := by decide +kernel
  obtain ⟨copy, last, hcopy, hend⟩ :=
    translation_of_dump rfl hlength haccepted hnesting hdoubles (source.tree.runFrom 1).2
  have hend := hend session session rfl
  rw [htold] at hend
  cases hother : (session.translate (session.prepare copy).1).1 with
  | error fault =>
      rw [hother] at hend
      cases hend
  | ok other =>
      rw [hother] at hend
      cases hend with
      | ok halike =>
          refine ⟨tree, _, haccepted, copy, last, hcopy, function, other, hfunction, hother, ?_⟩
          exact Bool.eq_false_iff.mpr fun hsame =>
            Bool.eq_false_iff.mp hdifferent (Fragment.sameShape_of_common _ hsame halike.shape)

end Exchange

end FunctionIR
