import FunctionIR.Proofs.Translation.Identity

/-!
# The registry of a run

A translator serves calls one after the other.  Each call brings the scope it
works in, and between two calls any count of numbers may be used up by other
translators, since the counter is common to all (`Errand`).  The registry is
the translator's own.

One call adds to the registry the function that it returns as a whole, if
there is one, and nothing else: neither the functions inside it, nor what
`generate` returns, nor anything when it fails (`Session.registry_answer`).
The number of that function lies between the counter before the call and the
counter after it (`Session.id_answer`).  Along a run the first fact tells the
registry entry by entry, and the second puts its numbers in order
(`registry_of_errands`).
-/

namespace FunctionIR

/-! ### One call -/

/-- What a call returns. -/
inductive Answer where
  /-- A function, from `translate` or `translateIn`. -/
  | translated (function : Function)
  /-- A fragment, from `generate`. -/
  | generated (fragment : Fragment)
  | failed (fault : Fault)

namespace Answer

/-- The answer to a call that translates a tree. -/
def ofTree : Except Fault Function → Answer
  | .ok function => .translated function
  | .error fault => .failed fault

/-- The answer to a call that translates a field value. -/
def ofValue : Except Fault Fragment → Answer
  | .ok fragment => .generated fragment
  | .error fault => .failed fault

/-- The function that was translated as a whole, if there is one. -/
def completed? : Answer → Option Function
  | .translated function => some function
  | .generated _ | .failed _ => none

/-- A translated tree completes a function exactly if it ends in one. -/
theorem completed?_ofTree {outcome : Except Fault Function} {function : Function} :
    (ofTree outcome).completed? = some function ↔ outcome = .ok function := by
  cases outcome <;> simp [ofTree, completed?]

/-- A translated value completes none. -/
theorem completed?_ofValue (outcome : Except Fault Fragment) :
    (ofValue outcome).completed? = none := by
  cases outcome <;> rfl

end Answer

/-- The first answer stands before the others. -/
theorem completed_cons (answer : Answer) (answers : List Answer) :
    (answer :: answers).filterMap Answer.completed? =
      answer.completed?.toList ++ answers.filterMap Answer.completed? := by
  cases h : answer.completed? <;> simp [h]

/-- `find` returns the earliest of the functions that have the name. -/
theorem Registry.find_map_registration {functions : List Function} {name : String}
    {entry : Registration} :
    Registry.find (functions.map Function.registration) name = some entry ↔
      ∃ before function after, functions = before ++ function :: after ∧
        entry = function.registration ∧ function.head.name = name ∧
        ∀ earlier ∈ before, earlier.head.name ≠ name := by
  rw [Registry.find, List.find?_map, Option.map_eq_some_iff]
  simp only [List.find?_eq_some_iff_append, Function.comp_apply, Function.registration,
    beq_iff_eq, Bool.not_eq_true', beq_eq_false_iff_ne]
  constructor
  · rintro ⟨function, ⟨hname, before, after, hfunctions, hbefore⟩, rfl⟩
    exact ⟨before, function, after, hfunctions, rfl, hname, hbefore⟩
  · rintro ⟨before, function, after, hfunctions, rfl, hname, hbefore⟩
    exact ⟨function, ⟨hname, before, after, hfunctions, hbefore⟩, rfl⟩

/-- A function is among the nodes that it numbers. -/
theorem Function.id_mem_ids (function : Function) :
    function.head.id ∈ function.toFragment.ids := by
  simp [toFragment, Fragment.ids, Fragment.made]

namespace Session

variable {session : Session}

/-- Serve one call. -/
def answer (request : Request) (session : Session) : Answer × Session :=
  match request with
  | .translate tree =>
    let (outcome, after) := session.translate tree
    (.ofTree outcome, after)
  | .translateIn tree =>
    let (outcome, after) := session.translateIn tree
    (.ofTree outcome, after)
  | .generate value =>
    let (outcome, after) := session.generate value
    (.ofValue outcome, after)

/-- A tree adds to the registry the function that it is translated into. -/
theorem registry_translateIn (tree : Node) :
    (session.translateIn tree).2.registry = session.registry ++
      (Answer.ofTree (session.translateIn tree).1).completed?.toList.map Function.registration := by
  simp only [translateIn]
  generalize (translateTree session.config tree).runFrom session.translator = ran
  obtain ⟨outcome, after⟩ := ran
  cases outcome with
  | error fault => exact (List.append_nil session.registry).symm
  | ok function => rfl

/-- **A call registers the function that it returns as a whole**, and nothing
else. -/
theorem registry_answer (request : Request) :
    (session.answer request).2.registry = session.registry ++
      (session.answer request).1.completed?.toList.map Function.registration := by
  cases request with
  | translate tree => exact session.atTop.registry_translateIn tree
  | translateIn tree => exact registry_translateIn tree
  | generate value =>
      simp only [answer, Answer.completed?_ofValue]
      exact (List.append_nil session.registry).symm

/-- A call that returns a function followed the course of a tree to its end, in
the scope that it worked in, and returns what is rendered there. -/
theorem rendered_answer {request : Request} {function : Function}
    (h : (session.answer request).1.completed? = some function) :
    ∃ scope, (follow session.config.maxDepth (course 0 request.value)
        { session.translator with scope := scope }).1 = none ∧
      (rendered scope session.translator.nextId request.value).1 = function.toFragment := by
  cases request with
  | translate tree =>
      exact ⟨_, session.atTop.translateIn_eq_ok.mp (Answer.completed?_ofTree.mp h)⟩
  | translateIn tree =>
      exact ⟨_, translateIn_eq_ok.mp (Answer.completed?_ofTree.mp h)⟩
  | generate value =>
      rw [answer, Answer.completed?_ofValue] at h
      cases h

/-- What a call returns and where it leaves the counter is known from any call
that the counter is brought to. -/
theorem run_of_answer (request : Request) :
    (Call.run session.translator.nextId ⟨session, request⟩).2 =
        (session.answer request).2.translator.nextId ∧
      ∀ function, (session.answer request).1.completed? = some function →
        (Call.run session.translator.nextId ⟨session, request⟩).1 = .ok function.toFragment := by
  have hmap {outcome : Except Fault Function} {function : Function}
      (h : (Answer.ofTree outcome).completed? = some function) :
      outcome.map Function.toFragment = .ok function.toFragment := by
    rw [Answer.completed?_ofTree.mp h]
    rfl
  cases request with
  | translate tree => exact ⟨rfl, fun function h => hmap h⟩
  | translateIn tree => exact ⟨rfl, fun function h => hmap h⟩
  | generate value =>
      refine ⟨rfl, fun function h => ?_⟩
      rw [answer, Answer.completed?_ofValue] at h
      cases h

/-- **A function that a call returns has the numbers from the counter on**, and
the counter is beyond them after the call. -/
theorem ids_answer (request : Request) :
    session.translator.nextId ≤ (session.answer request).2.translator.nextId ∧
      ∀ function, (session.answer request).1.completed? = some function →
        ∃ count, function.toFragment.ids = List.range' session.translator.nextId count ∧
          (session.answer request).2.translator.nextId = session.translator.nextId + count := by
  obtain ⟨hcounter, hrun⟩ := session.run_of_answer request
  obtain ⟨hnext, hmade⟩ := Call.run_made session.translator.nextId ⟨session, request⟩
  rw [← hcounter, hnext]
  refine ⟨Nat.le_add_right _ _, fun function h => ⟨_, ?_, rfl⟩⟩
  rw [Fragment.ids, hmade _ (hrun function h)]
  exact Call.map_fst_made _ _

/-- The number of a function that a call returns lies between the counter before
the call and the counter after it. -/
theorem id_answer {request : Request} {function : Function}
    (h : (session.answer request).1.completed? = some function) :
    session.translator.nextId ≤ function.head.id ∧
      function.head.id < (session.answer request).2.translator.nextId := by
  obtain ⟨count, hids, hnext⟩ := (ids_answer request).2 function h
  have hmem := function.id_mem_ids
  rw [hids] at hmem
  rw [hnext]
  exact List.mem_range'_1.mp hmem

end Session

/-! ### Runs -/

/-- A call as it comes to a translator. -/
structure Errand where
  /-- The scope that the caller has entered. -/
  scope : Scope
  /-- How many numbers other translators have used up since the last call. -/
  skipped : Nat
  request : Request

namespace Session

/-- The session when an errand comes. -/
def meet (errand : Errand) (session : Session) : Session :=
  { session with
    translator := { session.translator with
      scope := errand.scope
      nextId := session.translator.nextId + errand.skipped } }

/-- Serve errands one after the other, whatever comes of each. -/
def serve : List Errand → Session → List Answer × Session
  | [], session => ([], session)
  | errand :: rest, session =>
    let (answer, session) := (session.meet errand).answer errand.request
    let (answers, session) := serve rest session
    (answer :: answers, session)

/-- The registry after a run holds what was there before and the functions
that were returned as a whole. -/
theorem registry_serve (errands : List Errand) (session : Session) :
    (session.serve errands).2.registry = session.registry ++
      ((session.serve errands).1.filterMap Answer.completed?).map Function.registration := by
  induction errands generalizing session with
  | nil => exact (List.append_nil _).symm
  | cons errand rest ih =>
      have hstep := (session.meet errand).registry_answer errand.request
      simp only [serve, ih, hstep, List.append_assoc]
      rw [completed_cons, List.map_append]
      rfl

/-- The functions that a run returns are numbered from the counter on, each
beyond the one before. -/
theorem ids_serve (errands : List Errand) (session : Session) :
    (((session.serve errands).1.filterMap Answer.completed?).map (·.head.id)).Pairwise (· < ·) ∧
      ∀ function ∈ (session.serve errands).1.filterMap Answer.completed?,
        session.translator.nextId ≤ function.head.id := by
  induction errands generalizing session with
  | nil => simp [serve]
  | cons errand rest ih =>
      obtain ⟨hle, -⟩ := (session.meet errand).ids_answer errand.request
      have hmeet : session.translator.nextId ≤ (session.meet errand).translator.nextId :=
        Nat.le_add_right _ _
      obtain ⟨hsorted, hfrom⟩ := ih ((session.meet errand).answer errand.request).2
      simp only [serve, completed_cons, List.map_append, List.pairwise_append, List.mem_append,
        List.mem_map, Option.mem_toList]
      refine ⟨⟨?_, hsorted, ?_⟩, ?_⟩
      · cases ((session.meet errand).answer errand.request).1.completed? <;> simp
      · rintro _ ⟨function, hfunction, rfl⟩ _ ⟨later, hlater, rfl⟩
        exact Nat.lt_of_lt_of_le (id_answer hfunction).2 (hfrom later hlater)
      · rintro function (hfunction | hlater)
        · exact Nat.le_trans hmeet (id_answer hfunction).1
        · exact Nat.le_trans (Nat.le_trans hmeet hle) (hfrom function hlater)

end Session

/-- **The registry records the completed translations of a run**, in the order
of the calls, each with its number, its names, its place and its count of
nodes.  Its numbers increase strictly, and `find` returns the earliest of the
functions that have the name. -/
theorem registry_of_errands (config : Config) (separator : String) (errands : List Errand) :
    let served := (Session.begin config separator).serve errands
    let completed := served.1.filterMap Answer.completed?
    served.2.registry = completed.map (fun function =>
        { id := function.head.id
          name := function.head.name
          qualifiedName := function.head.qualifiedName
          line := function.head.line
          column := function.head.column
          nodeCount := function.nodeCount }) ∧
      (served.2.registry.map Registration.id).Pairwise (· < ·) ∧
      ∀ name entry, served.2.registry.find name = some entry ↔
        ∃ before function after, completed = before ++ function :: after ∧
          entry = function.registration ∧ function.head.name = name ∧
          ∀ earlier ∈ before, earlier.head.name ≠ name := by
  intro served completed
  have hregistry : served.2.registry = completed.map Function.registration :=
    Session.registry_serve errands (Session.begin config separator)
  refine ⟨hregistry, ?_, fun name entry => ?_⟩
  · rw [hregistry, List.map_map]
    exact (Session.ids_serve errands (Session.begin config separator)).1
  · rw [hregistry]
    exact Registry.find_map_registration

end FunctionIR
