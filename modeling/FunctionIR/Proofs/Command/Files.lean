import FunctionIR.Command.Run
import FunctionIR.Proofs.Exchange.Numbering
import FunctionIR.Proofs.Translation.Anonymity
import FunctionIR.Proofs.Translation.Registration

/-!
# Files translated one after the other

The files of a run share one session: two counters, a registry and the record
of events.  What a file brings depends on none of these, but for the numbers
in it (`brought_congr`).  And what a file does to the session can be said
without knowing how it went (`translateFile_adds`): numbers are used up, and
the function is registered, if there is one.

So along a run every path brings what it would bring as the only one, the
numbers increase from function to function, and the registry is the list of
the functions (`brought_translateFiles`, `ids_translateFiles`,
`registry_translateFiles`).
-/

namespace FunctionIR

namespace Session

variable {session other : Session}

/-! ### Loading -/

/-- Reading a source numbers the nodes of trees and records events, and does no
more. -/
structure Reads (session after : Session) : Prop where
  config : after.config = session.config
  nextId : after.translator.nextId = session.translator.nextId
  registry : after.registry = session.registry

/-- What is read does not depend on the record. -/
theorem read_fst (source : Source) :
    (session.read source).1 = (source.tree.runFrom session.nextNode).1 := by
  have hnumber : (session.number source.tree).1 = (source.tree.runFrom session.nextNode).1 := rfl
  rw [← hnumber, read]
  generalize session.number source.tree = numbered
  split <;> rfl

/-- Reading a source is one of the steps that only read. -/
theorem reads_read (source : Source) : session.Reads (session.read source).2 := by
  have hnumber : session.Reads (session.number source.tree).2 := ⟨rfl, rfl, rfl⟩
  rw [read]
  generalize session.number source.tree = numbered at hnumber ⊢
  split
  · exact ⟨hnumber.config, hnumber.nextId, hnumber.registry⟩
  · exact hnumber

/-- Loading gives the tree that reading gives, prepared as the session's settings say. -/
theorem load_fst (source : Source) :
    (session.load source).1 =
      (session.read source).1.map (Node.prepare session.config.discountDecorators) := by
  have hconfig := (session.reads_read source).config
  rw [load]
  generalize session.read source = read at hconfig ⊢
  obtain ⟨outcome, after⟩ := read
  cases outcome with
  | error fault => rfl
  | ok tree =>
      rw [← hconfig]
      rfl

/-- Loading a source is one of the steps that only read. -/
theorem reads_load (source : Source) : session.Reads (session.load source).2 := by
  have hread := session.reads_read source
  rw [load]
  generalize session.read source = read at hread ⊢
  obtain ⟨outcome, after⟩ := read
  cases outcome with
  | error fault => exact hread
  | ok tree =>
      have hprepare : after.Reads (after.prepare tree).2 := by
        rw [prepare]
        split <;> exact ⟨rfl, rfl, rfl⟩
      exact ⟨hprepare.config.trans hread.config, hprepare.nextId.trans hread.nextId,
        hprepare.registry.trans hread.registry⟩

/-- In sessions that are configured alike the same is loaded, but for the
numbers. -/
theorem load_anonymous (hconfig : other.config = session.config) (source : Source) :
    (other.load source).1.toOption.map Node.anonymous =
      (session.load source).1.toOption.map Node.anonymous := by
  have hloaded (session : Session) : (session.load source).1.toOption.map Node.anonymous =
      ((source.tree.runFrom session.nextNode).1.toOption.map Node.anonymous).map
        (Node.prepare session.config.discountDecorators) := by
    rw [load_fst, read_fst]
    cases (source.tree.runFrom session.nextNode).1 with
    | error fault => rfl
    | ok tree => exact congrArg some (Node.prepare_anonymous _ tree)
  rw [hloaded, hloaded, hconfig, source.tree_anonymous session.nextNode other.nextNode]

/-- A translation leaves the settings alone. -/
theorem config_translate (tree : Node) :
    (session.translate tree).2.config = session.config := by
  simp only [translate, translateIn]
  split <;> rfl

end Session

namespace Command

variable {contents : Contents} {path : String} {session other : Session}

/-! ### One file -/

/-- What a translated file brings, but for the numbers: its name and its
function. -/
def brought (outcome : Except Fault (String × Function)) : Option (String × Function) :=
  outcome.toOption.map fun (name, function) => (name, function.anonymous)

/-- What a named outcome brings is the function without its numbers, under that name. -/
theorem brought_map (name : String) (outcome : Except Fault Function) :
    brought (outcome.map fun function => (name, function)) =
      (outcome.map Function.anonymous).toOption.map fun function => (name, function) := by
  cases outcome <;> rfl

/-- What translating a file comes to: it cannot be obtained, or not be loaded, or
its tree is translated. -/
theorem translateFile_cases (contents : Contents) (path : String) (session : Session) :
    (∃ fault, contents.source path = .error fault ∧
      translateFile contents path session = (.error fault, session)) ∨
    ∃ source, contents.source path = .ok source ∧
      ((∃ fault, (session.load source).1 = .error fault ∧
        translateFile contents path session = (.error fault, (session.load source).2)) ∨
      ∃ tree, (session.load source).1 = .ok tree ∧
        translateFile contents path session =
          (((session.load source).2.translate tree).1.map fun function => (source.name, function),
            ((session.load source).2.translate tree).2)) := by
  unfold translateFile
  cases contents.source path with
  | error fault => exact .inl ⟨fault, rfl, rfl⟩
  | ok source =>
      refine .inr ⟨source, rfl, ?_⟩
      dsimp only
      generalize session.load source = loaded
      obtain ⟨outcome, after⟩ := loaded
      cases outcome with
      | error fault => exact .inl ⟨fault, rfl, rfl⟩
      | ok tree =>
          refine .inr ⟨tree, rfl, ?_⟩
          dsimp only
          generalize after.translate tree = translated
          obtain ⟨outcome, after⟩ := translated
          cases outcome <;> rfl

/-- **What a file brings does not depend on what was translated before**, but for
the numbers. -/
theorem brought_congr (hconfig : other.config = session.config) :
    brought (translateFile contents path other).1 =
      brought (translateFile contents path session).1 := by
  rcases translateFile_cases contents path session with
    ⟨fault, hsource, heq⟩ | ⟨source, hsource, hsession⟩
  · rcases translateFile_cases contents path other with ⟨_, _, heq'⟩ | ⟨_, hsource', -⟩
    · rw [heq, heq']
      rfl
    · rw [hsource] at hsource'
      cases hsource'
  · rcases translateFile_cases contents path other with ⟨_, hsource', -⟩ | ⟨_, hsource', hother⟩
    · rw [hsource] at hsource'
      cases hsource'
    · obtain rfl := Except.ok.inj (hsource.symm.trans hsource')
      have hload := Session.load_anonymous hconfig source
      rcases hsession with ⟨fault, hloaded, heq⟩ | ⟨tree, hloaded, heq⟩ <;>
      rcases hother with ⟨fault', hloaded', heq'⟩ | ⟨tree', hloaded', heq'⟩ <;>
      rw [hloaded, hloaded'] at hload <;>
      rw [heq, heq']
      · rfl
      · cases hload
      · cases hload
      · have hconfigs : (other.load source).2.config = (session.load source).2.config := by
          rw [(other.reads_load source).config, (session.reads_load source).config, hconfig]
        have htranslate := Session.translate_anonymous hconfigs (Option.some.inj hload)
        rw [brought_map, brought_map, htranslate]

/-- What a file adds to a session: numbers, and an entry in the registry if it
brings a function. -/
structure Adds (session : Session) (outcome : Except Fault (String × Function))
    (after : Session) : Prop where
  config : after.config = session.config
  registry : after.registry =
    session.registry ++ (outcome.toOption.toList.map Prod.snd).map Function.registration
  nextId : session.translator.nextId ≤ after.translator.nextId
  ids : ∀ name function, outcome = .ok (name, function) → ∃ count,
    function.toFragment.ids = List.range' session.translator.nextId count ∧
      after.translator.nextId = session.translator.nextId + count

/-- A step that only reads and ends in a fault adds nothing. -/
theorem Adds.of_error {fault : Fault} {after : Session} (h : session.Reads after) :
    Adds session (.error fault) after where
  config := h.config
  registry := h.registry.trans (List.append_nil _).symm
  nextId := Nat.le_of_eq h.nextId.symm
  ids := by
    intro name function h
    cases h

/-- **What a file adds** can be said without knowing how its translation went. -/
theorem translateFile_adds (contents : Contents) (path : String) (session : Session) :
    Adds session (translateFile contents path session).1 (translateFile contents path session).2 := by
  rcases translateFile_cases contents path session with
    ⟨fault, -, heq⟩ | ⟨source, -, ⟨fault, -, heq⟩ | ⟨tree, -, heq⟩⟩ <;> rw [heq]
  · exact .of_error ⟨rfl, rfl, rfl⟩
  · exact .of_error (session.reads_load source)
  · have hload := session.reads_load source
    generalize (session.load source).2 = ready at hload
    obtain ⟨hnext, hids⟩ := ready.ids_answer (.translate tree)
    have hregistry := ready.registry_answer (.translate tree)
    rw [hload.nextId] at hnext hids
    have hcompleted (function : Function) (h : (ready.translate tree).1 = .ok function) :
        (ready.answer (.translate tree)).1.completed? = some function :=
      Answer.completed?_ofTree.mpr h
    refine ⟨(Session.config_translate tree).trans hload.config, ?_, hnext, ?_⟩
    · refine hregistry.trans ?_
      rw [hload.registry]
      change _ ++ (Answer.ofTree (ready.translate tree).1).completed?.toList.map _ = _
      cases (ready.translate tree).1 <;> rfl
    · intro name function h
      cases htranslated : (ready.translate tree).1 with
      | error fault =>
          rw [htranslated] at h
          cases h
      | ok done =>
          rw [htranslated] at h
          cases h
          exact hids function (hcompleted function htranslated)

/-! ### Runs -/

/-- The session of a run when it begins. -/
def opening (config : Config) : Session := .begin config Scope.defaultSeparator

/-- The functions that attempts brought. -/
def functions (attempts : List Attempt) : List Function := (translated attempts).map Prod.snd

/-- The functions of a list of attempts, first attempt first. -/
theorem functions_cons (attempt : Attempt) (attempts : List Attempt) :
    functions (attempt :: attempts) =
      attempt.outcome.toOption.toList.map Prod.snd ++ functions attempts := by
  rw [functions, translated, List.filterMap_cons]
  cases attempt.outcome.toOption <;> rfl

/-- The first file is translated in the session as it stands, the others in the session it leaves.
-/
theorem translateFiles_cons (contents : Contents) (path : String) (rest : List String)
    (session : Session) :
    translateFiles contents (path :: rest) session =
      (⟨(translateFile contents path session).1,
          (translateFile contents path session).2.translator.events.drop
            session.translator.events.length⟩ ::
          (translateFiles contents rest (translateFile contents path session).2).1,
        (translateFiles contents rest (translateFile contents path session).2).2) := rfl

/-- **Every path brings what it would bring as the only one**, but for the
numbers, wherever it stands in a run and whatever comes of the others. -/
theorem brought_translateFiles (contents : Contents) (paths : List String) (session : Session) :
    (translateFiles contents paths session).1.map (fun attempt => brought attempt.outcome) =
      paths.map fun path => brought (translateFile contents path (opening session.config)).1 := by
  induction paths generalizing session with
  | nil => rfl
  | cons path rest ih =>
      have hconfig := (translateFile_adds contents path session).config
      rw [translateFiles_cons, List.map_cons, List.map_cons, ih, hconfig]
      exact congrArg (· :: _) (brought_congr rfl)

/-- **The registry is the list of the functions**, in the order of the paths. -/
theorem registry_translateFiles (contents : Contents) (paths : List String) (session : Session) :
    (translateFiles contents paths session).2.registry = session.registry ++
      (functions (translateFiles contents paths session).1).map Function.registration := by
  induction paths generalizing session with
  | nil => exact (List.append_nil _).symm
  | cons path rest ih =>
      rw [translateFiles_cons, functions_cons, ih,
        (translateFile_adds contents path session).registry, List.map_append, List.append_assoc]

/-- **The numbers increase along a run**, from the counter on. -/
theorem ids_translateFiles (contents : Contents) (paths : List String) (session : Session) :
    ((functions (translateFiles contents paths session).1).flatMap
        fun function => function.toFragment.ids).Pairwise (· < ·) ∧
      ∀ id ∈ (functions (translateFiles contents paths session).1).flatMap
        (fun function => function.toFragment.ids), session.translator.nextId ≤ id := by
  induction paths generalizing session with
  | nil => exact ⟨.nil, nofun⟩
  | cons path rest ih =>
      have hadds := translateFile_adds contents path session
      obtain ⟨hsorted, hfrom⟩ := ih (translateFile contents path session).2
      rw [translateFiles_cons, functions_cons, List.flatMap_append]
      cases houtcome : (translateFile contents path session).1 with
      | error fault =>
          exact ⟨hsorted, fun id hid => Nat.le_trans hadds.nextId (hfrom id hid)⟩
      | ok done =>
          obtain ⟨count, hids, hnext⟩ := hadds.ids done.1 done.2 houtcome
          have hfirst : ([done].map Prod.snd).flatMap (fun function => function.toFragment.ids) =
              List.range' session.translator.nextId count := by
            rw [List.map_singleton, List.flatMap_singleton, hids]
          simp only [Except.toOption, Option.toList_some, hfirst, List.pairwise_append,
            List.mem_append]
          refine ⟨⟨List.pairwise_lt_range', hsorted, ?_⟩, ?_⟩
          · intro id hid later hlater
            have hbound := (List.mem_range'_1.mp hid).2
            rw [← hnext] at hbound
            exact Nat.lt_of_lt_of_le hbound (hfrom later hlater)
          · rintro id (hid | hid)
            · exact (List.mem_range'_1.mp hid).1
            · exact Nat.le_trans hadds.nextId (hfrom id hid)

end Command

end FunctionIR
