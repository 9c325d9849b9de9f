import FunctionIR.Proofs.Exchange.Preorder
import FunctionIR.Proofs.Translation.Discounting

/-!
# Numbers that tell nodes apart

All trees get their numbers from one counter, whatever they are made from.  An
**intake** is one call that makes a tree: a source is read or loaded in some session,
or a serialized text is imported.  A call that succeeds returns a tree with numbers
that were drawn between the counter before it and the counter after it
(`Intake.run_draws`), and a call that fails leaves the counter where the next one
goes on.  So the stretches of different calls do not meet, and no number is used twice
in any history of calls (`Intake.numbersOf_history_le`).

The nodes of a serialized tree moreover have consecutive numbers in the order of
the document, also where the tree is prepared afterwards: preparing it moves lines
and keeps the rest of every head.
-/

namespace FunctionIR

/-! ### Nodes on other lines -/

/-- The head without its lines. -/
def Head.unlined (head : Head) : Head := head.onLines fun _ => 0

/-- Lines do not matter to a head without its line. -/
theorem Head.unlined_onLines (f : Nat → Nat) (head : Head) :
    (head.onLines f).unlined = head.unlined := by
  obtain ⟨id, kind, location, span⟩ := head
  cases location <;> cases span <;> rfl

/-- Preparing a tree keeps all of its heads but their lines. -/
theorem Node.unlined_prepare (discount : Bool) (tree : Node) :
    (tree.prepare discount).toValue.heads.map Head.unlined =
      tree.toValue.heads.map Head.unlined := by
  rw [Node.prepare.eq_def]
  split
  next offset _ =>
    rw [Node.shift_eq_onLines]
    change ((tree.toValue.onLines _).heads).map Head.unlined = _
    rw [Value.heads_onLines, List.map_map]
    exact List.map_congr_left fun head _ => head.unlined_onLines _
  next => rfl

/-- Heads that agree but for their lines have the same numbers. -/
theorem map_id_of_unlined {heads heads' : List Head}
    (h : heads'.map Head.unlined = heads.map Head.unlined) :
    heads'.map Head.id = heads.map Head.id := by
  have hid : Head.id ∘ Head.unlined = Head.id := rfl
  rw [← hid, ← List.map_map, ← List.map_map, h]

/-! ### Calls that make trees -/

/-- The tree of a source has only numbers that are drawn for it, each of them once. -/
theorem Source.draws_tree (source : Source) :
    source.tree.Draws 0 fun tree => tree.toValue.numbers := by
  unfold tree
  split
  · exact .throw
  · split
    · exact draws_programTree source.name source.text
    · exact Exchange.draws_importTree source.text

/-- The file and the text of the serialized tree that a source holds, if it holds one. -/
def Source.serialized? (source : Source) : Option (String × String) :=
  match source.format with
  | .program => none
  | .tree => some (source.name, source.text)

/-- The tree of a source that holds a serialized one is imported. -/
theorem Source.importTree_of_tree {source : Source} {file text : String} {counter next : Nat}
    {made : Node} (h : source.serialized? = some (file, text))
    (hmade : source.tree.runFrom counter = (.ok made, next)) :
    (Exchange.importTree file text).runFrom counter = (.ok made, next) := by
  unfold tree at hmade
  unfold serialized? at h
  split at hmade
  next => cases hmade
  next =>
    cases hformat : source.format with
    | program =>
        rw [hformat] at h
        cases h
    | tree =>
        rw [hformat] at h hmade
        cases h
        exact hmade

/-- Reading a source in a session is making its tree from the session's counter. -/
theorem Session.read_run (session : Session) (source : Source) :
    (session.read source).2.nextNode = (source.tree.runFrom session.nextNode).2 ∧
      ∀ tree, (session.read source).1 = .ok tree →
        (source.tree.runFrom session.nextNode).1 = .ok tree := by
  rw [read, number]
  generalize source.tree.runFrom session.nextNode = ran
  obtain ⟨outcome, next⟩ := ran
  dsimp only
  split
  next heq =>
    cases heq
    refine ⟨rfl, fun tree h => ?_⟩
    cases h
  next => exact ⟨rfl, fun _ h => h⟩

/-- Loading a source in a session is reading it, and preparing the tree. -/
theorem Session.load_run (session : Session) (source : Source) :
    (session.load source).2.nextNode = (session.read source).2.nextNode ∧
      ∀ tree, (session.load source).1 = .ok tree → ∃ unprepared discount,
        (session.read source).1 = .ok unprepared ∧ tree = unprepared.prepare discount := by
  rw [load]
  cases hread : session.read source with
  | mk outcome after =>
      cases outcome with
      | error fault =>
          refine ⟨rfl, fun tree h => ?_⟩
          cases h
      | ok unprepared =>
          refine ⟨?_, fun tree h => ⟨unprepared, _, rfl, (Except.ok.inj h).symm⟩⟩
          simp only [prepare]
          split <;> rfl

/-- A call that makes a tree.  The counter is not its own. -/
inductive Intake where
  /-- A source is read in a session. -/
  | read (session : Session) (source : Source)
  /-- A source is read in a session, and its tree is prepared. -/
  | load (session : Session) (source : Source)
  /-- A serialized text is imported as the tree of a file. -/
  | importText (file text : String)

namespace Intake

/-- The outcome of the call, and the counter after it. -/
def run (counter : Nat) : Intake → Except Fault Node × Nat
  | .read session source =>
    let (outcome, after) := { session with nextNode := counter }.read source
    (outcome, after.nextNode)
  | .load session source =>
    let (outcome, after) := { session with nextNode := counter }.load source
    (outcome, after.nextNode)
  | .importText file text => (Exchange.importTree file text).runFrom counter

/-- The file and the text of the serialized tree that the call takes, if it takes
one. -/
def serialized? : Intake → Option (String × String)
  | .read _ source | .load _ source => source.serialized?
  | .importText file text => some (file, text)

/-- Calls one after the other, each with the counter it starts from.  Also one
that fails hands its counter on. -/
def history (counter : Nat) : List Intake → List (Nat × Intake)
  | [] => []
  | intake :: rest => (counter, intake) :: history (intake.run counter).2 rest

/-- The trees that the calls of a history return. -/
def trees (entries : List (Nat × Intake)) : List Node :=
  entries.filterMap fun (start, intake) => (intake.run start).1.toOption

/-- The numbers of all nodes in several trees. -/
def numbersOf (trees : List Node) : List Nat :=
  trees.flatMap fun tree => tree.toValue.heads.map Head.id

/-- How the tree is made, before it is prepared. -/
def making : Intake → Numbered Node
  | .read _ source | .load _ source => source.tree
  | .importText file text => Exchange.importTree file text

/-- Whatever is taken in draws the numbers of its nodes. -/
theorem draws_making (intake : Intake) : intake.making.Draws 0 fun tree => tree.toValue.numbers := by
  cases intake with
  | read _ source | load _ source => exact source.draws_tree
  | importText file text => exact Exchange.draws_importTree text

/-- A call makes its tree from the counter, and prepares it at most. -/
theorem run_making (counter : Nat) (intake : Intake) :
    (intake.run counter).2 = (intake.making.runFrom counter).2 ∧
      ∀ tree, (intake.run counter).1 = .ok tree → ∃ made,
        (intake.making.runFrom counter).1 = .ok made ∧
        tree.toValue.heads.map Head.unlined = made.toValue.heads.map Head.unlined := by
  cases intake with
  | read session source =>
      obtain ⟨hnext, hok⟩ := Session.read_run { session with nextNode := counter } source
      exact ⟨hnext, fun tree h => ⟨tree, hok tree h, rfl⟩⟩
  | load session source =>
      obtain ⟨hnext, hok⟩ := Session.read_run { session with nextNode := counter } source
      obtain ⟨hnext', hok'⟩ := Session.load_run { session with nextNode := counter } source
      refine ⟨hnext'.trans hnext, fun tree h => ?_⟩
      obtain ⟨made, discount, hmade, rfl⟩ := hok' tree h
      exact ⟨made, hok made hmade, made.unlined_prepare discount⟩
  | importText file text => exact ⟨rfl, fun tree h => ⟨tree, h, rfl⟩⟩

/-- **One call** does not set the counter back, and the numbers in its tree are
between the counter before it and the counter after it, each of them once. -/
theorem run_draws (counter : Nat) (intake : Intake) :
    counter ≤ (intake.run counter).2 ∧
      ∀ tree, (intake.run counter).1 = .ok tree →
        tree.toValue.numbers ≤ Multiset.Ico counter (intake.run counter).2 := by
  obtain ⟨hnext, hok⟩ := intake.run_making counter
  obtain ⟨hclimb, hdrawn⟩ := intake.draws_making counter
  rw [hnext]
  refine ⟨hclimb, fun tree h => ?_⟩
  obtain ⟨made, hmade, hheads⟩ := hok tree h
  have hnumbers : tree.toValue.numbers = made.toValue.numbers :=
    congrArg (fun ids : List Nat => (ids : Multiset Nat)) (map_id_of_unlined hheads)
  rw [hnumbers, ← zero_add (Multiset.Ico _ _)]
  exact hdrawn made hmade

/-- **A whole history** draws its numbers from one stretch. -/
theorem numbersOf_history_le (counter : Nat) (intakes : List Intake) :
    ∃ last, counter ≤ last ∧
      (numbersOf (trees (history counter intakes)) : Multiset Nat) ≤ Multiset.Ico counter last := by
  induction intakes generalizing counter with
  | nil => exact ⟨counter, Nat.le_refl counter, Multiset.zero_le _⟩
  | cons intake rest ih =>
      obtain ⟨hclimb, hdrawn⟩ := intake.run_draws counter
      obtain ⟨last, hlast, hrest⟩ := ih (intake.run counter).2
      refine ⟨last, hclimb.trans hlast, ?_⟩
      rw [history, ← Multiset.Ico_add_Ico_eq_Ico hclimb hlast]
      cases hrun : (intake.run counter).1 with
      | error fault =>
          have htrees : trees ((counter, intake) :: history (intake.run counter).2 rest) =
              trees (history (intake.run counter).2 rest) :=
            List.filterMap_cons_none (congrArg Except.toOption hrun)
          rw [htrees]
          exact hrest.trans (Multiset.le_add_left _ _)
      | ok tree =>
          have htrees : trees ((counter, intake) :: history (intake.run counter).2 rest) =
              tree :: trees (history (intake.run counter).2 rest) :=
            List.filterMap_cons_some (congrArg Except.toOption hrun)
          rw [htrees, numbersOf, List.flatMap_cons, ← Multiset.coe_add]
          exact add_le_add (hdrawn tree hrun) hrest

/-- An imported text that is taken in is imported from the counter. -/
theorem importTree_of_making {intake : Intake} {file text : String} {counter next : Nat}
    {made : Node} (h : intake.serialized? = some (file, text))
    (hmade : intake.making.runFrom counter = (.ok made, next)) :
    (Exchange.importTree file text).runFrom counter = (.ok made, next) := by
  cases intake with
  | read _ source | load _ source => exact Source.importTree_of_tree h hmade
  | importText =>
      cases h
      exact hmade

end Intake

/-- **No two nodes have the same number**, be they in one tree or in different ones
that are made anywhere in a history of reading, loading and importing, in which calls
may also fail.  And the nodes of a tree that is made from a serialized text are those
of the objects in its document, in the order of the document, an object before those
inside of it; they have consecutive numbers, and but for the lines, which preparing
moves, each has the head that its object gives it. -/
theorem numbers_of_intakes (counter : Nat) (intakes : List Intake) :
    (Intake.numbersOf (Intake.trees (Intake.history counter intakes))).Nodup ∧
      ∀ entry ∈ Intake.history counter intakes, ∀ tree, (entry.2.run entry.1).1 = .ok tree →
        ∀ file text, entry.2.serialized? = some (file, text) →
          ∃ document, Json.read text = .ok document ∧
            tree.toValue.heads.map Head.id =
              List.range' entry.1 (Exchange.nodeObjects document).length ∧
            tree.toValue.heads.map Head.unlined =
              (Exchange.headsFrom file entry.1 (Exchange.nodeObjects document)).map
                Head.unlined := by
  constructor
  · obtain ⟨last, -, hle⟩ := Intake.numbersOf_history_le counter intakes
    exact Multiset.coe_nodup.mp (Multiset.nodup_of_le hle Multiset.nodup_Ico)
  · intro (start, intake) _ tree htree file text hserialized
    obtain ⟨made, hmade, hheads⟩ := (intake.run_making start).2 tree htree
    have himport := Intake.importTree_of_making hserialized (Prod.ext hmade rfl)
    obtain ⟨document, hread, hlisted⟩ := Exchange.importTree_heads himport
    rw [hlisted] at hheads
    refine ⟨document, hread, ?_, hheads⟩
    rw [map_id_of_unlined hheads, Exchange.map_id_headsFrom]

/-- A program is read, another one fails after six numbers were drawn for it, and a
serialized list is loaded.  The numbers that are missing were drawn for contexts that
were replaced, and for nodes that are in no tree. -/
theorem numbers_of_intakes_interrupted :
    let session := Session.begin .standard "_"
    let program := Intake.read session (.ofText "m" "x, y = 1\n" .program)
    let broken := Intake.read session (.ofText "m" "(x, 1) = y\n" .program)
    let text := "\x7b\"_type\":\"List\",\"elts\":[\x7b\"_type\":\"Name\"\x7d,\x7b\"_type\":\"Name\"\x7d]\x7d"
    let loaded := Intake.load session (.ofText "d" text .tree)
    let entries := Intake.history 1 [program, broken, loaded]
    (Intake.numbersOf (Intake.trees entries)).Nodup ∧
      Intake.numbersOf (Intake.trees entries) =
        [12, 11, 5, 1, 7, 3, 8, 9, 10, 19, 20, 21] ∧
      (19, loaded) ∈ entries ∧ ∃ tree, (loaded.run 19).1 = .ok tree ∧
        ∃ document, Json.read text = .ok document ∧
          tree.toValue.heads.map Head.id =
            List.range' 19 (Exchange.nodeObjects document).length ∧
          tree.toValue.heads.map Head.unlined =
            (Exchange.headsFrom "d" 19 (Exchange.nodeObjects document)).map Head.unlined := by
  intro session program broken text loaded entries
  have hbroken : (program.run 1).2 = 13 := by decide +kernel
  have hloaded : (broken.run 13).2 = 19 := by decide +kernel
  have hmem : (19, loaded) ∈ entries := by
    simp [entries, Intake.history, hbroken, hloaded]
  obtain ⟨tree, htree, -⟩ : ∃ tree, (loaded.run 19).1 = .ok tree ∧ tree.head.id = 19 := by
    decide +kernel
  obtain ⟨hnodup, hdocument⟩ := numbers_of_intakes 1 [program, broken, loaded]
  exact ⟨hnodup, by decide +kernel, hmem, tree, htree,
    hdocument (19, loaded) hmem tree htree "d" text rfl⟩

end FunctionIR
