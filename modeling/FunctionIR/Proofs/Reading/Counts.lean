import FunctionIR.Proofs.Reading.StatementFitting

/-!
# How many there are

A signature says what a list holds, but not how much.  Some lists of a tree
that is read from program text are never empty, and some go in pairs
(`Node.Counts`): a comparison has an operand for every operator, a keyword-only
parameter has its default beside it, a body has a statement.

Most of this is plain from what is found alone, whatever the phrases are.  That a
body has a statement is not: there are phrases of blocks without parts.  It
takes that the phrases are formed (`Phrase.Formed`), which those of a text are.
-/

namespace FunctionIR

/-- How many items the list in a field has. -/
def listLength (name : String) (fields : Fields) : Nat :=
  (((Members.get? name fields).bind Value.asList).getD []).length

/-- The lists in the fields are as long as the kind asks for. -/
def Kind.Counts (kind : Kind) (fields : Fields) : Prop :=
  match kind with
  | .functionDef | .ifStmt | .whileStmt | .forStmt => 1 ≤ listLength "body" fields
  | .assign => 1 ≤ listLength "targets" fields
  | .boolOp => 2 ≤ listLength "values" fields
  | .compare =>
    1 ≤ listLength "ops" fields ∧ listLength "ops" fields = listLength "comparators" fields
  | .arguments =>
    listLength "kwonlyargs" fields = listLength "kw_defaults" fields ∧
      listLength "defaults" fields ≤ listLength "posonlyargs" fields + listLength "args" fields
  | _ => True

/-- The lists of the node are as long as its kind asks for. -/
def Node.Counts (node : Node) : Prop := node.head.kind.Counts node.fields

/-- The lists of all nodes in the value are as long as they should be. -/
def Value.Counted (value : Value) : Prop := ∀ node ∈ value.nodes, node.Counts

/-- The values of all fields are counted. -/
def FieldsCounted (fields : Fields) : Prop := ∀ field ∈ fields, field.2.Counted

/-- All values are counted. -/
def ItemsCounted (items : List Value) : Prop := ∀ item ∈ items, item.Counted

namespace Value

@[simp]
theorem counted_scalar (s : Scalar) : (Value.scalar s).Counted := List.forall_mem_nil _

@[simp]
theorem counted_str (text : String) : (Value.str text).Counted := List.forall_mem_nil _

@[simp]
theorem counted_absent : Value.absent.Counted := List.forall_mem_nil _

@[simp]
theorem counted_list {items : List Value} : (Value.list items).Counted ↔ ItemsCounted items := by
  simp only [Counted, nodes, mem_nodesOfItems, ItemsCounted]
  exact ⟨fun h item hitem node hnode => h node ⟨item, hitem, hnode⟩,
    fun h node ⟨item, hitem, hnode⟩ => h item hitem node hnode⟩

/-- A node is counted if its own lists and those below are. -/
@[simp]
theorem counted_node {head : Head} {fields : Fields} :
    (Value.node head fields).Counted ↔ head.kind.Counts fields ∧ FieldsCounted fields := by
  simp only [Counted, Node.Counts, nodes, List.forall_mem_cons, mem_nodesOfFields, FieldsCounted]
  exact and_congr_right fun _ =>
    ⟨fun h field hfield node hnode => h node ⟨field, hfield, hnode⟩,
      fun h node ⟨field, hfield, hnode⟩ => h field hfield node hnode⟩

end Value

theorem FieldsCounted.none : FieldsCounted [] := List.forall_mem_nil _

/-- One more field. -/
theorem FieldsCounted.field {name : String} {value : Value} {rest : Fields}
    (hvalue : value.Counted) (hrest : FieldsCounted rest) : FieldsCounted ((name, value) :: rest) :=
  List.forall_mem_cons.mpr ⟨hvalue, hrest⟩

/-- A field that is set. -/
theorem FieldsCounted.set {name : String} {value : Value} {fields : Fields}
    (hvalue : value.Counted) (h : FieldsCounted fields) :
    FieldsCounted (Members.set name value fields) := by
  induction fields with
  | nil => exact .field hvalue .none
  | cons field fields ih =>
      obtain ⟨key, old⟩ := field
      obtain ⟨hold, hrest⟩ := List.forall_mem_cons.mp h
      rw [Members.set]
      split
      · exact .field hvalue hrest
      · exact .field hold (ih hrest)

theorem itemsCounted_nil : ItemsCounted [] := List.forall_mem_nil _

/-- The first value and the others. -/
theorem itemsCounted_cons {item : Value} {rest : List Value} :
    ItemsCounted (item :: rest) ↔ item.Counted ∧ ItemsCounted rest :=
  List.forall_mem_cons

theorem itemsCounted_single {item : Value} (h : item.Counted) : ItemsCounted [item] :=
  List.forall_mem_singleton.mpr h

theorem ItemsCounted.append {items more : List Value} (h : ItemsCounted items)
    (hmore : ItemsCounted more) : ItemsCounted (items ++ more) :=
  List.forall_mem_append.mpr ⟨h, hmore⟩

theorem counted_getD {value : Option Value} (h : ∀ v ∈ value, v.Counted) :
    (value.getD .absent).Counted := by
  cases value with
  | none => exact Value.counted_absent
  | some v => exact h v rfl

namespace Reading

open Grammar (Phrase Place Rule)

variable {file : String} {start stop : Place} {c d : Nat}

/-! ### Expressions -/

/-- A node in the text is counted if it has what its kind asks for. -/
theorem counted_placed {kind : Kind} {id : Nat} {fields : Fields} (hcounts : kind.Counts fields)
    (hfields : FieldsCounted fields) :
    (Value.node (placedHead file id kind start stop) fields).Counted :=
  Value.counted_node.mpr ⟨hcounts, hfields⟩

/-- A node without fields, of a kind that asks for no list. -/
theorem counted_bareNode {kind : Kind} {id : Nat} (hcounts : kind.Counts []) :
    (bareNode id kind).Counted :=
  Value.counted_node.mpr ⟨hcounts, .none⟩

/-- A tuple or a list of counted items. -/
theorem counted_sequenceNode {kind : Kind} {id : Nat} {items : List Value}
    (hkind : kind = .tuple ∨ kind = .list) (hitems : ItemsCounted items) :
    (sequenceNode (placedHead file id kind start stop) items).Counted := by
  refine counted_placed ?_
    (.field (Value.counted_list.mpr hitems) (.field (counted_bareNode trivial) .none))
  rcases hkind with rfl | rfl <;> trivial

/-- What is found is counted.  Expressions that stand in a row are as many as their
phrases, and a chain of comparisons has an operand for every operator. -/
def Finding.Counted : Finding → Prop
  | .expression _ value => value.Counted
  | .expressions phrases values => ItemsCounted values ∧ values.length = phrases.length
  | .elements _ values _ => ItemsCounted values
  | .comparisons phrases ops comparators =>
      ItemsCounted ops ∧ ItemsCounted comparators ∧ ops.length = comparators.length ∧
        (phrases ≠ [] → ops ≠ [])
  | .operations _ value _ result | .trailers _ value _ result => value.Counted → result.Counted
  | .arguments _ args keywords => ItemsCounted args ∧ ItemsCounted keywords

/-- **What is found is counted.** -/
theorem Finds.counted {finding : Finding} (h : Finds file c finding d) : finding.Counted := by
  -- only joined operands and comparisons have lists that must not be short
  induction h with
  | conditional _ _ _ ihbody ihtest ihorelse =>
      exact counted_placed trivial (.field ihtest (.field ihbody (.field ihorelse .none)))
  | @joined _ _ _ _ _ _ _ _ _ _ values _ _ ih =>
      obtain ⟨hvalues, hlength⟩ := ih
      have hleast : 2 ≤ values.length := by
        rw [hlength]
        exact Nat.le_add_left 2 _
      exact counted_placed hleast
        (.field (counted_bareNode trivial) (.field (Value.counted_list.mpr hvalues) .none))
  | negation _ ih | sign _ _ ih =>
      exact counted_placed trivial (.field (counted_bareNode trivial) (.field ih .none))
  | comparison _ _ ihleft ihrest =>
      obtain ⟨hops, hcomparators, hpaired, hne⟩ := ihrest
      refine counted_placed ⟨?_, hpaired⟩ (.field ihleft
        (.field (Value.counted_list.mpr hops) (.field (Value.counted_list.mpr hcomparators) .none)))
      exact List.length_pos_iff.mpr (hne (List.cons_ne_nil _ _))
  | chain _ _ _ ihleft ihrest => exact ihrest ihleft
  | power _ _ ihbase ihexponent =>
      exact counted_placed trivial
        (.field ihbase (.field (counted_bareNode trivial) (.field ihexponent .none)))
  | primary _ _ ihatom ihrest => exact ihrest ihatom
  | unit => exact counted_sequenceNode (.inl rfl) itemsCounted_nil
  | display _ ih => exact counted_sequenceNode (.inr rfl) ih.1
  | alone _ _ ih => exact (itemsCounted_cons.mp ih).1
  | tuple _ _ _ ih => exact counted_sequenceNode (.inl rfl) ih
  | name =>
      exact counted_placed trivial
        (.field (Value.counted_str _) (.field (counted_bareNode trivial) .none))
  | literal =>
      exact counted_placed trivial
        (.field (Value.counted_scalar _) (.field Value.counted_absent .none))
  | passed _ _ ih | comma _ ih => exact ih
  | nothing => exact ⟨itemsCounted_nil, rfl⟩
  | next _ _ ihvalue ihrest =>
      exact ⟨itemsCounted_cons.mpr ⟨ihvalue, ihrest.1⟩, congrArg Nat.succ ihrest.2⟩
  | noElement => exact itemsCounted_nil
  | element _ _ ihvalue ihrest => exact itemsCounted_cons.mpr ⟨ihvalue, ihrest⟩
  | notCompared => exact ⟨itemsCounted_nil, itemsCounted_nil, rfl, fun h => absurd rfl h⟩
  | compared _ _ _ ihright ihrest =>
      obtain ⟨hops, hcomparators, hpaired, -⟩ := ihrest
      exact ⟨itemsCounted_cons.mpr ⟨counted_bareNode trivial, hops⟩,
        itemsCounted_cons.mpr ⟨ihright, hcomparators⟩, congrArg Nat.succ hpaired,
        fun _ => List.cons_ne_nil _ _⟩
  | notOperated | notExtended => exact id
  | operated _ _ _ ihright ihrest =>
      intro hleft
      exact ihrest (counted_placed trivial
        (.field hleft (.field (counted_bareNode trivial) (.field ihright .none))))
  | called _ _ ihargs ihrest =>
      intro hvalue
      exact ihrest (counted_placed trivial (.field hvalue
        (.field (Value.counted_list.mpr ihargs.1) (.field (Value.counted_list.mpr ihargs.2) .none))))
  | selected _ ihrest =>
      intro hvalue
      exact ihrest (counted_placed trivial (.field hvalue
        (.field (Value.counted_str _) (.field (counted_bareNode trivial) .none))))
  | subscripted _ _ ihindex ihrest =>
      intro hvalue
      exact ihrest (counted_placed trivial
        (.field hvalue (.field ihindex (.field (counted_bareNode trivial) .none))))
  | noArgument => exact ⟨itemsCounted_nil, itemsCounted_nil⟩
  | keyword _ _ ihvalue ihrest =>
      refine ⟨ihrest.1, itemsCounted_cons.mpr ⟨?_, ihrest.2⟩⟩
      exact counted_placed trivial (.field (Value.counted_str _) (.field ihvalue .none))
  | argument _ _ ihvalue ihrest =>
      exact ⟨itemsCounted_cons.mpr ⟨ihvalue, ihrest.1⟩, ihrest.2⟩

/-! ### Targets -/

/-- Nothing is asked of what can be assigned to. -/
theorem counts_of_isAssignable {kind : Kind} (h : kind.isAssignable = true) (fields : Fields) :
    kind.Counts fields := by
  cases kind <;> trivial

mutual

/-- Storing a counted value gives a counted target. -/
theorem Stores.counted : {c d : Nat} → {value target : Value} → Stores c value target d →
    value.Counted → target.Counted
  | _, _, _, _, .single _ hassignable _, h => by
      obtain ⟨-, hfields⟩ := Value.counted_node.mp h
      exact Value.counted_node.mpr ⟨counts_of_isAssignable hassignable _,
        .set (counted_bareNode trivial) hfields⟩
  | _, _, _, _, .sequence hkind hstores, h => by
      obtain ⟨-, hfields⟩ := Value.counted_node.mp h
      have hitems := Value.counted_list.mp (List.forall_mem_cons.mp hfields).1
      have hstored := StoresAll.counted hstores hitems
      exact Value.counted_node.mpr
        ⟨counts_of_isAssignable (Kind.isAssignable_of_sequence hkind) _,
          .field (Value.counted_list.mpr hstored) (.field (counted_bareNode trivial) .none)⟩

theorem StoresAll.counted : {c d : Nat} → {values targets : List Value} →
    StoresAll c values targets d → ItemsCounted values → ItemsCounted targets
  | _, _, _, _, .nil, _ => itemsCounted_nil
  | _, _, _, _, .cons hvalue hrest, h => by
      obtain ⟨hfirst, hothers⟩ := itemsCounted_cons.mp h
      exact itemsCounted_cons.mpr ⟨Stores.counted hvalue hfirst, StoresAll.counted hrest hothers⟩

end

/-- A target that is found is counted. -/
theorem FindsTarget.counted {phrase : Phrase} {target : Value}
    (h : FindsTarget file c phrase target d) : target.Counted := by
  cases h with
  | mk hvalue hstores => exact hstores.counted hvalue.counted

/-- The targets of an assignment are counted, and where there is more than the value
there is one. -/
theorem FindsTargets.counted {phrases : List Phrase} {targets : List Value} {value : Phrase}
    (h : FindsTargets file c phrases targets value d) :
    ItemsCounted targets ∧ (2 ≤ phrases.length → 1 ≤ targets.length) := by
  induction h with
  | value => exact ⟨itemsCounted_nil, fun h => absurd h (by simp)⟩
  | target htarget _ ih =>
      exact ⟨itemsCounted_cons.mpr ⟨htarget.counted, ih.1⟩, fun _ => Nat.le_add_left 1 _⟩

/-! ### Statements without a body -/

/-- A simple statement is counted. -/
theorem FindsSimple.counted {phrase : Phrase} {statement : Value}
    (h : FindsSimple file c phrase statement d) (hformed : phrase.Formed) : statement.Counted := by
  cases h with
  | word hkind =>
      refine counted_placed ?_ .none
      unfold wordKind at hkind
      split at hkind <;> cases hkind <;> trivial
  | returned => exact counted_placed trivial (.field Value.counted_absent .none)
  | returnedValue hvalue | evaluated hvalue =>
      exact counted_placed trivial (.field hvalue.counted .none)
  | assigned htargets hvalue =>
      obtain ⟨hcounted, hleast⟩ := htargets.counted
      obtain ⟨first, next, rest, hparts⟩ := hformed.assignment rfl
      cases hparts
      exact counted_placed (hleast (Nat.le_add_left 2 _)) (.field (Value.counted_list.mpr hcounted)
        (.field hvalue.counted (.field Value.counted_absent .none)))
  | augmented _ htarget hvalue =>
      exact counted_placed trivial (.field htarget.counted
        (.field (counted_bareNode trivial) (.field hvalue.counted .none)))

/-- Simple statements are counted. -/
theorem FindsSimples.counted {phrases : List Phrase} {statements : List Value}
    (h : FindsSimples file c phrases statements d) (hformed : ∀ phrase ∈ phrases, phrase.Formed) :
    ItemsCounted statements := by
  induction h with
  | nil => exact itemsCounted_nil
  | cons hstatement _ ih =>
      obtain ⟨hphrase, hrest⟩ := List.forall_mem_cons.mp hformed
      exact itemsCounted_cons.mpr ⟨hstatement.counted hphrase, ih hrest⟩

/-! ### Parameters -/

/-- What has been read of the parameters is counted: the keyword-only ones have
their defaults beside them, and of the others no more than all have one. -/
structure Parameters.Counted (p : Parameters) : Prop where
  positionalOnly : ItemsCounted p.positionalOnly
  positional : ItemsCounted p.positional
  rest : ∀ v ∈ p.rest, v.Counted
  keywordOnly : ItemsCounted p.keywordOnly
  keywordDefaults : ItemsCounted p.keywordDefaults
  keywords : ∀ v ∈ p.keywords, v.Counted
  defaults : ItemsCounted p.defaults
  paired : p.keywordOnly.length = p.keywordDefaults.length
  atMost : p.defaults.length ≤ p.positionalOnly.length + p.positional.length

theorem Parameters.counted_empty : Parameters.empty.Counted :=
  ⟨itemsCounted_nil, itemsCounted_nil, nofun, itemsCounted_nil, itemsCounted_nil, nofun,
    itemsCounted_nil, rfl, Nat.le_refl _⟩

/-- A plain parameter keeps the count of defaults. -/
theorem Parameters.Counted.addPlain {p p' : Parameters} (hp : p.Counted) {arg : Value}
    {default : Option Value} (harg : arg.Counted) (hdefault : ∀ v ∈ default, v.Counted)
    (h : p.addPlain arg default = some p') : p'.Counted := by
  have hatMost := hp.atMost
  obtain ⟨-, rfl⟩ | ⟨-, value, rfl, rfl⟩ | ⟨-, -, -, rfl⟩ := Parameters.addPlain_eq_some h
  · exact { hp with
      keywordOnly := hp.keywordOnly.append (itemsCounted_single harg)
      keywordDefaults := hp.keywordDefaults.append (itemsCounted_single (counted_getD hdefault))
      paired := by simp [hp.paired] }
  · exact { hp with
      positional := hp.positional.append (itemsCounted_single harg)
      defaults := hp.defaults.append (itemsCounted_single (hdefault value rfl))
      atMost := by
        simp only [List.length_append, List.length_singleton]
        omega }
  · exact { hp with
      positional := hp.positional.append (itemsCounted_single harg)
      atMost := by
        simp only [List.length_append, List.length_singleton]
        omega }

/-- A slash keeps the count of defaults. -/
theorem Parameters.Counted.addSlash {p p' : Parameters} (hp : p.Counted)
    (h : p.addSlash = some p') : p'.Counted := by
  have hatMost := hp.atMost
  obtain ⟨-, hempty, rfl⟩ := Parameters.addSlash_eq_some h
  exact { hp with
    positionalOnly := hp.positional
    positional := itemsCounted_nil
    atMost := by
      rw [hempty] at hatMost
      simpa using hatMost }

/-- The node of counted parameters is counted. -/
theorem Parameters.Counted.node {p : Parameters} (hp : p.Counted) (id : Nat) :
    (p.node id).Counted :=
  Value.counted_node.mpr ⟨⟨hp.paired, hp.atMost⟩,
    .field (Value.counted_list.mpr hp.positionalOnly)
      (.field (Value.counted_list.mpr hp.positional) (.field (counted_getD hp.rest)
        (.field (Value.counted_list.mpr hp.keywordOnly)
          (.field (Value.counted_list.mpr hp.keywordDefaults) (.field (counted_getD hp.keywords)
            (.field (Value.counted_list.mpr hp.defaults) .none))))))⟩

/-- The annotation and the default of a parameter are counted. -/
def ParameterParts.Counted (parts : ParameterParts) : Prop :=
  (∀ v ∈ parts.annotated, v.Counted) ∧ ∀ v ∈ parts.default, v.Counted

/-- The parts of a parameter are counted. -/
theorem FindsParts.counted {phrases : List Phrase} {sofar parts : ParameterParts}
    (h : FindsParts file c phrases sofar parts d) (hsofar : sofar.Counted) : parts.Counted := by
  induction h with
  | done => exact hsofar
  | name _ ih => exact ih hsofar
  | hint hread _ ih =>
      have hvalue := (finds_expression _ hread).counted
      exact ih ⟨by rintro _ ⟨⟩; exact hvalue, hsofar.2⟩
  | default hread _ ih =>
      have hvalue := (finds_expression _ hread).counted
      exact ih ⟨hsofar.1, by rintro _ ⟨⟩; exact hvalue⟩

/-- A parameter and its default are counted. -/
theorem FindsParameter.counted {phrases : List Phrase} {arg : Value} {default : Option Value}
    (h : FindsParameter file c start stop phrases arg default d) :
    arg.Counted ∧ ∀ v ∈ default, v.Counted := by
  cases h with
  | mk hparts =>
      obtain ⟨hannotated, hdefault⟩ := hparts.counted ⟨nofun, nofun⟩
      exact ⟨counted_placed trivial (.field (Value.counted_str _)
        (.field (counted_getD hannotated) (.field Value.counted_absent .none))), hdefault⟩

/-- Parameters stay counted. -/
theorem FindsParameters.counted {phrases : List Phrase} {p q : Parameters}
    (h : FindsParameters file c phrases p q d) (hp : p.Counted) : q.Counted := by
  induction h with
  | done => exact hp
  | slash hadded _ ih => exact ih (hp.addSlash hadded)
  | plain hparameter hadded _ ih =>
      obtain ⟨harg, hdefault⟩ := hparameter.counted
      exact ih (hp.addPlain harg hdefault hadded)
  | star _ _ ih => exact ih { hp with }
  | varargs _ _ hparameter _ ih =>
      exact ih { hp with rest := by rintro _ ⟨⟩; exact hparameter.counted.1 }
  | kwargs hparameter _ ih =>
      exact ih { hp with keywords := by rintro _ ⟨⟩; exact hparameter.counted.1 }

/-! ### Bodies are not empty -/

/-- The rules that stand for a statement or a suite. -/
def statementRules : List Rule :=
  [.statement, .block, .decorated, .functionDef, .ifStatement, .whileStatement, .forStatement,
    .simpleStatements]

/-- Of the phrases that stand for the statements of their part, only a statement is
one itself. -/
theorem statement_of_wrapsStatements {rule : Rule} (hwraps : wrapsStatements rule = true)
    (hrule : rule ∈ statementRules) : rule = .statement := by
  unfold wrapsStatements at hwraps
  split at hwraps
  next => rfl
  next => exact absurd hrule (by decide)
  next => exact absurd hrule (by decide)
  next => exact absurd hrule (by decide)
  next => cases hwraps

/-- The last phrase, if there is one, is a suite. -/
def EndInSuite (phrases : List Phrase) : Prop := ∀ last ∈ phrases.getLast?, last.IsSuite

/-- Behind a phrase that is no suite there is one. -/
theorem EndInSuite.behind {phrase : Phrase} {rest : List Phrase} (h : EndInSuite (phrase :: rest))
    (hphrase : ¬ phrase.IsSuite) : rest ≠ [] ∧ EndInSuite rest := by
  cases rest with
  | nil => exact absurd (h phrase rfl) hphrase
  | cons next rest =>
      rw [EndInSuite, List.getLast?_cons_cons] at h
      exact ⟨List.cons_ne_nil _ _, h⟩

/-- Where the phrases are formed there are statements: for each phrase that stands for
some, for the first of several, and for the function behind decorators.  A function whose
last part is a suite has a body. -/
def StatementFinding.Peopled : StatementFinding → Prop
  | .statements phrase values => phrase.Formed → phrase.rule ∈ statementRules → values ≠ []
  | .all phrases values =>
      (∀ phrase ∈ phrases, phrase.Formed) →
        ∀ first ∈ phrases.head?, first.rule ∈ statementRules → values ≠ []
  | .decorated phrases _ values =>
      ∀ before function, phrases = before ++ [function] → function.rule = .functionDef →
        values ≠ []
  | .parts phrases sofar found =>
      (∀ phrase ∈ phrases, phrase.Formed) → EndInSuite phrases →
        (phrases = [] → sofar.body ≠ []) → found.body ≠ []

/-- **What stands for a statement or a suite has a statement.** -/
theorem StatementFinds.peopled {finding : StatementFinding}
    (h : StatementFinds file c finding d) : finding.Peopled := by
  -- a suite is the last phrase of its statement, so the body that is found last counts
  induction h with
  | @passed _ _ _ _ _ _ inner _ hwraps _ ih =>
      intro hformed hrule
      cases statement_of_wrapsStatements hwraps hrule
      obtain ⟨_, hparts, hinner⟩ := hformed.statement rfl
      cases hparts
      refine ih (hformed.inside (by decide) inner List.mem_cons_self) ?_
      exact List.mem_of_mem_tail (List.mem_of_mem_tail (by simpa [statementRules] using hinner))
  | simple hstatements =>
      intro hformed _
      cases hstatements with
      | nil => exact absurd rfl (hformed.simpleStatements rfl)
      | cons => exact List.cons_ne_nil _ _
  | block _ ih =>
      intro hformed _
      obtain ⟨first, rest, hparts, hfirst⟩ := hformed.block rfl
      cases hparts
      exact ih (hformed.inside (by decide)) first rfl (hfirst ▸ List.mem_cons_self)
  | decorated _ ih =>
      intro hformed _
      obtain ⟨decorators, function, hparts, -, hfunction⟩ := hformed.decorated rfl
      exact ih decorators function hparts hfunction
  | function | conditional | loop => exact fun _ _ => List.cons_ne_nil _ _
  | nothing =>
      intro _ first hfirst
      cases hfirst
  | next _ _ ihfirst _ =>
      rintro hformed first ⟨⟩ hrule hnil
      exact ihfirst (hformed _ List.mem_cons_self) hrule (List.append_eq_nil_iff.mp hnil).1
  | decorator _ _ ih =>
      intro before function heq hfunction
      cases before with
      | nil =>
          cases heq
          cases hfunction
      | cons _ before =>
          cases heq
          exact ih before function rfl hfunction
  | decoratedFunction => exact fun _ _ _ _ => List.cons_ne_nil _ _
  | undecorated =>
      intro before function heq
      exact absurd heq.symm (List.append_ne_nil_of_right_ne_nil before (List.cons_ne_nil _ _))
  | done => exact fun _ _ hbody => hbody rfl
  | name _ ih | parameters _ _ ih | returns _ _ ih =>
      intro hformed hends _
      obtain ⟨hne, hrest⟩ := hends.behind (by simp [Phrase.IsSuite, Phrase.rule])
      exact ih (List.forall_mem_cons.mp hformed).2 hrest fun hnil => absurd hnil hne
  | @body _ _ _ phrase rest _ _ _ _ _ ihbody ih =>
      intro hformed hends _
      obtain ⟨hphrase, hrest⟩ := List.forall_mem_cons.mp hformed
      cases rest with
      | nil =>
          have hsuite : phrase.IsSuite := hends phrase rfl
          have hnone : EndInSuite [] := by
            intro last hlast
            cases hlast
          refine ih hrest hnone fun _ => ihbody hphrase ?_
          rcases hsuite with hrule | hrule <;> simp [hrule, statementRules]
      | cons next rest =>
          rw [EndInSuite, List.getLast?_cons_cons] at hends
          exact ih hrest hends fun hnil => absurd hnil (List.cons_ne_nil _ _)

/-- A suite has a statement. -/
theorem StatementFinds.suite_ne_nil {body : Phrase} {values : List Value}
    (h : StatementFinds file c (.statements body values) d) (hformed : body.Formed)
    (hsuite : body.IsSuite) : values ≠ [] := by
  refine h.peopled hformed ?_
  rcases hsuite with hrule | hrule <;> simp [hrule, statementRules]

/-- A function has a body. -/
theorem StatementFinds.body_ne_nil {text : List Char} {phrases : List Phrase}
    {sofar parts : FunctionParts} (h : StatementFinds file c (.parts phrases sofar parts) d)
    (hformed : (Phrase.mk .functionDef start stop text phrases).Formed) : parts.body ≠ [] := by
  obtain ⟨name, parameters, returns, body, hparts, -, -, -, hsuite⟩ := hformed.functionDef rfl
  cases hparts
  refine h.peopled (hformed.inside (by decide)) ?_ fun hnil => absurd hnil (List.cons_ne_nil _ _)
  intro last hlast
  rw [← List.append_assoc, ← List.cons_append, List.getLast?_concat] at hlast
  cases hlast
  exact hsuite

/-! ### Statements -/

/-- What has been read of a function is counted. -/
structure FunctionParts.Counted (parts : FunctionParts) : Prop where
  arguments : ∀ v ∈ parts.arguments, v.Counted
  returns : ∀ v ∈ parts.returns, v.Counted
  body : ItemsCounted parts.body

theorem FunctionParts.counted_nothing : (FunctionParts.mk "" none none []).Counted :=
  ⟨nofun, nofun, itemsCounted_nil⟩

/-- The arguments of a function are counted. -/
theorem FindsArguments.counted {given : Option Value} {arguments : Value}
    (h : FindsArguments c given arguments d) (hgiven : ∀ v ∈ given, v.Counted) :
    arguments.Counted := by
  cases h with
  | given => exact hgiven arguments rfl
  | none => exact Parameters.counted_empty.node _

/-- A function with a body is counted if its parts and decorators are. -/
theorem FindsFunction.counted {decorators : List Value} {parts : FunctionParts} {function : Value}
    (h : FindsFunction file c start stop decorators parts function d)
    (hdecorators : ItemsCounted decorators) (hparts : parts.Counted) (hbody : parts.body ≠ []) :
    function.Counted := by
  cases h with
  | mk harguments =>
      exact counted_placed (List.length_pos_iff.mpr hbody) (.field (Value.counted_str _)
        (.field (harguments.counted hparts.arguments) (.field (Value.counted_list.mpr hparts.body)
          (.field (Value.counted_list.mpr hdecorators)
            (.field (counted_getD hparts.returns) (.field Value.counted_absent .none))))))

/-- What asks for a body is satisfied with one. -/
theorem counts_of_conditionKind {rule : Rule} {kind : Kind} (h : conditionKind rule = some kind)
    {fields : Fields} (hbody : 1 ≤ listLength "body" fields) : kind.Counts fields := by
  unfold conditionKind at h
  split at h <;> cases h <;> exact hbody

/-- What is found is counted, where the phrases are formed. -/
def StatementFinding.Counted : StatementFinding → Prop
  | .statements phrase values => phrase.Formed → ItemsCounted values
  | .all phrases values => (∀ phrase ∈ phrases, phrase.Formed) → ItemsCounted values
  | .decorated phrases decorators values =>
      (∀ phrase ∈ phrases, phrase.Formed) → ItemsCounted decorators → ItemsCounted values
  | .parts phrases sofar found =>
      (∀ phrase ∈ phrases, phrase.Formed) → sofar.Counted → found.Counted

/-- **What is found in statements is counted**, where the phrases are formed. -/
theorem StatementFinds.counted {finding : StatementFinding}
    (h : StatementFinds file c finding d) : finding.Counted := by
  -- that a body is not empty does not follow from its parts, but from the suite it stands for
  induction h with
  | @passed _ _ rule _ _ _ inner _ hwraps _ ih =>
      intro hformed
      have htoken : rule.definition.spacing ≠ some .token := by
        unfold wrapsStatements at hwraps
        split at hwraps <;> first | decide | cases hwraps
      exact ih (hformed.inside htoken inner List.mem_cons_self)
  | simple hstatements => exact fun hformed => hstatements.counted (hformed.inside (by decide))
  | block _ ih => exact fun hformed => ih (hformed.inside (by decide))
  | decorated _ ih => exact fun hformed => ih (hformed.inside (by decide)) itemsCounted_nil
  | function hparts hfunction ih =>
      intro hformed
      have hcounted := ih (hformed.inside (by decide)) FunctionParts.counted_nothing
      exact itemsCounted_single
        (hfunction.counted itemsCounted_nil hcounted (hparts.body_ne_nil hformed))
  | @conditional _ _ _ _ rule _ _ _ _ _ _ _ _ _ _ hkind _ htest hbody ihorelse ihbody =>
      intro hformed
      have hrule := rule_of_condition hkind
      have htoken : rule.definition.spacing ≠ some .token := by
        rcases hrule with rfl | rfl | rfl <;> decide
      obtain ⟨_, _, _, hparts, -, hsuite⟩ := hformed.conditional hrule
      cases hparts
      obtain ⟨-, hrest⟩ := List.forall_mem_cons.mp (hformed.inside htoken)
      obtain ⟨hsecond, hrest⟩ := List.forall_mem_cons.mp hrest
      have hne := hbody.suite_ne_nil hsecond hsuite
      refine itemsCounted_single (counted_placed
        (counts_of_conditionKind hkind (List.length_pos_iff.mpr hne)) ?_)
      exact .field htest.counted (.field (Value.counted_list.mpr (ihbody hsecond))
        (.field (Value.counted_list.mpr (ihorelse hrest)) .none))
  | loop _ htarget hiter hbody ihorelse ihbody =>
      intro hformed
      obtain ⟨_, _, _, _, hparts, -, -, hsuite⟩ := hformed.forStatement rfl
      cases hparts
      obtain ⟨-, hrest⟩ := List.forall_mem_cons.mp (hformed.inside (by decide))
      obtain ⟨-, hrest⟩ := List.forall_mem_cons.mp hrest
      obtain ⟨hthird, hrest⟩ := List.forall_mem_cons.mp hrest
      have hne := hbody.suite_ne_nil hthird hsuite
      refine itemsCounted_single (counted_placed (List.length_pos_iff.mpr hne) ?_)
      exact .field htarget.counted (.field hiter.counted
        (.field (Value.counted_list.mpr (ihbody hthird))
          (.field (Value.counted_list.mpr (ihorelse hrest)) (.field Value.counted_absent .none))))
  | nothing => exact fun _ => itemsCounted_nil
  | next _ _ ihfirst ihrest =>
      intro hformed
      obtain ⟨hphrase, hrest⟩ := List.forall_mem_cons.mp hformed
      exact (ihfirst hphrase).append (ihrest hrest)
  | decorator hvalue _ ih =>
      intro hformed hdecorators
      exact ih (List.forall_mem_cons.mp hformed).2
        (hdecorators.append (itemsCounted_single hvalue.counted))
  | decoratedFunction hparts hfunction ih =>
      intro hformed hdecorators
      obtain ⟨hphrase, -⟩ := List.forall_mem_cons.mp hformed
      have hcounted := ih (hphrase.inside (by decide)) FunctionParts.counted_nothing
      exact itemsCounted_single
        (hfunction.counted hdecorators hcounted (hparts.body_ne_nil hphrase))
  | undecorated => exact fun _ _ => itemsCounted_nil
  | done => exact fun _ => id
  | name _ ih => exact fun hformed hsofar => ih (List.forall_mem_cons.mp hformed).2 { hsofar with }
  | parameters hparameters _ ih =>
      intro hformed hsofar
      have hp := hparameters.counted Parameters.counted_empty
      exact ih (List.forall_mem_cons.mp hformed).2
        { hsofar with arguments := by rintro _ ⟨⟩; exact hp.node _ }
  | returns hvalue _ ih =>
      intro hformed hsofar
      exact ih (List.forall_mem_cons.mp hformed).2
        { hsofar with returns := by rintro _ ⟨⟩; exact hvalue.counted }
  | body _ _ ihbody ih =>
      intro hformed hsofar
      obtain ⟨hphrase, hrest⟩ := List.forall_mem_cons.mp hformed
      exact ih hrest { hsofar with body := ihbody hphrase }

end Reading

/-- **The tree of a program text is counted.** -/
theorem Source.tree_counted {source : Source} (hformat : source.format = .program) :
    source.tree.Yields fun tree => tree.toValue.Counted := by
  intro counter tree next h
  obtain ⟨⟨rule, start, stop, text, parts⟩, body, last, hmatched, hfound, rfl⟩ :=
    Source.tree_found hformat h
  obtain ⟨hrule, hformed⟩ := hmatched.formed
  cases hrule
  have hbody := hfound.counted (hformed.inside (by decide))
  exact Value.counted_node.mpr ⟨trivial, .field (Value.counted_list.mpr hbody)
    (.field (Value.counted_list.mpr itemsCounted_nil) .none)⟩

end FunctionIR
