import FunctionIR.Proofs.Reading.Spans
import FunctionIR.Proofs.Layout.Indentation

/-!
# Contexts

A name, an attribute, a subscript, a tuple or a list has a context, which says
whether it is read or assigned to.  In the tree of a program text the context
of every such node is that of its position, and what is of another kind is not
assigned to (`Node.FitsContext`).

Expressions are read with the context of what is read.  So it all depends on
`store`, which must reach the elements of tuples and lists and nothing else.
What it finds there that cannot be assigned to it names, the first one in the
text first; and where it finds no such thing the contexts are all it changes.
-/

namespace FunctionIR

open Grammar (Phrase Place Rule)

/-! ### The context of a node -/

/-- The context in a node. -/
def Node.context? (node : Node) : Option Context :=
  match node.field? "ctx" with
  | some (.node ⟨_, .context context, _, _⟩ _) => some context
  | _ => none

/-- What can be assigned to has the context of its position, and nothing else is
assigned to. -/
structure Node.FitsContext (assigned : Bool) (node : Node) : Prop where
  context : node.head.kind.isAssignable = true →
    node.context? = some (if assigned then .store else .load)
  assignable : assigned = true → node.head.kind.isAssignable = true

/-- A node of an expression has the context of its position, and is no
statement. -/
structure Node.InExpression (assigned : Bool) (node : Node) : Prop
    extends node.FitsContext assigned where
  role : node.head.kind.role ≠ some .statement

/-- All nodes of a value that is assigned to or is not have the property, each
with its own standing. -/
def Value.Each (P : Bool → Node → Prop) (assigned : Bool) (value : Value) : Prop :=
  ∀ entry ∈ value.standings assigned, P entry.1 entry.2

/-- The same of several values. -/
def ItemsEach (P : Bool → Node → Prop) (assigned : Bool) (items : List Value) : Prop :=
  ∀ entry ∈ Value.standingsOfItems assigned items, P entry.1 entry.2

/-- The same of the fields of a kind. -/
def FieldsEach (P : Bool → Node → Prop) (kind : Kind) (assigned : Bool) (fields : Fields) : Prop :=
  ∀ entry ∈ Value.standingsOfFields kind assigned fields, P entry.1 entry.2

section

variable {P Q : Bool → Node → Prop} {assigned : Bool} {kind : Kind} {head : Head} {name : String}
  {value : Value} {items more : List Value} {fields rest : Fields}

theorem Value.Each.mono (hPQ : ∀ assigned node, P assigned node → Q assigned node)
    (h : value.Each P assigned) : value.Each Q assigned :=
  fun entry hentry => hPQ _ _ (h entry hentry)

theorem ItemsEach.mono (hPQ : ∀ assigned node, P assigned node → Q assigned node)
    (h : ItemsEach P assigned items) : ItemsEach Q assigned items :=
  fun entry hentry => hPQ _ _ (h entry hentry)

theorem each_scalar (s : Scalar) : (Value.scalar s).Each P assigned := List.forall_mem_nil _

theorem each_str (text : String) : (Value.str text).Each P assigned := List.forall_mem_nil _

theorem each_absent : Value.absent.Each P assigned := List.forall_mem_nil _

theorem each_getD {value : Option Value} (h : ∀ v ∈ value, v.Each P assigned) :
    (value.getD .absent).Each P assigned := by
  cases value with
  | none => exact each_absent
  | some v => exact h v rfl

/-- A node and the nodes of its fields. -/
theorem each_node : (Value.node head fields).Each P assigned ↔
    P assigned ⟨head, fields⟩ ∧ FieldsEach P head.kind assigned fields :=
  List.forall_mem_cons

theorem itemsEach_nil : ItemsEach P assigned [] := List.forall_mem_nil _

/-- The first value and the others. -/
theorem itemsEach_cons : ItemsEach P assigned (value :: items) ↔
    value.Each P assigned ∧ ItemsEach P assigned items :=
  List.forall_mem_append

theorem itemsEach_single (h : value.Each P assigned) : ItemsEach P assigned [value] :=
  itemsEach_cons.mpr ⟨h, itemsEach_nil⟩

theorem ItemsEach.append (h : ItemsEach P assigned items) (hmore : ItemsEach P assigned more) :
    ItemsEach P assigned (items ++ more) := by
  unfold ItemsEach
  rw [Value.standingsOfItems_append]
  exact List.forall_mem_append.mpr ⟨h, hmore⟩

/-- Every node of every value. -/
theorem itemsEach_of_forall (h : ∀ v ∈ items, v.Each P assigned) : ItemsEach P assigned items := by
  induction items with
  | nil => exact itemsEach_nil
  | cons value rest ih =>
      obtain ⟨hvalue, hrest⟩ := List.forall_mem_cons.mp h
      exact itemsEach_cons.mpr ⟨hvalue, ih hrest⟩

theorem FieldsEach.none : FieldsEach P kind assigned [] := List.forall_mem_nil _

/-- One more field, in the standing it has in the kind. -/
theorem FieldsEach.field (hvalue : value.Each P (kind.assigns assigned name))
    (hrest : FieldsEach P kind assigned rest) : FieldsEach P kind assigned ((name, value) :: rest) :=
  List.forall_mem_append.mpr ⟨hvalue, hrest⟩

/-- A field that is set, in the standing it has in the kind. -/
theorem FieldsEach.set (hvalue : value.Each P (kind.assigns assigned name))
    (h : FieldsEach P kind assigned fields) :
    FieldsEach P kind assigned (Members.set name value fields) := by
  induction fields with
  | nil => exact .field hvalue .none
  | cons field rest ih =>
      obtain ⟨key, old⟩ := field
      obtain ⟨hold, hrest⟩ := List.forall_mem_append.mp h
      rw [Members.set]
      split
      next hkey =>
        subst hkey
        exact .field hvalue hrest
      next => exact .field hold (ih hrest)

/-- Of a kind that cannot be assigned to only the position matters. -/
theorem fitsContext_of_not (h : head.kind.isAssignable = false) :
    Node.FitsContext false ⟨head, fields⟩ where
  context hassignable := by
    rw [h] at hassignable
    cases hassignable
  assignable := nofun

end

/-- The elements of a tuple or a list stand as it does. -/
theorem FieldsEach.elements {P : Bool → Node → Prop} {kind : Kind} {assigned : Bool}
    {items : List Value} {rest : Fields} (hkind : kind = .tuple ∨ kind = .list)
    (h : FieldsEach P kind assigned (("elts", .list items) :: rest)) :
    ItemsEach P assigned items := by
  obtain ⟨hitems, -⟩ := List.forall_mem_append.mp h
  rwa [Kind.assigns_elements hkind] at hitems

namespace Reading

variable {file : String} {start stop : Place}

/-- Everything in the value is read, or assigned to, as the positions say, and
nothing in it is a statement. -/
abbrev Expresses (assigned : Bool) (value : Value) : Prop := value.Each Node.InExpression assigned

/-- The same of several values. -/
abbrev Express (assigned : Bool) (values : List Value) : Prop :=
  ItemsEach Node.InExpression assigned values

/-! ### Expressions -/

/-- A node that is read, of a kind that cannot be assigned to. -/
theorem expresses_node {head : Head} {fields : Fields} (hkind : head.kind.isAssignable = false)
    (hrole : head.kind.role ≠ some .statement)
    (hfields : FieldsEach Node.InExpression head.kind false fields) :
    Expresses false (.node head fields) :=
  each_node.mpr ⟨⟨fitsContext_of_not hkind, hrole⟩, hfields⟩

/-- A node that is read and says so. -/
theorem expresses_loaded {head : Head} {fields : Fields}
    (hcontext : Node.context? ⟨head, fields⟩ = some .load)
    (hrole : head.kind.role ≠ some .statement)
    (hfields : FieldsEach Node.InExpression head.kind false fields) :
    Expresses false (.node head fields) :=
  each_node.mpr ⟨⟨⟨fun _ => hcontext, nofun⟩, hrole⟩, hfields⟩

/-- A node without fields that is neither assigned to nor a statement. -/
theorem expresses_bareNode (id : Nat) {kind : Kind} (hkind : kind.isAssignable = false)
    (hrole : kind.role ≠ some .statement) : Expresses false (bareNode id kind) :=
  expresses_node hkind hrole .none

/-- A tuple or a list of expressions that are read. -/
theorem expresses_sequenceNode {id : Nat} {kind : Kind} {items : List Value}
    (hkind : kind = .tuple ∨ kind = .list) (hitems : Express false items) :
    Expresses false (sequenceNode (placedHead file id kind start stop) items) := by
  have hctx : Expresses false (bareNode (id + 1) (.context .load)) :=
    expresses_bareNode _ rfl nofun
  rcases hkind with rfl | rfl
  · exact expresses_loaded rfl nofun (.field hitems (.field hctx .none))
  · exact expresses_loaded rfl nofun (.field hitems (.field hctx .none))

/-- What is found is read.  A value that is gone on from is read as well. -/
def Finding.Expresses : Finding → Prop
  | .expression _ value => Reading.Expresses false value
  | .expressions _ values | .elements _ values _ => Express false values
  | .comparisons _ first second | .arguments _ first second =>
    Express false first ∧ Express false second
  | .operations _ before _ value | .trailers _ before _ value =>
    Reading.Expresses false before → Reading.Expresses false value

/-- **Everything in an expression is read.** -/
theorem Finds.expresses {c d : Nat} {finding : Finding} (h : Finds file c finding d) :
    finding.Expresses := by
  -- names, attributes, subscripts and sequences have a context, which says `load` here
  induction h with
  | conditional _ _ _ ihbody ihtest ihorelse =>
      exact expresses_node rfl nofun (.field ihtest (.field ihbody (.field ihorelse .none)))
  | joined _ _ ih | negation _ ih | sign _ _ ih =>
      exact expresses_node rfl nofun
        (.field (expresses_bareNode _ rfl nofun) (.field ih .none))
  | comparison _ _ ihleft ihrest =>
      exact expresses_node rfl nofun (.field ihleft (.field ihrest.1 (.field ihrest.2 .none)))
  | chain _ _ _ ihleft ihrest => exact ihrest ihleft
  | power _ _ ihbase ihexponent =>
      exact expresses_node rfl nofun
        (.field ihbase (.field (expresses_bareNode _ rfl nofun) (.field ihexponent .none)))
  | primary _ _ ihatom ihrest => exact ihrest ihatom
  | unit => exact expresses_sequenceNode (.inl rfl) itemsEach_nil
  | display _ ih => exact expresses_sequenceNode (.inr rfl) ih
  | alone _ _ ih => exact (itemsEach_cons.mp ih).1
  | tuple _ _ _ ih => exact expresses_sequenceNode (.inl rfl) ih
  | name =>
      exact expresses_loaded rfl nofun
        (.field (each_str _) (.field (expresses_bareNode _ rfl nofun) .none))
  | literal =>
      exact expresses_node rfl nofun (.field (each_scalar _) (.field each_absent .none))
  | passed _ _ ih | comma _ ih => exact ih
  | nothing | noElement => exact itemsEach_nil
  | next _ _ ihvalue ihrest | element _ _ ihvalue ihrest =>
      exact itemsEach_cons.mpr ⟨ihvalue, ihrest⟩
  | notCompared | noArgument => exact ⟨itemsEach_nil, itemsEach_nil⟩
  | compared _ _ _ ihright ihrest =>
      exact ⟨itemsEach_cons.mpr ⟨expresses_bareNode _ rfl nofun, ihrest.1⟩,
        itemsEach_cons.mpr ⟨ihright, ihrest.2⟩⟩
  | notOperated | notExtended => exact id
  | operated _ _ _ ihright ihrest =>
      intro hleft
      exact ihrest (expresses_node rfl nofun
        (.field hleft (.field (expresses_bareNode _ rfl nofun) (.field ihright .none))))
  | called _ _ ihargs ihrest =>
      intro hvalue
      exact ihrest (expresses_node rfl nofun
        (.field hvalue (.field ihargs.1 (.field ihargs.2 .none))))
  | selected _ ihrest =>
      intro hvalue
      exact ihrest (expresses_loaded rfl nofun
        (.field hvalue (.field (each_str _) (.field (expresses_bareNode _ rfl nofun) .none))))
  | subscripted _ _ ihindex ihrest =>
      intro hvalue
      exact ihrest (expresses_loaded rfl nofun
        (.field hvalue (.field ihindex (.field (expresses_bareNode _ rfl nofun) .none))))
  | keyword _ _ ihvalue ihrest =>
      refine ⟨ihrest.1, itemsEach_cons.mpr ⟨?_, ihrest.2⟩⟩
      exact expresses_node rfl nofun (.field (each_str _) (.field ihvalue .none))
  | argument _ _ ihvalue ihrest =>
      exact ⟨itemsEach_cons.mpr ⟨ihvalue, ihrest.1⟩, ihrest.2⟩

/-! ### Targets -/

mutual

/-- **What is stored is assigned to.** -/
theorem Stores.expresses : {c d : Nat} → {value target : Value} → Stores c value target d →
    Expresses false value → Expresses true target
  | _, _, _, _, .single hkind hassignable _, h => by
      obtain ⟨hnode, hfields⟩ := each_node.mp h
      refine each_node.mpr ⟨⟨⟨fun _ => ?_, fun _ => hassignable⟩, hnode.role⟩, .set ?_ ?_⟩
      · rw [Node.context?, Node.field?, Members.get?_set_self]
        rfl
      · rw [Kind.assigns_ctx]
        exact expresses_bareNode _ rfl nofun
      · unfold FieldsEach
        rw [Value.standingsOfFields_congr fun field _ => Kind.assigns_eq hkind true field.1]
        exact hfields
  | _, _, _, _, .sequence hkind hitems, h => by
      obtain ⟨hnode, hfields⟩ := each_node.mp h
      have hvalues := StoresAll.express hitems (hfields.elements hkind)
      refine each_node.mpr ⟨⟨⟨fun _ => rfl, fun _ => Kind.isAssignable_of_sequence hkind⟩, hnode.role⟩,
        .field ?_ (.field ?_ .none)⟩
      · rw [Kind.assigns_elements hkind]
        exact hvalues
      · rw [Kind.assigns_ctx]
        exact expresses_bareNode _ rfl nofun

/-- Storing expressions that are read gives targets. -/
theorem StoresAll.express : {c d : Nat} → {values targets : List Value} →
    StoresAll c values targets d → Express false values →
    Express true targets
  | _, _, _, _, .nil, _ => itemsEach_nil
  | _, _, _, _, .cons hvalue hrest, h => by
      obtain ⟨hfirst, hothers⟩ := itemsEach_cons.mp h
      exact itemsEach_cons.mpr ⟨Stores.expresses hvalue hfirst, StoresAll.express hrest hothers⟩

end

/-- A target that is found is stored. -/
theorem FindsTarget.expresses {c d : Nat} {phrase : Phrase} {target : Value}
    (h : FindsTarget file c phrase target d) : Expresses true target := by
  cases h with
  | mk hvalue hstores => exact hstores.expresses hvalue.expresses

/-- Targets that are found are stored. -/
theorem FindsTargets.express {c d : Nat} {phrases : List Phrase} {targets : List Value}
    {value : Phrase} (h : FindsTargets file c phrases targets value d) : Express true targets := by
  induction h with
  | value => exact itemsEach_nil
  | target htarget _ ih => exact itemsEach_cons.mpr ⟨htarget.expresses, ih⟩

/-! ### Parameters -/

/-- All values that have been read of parameters. -/
def Parameters.values (p : Parameters) : List Value :=
  p.positionalOnly ++ p.positional ++ p.rest.toList ++ p.keywordOnly ++ p.keywordDefaults ++
    p.keywords.toList ++ p.defaults

/-- The parts of a parameter are expressions that are read. -/
theorem FindsParts.expresses {c d : Nat} {phrases : List Phrase} {sofar parts : ParameterParts}
    (h : FindsParts file c phrases sofar parts d)
    (hannotated : ∀ v ∈ sofar.annotated, Expresses false v)
    (hdefault : ∀ v ∈ sofar.default, Expresses false v) :
    (∀ v ∈ parts.annotated, Expresses false v) ∧ ∀ v ∈ parts.default, Expresses false v := by
  induction h with
  | done => exact ⟨hannotated, hdefault⟩
  | name _ ih => exact ih hannotated hdefault
  | hint hvalue _ ih =>
      have hfound := finds_expression _ hvalue
      exact ih (by rintro _ ⟨⟩; exact hfound.expresses) hdefault
  | default hvalue _ ih =>
      have hfound := finds_expression _ hvalue
      exact ih hannotated (by rintro _ ⟨⟩; exact hfound.expresses)

/-- A parameter and its default are expressions that are read. -/
theorem FindsParameter.expresses {c d : Nat} {phrases : List Phrase} {arg : Value}
    {default : Option Value} (h : FindsParameter file c start stop phrases arg default d) :
    Expresses false arg ∧ ∀ v ∈ default, Expresses false v := by
  cases h with
  | mk hparts =>
      obtain ⟨hannotated, hdefault⟩ := hparts.expresses nofun nofun
      exact ⟨expresses_node rfl nofun
        (.field (each_str _) (.field (each_getD hannotated) (.field each_absent .none))), hdefault⟩

/-- What is added is added to some group. -/
theorem Parameters.values_addPlain {p q : Parameters} {arg : Value} {default : Option Value}
    (h : p.addPlain arg default = some q) :
    ∀ v ∈ q.values, v ∈ p.values ∨ v = arg ∨ v ∈ default ∨ v = .absent := by
  intro v hv
  obtain ⟨-, rfl⟩ | ⟨-, value, rfl, rfl⟩ | ⟨-, -, -, rfl⟩ := Parameters.addPlain_eq_some h
  · cases default <;> grind [Parameters.values]
  · grind [Parameters.values]
  · grind [Parameters.values]

/-- A slash changes no value of the parameters. -/
theorem Parameters.values_addSlash {p q : Parameters} (h : p.addSlash = some q) :
    ∀ v ∈ q.values, v ∈ p.values := by
  intro v hv
  obtain ⟨-, -, rfl⟩ := Parameters.addSlash_eq_some h
  grind [Parameters.values]

/-- All values of the parameters are expressions that are read. -/
theorem FindsParameters.express {c d : Nat} {phrases : List Phrase} {p q : Parameters}
    (h : FindsParameters file c phrases p q d) (hp : ∀ v ∈ p.values, Expresses false v) :
    ∀ v ∈ q.values, Expresses false v := by
  induction h with
  | done => exact hp
  | slash hadded _ ih =>
      exact ih fun v hv => hp v (Parameters.values_addSlash hadded v hv)
  | plain hparameter hadded _ ih =>
      obtain ⟨harg, hdefault⟩ := hparameter.expresses
      refine ih fun v hv => ?_
      rcases Parameters.values_addPlain hadded v hv with hv | rfl | hv | rfl
      · exact hp v hv
      · exact harg
      · exact hdefault v hv
      · exact each_absent
  | star _ _ ih => exact ih hp
  | @varargs _ _ _ _ _ _ _ _ arg _ p _ _ _ hparameter _ ih =>
      refine ih fun v hv => ?_
      have hcases : v ∈ p.values ∨ v = arg := by grind [Parameters.values]
      rcases hcases with hv | rfl
      · exact hp v hv
      · exact hparameter.expresses.1
  | @kwargs _ _ _ _ _ _ _ _ arg _ p _ hparameter _ ih =>
      refine ih fun v hv => ?_
      have hcases : v ∈ p.values ∨ v = arg := by grind [Parameters.values]
      rcases hcases with hv | rfl
      · exact hp v hv
      · exact hparameter.expresses.1

/-- What all values of parameters have, the fields of their node have. -/
theorem Parameters.fieldsEach {P : Bool → Node → Prop} {p : Parameters}
    (h : ∀ v ∈ p.values, v.Each P false) (id : Nat) :
    ∃ fields, p.node id = .node ⟨id, .arguments, none, none⟩ fields ∧
      FieldsEach P .arguments false fields := by
  simp only [Parameters.values, List.forall_mem_append] at h
  obtain ⟨⟨⟨⟨⟨⟨hpositionalOnly, hpositional⟩, hrest⟩, hkeywordOnly⟩, hkeywordDefaults⟩, hkeywords⟩,
    hdefaults⟩ := h
  exact ⟨_, rfl,
    .field (itemsEach_of_forall hpositionalOnly) (.field (itemsEach_of_forall hpositional)
      (.field (each_getD fun v hv => hrest v (Option.mem_toList.mpr hv))
        (.field (itemsEach_of_forall hkeywordOnly) (.field (itemsEach_of_forall hkeywordDefaults)
          (.field (each_getD fun v hv => hkeywords v (Option.mem_toList.mpr hv))
            (.field (itemsEach_of_forall hdefaults) .none))))))⟩

/-- The node of parameters is one of expressions that are read. -/
theorem Parameters.expresses_node {p : Parameters} (h : ∀ v ∈ p.values, Expresses false v)
    (id : Nat) : Expresses false (p.node id) := by
  obtain ⟨fields, hnode, hfields⟩ := Parameters.fieldsEach h id
  rw [hnode]
  exact Reading.expresses_node rfl nofun hfields

/-! ### Statements -/

/-- All nodes of the value have the contexts of their positions. -/
abbrev InContext (assigned : Bool) (value : Value) : Prop := value.Each Node.FitsContext assigned

/-- The same of several values. -/
abbrev AllInContext (assigned : Bool) (values : List Value) : Prop :=
  ItemsEach Node.FitsContext assigned values

variable {assigned : Bool} {value : Value} {values : List Value}

/-- An expression fits its context. -/
theorem inContext_of_expresses (h : Expresses assigned value) : InContext assigned value :=
  h.mono fun _ _ hnode => hnode.toFitsContext

/-- Expressions fit their context. -/
theorem allInContext_of_express (h : Express assigned values) : AllInContext assigned values :=
  h.mono fun _ _ hnode => hnode.toFitsContext

theorem inContext_getD {value : Option Value} (h : ∀ v ∈ value, Expresses false v) :
    InContext false (value.getD .absent) :=
  each_getD fun v hv => inContext_of_expresses (h v hv)

/-- A statement, of which only the fields matter. -/
theorem inContext_statement {id : Nat} {kind : Kind} {fields : Fields}
    (hkind : kind.isAssignable = false)
    (hfields : FieldsEach Node.FitsContext kind false fields) :
    InContext false (.node (placedHead file id kind start stop) fields) :=
  each_node.mpr ⟨fitsContext_of_not hkind, hfields⟩

/-- What a word stands for cannot be assigned to. -/
theorem isAssignable_of_wordKind {rule : Rule} {kind : Kind} (h : wordKind rule = some kind) :
    kind.isAssignable = false := by
  unfold wordKind at h
  split at h <;> cases h <;> rfl

/-- A simple statement fits its context. -/
theorem FindsSimple.inContext {c d : Nat} {phrase : Phrase}
    (h : FindsSimple file c phrase value d) : InContext false value := by
  cases h with
  | word hkind => exact inContext_statement (isAssignable_of_wordKind hkind) .none
  | returned => exact inContext_statement rfl (.field each_absent .none)
  | returnedValue hvalue | evaluated hvalue =>
      exact inContext_statement rfl (.field (inContext_of_expresses hvalue.expresses) .none)
  | assigned htargets hvalue =>
      exact inContext_statement rfl (.field (allInContext_of_express htargets.express)
        (.field (inContext_of_expresses hvalue.expresses) (.field each_absent .none)))
  | augmented _ htarget hvalue =>
      exact inContext_statement rfl (.field (inContext_of_expresses htarget.expresses)
        (.field (inContext_of_expresses (expresses_bareNode _ rfl nofun))
          (.field (inContext_of_expresses hvalue.expresses) .none)))

/-- Simple statements fit their context. -/
theorem FindsSimples.inContext {c d : Nat} {phrases : List Phrase}
    (h : FindsSimples file c phrases values d) : AllInContext false values := by
  induction h with
  | nil => exact itemsEach_nil
  | cons hstatement _ ih => exact itemsEach_cons.mpr ⟨hstatement.inContext, ih⟩

/-- The parts of a function have the contexts of their positions. -/
structure FunctionParts.InContext (parts : FunctionParts) : Prop where
  arguments : ∀ v ∈ parts.arguments, Expresses false v
  returns : ∀ v ∈ parts.returns, Expresses false v
  body : AllInContext false parts.body

theorem FunctionParts.inContext_nothing : (FunctionParts.mk "" none none []).InContext :=
  ⟨nofun, nofun, itemsEach_nil⟩

/-- The arguments of a function are expressions that are read. -/
theorem FindsArguments.expresses {c d : Nat} {given : Option Value} {arguments : Value}
    (h : FindsArguments c given arguments d) (hgiven : ∀ v ∈ given, Expresses false v) :
    Expresses false arguments := by
  cases h with
  | given => exact hgiven arguments rfl
  | none => exact Parameters.expresses_node (by simp [Parameters.values, Parameters.empty]) _

/-- A function fits if its parts and decorators do. -/
theorem FindsFunction.inContext {c d : Nat} {decorators : List Value} {parts : FunctionParts}
    {function : Value} (h : FindsFunction file c start stop decorators parts function d)
    (hparts : parts.InContext) (hdecorators : Express false decorators) :
    InContext false function := by
  cases h with
  | mk harguments =>
      exact inContext_statement rfl (.field (each_str _)
        (.field (inContext_of_expresses (harguments.expresses hparts.arguments))
          (.field hparts.body (.field (allInContext_of_express hdecorators)
            (.field (inContext_getD hparts.returns) (.field each_absent .none))))))

/-- What is found has the contexts of its positions. -/
def StatementFinding.InContext : StatementFinding → Prop
  | .statements _ values | .all _ values => AllInContext false values
  | .decorated _ decorators values => Express false decorators → AllInContext false values
  | .parts _ sofar found => sofar.InContext → found.InContext

/-- What has a condition and a body is a branch or a loop. -/
theorem kind_of_condition {rule : Rule} {kind : Kind} (h : conditionKind rule = some kind) :
    kind = .ifStmt ∨ kind = .whileStmt := by
  unfold conditionKind at h
  split at h <;> cases h <;> simp

/-- **Contexts are right in all statements.** -/
theorem StatementFinds.inContext {c d : Nat} {finding : StatementFinding}
    (h : StatementFinds file c finding d) : finding.InContext := by
  induction h with
  | passed _ _ ih | block _ ih => exact ih
  | simple hstatements => exact hstatements.inContext
  | decorated _ ih => exact ih itemsEach_nil
  | function _ hfunction ih =>
      exact itemsEach_single (hfunction.inContext (ih FunctionParts.inContext_nothing) itemsEach_nil)
  | conditional hkind _ htest _ ihorelse ihbody =>
      have htest := inContext_of_expresses htest.expresses
      refine itemsEach_single ?_
      rcases kind_of_condition hkind with rfl | rfl
      · exact inContext_statement rfl (.field htest (.field ihbody (.field ihorelse .none)))
      · exact inContext_statement rfl (.field htest (.field ihbody (.field ihorelse .none)))
  | loop _ htarget hiter _ ihorelse ihbody =>
      exact itemsEach_single (inContext_statement rfl
        (.field (inContext_of_expresses htarget.expresses)
          (.field (inContext_of_expresses hiter.expresses)
            (.field ihbody (.field ihorelse (.field each_absent .none))))))
  | nothing => exact itemsEach_nil
  | next _ _ ihfirst ihrest => exact ItemsEach.append ihfirst ihrest
  | decorator hvalue _ ih =>
      intro hdecorators
      exact ih (ItemsEach.append hdecorators (itemsEach_single hvalue.expresses))
  | decoratedFunction _ hfunction ih =>
      intro hdecorators
      exact itemsEach_single (hfunction.inContext (ih FunctionParts.inContext_nothing) hdecorators)
  | undecorated => exact fun _ => itemsEach_nil
  | done => exact id
  | name _ ih => exact fun hsofar => ih { hsofar with }
  | parameters hparameters _ ih =>
      intro hsofar
      have hp := hparameters.express (by simp [Parameters.values, Parameters.empty])
      exact ih { hsofar with
        arguments := by rintro _ ⟨⟩; exact Parameters.expresses_node hp _ }
  | returns hvalue _ ih =>
      intro hsofar
      exact ih { hsofar with returns := by rintro _ ⟨⟩; exact hvalue.expresses }
  | body _ _ ihbody ih => exact fun hsofar => ih { hsofar with body := ihbody }

end Reading

/-! ### What storing changes -/

namespace Value

mutual

/-- The value with its contexts taken out. -/
def withoutContexts : Value → Value
  | .node head fields => .node head (withoutContextsOfFields fields)
  | .list items => .list (withoutContextsOfItems items)
  | .scalar s => .scalar s
  | .foreign document => .foreign document

/-- The same of several values. -/
def withoutContextsOfItems : List Value → List Value
  | [] => []
  | item :: rest => withoutContexts item :: withoutContextsOfItems rest

/-- The same of fields. -/
def withoutContextsOfFields : List (String × Value) → List (String × Value)
  | [] => []
  | (name, value) :: rest =>
    (name, if name = "ctx" then .absent else withoutContexts value) ::
      withoutContextsOfFields rest

end

/-- It does not matter which context a field has. -/
theorem withoutContextsOfFields_set {fields : Fields} {old : Value}
    (h : Members.get? "ctx" fields = some old) (value : Value) :
    withoutContextsOfFields (Members.set "ctx" value fields) = withoutContextsOfFields fields := by
  induction fields with
  | nil => cases h
  | cons field rest ih =>
      obtain ⟨key, other⟩ := field
      rw [Members.get?] at h
      rw [Members.set]
      split at h
      next hkey => rw [if_pos hkey, withoutContextsOfFields, withoutContextsOfFields, hkey, if_pos rfl,
          if_pos rfl]
      next hkey => rw [if_neg hkey, withoutContextsOfFields, withoutContextsOfFields, ih h]

end Value

namespace Reading

mutual

/-- **Storing changes contexts only.** -/
theorem Stores.withoutContexts : {c d : Nat} → {value target : Value} →
    Stores c value target d → target.withoutContexts = value.withoutContexts
  | _, _, _, _, .single _ _ hctx => by
      rw [Value.withoutContexts, Value.withoutContexts, Value.withoutContextsOfFields_set hctx]
  | _, _, _, _, .sequence _ hitems => by
      simp [Value.withoutContexts, Value.withoutContextsOfFields, StoresAll.withoutContexts hitems]

theorem StoresAll.withoutContexts : {c d : Nat} → {values targets : List Value} →
    StoresAll c values targets d →
    Value.withoutContextsOfItems targets = Value.withoutContextsOfItems values
  | _, _, _, _, .nil => rfl
  | _, _, _, _, .cons hvalue hrest => by
      rw [Value.withoutContextsOfItems, Value.withoutContextsOfItems,
        Stores.withoutContexts hvalue, StoresAll.withoutContexts hrest]

end

end Reading

/-! ### Offenders in the order of the text -/

/-- The one node ends before the other one starts, or where it does. -/
def Node.Precedes (a b : Node) : Prop :=
  ∃ s t, a.head.span = some s ∧ b.head.span = some t ∧ s.stop.UpTo t.start

namespace Reading

variable {H : Head → Prop} {file : String} {lo lo' mid hi hi' : Place}

/-- The node covers a stretch between the places. -/
def Between (file : String) (lo hi : Place) (node : Node) : Prop :=
  ∃ start stop, lo ≤ start ∧ stop ≤ hi ∧ node.head.span = some (spanOf file start stop)

theorem Between.mono {node : Node} (h : Between file lo hi node) (hlo : lo' ≤ lo) (hhi : hi ≤ hi') :
    Between file lo' hi' node := by
  obtain ⟨start, stop, hstart, hstop, hspan⟩ := h
  exact ⟨start, stop, le_trans hlo hstart, le_trans hstop hhi, hspan⟩

/-- A node up to a place precedes one from there on. -/
theorem Between.precedes {a b : Node} (ha : Between file lo mid a) (hb : Between file mid hi b) :
    a.Precedes b := by
  obtain ⟨_, stop, -, hstop, ha⟩ := ha
  obtain ⟨start, _, hstart, -, hb⟩ := hb
  exact ⟨_, _, ha, hb, locate_upTo (le_trans hstop hstart)⟩

mutual

/-- The offenders of an expression come in the order of the text. -/
theorem offenders_pairwise (value : Value) {lo hi : Place}
    (h : Fits H (.node .expression) value) (hlies : Lies file lo hi value) :
    (∀ node ∈ value.offenders, Between file lo hi node) ∧
      value.offenders.Pairwise Node.Precedes := by
  obtain ⟨head, fields, rfl, hrole, -, hfields⟩ := h.exists_node
  cases hlies with
  | unplaced hne => exact absurd hrole hne
  | @placed _ _ start stop _ _ hstart hin hstop hlocation hspan hlie =>
    by_cases hkind : head.kind = .tuple ∨ head.kind = .list
    · rw [elements_signature hkind] at hfields
      cases hfields with
      | cons helements hfields =>
        cases hfields with
        | cons hctx hfields =>
          cases hfields
          cases helements with
          | @list _ items hitems =>
            rw [offenders_sequence hkind hctx]
            obtain ⟨hbetween, hpairwise⟩ := offendersOfItems_pairwise items hitems hlie.elements
            exact ⟨fun node hnode => (hbetween node hnode).mono hstart hstop, hpairwise⟩
    · rw [offenders_single hrole hkind hfields]
      split
      · exact ⟨List.forall_mem_nil _, .nil⟩
      · exact ⟨List.forall_mem_singleton.mpr ⟨start, stop, hstart, hstop, hspan⟩,
          List.pairwise_singleton _ _⟩
termination_by sizeOf value

/-- The offenders among several expressions come in the order of the text. -/
theorem offendersOfItems_pairwise (items : List Value) {lo hi : Place}
    (h : ItemsFit H (.node .expression) items) (hlie : ItemsLie file lo hi items) :
    (∀ node ∈ Value.offendersOfItems items, Between file lo hi node) ∧
      (Value.offendersOfItems items).Pairwise Node.Precedes := by
  cases h with
  | nil => exact ⟨List.forall_mem_nil _, .nil⟩
  | @cons _ value rest hvalue hrest =>
    cases hlie with
    | cons hlo hhi hlies hlie =>
      obtain ⟨hfirst, hpairwise⟩ := offenders_pairwise value hvalue hlies
      obtain ⟨hothers, hpairwise'⟩ := offendersOfItems_pairwise rest hrest hlie
      rw [Value.offendersOfItems_cons]
      refine ⟨List.forall_mem_append.mpr
          ⟨fun node hnode => (hfirst node hnode).mono (le_refl _) hhi,
            fun node hnode => (hothers node hnode).mono hlo (le_refl _)⟩,
        List.pairwise_append.mpr ⟨hpairwise, hpairwise', fun a ha b hb => ?_⟩⟩
      exact (hfirst a ha).precedes (hothers b hb)
termination_by sizeOf items

end

theorem Names.mono {α : Type} {offenders : List Node} {P Q : α → Nat → Prop}
    {run : Except Fault α × Nat} (h : Names offenders P run) (hPQ : ∀ a d, P a d → Q a d) :
    Names offenders Q run := by
  obtain ⟨outcome, d⟩ := run
  cases offenders with
  | nil =>
      cases outcome with
      | ok a => exact hPQ a d h
      | error => exact h
  | cons first rest => cases outcome <;> exact h

end Reading

/-! ### All program texts -/

/-- In a phrase that is in place all phrases are. -/
theorem Grammar.Phrase.InPlace.inner {whole : Phrase} (h : whole.InPlace) :
    ∀ phrase ∈ whole.inner, phrase.InPlace :=
  forall_inner (fun _ h part hpart => (h.parts part hpart).1) h

open Reading in
/-- **The contexts in a program text.**  In the tree every node that can be
assigned to has the context of its position, and no other node is assigned to.
Storing a value that is read from some phrase of the text fails if and only if
the value has offenders; it names the first of them, which are in the order of
the text.  Where it succeeds it changes nothing but contexts, and these are
right. -/
theorem contexts_stand {source : Source} (hformat : source.format = .program) :
    (∀ counter tree next, source.tree.runFrom counter = (.ok tree, next) →
      ∀ entry ∈ tree.toValue.standings false, entry.2.FitsContext entry.1) ∧
    ∀ whole, source.MatchedBy whole → ∀ phrase ∈ whole.inner, ∀ counter value next,
      (expression source.name phrase).runFrom counter = (.ok value, next) →
        value.offenders.Pairwise Node.Precedes ∧
        ∀ start, Names value.offenders
          (fun target _ => target.withoutContexts = value.withoutContexts ∧
            ∀ entry ∈ target.standings true, entry.2.FitsContext entry.1)
          ((store value).runFrom start) := by
  constructor
  · intro counter tree next h
    obtain ⟨whole, body, last, -, hfound, rfl⟩ := Source.tree_found hformat h
    have hnothing : AllInContext false [] := itemsEach_nil
    have hmodule : InContext false (.node ⟨last, .module, none, none⟩
        [("body", .list body), ("type_ignores", .list [])]) :=
      each_node.mpr ⟨fitsContext_of_not rfl, .field hfound.inContext (.field hnothing .none)⟩
    exact hmodule
  · intro whole hmatched phrase hphrase counter value next h
    have hin := hmatched.inPlace.inner phrase hphrase
    have hfits := expression_fits phrase phrase.all_trivial counter value next h
    have hfound := finds_expression phrase h
    refine ⟨(offenders_pairwise value hfits (hfound.lies hin)).2, fun start => ?_⟩
    refine (store_names value hfits start).mono fun target last hstores => ?_
    exact ⟨hstores.withoutContexts, inContext_of_expresses (hstores.expresses hfound.expresses)⟩

/-- A text with targets of all sorts, and one with two offenders in a target. -/
theorem contexts_stand_targets :
    (let source := Source.ofText "m" "a, [b.c, (d[e],)] = f = 1\nfor i in a:\n    i += a\n" .program
     ∃ tree, (source.tree.runFrom 1).1 = .ok tree ∧
       ((tree.toValue.standings false).filter fun entry => entry.1).length = 9 ∧
       ∀ entry ∈ tree.toValue.standings false, entry.2.FitsContext entry.1) ∧
    (let source := Source.ofText "m" "a, (f(b), 1) = c\n" .program
     ∃ whole, source.MatchedBy whole ∧ ∃ phrase ∈ whole.inner, ∃ value,
       ((Reading.expression source.name phrase).runFrom 1).1 = .ok value ∧
       value.offenders.map (fun node => node.head.kind) = [.call, .constant] ∧
       value.offenders.Pairwise Node.Precedes ∧
       ∀ start, Reading.Names value.offenders
         (fun target _ => target.withoutContexts = value.withoutContexts ∧
           ∀ entry ∈ target.standings true, entry.2.FitsContext entry.1)
         ((Reading.store value).runFrom start)) := by
  constructor
  · intro source
    obtain ⟨tree, hread, hlength⟩ :
        ∃ tree, (source.tree.runFrom 1).1 = .ok tree ∧
          ((tree.toValue.standings false).filter fun entry => entry.1).length = 9 := by
      decide +kernel
    have hrun : source.tree.runFrom 1 = (.ok tree, (source.tree.runFrom 1).2) :=
      Prod.ext hread rfl
    exact ⟨tree, hread, hlength, (contexts_stand rfl).1 1 tree _ hrun⟩
  · intro source
    obtain ⟨s, tried, hmatched, whole, hwhole, phrase, hphrase, value, hread, hkinds⟩ :
        ∃ s tried, Rule.module.matchText source.text.toList = (.matched s, tried) ∧
          ∃ whole ∈ s.phrases, ∃ phrase ∈ whole.inner, ∃ value,
            ((Reading.expression source.name phrase).runFrom 1).1 = .ok value ∧
            value.offenders.map (fun node => node.head.kind) = [.call, .constant] := by
      decide +kernel
    obtain ⟨_, hphrases, -, -⟩ := Rule.phrase_of_matchText rfl hmatched
    rw [hphrases, List.mem_singleton] at hwhole
    subst hwhole
    have hmatches : source.MatchedBy whole := ⟨s, tried, hmatched, hphrases⟩
    have hrun : (Reading.expression source.name phrase).runFrom 1 =
        (.ok value, ((Reading.expression source.name phrase).runFrom 1).2) := Prod.ext hread rfl
    obtain ⟨hpairwise, hstore⟩ :=
      (contexts_stand rfl).2 whole hmatches phrase hphrase 1 value _ hrun
    exact ⟨whole, hmatches, phrase, hphrase, value, hread, hkinds, hpairwise, hstore⟩

end FunctionIR
