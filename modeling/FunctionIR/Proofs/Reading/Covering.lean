import FunctionIR.Proofs.Grammar.Inline
import FunctionIR.Proofs.Layout.Edges
import FunctionIR.Proofs.Layout.Indentation
import FunctionIR.Proofs.Reading.Spans

/-!
# The text of a span

A span covers the characters that stand between its ends (`Span.covered`).  The
ends of the spans in a tree are places in the text: where a phrase starts, and
where one stops.  Mostly they are those of one phrase, whose text is covered then
(`covered_of_sharp`); in a chain of operations, or of calls, attributes and
subscripts, the span leads from the start of the chain to the end of one of its
links (`Phrase.Extent`).

The first are places where a token begins (`Opens`), the others places where one
ends, or where the blanks behind one end (`Closes`).  So what a span covers begins
and ends with a character that is no layout, but for a gap of blanks at its end,
and this gap is all the blanks that stand there (`Span.CutsAtTokens`).
-/

namespace FunctionIR

open Grammar (Phrase Place Rule StartsSolid EndsSolid BehindToken clear)

/-! ### What a span covers -/

namespace Span

/-- The place is between the ends of the span. -/
def holds (span : Span) (place : Place) : Bool :=
  (span.start.line < place.line ||
      (span.start.line == place.line && span.start.column ≤ place.column)) &&
    (place.line < span.stop.line ||
      (place.line == span.stop.line && place.column < span.stop.column))

/-- The characters of a text that starts at the place, as far as they are between
the ends. -/
def coveredFrom (span : Span) : Place → List Char → List Char
  | _, [] => []
  | place, c :: rest =>
    let covered := span.coveredFrom (place.after c) rest
    if span.holds place then c :: covered else covered

/-- The characters of the text that are between the ends. -/
def covered (span : Span) (text : List Char) : List Char := span.coveredFrom .origin text

end Span

namespace Grammar

/-- Places are ordered by lines, and by columns on the same line. -/
theorem Place.le_def {a b : Place} :
    a ≤ b ↔ a.line < b.line ∨ (a.line = b.line ∧ a.column ≤ b.column) := Iff.rfl

/-- The strict order of places. -/
theorem Place.lt_def {a b : Place} :
    a < b ↔ a.line < b.line ∨ (a.line = b.line ∧ a.column < b.column) := by
  rw [lt_iff_le_not_ge, Place.le_def, Place.le_def]
  omega

/-- A character leads strictly forwards. -/
theorem Place.lt_after (place : Place) (c : Char) : place < place.after c := by
  rw [Place.lt_def]
  unfold Place.after
  split
  · exact .inl (Nat.lt_succ_self _)
  · exact .inr ⟨rfl, Nat.lt_succ_self _⟩

/-- Reading some text moves on. -/
theorem Place.lt_foldl {text : List Char} (h : text ≠ []) (place : Place) :
    place < text.foldl Place.after place := by
  obtain ⟨c, rest, rfl⟩ := List.exists_cons_of_ne_nil h
  exact lt_of_lt_of_le (place.lt_after c) (Place.le_foldl rest _)

section

variable {whole rest rest' : List Char} {p q : Place}

/-- Of two points in a text the first has more of it behind it. -/
theorem Place.Before.le_iff (hp : p.Before whole rest) (hq : q.Before whole rest') :
    p ≤ q ↔ rest'.length ≤ rest.length := by
  obtain ⟨before, rfl, rfl⟩ := hp
  obtain ⟨before', hwhole, rfl⟩ := hq
  rcases List.append_eq_append_iff.mp hwhole with ⟨between, rfl, rfl⟩ | ⟨between, rfl, rfl⟩
  · rw [List.foldl_append]
    refine iff_of_true (Place.le_foldl _ _) ?_
    rw [List.length_append]
    omega
  · rw [List.foldl_append, List.length_append]
    by_cases hnil : between = []
    · rw [hnil]
      exact iff_of_true (le_refl _) (by simp)
    · have hlength := List.length_pos_iff.mpr hnil
      exact iff_of_false (not_le_of_gt (Place.lt_foldl hnil _)) (by omega)

/-- Of two different points in a text the first has strictly more of it behind it. -/
theorem Place.Before.lt_iff (hp : p.Before whole rest) (hq : q.Before whole rest') :
    p < q ↔ rest'.length < rest.length := by
  rw [lt_iff_le_not_ge, hp.le_iff hq, hq.le_iff hp]
  omega

end

end Grammar

open Grammar

section

variable {file : String} {start stop place : Place} {text rest : List Char}

/-- A place is in the span between two others if it is from the first on and before the second. -/
theorem holds_spanOf :
    (Reading.spanOf file start stop).holds place = true ↔ start ≤ place ∧ place < stop := by
  rw [Place.le_def, Place.lt_def]
  simp only [Span.holds, Bool.and_eq_true, Bool.or_eq_true, decide_eq_true_eq, beq_iff_eq]
  rfl

/-- Text before the start is not covered. -/
theorem coveredFrom_before (h : text.foldl Place.after place ≤ start) :
    (Reading.spanOf file start stop).coveredFrom place (text ++ rest) =
      (Reading.spanOf file start stop).coveredFrom (text.foldl Place.after place) rest := by
  induction text generalizing place with
  | nil => rfl
  | cons c text ih =>
      have hlt : place < start :=
        lt_of_lt_of_le (place.lt_after c) (le_trans (Place.le_foldl text _) h)
      have hholds : ¬ (Reading.spanOf file start stop).holds place = true := fun hholds =>
        not_le_of_gt hlt (holds_spanOf.mp hholds).1
      rw [List.cons_append, Span.coveredFrom, if_neg hholds, ih h, List.foldl_cons]

/-- Text between the ends is covered. -/
theorem coveredFrom_between (hstart : start ≤ place) (hstop : text.foldl Place.after place ≤ stop) :
    (Reading.spanOf file start stop).coveredFrom place (text ++ rest) =
      text ++ (Reading.spanOf file start stop).coveredFrom (text.foldl Place.after place) rest := by
  induction text generalizing place with
  | nil => rfl
  | cons c text ih =>
      have hlt : place < stop :=
        lt_of_lt_of_le (place.lt_after c) (le_trans (Place.le_foldl text _) hstop)
      rw [List.cons_append, Span.coveredFrom, if_pos (holds_spanOf.mpr ⟨hstart, hlt⟩),
        ih (le_trans hstart (place.le_after c)) hstop, List.foldl_cons, List.cons_append]

/-- Text behind the stop is not covered. -/
theorem coveredFrom_behind (h : stop ≤ place) :
    (Reading.spanOf file start stop).coveredFrom place text = [] := by
  induction text generalizing place with
  | nil => rfl
  | cons c text ih =>
      have hholds : ¬ (Reading.spanOf file start stop).holds place = true := fun hholds =>
        not_le_of_gt (holds_spanOf.mp hholds).2 h
      rw [Span.coveredFrom, if_neg hholds, ih (le_trans h (place.le_after c))]

/-- **Between two points of a text stands what is covered.** -/
theorem covered_spanOf {before between after : List Char}
    (hstart : start = before.foldl Place.after .origin)
    (hstop : stop = between.foldl Place.after start) :
    (Reading.spanOf file start stop).covered (before ++ (between ++ after)) = between := by
  have hbehind : (Reading.spanOf file start stop).coveredFrom stop after = [] :=
    coveredFrom_behind (le_refl stop)
  rw [Span.covered, coveredFrom_before (le_of_eq hstart.symm), ← hstart,
    coveredFrom_between (le_refl _) (le_of_eq hstop.symm), ← hstop, hbehind, List.append_nil]

end

/-! ### Where tokens begin and end -/

/-- A token begins at the place. -/
def Opens (whole : List Char) (start : Place) : Prop :=
  ∃ rest, start.Before whole rest ∧ StartsSolid rest

/-- A token ends at the place or, if there can be a gap, the blanks behind one. -/
def Closes (gaps : Bool) (whole : List Char) (stop : Place) : Prop :=
  ∃ rest, stop.Before whole rest ∧ BehindToken gaps whole rest

/-- The span covers the text from where a token begins to where one ends or, if there
can be a gap, to where the blanks behind one end. -/
def Span.CutsAtTokens (gaps : Bool) (whole : List Char) (span : Span) : Prop :=
  ∃ before core gap after, whole = before ++ (core ++ gap ++ after) ∧
    span.covered whole = core ++ gap ∧ StartsSolid core ∧ EndsSolid core ∧
    (gap = [] ∨ (gaps = true ∧ clear (gap ++ after) = after))

section

variable {whole rest rest' : List Char} {gaps : Bool} {file : String} {start stop : Place}

/-- The part of a text that is not empty begins like the whole. -/
theorem Grammar.StartsSolid.of_prefix {text : List Char} (h : StartsSolid (text ++ rest))
    (hne : text ≠ []) : StartsSolid text := by
  obtain ⟨c, later, rfl⟩ := List.exists_cons_of_ne_nil hne
  obtain ⟨d, more, heq, hd⟩ := h
  cases heq
  exact ⟨c, later, rfl, hd⟩

/-- What begins with a token is not only blanks. -/
theorem Grammar.StartsSolid.not_layout {text : List Char} (h : StartsSolid text) :
    ¬ ∀ c ∈ text, isLayout c = true := by
  obtain ⟨c, later, rfl, hc⟩ := h
  intro hall
  have hlayout := hall c List.mem_cons_self
  rw [hc.not_isLayout] at hlayout
  cases hlayout

/-- Behind a token there may be a gap, and nothing else. -/
theorem Grammar.BehindToken.exists_gap (h : BehindToken gaps whole rest) :
    ∃ core gap, whole = core ++ (gap ++ rest) ∧ EndsSolid core ∧
      (∀ c ∈ gap, isLayout c = true) ∧ (gap = [] ∨ (gaps = true ∧ clear (gap ++ rest) = rest)) := by
  obtain ⟨core, behind, rfl, hends, rfl | ⟨hgaps, rfl⟩⟩ := h
  · exact ⟨core, [], rfl, hends, List.forall_mem_nil _, .inl rfl⟩
  · obtain ⟨blanks, hbehind, hblanks, -⟩ := skipBlanks_append behind
    exact ⟨core, blanks, by rw [← hbehind], hends, hblanks, .inr ⟨hgaps, by rw [← hbehind]⟩⟩

/-- **A span from where a token begins to where one ends cuts at tokens.** -/
theorem cutsAtTokens (hopens : Opens whole start) (hlt : start < stop)
    (hcloses : Closes gaps whole stop) :
    (Reading.spanOf file start stop).CutsAtTokens gaps whole := by
  obtain ⟨rest, hstart, hsolid⟩ := hopens
  obtain ⟨rest', hstop, hbehind⟩ := hcloses
  have hshorter := (hstart.lt_iff hstop).mp hlt
  obtain ⟨before, rfl, rfl⟩ := hstart
  obtain ⟨before', hwhole, rfl⟩ := hstop
  obtain ⟨between, rfl, rfl⟩ :
      ∃ between, before' = before ++ between ∧ rest = between ++ rest' := by
    rcases List.append_eq_append_iff.mp hwhole with ⟨between, hbefore, hrest⟩ | ⟨between, -, hrest⟩
    · exact ⟨between, hbefore, hrest⟩
    · rw [hrest, List.length_append] at hshorter
      omega
  have hne : between ≠ [] := by
    rintro rfl
    exact Nat.lt_irrefl _ hshorter
  have hstarts : StartsSolid between := hsolid.of_prefix hne
  obtain ⟨token, gap, heq, hends, hlayout, hgap⟩ := hbehind.exists_gap
  rw [← List.append_assoc, ← List.append_assoc token, List.append_cancel_right_eq] at heq
  -- The gap is blank, so what is covered does not begin in it.
  rcases List.append_eq_append_iff.mp heq with ⟨core, rfl, rfl⟩ | ⟨blanks, -, rfl⟩
  · have hcore : core ≠ [] := by
      rintro rfl
      exact hstarts.not_layout hlayout
    refine ⟨before, core, gap, rest', rfl, ?_, hstarts.of_prefix hcore, hends.of_append hcore, hgap⟩
    exact covered_spanOf rfl List.foldl_append
  · refine absurd (fun c hc => hlayout c ?_) hstarts.not_layout
    exact List.mem_append_right _ hc

end

/-! ### The stretches of nodes -/

namespace Grammar

/-- The kind of the nodes that cover a whole phrase of the rule, where there are such. -/
def Rule.kind? : Rule → Option Kind
  | .functionDef => some .functionDef
  | .plainParameter | .varargsParameter | .kwargsParameter => some .arg
  | .ifStatement | .elifClause => some .ifStmt
  | .whileStatement => some .whileStmt
  | .forStatement => some .forStmt
  | .passStatement => some .passStmt
  | .breakStatement => some .breakStmt
  | .continueStatement => some .continueStmt
  | .returnStatement => some .returnStmt
  | .assignment => some .assign
  | .augAssignment => some .augAssign
  | .expressionStatement => some .exprStmt
  | .expressionList | .targetList | .parenthesized => some .tuple
  | .listDisplay => some .list
  | .expression => some .ifExp
  | .disjunction | .conjunction => some .boolOp
  | .inversion | .factor => some .unaryOp
  | .comparison => some .compare
  | .power => some .binOp
  | .keywordArgument => some .keyword
  | .identifier => some .name
  | .noneLiteral | .trueLiteral | .falseLiteral | .float | .integer | .string => some .constant
  | _ => none

namespace Phrase

open Reading

/-- Reading the phrase makes the node. -/
inductive Makes (file : String) : Phrase → Node → Prop
  | expression {c d : Nat} {phrase : Phrase} {head : Head} {fields : Fields} :
      Finds file c (.expression phrase (.node head fields)) d → Makes file phrase ⟨head, fields⟩
  | keyword {c d : Nat} {phrase : Phrase} {head : Head} {fields : Fields} :
      Finds file c (.arguments [phrase] [] [.node head fields]) d → Makes file phrase ⟨head, fields⟩
  | simple {c d : Nat} {phrase : Phrase} {head : Head} {fields : Fields} :
      FindsSimple file c phrase (.node head fields) d → Makes file phrase ⟨head, fields⟩
  | statement {c d : Nat} {phrase : Phrase} {head : Head} {fields : Fields} :
      StatementFinds file c (.statements phrase [.node head fields]) d →
      Makes file phrase ⟨head, fields⟩
  | function {c c' d : Nat} {phrase : Phrase} {decorators : List Value} {parts : FunctionParts}
      {head : Head} {fields : Fields} :
      StatementFinds file c (.parts phrase.parts ⟨"", none, none, []⟩ parts) c' →
      FindsFunction file c' phrase.start phrase.stop decorators parts (.node head fields) d →
      Makes file phrase ⟨head, fields⟩
  | parameter {c d : Nat} {phrase : Phrase} {default : Option Value} {head : Head}
      {fields : Fields} :
      FindsParameter file c phrase.start phrase.stop phrase.parts (.node head fields) default d →
      Makes file phrase ⟨head, fields⟩

/-- From where to where a node goes that is read inside the whole: over the phrase that it
is made of, or in a chain from its start to the end of the link that it is made of. -/
inductive Extent (file : String) (whole : Phrase) : Node → Place → Place → Prop
  | phrase {phrase : Phrase} {node : Node} :
      phrase ∈ whole.inner → phrase.rule.kind? = some node.head.kind → phrase.Makes file node →
      Extent file whole node phrase.start phrase.stop
  /-- From the start of a chain of operations to the end of a right operand. -/
  | operation {c d : Nat} {chain token operand : Phrase} {before behind : List Phrase}
      {left : Value} {head : Head} {fields : Fields} :
      chain ∈ whole.inner → chain.rule = .sum ∨ chain.rule = .term →
      chain.parts = before ++ token :: operand :: behind →
      Finds file c (.operations chain.start left [token, operand] (.node head fields)) d →
      Extent file whole ⟨head, fields⟩ chain.start operand.stop
  /-- From the start of an atom to the end of a call, an attribute or a subscript. -/
  | trailer {c d : Nat} {chain atom trailer : Phrase} {trailers : List Phrase} {value : Value}
      {head : Head} {fields : Fields} :
      chain ∈ whole.inner → chain.rule = .primary → chain.parts = atom :: trailers →
      trailer ∈ trailers →
      Finds file c (.trailers atom.start value [trailer] (.node head fields)) d →
      Extent file whole ⟨head, fields⟩ atom.start trailer.stop

end Phrase

end Grammar

/-! ### Values without contexts -/

namespace Value

mutual

/-- The value without the contexts of its nodes. -/
def contextless : Value → Value
  | .scalar s => .scalar s
  | .node head fields => .node head (contextlessFields fields)
  | .list items => .list (contextlessItems items)
  | .foreign document => .foreign document

/-- The values without the contexts of their nodes. -/
def contextlessItems : List Value → List Value
  | [] => []
  | item :: rest => contextless item :: contextlessItems rest

/-- The fields without the context and without those of their nodes. -/
def contextlessFields : Fields → Fields
  | [] => []
  | (name, value) :: rest =>
    if name = "ctx" then contextlessFields rest
    else (name, contextless value) :: contextlessFields rest

end

/-- The context does not tell nodes apart that are without one. -/
theorem contextlessFields_set (ctx : Value) (fields : Fields) :
    contextlessFields (Members.set "ctx" ctx fields) = contextlessFields fields := by
  induction fields with
  | nil => rfl
  | cons field rest ih =>
      obtain ⟨name, value⟩ := field
      rw [Members.set]
      split
      next heq =>
        cases heq
        rfl
      next hne => rw [contextlessFields, contextlessFields, ih]

end Value

namespace Reading

mutual

/-- What is stored keeps all but the contexts. -/
theorem Stores.contextless_eq : {c d : Nat} → {value target : Value} → Stores c value target d →
    target.contextless = value.contextless
  | _, _, _, _, .single _ _ _ => by
      rw [Value.contextless, Value.contextless, Value.contextlessFields_set]
  | _, _, _, _, .sequence _ hitems => by
      simp only [Value.contextless, Value.contextlessFields, StoresAll.contextless_eq hitems]
      rfl

theorem StoresAll.contextless_eq : {c d : Nat} → {values targets : List Value} →
    StoresAll c values targets d → Value.contextlessItems targets = Value.contextlessItems values
  | _, _, _, _, .nil => rfl
  | _, _, _, _, .cons hvalue hrest => by
      rw [Value.contextlessItems, Value.contextlessItems, hvalue.contextless_eq,
        hrest.contextless_eq]

end

end Reading

/-- A text of a file, and the phrase that it is matched by. -/
structure Script where
  file : String
  text : List Char
  whole : Phrase

/-! ### The spans of nodes -/

/-- No gap is at the end of a node of this kind. -/
def Kind.isTight : Kind → Bool
  | .name | .constant | .list | .call | .attr | .subscript
  | .passStmt | .breakStmt | .continueStmt => true
  | _ => false

namespace Node

/-- The span is the extent of the node, which may have been stored since it was made. -/
def Covers (file : String) (whole : Phrase) (node : Node) (span : Span) : Prop :=
  ∃ start stop made, span = Reading.spanOf file start stop ∧
    made.toValue.contextless = node.toValue.contextless ∧ whole.Extent file made start stop

/-- The span of the node is its extent, and goes from where a token begins to where one
ends. -/
def Edged (script : Script) (node : Node) : Prop :=
  ∀ span, node.head.span = some span → ∃ start stop made,
    span = Reading.spanOf script.file start stop ∧
      made.toValue.contextless = node.toValue.contextless ∧
      script.whole.Extent script.file made start stop ∧ Opens script.text start ∧ start < stop ∧
      Closes (!node.head.kind.isTight) script.text stop

variable {script : Script} {node : Node} {span : Span}

/-- A node covers its span. -/
theorem Edged.covers (h : node.Edged script) (hspan : node.head.span = some span) :
    node.Covers script.file script.whole span := by
  obtain ⟨start, stop, made, hplaces, hmade, hextent, -⟩ := h span hspan
  exact ⟨start, stop, made, hplaces, hmade, hextent⟩

/-- A node's span cuts the text at tokens. -/
theorem Edged.cutsAtTokens (h : node.Edged script) (hspan : node.head.span = some span) :
    span.CutsAtTokens (!node.head.kind.isTight) script.text := by
  obtain ⟨start, stop, made, rfl, -, -, hopens, hlt, hcloses⟩ := h span hspan
  exact FunctionIR.cutsAtTokens hopens hlt hcloses

/-- Contexts do not matter. -/
theorem Edged.congr {other : Node} (h : node.Edged script) (hhead : other.head = node.head)
    (hcontextless : other.toValue.contextless = node.toValue.contextless) :
    other.Edged script := by
  intro span hspan
  rw [hhead] at hspan
  obtain ⟨start, stop, made, hplaces, hmade, hedges⟩ := h span hspan
  rw [hhead]
  exact ⟨start, stop, made, hplaces, hmade.trans hcontextless.symm, hedges⟩

end Node

/-! ### Phrases -/

namespace Grammar

/-- A rule without line breaks that leaves phrases begins and ends with a token. -/
theorem Rule.edges_of_isInline {r : Rule} (h : r.isInline = true)
    (hkept : r.definition.kept = true) : r.opens = true ∧ r.ends true = true := by
  have hall : ∀ r ∈ Rule.all, r.isInline = true → r.definition.kept = true →
      r.opens = true ∧ r.ends true = true := by decide
  exact hall r r.mem_all h hkept

namespace Phrase

variable {whole : List Char} {phrase inner : Phrase} {script : Script} {gaps : Bool}

/-- A sharp phrase of a rule that begins with a token goes on from where one begins. -/
theorem Sharp.opens (h : phrase.Sharp whole) (hrule : phrase.rule.opens = true) :
    Opens whole phrase.start ∧ phrase.start < phrase.stop := by
  cases h with
  | mk _ hstart hstop hedges =>
      obtain ⟨hsolid, hne⟩ := hedges hrule
      refine ⟨⟨_, hstart, hsolid⟩, (hstart.lt_iff hstop).mpr ?_⟩
      rw [List.length_append]
      exact Nat.lt_add_of_pos_left (List.length_pos_iff.mpr hne)

/-- A sharp phrase of a rule that ends with a token goes up to where one ends. -/
theorem Sharp.closes (h : phrase.Sharp whole) (hrule : phrase.rule.ends gaps = true) :
    Closes gaps whole phrase.stop := by
  cases h with
  | mk _ _ hstop _ hedges => exact ⟨_, hstop, hedges gaps hrule⟩

/-- The phrase is inside the one that the text is matched by, it is in its place, its
edges are sharp, and it is inside a line. -/
structure Settled (script : Script) (phrase : Phrase) : Prop where
  inside : phrase ∈ script.whole.inner
  inPlace : phrase.InPlace
  sharp : phrase.Sharp script.text
  inline : phrase.Inline

namespace Settled

/-- A part of a settled phrase is settled. -/
theorem part (h : phrase.Settled script) (hpart : inner ∈ phrase.parts) :
    inner.Settled script where
  inside := mem_inner_of_part h.inside hpart
  inPlace := (h.inPlace.parts inner hpart).1
  sharp := h.sharp.parts inner hpart
  inline := by
    cases h.inline with
    | mk _ hparts => exact hparts inner hpart

/-- A settled phrase is of a rule that begins and ends with a token. -/
theorem edges (h : phrase.Settled script) :
    phrase.rule.opens = true ∧ phrase.rule.ends true = true :=
  Rule.edges_of_isInline h.inline.rule h.sharp.kept

/-- A settled phrase begins where a token does. -/
theorem opens (h : phrase.Settled script) : Opens script.text phrase.start :=
  (h.sharp.opens h.edges.1).1

/-- A settled phrase is not empty. -/
theorem start_lt_stop (h : phrase.Settled script) : phrase.start < phrase.stop :=
  (h.sharp.opens h.edges.1).2

/-- A settled phrase ends where a token does, or behind a gap. -/
theorem closes (h : phrase.Settled script) : Closes true script.text phrase.stop :=
  h.sharp.closes h.edges.2

end Settled

end Phrase

end Grammar

/-- **The span of a phrase covers its text.** -/
theorem covered_of_sharp {whole : List Char} {phrase : Phrase} (file : String)
    (h : phrase.Sharp whole) (hin : phrase.InPlace) :
    (Reading.spanOf file phrase.start phrase.stop).covered whole = phrase.text := by
  obtain ⟨rule, start, stop, text, parts⟩ := phrase
  cases h with
  | mk _ hstart _ _ _ _ =>
      obtain ⟨before, rfl, hplace⟩ := hstart
      exact covered_spanOf hplace hin.stop_eq

namespace Reading

variable {script : Script} {start stop : Place} {kind : Kind} {id : Nat} {fields : Fields}

/-- A node with the span of its extent, between the edges of tokens. -/
theorem edged_placed
    (hextent :
      script.whole.Extent script.file ⟨placedHead script.file id kind start stop, fields⟩ start stop)
    (hopens : Opens script.text start) (hlt : start < stop)
    (hcloses : Closes (!kind.isTight) script.text stop) :
    Node.Edged script ⟨placedHead script.file id kind start stop, fields⟩ := by
  intro span hspan
  cases hspan
  exact ⟨start, stop, _, rfl, rfl, hextent, hopens, hlt, hcloses⟩

/-- A node that is made of a phrase is edged as this is. -/
theorem edged_sharp {rule : Rule} {text : List Char} {parts : List Phrase}
    (hin : Phrase.mk rule start stop text parts ∈ script.whole.inner)
    (h : (Phrase.mk rule start stop text parts).Sharp script.text)
    (hmakes : (Phrase.mk rule start stop text parts).Makes script.file
      ⟨placedHead script.file id kind start stop, fields⟩) (hkind : rule.kind? = some kind)
    (hopens : rule.opens = true) (hends : rule.ends (!kind.isTight) = true) :
    Node.Edged script ⟨placedHead script.file id kind start stop, fields⟩ :=
  edged_placed (.phrase hin hkind hmakes) (h.opens hopens).1 (h.opens hopens).2 (h.closes hends)

/-- A node that is made of a settled phrase is edged, with or without a gap. -/
theorem edged_settled {rule : Rule} {text : List Char} {parts : List Phrase}
    (h : (Phrase.mk rule start stop text parts).Settled script)
    (hmakes : (Phrase.mk rule start stop text parts).Makes script.file
      ⟨placedHead script.file id kind start stop, fields⟩) (hkind : rule.kind? = some kind)
    (htight : kind.isTight = false) :
    Node.Edged script ⟨placedHead script.file id kind start stop, fields⟩ := by
  refine edged_placed (.phrase h.inside hkind hmakes) h.opens h.start_lt_stop ?_
  rw [htight]
  exact h.closes

/-- A node without a span has no edges to speak of. -/
theorem edged_bare : Node.Edged script ⟨⟨id, kind, none, none⟩, fields⟩ := nofun

end Reading

end FunctionIR
