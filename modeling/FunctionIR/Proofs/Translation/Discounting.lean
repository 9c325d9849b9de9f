import FunctionIR.Proofs.Layout.Discount
import FunctionIR.Proofs.Translation.Documents

/-!
# Translations with and without the discount

Whether decorators are discounted makes a difference to lines only.  The discount
changes every line of a tree by one function, `raise`, which takes off the lines
between the first decorator and the function (`Node.prepare_eq_onLines`); and a
translation does not depend on lines (`run_translateTree_onLines`).  The two runs
start with different records of events, since that lines are discounted is itself
an event; but what a translation does is not affected by what was recorded before
it (`run_translateTree_withPast`).

So a source is loaded and translated with the same outcome up to lines, be it a
function or a fault, and with the same trace (`raised_by_discount`).
-/

namespace FunctionIR

/-! ### Raised lines -/

/-- The line some lines further up, but at least the first.  A line 0 is no line,
and stays. -/
def raise (lines line : Nat) : Nat := if line = 0 then 0 else max 1 (line - lines)

theorem raise_zero (lines : Nat) : raise lines 0 = 0 := rfl

theorem raise_by_zero (line : Nat) : raise 0 line = line := by
  unfold raise
  split <;> omega

/-- A real line is raised, but not above the first. -/
theorem raise_of_pos {lines line : Nat} (h : 1 ≤ line) : raise lines line = max 1 (line - lines) := by
  have hne : line ≠ 0 := by omega
  rw [raise, if_neg hne]

/-- Below `2 ^ 63` a shift by the discounted lines raises a line. -/
theorem shiftLine_eq_raise {lines line : Nat} (hlines : lines < 2 ^ 63) (hpos : 1 ≤ line)
    (hline : line < 2 ^ 63) : shiftLine (-signedLine lines) line = raise lines line := by
  have hsigned : signedLine lines = lines := signedLine_eq (by omega)
  have hshort : line < 1 <<< 63 := by omega
  have hshift := shiftLine_eq hshort (-signedLine lines)
  rw [hsigned] at hshift ⊢
  rw [raise_of_pos hpos]
  omega

/-- The lines at which a node is, and where its span begins and ends. -/
def Head.lines (head : Head) : List Nat :=
  head.location.toList.map Location.line ++
    head.span.toList.flatMap fun span => [span.start.line, span.stop.line]

/-- The lines in a value. -/
def Value.lines (value : Value) : List Nat := value.heads.flatMap Head.lines

section

variable {f g : Nat → Nat}

/-- Only the lines at which a node is are changed. -/
theorem Head.onLines_congr {head : Head} (h : ∀ line ∈ head.lines, f line = g line) :
    head.onLines f = head.onLines g := by
  obtain ⟨id, kind, location, span⟩ := head
  cases location <;> cases span <;>
    simp [Head.lines, Head.onLines, Location.onLines, Span.onLines] at h ⊢ <;> simp [h]

mutual

/-- A value depends on the lines of its heads only. -/
theorem Value.onLines_congr : (value : Value) →
    (∀ head ∈ value.heads, head.onLines f = head.onLines g) → value.onLines f = value.onLines g
  | .scalar _, _ | .foreign _, _ => rfl
  | .node head fields, h => by
      obtain ⟨hhead, hfields⟩ := List.forall_mem_cons.mp h
      rw [Value.onLines, Value.onLines, hhead, Value.onLinesFields_congr fields hfields]
  | .list items, h => by
      rw [Value.onLines, Value.onLines, Value.onLinesItems_congr items h]

theorem Value.onLinesItems_congr : (items : List Value) →
    (∀ head ∈ Value.headsOfItems items, head.onLines f = head.onLines g) →
    Value.onLinesItems f items = Value.onLinesItems g items
  | [], _ => rfl
  | item :: rest, h => by
      obtain ⟨hitem, hrest⟩ := List.forall_mem_append.mp h
      rw [Value.onLinesItems, Value.onLinesItems, Value.onLines_congr item hitem,
        Value.onLinesItems_congr rest hrest]

theorem Value.onLinesFields_congr : (fields : Fields) →
    (∀ head ∈ Value.headsOfFields fields, head.onLines f = head.onLines g) →
    Value.onLinesFields f fields = Value.onLinesFields g fields
  | [], _ => rfl
  | (name, value) :: rest, h => by
      obtain ⟨hvalue, hrest⟩ := List.forall_mem_append.mp h
      rw [Value.onLinesFields, Value.onLinesFields, Value.onLines_congr value hvalue,
        Value.onLinesFields_congr rest hrest]

end

/-- Functions that change the lines of a tree alike change the tree alike. -/
theorem Node.onLines_congr {tree : Node} (h : ∀ line ∈ tree.toValue.lines, f line = g line) :
    tree.onLines f = tree.onLines g := by
  have hheads : ∀ head ∈ tree.toValue.heads, head.onLines f = head.onLines g := by
    intro head hhead
    apply Head.onLines_congr
    intro line hline
    exact h line (List.mem_flatMap.mpr ⟨head, hhead, hline⟩)
  have hvalue := Value.onLines_congr tree.toValue hheads
  rw [Node.toValue, Value.onLines, Value.onLines] at hvalue
  obtain ⟨hhead, hfields⟩ := Value.node.inj hvalue
  rw [Node.onLines, Node.onLines, hhead, hfields]

section

variable (f : Nat → Nat)

mutual

/-- The heads of a value on other lines. -/
theorem Value.heads_onLines : (value : Value) →
    (value.onLines f).heads = value.heads.map (Head.onLines f)
  | .scalar _ | .foreign _ => rfl
  | .node head fields => by
      rw [Value.onLines, Value.heads, Value.heads, Value.headsOfFields_onLines fields]
      rfl
  | .list items => by
      rw [Value.onLines, Value.heads, Value.heads, Value.headsOfItems_onLines items]

theorem Value.headsOfItems_onLines : (items : List Value) →
    Value.headsOfItems (Value.onLinesItems f items) =
      (Value.headsOfItems items).map (Head.onLines f)
  | [] => rfl
  | item :: rest => by
      rw [Value.onLinesItems, Value.headsOfItems, Value.headsOfItems, List.map_append,
        Value.heads_onLines item, Value.headsOfItems_onLines rest]

theorem Value.headsOfFields_onLines : (fields : Fields) →
    Value.headsOfFields (Value.onLinesFields f fields) =
      (Value.headsOfFields fields).map (Head.onLines f)
  | [] => rfl
  | (name, value) :: rest => by
      rw [Value.onLinesFields, Value.headsOfFields, Value.headsOfFields, List.map_append,
        Value.heads_onLines value, Value.headsOfFields_onLines rest]

end

end

/-- A head on the same lines is the same. -/
theorem Head.onLines_self (head : Head) : head.onLines (fun line => line) = head := by
  obtain ⟨number, kind, location, span⟩ := head
  cases location <;> cases span <;> rfl

mutual

/-- A value on the same lines is the same. -/
theorem Value.onLines_self : (value : Value) → value.onLines (fun line => line) = value
  | .scalar _ | .foreign _ => rfl
  | .node head fields => by
      rw [Value.onLines, head.onLines_self, Value.onLinesFields_self fields]
  | .list items => by
      rw [Value.onLines, Value.onLinesItems_self items]

theorem Value.onLinesItems_self : (items : List Value) →
    Value.onLinesItems (fun line => line) items = items
  | [] => rfl
  | item :: rest => by
      rw [Value.onLinesItems, Value.onLines_self item, Value.onLinesItems_self rest]

theorem Value.onLinesFields_self : (fields : Fields) →
    Value.onLinesFields (fun line => line) fields = fields
  | [] => rfl
  | (name, value) :: rest => by
      rw [Value.onLinesFields, Value.onLines_self value, Value.onLinesFields_self rest]

end

/-- A tree on the same lines is the same. -/
theorem Node.onLines_self (tree : Node) : tree.onLines (fun line => line) = tree := by
  rw [Node.onLines, tree.head.onLines_self, Value.onLinesFields_self]

end

/-! ### Discounted trees -/

/-- The head of an item is one of those of all items. -/
theorem mem_headsOfItems {items : List Value} {item : Value} (hitem : item ∈ items) {head : Head}
    (h : head ∈ item.heads) : head ∈ Value.headsOfItems items := by
  induction items with
  | nil => cases hitem
  | cons first rest ih =>
      rw [Value.headsOfItems, List.mem_append]
      rcases List.mem_cons.mp hitem with heq | hitem
      · exact .inl (heq ▸ h)
      · exact .inr (ih hitem)

/-- The head in a field is one of those of all fields. -/
theorem mem_headsOfFields {name : String} {fields : Fields} {value : Value}
    (hvalue : Members.get? name fields = some value) {head : Head} (h : head ∈ value.heads) :
    head ∈ Value.headsOfFields fields := by
  induction fields with
  | nil => cases hvalue
  | cons field rest ih =>
      obtain ⟨key, found⟩ := field
      rw [Members.get?] at hvalue
      rw [Value.headsOfFields, List.mem_append]
      by_cases hkey : key = name
      · rw [if_pos hkey] at hvalue
        cases hvalue
        exact .inl h
      · rw [if_neg hkey] at hvalue
        exact .inr (ih hvalue)

/-- The function that a tree stands for is in the tree. -/
theorem Node.leadingFunction_mem {tree function : Node} (h : tree.leadingFunction = some function) :
    function.head ∈ tree.toValue.heads := by
  obtain ⟨head, fields⟩ := tree
  rw [Node.toValue, Value.heads, List.mem_cons]
  simp only [Node.leadingFunction, Option.bind_eq_bind] at h
  split at h
  next hkind =>
    -- The root itself.
    rw [Option.bind_some, if_pos hkind] at h
    cases h
    exact .inl rfl
  next =>
    -- The first statement of a module.
    simp only [Option.bind_eq_some_iff] at h
    obtain ⟨body, hbody, first, hfirst, node, hasNode, h⟩ := h
    rw [Node.listField?, Node.field?, Option.bind_eq_some_iff] at hbody
    obtain ⟨value, hvalue, hlist⟩ := hbody
    refine .inr (mem_headsOfFields hvalue ?_)
    split at h
    · cases h
      cases value with
      | list items =>
          cases hlist
          cases first with
          | node head' fields' =>
              cases hasNode
              exact mem_headsOfItems (List.mem_of_mem_head? hfirst) List.mem_cons_self
          | scalar | list | foreign => cases hasNode
      | scalar | node | foreign => cases hlist
    · cases h
  next => cases h

/-- No more lines are discounted than the function is from the top. -/
theorem Node.decoratorOffset_le {tree : Node} {lines : Nat}
    (h : tree.decoratorOffset = some lines) : ∃ line ∈ tree.toValue.lines, lines ≤ line := by
  simp only [Node.decoratorOffset, Option.bind_eq_bind, Option.bind_eq_some_iff] at h
  obtain ⟨function, hfunction, line, hline, decorators, -, first, -, hoffset⟩ := h
  have hle : lines ≤ line := by
    split at hoffset
    · cases hoffset
      omega
    · cases hoffset
  refine ⟨line, List.mem_flatMap.mpr ⟨function.head, leadingFunction_mem hfunction, ?_⟩, hle⟩
  rw [Node.line?, Option.map_eq_some_iff] at hline
  obtain ⟨location, hlocation, rfl⟩ := hline
  simp [Head.lines, hlocation]

/-- **The discount raises all lines** by one number. -/
theorem Node.prepare_eq_onLines {tree : Node}
    (hlines : ∀ line ∈ tree.toValue.lines, 1 ≤ line ∧ line < 2 ^ 63) :
    tree.prepare true = tree.onLines (raise (tree.decoratorOffset.getD 0)) := by
  cases hoffset : tree.decoratorOffset with
  | none =>
      have hraise : raise 0 = fun line => line := funext raise_by_zero
      rw [Node.prepare.eq_def, hoffset, Option.getD_none, hraise, Node.onLines_self]
  | some lines =>
      obtain ⟨line, hline, hle⟩ := Node.decoratorOffset_le hoffset
      have hlines' : lines < 2 ^ 63 := Nat.lt_of_le_of_lt hle (hlines line hline).2
      rw [Node.prepare_of_offset hoffset, Node.shift_eq_onLines, Option.getD_some]
      apply Node.onLines_congr
      intro line hline
      exact shiftLine_eq_raise hlines' (hlines line hline).1 (hlines line hline).2

/-- A fault on the same lines is the same. -/
theorem Fault.onLines_self (fault : Fault) : fault.onLines (fun line => line) = fault := by
  have hlocation : Location.onLines (fun line => line) = fun location => location := rfl
  have hspan : Span.onLines (fun line => line) = fun span => span := rfl
  cases fault <;> simp [Fault.onLines, hlocation, hspan]

/-! ### What was recorded before -/

/-- The translator with other events recorded before its own. -/
def Translator.withPast (past : List Event) (t : Translator) : Translator :=
  { t with events := past ++ t.events }

/-- Earlier events do not matter to a visit. -/
theorem reach_withPast (limit : Nat) (v : Visit) (past : List Event) (t : Translator) :
    (t.withPast past).reach limit v = (t.reach limit v).withPast past := by
  unfold Translator.reach
  split
  · split
    · rfl
    · split
      · simp only [Translator.withPast, List.append_assoc]
      · simp only [Translator.withPast, List.append_assoc]
      · rfl
  · rfl

/-- Steps do the same whatever was recorded before. -/
theorem follow_withPast (limit : Nat) (steps : List Step) (past : List Event) (t : Translator) :
    follow limit steps (t.withPast past) =
      ((follow limit steps t).1, (follow limit steps t).2.withPast past) := by
  induction steps generalizing t with
  | nil => rfl
  | cons step rest ih =>
      have hstep : step.take limit (t.withPast past) =
          ((step.take limit t).1, (step.take limit t).2.withPast past) := by
        cases step with
        | visit v => rw [Step.take, Step.take, reach_withPast]
        | make => rfl
        | enter | leave => simp only [Step.take, Translator.withPast, List.append_assoc]
      rw [follow, follow, hstep]
      generalize step.take limit t = taken
      obtain ⟨refused, after⟩ := taken
      cases refused with
      | none => exact ih after
      | some fault => rfl

/-- Earlier events do not matter to a translation. -/
theorem run_translateTree_withPast (config : Config) (tree : Node) (past : List Event)
    (t : Translator) :
    (translateTree config tree).runFrom (t.withPast past) =
      (((translateTree config tree).runFrom t).1,
        ((translateTree config tree).runFrom t).2.withPast past) := by
  rw [run_translateTree, run_translateTree, follow_withPast]
  generalize follow config.maxDepth (course 0 tree.toValue) t = followed
  obtain ⟨refused, after⟩ := followed
  cases refused with
  | some fault => rfl
  | none =>
      have hstart : (t.withPast past).scope = t.scope ∧ (t.withPast past).nextId = t.nextId :=
        ⟨rfl, rfl⟩
      rw [hstart.1, hstart.2]
      cases (rendered t.scope t.nextId tree.toValue).1.asFunction <;> rfl

/-- Of what can be chosen, only the depth matters to a translation. -/
theorem run_translateTree_config {config config' : Config} (h : config.maxDepth = config'.maxDepth)
    (tree : Node) (t : Translator) :
    (translateTree config tree).runFrom t = (translateTree config' tree).runFrom t := by
  rw [run_translateTree, run_translateTree, h]

/-! ### Calls of a session -/

namespace Session

/-- The session with the decorators discounted, if `discount`. -/
def discounting (discount : Bool) (session : Session) : Session :=
  { session with config := { session.config with discountDecorators := discount } }

/-- Load a source and translate its tree. -/
def loadAndTranslate (source : Source) (session : Session) :
    Except Fault (Node × Function) × Session :=
  match session.load source with
  | (.error fault, session) => (.error fault, session)
  | (.ok tree, session) =>
    let (outcome, session) := session.translate tree
    (outcome.map fun function => (tree, function), session)

/-- The translator that a translation at the top starts with. -/
def fresh (session : Session) : Translator :=
  ⟨session.translator.nextId, .top session.config.separator, []⟩

/-- The events of a trace are those before and those since. -/
theorem trace_append (events more : List Event) :
    trace (events ++ more) = trace events ++ trace more := List.filterMap_append

/-- A translation at the top adds to the session what the translator does. -/
theorem translate_run (session : Session) (tree : Node) :
    let run := (translateTree session.config tree).runFrom session.fresh
    (session.translate tree).1 = run.1 ∧
      (session.translate tree).2.nextNode = session.nextNode ∧
      (session.translate tree).2.translator.nextId = run.2.nextId ∧
      trace (session.translate tree).2.translator.events =
        trace session.translator.events ++ trace run.2.events := by
  intro run
  have hstart : { session.translator with scope := .top session.config.separator } =
      session.fresh.withPast session.translator.events := by
    simp only [fresh, Translator.withPast, List.append_nil]
  have hrun : (translateTree session.config tree).runFrom
      { session.translator with scope := .top session.config.separator } =
        (run.1, run.2.withPast session.translator.events) := by
    rw [hstart, run_translateTree_withPast]
  simp only [translate, translateIn]
  rw [hrun]
  cases run.1 with
  | error fault => exact ⟨rfl, rfl, rfl, trace_append _ _⟩
  | ok function =>
      refine ⟨rfl, rfl, rfl, ?_⟩
      simp only [register, record, Translator.withPast, trace_append, List.append_assoc]
      simp [trace, Event.trace?]

/-- Translations at the top cannot tell the sessions apart: they differ at most in
the discount, in their scopes, and in events that are not sent. -/
structure Akin (session other : Session) : Prop where
  nextNode : other.nextNode = session.nextNode
  maxDepth : other.config.maxDepth = session.config.maxDepth
  fresh : other.fresh = session.fresh
  trace : trace other.translator.events = trace session.translator.events

/-- Reading a source does not depend on the discount. -/
theorem read_discounting (discount : Bool) (source : Source) (session : Session) :
    (session.discounting discount).read source =
      ((session.read source).1, (session.read source).2.discounting discount) := by
  have hnumber : (session.discounting discount).number source.tree =
      ((session.number source.tree).1, (session.number source.tree).2.discounting discount) := rfl
  rw [read, read, hnumber]
  generalize session.number source.tree = numbered
  obtain ⟨outcome, after⟩ := numbered
  cases outcome with
  | ok tree => rfl
  | error fault =>
      cases fault with
      | badSyntax severity cause location span => cases cause <;> cases location <;> rfl
      | emptySource | missingSource | malformedTree | unsupportedShape | tooDeep | exportFailed => rfl

/-- Without the discount a tree is translated as it is read. -/
theorem prepare_discounting (session : Session) (tree : Node) :
    (session.discounting false).prepare tree = (tree, session.discounting false) := by
  rw [prepare, Node.prepare.eq_def]
  cases tree.decoratorOffset <;> rfl

section

variable {session : Session} {source : Source}

/-- A source that cannot be read is not translated. -/
theorem loadAndTranslate_error {fault : Fault} (h : (session.read source).1 = .error fault)
    (discount : Bool) :
    (session.discounting discount).loadAndTranslate source =
      (.error fault, (session.read source).2.discounting discount) := by
  rw [loadAndTranslate, load, read_discounting, h]

/-- A source that is read is prepared and translated. -/
theorem loadAndTranslate_ok {tree prepared : Node} {discount : Bool} {ready : Session}
    (h : (session.read source).1 = .ok tree)
    (hprepare : ((session.read source).2.discounting discount).prepare tree = (prepared, ready)) :
    (session.discounting discount).loadAndTranslate source =
      ((ready.translate prepared).1.map fun function => (prepared, function),
        (ready.translate prepared).2) := by
  rw [loadAndTranslate, load, read_discounting, h]
  simp only [hprepare]

end

/-- What is discounted is recorded, but not sent. -/
theorem akin_prepare (session : Session) (tree : Node) :
    (session.discounting false).Akin ((session.discounting true).prepare tree).2 := by
  rw [prepare]
  cases tree.decoratorOffset with
  | none => exact ⟨rfl, rfl, rfl, rfl⟩
  | some lines =>
      refine ⟨rfl, rfl, rfl, ?_⟩
      exact (trace_append _ _).trans (List.append_nil _)

/-- **A tree on other lines** is translated alike in sessions that are akin. -/
theorem translate_akin {f : Nat → Nat} (hf : f 0 = 0) {session other : Session}
    (h : session.Akin other) (tree : Node) :
    (other.translate (tree.onLines f)).1 =
        ((session.translate tree).1.map (Function.onLines f)).mapError (Fault.onLines f) ∧
      (other.translate (tree.onLines f)).2.nextNode = (session.translate tree).2.nextNode ∧
      (other.translate (tree.onLines f)).2.translator.nextId =
        (session.translate tree).2.translator.nextId ∧
      trace (other.translate (tree.onLines f)).2.translator.events =
        trace (session.translate tree).2.translator.events := by
  obtain ⟨hout, hnode, hid, htrace⟩ := translate_run session tree
  obtain ⟨hout', hnode', hid', htrace'⟩ := translate_run other (tree.onLines f)
  rw [run_translateTree_config h.maxDepth, h.fresh, run_translateTree_onLines hf] at hout' hid' htrace'
  rw [hout', hnode', hid', htrace', hout, hnode, hid, htrace, h.nextNode, h.trace]
  exact ⟨rfl, rfl, rfl, rfl⟩

end Session

/-- The second outcome is the first with all lines raised: the same fault, or the
same tree and the same function, with the same histogram and the same document. -/
def RaisedOutcome (lines : Nat) :
    Except Fault (Node × Function) → Except Fault (Node × Function) → Prop
  | .error fault, .error fault' =>
    fault' = fault.onLines (raise lines) ∧ fault'.message = fault.message ∧
      fault'.issuer = fault.issuer ∧ fault'.severity = fault.severity
  | .ok (tree, function), .ok (tree', function') =>
    tree' = tree.onLines (raise lines) ∧ function' = function.onLines (raise lines) ∧
      function'.histogram = function.histogram ∧
      ∀ syntaxIds, function'.toFragment.toJson syntaxIds =
        (function.toFragment.toJson syntaxIds).onLines (raise lines)
  | _, _ => False

/-- A fault of a source has no lines to raise. -/
theorem raisedOutcome_refl (fault : Fault) : RaisedOutcome 0 (.error fault) (.error fault) := by
  have hraise : raise 0 = fun line => line := funext raise_by_zero
  refine ⟨?_, rfl, rfl, rfl⟩
  rw [hraise, fault.onLines_self]

/-- What is translated on raised lines has a raised outcome. -/
theorem raisedOutcome_map (lines : Nat) (tree : Node) (outcome : Except Fault Function) :
    RaisedOutcome lines (outcome.map fun function => (tree, function))
      (((outcome.map (Function.onLines (raise lines))).mapError (Fault.onLines (raise lines))).map
        fun function => (tree.onLines (raise lines), function)) := by
  cases outcome with
  | error fault =>
      exact ⟨rfl, fault.message_onLines, fault.issuer_onLines, fault.severity_onLines⟩
  | ok function =>
      refine ⟨rfl, rfl, function.histogram_onLines, ?_⟩
      intro syntaxIds
      rw [Function.toFragment_onLines, Fragment.toJson_onLines]

/-- **The discount changes lines only.**  With and without it a source is loaded
and translated with the same numbers and the same trace.  There is a number of
lines by which every line is raised, and apart from that the outcomes are the
same. -/
theorem raised_by_discount (session : Session) (source : Source)
    (hlines : ∀ tree, (session.read source).1 = .ok tree →
      ∀ line ∈ tree.toValue.lines, 1 ≤ line ∧ line < 2 ^ 63) :
    let plain := (session.discounting false).loadAndTranslate source
    let discounted := (session.discounting true).loadAndTranslate source
    discounted.2.nextNode = plain.2.nextNode ∧
    discounted.2.translator.nextId = plain.2.translator.nextId ∧
    Session.trace discounted.2.translator.events = Session.trace plain.2.translator.events ∧
    ∃ lines, RaisedOutcome lines plain.1 discounted.1 := by
  intro plain discounted
  cases hread : (session.read source).1 with
  | error fault =>
      have hplain : plain = _ := Session.loadAndTranslate_error hread false
      have hdiscounted : discounted = _ := Session.loadAndTranslate_error hread true
      rw [hplain, hdiscounted]
      exact ⟨rfl, rfl, rfl, 0, raisedOutcome_refl fault⟩
  | ok tree =>
      -- Both translations are of the tree that was read, one of them on raised lines.
      have hraised := Node.prepare_eq_onLines (hlines tree hread)
      generalize tree.decoratorOffset.getD 0 = lines at hraised
      obtain ⟨ready, hready⟩ : ∃ ready,
          (((session.read source).2.discounting true).prepare tree).2 = ready := ⟨_, rfl⟩
      have hprepare : ((session.read source).2.discounting true).prepare tree =
          (tree.onLines (raise lines), ready) := Prod.ext hraised hready
      have hakin := (session.read source).2.akin_prepare tree
      rw [hprepare] at hakin
      obtain ⟨hout, hnode, hid, htrace⟩ := Session.translate_akin (raise_zero lines) hakin tree
      have hplain : plain = _ :=
        Session.loadAndTranslate_ok hread (Session.prepare_discounting _ tree)
      have hdiscounted : discounted = _ := Session.loadAndTranslate_ok hread hprepare
      rw [hplain, hdiscounted]
      refine ⟨hnode, hid, htrace, lines, ?_⟩
      rw [hout]
      exact raisedOutcome_map lines tree _

/-- Two decorators are discounted: the function is on line 1 instead of 3. -/
theorem raised_by_discount_twice :
    let source := Source.ofText "m" "@g\n@h\ndef f():\n    pass\n" .program
    let session := Session.begin .standard "_"
    let plain := (session.discounting false).loadAndTranslate source
    let discounted := (session.discounting true).loadAndTranslate source
    (∀ tree, (session.read source).1 = .ok tree →
      ∀ line ∈ tree.toValue.lines, 1 ≤ line ∧ line < 2 ^ 63) ∧
    (∃ found, plain.1 = .ok found ∧ found.2.head.line = 3) ∧
    (∃ found, discounted.1 = .ok found ∧ found.2.head.line = 1) ∧
    discounted.2.nextNode = plain.2.nextNode ∧
    discounted.2.translator.nextId = plain.2.translator.nextId ∧
    Session.trace discounted.2.translator.events = Session.trace plain.2.translator.events ∧
    ∃ lines, RaisedOutcome lines plain.1 discounted.1 := by
  intro source session plain discounted
  obtain ⟨tree, hread, hlines⟩ : ∃ tree, (session.read source).1 = .ok tree ∧
      ∀ line ∈ tree.toValue.lines, 1 ≤ line ∧ line < 2 ^ 63 := by
    decide +kernel
  have hall : ∀ tree, (session.read source).1 = .ok tree →
      ∀ line ∈ tree.toValue.lines, 1 ≤ line ∧ line < 2 ^ 63 := by
    intro other hother
    rw [hread] at hother
    cases hother
    exact hlines
  have hplain : ∃ found, plain.1 = .ok found ∧ found.2.head.line = 3 := by decide +kernel
  have hdiscounted : ∃ found, discounted.1 = .ok found ∧ found.2.head.line = 1 := by
    decide +kernel
  exact ⟨hall, hplain, hdiscounted, raised_by_discount session source hall⟩

end FunctionIR
