import FunctionIR.Proofs.Grammar.Inline
import FunctionIR.Proofs.Reading.Contexts

/-!
# The functions of a text

Every function that is written in a program text is in its tree, in the same
order, and there are no others (`functions_found`).  A function of the tree has
been **read from** the phrase of one in the text: it covers the text of the
phrase, its name is the word there, and its arguments are found in the list of
parameters (`ReadFrom`).

What is without line breaks has no function in it, neither a phrase nor what it
is read as; so functions are in blocks only, and these come in the order of the
text.
-/

namespace FunctionIR

/-! ### Functions in phrases -/

namespace Grammar

/-- What a pattern without line breaks leaves is inside a line. -/
theorem Pattern.Leaves.inline {spacing : Spacing} {p : Pattern} {found : List Phrase}
    (h : Pattern.Leaves spacing p found) (hp : p.uses Rule.isInline = true) :
    ∀ phrase ∈ found, phrase.Inline := by
  induction h with
  | text | one | skipped | absent | finish | mute => exact List.forall_mem_nil _
  | start | margin | outdent | indent => cases hp
  | seq _ _ ihp ihq =>
      obtain ⟨hp, hq⟩ := Bool.and_eq_true_iff.mp hp
      exact List.forall_mem_append.mpr ⟨ihp hp, ihq hq⟩
  | first _ ih => exact ih (Bool.and_eq_true_iff.mp hp).1
  | second _ ih => exact ih (Bool.and_eq_true_iff.mp hp).2
  | taken _ ih => exact ih hp
  | many _ ih =>
      intro phrase hmem
      obtain ⟨round, hround, hmem⟩ := List.mem_flatten.mp hmem
      exact ih round hround hp phrase hmem
  | kept _ _ _ ih => exact List.forall_mem_singleton.mpr (.mk hp (ih (Rule.uses_inline hp)))
  | unseen _ _ ih => exact ih (Rule.uses_inline hp)

/-- A rule with line breaks is no token. -/
theorem Rule.spacing_of_not_inline {r : Rule} (h : r.isInline = false) :
    r.definition.spacing ≠ some .token := by
  have hall : ∀ r ∈ Rule.all, r.isInline = false → r.definition.spacing ≠ some .token := by decide
  exact hall r r.mem_all h

namespace Phrase

/-- The functions that are written in a phrase, in the order of the text. -/
def functions (phrase : Phrase) : List Phrase :=
  phrase.inner.filter fun inner => inner.rule = .functionDef

/-- The same of several phrases. -/
def functionsOfParts (parts : List Phrase) : List Phrase :=
  (innerOfParts parts).filter fun inner => inner.rule = .functionDef

section

variable {rule : Rule} {start stop : Place} {text : List Char} {parts more : List Phrase}
  {part phrase : Phrase}

@[simp]
theorem functionsOfParts_nil : functionsOfParts [] = [] := rfl

/-- The functions of the first part and those of the others. -/
@[simp]
theorem functionsOfParts_cons :
    functionsOfParts (part :: parts) = part.functions ++ functionsOfParts parts :=
  List.filter_append _ _

/-- A function comes before those inside it. -/
theorem functions_function : (Phrase.mk .functionDef start stop text parts).functions =
    .mk .functionDef start stop text parts :: functionsOfParts parts := rfl

/-- Any other phrase has the functions of its parts. -/
theorem functions_other (h : rule ≠ .functionDef) :
    (Phrase.mk rule start stop text parts).functions = functionsOfParts parts :=
  List.filter_cons_of_neg (by simp [Phrase.rule, h])

theorem functionsOfParts_eq_nil (h : ∀ part ∈ parts, part.functions = []) :
    functionsOfParts parts = [] := by
  induction parts with
  | nil => rfl
  | cons part parts ih =>
      obtain ⟨hpart, hparts⟩ := List.forall_mem_cons.mp h
      rw [functionsOfParts_cons, hpart, ih hparts, List.append_nil]

/-- A line has no function in it. -/
theorem Inline.functions : {phrase : Phrase} → phrase.Inline → phrase.functions = []
  | .mk rule _ _ _ parts, .mk hrule hparts => by
      rw [functions_other (by rintro rfl; cases hrule)]
      exact functionsOfParts_eq_nil fun part hpart => (hparts part hpart).functions
termination_by phrase => sizeOf phrase
decreasing_by
  have hsize := List.sizeOf_lt_of_mem hpart
  simp only [Phrase.mk.sizeOf_spec]
  omega

namespace Formed

/-- A formed phrase of a rule without line breaks is inside a line. -/
theorem inline (h : phrase.Formed) (hrule : phrase.rule.isInline = true) : phrase.Inline := by
  obtain ⟨rule, start, stop, text, parts⟩ := phrase
  obtain ⟨spacing, -, hparts⟩ := h
  exact .mk hrule (hparts.inline (Rule.uses_inline hrule))

/-- An inline phrase has no function. -/
theorem functions_inline (h : phrase.Formed) (hrule : phrase.rule.isInline = true) :
    phrase.functions = [] :=
  (h.inline hrule).functions

/-- The parts of a phrase with line breaks are formed, too. -/
theorem below (h : (Phrase.mk rule start stop text parts).Formed) (hrule : rule.isInline = false) :
    ∀ part ∈ parts, part.Formed :=
  h.inside (Rule.spacing_of_not_inline hrule)

end Formed

end

/-- The parameters in the text of a function. -/
def parameterList (function : Phrase) : List Phrase :=
  ((function.parts.find? fun part => part.rule = .parameters).map parts).getD []

end Phrase

end Grammar

open Grammar (Phrase Place Rule)

/-! ### Functions in trees -/

namespace Value

/-- The functions in a value, in the order of the fields. -/
def functions (value : Value) : List Node :=
  value.nodes.filter fun node => node.head.kind = .functionDef

/-- The same of several values. -/
def functionsOfItems (items : List Value) : List Node :=
  (nodesOfItems items).filter fun node => node.head.kind = .functionDef

/-- The same of fields. -/
def functionsOfFields (fields : Fields) : List Node :=
  (nodesOfFields fields).filter fun node => node.head.kind = .functionDef

variable {head : Head} {fields rest : Fields} {name : String} {value : Value}
  {items more : List Value}

@[simp]
theorem functions_scalar (s : Scalar) : (Value.scalar s).functions = [] := rfl

@[simp]
theorem functions_str (text : String) : (Value.str text).functions = [] := rfl

@[simp]
theorem functions_absent : Value.absent.functions = [] := rfl

/-- The functions of a list are those of its items. -/
@[simp]
theorem functions_list : (Value.list items).functions = functionsOfItems items := rfl

@[simp]
theorem functionsOfItems_nil : functionsOfItems [] = [] := rfl

/-- The functions of the first value and those of the others. -/
@[simp]
theorem functionsOfItems_cons :
    functionsOfItems (value :: items) = value.functions ++ functionsOfItems items :=
  List.filter_append _ _

@[simp]
theorem functionsOfItems_append :
    functionsOfItems (items ++ more) = functionsOfItems items ++ functionsOfItems more := by
  induction items with
  | nil => rfl
  | cons item items ih =>
      rw [List.cons_append, functionsOfItems_cons, functionsOfItems_cons, ih, List.append_assoc]

@[simp]
theorem functionsOfFields_nil : functionsOfFields [] = [] := rfl

/-- The functions of the first field and those of the others. -/
@[simp]
theorem functionsOfFields_cons :
    functionsOfFields ((name, value) :: rest) = value.functions ++ functionsOfFields rest :=
  List.filter_append _ _

/-- A function comes before those inside it. -/
theorem functions_function (h : head.kind = .functionDef) :
    (Value.node head fields).functions = ⟨head, fields⟩ :: functionsOfFields fields :=
  List.filter_cons_of_pos (by simpa using h)

/-- Any other node has the functions of its fields. -/
theorem functions_other (h : head.kind ≠ .functionDef) :
    (Value.node head fields).functions = functionsOfFields fields :=
  List.filter_cons_of_neg (by simpa using h)

end Value

/-- The functions in a tree, in the order of the fields. -/
def Node.functions (node : Node) : List Node := node.toValue.functions

/-- Nodes of which none is a statement have no function among them. -/
theorem filter_functions_of_expression {entries : List (Bool × Node)}
    (h : ∀ entry ∈ entries, entry.2.InExpression entry.1) :
    (entries.map Prod.snd).filter (fun node => node.head.kind = .functionDef) = [] := by
  refine List.filter_eq_nil_iff.mpr fun node hnode => ?_
  obtain ⟨entry, hentry, rfl⟩ := List.mem_map.mp hnode
  have hrole := (h entry hentry).role
  intro hkind
  rw [of_decide_eq_true hkind] at hrole
  exact hrole rfl

namespace Reading

open Value

variable {file : String} {start stop : Place} {c d : Nat} {assigned : Bool} {value : Value}
  {values : List Value}

/-! ### What has no function in it -/

/-- There is no function in an expression. -/
theorem functions_of_expresses (h : Expresses assigned value) : value.functions = [] := by
  rw [Value.functions, ← map_standings assigned]
  exact filter_functions_of_expression h

/-- There is no function in several expressions. -/
theorem functions_of_express (h : Express assigned values) : functionsOfItems values = [] := by
  rw [functionsOfItems, ← map_standingsOfItems assigned]
  exact filter_functions_of_expression h

theorem functions_getD {value : Option Value} (h : ∀ v ∈ value, Expresses false v) :
    (value.getD .absent).functions = [] := by
  cases value with
  | none => rfl
  | some v => exact functions_of_expresses (h v rfl)

theorem functionsOfItems_single : functionsOfItems [value] = value.functions := by simp

/-- There is no function in a simple statement. -/
theorem FindsSimple.functions {phrase : Phrase} (h : FindsSimple file c phrase value d) :
    value.functions = [] := by
  cases h with
  | word hkind =>
      refine (functions_other ?_).trans rfl
      rintro rfl
      unfold wordKind at hkind
      split at hkind <;> cases hkind
  | returned => rfl
  | returnedValue hvalue | evaluated hvalue =>
      simp [functions_other, placedHead, functions_of_expresses hvalue.expresses]
  | assigned htargets hvalue =>
      simp [functions_other, placedHead, functions_of_express htargets.express,
        functions_of_expresses hvalue.expresses]
  | augmented _ htarget hvalue =>
      simp [functions_other, placedHead, bareNode, functions_of_expresses htarget.expresses,
        functions_of_expresses hvalue.expresses]

/-- There is no function in simple statements. -/
theorem FindsSimples.functions {phrases : List Phrase} (h : FindsSimples file c phrases values d) :
    functionsOfItems values = [] := by
  induction h with
  | nil => rfl
  | cons hstatement _ ih => rw [functionsOfItems_cons, hstatement.functions, ih, List.append_nil]

/-! ### A function and its phrase -/

/-- The function has been read from the phrase. -/
structure ReadFrom (file : String) (written : Phrase) (function : Node) : Prop where
  formed : written.Formed
  rule : written.rule = .functionDef
  span : function.head.span = some (spanOf file written.start written.stop)
  name : ∃ word ∈ written.parts, word.rule = .identifier ∧
    function.textField? "name" = some (String.ofList word.text)
  arguments : ∃ c p d id, FindsParameters file c written.parameterList .empty p d ∧
    function.field? "args" = some (p.node id)

/-- What wraps statements goes over lines and is no function. -/
theorem compound_of_wrapsStatements {rule : Rule} (h : wrapsStatements rule = true) :
    rule.isInline = false ∧ rule ≠ .functionDef := by
  unfold wrapsStatements at h
  split at h <;> first | exact ⟨rfl, nofun⟩ | cases h

/-- What statements are found in is a compound statement, or a line of simple
ones. -/
theorem StatementFinds.rule {phrase : Phrase}
    (h : StatementFinds file c (.statements phrase values) d) :
    phrase.rule.isInline = false ∨ phrase.rule = .simpleStatements := by
  cases h with
  | passed hrule => exact .inl (compound_of_wrapsStatements hrule).1
  | simple => exact .inr rfl
  | block | decorated | function | loop => exact .inl rfl
  | conditional hkind =>
      obtain rfl | rfl | rfl := rule_of_condition hkind <;> exact .inl rfl

/-- Where no list of parameters is left, the arguments are those there are. -/
theorem StatementFinds.arguments_eq {phrases : List Phrase} {sofar parts : FunctionParts}
    (h : StatementFinds file c (.parts phrases sofar parts) d)
    (hphrases : ∀ phrase ∈ phrases, phrase.rule ≠ .parameters) :
    parts.arguments = sofar.arguments := by
  induction phrases generalizing c sofar with
  | nil =>
      cases h
      rfl
  | cons phrase rest ih =>
      obtain ⟨hphrase, hrest⟩ := List.forall_mem_cons.mp hphrases
      cases h with
      | name h | returns _ h | body _ h => exact (ih h hrest).trans rfl
      | parameters => exact absurd rfl hphrase

/-- A list of parameters becomes the arguments. -/
theorem StatementFinds.arguments_found {list : Phrase} {rest : List Phrase}
    {sofar parts : FunctionParts} (hlist : list.rule = .parameters)
    (h : StatementFinds file c (.parts (list :: rest) sofar parts) d)
    (hrest : ∀ phrase ∈ rest, phrase.rule ≠ .parameters) :
    ∃ p c', FindsParameters file c list.parts .empty p c' ∧ parts.arguments = some (p.node c') := by
  cases h with
  | parameters hp h => exact ⟨_, _, hp, h.arguments_eq hrest⟩
  | body hbody =>
      have hrule := hbody.rule
      rw [hlist] at hrule
      exact absurd hrule (by decide)
  | name | returns => cases hlist

/-- The parameters of a function, from the shape of its phrase. -/
theorem parameterList_of_shape {text : List Char} {name : Phrase} {parameters : Option Phrase}
    {rest : List Phrase} (hname : name.rule ≠ .parameters)
    (hlist : ∀ list ∈ parameters, list.rule = .parameters)
    (hrest : ∀ phrase ∈ rest, phrase.rule ≠ .parameters) :
    (Phrase.mk .functionDef start stop text (name :: (parameters.toList ++ rest))).parameterList =
      (parameters.map Phrase.parts).getD [] := by
  rw [Phrase.parameterList, Phrase.parts, List.find?_cons_of_neg (by simpa using hname)]
  cases parameters with
  | none =>
      rw [Option.toList_none, List.nil_append, List.find?_eq_none.mpr (by simpa using hrest)]
  | some list =>
      rw [Option.toList_some, List.singleton_append,
        List.find?_cons_of_pos (by simpa using hlist list rfl)]

/-- **What a function has as its arguments** is found in its list of
parameters. -/
theorem StatementFinds.arguments {phrases : List Phrase} {text : List Char}
    {sofar parts : FunctionParts}
    (hformed : (Phrase.mk .functionDef start stop text phrases).Formed)
    (h : StatementFinds file c (.parts phrases sofar parts) d) (hsofar : sofar.arguments = none) :
    (parts.arguments = none ∧ (Phrase.mk .functionDef start stop text phrases).parameterList = []) ∨
      ∃ c p d, FindsParameters file c
        (Phrase.mk .functionDef start stop text phrases).parameterList .empty p d ∧
        parts.arguments = some (p.node d) := by
  obtain ⟨name, parameters, returns, body, hparts, hname, hlist, hresult, hsuite⟩ :=
    hformed.functionDef rfl
  cases hparts
  have hothers : ∀ phrase ∈ returns.toList ++ [body], phrase.rule ≠ .parameters := by
    intro phrase hphrase
    rcases List.mem_append.mp hphrase with hphrase | hphrase
    · rw [hresult phrase (Option.mem_toList.mp hphrase)]
      decide
    · rw [List.mem_singleton.mp hphrase]
      rcases hsuite with hrule | hrule <;> rw [hrule] <;> decide
  rw [parameterList_of_shape (by rw [hname]; decide) hlist hothers]
  cases h with
  | body hbody =>
      have hrule := hbody.rule
      rw [hname] at hrule
      exact absurd hrule (by decide)
  | parameters | returns => cases hname
  | name h =>
      cases parameters with
      | none => exact .inl ⟨(h.arguments_eq hothers).trans hsofar, rfl⟩
      | some list =>
          obtain ⟨p, d, hfound, harguments⟩ := h.arguments_found (hlist list rfl) hothers
          exact .inr ⟨_, p, d, hfound, harguments⟩

/-- Where no word is left, the name is the one there is. -/
theorem StatementFinds.name_eq {phrases : List Phrase} {sofar parts : FunctionParts}
    (h : StatementFinds file c (.parts phrases sofar parts) d)
    (hphrases : ∀ phrase ∈ phrases, phrase.rule ≠ .identifier) : parts.name = sofar.name := by
  induction phrases generalizing c sofar with
  | nil =>
      cases h
      rfl
  | cons phrase rest ih =>
      obtain ⟨hphrase, hrest⟩ := List.forall_mem_cons.mp hphrases
      cases h with
      | parameters _ h | returns _ h | body _ h => exact (ih h hrest).trans rfl
      | name => exact absurd rfl hphrase

/-- **The name of a function** is the word in its phrase. -/
theorem StatementFinds.name_found {phrases : List Phrase} {text : List Char}
    {sofar parts : FunctionParts}
    (hformed : (Phrase.mk .functionDef start stop text phrases).Formed)
    (h : StatementFinds file c (.parts phrases sofar parts) d) :
    ∃ word ∈ phrases, word.rule = .identifier ∧ parts.name = String.ofList word.text := by
  obtain ⟨name, parameters, returns, body, hparts, hname, hlist, hresult, hsuite⟩ :=
    hformed.functionDef rfl
  cases hparts
  have hothers : ∀ phrase ∈ parameters.toList ++ (returns.toList ++ [body]),
      phrase.rule ≠ .identifier := by
    simp only [List.mem_append, List.mem_singleton, Option.mem_toList]
    rintro phrase (hphrase | hphrase | rfl)
    · rw [hlist phrase hphrase]
      decide
    · rw [hresult phrase hphrase]
      decide
    · rcases hsuite with hrule | hrule <;> rw [hrule] <;> decide
  refine ⟨name, List.mem_cons_self, hname, ?_⟩
  cases h with
  | body hbody =>
      have hrule := hbody.rule
      rw [hname] at hrule
      exact absurd hrule (by decide)
  | parameters | returns => cases hname
  | name h => exact h.name_eq hothers

/-- The functions of a function node: itself and those of its body. -/
theorem FindsFunction.functions {decorators : List Value} {parts : FunctionParts}
    {function : Value} (h : FindsFunction file c start stop decorators parts function d)
    (hparts : parts.InContext) (hdecorators : Express false decorators) :
    ∃ head fields arguments c', function = .node head fields ∧ head.kind = .functionDef ∧
      head.span = some (spanOf file start stop) ∧
      Node.textField? ⟨head, fields⟩ "name" = some parts.name ∧
      Node.field? ⟨head, fields⟩ "args" = some arguments ∧
      FindsArguments c parts.arguments arguments c' ∧
      functionsOfFields fields = functionsOfItems parts.body := by
  cases h with
  | mk harguments =>
      refine ⟨_, _, _, _, rfl, rfl, rfl, rfl, rfl, harguments, ?_⟩
      simp [functions_of_expresses (harguments.expresses hparts.arguments),
        functions_of_express hdecorators, functions_getD hparts.returns]

/-- A function comes before those in its body. -/
theorem functions_of_function {text : List Char} {phrases : List Phrase} {decorators : List Value}
    {parts : FunctionParts} {function : Value} {c' : Nat}
    (hformed : (Phrase.mk .functionDef start stop text phrases).Formed)
    (hparts : StatementFinds file c (.parts phrases ⟨"", none, none, []⟩ parts) c')
    (hfunction : FindsFunction file c' start stop decorators parts function d)
    (hdecorators : Express false decorators)
    (hbody : List.Forall₂ (ReadFrom file) (Phrase.functionsOfParts phrases)
      (functionsOfItems parts.body)) :
    List.Forall₂ (ReadFrom file) (Phrase.mk .functionDef start stop text phrases).functions
      (functionsOfItems [function]) := by
  have hcontext : parts.InContext := hparts.inContext FunctionParts.inContext_nothing
  obtain ⟨head, fields, arguments, _, rfl, hkind, hspan, hname, hfield, hfound, hbelow⟩ :=
    hfunction.functions hcontext hdecorators
  rw [functionsOfItems_single, functions_function hkind, Phrase.functions_function, hbelow]
  obtain ⟨word, hword, hrule, htext⟩ := hparts.name_found hformed
  refine .cons ⟨hformed, rfl, hspan, ⟨word, hword, hrule, hname.trans (congrArg _ htext)⟩, ?_⟩ hbody
  rw [hfield]
  rcases hparts.arguments hformed rfl with ⟨hnone, hlist⟩ | ⟨c, p, d, hp, hsome⟩
  · rw [hnone] at hfound
    cases hfound
    rw [hlist]
    exact ⟨c, .empty, c, _, .done, rfl⟩
  · rw [hsome] at hfound
    cases hfound
    exact ⟨c, p, d, d, hp, rfl⟩

/-! ### Statements -/

/-- The functions in the suite that is the last of the phrases are in the body. -/
def BodyCorresponds (file : String) (phrases : List Phrase) (sofar body : List Value) : Prop :=
  (phrases = [] → body = sofar) ∧
    ∀ before suite, phrases = before ++ [suite] →
      (∀ part ∈ before, part.rule.isInline = true) → suite.IsSuite →
      (∀ part ∈ phrases, part.Formed) →
      List.Forall₂ (ReadFrom file) (Phrase.functionsOfParts phrases) (functionsOfItems body)

/-- A part of the header adds no function. -/
theorem BodyCorresponds.head {phrase : Phrase} {rest : List Phrase} {sofar sofar' body : List Value}
    (hrule : phrase.rule.isInline = true) (hsuite : ¬ phrase.IsSuite)
    (h : BodyCorresponds file rest sofar body) :
    BodyCorresponds file (phrase :: rest) sofar' body := by
  refine ⟨nofun, fun before suite heq hbefore hlast hformed => ?_⟩
  obtain ⟨hphrase, hrest⟩ := List.forall_mem_cons.mp hformed
  cases before with
  | nil =>
      cases heq
      exact absurd hlast hsuite
  | cons first before =>
      cases heq
      rw [Phrase.functionsOfParts_cons, hphrase.functions_inline hrule, List.nil_append]
      exact h.2 before suite rfl (List.forall_mem_cons.mp hbefore).2 hlast hrest

/-- What is found has the functions that are written. -/
def StatementFinding.Corresponds (file : String) : StatementFinding → Prop
  | .statements phrase values => phrase.Formed →
    List.Forall₂ (ReadFrom file) phrase.functions (functionsOfItems values)
  | .all phrases values => (∀ phrase ∈ phrases, phrase.Formed) →
    List.Forall₂ (ReadFrom file) (Phrase.functionsOfParts phrases) (functionsOfItems values)
  | .decorated phrases decorators values => ∀ before function, phrases = before ++ [function] →
    (∀ decorator ∈ before, decorator.rule = .decorator) → function.rule = .functionDef →
    (∀ phrase ∈ phrases, phrase.Formed) → Express false decorators →
    List.Forall₂ (ReadFrom file) (Phrase.functionsOfParts phrases) (functionsOfItems values)
  | .parts phrases sofar found => BodyCorresponds file phrases sofar.body found.body

/-- The parts of a function correspond if those of its phrases do. -/
theorem functions_of_parts {text : List Char} {phrases : List Phrase} {body : List Value}
    (hformed : (Phrase.mk .functionDef start stop text phrases).Formed)
    (h : BodyCorresponds file phrases [] body) :
    List.Forall₂ (ReadFrom file) (Phrase.functionsOfParts phrases) (functionsOfItems body) := by
  obtain ⟨name, parameters, returns, suite, hparts, hname, hlist, hresult, hsuite⟩ :=
    hformed.functionDef rfl
  refine h.2 (name :: (parameters.toList ++ returns.toList)) suite ?_ ?_ hsuite
    (hformed.below rfl)
  · rw [List.cons_append, List.append_assoc]
    exact hparts
  · intro part hpart
    rcases List.mem_cons.mp hpart with rfl | hpart
    · rw [hname]
      rfl
    · rcases List.mem_append.mp hpart with hpart | hpart
      · rw [hlist part (Option.mem_toList.mp hpart)]
        rfl
      · rw [hresult part (Option.mem_toList.mp hpart)]
        rfl

/-- In a statement with a condition the functions are below this. -/
theorem functions_conditional {rule : Rule} {text : List Char} {first second : Phrase}
    {rest : List Phrase}
    (h : (Phrase.mk rule start stop text (first :: second :: rest)).Formed)
    (hrule : rule = .ifStatement ∨ rule = .elifClause ∨ rule = .whileStatement) :
    (Phrase.mk rule start stop text (first :: second :: rest)).functions =
        second.functions ++ Phrase.functionsOfParts rest ∧
      second.Formed ∧ ∀ part ∈ rest, part.Formed := by
  obtain ⟨_, _, _, hparts, hfirst, -⟩ := h.conditional hrule
  cases hparts
  have hcompound : rule.isInline = false ∧ rule ≠ .functionDef := by
    rcases hrule with rfl | rfl | rfl <;> exact ⟨rfl, nofun⟩
  obtain ⟨hin, hbelow⟩ := List.forall_mem_cons.mp (h.below hcompound.1)
  refine ⟨?_, List.forall_mem_cons.mp hbelow⟩
  rw [Phrase.functions_other hcompound.2, Phrase.functionsOfParts_cons,
    Phrase.functionsOfParts_cons, hin.functions_inline (by rw [hfirst]; rfl), List.nil_append]

/-- In a loop over a sequence they are below the sequence. -/
theorem functions_loop {text : List Char} {first second third : Phrase} {rest : List Phrase}
    (h : (Phrase.mk .forStatement start stop text (first :: second :: third :: rest)).Formed) :
    (Phrase.mk .forStatement start stop text (first :: second :: third :: rest)).functions =
        third.functions ++ Phrase.functionsOfParts rest ∧
      third.Formed ∧ ∀ part ∈ rest, part.Formed := by
  obtain ⟨_, _, _, _, hparts, hfirst, hsecond, -⟩ := h.forStatement rfl
  cases hparts
  obtain ⟨hin, hbelow⟩ := List.forall_mem_cons.mp (h.below rfl)
  obtain ⟨hin', hbelow⟩ := List.forall_mem_cons.mp hbelow
  refine ⟨?_, List.forall_mem_cons.mp hbelow⟩
  rw [Phrase.functions_other (by decide), Phrase.functionsOfParts_cons,
    Phrase.functionsOfParts_cons, Phrase.functionsOfParts_cons,
    hin.functions_inline (by rw [hfirst]; rfl),
    hin'.functions_inline (by rw [hsecond]; rfl), List.nil_append, List.nil_append]

/-- **Statements have the functions that are written.** -/
theorem StatementFinds.functions {finding : StatementFinding}
    (h : StatementFinds file c finding d) : finding.Corresponds file := by
  -- expressions have no function in them, so all those of a statement are in its bodies
  induction h with
  | passed hrule _ ih =>
      intro hformed
      obtain ⟨hinline, hne⟩ := compound_of_wrapsStatements hrule
      rw [Phrase.functions_other hne, Phrase.functionsOfParts_cons, Phrase.functionsOfParts_nil,
        List.append_nil]
      exact ih (hformed.below hinline _ (List.mem_singleton_self _))
  | simple hstatements =>
      intro hformed
      rw [hformed.functions_inline rfl, hstatements.functions]
      exact .nil
  | block _ ih =>
      intro hformed
      exact ih (hformed.below rfl)
  | decorated _ ih =>
      intro hformed
      obtain ⟨before, function, hparts, hbefore, hfunction⟩ := hformed.decorated rfl
      exact ih before function hparts hbefore hfunction (hformed.below rfl) itemsEach_nil
  | function hparts hfunction ih =>
      intro hformed
      exact functions_of_function hformed hparts hfunction itemsEach_nil
        (functions_of_parts hformed ih)
  | conditional hkind _ htest _ ihorelse ihbody =>
      intro hformed
      obtain ⟨hwritten, hbody, hrest⟩ := functions_conditional hformed (rule_of_condition hkind)
      have hboth := List.rel_append (ihbody hbody) (ihorelse hrest)
      rw [hwritten, functionsOfItems_single]
      rcases kind_of_condition hkind with rfl | rfl
      all_goals
        simpa [functions_other, placedHead, functions_of_expresses htest.expresses] using hboth
  | loop _ htarget hiter _ ihorelse ihbody =>
      intro hformed
      obtain ⟨hwritten, hbody, hrest⟩ := functions_loop hformed
      have hboth := List.rel_append (ihbody hbody) (ihorelse hrest)
      rw [hwritten, functionsOfItems_single]
      simpa [functions_other, placedHead, functions_of_expresses htarget.expresses,
        functions_of_expresses hiter.expresses] using hboth
  | nothing => exact fun _ => .nil
  | next _ _ ihfirst ihrest =>
      intro hformed
      obtain ⟨hfirst, hrest⟩ := List.forall_mem_cons.mp hformed
      rw [Phrase.functionsOfParts_cons, functionsOfItems_append]
      exact List.rel_append (ihfirst hfirst) (ihrest hrest)
  | decorator hvalue _ ih =>
      intro before function heq hbefore hfunction hformed hdecorators
      obtain ⟨hfirst, hrest⟩ := List.forall_mem_cons.mp hformed
      cases before with
      | nil =>
          cases heq
          cases hfunction
      | cons first before =>
          cases heq
          rw [Phrase.functionsOfParts_cons, hfirst.functions_inline rfl, List.nil_append]
          exact ih before function rfl (List.forall_mem_cons.mp hbefore).2 hfunction hrest
            (ItemsEach.append hdecorators (itemsEach_single hvalue.expresses))
  | decoratedFunction hparts hfunction ih =>
      intro before function heq hbefore _ hformed hdecorators
      obtain ⟨hfirst, hrest⟩ := List.forall_mem_cons.mp hformed
      cases before with
      | nil =>
          cases heq
          rw [Phrase.functionsOfParts_cons, Phrase.functionsOfParts_nil, List.append_nil]
          exact functions_of_function hfirst hparts hfunction hdecorators
            (functions_of_parts hfirst ih)
      | cons first before =>
          cases heq
          cases (List.forall_mem_cons.mp hbefore).1
  | undecorated =>
      intro before function heq
      cases before <;> cases heq
  | done => exact ⟨fun _ => rfl, fun before suite heq => by cases before <;> cases heq⟩
  | name _ ih => exact BodyCorresponds.head rfl nofun ih
  | parameters _ _ ih => exact BodyCorresponds.head rfl nofun ih
  | returns _ _ ih => exact BodyCorresponds.head rfl nofun ih
  | @body _ _ _ phrase _ _ _ _ _ _ ihbody ih =>
      refine ⟨nofun, fun before suite heq hbefore hlast hformed => ?_⟩
      obtain ⟨hphrase, hrest⟩ := List.forall_mem_cons.mp hformed
      cases before with
      | nil =>
          cases heq
          rw [ih.1 rfl, Phrase.functionsOfParts_cons, Phrase.functionsOfParts_nil, List.append_nil]
          exact ihbody hphrase
      | cons first before =>
          cases heq
          obtain ⟨hfirst, hbefore⟩ := List.forall_mem_cons.mp hbefore
          rw [Phrase.functionsOfParts_cons, hphrase.functions_inline hfirst, List.nil_append]
          exact ih.2 before suite rfl hbefore hlast hrest

end Reading

/-! ### All program texts -/

/-- **The functions of a program text** are those of its tree, in the same
order. -/
theorem Source.functions_found {source : Source} (hformat : source.format = .program)
    {counter next : Nat} {tree : Node} (h : source.tree.runFrom counter = (.ok tree, next)) :
    ∃ whole, source.MatchedBy whole ∧
      List.Forall₂ (Reading.ReadFrom source.name) whole.functions tree.functions := by
  obtain ⟨whole, body, last, hmatched, hfound, rfl⟩ := Source.tree_found hformat h
  refine ⟨whole, hmatched, ?_⟩
  obtain ⟨hrule, hformed⟩ := hmatched.formed
  obtain ⟨rule, start, stop, text, parts⟩ := whole
  cases hrule
  have hfunctions := hfound.functions (hformed.below rfl)
  rw [Phrase.functions_other (by decide)]
  simpa [Phrase.parts, Node.functions, Node.toValue, Value.functions_other] using hfunctions

end FunctionIR
