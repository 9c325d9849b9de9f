import FunctionIR.Proofs.Reading.Functions
import Mathlib.Data.List.TakeWhile

/-!
# Lists of parameters

The parameters of a function are read one after the other, and each goes into
one of the groups of the `arguments` node.  The groups are told by the text
alone: a parameter before the first star is positional, one behind it is
keyword-only, and there is a slot for the name of the star and one for the name
of the double star.

What one parameter does to those that have been read is a step
(`ParameterStep`), and what all steps keep is true of the whole list
(`FindsParameters.keep`).  This is used twice.

1.  Defaults stay with their parameters (`defaults_stay`).  A keyword-only
    parameter has its default beside it, and the other defaults are those of
    the last positional parameters.
2.  Names stay in their order (`parameters_kept`).  A second star is refused,
    but nothing is said about a second double star or a parameter behind one: a
    double star always goes to the end, and only the last one is kept.
-/

namespace FunctionIR

open Grammar (Phrase Place Rule)

/-! ### Parameters in the text -/

namespace Grammar.Phrase

/-- The name of a parameter; a slash and a star alone have none. -/
def parameterName? (parameter : Phrase) : Option String :=
  (parameter.parts.find? fun part => part.rule = .identifier).map
    fun part => String.ofList part.text

/-- The phrase of the default of a parameter. -/
def default? (parameter : Phrase) : Option Phrase :=
  (parameter.parts.find? fun part => part.rule = .defaultValue).bind fun part => part.parts.head?

/-- The parameters of a list that have a name. -/
def named (list : List Phrase) : List Phrase :=
  list.filter fun parameter => parameter.parameterName?.isSome

/-- A list before its first star, which may stand alone or have a name. -/
def beforeStar (list : List Phrase) : List Phrase :=
  list.takeWhile fun parameter => parameter.rule ≠ .varargsParameter

/-- A list from its first star on. -/
def fromStar (list : List Phrase) : List Phrase :=
  list.dropWhile fun parameter => parameter.rule ≠ .varargsParameter

/-- The positional parameters of a list: those before the first star. -/
def positional (list : List Phrase) : List Phrase :=
  (beforeStar list).filter fun parameter => parameter.rule = .plainParameter

/-- The keyword-only parameters of a list: those behind the first star. -/
def keywordOnly (list : List Phrase) : List Phrase :=
  (fromStar list).filter fun parameter => parameter.rule = .plainParameter

/-- The parameters of a list that have a name, but for double stars. -/
def singles (list : List Phrase) : List Phrase :=
  (named list).filter fun parameter => parameter.rule ≠ .kwargsParameter

/-- The last double star of a list. -/
def lastDouble? (list : List Phrase) : Option Phrase :=
  ((named list).filter fun parameter => parameter.rule = .kwargsParameter).getLast?

/-- The list has a star. -/
def Starred (list : List Phrase) : Prop := ∃ star ∈ list, star.rule = .varargsParameter

section

variable {list : List Phrase} {parameter : Phrase}

/-- A list with one more parameter has a star if it had one or the parameter is one. -/
theorem starred_snoc : Starred (list ++ [parameter]) ↔
    Starred list ∨ parameter.rule = .varargsParameter := by
  simp [Starred, or_and_right, exists_or]

/-- A parameter with a name is one more of those with a name. -/
theorem named_snoc_of_isSome (h : parameter.parameterName?.isSome = true) :
    named (list ++ [parameter]) = named list ++ [parameter] := by
  simp [named, h]

theorem named_snoc_of_none (h : parameter.parameterName? = none) :
    named (list ++ [parameter]) = named list := by
  simp [named, h]

theorem singles_snoc_of_none (h : parameter.parameterName? = none) :
    singles (list ++ [parameter]) = singles list ∧
      lastDouble? (list ++ [parameter]) = lastDouble? list := by
  unfold singles lastDouble?
  rw [named_snoc_of_none h]
  exact ⟨rfl, rfl⟩

/-- A parameter with a name and no double star is one more single one. -/
theorem singles_snoc_of_ne (h : parameter.parameterName?.isSome = true)
    (hrule : parameter.rule ≠ .kwargsParameter) :
    singles (list ++ [parameter]) = singles list ++ [parameter] ∧
      lastDouble? (list ++ [parameter]) = lastDouble? list := by
  unfold singles lastDouble?
  rw [named_snoc_of_isSome h]
  simp [hrule]

/-- A further double star takes the place of the one before. -/
theorem singles_snoc_of_double (h : parameter.parameterName?.isSome = true)
    (hrule : parameter.rule = .kwargsParameter) :
    singles (list ++ [parameter]) = singles list ∧
      lastDouble? (list ++ [parameter]) = some parameter := by
  unfold singles lastDouble?
  rw [named_snoc_of_isSome h]
  simp [hrule]

/-- If only the last one can be a double star, all parameters are in their
places. -/
theorem singles_append_double
    (h : ∀ parameter ∈ (named list).dropLast, parameter.rule ≠ .kwargsParameter) :
    singles list ++ (lastDouble? list).toList = named list := by
  unfold singles lastDouble?
  generalize named list = names at h ⊢
  rcases List.eq_nil_or_concat' names with rfl | ⟨before, last, rfl⟩
  · rfl
  · rw [List.dropLast_concat] at h
    have hbefore : before.filter (fun parameter => parameter.rule ≠ .kwargsParameter) = before :=
      List.filter_eq_self.mpr fun parameter hmem => decide_eq_true (h parameter hmem)
    have hnone : before.filter (fun parameter => parameter.rule = .kwargsParameter) = [] :=
      List.filter_eq_nil_iff.mpr fun parameter hmem => by simpa using h parameter hmem
    rw [List.filter_append, List.filter_append, hbefore, hnone]
    by_cases hlast : last.rule = .kwargsParameter <;> simp [hlast]

/-- Behind a star everything belongs to the second part. -/
theorem star_snoc_of_starred (h : Starred list) (parameter : Phrase) :
    beforeStar (list ++ [parameter]) = beforeStar list ∧
      fromStar (list ++ [parameter]) = fromStar list ++ [parameter] := by
  obtain ⟨star, hmem, hstar⟩ := h
  obtain ⟨before, behind, rfl⟩ := List.append_of_mem hmem
  induction before with
  | nil => simp [beforeStar, fromStar, hstar]
  | cons first before ih => 
      by_cases hfirst : first.rule = .varargsParameter
      · simp [beforeStar, fromStar, hfirst]
      · simpa [beforeStar, fromStar, hfirst] using ih (by simp)

/-- Without a star before it, what comes last makes its own two parts. -/
theorem star_snoc_of_not (h : ¬ Starred list) (parameter : Phrase) :
    beforeStar (list ++ [parameter]) = beforeStar list ++ beforeStar [parameter] ∧
      fromStar (list ++ [parameter]) = fromStar list ++ fromStar [parameter] := by
  have hlist : ∀ before ∈ list, decide (before.rule ≠ .varargsParameter) = true :=
    fun before hbefore => decide_eq_true fun hstar => h ⟨before, hbefore, hstar⟩
  have hbefore : beforeStar list = list := List.takeWhile_eq_self_iff.mpr hlist
  have hfrom : fromStar list = [] := List.dropWhile_eq_nil_iff.mpr hlist
  rw [hbefore, hfrom, List.nil_append]
  exact ⟨List.takeWhile_append_of_pos hlist, List.dropWhile_append_of_pos hlist⟩

/-- What is no plain parameter is of neither sort. -/
theorem sorts_snoc_of_ne (h : parameter.rule ≠ .plainParameter) :
    positional (list ++ [parameter]) = positional list ∧
      keywordOnly (list ++ [parameter]) = keywordOnly list := by
  unfold positional keywordOnly
  by_cases hstar : Starred list
  · obtain ⟨hbefore, hfrom⟩ := star_snoc_of_starred hstar parameter
    simp [hbefore, hfrom, h]
  · obtain ⟨hbefore, hfrom⟩ := star_snoc_of_not hstar parameter
    rw [hbefore, hfrom, List.filter_append, List.filter_append]
    by_cases hrule : parameter.rule = .varargsParameter <;> simp [beforeStar, fromStar, h, hrule]

/-- Without a star a plain parameter is positional. -/
theorem sorts_snoc_of_not (h : parameter.rule = .plainParameter) (hstar : ¬ Starred list) :
    positional (list ++ [parameter]) = positional list ++ [parameter] ∧
      keywordOnly (list ++ [parameter]) = keywordOnly list := by
  obtain ⟨hbefore, hfrom⟩ := star_snoc_of_not hstar parameter
  unfold positional keywordOnly
  rw [hbefore, hfrom, List.filter_append, List.filter_append]
  simp [beforeStar, fromStar, h]

/-- Behind a star it is keyword-only. -/
theorem sorts_snoc_of_starred (h : parameter.rule = .plainParameter) (hstar : Starred list) :
    positional (list ++ [parameter]) = positional list ∧
      keywordOnly (list ++ [parameter]) = keywordOnly list ++ [parameter] := by
  obtain ⟨hbefore, hfrom⟩ := star_snoc_of_starred hstar parameter
  simp [positional, keywordOnly, hbefore, hfrom, h]

/-- The parameters of a formed function are formed. -/
theorem Formed.parameterList {function : Phrase} (h : function.Formed)
    (hrule : function.rule = .functionDef) :
    ∀ parameter ∈ function.parameterList, parameter.Formed := by
  obtain ⟨_, start, stop, text, parts⟩ := function
  cases hrule
  unfold Phrase.parameterList
  cases hfind : parts.find? fun part => part.rule = .parameters with
  | none => simp [Phrase.parts, hfind]
  | some list =>
      have hlist := h.below rfl list (List.mem_of_find?_eq_some hfind)
      have hrule : list.rule = .parameters := by simpa using List.find?_some hfind
      obtain ⟨_, _, _, _, parameters⟩ := list
      cases hrule
      simpa [Phrase.parts, hfind] using hlist.inside (by decide)

end

end Grammar.Phrase

/-! ### Groups of the tree -/

/-- What is in a field: the items of a list, or a node if there is one. -/
def Value.elements : Value → List Value
  | .list items => items
  | .node head fields => [.node head fields]
  | _ => []

/-- What a function has in a group of its arguments. -/
def Node.group (function : Node) (name : String) : List Value :=
  (((function.field? "args").bind Value.asNode).bind fun arguments =>
    (arguments.field? name).map Value.elements).getD []

/-- All parameters of a function, one group after the other. -/
def Node.parameterSequence (function : Node) : List Value :=
  ["posonlyargs", "args", "vararg", "kwonlyargs", "kwarg"].flatMap function.group

namespace Reading

variable {file : String} {start stop : Place} {c d : Nat} {parameter : Phrase}
  {read list phrases : List Phrase} {arg value : Value} {default : Option Value}
  {p q : Parameters}

/-! ### One parameter -/

/-- The node stands for the parameter: it has its name, and its place. -/
def NamedBy (file : String) (parameter : Phrase) (value : Value) : Prop :=
  ∃ node name, value = Node.toValue node ∧ node.head.kind = .arg ∧
    node.head.span = some (spanOf file parameter.start parameter.stop) ∧
    parameter.parameterName? = some name ∧ node.textField? "arg" = some name

/-- The value is the default of the parameter: absent if none is written, and
otherwise what is read from it. -/
def DefaultOf (file : String) (parameter : Phrase) (value : Value) : Prop :=
  match parameter.default? with
  | none => value = .absent
  | some written => value ≠ .absent ∧ ∃ c d, (expression file written).runFrom c = (.ok value, d)

/-- The same of a default that need not be there. -/
def ReadsDefault (file : String) (parameter : Phrase) : Option Value → Prop
  | none => parameter.default? = none
  | some value => parameter.default?.isSome = true ∧ DefaultOf file parameter value

/-- What a value is named by has a name. -/
theorem NamedBy.isSome (h : NamedBy file parameter value) :
    parameter.parameterName?.isSome = true := by
  obtain ⟨_, name, -, -, -, hname, -⟩ := h
  rw [hname]
  rfl

/-- A parameter is a single element. -/
theorem NamedBy.elements (h : NamedBy file parameter value) : value.elements = [value] := by
  obtain ⟨node, _, rfl, -⟩ := h
  rfl

theorem ReadsDefault.getD (h : ReadsDefault file parameter default) :
    DefaultOf file parameter (default.getD .absent) := by
  cases default with
  | none =>
      unfold ReadsDefault at h
      rw [DefaultOf, h]
      rfl
  | some value => exact h.2

open Grammar (NamesParameter)

/-- The default of a parameter is the one that is written. -/
theorem FindsParts.readsDefault {rule : Rule} {text : List Char} {before : List Phrase}
    {written : Option Phrase} {sofar parts : ParameterParts}
    (h : FindsParts file c written.toList sofar parts d)
    (hbefore : ∀ part ∈ before, part.rule ≠ .defaultValue)
    (hwritten : ∀ part ∈ written, part.rule = .defaultValue) (hsofar : sofar.default = none) :
    parts.name = sofar.name ∧
      ReadsDefault file (.mk rule start stop text (before ++ written.toList)) parts.default := by
  have hfind : before.find? (fun part => part.rule = .defaultValue) = none :=
    List.find?_eq_none.mpr (by simpa using hbefore)
  cases written with
  | none =>
      cases h
      rw [hsofar]
      refine ⟨rfl, ?_⟩
      simp [ReadsDefault, Phrase.default?, Phrase.parts, hfind]
  | some part =>
      obtain ⟨_, _, _, _, _⟩ := part
      cases hwritten _ rfl
      cases h with
      | default hread h =>
        cases h
        obtain ⟨_, _, rfl, -⟩ := (expression_fits _ (Phrase.all_trivial _) _ _ _ hread).exists_node
        refine ⟨rfl, ?_⟩
        simp only [ReadsDefault, DefaultOf, Phrase.default?, Phrase.parts, List.find?_append, hfind]
        refine ⟨rfl, ?_, _, _, hread⟩
        intro habsent
        cases habsent

/-- Behind a type hint the parts of a parameter go on. -/
theorem FindsParts.behind_hint {hint : Option Phrase} {rest : List Phrase}
    {sofar parts : ParameterParts} (h : FindsParts file c (hint.toList ++ rest) sofar parts d)
    (hhint : ∀ type ∈ hint, type.rule = .typeHint) :
    ∃ c' annotated, FindsParts file c' rest { sofar with annotated := annotated } parts d := by
  cases hint with
  | none => exact ⟨c, sofar.annotated, h⟩
  | some type =>
      obtain ⟨_, _, _, _, _⟩ := type
      cases hhint _ rfl
      cases h with
      | hint _ h => exact ⟨_, _, h⟩

/-- What is read of a parameter with a name. -/
theorem FindsParameter.reads {rule : Rule} {text : List Char}
    (h : FindsParameter file c start stop phrases arg default d) (hparts : NamesParameter phrases) :
    NamedBy file (.mk rule start stop text phrases) arg ∧
      ReadsDefault file (.mk rule start stop text phrases) default := by
  obtain ⟨name, hint, written, rfl, hname, hhint, hwritten⟩ := hparts
  have hbefore : ∀ part ∈ name :: hint.toList, part.rule ≠ .defaultValue := by
    refine List.forall_mem_cons.mpr ⟨by rw [hname]; decide, fun part hpart => ?_⟩
    rw [hhint part (Option.mem_toList.mp hpart)]
    decide
  obtain ⟨_, _, _, chars, _⟩ := name
  cases hname
  cases h with
  | mk hparts =>
    cases hparts with
    | name hparts =>
      obtain ⟨_, _, hparts⟩ := hparts.behind_hint hhint
      obtain ⟨hname, hdefault⟩ := hparts.readsDefault hbefore hwritten rfl
      exact ⟨⟨⟨_, _⟩, String.ofList chars, rfl, rfl, rfl, rfl, congrArg some hname⟩, hdefault⟩

/-! ### One step -/

/-- What a parameter does to those that have been read. -/
inductive ParameterStep (file : String) : Phrase → Parameters → Parameters → Prop
  | slash {parameter : Phrase} {p q : Parameters} :
      parameter.rule = .positionalMarker → parameter.parameterName? = none →
      p.addSlash = some q → ParameterStep file parameter p q
  | plain {parameter : Phrase} {arg : Value} {default : Option Value} {p q : Parameters} :
      parameter.rule = .plainParameter → NamedBy file parameter arg →
      ReadsDefault file parameter default → p.addPlain arg default = some q →
      ParameterStep file parameter p q
  | star {parameter : Phrase} {p : Parameters} :
      parameter.rule = .varargsParameter → parameter.parameterName? = none → p.starred = false →
      ParameterStep file parameter p { p with starred := true }
  | varargs {parameter : Phrase} {arg : Value} {p : Parameters} :
      parameter.rule = .varargsParameter → NamedBy file parameter arg → p.starred = false →
      ParameterStep file parameter p { p with starred := true, rest := some arg }
  | kwargs {parameter : Phrase} {arg : Value} {p : Parameters} :
      parameter.rule = .kwargsParameter → NamedBy file parameter arg →
      ParameterStep file parameter p { p with keywords := some arg }

/-- **What every step keeps** is true in the end. -/
theorem FindsParameters.keep (Keeps : List Phrase → Parameters → Prop)
    (hstep : ∀ {read parameter p q}, ParameterStep file parameter p q → Keeps read p →
      Keeps (read ++ [parameter]) q)
    (h : FindsParameters file c list p q d) (hformed : ∀ parameter ∈ list, parameter.Formed)
    (hp : Keeps read p) : Keeps (read ++ list) q := by
  induction h generalizing read with
  | done => rwa [List.append_nil]
  | @slash _ _ start stop text parts rest _ _ _ hadded _ ih =>
      obtain ⟨hparameter, hrest⟩ := List.forall_mem_cons.mp hformed
      have hparts : parts = [] := hparameter.positionalMarker rfl
      rw [List.append_cons]
      exact ih hrest (hstep (.slash rfl (by subst hparts; rfl) hadded) hp)
  | plain hfound hadded _ ih =>
      obtain ⟨hparameter, hrest⟩ := List.forall_mem_cons.mp hformed
      obtain ⟨hname, hdefault⟩ := hfound.reads (hparameter.plainParameter rfl)
      rw [List.append_cons]
      exact ih hrest (hstep (.plain rfl hname hdefault hadded) hp)
  | star hstarred _ ih =>
      obtain ⟨-, hrest⟩ := List.forall_mem_cons.mp hformed
      rw [List.append_cons]
      exact ih hrest (hstep (.star rfl rfl hstarred) hp)
  | varargs hstarred hne hfound _ ih =>
      obtain ⟨hparameter, hrest⟩ := List.forall_mem_cons.mp hformed
      have hparts := (hparameter.varargsParameter rfl).resolve_left hne
      rw [List.append_cons]
      exact ih hrest (hstep (.varargs rfl (hfound.reads hparts).1 hstarred) hp)
  | kwargs hfound _ ih =>
      obtain ⟨hparameter, hrest⟩ := List.forall_mem_cons.mp hformed
      rw [List.append_cons]
      exact ih hrest (hstep (.kwargs rfl (hfound.reads (hparameter.kwargsParameter rfl)).1) hp)

/-! ### Defaults -/

/-- The defaults are those of the last parameters, and the others have none. -/
def DefaultsLast (file : String) (parameters : List Phrase) (defaults : List Value) : Prop :=
  ∃ without given, parameters = without ++ given ∧
    (∀ parameter ∈ without, parameter.default? = none) ∧
    (∀ parameter ∈ given, parameter.default?.isSome = true) ∧
    List.Forall₂ (DefaultOf file) given defaults

/-- A parameter without a default, as long as none has one. -/
theorem DefaultsLast.without {parameters : List Phrase} (h : DefaultsLast file parameters [])
    (hparameter : parameter.default? = none) :
    DefaultsLast file (parameters ++ [parameter]) [] := by
  obtain ⟨without, given, rfl, hwithout, -, hdefaults⟩ := h
  cases hdefaults
  refine ⟨without ++ [parameter], [], by simp, ?_, List.forall_mem_nil _, .nil⟩
  exact List.forall_mem_append.mpr ⟨hwithout, List.forall_mem_singleton.mpr hparameter⟩

/-- A parameter with a default behind those with one. -/
theorem DefaultsLast.given {parameters : List Phrase} {defaults : List Value}
    (h : DefaultsLast file parameters defaults)
    (hparameter : ReadsDefault file parameter (some value)) :
    DefaultsLast file (parameters ++ [parameter]) (defaults ++ [value]) := by
  obtain ⟨without, given, rfl, hwithout, hgiven, hdefaults⟩ := h
  refine ⟨without, given ++ [parameter], by simp, hwithout, ?_,
    List.rel_append hdefaults (.cons hparameter.2 .nil)⟩
  exact List.forall_mem_append.mpr ⟨hgiven, List.forall_mem_singleton.mpr hparameter.1⟩

/-- The groups have the given parameters, those before the star and those behind
it, each with its own default. -/
structure Parameters.Sorted (file : String) (before behind : List Phrase) (p : Parameters) :
    Prop where
  positional : List.Forall₂ (NamedBy file) before (p.positionalOnly ++ p.positional)
  defaults : DefaultsLast file before p.defaults
  keywordOnly : List.Forall₂ (NamedBy file) behind p.keywordOnly
  keywordDefaults : List.Forall₂ (DefaultOf file) behind p.keywordDefaults

theorem Parameters.sorted_empty : Parameters.empty.Sorted file [] [] :=
  ⟨.nil, ⟨[], [], rfl, List.forall_mem_nil _, List.forall_mem_nil _, .nil⟩, .nil, .nil⟩

/-- A parameter before the star. -/
theorem Parameters.Sorted.addPositional {before behind : List Phrase}
    (h : p.Sorted file before behind) (hstarred : p.starred = false)
    (hname : NamedBy file parameter arg) (hdefault : ReadsDefault file parameter default)
    (hadded : p.addPlain arg default = some q) :
    q.Sorted file (before ++ [parameter]) behind := by
  have hpositional : List.Forall₂ (NamedBy file) (before ++ [parameter])
      (p.positionalOnly ++ (p.positional ++ [arg])) := by
    rw [← List.append_assoc]
    exact List.rel_append h.positional (.cons hname .nil)
  obtain ⟨htrue, -⟩ | ⟨-, value, rfl, rfl⟩ | ⟨-, rfl, hempty, rfl⟩ :=
    Parameters.addPlain_eq_some hadded
  · rw [hstarred] at htrue
    cases htrue
  · exact { h with positional := hpositional, defaults := h.defaults.given hdefault }
  · have hlast := h.defaults
    rw [hempty] at hlast
    have hdefaults := hlast.without hdefault
    rw [← hempty] at hdefaults
    exact { h with positional := hpositional, defaults := hdefaults }

/-- A parameter behind the star. -/
theorem Parameters.Sorted.addKeywordOnly {before behind : List Phrase}
    (h : p.Sorted file before behind) (hstarred : p.starred = true)
    (hname : NamedBy file parameter arg) (hdefault : ReadsDefault file parameter default)
    (hadded : p.addPlain arg default = some q) :
    q.Sorted file before (behind ++ [parameter]) := by
  obtain ⟨-, rfl⟩ | ⟨hfalse, -⟩ | ⟨hfalse, -⟩ := Parameters.addPlain_eq_some hadded
  · exact { h with
      keywordOnly := List.rel_append h.keywordOnly (.cons hname .nil)
      keywordDefaults := List.rel_append h.keywordDefaults (.cons hdefault.getD .nil) }
  all_goals
    rw [hstarred] at hfalse
    cases hfalse

/-- A star is noticed. -/
theorem ParameterStep.starred (h : ParameterStep file parameter p q) :
    q.starred = true ↔ p.starred = true ∨ parameter.rule = .varargsParameter := by
  cases h with
  | slash hrule _ hadded =>
      obtain ⟨-, -, rfl⟩ := Parameters.addSlash_eq_some hadded
      simp [hrule]
  | plain hrule _ _ hadded =>
      obtain ⟨-, rfl⟩ | ⟨-, _, -, rfl⟩ | ⟨-, -, -, rfl⟩ := Parameters.addPlain_eq_some hadded <;>
        simp [hrule]
  | star hrule | varargs hrule | kwargs hrule => simp [hrule]

/-- **A step keeps the groups sorted.** -/
theorem ParameterStep.sorted (h : ParameterStep file parameter p q)
    (hp : (p.starred = true ↔ Phrase.Starred read) ∧
      p.Sorted file (Phrase.positional read) (Phrase.keywordOnly read)) :
    (q.starred = true ↔ Phrase.Starred (read ++ [parameter])) ∧
      q.Sorted file (Phrase.positional (read ++ [parameter]))
        (Phrase.keywordOnly (read ++ [parameter])) := by
  obtain ⟨hstarred, hsorted⟩ := hp
  refine ⟨by rw [h.starred, Phrase.starred_snoc, hstarred], ?_⟩
  by_cases hplain : parameter.rule = .plainParameter
  · cases h with
    | slash hrule | star hrule | varargs hrule | kwargs hrule =>
        rw [hplain] at hrule
        cases hrule
    | plain _ hname hdefault hadded =>
        cases hflag : p.starred with
        | true =>
            obtain ⟨hpositional, hkeywordOnly⟩ :=
              Phrase.sorts_snoc_of_starred hplain (hstarred.mp hflag)
            rw [hpositional, hkeywordOnly]
            exact hsorted.addKeywordOnly hflag hname hdefault hadded
        | false =>
            have hnone : ¬ Phrase.Starred read := by simpa [hflag] using hstarred
            obtain ⟨hpositional, hkeywordOnly⟩ := Phrase.sorts_snoc_of_not hplain hnone
            rw [hpositional, hkeywordOnly]
            exact hsorted.addPositional hflag hname hdefault hadded
  · obtain ⟨hpositional, hkeywordOnly⟩ := @Phrase.sorts_snoc_of_ne read parameter hplain
    rw [hpositional, hkeywordOnly]
    cases h with
    | plain hrule => exact absurd hrule hplain
    | slash _ _ hadded =>
        obtain ⟨-, hnone, rfl⟩ := Parameters.addSlash_eq_some hadded
        have hsame := hsorted.positional
        rw [hnone, List.nil_append] at hsame
        exact { hsorted with positional := by rwa [List.append_nil] }
    | star | varargs | kwargs => exact { hsorted with }

/-! ### Names -/

/-- The groups have the given parameters one after the other, and the given
double star at the end. -/
structure Parameters.Ordered (file : String) (singles : List Phrase) (double : Option Phrase)
    (p : Parameters) : Prop where
  unstarred : p.starred = false → p.rest = none ∧ p.keywordOnly = []
  singles : List.Forall₂ (NamedBy file) singles
    (p.positionalOnly ++ p.positional ++ p.rest.toList ++ p.keywordOnly)
  double : List.Forall₂ (NamedBy file) double.toList p.keywords.toList

theorem Parameters.ordered_empty : Parameters.empty.Ordered file [] none :=
  ⟨fun _ => ⟨rfl, rfl⟩, .nil, .nil⟩

/-- A parameter without a star of its own comes after all that have been read. -/
theorem Parameters.Ordered.addPlain {singles : List Phrase} {double : Option Phrase}
    (h : p.Ordered file singles double) (hname : NamedBy file parameter arg)
    (hadded : p.addPlain arg default = some q) :
    q.Ordered file (singles ++ [parameter]) double := by
  have hsingles := List.rel_append h.singles (.cons hname .nil)
  -- Before a star there is nothing behind the positional parameters.
  have hlast : p.starred = false → List.Forall₂ (NamedBy file) (singles ++ [parameter])
      (p.positionalOnly ++ (p.positional ++ [arg]) ++ p.rest.toList ++ p.keywordOnly) := by
    intro hfalse
    obtain ⟨hnone, hempty⟩ := h.unstarred hfalse
    simpa [hnone, hempty] using hsingles
  obtain ⟨htrue, rfl⟩ | ⟨hfalse, _, -, rfl⟩ | ⟨hfalse, -, -, rfl⟩ :=
    Parameters.addPlain_eq_some hadded
  · refine { h with unstarred := fun hfalse => ?_, singles := ?_ }
    · rw [htrue] at hfalse
      cases hfalse
    · rw [← List.append_assoc]
      exact hsingles
  · exact { h with singles := hlast hfalse }
  · exact { h with singles := hlast hfalse }

/-- **A step keeps the order.** -/
theorem ParameterStep.ordered (h : ParameterStep file parameter p q)
    (hp : p.Ordered file (Phrase.singles read) (Phrase.lastDouble? read)) :
    q.Ordered file (Phrase.singles (read ++ [parameter]))
      (Phrase.lastDouble? (read ++ [parameter])) := by
  cases h with
  | slash _ hnone hadded =>
      obtain ⟨hsingles, hdouble⟩ := @Phrase.singles_snoc_of_none read parameter hnone
      rw [hsingles, hdouble]
      obtain ⟨-, hempty, rfl⟩ := Parameters.addSlash_eq_some hadded
      have hsame := hp.singles
      rw [hempty, List.nil_append] at hsame
      exact { hp with singles := by rwa [List.append_nil] }
  | plain hrule hname _ hadded =>
      have hne : parameter.rule ≠ .kwargsParameter := by rw [hrule]; decide
      obtain ⟨hsingles, hdouble⟩ := @Phrase.singles_snoc_of_ne read parameter hname.isSome hne
      rw [hsingles, hdouble]
      exact hp.addPlain hname hadded
  | star _ hnone _ =>
      obtain ⟨hsingles, hdouble⟩ := @Phrase.singles_snoc_of_none read parameter hnone
      rw [hsingles, hdouble]
      exact { hp with unstarred := nofun }
  | varargs hrule hname hstarred =>
      have hne : parameter.rule ≠ .kwargsParameter := by rw [hrule]; decide
      obtain ⟨hsingles, hdouble⟩ := @Phrase.singles_snoc_of_ne read parameter hname.isSome hne
      rw [hsingles, hdouble]
      obtain ⟨hrest, hkeywordOnly⟩ := hp.unstarred hstarred
      have hlast := List.rel_append hp.singles (.cons hname .nil)
      rw [hrest, hkeywordOnly] at hlast
      exact { hp with unstarred := nofun, singles := by simpa [hkeywordOnly] using hlast }
  | kwargs hrule hname =>
      obtain ⟨hsingles, hdouble⟩ := @Phrase.singles_snoc_of_double read parameter hname.isSome hrule
      rw [hsingles, hdouble]
      exact { hp with double := .cons hname .nil }

/-! ### The groups of a function -/

/-- The groups of a function's arguments are those of its parameters. -/
theorem group_of_args {function : Node} {id : Nat}
    (h : function.field? "args" = some (p.node id)) :
    function.group "posonlyargs" = p.positionalOnly ∧ function.group "args" = p.positional ∧
      function.group "vararg" = (p.rest.getD .absent).elements ∧
      function.group "kwonlyargs" = p.keywordOnly ∧
      function.group "kw_defaults" = p.keywordDefaults ∧
      function.group "kwarg" = (p.keywords.getD .absent).elements ∧
      function.group "defaults" = p.defaults := by
  simp only [Node.group, h]
  exact ⟨rfl, rfl, rfl, rfl, rfl, rfl, rfl⟩

/-- The parameters of a function, as they have been read. -/
theorem ReadFrom.keep {written : Phrase} {function : Node}
    (h : ReadFrom file written function) (Keeps : List Phrase → Parameters → Prop)
    (hstep : ∀ {read parameter p q}, ParameterStep file parameter p q → Keeps read p →
      Keeps (read ++ [parameter]) q)
    (hempty : Keeps [] .empty) :
    ∃ p id, Keeps written.parameterList p ∧ function.field? "args" = some (p.node id) := by
  obtain ⟨_, p, _, id, hfound, hargs⟩ := h.arguments
  exact ⟨p, id, hfound.keep Keeps hstep (h.formed.parameterList h.rule) hempty, hargs⟩

theorem elements_getD {value : Option Value} (h : ∀ v ∈ value, v.elements = [v]) :
    (value.getD .absent).elements = value.toList := by
  cases value with
  | none => rfl
  | some v => exact h v rfl

/-- Values that are named are single elements. -/
theorem elements_of_named {values : List Value} (h : List.Forall₂ (NamedBy file) list values) :
    ∀ v ∈ values, v.elements = [v] := by
  induction h with
  | nil => exact List.forall_mem_nil _
  | cons hname _ ih => exact List.forall_mem_cons.mpr ⟨hname.elements, ih⟩

/-- The groups one after the other. -/
theorem Parameters.Ordered.sequence {singles : List Phrase} {double : Option Phrase}
    {function : Node} {id : Nat} (h : p.Ordered file singles double)
    (hargs : function.field? "args" = some (p.node id)) :
    List.Forall₂ (NamedBy file) (singles ++ double.toList) function.parameterSequence := by
  obtain ⟨hpositionalOnly, hpositional, hrest, hkeywordOnly, -, hkeywords, -⟩ := group_of_args hargs
  have hrest' : (p.rest.getD .absent).elements = p.rest.toList :=
    elements_getD fun v hv => elements_of_named h.singles v (by simp [Option.mem_def.mp hv])
  have hkeywords' : (p.keywords.getD .absent).elements = p.keywords.toList :=
    elements_getD fun v hv => elements_of_named h.double v (Option.mem_toList.mpr hv)
  have hsequence : function.parameterSequence =
      p.positionalOnly ++ p.positional ++ p.rest.toList ++ p.keywordOnly ++ p.keywords.toList := by
    simp [Node.parameterSequence, hpositionalOnly, hpositional, hrest, hrest', hkeywordOnly,
      hkeywords, hkeywords']
  rw [hsequence]
  exact List.rel_append h.singles h.double

/-- Every default is where its parameter is. -/
structure DefaultsStay (file : String) (written : Phrase) (function : Node) : Prop where
  positional : List.Forall₂ (NamedBy file) (Phrase.positional written.parameterList)
    (function.group "posonlyargs" ++ function.group "args")
  defaults : DefaultsLast file (Phrase.positional written.parameterList) (function.group "defaults")
  keywordOnly : List.Forall₂ (NamedBy file) (Phrase.keywordOnly written.parameterList)
    (function.group "kwonlyargs")
  keywordDefaults : List.Forall₂ (DefaultOf file) (Phrase.keywordOnly written.parameterList)
    (function.group "kw_defaults")

/-- The parameters of the function are those that are written, and all of them
in their places if only the last one has a double star. -/
structure ParametersKept (file : String) (written : Phrase) (function : Node) : Prop where
  kept : List.Forall₂ (NamedBy file) (Phrase.singles written.parameterList ++
    (Phrase.lastDouble? written.parameterList).toList) function.parameterSequence
  inOrder : (∀ parameter ∈ (Phrase.named written.parameterList).dropLast,
      parameter.rule ≠ .kwargsParameter) →
    List.Forall₂ (NamedBy file) (Phrase.named written.parameterList) function.parameterSequence

end Reading

/-! ### All program texts -/

open Reading

/-- **Defaults stay with their parameters.**  In every function of a program
text the keyword-only parameters are those written behind the star, each with
what is written as its default or without one; and the defaults of the others
are those of the last ones. -/
theorem defaults_stay {source : Source} (hformat : source.format = .program) {counter next : Nat}
    {tree : Node} (h : source.tree.runFrom counter = (.ok tree, next)) :
    ∃ whole, source.MatchedBy whole ∧
      List.Forall₂ (DefaultsStay source.name) whole.functions tree.functions := by
  obtain ⟨whole, hmatched, hfunctions⟩ := Source.functions_found hformat h
  refine ⟨whole, hmatched, hfunctions.imp fun written function hread => ?_⟩
  obtain ⟨p, id, ⟨-, hsorted⟩, hargs⟩ := hread.keep
    (fun read p => (p.starred = true ↔ Phrase.Starred read) ∧
      p.Sorted source.name (Phrase.positional read) (Phrase.keywordOnly read))
    ParameterStep.sorted ⟨by simp [Parameters.empty, Phrase.Starred], Parameters.sorted_empty⟩
  obtain ⟨hpositionalOnly, hpositional, -, hkeywordOnly, hkeywordDefaults, -, hdefaults⟩ :=
    group_of_args hargs
  constructor
  · rw [hpositionalOnly, hpositional]
    exact hsorted.positional
  · rw [hdefaults]
    exact hsorted.defaults
  · rw [hkeywordOnly]
    exact hsorted.keywordOnly
  · rw [hkeywordDefaults]
    exact hsorted.keywordDefaults

/-- A function with parameters of all forms. -/
theorem defaults_stay_all_forms :
    let source := Source.ofText "m" "def f(a, b=1, /, c=2, *args, d, e: t = 3, **k):\n    pass\n"
      .program
    ∃ tree, (source.tree.runFrom 1).1 = .ok tree ∧
      (tree.functions.map fun function =>
        ((function.group "defaults").length, (function.group "kw_defaults").length)) = [(2, 2)] ∧
      ∃ whole, source.MatchedBy whole ∧
        List.Forall₂ (DefaultsStay source.name) whole.functions tree.functions := by
  intro source
  obtain ⟨tree, hread, hlengths⟩ :
      ∃ tree, (source.tree.runFrom 1).1 = .ok tree ∧
        (tree.functions.map fun function => ((function.group "defaults").length,
          (function.group "kw_defaults").length)) = [(2, 2)] := by
    decide +kernel
  have hrun : source.tree.runFrom 1 = (.ok tree, (source.tree.runFrom 1).2) := Prod.ext hread rfl
  exact ⟨tree, hread, hlengths, defaults_stay rfl hrun⟩

/-- **Parameters stay in their order**, up to double stars: of these the last
one is kept, at the end. -/
theorem parameters_kept {source : Source} (hformat : source.format = .program)
    {counter next : Nat} {tree : Node} (h : source.tree.runFrom counter = (.ok tree, next)) :
    ∃ whole, source.MatchedBy whole ∧
      List.Forall₂ (ParametersKept source.name) whole.functions tree.functions := by
  obtain ⟨whole, hmatched, hfunctions⟩ := Source.functions_found hformat h
  refine ⟨whole, hmatched, hfunctions.imp fun written function hread => ?_⟩
  obtain ⟨p, id, hordered, hargs⟩ := hread.keep
    (fun read p => p.Ordered source.name (Phrase.singles read) (Phrase.lastDouble? read))
    ParameterStep.ordered Parameters.ordered_empty
  have hkept := hordered.sequence hargs
  refine ⟨hkept, fun hlast => ?_⟩
  rw [← Phrase.singles_append_double hlast]
  exact hkept

/-- A function with its double star at the end. -/
theorem parameters_kept_all_forms :
    let source := Source.ofText "m" "def f(a, b=1, /, c=2, *args, d, e: t = 3, **k):\n    pass\n"
      .program
    ∃ tree, (source.tree.runFrom 1).1 = .ok tree ∧
      (tree.functions.map fun function => function.parameterSequence.length) = [7] ∧
      ∃ whole, source.MatchedBy whole ∧
        List.Forall₂ (ParametersKept source.name) whole.functions tree.functions := by
  intro source
  obtain ⟨tree, hread, hlength⟩ :
      ∃ tree, (source.tree.runFrom 1).1 = .ok tree ∧
        (tree.functions.map fun function => function.parameterSequence.length) = [7] := by
    decide +kernel
  have hrun : source.tree.runFrom 1 = (.ok tree, (source.tree.runFrom 1).2) := Prod.ext hread rfl
  exact ⟨tree, hread, hlength, parameters_kept rfl hrun⟩

/-- Of two double stars the first one is lost: it is named in the text, and
nowhere in the tree. -/
theorem first_double_lost :
    let source := Source.ofText "m" "def f(**a, **b):\n    pass\n" .program
    ∃ tree whole, (source.tree.runFrom 1).1 = .ok tree ∧ source.MatchedBy whole ∧
      (whole.functions.map fun written =>
        (Phrase.named written.parameterList).map Phrase.parameterName?) = [[some "a", some "b"]] ∧
      (tree.functions.map fun function => function.parameterSequence.map fun parameter =>
        parameter.asNode.bind fun node => node.textField? "arg") = [[some "b"]] ∧
      ¬ List.Forall₂ (fun written function => List.Forall₂ (NamedBy source.name)
        (Phrase.named written.parameterList) function.parameterSequence)
        whole.functions tree.functions := by
  intro source
  obtain ⟨tree, hread, hfound⟩ :
      ∃ tree, (source.tree.runFrom 1).1 = .ok tree ∧
        (tree.functions.map fun function => function.parameterSequence.map fun parameter =>
          parameter.asNode.bind fun node => node.textField? "arg") = [[some "b"]] := by
    decide +kernel
  obtain ⟨s, tried, hmatched, whole, hwhole, hwritten⟩ :
      ∃ s tried, Rule.module.matchText source.text.toList = (.matched s, tried) ∧
        ∃ whole ∈ s.phrases, (whole.functions.map fun written =>
          (Phrase.named written.parameterList).map Phrase.parameterName?) =
            [[some "a", some "b"]] := by
    decide +kernel
  obtain ⟨_, hphrases, -, -⟩ := Rule.phrase_of_matchText rfl hmatched
  rw [hphrases, List.mem_singleton] at hwhole
  subst hwhole
  refine ⟨tree, whole, hread, ⟨s, tried, hmatched, hphrases⟩, hwritten, hfound, fun h => ?_⟩
  obtain ⟨written, hwhole, hnamed⟩ := List.map_eq_singleton_iff.mp hwritten
  obtain ⟨function, htree, hsequence⟩ := List.map_eq_singleton_iff.mp hfound
  rw [hwhole, htree] at h
  have hlength := (List.forall₂_cons.mp h).1.length_eq
  have htwo := congrArg List.length hnamed
  have hone := congrArg List.length hsequence
  rw [List.length_map] at htwo hone
  rw [htwo, hone] at hlength
  cases hlength

end FunctionIR
