import FunctionIR.Proofs.Reading.Functions
import FunctionIR.Proofs.Reading.Separation
import Mathlib.Data.List.Perm.Subperm

/-!
# Statements side by side

What is read in statements is neat, too (`StatementFinds.neat`).  The parts of a
statement lie in the order of the text, and the decorators of a function before it.
Only the parameters of a function are not gone through in the order of their fields.
They are gathered in groups, each new one behind all that are there, and a default
lies in the span of its parameter alone (`ArgumentsNeat`).
-/

namespace FunctionIR

open Grammar (Phrase Place Rule)

namespace Grammar.Phrase

/-- The phrase is inside the one that the text is matched by, it is in its place, its
edges are sharp, and it is formed. -/
structure Sound (script : Script) (phrase : Phrase) : Prop where
  inside : phrase ∈ script.whole.inner
  inPlace : phrase.InPlace
  sharp : phrase.Sharp script.text
  formed : phrase.Formed

namespace Sound

variable {script : Script} {phrase : Phrase}

/-- A sound phrase inside a line is settled. -/
theorem settled (h : phrase.Sound script) (hrule : phrase.rule.isInline = true) :
    phrase.Settled script :=
  ⟨h.inside, h.inPlace, h.sharp, h.formed.inline hrule⟩

/-- The parts of a phrase with line breaks are sound, too. -/
theorem below {rule : Rule} {start stop : Place} {text : List Char} {parts : List Phrase}
    (h : (Phrase.mk rule start stop text parts).Sound script) (hrule : rule.isInline = false) :
    ∀ part ∈ parts, part.Sound script := fun part hpart =>
  ⟨mem_inner_of_part h.inside hpart, (h.inPlace.parts part hpart).1, h.sharp.parts part hpart,
    h.formed.below hrule part hpart⟩

end Sound

end Grammar.Phrase

namespace Reading

open Value

variable {file : String} {script : Script} {lo mid hi : Place}

/-! ### One parameter -/

/-- What has been read of a parameter is neat and apart. -/
structure ParameterParts.Neat (script : Script) (parts : ParameterParts) : Prop where
  annotated : (parts.annotated.getD .absent).Neat script
  default : (parts.default.getD .absent).Neat script
  apart : (parts.annotated.getD .absent).Apart (parts.default.getD .absent)

/-- The parts of a parameter are neat and apart. -/
theorem FindsParts.neat {c d : Nat} {phrases : List Phrase} {sofar parts : ParameterParts}
    (h : FindsParts script.file c phrases sofar parts d) (hle : lo ≤ mid)
    (halong : Along mid hi phrases) (hsettled : ∀ phrase ∈ phrases, phrase.Settled script)
    (hsofar : sofar.LieIn script.file lo mid)
    (hneat : sofar.Neat script) : parts.Neat script := by
  induction h generalizing mid with
  | done => exact hneat
  | name _ ih =>
      obtain ⟨hstart, hin, hbehind⟩ := halong
      obtain ⟨-, hothers⟩ := List.forall_mem_cons.mp hsettled
      exact ih hle (hbehind.from (le_trans hstart hin.start_le_stop)) hothers hsofar { hneat with }
  | hint hvalue _ ih =>
      obtain ⟨hstart, hin, hbehind⟩ := halong
      obtain ⟨hfirst, hothers⟩ := List.forall_mem_cons.mp hsettled
      have hfound := finds_expression _ hvalue
      have hlies := lies_part hin (by simp [Phrase.parts]) hfound.lies
      have hstop := le_trans hstart hin.start_le_stop
      refine ih (le_trans hle hstop) hbehind hothers ⟨?_, ?_⟩ { hneat with
        annotated := hfound.neat (hfirst.part (by simp [Phrase.parts]))
        apart := ((lies_getD hsofar.2).apart hstart hlies).symm }
      · rintro _ ⟨⟩
        exact hlies.mono (le_trans hle hstart) (le_refl _)
      · exact fun v hv => (hsofar.2 v hv).mono (le_refl _) hstop
  | default hvalue _ ih =>
      obtain ⟨hstart, hin, hbehind⟩ := halong
      obtain ⟨hfirst, hothers⟩ := List.forall_mem_cons.mp hsettled
      have hfound := finds_expression _ hvalue
      have hlies := lies_part hin (by simp [Phrase.parts]) hfound.lies
      have hstop := le_trans hstart hin.start_le_stop
      refine ih (le_trans hle hstop) hbehind hothers ⟨?_, ?_⟩ { hneat with
        default := hfound.neat (hfirst.part (by simp [Phrase.parts]))
        apart := (lies_getD hsofar.1).apart hstart hlies }
      · exact fun v hv => (hsofar.1 v hv).mono (le_refl _) hstop
      · rintro _ ⟨⟩
        exact hlies.mono (le_trans hle hstart) (le_refl _)

/-- The span of a parameter goes on over its default. -/
theorem FindsParameter.neat {c d : Nat} {phrase : Phrase} {arg : Value} {default : Option Value}
    (h : FindsParameter script.file c phrase.start phrase.stop phrase.parts arg default d)
    (hsettled : phrase.Settled script) (hkind : phrase.rule.kind? = some .arg) :
    arg.Neat script ∧ (default.getD .absent).Neat script ∧ arg.Governs (default.getD .absent) := by
  obtain ⟨rule, start, stop, text, phrases⟩ := phrase
  have hdefault := lies_getD (h.lies hsettled.inPlace).2
  cases h with
  | @mk _ _ _ _ parts hparts =>
      have hneat := hparts.neat (le_refl _) (along_parts hsettled.inPlace)
        (settled_parts hsettled) ⟨nofun, nofun⟩ ⟨neat_absent, neat_absent, absent_apart⟩
      refine ⟨?_, hneat.default, _, _, _, rfl, rfl, rfl, fun t ht => ?_, ?_⟩
      · refine neat_of_apart
          (edged_settled hsettled (.parameter (.mk hparts)) hkind rfl) (by simp) ?_
        simpa using hneat.annotated
      · obtain ⟨node, hnode, hspan⟩ := mem_spans.mp ht
        exact hdefault.within node hnode t hspan
      · simpa using hneat.apart

/-! ### All parameters -/

/-- Parameters and defaults are neat, and those of each sort apart from each other. -/
structure ArgumentsNeat (script : Script) (args defaults : List Value) : Prop where
  argsNeat : ∀ arg ∈ args, arg.Neat script
  defaultsNeat : ∀ default ∈ defaults, default.Neat script
  argsApart : args.Pairwise Apart
  defaultsApart : defaults.Pairwise Apart

/-- Some of several values that are apart are apart in any order. -/
theorem pairwise_of_subperm {items more : List Value} (h : items.Subperm more)
    (hmore : more.Pairwise Apart) : items.Pairwise Apart := by
  obtain ⟨others, hperm, hsublist⟩ := h
  exact (hmore.sublist hsublist).perm hperm Apart.symm

/-- An item that takes the place of some others. -/
theorem subperm_replaced (before old after : List Value) (item : Value) :
    (before ++ item :: after).Subperm (item :: (before ++ (old ++ after))) := by
  have hsublist := (List.sublist_append_right old after).append_left before
  exact List.perm_middle.subperm_right.mpr ((List.subperm_cons item).mpr hsublist.subperm)

namespace ArgumentsNeat

variable {args args' defaults defaults' : List Value} {arg default : Value}

/-- No parameters. -/
theorem nil : ArgumentsNeat script [] [] :=
  ⟨List.forall_mem_nil _, List.forall_mem_nil _, .nil, .nil⟩

/-- Some of the parameters and some of the defaults. -/
theorem of_subperm (h : ArgumentsNeat script args defaults) (hargs : args'.Subperm args)
    (hdefaults : defaults'.Subperm defaults) : ArgumentsNeat script args' defaults' where
  argsNeat arg harg := h.argsNeat arg (hargs.subset harg)
  defaultsNeat default hdefault := h.defaultsNeat default (hdefaults.subset hdefault)
  argsApart := pairwise_of_subperm hargs h.argsApart
  defaultsApart := pairwise_of_subperm hdefaults h.defaultsApart

/-- A parameter and its default that lie behind all others. -/
theorem cons (h : ArgumentsNeat script args defaults) (hargs : ∀ arg ∈ args, Lies file lo mid arg)
    (hdefaults : ∀ default ∈ defaults, Lies file lo mid default) (harg : Lies file mid hi arg)
    (hdefault : Lies file mid hi default) (hargNeat : arg.Neat script)
    (hdefaultNeat : default.Neat script) :
    ArgumentsNeat script (arg :: args) (default :: defaults) where
  argsNeat := List.forall_mem_cons.mpr ⟨hargNeat, h.argsNeat⟩
  defaultsNeat := List.forall_mem_cons.mpr ⟨hdefaultNeat, h.defaultsNeat⟩
  argsApart := .cons (fun old hold => ((hargs old hold).apart (le_refl _) harg).symm) h.argsApart
  defaultsApart :=
    .cons (fun old hold => ((hdefaults old hold).apart (le_refl _) hdefault).symm) h.defaultsApart

end ArgumentsNeat

/-- What lies one after the other lies between the places. -/
theorem ItemsLie.of_mem {items : List Value} (h : ItemsLie file lo hi items) :
    ∀ item ∈ items, Lies file lo hi item := by
  induction items generalizing lo with
  | nil => exact List.forall_mem_nil _
  | cons item items ih =>
      refine List.forall_mem_cons.mpr ⟨h.head, fun other hother => ?_⟩
      cases h with
      | cons hstart _ _ hitems => exact (ih hitems other hother).mono hstart (le_refl _)

namespace Parameters

variable {p q : Parameters} {arg : Value} {default : Option Value}

/-- The parameters in the order of the fields. -/
def groups (p : Parameters) : List (List Value) :=
  [p.positionalOnly, p.positional, p.rest.toList, p.keywordOnly, p.keywords.toList]

/-- Their defaults. -/
def allDefaults (p : Parameters) : List Value := p.keywordDefaults ++ p.defaults

/-- Each default is that of a parameter: those of the keyword-only parameters stand
beside them, and the last positional parameters have the others. -/
structure Owned (p : Parameters) : Prop where
  keywordOnly : List.Forall₂ Governs p.keywordOnly p.keywordDefaults
  positional : ∃ before own, p.positionalOnly ++ p.positional = before ++ own ∧
    List.Forall₂ Governs own p.defaults

/-- What has been read of the parameters is neat. -/
structure Neat (script : Script) (p : Parameters) : Prop where
  arguments : ArgumentsNeat script p.groups.flatten p.allDefaults
  owned : p.Owned

theorem neat_empty : empty.Neat script := ⟨.nil, .nil, [], [], rfl, .nil⟩

/-- Every parameter lies where all of them do. -/
theorem LieIn.groups (h : p.LieIn file lo hi) : ∀ arg ∈ p.groups.flatten, Lies file lo hi arg := by
  simp only [Parameters.groups, List.forall_mem_flatten, List.forall_mem_cons, Option.mem_toList]
  exact ⟨h.positionalOnly.of_mem, h.positional.of_mem, h.rest, h.keywordOnly.of_mem, h.keywords,
    List.forall_mem_nil _⟩

/-- Every default lies where all of them do. -/
theorem LieIn.allDefaults (h : p.LieIn file lo hi) :
    ∀ default ∈ p.allDefaults, Lies file lo hi default :=
  List.forall_mem_append.mpr ⟨h.keywordDefaults.of_mem, h.defaults.of_mem⟩

/-- The slash moves parameters to a group that is empty. -/
theorem Neat.addSlash (h : p.Neat script) (hadded : p.addSlash = some q) : q.Neat script := by
  obtain ⟨arguments, keywordOnly, positional⟩ := h
  obtain ⟨-, hnone, rfl⟩ := addSlash_eq_some hadded
  have hgroups : p.groups.flatten =
      (groups { p with positionalOnly := p.positional, positional := [] }).flatten := by
    simp [groups, hnone]
  rw [hgroups] at arguments
  rw [hnone, List.nil_append, ← List.append_nil p.positional] at positional
  exact ⟨arguments, keywordOnly, positional⟩

/-- A parameter is added together with its default. -/
theorem Owned.addPlain (h : p.Owned) (hgoverns : arg.Governs (default.getD .absent))
    (hadded : p.addPlain arg default = some q) : q.Owned := by
  obtain ⟨hkeywordOnly, before, own, hsplit, hown⟩ := h
  obtain ⟨-, rfl⟩ | ⟨-, value, rfl, rfl⟩ | ⟨-, rfl, hnone, rfl⟩ := addPlain_eq_some hadded
  · exact ⟨List.rel_append hkeywordOnly (.cons hgoverns .nil), before, own, hsplit, hown⟩
  · refine ⟨hkeywordOnly, before, own ++ [arg], ?_, List.rel_append hown (.cons hgoverns .nil)⟩
    rw [← List.append_assoc, hsplit, List.append_assoc]
  · refine ⟨hkeywordOnly, _, [], (List.append_nil _).symm, ?_⟩
    rw [hnone]
    exact .nil

/-- One parameter more, which may take the place of another, and its default. -/
def Gains (p : Parameters) (arg default : Value) (q : Parameters) : Prop :=
  q.groups.flatten.Subperm (arg :: p.groups.flatten) ∧
    q.allDefaults.Subperm (default :: p.allDefaults)

/-- A plain parameter gains itself and its default. -/
theorem gains_of_addPlain (hadded : p.addPlain arg default = some q) :
    p.Gains arg (default.getD .absent) q := by
  obtain ⟨-, rfl⟩ | ⟨-, value, rfl, rfl⟩ | ⟨-, rfl, -, rfl⟩ := addPlain_eq_some hadded
  · constructor
    · simpa [groups] using subperm_replaced
        (p.positionalOnly ++ p.positional ++ p.rest.toList ++ p.keywordOnly) []
        p.keywords.toList arg
    · simpa [allDefaults] using subperm_replaced p.keywordDefaults [] p.defaults _
  · constructor
    · simpa [groups] using subperm_replaced (p.positionalOnly ++ p.positional) []
        (p.rest.toList ++ (p.keywordOnly ++ p.keywords.toList)) arg
    · simpa [allDefaults] using subperm_replaced (p.keywordDefaults ++ p.defaults) [] [] value
  · constructor
    · simpa [groups] using subperm_replaced (p.positionalOnly ++ p.positional) []
        (p.rest.toList ++ (p.keywordOnly ++ p.keywords.toList)) arg
    · exact List.Subperm.cons_self

/-- A parameter for further values gains itself. -/
theorem gains_varargs (default : Value) :
    p.Gains arg default { p with starred := true, rest := some arg } := by
  refine ⟨?_, List.Subperm.cons_self⟩
  simpa [groups] using subperm_replaced (p.positionalOnly ++ p.positional) p.rest.toList
    (p.keywordOnly ++ p.keywords.toList) arg

/-- A parameter for further keywords gains itself. -/
theorem gains_kwargs (default : Value) : p.Gains arg default { p with keywords := some arg } := by
  refine ⟨?_, List.Subperm.cons_self⟩
  simpa [groups] using subperm_replaced
    (p.positionalOnly ++ p.positional ++ p.rest.toList ++ p.keywordOnly) p.keywords.toList [] arg

/-- What is gained behind all that is there is apart from it. -/
theorem Neat.gain {c d : Nat} {phrase : Phrase} (h : p.Neat script)
    (hlies : p.LieIn script.file lo mid) (hle : mid ≤ phrase.start)
    (hsettled : phrase.Settled script) (hkind : phrase.rule.kind? = some .arg)
    (hparameter : FindsParameter script.file c phrase.start phrase.stop phrase.parts arg default d)
    (hgains : p.Gains arg (default.getD .absent) q)
    (howned : arg.Governs (default.getD .absent) → q.Owned) : q.Neat script := by
  obtain ⟨hargNeat, hdefaultNeat, hgoverns⟩ := hparameter.neat hsettled hkind
  obtain ⟨rule, start, stop, text, parts⟩ := phrase
  obtain ⟨harg, hdefault⟩ := hparameter.lies hsettled.inPlace
  have harguments := h.arguments.cons hlies.groups hlies.allDefaults (harg.mono hle (le_refl _))
    ((lies_getD hdefault).mono hle (le_refl _)) hargNeat hdefaultNeat
  exact ⟨harguments.of_subperm hgains.1 hgains.2, howned hgoverns⟩

end Parameters

/-- What is found of the parameters is neat, if what was found before is. -/
theorem FindsParameters.neat {c d : Nat} {phrases : List Phrase} {p q : Parameters}
    (h : FindsParameters script.file c phrases p q d) (hle : lo ≤ mid)
    (halong : Along mid hi phrases) (hsettled : ∀ phrase ∈ phrases, phrase.Settled script)
    (hlies : p.LieIn script.file lo mid)
    (hneat : p.Neat script) : q.Neat script := by
  -- the induction carries the place up to which the parameters so far reach
  induction h generalizing mid with
  | done => exact hneat
  | slash hadded _ ih =>
      obtain ⟨hstart, hin, hbehind⟩ := halong
      obtain ⟨-, hothers⟩ := List.forall_mem_cons.mp hsettled
      have hstop := le_trans hstart hin.start_le_stop
      exact ih (le_trans hle hstop) hbehind hothers ((hlies.addSlash hadded).mono hstop)
        (hneat.addSlash hadded)
  | plain hparameter hadded _ ih =>
      obtain ⟨hstart, hin, hbehind⟩ := halong
      obtain ⟨hfirst, hothers⟩ := List.forall_mem_cons.mp hsettled
      have hnext := FindsParameters.lie (.plain hparameter hadded .done) hle
        ⟨hstart, hin, le_refl _⟩ hlies
      exact ih (le_trans hle (le_trans hstart hin.start_le_stop)) hbehind hothers hnext
        (hneat.gain hlies hstart hfirst rfl hparameter (Parameters.gains_of_addPlain hadded)
          fun hgoverns => hneat.owned.addPlain hgoverns hadded)
  | star _ _ ih =>
      obtain ⟨hstart, hin, hbehind⟩ := halong
      obtain ⟨-, hothers⟩ := List.forall_mem_cons.mp hsettled
      have hstop := le_trans hstart hin.start_le_stop
      exact ih (le_trans hle hstop) hbehind hothers { hlies.mono hstop with }
        ⟨hneat.arguments, { hneat.owned with }⟩
  | varargs hstarred hparts hparameter _ ih =>
      obtain ⟨hstart, hin, hbehind⟩ := halong
      obtain ⟨hfirst, hothers⟩ := List.forall_mem_cons.mp hsettled
      have hnext := FindsParameters.lie (.varargs hstarred hparts hparameter .done) hle
        ⟨hstart, hin, le_refl _⟩ hlies
      exact ih (le_trans hle (le_trans hstart hin.start_le_stop)) hbehind hothers hnext
        (hneat.gain hlies hstart hfirst rfl hparameter (Parameters.gains_varargs _)
          fun _ => { hneat.owned with })
  | kwargs hparameter _ ih =>
      obtain ⟨hstart, hin, hbehind⟩ := halong
      obtain ⟨hfirst, hothers⟩ := List.forall_mem_cons.mp hsettled
      have hnext := FindsParameters.lie (.kwargs hparameter .done) hle
        ⟨hstart, hin, le_refl _⟩ hlies
      exact ih (le_trans hle (le_trans hstart hin.start_le_stop)) hbehind hothers hnext
        (hneat.gain hlies hstart hfirst rfl hparameter (Parameters.gains_kwargs _)
          fun _ => { hneat.owned with })

/-- A value that may be missing is apart if it is when it is there. -/
theorem getD_apart {o : Option Value} {w : Value} :
    (o.getD .absent).Apart w ↔ ∀ v ∈ o.toList, v.Apart w := by
  cases o <;> simp

theorem apart_getD {o : Option Value} {w : Value} :
    w.Apart (o.getD .absent) ↔ ∀ v ∈ o.toList, w.Apart v := by
  cases o <;> simp

namespace Parameters

variable {p : Parameters} {v : Value}

namespace Owned

/-- What is apart from the keyword-only parameters is apart from their defaults. -/
theorem apart_keywordDefaults (h : p.Owned) (hapart : v.Apart (.list p.keywordOnly)) :
    v.Apart (.list p.keywordDefaults) :=
  apart_list.mpr (apart_of_governed h.keywordOnly (apart_list.mp hapart))

/-- What is apart from the positional parameters is apart from their defaults. -/
theorem apart_defaults (h : p.Owned) (hpositionalOnly : v.Apart (.list p.positionalOnly))
    (hpositional : v.Apart (.list p.positional)) : v.Apart (.list p.defaults) := by
  obtain ⟨-, before, own, hsplit, hown⟩ := h
  have hall := List.forall_mem_append.mpr
    ⟨apart_list.mp hpositionalOnly, apart_list.mp hpositional⟩
  rw [hsplit] at hall
  exact apart_list.mpr (apart_of_governed hown (List.forall_mem_append.mp hall).2)

/-- A keyword-only parameter has the default beside it. -/
theorem governs_keywordOnly (h : p.Owned) (hapart : p.keywordOnly.Pairwise Apart) (head : Head) :
    Node.Governs ⟨head, p.fields⟩ ("kwonlyargs", .list p.keywordOnly)
      ("kw_defaults", .list p.keywordDefaults) := by
  refine ⟨_, _, rfl, rfl, fun i j v w hv hw => ?_⟩
  refine (apart_or_governs h.keywordOnly (List.nil_append _).symm hapart hv hw).imp_right ?_
  rintro ⟨rfl, hgoverns⟩
  exact ⟨Nat.zero_add j, hgoverns⟩

/-- A positional parameter has the default that is as far from the last one. -/
theorem apart_or_governs_positional (h : p.Owned)
    (hapart : (p.positionalOnly ++ p.positional).Pairwise Apart) {i j : Nat} {w : Value}
    (hv : (p.positionalOnly ++ p.positional)[i]? = some v) (hw : p.defaults[j]? = some w) :
    v.Apart w ∨ (i + p.defaults.length = j + (p.positionalOnly.length + p.positional.length) ∧
      v.Governs w) := by
  obtain ⟨-, before, own, hsplit, hown⟩ := h
  have hlength := congrArg List.length hsplit
  rw [List.length_append, List.length_append, hown.length_eq] at hlength
  refine (apart_or_governs hown hsplit hapart hv hw).imp_right (And.imp_left ?_)
  omega

/-- The positional-only parameters govern those of the last defaults that are theirs. -/
theorem governs_positionalOnly (h : p.Owned)
    (hapart : (p.positionalOnly ++ p.positional).Pairwise Apart) (head : Head) :
    Node.Governs ⟨head, p.fields⟩ ("posonlyargs", .list p.positionalOnly)
      ("defaults", .list p.defaults) := by
  refine ⟨_, _, rfl, rfl, fun i j v w hv hw => ?_⟩
  have hlt := (List.getElem?_eq_some_iff.mp hv).1
  rw [← List.getElem?_append_left hlt] at hv
  exact h.apart_or_governs_positional hapart hv hw

/-- The other positional parameters govern theirs. -/
theorem governs_positional (h : p.Owned)
    (hapart : (p.positionalOnly ++ p.positional).Pairwise Apart) (head : Head) :
    Node.Governs ⟨head, p.fields⟩ ("args", .list p.positional) ("defaults", .list p.defaults) := by
  refine ⟨_, _, rfl, rfl, fun i j v w hv hw => ?_⟩
  have hlater : (p.positionalOnly ++ p.positional)[p.positionalOnly.length + i]? = some v := by
    rw [List.getElem?_append_right (Nat.le_add_right _ _), Nat.add_sub_cancel_left, hv]
  refine (h.apart_or_governs_positional hapart hlater hw).imp_right (And.imp_left fun hfar => ?_)
  show i + p.defaults.length = j + p.positional.length
  omega

end Owned

/-- The fields that hold parameters are apart. -/
theorem Neat.groups_apart (h : p.Neat script) :
    [Value.list p.positionalOnly, .list p.positional, p.rest.getD .absent, .list p.keywordOnly,
      p.keywords.getD .absent].Pairwise Apart := by
  obtain ⟨-, hgroups⟩ := List.pairwise_flatten.mp h.arguments.argsApart
  simp only [groups, List.pairwise_cons, List.forall_mem_cons] at hgroups
  simp only [List.pairwise_cons, List.forall_mem_cons, list_apart, apart_list, getD_apart,
    apart_getD]
  simp +contextual [hgroups]

/-- The fields of the parameters are apart, but for each default in its own parameter. -/
theorem Neat.separates (h : p.Neat script) (id : Nat) :
    p.fields.Pairwise (Node.Separates ⟨⟨id, .arguments, none, none⟩, p.fields⟩) := by
  have hgroups := h.groups_apart
  obtain ⟨harguments, howned⟩ := h
  obtain ⟨-, -, hdefaults⟩ := List.pairwise_append.mp harguments.defaultsApart
  have hargs := harguments.argsApart
  have hkeywordOnly : p.keywordOnly.Pairwise Apart := by
    refine hargs.sublist (List.sublist_flatten_of_mem ?_)
    simp [groups]
  have hpositional : (p.positionalOnly ++ p.positional).Pairwise Apart := by
    refine hargs.sublist ?_
    simp only [groups, List.flatten_cons, ← List.append_assoc]
    simp
  simp only [List.pairwise_cons, List.forall_mem_cons] at hgroups
  obtain ⟨⟨hfirstArgs, hfirstRest, hfirstOnly, hfirstKeywords, -⟩,
    ⟨hargsRest, hargsOnly, hargsKeywords, -⟩, ⟨hrestOnly, hrestKeywords, -⟩,
    ⟨honlyKeywords, -⟩, -⟩ := hgroups
  have hbothDefaults : (Value.list p.keywordDefaults).Apart (.list p.defaults) :=
    list_apart.mpr fun default hdefault => apart_list.mpr (hdefaults default hdefault)
  unfold fields
  simp only [List.pairwise_cons, List.forall_mem_cons]
  refine ⟨⟨.inl hfirstArgs, .inl hfirstRest, .inl hfirstOnly,
      .inl (howned.apart_keywordDefaults hfirstOnly), .inl hfirstKeywords,
      .inr ⟨rfl, .inl (howned.governs_positionalOnly hpositional _)⟩, List.forall_mem_nil _⟩,
    ⟨.inl hargsRest, .inl hargsOnly, .inl (howned.apart_keywordDefaults hargsOnly),
      .inl hargsKeywords, .inr ⟨rfl, .inl (howned.governs_positional hpositional _)⟩,
      List.forall_mem_nil _⟩,
    ⟨.inl hrestOnly, .inl (howned.apart_keywordDefaults hrestOnly), .inl hrestKeywords,
      .inl (howned.apart_defaults hfirstRest.symm hargsRest.symm), List.forall_mem_nil _⟩,
    ⟨.inr ⟨rfl, .inl (howned.governs_keywordOnly hkeywordOnly _)⟩, .inl honlyKeywords,
      .inl (howned.apart_defaults hfirstOnly.symm hargsOnly.symm), List.forall_mem_nil _⟩,
    ⟨.inl (howned.apart_keywordDefaults honlyKeywords.symm).symm, .inl hbothDefaults,
      List.forall_mem_nil _⟩,
    ⟨.inl (howned.apart_defaults hfirstKeywords.symm hargsKeywords.symm), List.forall_mem_nil _⟩,
    List.forall_mem_nil _, .nil⟩

/-- The node of neat parameters is neat. -/
theorem Neat.node (h : p.Neat script) (id : Nat) : (p.node id).Neat script := by
  have hargsNeat := h.arguments.argsNeat
  simp only [groups, List.forall_mem_flatten, List.forall_mem_cons, Option.mem_toList] at hargsNeat
  obtain ⟨hpositionalOnly, hpositional, hrest, hkeywordOnly, hkeywords, -⟩ := hargsNeat
  obtain ⟨hkeywordDefaults, hpositionalDefaults⟩ :=
    List.forall_mem_append.mp h.arguments.defaultsNeat
  refine neat_node.mpr ⟨edged_bare, h.separates id, ?_⟩
  simp only [fields, List.forall_mem_cons, neat_list]
  exact ⟨hpositionalOnly, hpositional, neat_getD hrest, hkeywordOnly, hkeywordDefaults,
    neat_getD hkeywords, hpositionalDefaults, List.forall_mem_nil _⟩

end Parameters

/-! ### Functions -/

/-- The parts of a function that have been read are neat and apart. -/
structure FunctionParts.Neat (script : Script) (parts : FunctionParts) : Prop where
  arguments : (parts.arguments.getD .absent).Neat script
  returns : (parts.returns.getD .absent).Neat script
  body : ∀ statement ∈ parts.body, statement.Neat script
  argumentsReturns : (parts.arguments.getD .absent).Apart (parts.returns.getD .absent)
  argumentsBody : (parts.arguments.getD .absent).Apart (.list parts.body)
  bodyReturns : (Value.list parts.body).Apart (parts.returns.getD .absent)

theorem FunctionParts.LieIn.mono {parts : FunctionParts} {hi' : Place}
    (h : parts.LieIn file lo hi) (hhi : hi ≤ hi') : parts.LieIn file lo hi' where
  arguments v hv := (h.arguments v hv).mono (le_refl _) hhi
  returns v hv := (h.returns v hv).mono (le_refl _) hhi
  body := h.body.mono (le_refl _) hhi

theorem FunctionParts.neat_nothing : (FunctionParts.mk "" none none []).Neat script :=
  ⟨neat_absent, neat_absent, List.forall_mem_nil _, absent_apart, absent_apart, apart_absent⟩

/-- Where there is no list of parameters, the node for them has no spans. -/
theorem FindsArguments.neat {c d : Nat} {parts : FunctionParts} {arguments : Value}
    (h : FindsArguments c parts.arguments arguments d) (hparts : parts.Neat script) :
    arguments.Neat script ∧ arguments.Apart (parts.returns.getD .absent) ∧
      arguments.Apart (.list parts.body) := by
  generalize hgiven : parts.arguments = given at h
  cases h with
  | given =>
      have hargs := hparts.arguments
      have hreturns := hparts.argumentsReturns
      have hbody := hparts.argumentsBody
      rw [hgiven] at hargs hreturns hbody
      exact ⟨hargs, hreturns, hbody⟩
  | none =>
      exact ⟨Parameters.neat_empty.node _, apart_of_no_spans rfl, apart_of_no_spans rfl⟩

/-! ### Statements -/

/-- What is found in sound phrases is neat.  Decorators that were found lie before them, and so do
parts of a function. -/
def StatementFinding.IsNeat (script : Script) : StatementFinding → Prop
  | .statements phrase values => phrase.Sound script → ∀ value ∈ values, value.Neat script
  | .all phrases values =>
    (∀ phrase ∈ phrases, phrase.Sound script) → ∀ value ∈ values, value.Neat script
  | .decorated phrases decorators values =>
    ∀ lo mid hi, lo ≤ mid → Along mid hi phrases → (∀ phrase ∈ phrases, phrase.Sound script) →
      ItemsLie script.file lo mid decorators → (∀ decorator ∈ decorators, decorator.Neat script) →
      ∀ value ∈ values, value.Neat script
  | .parts phrases sofar found =>
    ∀ lo mid hi, lo ≤ mid → Along mid hi phrases → (∀ phrase ∈ phrases, phrase.Sound script) →
      sofar.LieIn script.file lo mid → sofar.Neat script → found.Neat script

/-- A function is neat if its parts are, and its decorators stand before it. -/
theorem function_neat {c c' d : Nat} {start stop : Place} {text : List Char}
    {phrases : List Phrase} {decorators : List Value} {parts : FunctionParts} {function : Value}
    (hfound : StatementFinds script.file c (.parts phrases ⟨"", none, none, []⟩ parts) c')
    (ih : (StatementFinding.parts phrases ⟨"", none, none, []⟩ parts).IsNeat script)
    (hfunction : FindsFunction script.file c' start stop decorators parts function d)
    (hsound : (Phrase.mk .functionDef start stop text phrases).Sound script)
    (hdecorators : ItemsLie script.file lo start decorators)
    (hneat : ∀ decorator ∈ decorators, decorator.Neat script) : function.Neat script := by
  have hlies := hfound.lies _ _ hsound.inPlace.parts FunctionParts.lieIn_nothing
  have hparts := ih _ _ _ (le_refl _) (along_parts hsound.inPlace) (hsound.below rfl)
    FunctionParts.lieIn_nothing FunctionParts.neat_nothing
  cases hfunction with
  | mk harguments =>
      obtain ⟨hargs, hargsReturns, hargsBody⟩ := harguments.neat hparts
      have hbefore : Lies script.file lo start (.list decorators) := .list hdecorators
      have hargsDecorators :=
        (hbefore.apart (le_refl _) (harguments.lies hlies.arguments)).symm
      have hbodyDecorators := (hbefore.apart (le_refl _) (.list hlies.body)).symm
      have hdecoratorsReturns := hbefore.apart (le_refl _) (lies_getD hlies.returns)
      refine neat_of_apart (edged_sharp hsound.inside hsound.sharp
        (.function hfound (.mk harguments)) rfl rfl rfl) ?_ ?_
      · simp [hargsReturns, hargsBody, hparts.bodyReturns, hargsDecorators, hbodyDecorators,
          hdecoratorsReturns]
      · simpa using ⟨hargs, hparts.body, hneat, hparts.returns⟩

/-- What has a condition and a body begins and ends with a token. -/
theorem edges_of_condition {rule : Rule} {kind : Kind} (h : conditionKind rule = some kind) :
    rule.isInline = false ∧ rule.kind? = some kind ∧ rule.opens = true ∧
      rule.ends (!kind.isTight) = true := by
  unfold conditionKind at h
  split at h <;> cases h <;> exact ⟨rfl, rfl, rfl, rfl⟩

/-- **What is found in sound phrases is neat.** -/
theorem StatementFinds.neat {c d : Nat} {finding : StatementFinding}
    (h : StatementFinds script.file c finding d) : finding.IsNeat script := by
  -- the parts are neat by induction; that they are apart from each other follows from the
  -- order of their phrases, which decorators and the parts of a function carry along
  induction h with
  | passed hrule _ ih =>
      intro hsound
      obtain ⟨hinline, -⟩ := compound_of_wrapsStatements hrule
      exact ih (hsound.below hinline _ (List.mem_singleton_self _))
  | simple hstatements =>
      intro hsound
      exact hstatements.neat (settled_parts (hsound.settled rfl))
  | block _ ih =>
      intro hsound
      exact ih (hsound.below rfl)
  | decorated _ ih =>
      intro hsound
      exact ih _ _ _ (le_refl _) (along_parts hsound.inPlace) (hsound.below rfl) .nil
        (List.forall_mem_nil _)
  | function hparts hfunction ih =>
      intro hsound
      exact List.forall_mem_singleton.mpr (function_neat hparts ih hfunction hsound
        (.nil : ItemsLie script.file .origin _ _) (List.forall_mem_nil _))
  | conditional hcondition horelse htest hbody ihorelse ihbody =>
      intro hsound
      obtain ⟨hinline, hkind, hopens, hends⟩ := edges_of_condition hcondition
      obtain ⟨_, _, _, hparts, hrule, -⟩ := hsound.formed.conditional (rule_of_condition hcondition)
      cases hparts
      obtain ⟨hfirst, hothers⟩ := List.forall_mem_cons.mp (hsound.below hinline)
      obtain ⟨hsecond, hothers⟩ := List.forall_mem_cons.mp hothers
      obtain ⟨-, hin, hbetween, hinSecond, hbehind⟩ := along_parts hsound.inPlace
      have hstop := le_trans hbetween hinSecond.start_le_stop
      have hlie := ItemsLie.cons hin.start_le_stop (le_trans hstop hbehind.le) (htest.lies hin)
        (.cons hstop hbehind.le ((Lies.list (hbody.lies hinSecond)).mono hbetween (le_refl _))
          (.single hbehind.le (.list (horelse.lies _ _ hbehind))))
      have htestNeat := htest.neat (hfirst.settled (by rw [hrule]; rfl))
      refine List.forall_mem_singleton.mpr
        (neat_of_apart (edged_sharp hsound.inside hsound.sharp
          (.statement (.conditional hcondition horelse htest hbody)) hkind hopens hends) ?_ ?_)
      · simpa using hlie.pairwise
      · simpa using ⟨htestNeat, ihbody hsecond, ihorelse hothers⟩
  | loop horelse htarget hiter hbody ihorelse ihbody =>
      intro hsound
      obtain ⟨_, _, _, _, hparts, htargetRule, hiterRule, -⟩ := hsound.formed.forStatement rfl
      cases hparts
      obtain ⟨hfirst, hothers⟩ := List.forall_mem_cons.mp (hsound.below rfl)
      obtain ⟨hsecond, hothers⟩ := List.forall_mem_cons.mp hothers
      obtain ⟨hthird, hothers⟩ := List.forall_mem_cons.mp hothers
      obtain ⟨-, hin, hbetween, hinSecond, hbefore, hinThird, hbehind⟩ :=
        along_parts hsound.inPlace
      have hstop := le_trans hbefore hinThird.start_le_stop
      have hstop' := le_trans hbetween hinSecond.start_le_stop
      have hlie := ItemsLie.cons hin.start_le_stop (le_trans hstop' (le_trans hstop hbehind.le))
        (htarget.lies hin)
        (.cons hstop' (le_trans hstop hbehind.le) ((hiter.lies hinSecond).mono hbetween (le_refl _))
          (.cons hstop hbehind.le ((Lies.list (hbody.lies hinThird)).mono hbefore (le_refl _))
            (.single hbehind.le (.list (horelse.lies _ _ hbehind)))))
      have htargetNeat := htarget.neat (hfirst.settled (by rw [htargetRule]; rfl))
      have hiterNeat := hiter.neat (hsecond.settled (by rw [hiterRule]; rfl))
      refine List.forall_mem_singleton.mpr
        (neat_of_apart (edged_sharp hsound.inside hsound.sharp
          (.statement (.loop horelse htarget hiter hbody)) rfl rfl rfl) ?_ ?_)
      · simpa using hlie.pairwise
      · simpa using ⟨htargetNeat, hiterNeat, ihbody hthird, ihorelse hothers⟩
  | nothing => exact fun _ => List.forall_mem_nil _
  | next _ _ ihfirst ihrest =>
      intro hsound
      obtain ⟨hfirst, hothers⟩ := List.forall_mem_cons.mp hsound
      exact List.forall_mem_append.mpr ⟨ihfirst hfirst, ihrest hothers⟩
  | decorator hvalue _ ih =>
      intro lo mid hi hle halong hsound hdecorators hneat
      obtain ⟨hfirst, hothers⟩ := List.forall_mem_cons.mp hsound
      obtain ⟨hstart, hin, hbehind⟩ := halong
      have hstop := le_trans hstart hin.start_le_stop
      have hdecorator := lies_part hin (by simp [Phrase.parts]) hvalue.lies
      have hneatDecorator := hvalue.neat ((hfirst.settled rfl).part (by simp [Phrase.parts]))
      exact ih _ _ _ (le_trans hle hstop) hbehind hothers
        (hdecorators.append hle hstop (.single hstop (hdecorator.mono hstart (le_refl _))))
        (List.forall_mem_append.mpr ⟨hneat, List.forall_mem_singleton.mpr hneatDecorator⟩)
  | decoratedFunction hparts hfunction ih =>
      intro lo mid hi hle halong hsound hdecorators hneat
      obtain ⟨hfirst, -⟩ := List.forall_mem_cons.mp hsound
      exact List.forall_mem_singleton.mpr (function_neat hparts ih hfunction hfirst
        (hdecorators.mono (le_refl _) halong.1) hneat)
  | undecorated => exact fun _ _ _ _ _ _ _ _ => List.forall_mem_nil _
  | done => exact fun _ _ _ _ _ _ _ hneat => hneat
  | name _ ih =>
      intro lo mid hi hle halong hsound hlies hneat
      obtain ⟨-, hothers⟩ := List.forall_mem_cons.mp hsound
      obtain ⟨hstart, hin, hbehind⟩ := halong
      have hstop := le_trans hstart hin.start_le_stop
      exact ih _ _ _ (le_trans hle hstop) hbehind hothers { hlies.mono hstop with } { hneat with }
  | parameters hparameters _ ih =>
      intro lo mid hi hle halong hsound hlies hneat
      obtain ⟨hfirst, hothers⟩ := List.forall_mem_cons.mp hsound
      obtain ⟨hstart, hin, hbehind⟩ := halong
      have hstop := le_trans hstart hin.start_le_stop
      have hfound := (hparameters.lie (le_refl _) (along_parts hin) Parameters.lieIn_empty).node
      have hfoundNeat := (hparameters.neat (le_refl _) (along_parts hin)
        (settled_parts (hfirst.settled rfl)) Parameters.lieIn_empty Parameters.neat_empty).node
      refine ih _ _ _ (le_trans hle hstop) hbehind hothers
        { hlies.mono hstop with arguments := ?_ }
        { hneat with
          arguments := hfoundNeat _
          argumentsReturns := ((lies_getD hlies.returns).apart hstart (hfound _)).symm
          argumentsBody := ((Lies.list hlies.body).apart hstart (hfound _)).symm }
      rintro _ ⟨⟩
      exact (hfound _).mono (le_trans hle hstart) (le_refl _)
  | returns hvalue _ ih =>
      intro lo mid hi hle halong hsound hlies hneat
      obtain ⟨hfirst, hothers⟩ := List.forall_mem_cons.mp hsound
      obtain ⟨hstart, hin, hbehind⟩ := halong
      have hstop := le_trans hstart hin.start_le_stop
      have hfound := lies_part hin (by simp [Phrase.parts]) hvalue.lies
      refine ih _ _ _ (le_trans hle hstop) hbehind hothers
        { hlies.mono hstop with returns := ?_ }
        { hneat with
          returns := hvalue.neat ((hfirst.settled rfl).part (by simp [Phrase.parts]))
          argumentsReturns := (lies_getD hlies.arguments).apart hstart hfound
          bodyReturns := (Lies.list hlies.body).apart hstart hfound }
      rintro _ ⟨⟩
      exact hfound.mono (le_trans hle hstart) (le_refl _)
  | body hbody _ ihbody ih =>
      intro lo mid hi hle halong hsound hlies hneat
      obtain ⟨hfirst, hothers⟩ := List.forall_mem_cons.mp hsound
      obtain ⟨hstart, hin, hbehind⟩ := halong
      have hstop := le_trans hstart hin.start_le_stop
      have hfound := hbody.lies hin
      exact ih _ _ _ (le_trans hle hstop) hbehind hothers
        { hlies.mono hstop with body := hfound.mono (le_trans hle hstart) (le_refl _) }
        { hneat with
          body := ihbody hfirst
          argumentsBody := (lies_getD hlies.arguments).apart hstart (.list hfound)
          bodyReturns := ((lies_getD hlies.returns).apart hstart (.list hfound)).symm }

end Reading

end FunctionIR
