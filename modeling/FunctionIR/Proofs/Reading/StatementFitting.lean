import FunctionIR.Proofs.Reading.StatementFindings

/-!
# What is found in statements fits

As in expressions, whatever is found fits its slot: targets are expressions,
parameters and their defaults are what the `arguments` node asks for, and a
suite is a list of statements (`StatementFinds.fit`).  Here, too, nothing needs to
be known of the grammar.  Only at the end does it matter where phrases come from:
they lie within a text, and so do the places of the tree (`Source.tree_fits`).
-/

namespace FunctionIR

namespace Reading

open Grammar (Phrase Place Rule)

variable {file : String} {P : Place → Prop} {start stop : Place}

/-! ### Targets -/

mutual

/-- An expression that is stored is an expression. -/
theorem Stores.fits : {c d : Nat} → {value target : Value} → Stores c value target d →
    Fits (Placed file P) (.node .expression) value →
    Fits (Placed file P) (.node .expression) target
  | _, _, _, _, .single _ hassignable _, h => by
      obtain ⟨_, _, ⟨⟩, hrole, hhead, hfields⟩ := h.exists_node
      have hslot := signature_of_isAssignable hassignable
      exact .node hrole hhead (.set hslot (fits_context .store) hfields)
  | _, _, _, _, .sequence hkind hstores, h => by
      obtain ⟨_, _, ⟨⟩, hrole, hhead, hfields⟩ := h.exists_node
      refine .node hrole hhead ?_
      rw [elements_signature hkind] at hfields ⊢
      cases hfields with
      | cons helements hctx =>
          cases helements with
          | list hitems =>
              exact .cons (.list (StoresAll.fit hstores hitems)) (.cons (fits_context .store) .nil)

theorem StoresAll.fit : {c d : Nat} → {values targets : List Value} →
    StoresAll c values targets d → ItemsFit (Placed file P) (.node .expression) values →
    ItemsFit (Placed file P) (.node .expression) targets
  | _, _, _, _, .nil, _ => .nil
  | _, _, _, _, .cons hvalue hrest, h => by
      obtain ⟨hfirst, hothers⟩ := itemsFit_cons.mp h
      exact .cons (Stores.fits hvalue hfirst) (StoresAll.fit hrest hothers)

end

variable {c d : Nat}

/-- A target fits as an expression. -/
theorem FindsTarget.fits {phrase : Phrase} {target : Value}
    (h : FindsTarget file c phrase target d) (hphrase : phrase.All P) :
    Fits (Placed file P) (.node .expression) target := by
  cases h with
  | mk hvalue hstores => exact hstores.fits (hvalue.fit hphrase)

/-- The targets of an assignment are expressions, and the phrase of its value is
one of its phrases. -/
theorem FindsTargets.fit {phrases : List Phrase} {targets : List Value} {value : Phrase}
    (h : FindsTargets file c phrases targets value d) (hphrases : ∀ phrase ∈ phrases, phrase.All P) :
    ItemsFit (Placed file P) (.node .expression) targets ∧ value.All P := by
  induction h with
  | value => exact ⟨.nil, hphrases _ List.mem_cons_self⟩
  | target htarget _ ih =>
      obtain ⟨hfirst, hrest⟩ := List.forall_mem_cons.mp hphrases
      obtain ⟨htargets, hvalue⟩ := ih hrest
      exact ⟨.cons (htarget.fits hfirst) htargets, hvalue⟩

/-! ### Statements without a body -/

/-- What a word stands for is a statement without fields. -/
theorem statement_of_wordKind {rule : Rule} {kind : Kind} (h : wordKind rule = some kind) :
    kind.role = some .statement ∧ kind.signature = [] := by
  unfold wordKind at h
  split at h <;> cases h <;> exact ⟨rfl, rfl⟩

/-- A simple statement fits. -/
theorem FindsSimple.fits {phrase : Phrase} {statement : Value}
    (h : FindsSimple file c phrase statement d) (hphrase : phrase.All P) :
    Fits (Placed file P) (.node .statement) statement := by
  cases h with
  | word hkind =>
      obtain ⟨hrole, hsignature⟩ := statement_of_wordKind hkind
      refine fits_placed hphrase.start hphrase.stop hrole ?_
      rw [hsignature]
      exact .nil
  | returned => exact fits_placed hphrase.start hphrase.stop rfl (.cons .missing .nil)
  | returnedValue hvalue =>
      have hvalue := hvalue.fit (hphrase.parts _ List.mem_cons_self)
      exact fits_placed hphrase.start hphrase.stop rfl (.cons (.present hvalue) .nil)
  | assigned htargets hvalue =>
      obtain ⟨htargets, hphraseOfValue⟩ := htargets.fit hphrase.parts
      have hvalue := hvalue.fit hphraseOfValue
      exact fits_placed hphrase.start hphrase.stop rfl
        (.cons (.list htargets) (.cons hvalue (.cons .absent .nil)))
  | augmented _ htarget hvalue =>
      obtain ⟨hfirst, hrest⟩ := List.forall_mem_cons.mp hphrase.parts
      obtain ⟨-, hrest⟩ := List.forall_mem_cons.mp hrest
      obtain ⟨hsecond, -⟩ := List.forall_mem_cons.mp hrest
      exact fits_placed hphrase.start hphrase.stop rfl
        (.cons (htarget.fits hfirst) (.cons (fits_bareNode rfl rfl)
          (.cons (hvalue.fit hsecond) .nil)))
  | evaluated hvalue =>
      have hvalue := hvalue.fit (hphrase.parts _ List.mem_cons_self)
      exact fits_placed hphrase.start hphrase.stop rfl (.cons hvalue .nil)

/-- Simple statements fit. -/
theorem FindsSimples.fit {phrases : List Phrase} {statements : List Value}
    (h : FindsSimples file c phrases statements d) (hphrases : ∀ phrase ∈ phrases, phrase.All P) :
    ItemsFit (Placed file P) (.node .statement) statements := by
  induction h with
  | nil => exact .nil
  | cons hstatement _ ih =>
      obtain ⟨hphrase, hrest⟩ := List.forall_mem_cons.mp hphrases
      exact .cons (hstatement.fits hphrase) (ih hrest)

/-! ### Parameters -/

/-- What has been read of the parameters fits. -/
structure Parameters.Fit (H : Head → Prop) (p : Parameters) : Prop where
  positionalOnly : ItemsFit H (.node .parameter) p.positionalOnly
  positional : ItemsFit H (.node .parameter) p.positional
  rest : ∀ v ∈ p.rest, Fits H (.node .parameter) v
  keywordOnly : ItemsFit H (.node .parameter) p.keywordOnly
  keywordDefaults : ItemsFit H (.optional .expression) p.keywordDefaults
  keywords : ∀ v ∈ p.keywords, Fits H (.node .parameter) v
  defaults : ItemsFit H (.node .expression) p.defaults

theorem Parameters.fit_empty {H : Head → Prop} : Parameters.empty.Fit H :=
  ⟨.nil, .nil, nofun, .nil, .nil, nofun, .nil⟩

/-- A plain parameter fits with its default. -/
theorem Parameters.Fit.addPlain {H : Head → Prop} {p p' : Parameters} (hp : p.Fit H)
    {arg : Value} {default : Option Value} (harg : Fits H (.node .parameter) arg)
    (hdefault : ∀ v ∈ default, Fits H (.node .expression) v)
    (h : p.addPlain arg default = some p') : p'.Fit H := by
  obtain ⟨-, rfl⟩ | ⟨-, value, rfl, rfl⟩ | ⟨-, -, -, rfl⟩ := Parameters.addPlain_eq_some h
  · exact { hp with
      keywordOnly := hp.keywordOnly.append (.single harg)
      keywordDefaults := hp.keywordDefaults.append (.single (.getD hdefault)) }
  · exact { hp with
      positional := hp.positional.append (.single harg)
      defaults := hp.defaults.append (.single (hdefault value rfl)) }
  · exact { hp with positional := hp.positional.append (.single harg) }

/-- A slash keeps what fits. -/
theorem Parameters.Fit.addSlash {H : Head → Prop} {p p' : Parameters} (hp : p.Fit H)
    (h : p.addSlash = some p') : p'.Fit H := by
  obtain ⟨-, -, rfl⟩ := Parameters.addSlash_eq_some h
  exact { hp with positionalOnly := hp.positional, positional := .nil }

/-- The node of parameters fits. -/
theorem Parameters.Fit.node {p : Parameters} (hp : p.Fit (Placed file P)) (id : Nat) :
    Fits (Placed file P) (.node .arguments) (p.node id) :=
  .node rfl (.inl ⟨rfl, rfl⟩)
    (.cons (.list hp.positionalOnly) (.cons (.list hp.positional)
      (.cons (.getD hp.rest) (.cons (.list hp.keywordOnly)
        (.cons (.list hp.keywordDefaults) (.cons (.getD hp.keywords)
          (.cons (.list hp.defaults) .nil)))))))

/-- The annotation and the default of a parameter are expressions. -/
def ParameterParts.Fit (H : Head → Prop) (parts : ParameterParts) : Prop :=
  (∀ v ∈ parts.annotated, Fits H (.node .expression) v) ∧
    ∀ v ∈ parts.default, Fits H (.node .expression) v

/-- The parts of a parameter fit. -/
theorem FindsParts.fit {phrases : List Phrase} {sofar parts : ParameterParts}
    (h : FindsParts file c phrases sofar parts d) (hphrases : ∀ phrase ∈ phrases, phrase.All P)
    (hsofar : sofar.Fit (Placed file P)) : parts.Fit (Placed file P) := by
  induction h with
  | done => exact hsofar
  | name _ ih => exact ih (List.forall_mem_cons.mp hphrases).2 hsofar
  | hint hread _ ih =>
      obtain ⟨hphrase, hrest⟩ := List.forall_mem_cons.mp hphrases
      have hvalue := (finds_expression _ hread).fit (hphrase.parts _ List.mem_cons_self)
      exact ih hrest ⟨by rintro _ ⟨⟩; exact hvalue, hsofar.2⟩
  | default hread _ ih =>
      obtain ⟨hphrase, hrest⟩ := List.forall_mem_cons.mp hphrases
      have hvalue := (finds_expression _ hread).fit (hphrase.parts _ List.mem_cons_self)
      exact ih hrest ⟨hsofar.1, by rintro _ ⟨⟩; exact hvalue⟩

/-- A parameter and its default fit. -/
theorem FindsParameter.fits {phrases : List Phrase} {arg : Value} {default : Option Value}
    (h : FindsParameter file c start stop phrases arg default d) (hstart : P start) (hstop : P stop)
    (hphrases : ∀ phrase ∈ phrases, phrase.All P) :
    Fits (Placed file P) (.node .parameter) arg ∧
      ∀ v ∈ default, Fits (Placed file P) (.node .expression) v := by
  cases h with
  | mk hparts =>
      obtain ⟨hannotated, hdefault⟩ := hparts.fit hphrases ⟨nofun, nofun⟩
      exact ⟨fits_placed hstart hstop rfl
        (.cons (.text _) (.cons (.getD hannotated) (.cons .absent .nil))), hdefault⟩

/-- Parameters fit. -/
theorem FindsParameters.fit {phrases : List Phrase} {p q : Parameters}
    (h : FindsParameters file c phrases p q d) (hphrases : ∀ phrase ∈ phrases, phrase.All P)
    (hp : p.Fit (Placed file P)) : q.Fit (Placed file P) := by
  induction h with
  | done => exact hp
  | slash hadded _ ih => exact ih (List.forall_mem_cons.mp hphrases).2 (hp.addSlash hadded)
  | plain hparameter hadded _ ih =>
      obtain ⟨hphrase, hrest⟩ := List.forall_mem_cons.mp hphrases
      obtain ⟨harg, hdefault⟩ := hparameter.fits hphrase.start hphrase.stop hphrase.parts
      exact ih hrest (hp.addPlain harg hdefault hadded)
  | star _ _ ih => exact ih (List.forall_mem_cons.mp hphrases).2 { hp with }
  | varargs _ _ hparameter _ ih =>
      obtain ⟨hphrase, hrest⟩ := List.forall_mem_cons.mp hphrases
      obtain ⟨harg, -⟩ := hparameter.fits hphrase.start hphrase.stop hphrase.parts
      exact ih hrest { hp with rest := by rintro _ ⟨⟩; exact harg }
  | kwargs hparameter _ ih =>
      obtain ⟨hphrase, hrest⟩ := List.forall_mem_cons.mp hphrases
      obtain ⟨harg, -⟩ := hparameter.fits hphrase.start hphrase.stop hphrase.parts
      exact ih hrest { hp with keywords := by rintro _ ⟨⟩; exact harg }

/-! ### Statements -/

/-- What has been read of a function fits. -/
structure FunctionParts.Fit (H : Head → Prop) (parts : FunctionParts) : Prop where
  arguments : ∀ v ∈ parts.arguments, Fits H (.node .arguments) v
  returns : ∀ v ∈ parts.returns, Fits H (.node .expression) v
  body : ItemsFit H (.node .statement) parts.body

theorem FunctionParts.fit_nothing {H : Head → Prop} : (FunctionParts.mk "" none none []).Fit H :=
  ⟨nofun, nofun, .nil⟩

/-- The arguments of a function fit. -/
theorem FindsArguments.fits {given : Option Value} {arguments : Value}
    (h : FindsArguments c given arguments d)
    (hgiven : ∀ v ∈ given, Fits (Placed file P) (.node .arguments) v) :
    Fits (Placed file P) (.node .arguments) arguments := by
  cases h with
  | given => exact hgiven arguments rfl
  | none => exact Parameters.fit_empty.node _

/-- A function fits. -/
theorem FindsFunction.fits {decorators : List Value} {parts : FunctionParts} {function : Value}
    (h : FindsFunction file c start stop decorators parts function d) (hstart : P start)
    (hstop : P stop) (hdecorators : ItemsFit (Placed file P) (.node .expression) decorators)
    (hparts : parts.Fit (Placed file P)) : Fits (Placed file P) (.node .statement) function := by
  cases h with
  | mk harguments =>
      exact fits_placed hstart hstop rfl
        (.cons (.text _) (.cons (harguments.fits hparts.arguments) (.cons (.list hparts.body)
          (.cons (.list hdecorators) (.cons (.getD hparts.returns) (.cons .absent .nil))))))

/-- What has a condition and a body is a statement with a test and two bodies. -/
theorem statement_of_conditionKind {rule : Rule} {kind : Kind}
    (h : conditionKind rule = some kind) :
    kind.role = some .statement ∧
      kind.signature = [("test", .node .expression), ("body", .list (.node .statement)),
        ("orelse", .list (.node .statement))] := by
  unfold conditionKind at h
  split at h <;> cases h <;> exact ⟨rfl, rfl⟩

/-- What is found fits, where the places of the phrases have the property. -/
def StatementFinding.Fit (file : String) (P : Place → Prop) : StatementFinding → Prop
  | .statements phrase values =>
      phrase.All P → ItemsFit (Placed file P) (.node .statement) values
  | .all phrases values =>
      (∀ phrase ∈ phrases, phrase.All P) → ItemsFit (Placed file P) (.node .statement) values
  | .decorated phrases decorators values =>
      (∀ phrase ∈ phrases, phrase.All P) →
        ItemsFit (Placed file P) (.node .expression) decorators →
          ItemsFit (Placed file P) (.node .statement) values
  | .parts phrases sofar found =>
      (∀ phrase ∈ phrases, phrase.All P) → sofar.Fit (Placed file P) → found.Fit (Placed file P)

/-- **What is found in statements fits.** -/
theorem StatementFinds.fit {finding : StatementFinding} (h : StatementFinds file c finding d) :
    finding.Fit file P := by
  induction h with
  | passed _ _ ih => exact fun h => ih (h.parts _ List.mem_cons_self)
  | simple hstatements => exact fun h => hstatements.fit h.parts
  | block _ ih => exact fun h => ih h.parts
  | decorated _ ih => exact fun h => ih h.parts .nil
  | function _ hfunction ih =>
      intro h
      have hparts := ih h.parts FunctionParts.fit_nothing
      exact .single (hfunction.fits h.start h.stop .nil hparts)
  | conditional hkind _ htest _ ihorelse ihbody =>
      intro h
      obtain ⟨hfirst, hrest⟩ := List.forall_mem_cons.mp h.parts
      obtain ⟨hsecond, hrest⟩ := List.forall_mem_cons.mp hrest
      obtain ⟨hrole, hsignature⟩ := statement_of_conditionKind hkind
      refine .single (fits_placed h.start h.stop hrole ?_)
      rw [hsignature]
      exact .cons (htest.fit hfirst)
        (.cons (.list (ihbody hsecond)) (.cons (.list (ihorelse hrest)) .nil))
  | loop _ htarget hiter _ ihorelse ihbody =>
      intro h
      obtain ⟨hfirst, hrest⟩ := List.forall_mem_cons.mp h.parts
      obtain ⟨hsecond, hrest⟩ := List.forall_mem_cons.mp hrest
      obtain ⟨hthird, hrest⟩ := List.forall_mem_cons.mp hrest
      exact .single (fits_placed h.start h.stop rfl
        (.cons (htarget.fits hfirst) (.cons (hiter.fit hsecond) (.cons (.list (ihbody hthird))
          (.cons (.list (ihorelse hrest)) (.cons .absent .nil))))))
  | nothing => exact fun _ => .nil
  | next _ _ ihfirst ihrest =>
      intro h
      obtain ⟨hphrase, hrest⟩ := List.forall_mem_cons.mp h
      exact (ihfirst hphrase).append (ihrest hrest)
  | decorator hvalue _ ih =>
      intro h hdecorators
      obtain ⟨hphrase, hrest⟩ := List.forall_mem_cons.mp h
      have hdecorator := hvalue.fit (hphrase.parts _ List.mem_cons_self)
      exact ih hrest (hdecorators.append (.single hdecorator))
  | decoratedFunction _ hfunction ih =>
      intro h hdecorators
      obtain ⟨hphrase, -⟩ := List.forall_mem_cons.mp h
      have hparts := ih hphrase.parts FunctionParts.fit_nothing
      exact .single (hfunction.fits hphrase.start hphrase.stop hdecorators hparts)
  | undecorated => exact fun _ _ => .nil
  | done => exact fun _ => id
  | name _ ih => exact fun h hsofar => ih (List.forall_mem_cons.mp h).2 { hsofar with }
  | parameters hparameters _ ih =>
      intro h hsofar
      obtain ⟨hphrase, hrest⟩ := List.forall_mem_cons.mp h
      have hp := hparameters.fit hphrase.parts Parameters.fit_empty
      exact ih hrest { hsofar with arguments := by rintro _ ⟨⟩; exact hp.node _ }
  | returns hvalue _ ih =>
      intro h hsofar
      obtain ⟨hphrase, hrest⟩ := List.forall_mem_cons.mp h
      have hfound := hvalue.fit (hphrase.parts _ List.mem_cons_self)
      exact ih hrest { hsofar with returns := by rintro _ ⟨⟩; exact hfound }
  | body _ _ ihbody ih =>
      intro h hsofar
      obtain ⟨hphrase, hrest⟩ := List.forall_mem_cons.mp h
      exact ih hrest { hsofar with body := ihbody hphrase }

/-- **A tree that is read from phrases is a module of statements.** -/
theorem moduleTree_fits (phrases : List Phrase) (h : ∀ phrase ∈ phrases, phrase.All P) :
    (moduleTree file phrases).Yields fun tree =>
      ∃ body, tree.head.kind = .module ∧ Placed file P tree.head ∧
        tree.fields = [("body", .list body), ("type_ignores", .list [])] ∧
        ItemsFit (Placed file P) (.node .statement) body := by
  intro counter tree next hrun
  obtain ⟨body, _, hbody, hrun⟩ := Numbered.runFrom_bind hrun
  cases hrun
  exact ⟨body, rfl, .inl ⟨rfl, rfl⟩, rfl, (finds_all phrases hbody).fit h⟩

end Reading

/-- **The tree of a program text is a module of statements**, and all places in
it are places in the text. -/
theorem Source.tree_fits {source : Source} (hformat : source.format = .program) :
    source.tree.Yields fun tree =>
      ∃ body, tree.head.kind = .module ∧
        Reading.Placed source.name (Grammar.Place.Within source.text.length) tree.head ∧
        tree.fields = [("body", .list body), ("type_ignores", .list [])] ∧
        ItemsFit (Reading.Placed source.name (Grammar.Place.Within source.text.length))
          (.node .statement) body := by
  intro counter tree next h
  obtain ⟨-, s, tried, hmatched, hread⟩ := Source.match_of_tree hformat h
  have hwithin := Grammar.phrases_within hmatched
  rw [String.length_toList] at hwithin
  refine Reading.moduleTree_fits _ (fun part hpart => ?_) counter tree next hread
  obtain ⟨phrase, hphrase, hpart⟩ := List.mem_flatMap.mp hpart
  exact (hwithin phrase hphrase).parts part hpart

end FunctionIR
