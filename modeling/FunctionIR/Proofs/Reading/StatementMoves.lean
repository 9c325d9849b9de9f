import FunctionIR.Proofs.Reading.Moves
import FunctionIR.Proofs.Exchange.Copy

/-!
# Reading alike statements

What holds of expressions holds of parameters, statements and whole texts:
where the phrases are alike at corresponding places, the trees differ in
locations and numbers only (`moduleTree_moves`).
-/

namespace FunctionIR

open Numbered

namespace Reading

open Grammar (Phrase Place Rule AllAlike)

variable {file : String} {L : Location → Location → Prop} {E : Place → Place → Prop}
  {start start' stop stop' : Place}

/-! ### Parameters -/

/-- Values that are present correspond, and one is present where the other
is. -/
inductive MaybeMoves (L : Location → Location → Prop) : Option Value → Option Value → Prop
  | none : MaybeMoves L none none
  | some {value value' : Value} : Relocates L value value' → MaybeMoves L (some value) (some value')

theorem MaybeMoves.getD {value value' : Option Value} (h : MaybeMoves L value value') :
    Relocates L (value.getD .absent) (value'.getD .absent) := by
  cases h with
  | none => exact moves_absent
  | some hvalue => exact hvalue

/-- The parts of corresponding parameters. -/
structure ParameterParts.Move (L : Location → Location → Prop) (parts parts' : ParameterParts) :
    Prop where
  name : parts'.name = parts.name
  annotated : MaybeMoves L parts.annotated parts'.annotated
  default : MaybeMoves L parts.default parts'.default

/-- Parameters that correspond group by group. -/
structure Parameters.Move (L : Location → Location → Prop) (p p' : Parameters) : Prop where
  positionalOnly : ItemsRelocate L p.positionalOnly p'.positionalOnly
  positional : ItemsRelocate L p.positional p'.positional
  rest : MaybeMoves L p.rest p'.rest
  keywordOnly : ItemsRelocate L p.keywordOnly p'.keywordOnly
  keywordDefaults : ItemsRelocate L p.keywordDefaults p'.keywordDefaults
  keywords : MaybeMoves L p.keywords p'.keywords
  defaults : ItemsRelocate L p.defaults p'.defaults
  starred : p'.starred = p.starred

namespace Parameters

/-- Before anything is read there is nothing to move. -/
theorem Move.empty : Move L empty empty := ⟨.nil, .nil, .none, .nil, .nil, .none, .nil, rfl⟩

variable {p p' q : Parameters}

/-- The node of parameters moves with them. -/
theorem Move.toNode (h : p.Move L p') : Mirrors (Relocates L) p.toNode p'.toNode :=
  (mirrors_head .arguments .none .none).bind fun _ _ hhead =>
    .pure (.node hhead
      (.cons (.list h.positionalOnly) (.cons (.list h.positional) (.cons h.rest.getD
        (.cons (.list h.keywordOnly) (.cons (.list h.keywordDefaults) (.cons h.keywords.getD
          (.cons (.list h.defaults) .nil))))))))

/-- A parameter that may be added to the one group may be added to the other. -/
theorem Move.addPlain (h : p.Move L p') {arg arg' : Value} {default default' : Option Value}
    (harg : Relocates L arg arg') (hdefault : MaybeMoves L default default')
    (hadd : p.addPlain arg default = some q) :
    ∃ q', p'.addPlain arg' default' = some q' ∧ q.Move L q' := by
  rw [Parameters.addPlain.eq_def] at hadd
  rw [Parameters.addPlain.eq_def, h.starred, h.defaults.isEmpty]
  by_cases hstarred : p.starred
  · rw [if_pos hstarred] at hadd ⊢
    cases hadd
    exact ⟨_, rfl, { h with
      keywordOnly := h.keywordOnly.append (.cons harg .nil)
      keywordDefaults := h.keywordDefaults.append (.cons hdefault.getD .nil)
      starred := rfl }⟩
  · rw [if_neg hstarred] at hadd ⊢
    cases hdefault with
    | some hvalue =>
        cases hadd
        exact ⟨_, rfl, { h with
          positional := h.positional.append (.cons harg .nil)
          defaults := h.defaults.append (.cons hvalue .nil)
          starred := rfl }⟩
    | none =>
        dsimp only at hadd ⊢
        by_cases hempty : p.defaults.isEmpty
        · rw [if_pos hempty] at hadd ⊢
          cases hadd
          exact ⟨_, rfl, { h with
            positional := h.positional.append (.cons harg .nil)
            starred := rfl }⟩
        · rw [if_neg hempty] at hadd
          cases hadd

/-- A slash is added to moved parameters as well. -/
theorem Move.addSlash (h : p.Move L p') (hadd : p.addSlash = some q) :
    ∃ q', p'.addSlash = some q' ∧ q.Move L q' := by
  have hmay : (p'.starred || !p'.positionalOnly.isEmpty || p'.positional.isEmpty) =
      (p.starred || !p.positionalOnly.isEmpty || p.positional.isEmpty) := by
    rw [h.starred, h.positionalOnly.isEmpty, h.positional.isEmpty]
  rw [Parameters.addSlash] at hadd
  rw [Parameters.addSlash, hmay]
  split at hadd
  · cases hadd
  · next hrefused =>
    cases hadd
    rw [if_neg hrefused]
    exact ⟨_, rfl, { h with positionalOnly := h.positional, positional := .nil }⟩

end Parameters

/-- What is allowed stays allowed where the result is known to follow. -/
theorem mirrors_allowed {R : Parameters → Parameters → Prop} {added added' : Option Parameters}
    (cause : SyntaxCause) (h : ∀ p, added = some p → ∃ p', added' = some p' ∧ R p p') :
    Mirrors R (allowed file start stop cause added) (allowed file start' stop' cause added') := by
  cases added with
  | none => exact .throw
  | some p =>
      obtain ⟨p', rfl, hR⟩ := h p rfl
      exact .pure hR

section

variable (hE : Locates L E)

include hE

/-- The parts of a parameter move with their phrases. -/
theorem parameterParts_move (phrases phrases' : List Phrase) (h : AllAlike E phrases phrases')
    {sofar sofar' : ParameterParts} (hsofar : sofar.Move L sofar') :
    Mirrors (ParameterParts.Move L) (parameterParts file phrases sofar)
      (parameterParts file phrases' sofar') := by
  induction phrases generalizing phrases' sofar sofar' with
  | nil =>
      cases h
      exact .pure hsofar
  | cons phrase rest ih =>
      rw [parameterParts.eq_def file (phrase :: rest)]
      split
      next heq => cases heq
      next heq =>
        cases heq
        obtain _ | ⟨⟨-, -, htext, -⟩, hrest⟩ := h
        exact ih _ hrest { hsofar with name := congrArg String.ofList (htext.1 rfl) }
      next heq =>
        cases heq
        obtain _ | ⟨⟨-, -, -, _ | ⟨hinner, ⟨⟩⟩⟩, hrest⟩ := h
        exact (expression_moves hE _ _ hinner).bind fun _ _ hvalue =>
          ih _ hrest { hsofar with annotated := .some hvalue }
      next heq =>
        cases heq
        obtain _ | ⟨⟨-, -, -, _ | ⟨hinner, ⟨⟩⟩⟩, hrest⟩ := h
        exact (expression_moves hE _ _ hinner).bind fun _ _ hvalue =>
          ih _ hrest { hsofar with default := .some hvalue }
      next => exact mirrors_misplaced

/-- A parameter and its default move with their phrase. -/
theorem parameter_moves (hstart : E start start') (hstop : E stop stop')
    {phrases phrases' : List Phrase} (h : AllAlike E phrases phrases') :
    Mirrors (fun found found' => Relocates L found.1 found'.1 ∧ MaybeMoves L found.2 found'.2)
      (parameter file start stop phrases) (parameter file start' stop' phrases') := by
  refine (parameterParts_move hE _ _ h ⟨rfl, .none, .none⟩).bind fun parts parts' hparts => ?_
  refine (mirrors_headAt hE .arg hstart hstop).bind fun _ _ hhead => .pure ⟨?_, hparts.default⟩
  rw [hparts.name]
  exact .node hhead (.cons (moves_str _) (.cons hparts.annotated.getD (.cons moves_absent .nil)))

/-- Parameters move with their phrases. -/
theorem parameters_move (phrases phrases' : List Phrase) (h : AllAlike E phrases phrases')
    {p p' : Parameters} (hp : p.Move L p') :
    Mirrors (Parameters.Move L) (Reading.parameters file phrases p)
      (Reading.parameters file phrases' p') := by
  induction phrases generalizing phrases' p p' with
  | nil =>
      cases h
      exact .pure hp
  | cons phrase rest ih =>
      rw [Reading.parameters.eq_def file (phrase :: rest)]
      split
      next heq => cases heq
      next heq =>
        cases heq
        obtain _ | ⟨⟨-, -, -, -⟩, hrest⟩ := h
        exact (mirrors_allowed .misplacedSlash fun _ => hp.addSlash).bind fun _ _ hp =>
          ih _ hrest hp
      next heq =>
        cases heq
        obtain _ | ⟨⟨hstart, hstop, -, hparts⟩, hrest⟩ := h
        exact (parameter_moves hE hstart hstop hparts).bind fun _ _ hfound =>
          (mirrors_allowed .defaultMissing fun _ => hp.addPlain hfound.1 hfound.2).bind
            fun _ _ hp => ih _ hrest hp
      next heq =>
        cases heq
        obtain _ | ⟨⟨hstart, hstop, -, hparts⟩, hrest⟩ := h
        refine (mirrors_allowed (R := Parameters.Move L) .secondStar fun q hq => ?_).bind
          fun _ _ hp => ?_
        · rw [hp.starred]
          split at hq
          · cases hq
          · next hstarred =>
            cases hq
            exact ⟨p', if_neg hstarred, hp⟩
        · cases hparts with
          | nil => exact ih _ hrest { hp with starred := rfl }
          | cons hpart hparts =>
              exact (parameter_moves hE hstart hstop (.cons hpart hparts)).bind
                fun _ _ hfound =>
                  ih _ hrest { hp with starred := rfl, rest := .some hfound.1 }
      next heq =>
        cases heq
        obtain _ | ⟨⟨hstart, hstop, -, hparts⟩, hrest⟩ := h
        exact (parameter_moves hE hstart hstop hparts).bind fun _ _ hfound =>
          ih _ hrest { hp with keywords := .some hfound.1 }
      next => exact mirrors_misplaced

/-! ### Statements -/

/-- Targets move with their phrases. -/
theorem assignmentTargets_move (phrases phrases' : List Phrase) (h : AllAlike E phrases phrases') :
    Mirrors (fun found found' => ItemsRelocate L found.1 found'.1 ∧ AllAlike E found.2 found'.2)
      (assignmentTargets file phrases) (assignmentTargets file phrases') := by
  induction phrases generalizing phrases' with
  | nil =>
      cases h
      exact .pure ⟨.nil, .nil⟩
  | cons phrase rest ih =>
      match h with
      | .cons hphrase .nil => exact .pure ⟨.nil, .cons hphrase .nil⟩
      | .cons hphrase (.cons hnext hrest) =>
          exact (target_moves hE hphrase).bind fun _ _ htarget =>
            (ih _ (.cons hnext hrest)).bind fun _ _ hfound =>
            .pure ⟨.cons htarget hfound.1, hfound.2⟩

/-- A simple statement moves with its phrase. -/
theorem simpleStatement_moves (phrase phrase' : Phrase) (h : phrase.Alike E phrase') :
    Mirrors (Relocates L) (simpleStatement file phrase) (simpleStatement file phrase') := by
  rw [simpleStatement.eq_def file phrase]
  split
  next =>
    obtain ⟨hstart, hstop, -, -⟩ := h
    exact (mirrors_headAt hE .passStmt hstart hstop).bind fun _ _ hhead =>
      .pure (.node hhead .nil)
  next =>
    obtain ⟨hstart, hstop, -, -⟩ := h
    exact (mirrors_headAt hE .breakStmt hstart hstop).bind fun _ _ hhead =>
      .pure (.node hhead .nil)
  next =>
    obtain ⟨hstart, hstop, -, -⟩ := h
    exact (mirrors_headAt hE .continueStmt hstart hstop).bind fun _ _ hhead =>
      .pure (.node hhead .nil)
  next =>
    obtain ⟨hstart, hstop, -, ⟨⟩⟩ := h
    exact (mirrors_headAt hE .returnStmt hstart hstop).bind fun _ _ hhead =>
      .pure (.node hhead (.cons moves_absent .nil))
  next value =>
    obtain ⟨hstart, hstop, -, _ | ⟨hvalue, ⟨⟩⟩⟩ := h
    exact (expression_moves hE _ _ hvalue).bind fun _ _ hvalue =>
      (mirrors_headAt hE .returnStmt hstart hstop).bind fun _ _ hhead =>
      .pure (.node hhead (.cons hvalue .nil))
  next parts =>
    obtain ⟨hstart, hstop, -, hparts⟩ := h
    refine (assignmentTargets_move hE _ _ hparts).bind ?_
    rintro ⟨targets, values⟩ ⟨targets', values'⟩ ⟨htargets, hvalues⟩
    cases hvalues with
    | nil => exact mirrors_misplaced
    | cons hvalue hvalues =>
        cases hvalues with
        | cons _ _ => exact mirrors_misplaced
        | nil =>
            exact (expression_moves hE _ _ hvalue).bind fun _ _ hvalue =>
              (mirrors_headAt hE .assign hstart hstop).bind fun _ _ hhead =>
              .pure (.node hhead
                (.cons (.list htargets) (.cons hvalue (.cons moves_absent .nil))))
  next target op value =>
    obtain ⟨hstart, hstop, htext, _ | ⟨htarget, _ | ⟨hop, _ | ⟨hvalue, ⟨⟩⟩⟩⟩⟩ := h
    refine (target_moves hE htarget).bind fun _ _ htarget => ?_
    refine (expression_moves hE _ _ hvalue).bind fun _ _ hvalue => ?_
    have hsame := (List.cons_eq_cons.mp htext.2).1
    dsimp only [Rule.sense] at hsame
    rw [hsame]
    split
    · exact (mirrors_headAt hE .augAssign hstart hstop).bind fun _ _ hhead =>
        (mirrors_bare _).bind fun _ _ hop =>
        .pure (.node hhead (.cons htarget (.cons hop (.cons hvalue .nil))))
    · exact mirrors_misplaced
  next value =>
    obtain ⟨hstart, hstop, -, _ | ⟨hvalue, ⟨⟩⟩⟩ := h
    exact (expression_moves hE _ _ hvalue).bind fun _ _ hvalue =>
      (mirrors_headAt hE .exprStmt hstart hstop).bind fun _ _ hhead =>
      .pure (.node hhead (.cons hvalue .nil))
  next => exact mirrors_misplaced

/-- Simple statements move with their phrases. -/
theorem simpleStatements_move (phrases phrases' : List Phrase) (h : AllAlike E phrases phrases') :
    Mirrors (ItemsRelocate L) (simpleStatements file phrases) (simpleStatements file phrases') := by
  induction phrases generalizing phrases' with
  | nil =>
      cases h
      exact .pure .nil
  | cons phrase rest ih =>
      cases h with
      | cons hphrase hrest =>
          exact (simpleStatement_moves hE _ _ hphrase).bind fun _ _ hstatement =>
            (ih _ hrest).bind fun _ _ hstatements => .pure (.cons hstatement hstatements)

/-- A statement with a condition moves with its parts. -/
theorem mirrors_conditional (kind : Kind) {orelse orelse' body body' : Numbered (List Value)}
    {test test' : Numbered Value} (hstart : E start start') (hstop : E stop stop')
    (horelse : Mirrors (ItemsRelocate L) orelse orelse') (htest : Mirrors (Relocates L) test test')
    (hbody : Mirrors (ItemsRelocate L) body body') :
    Mirrors (ItemsRelocate L)
      (do let orelse ← orelse
          let head ← headAt file kind start stop
          let test ← test
          let body ← body
          return [.node head [("test", test), ("body", .list body), ("orelse", .list orelse)]])
      (do let orelse ← orelse'
          let head ← headAt file kind start' stop'
          let test ← test'
          let body ← body'
          return [.node head [("test", test), ("body", .list body), ("orelse", .list orelse)]]) :=
  horelse.bind fun _ _ horelse =>
  (mirrors_headAt hE kind hstart hstop).bind fun _ _ hhead =>
  htest.bind fun _ _ htest =>
  hbody.bind fun _ _ hbody =>
  .pure (.cons (.node hhead (.cons htest (.cons (.list hbody) (.cons (.list horelse) .nil)))) .nil)

end

/-- The parts of corresponding functions. -/
structure FunctionParts.Move (L : Location → Location → Prop) (parts parts' : FunctionParts) :
    Prop where
  name : parts'.name = parts.name
  arguments : MaybeMoves L parts.arguments parts'.arguments
  returns : MaybeMoves L parts.returns parts'.returns
  body : ItemsRelocate L parts.body parts'.body

namespace FunctionParts.Move

variable {parts parts' : FunctionParts}

/-- The arguments of a function, given or not. -/
theorem parameters (h : parts.Move L parts') :
    Mirrors (Relocates L) parts.parameters parts'.parameters := by
  have harguments := h.arguments
  rw [FunctionParts.parameters, FunctionParts.parameters]
  generalize parts.arguments = arguments, parts'.arguments = arguments' at harguments
  cases harguments with
  | none => exact Parameters.Move.empty.toNode
  | some harguments => exact .pure harguments

/-- The node of a function moves with its parts and decorators. -/
theorem toNode (hE : Locates L E) (hstart : E start start') (hstop : E stop stop')
    {decorators decorators' : List Value} (hdecorators : ItemsRelocate L decorators decorators')
    (h : parts.Move L parts') :
    Mirrors (Relocates L) (parts.toNode file decorators start stop)
      (parts'.toNode file decorators' start' stop') := by
  rw [FunctionParts.toNode_eq, FunctionParts.toNode_eq]
  refine h.parameters.bind fun _ _ harguments => ?_
  refine (mirrors_headAt hE .functionDef hstart hstop).bind fun _ _ hhead => .pure ?_
  rw [FunctionParts.node, FunctionParts.node, h.name]
  exact .node hhead (.cons (moves_str _) (.cons harguments (.cons (.list h.body)
    (.cons (.list hdecorators) (.cons h.returns.getD (.cons moves_absent .nil))))))

end FunctionParts.Move

mutual

/-- **Alike statements** are read as values that differ in lines. -/
theorem statements_move (hE : Locates L E) (phrase phrase' : Phrase) (h : phrase.Alike E phrase') :
    Mirrors (ItemsRelocate L) (statements file phrase) (statements file phrase') := by
  -- as with expressions, the reader takes the same line for both phrases
  rw [statements.eq_def file phrase]
  split
  next inner =>
    match h with
    | .mk _ _ _ (.cons hinner .nil) =>
        rw [statements]
        exact statements_move hE inner _ hinner
  next parts =>
    match h with
    | .mk _ _ _ hparts =>
        rw [statements]
        exact simpleStatements_move hE _ _ hparts
  next parts =>
    match h with
    | .mk _ _ _ hparts =>
        rw [statements]
        exact allStatements_move hE parts _ hparts
  next inner =>
    match h with
    | .mk _ _ _ (.cons hinner .nil) =>
        rw [statements]
        exact statements_move hE inner _ hinner
  next inner =>
    match h with
    | .mk _ _ _ (.cons hinner .nil) =>
        rw [statements]
        exact statements_move hE inner _ hinner
  next inner =>
    match h with
    | .mk _ _ _ (.cons hinner .nil) =>
        rw [statements]
        exact statements_move hE inner _ hinner
  next parts =>
    match h with
    | .mk _ _ _ hparts =>
        rw [statements]
        exact decorated_moves hE parts _ hparts .nil
  next parts =>
    match h with
    | .mk hstart hstop _ hparts =>
        rw [statements]
        have hnone : FunctionParts.Move L ⟨"", none, none, []⟩ ⟨"", none, none, []⟩ :=
          ⟨rfl, .none, .none, .nil⟩
        exact (functionParts_move hE parts _ hparts hnone).bind fun _ _ hparts =>
          (hparts.toNode hE hstart hstop .nil).bind fun _ _ hfunction =>
          .pure (.cons hfunction .nil)
  next test body orelse =>
    match h with
    | .mk hstart hstop _ (.cons htest (.cons hbody horelse)) =>
        rw [statements]
        exact mirrors_conditional hE .ifStmt hstart hstop (allStatements_move hE orelse _ horelse)
          (expression_moves hE _ _ htest) (statements_move hE body _ hbody)
  next test body orelse =>
    match h with
    | .mk hstart hstop _ (.cons htest (.cons hbody horelse)) =>
        rw [statements]
        exact mirrors_conditional hE .ifStmt hstart hstop (allStatements_move hE orelse _ horelse)
          (expression_moves hE _ _ htest) (statements_move hE body _ hbody)
  next test body orelse =>
    match h with
    | .mk hstart hstop _ (.cons htest (.cons hbody horelse)) =>
        rw [statements]
        exact mirrors_conditional hE .whileStmt hstart hstop (allStatements_move hE orelse _ horelse)
          (expression_moves hE _ _ htest) (statements_move hE body _ hbody)
  next target iter body orelse =>
    match h with
    | .mk hstart hstop _ (.cons htarget (.cons hiter (.cons hbody horelse))) =>
        rw [statements]
        exact (allStatements_move hE orelse _ horelse).bind fun _ _ horelse =>
          (mirrors_headAt hE .forStmt hstart hstop).bind fun _ _ hhead =>
          (target_moves hE htarget).bind fun _ _ htarget =>
          (expression_moves hE _ _ hiter).bind fun _ _ hiter =>
          (statements_move hE body _ hbody).bind fun _ _ hbody =>
          .pure (.cons (.node hhead (.cons htarget (.cons hiter (.cons (.list hbody)
            (.cons (.list horelse) (.cons moves_absent .nil)))))) .nil)
  next => exact mirrors_misplaced
termination_by sizeOf phrase
decreasing_by
  all_goals
    subst_vars
    simp only [Phrase.mk.sizeOf_spec, List.cons.sizeOf_spec]
    omega

/-- Several statements move with their phrases. -/
theorem allStatements_move (hE : Locates L E) (phrases phrases' : List Phrase)
    (h : AllAlike E phrases phrases') :
    Mirrors (ItemsRelocate L) (allStatements file phrases) (allStatements file phrases') := by
  match h with
  | .nil =>
      rw [allStatements.eq_def]
      exact .pure .nil
  | .cons hphrase hrest =>
      rw [allStatements.eq_def, allStatements.eq_def]
      exact (statements_move hE _ _ hphrase).bind fun _ _ hfirst =>
        (allStatements_move hE _ _ hrest).bind fun _ _ hothers => .pure (hfirst.append hothers)
termination_by sizeOf phrases
decreasing_by
  all_goals
    simp only [List.cons.sizeOf_spec]
    omega

/-- A decorated function moves with its phrases. -/
theorem decorated_moves (hE : Locates L E) (phrases phrases' : List Phrase)
    (h : AllAlike E phrases phrases')
    {decorators decorators' : List Value} (hdecorators : ItemsRelocate L decorators decorators') :
    Mirrors (ItemsRelocate L) (decorated file phrases decorators)
      (decorated file phrases' decorators') := by
  rw [decorated.eq_def file phrases]
  split
  next inner rest =>
    obtain _ | ⟨⟨-, -, -, _ | ⟨hinner, ⟨⟩⟩⟩, hrest⟩ := h
    rw [decorated]
    exact (expression_moves hE _ _ hinner).bind fun _ _ hdecorator =>
      decorated_moves hE rest _ hrest (hdecorators.append (.cons hdecorator .nil))
  next parts rest =>
    obtain _ | ⟨⟨hstart, hstop, -, hparts⟩, -⟩ := h
    rw [decorated]
    exact (functionParts_move hE parts _ hparts ⟨rfl, .none, .none, .nil⟩).bind fun _ _ hparts =>
      (hparts.toNode hE hstart hstop hdecorators).bind fun _ _ hfunction =>
      .pure (.cons hfunction .nil)
  next => exact mirrors_misplaced
  next =>
    match h with
    | .nil =>
        rw [decorated]
        exact .pure .nil
termination_by sizeOf phrases
decreasing_by
  all_goals
    subst_vars
    simp only [Phrase.mk.sizeOf_spec, List.cons.sizeOf_spec]
    omega

/-- The parts of a function move with their phrases. -/
theorem functionParts_move (hE : Locates L E) (phrases phrases' : List Phrase)
    (h : AllAlike E phrases phrases')
    {sofar sofar' : FunctionParts} (hsofar : sofar.Move L sofar') :
    Mirrors (FunctionParts.Move L) (functionParts file phrases sofar)
      (functionParts file phrases' sofar') := by
  rw [functionParts.eq_def file phrases]
  split
  next =>
    match h with
    | .nil =>
        rw [functionParts]
        exact .pure hsofar
  next rest =>
    obtain _ | ⟨⟨-, -, htext, -⟩, hrest⟩ := h
    rw [functionParts]
    exact functionParts_move hE rest _ hrest
      { hsofar with name := congrArg String.ofList (htext.1 rfl) }
  next parts rest =>
    obtain _ | ⟨⟨-, -, -, hparts⟩, hrest⟩ := h
    rw [functionParts]
    exact (parameters_move hE _ _ hparts .empty).bind fun _ _ hparameters =>
      hparameters.toNode.bind fun _ _ harguments =>
      functionParts_move hE rest _ hrest { hsofar with arguments := .some harguments }
  next inner rest =>
    obtain _ | ⟨⟨-, -, -, _ | ⟨hinner, ⟨⟩⟩⟩, hrest⟩ := h
    rw [functionParts]
    exact (expression_moves hE _ _ hinner).bind fun _ _ hvalue =>
      functionParts_move hE rest _ hrest { hsofar with returns := .some hvalue }
  next body rest hidentifier hparameters hreturns =>
    match h with
    | .cons hbody hrest =>
        rw [functionParts]
        · exact (statements_move hE body _ hbody).bind fun _ _ hbody =>
            functionParts_move hE rest _ hrest { hsofar with body := hbody }
        -- it is no name, parameters or annotation, as its rule is that of the first
        · rintro start stop text parts rfl
          cases hbody
          exact hidentifier _ _ _ _ rfl
        · rintro start stop text parts rfl
          cases hbody
          exact hparameters _ _ _ _ rfl
        · rintro start stop text inner rfl
          match hbody with
          | .mk _ _ _ (.cons _ .nil) => exact hreturns _ _ _ _ rfl
termination_by sizeOf phrases
decreasing_by
  all_goals
    subst_vars
    simp only [Phrase.mk.sizeOf_spec, List.cons.sizeOf_spec]
    omega

end

/-! ### Whole texts -/

/-- **Alike texts** are read as trees that differ in lines. -/
theorem moduleTree_moves (hE : Locates L E) {phrases phrases' : List Phrase}
    (h : AllAlike E phrases phrases') :
    Mirrors (Node.Relocates L) (moduleTree file phrases) (moduleTree file phrases') :=
  (allStatements_move hE phrases phrases' h).bind fun _ _ hbody =>
    (mirrors_head .module .none .none).bind fun _ _ hhead =>
    .pure ⟨hhead, .cons (.list hbody) (.cons (.list .nil) .nil)⟩

end Reading

/-! ### Trees without numbers -/

section

variable {f : Nat → Nat}

/-- A head whose lines have moved is the old one on other lines, up to its number. -/
theorem Head.Relocates.anonymous_eq {head head' : Head}
    (h : head.Relocates (Location.OnLine f) head') :
    { head' with id := 0 } = { head.onLines f with id := 0 } := by
  obtain ⟨_, _, location, span⟩ := head
  obtain ⟨_, _, location', span'⟩ := head'
  obtain ⟨rfl, hlocation, hspan⟩ := h
  have hlocation' : location' = location.map (Location.onLines f) := by
    cases hlocation with
    | some h => exact congrArg some h
    | none => rfl
  have hspan' : span' = span.map (Span.onLines f) := by
    cases hspan with
    | @some a b h =>
        obtain ⟨start, stop⟩ := b
        obtain ⟨rfl, rfl⟩ := h
        rfl
    | none => rfl
  subst hlocation' hspan'
  rfl

mutual

/-- But for the numbers of its nodes, the second value is the first on other
lines. -/
theorem Relocates.anonymous_eq : {value value' : Value} → Moves f value value' →
    value'.anonymous = (value.onLines f).anonymous
  | _, _, .scalar _ => rfl
  | _, _, .node hhead hfields => by
      rw [Value.onLines, Value.anonymous, Value.anonymous, hhead.anonymous_eq, hfields.anonymous_eq]
  | _, _, .list hitems => by
      rw [Value.onLines, Value.anonymous, Value.anonymous, hitems.anonymous_eq]

theorem ItemsRelocate.anonymous_eq : {items items' : List Value} →
    ItemsRelocate (Location.OnLine f) items items' →
    Value.anonymousItems items' = Value.anonymousItems (Value.onLinesItems f items)
  | _, _, .nil => rfl
  | _, _, .cons hitem hrest => by
      rw [Value.onLinesItems, Value.anonymousItems, Value.anonymousItems, hitem.anonymous_eq,
        hrest.anonymous_eq]

theorem FieldsRelocate.anonymous_eq : {fields fields' : Fields} →
    FieldsRelocate (Location.OnLine f) fields fields' →
    Value.anonymousFields fields' = Value.anonymousFields (Value.onLinesFields f fields)
  | _, _, .nil => rfl
  | _, _, .cons hvalue hrest => by
      rw [Value.onLinesFields, Value.anonymousFields, Value.anonymousFields, hvalue.anonymous_eq,
        hrest.anonymous_eq]

end

/-- A tree that has moved is the old one on other lines, up to the numbers. -/
theorem Node.Moves.anonymous_eq {tree tree' : Node} (h : tree.Moves f tree') :
    tree'.anonymous = (tree.onLines f).anonymous := by
  rw [Node.anonymous, Node.anonymous, h.head.anonymous_eq, h.fields.anonymous_eq]
  rfl

end

end FunctionIR
