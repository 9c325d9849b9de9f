import FunctionIR.Proofs.Translation.Guards

/-!
# Brackets in a trace

Two of the events of a translation are sent to the trace: that a scope is
entered, and that it is complete.  They are brackets.  What is open after some
of them is told by a stack (`unclosed`), and events are **well bracketed** where
nothing is left open and every scope that is completed is the innermost open
one.

Steps in pairs send well bracketed events if they are followed to the end
(`Paired.unclosed_signals`).  If a value is refused in the middle, a prefix of
these events is sent, and what it leaves open are the scopes around that value
(`Paired.sends`).  These are found without running anything: `located` goes
through the steps and keeps, for every value, the names of the functions that it
is inside of.
-/

namespace FunctionIR

/-! ### Events that are sent -/

/-- The event is sent to the trace. -/
def Event.isSent (event : Event) : Bool := event.trace?.isSome

/-- What a trace hears of some events. -/
def heard (events : List Event) : List Event := events.filter Event.isSent

theorem heard_append (events more : List Event) :
    heard (events ++ more) = heard events ++ heard more := List.filter_append _ _

/-- The entering of a function is heard. -/
theorem heard_entered (name : String) (rest : List Event) :
    heard (.entered name :: rest) = .entered name :: heard rest := List.filter_cons_of_pos rfl

/-- The completion of a function is heard. -/
theorem heard_completed (name : String) (rest : List Event) :
    heard (.completed name :: rest) = .completed name :: heard rest := List.filter_cons_of_pos rfl

/-- What is open after an event, the innermost first, where `live` was open
before.  An event can only complete the innermost scope. -/
def Event.leaves (live : List String) : Event → Option (List String)
  | .entered name => some (name :: live)
  | .completed name =>
    match live with
    | innermost :: outer => if innermost = name then some outer else none
    | [] => none
  | _ => some live

/-- What is open after some events. -/
def unclosed (live : List String) (events : List Event) : Option (List String) :=
  events.foldlM Event.leaves live

/-- The events close what they open, and nothing else. -/
def WellBracketed (events : List Event) : Prop := unclosed [] events = some []

/-- What is left unclosed after one more event. -/
theorem unclosed_cons (live : List String) (event : Event) (rest : List Event) :
    unclosed live (event :: rest) = (event.leaves live).bind (unclosed · rest) := rfl

/-- What is open after some events is what the next ones start with. -/
theorem unclosed_append (live : List String) (events more : List Event) :
    unclosed live (events ++ more) = (unclosed live events).bind (unclosed · more) :=
  List.foldlM_append

/-- What is open around some events does not concern them. -/
theorem unclosed_under {live after : List String} {events : List Event}
    (h : unclosed live events = some after) (outer : List String) :
    unclosed (live ++ outer) events = some (after ++ outer) := by
  induction events generalizing live with
  | nil =>
      cases h
      rfl
  | cons event rest ih =>
      rw [unclosed_cons] at h ⊢
      cases event with
      | entered name => exact ih h
      | completed name =>
          cases live with
          | nil => cases h
          | cons innermost live =>
              rw [List.cons_append]
              simp only [Event.leaves] at h ⊢
              by_cases hname : innermost = name
              · rw [if_pos hname] at h ⊢
                exact ih h
              · rw [if_neg hname] at h
                cases h
      | reached | registered | discounted | refused => exact ih h

/-- Nothing is left open by a scope that is entered and completed, with events
between that leave nothing open. -/
theorem unclosed_bracket {live : List String} {events : List Event} {name : String}
    (h : unclosed (name :: live) events = some (name :: live)) (more : List Event) :
    unclosed live (.entered name :: (events ++ .completed name :: more)) = unclosed live more := by
  rw [unclosed_cons, Event.leaves, Option.bind_some, unclosed_append, h, Option.bind_some,
    unclosed_cons, Event.leaves, if_pos rfl, Option.bind_some]

/-! ### What steps send -/

/-- What following some steps sends, from a scope. -/
def signals : Scope → List Step → List Event
  | _, [] => []
  | scope, .enter name :: rest =>
    .entered (scope.enter name).current :: signals (scope.enter name) rest
  | scope, .leave name :: rest => .completed scope.current :: signals (scope.leave name) rest
  | scope, .visit _ :: rest => signals scope rest
  | scope, .make _ :: rest => signals scope rest

/-- A value that is looked at, and the functions in whose bodies it lies. -/
structure Site where
  visit : Visit
  /-- The names of the functions, outermost first. -/
  names : List String

namespace Site

/-- The value of the site is refused. -/
def isRefused (limit : Nat) (site : Site) : Bool := (site.visit.fault limit).isSome

/-- The site inside the body of a function. -/
def inside (name : String) (site : Site) : Site := { site with names := name :: site.names }

end Site

/-- The sites that steps look at, inside functions of these names. -/
def located : List String → List Step → List Site
  | _, [] => []
  | names, .visit v :: rest => ⟨v, names⟩ :: located names rest
  | names, .make _ :: rest => located names rest
  | names, .enter name :: rest => located (names ++ [name]) rest
  | names, .leave _ :: rest => located names.dropLast rest

/-- The qualified names of the scopes inside functions of these names, the
outermost first. -/
def Scope.openings : Scope → List String → List String
  | _, [] => []
  | scope, name :: names => (scope.enter name).current :: (scope.enter name).openings names

/-- That a rule is applied is not sent. -/
theorem reach_events (limit : Nat) (v : Visit) (t : Translator) :
    ∃ reached, (t.reach limit v).events = t.events ++ reached ∧ heard reached = [] := by
  have hnone : ∃ reached, t.events = t.events ++ reached ∧ heard reached = [] :=
    ⟨[], (List.append_nil _).symm, rfl⟩
  unfold Translator.reach
  split
  · split
    · exact hnone
    · split
      · exact ⟨_, rfl, rfl⟩
      · exact ⟨_, rfl, rfl⟩
      · exact hnone
  · exact hnone

namespace Paired

variable {steps more : List Step}

theorem signals_append (h : Paired steps) (scope : Scope) (more : List Step) :
    signals scope (steps ++ more) = signals scope steps ++ signals scope more := by
  induction h generalizing scope more with
  | nil => rfl
  | visit v _ ih => exact ih scope more
  | make head _ ih => exact ih scope more
  | @inside name steps outer _ _ ih ihouter =>
      simp only [List.cons_append, List.append_assoc, signals, ih, ihouter,
        Scope.leave_enter]

/-- What is done inside a scope is sent between entering and completing it. -/
theorem signals_inside (h : Paired steps) (scope : Scope) (name : String) (more : List Step) :
    signals scope (.enter name :: (steps ++ .leave name :: more)) =
      .entered (scope.enter name).current ::
        (signals (scope.enter name) steps ++
          .completed (scope.enter name).current :: signals scope more) := by
  rw [signals, h.signals_append, signals, Scope.leave_enter]

/-- Steps in pairs send well bracketed events, whatever is open around them. -/
theorem unclosed_signals (h : Paired steps) (scope : Scope) (live : List String) :
    unclosed live (signals scope steps) = some live := by
  induction h generalizing scope live with
  | nil => rfl
  | visit v _ ih => exact ih scope live
  | make head _ ih => exact ih scope live
  | @inside name steps outer hsteps _ ih ihouter =>
      rw [hsteps.signals_inside, unclosed_bracket (ih _ _)]
      exact ihouter scope live

theorem located_append (h : Paired steps) (names : List String) (more : List Step) :
    located names (steps ++ more) = located names steps ++ located names more := by
  induction h generalizing names more with
  | nil => rfl
  | visit v _ ih => exact congrArg (List.cons _) (ih names more)
  | make head _ ih => exact ih names more
  | @inside name steps outer _ _ ih ihouter =>
      simp only [List.cons_append, List.append_assoc, located, ih, ihouter,
        List.dropLast_concat]

/-- The sites of steps inside a function are those sites inside that function. -/
theorem located_cons (h : Paired steps) (name : String) (names : List String) :
    located (name :: names) steps = (located names steps).map (Site.inside name) := by
  induction h generalizing names with
  | nil => rfl
  | visit v _ ih => exact congrArg (List.cons _) (ih names)
  | make head _ ih => exact ih names
  | @inside inner steps outer hsteps _ ih ihouter =>
      simp only [located, hsteps.located_append, List.dropLast_concat, List.map_append]
      rw [← ih, ← ihouter, ← List.cons_append]

/-- The sites of a function are those inside it and those behind it. -/
theorem located_inside (h : Paired steps) (name : String) (more : List Step) :
    located [] (.enter name :: (steps ++ .leave name :: more)) =
      (located [] steps).map (Site.inside name) ++ located [] more := by
  rw [located, h.located_append, List.nil_append, h.located_cons]
  rfl

/-- **What following steps sends.**  If no value is refused, it is all that the
steps send; otherwise it is a prefix of that, and what it leaves open are the
scopes of the functions around the first value that is refused. -/
theorem sends (h : Paired steps) {limit : Nat} {t after : Translator} {refused : Option Fault}
    (hrun : follow limit steps t = (refused, after)) :
    ∃ sent, after.events = t.events ++ sent ∧
      match (located [] steps).find? (Site.isRefused limit) with
      | none => refused = none ∧ heard sent = signals t.scope steps
      | some site => refused = site.visit.fault limit ∧
          heard sent <+: signals t.scope steps ∧
          unclosed [] (heard sent) = some (t.scope.openings site.names).reverse := by
  induction h generalizing t after refused with
  | nil =>
      cases hrun
      exact ⟨[], (List.append_nil _).symm, rfl, rfl⟩
  | @visit v steps _ ih =>
      obtain ⟨reached, hreached, hsilent⟩ := reach_events limit v t
      rw [follow, Step.take] at hrun
      rw [located, List.find?_cons, Site.isRefused]
      cases hfault : v.fault limit with
      | none =>
          rw [hfault] at hrun
          obtain ⟨sent, hsent, hfound⟩ := ih hrun
          refine ⟨reached ++ sent, by rw [hsent, hreached, List.append_assoc], ?_⟩
          rw [heard_append, hsilent, List.nil_append]
          rw [reach_scope] at hfound
          exact hfound
      | some fault =>
          rw [hfault] at hrun
          cases hrun
          refine ⟨reached, hreached, hfault.symm, ?_⟩
          rw [hsilent]
          exact ⟨List.nil_prefix, rfl⟩
  | make head _ ih => exact @ih { t with nextId := t.nextId + 1 } after refused hrun
  | @inside name steps outer hsteps _ ih ihouter =>
      have henter : follow limit (.enter name :: (steps ++ .leave name :: outer)) t =
          follow limit (steps ++ .leave name :: outer) ((Step.enter name).take limit t).2 := rfl
      rw [henter, follow_append] at hrun
      have hscope := hsteps.scope_eq limit ((Step.enter name).take limit t).2
      obtain ⟨refused', after', hfollow⟩ : ∃ refused' after',
          follow limit steps ((Step.enter name).take limit t).2 = (refused', after') := ⟨_, _, rfl⟩
      obtain ⟨sent, hsent, hfound⟩ := ih hfollow
      rw [hfollow] at hrun hscope
      have hrefused : Site.isRefused limit ∘ Site.inside name = Site.isRefused limit := rfl
      rw [located_inside hsteps, List.find?_append, List.find?_map, hrefused]
      cases hfind : (located [] steps).find? (Site.isRefused limit) with
      | some site =>
          -- The scope stays open around those that are open inside it.
          rw [hfind] at hfound
          obtain ⟨hfault, hbegins, hopen⟩ := hfound
          have hsite : site.isRefused limit = true := List.find?_some hfind
          obtain ⟨fault, hsome⟩ := Option.isSome_iff_exists.mp hsite
          rw [hsome] at hfault
          cases hfault
          cases hrun
          refine ⟨.entered (t.scope.enter name).current :: sent, ?_, hsome.symm, ?_, ?_⟩
          · rw [hsent, Step.take, List.append_assoc]
            rfl
          · rw [heard_entered, hsteps.signals_inside, List.prefix_cons_inj]
            exact hbegins.trans (List.prefix_append _ _)
          · have hunder := unclosed_under hopen [(t.scope.enter name).current]
            rw [heard_entered, unclosed_cons, Event.leaves, Option.bind_some]
            refine hunder.trans ?_
            simp only [Scope.openings, Site.inside, List.reverse_cons]
            rfl
      | none =>
          rw [hfind] at hfound
          obtain ⟨hnone, hheard⟩ := hfound
          cases hnone
          have hafter : after'.scope = t.scope.enter name := hscope rfl
          obtain ⟨more, hmore, hfound⟩ := @ihouter ((Step.leave name).take limit after').2 after
            refused hrun
          have hleave : ((Step.leave name).take limit after').2.scope = t.scope := by
            rw [Step.take, hafter]
            exact Scope.leave_enter name t.scope
          refine ⟨.entered (t.scope.enter name).current ::
            (sent ++ .completed (t.scope.enter name).current :: more), ?_, ?_⟩
          · rw [hmore, Step.take, hsent, hafter]
            simp [Step.take]
          · have hheard : heard (.entered (t.scope.enter name).current ::
                (sent ++ .completed (t.scope.enter name).current :: more)) =
                .entered (t.scope.enter name).current ::
                  (signals (t.scope.enter name) steps ++
                    .completed (t.scope.enter name).current :: heard more) := by
              rw [heard_entered, heard_append, heard_completed, hheard]
              rfl
            rw [hleave] at hfound
            simp only [Option.map_none, Option.none_or, hheard]
            cases hfind : (located [] outer).find? (Site.isRefused limit) with
            | none =>
                rw [hfind] at hfound
                refine ⟨hfound.1, ?_⟩
                rw [hfound.2, hsteps.signals_inside]
            | some site =>
                rw [hfind] at hfound
                obtain ⟨hfault, hbegins, hopen⟩ := hfound
                refine ⟨hfault, ?_, ?_⟩
                · rw [hsteps.signals_inside, List.prefix_cons_inj, List.prefix_append_right_inj,
                    List.prefix_cons_inj]
                  exact hbegins
                · rw [unclosed_bracket (hsteps.unclosed_signals _ _)]
                  exact hopen

end Paired

end FunctionIR
