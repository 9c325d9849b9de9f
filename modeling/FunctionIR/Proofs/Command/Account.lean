import FunctionIR.Proofs.Command.Files

/-!
# The account of a run

A run that translates has to account for everything it was given.  Its
operands come to paths: a pattern to what it finds, any other operand to
itself (`operandPaths`).  Every path that brings no function is told of by one
report of a fault, and nothing else that is told looks like one
(`filter_tellsFault_notes`).  What the other paths bring is the document, and
the exit code tells whether anything at all is missing
(`account_of_translation`).

How patterns are searched for, what the files hold, and whether the document
can be saved are left open.  In a snapshot they are as the snapshot has it
(`Entry.run_of_invocation`), and so the whole program accounts for a command line
that translates (`Entry.account_of_run`).
-/

namespace FunctionIR.Command

/-! ### Operands -/

/-- The paths that an operand stands for: what it finds if it is a pattern, and
itself otherwise. -/
def operandPaths (search : Glob → List String) (operand : String) : List String :=
  if Glob.isPattern operand then
    match Glob.ofText operand with
    | .ok glob => search glob
    | .error _ => []
  else [operand]

section

variable (search : Glob → Id (List String))

/-- The paths a selection goes through are those of its operand. -/
theorem paths_ofOperand (operand : String) :
    (Selection.ofOperand search operand).run.paths = operandPaths search operand := by
  unfold Selection.ofOperand operandPaths
  split
  · cases Glob.ofText operand with
    | error error => rfl
    | ok glob =>
        change (if (search glob).isEmpty then Selection.unmatched operand
          else .found (search glob)).paths = search glob
        cases hfound : search glob with
        | nil => rfl
        | cons path rest => rfl
  · rfl

/-- There is a complaint about the operands that come to no path. -/
theorem complaint_ofOperand (operand : String) :
    (Selection.ofOperand search operand).run.complaint = none ↔ operandPaths search operand ≠ [] := by
  unfold Selection.ofOperand operandPaths
  split
  · cases Glob.ofText operand with
    | error error => exact ⟨nofun, fun h => absurd rfl h⟩
    | ok glob =>
        change (if (search glob).isEmpty then Selection.unmatched operand
          else .found (search glob)).complaint = none ↔ search glob ≠ []
        cases hfound : search glob with
        | nil => exact ⟨nofun, fun h => absurd rfl h⟩
        | cons path rest => exact ⟨fun _ => nofun, fun _ => rfl⟩
  · exact ⟨fun _ => nofun, fun _ => rfl⟩

/-- What the operands come to. -/
def selected (operands : List String) : List Selection :=
  operands.map fun operand => (Selection.ofOperand search operand).run

/-- The selections of a list of operands go through the paths of the operands, in turn. -/
theorem paths_selected (operands : List String) :
    (selected search operands).flatMap Selection.paths =
      operands.flatMap (operandPaths search) := by
  rw [selected, List.flatMap_map]
  exact congrArg (operands.flatMap ·) (funext fun operand => paths_ofOperand search operand)

/-- No selection complains exactly if every operand has a path. -/
theorem complaints_selected (operands : List String) :
    ((selected search operands).filterMap Selection.complaint).isEmpty = true ↔
      ∀ operand ∈ operands, operandPaths search operand ≠ [] := by
  simp only [selected, List.isEmpty_iff, List.filterMap_eq_nil_iff, List.mem_map,
    forall_exists_index, and_imp, forall_apply_eq_imp_iff₂, complaint_ofOperand]

end

/-! ### What is told -/

/-- The line is a report of a fault. -/
def tellsFault (line : String) : Bool := "CANOPY | ".toList.isPrefixOf line.toList

/-- What a fault reports tells of a fault. -/
theorem tellsFault_report (fault : Fault) : tellsFault fault.report = true := by
  simp only [tellsFault, Fault.report, String.toList_append, List.append_assoc]
  exact List.isPrefixOf_iff_prefix.mpr (List.prefix_append _ _)

/-- What begins with another character is no report. -/
theorem tellsFault_of_head {line : String} {c : Char} (h : line.toList.head? = some c)
    (hc : c ≠ 'C') : tellsFault line = false := by
  have hmark : "CANOPY | ".toList = 'C' :: "ANOPY | ".toList := by simp
  rw [tellsFault, hmark]
  cases hline : line.toList with
  | nil => rfl
  | cons first rest =>
      rw [hline] at h
      obtain rfl : first = c := Option.some.inj h
      have hfirst : ('C' == first) = false := beq_eq_false_iff_ne.mpr hc.symm
      rw [List.isPrefixOf_cons_cons, hfirst, Bool.false_and]

/-- A line of the log does not tell of a fault. -/
theorem tellsFault_line (entry : LogEntry) : tellsFault entry.line = false := by
  have hkept (rest : List Char) : (Text.keptChars .text ('[' :: rest)).head? = some '[' := by
    have hkeeps : Text.ControlState.text.keeps '[' = true := by decide
    rw [Text.keptChars, if_pos hkeeps]
    rfl
  refine tellsFault_of_head (c := '[') ?_ (by decide)
  simp only [LogEntry.line, Text.withoutControls, String.toList_append, String.toList_ofList,
    List.append_assoc]
  exact hkept _

/-- The complaint about an operand does not tell of a fault of the translation. -/
theorem tellsFault_complaint {selection : Selection} {complaint : String}
    (h : selection.complaint = some complaint) : tellsFault complaint = false := by
  cases selection with
  | found paths => cases h
  | unmatched pattern =>
      obtain rfl := Option.some.inj h
      refine tellsFault_of_head (c := 'P') ?_ (by decide)
      simp only [String.toList_append]
      rfl
  | invalid pattern error =>
      obtain rfl := Option.some.inj h
      refine tellsFault_of_head (c := 'I') ?_ (by decide)
      simp only [String.toList_append]
      rfl

/-- A drawn table does not tell of a fault. -/
theorem tellsFault_drawTable (rows : List (List String)) : tellsFault (drawTable rows) = false := by
  refine tellsFault_of_head (c := '┌') ?_ (by decide)
  have hjoined (first : String) (rest : List String) (h : first.toList.head? = some '┌') :
      ("\n".intercalate (first :: rest)).toList.head? = some '┌' := by
    cases rest with
    | nil => rwa [String.intercalate_singleton]
    | cons second rest =>
        simp only [String.intercalate_cons_cons, String.toList_append, List.append_assoc,
          List.head?_append, h, Option.some_or]
  refine hjoined _ _ ?_
  simp only [tableRule, String.toList_append, List.append_assoc]
  rfl

/-- The message about a file that cannot be written does not tell of a fault. -/
theorem tellsFault_failedToWrite (path reason : String) :
    tellsFault ("Failed to write " ++ path ++ ": " ++ reason) = false := by
  refine tellsFault_of_head (c := 'F') ?_ (by decide)
  simp only [String.toList_append, List.append_assoc]
  rfl

/-- No complaint about an operand is kept by the filter for faults. -/
theorem filter_tellsFault_complaints (selections : List Selection) :
    (selections.filterMap Selection.complaint).filter tellsFault = [] := by
  refine List.filter_eq_nil_iff.mpr fun line hline => ?_
  obtain ⟨selection, -, hcomplaint⟩ := List.mem_filterMap.mp hline
  rw [tellsFault_complaint hcomplaint]
  exact Bool.false_ne_true

/-- The closing table is not kept by the filter for faults. -/
theorem filter_tellsFault_closing (drawn : Bool) (rows : List (List String)) :
    (if drawn then [drawTable rows] else []).filter tellsFault = [] := by
  cases drawn with
  | false => rfl
  | true =>
      rw [if_pos rfl, List.filter_singleton, tellsFault_drawTable]
      rfl

/-- The fault that an attempt ended in. -/
def Attempt.fault? (attempt : Attempt) : Option Fault :=
  match attempt.outcome with
  | .ok _ => none
  | .error fault => some fault

/-- No line of the log is a report. -/
theorem filter_tellsFault_logLines (verbosity : Nat) (entries : List LogEntry) :
    (logLines verbosity entries).filter tellsFault = [] := by
  refine List.filter_eq_nil_iff.mpr fun line hline => ?_
  obtain ⟨entry, -, rfl⟩ := List.mem_map.mp hline
  rw [tellsFault_line]
  exact Bool.false_ne_true

/-- **A failed attempt is told of by one report**, and no other attempt by any. -/
theorem filter_tellsFault_notes (verbosity : Nat) (attempts : List Attempt) :
    (attempts.flatMap (Attempt.notes verbosity)).filter tellsFault =
      (attempts.filterMap Attempt.fault?).map Fault.report := by
  induction attempts with
  | nil => rfl
  | cons attempt rest ih =>
      obtain ⟨outcome, events⟩ := attempt
      rw [List.flatMap_cons, List.filter_append, ih, Attempt.notes, List.filter_append,
        filter_tellsFault_logLines, List.nil_append, List.filterMap_cons]
      cases outcome with
      | ok done => rfl
      | error fault =>
          have hreport : [fault.report].filter tellsFault = [fault.report] := by
            rw [List.filter_singleton, tellsFault_report]
            rfl
          rw [hreport]
          rfl

/-! ### The report of a run -/

section

variable (verbosity : Nat) (config : Config) (summary : Bool) (selections : List Selection)
  (contents : Contents)

/-- The attempts of a run, and the session after it. -/
def attempted (paths : List String) : List Attempt × Session :=
  translateFiles contents paths (opening config)

/-- What a path brings by itself. -/
def entry (path : String) : Option (String × Function) :=
  brought (translateFile contents path (opening config)).1

/-- Every path brings its entry. -/
theorem brought_attempted (paths : List String) :
    (attempted config contents paths).1.map (fun attempt => brought attempt.outcome) =
      paths.map (entry config contents) :=
  brought_translateFiles contents paths (opening config)

/-- There is one attempt for each path. -/
theorem length_attempted (paths : List String) :
    (attempted config contents paths).1.length = paths.length := by
  have hlengths := congrArg List.length (brought_attempted config contents paths)
  rwa [List.length_map, List.length_map] at hlengths

end

/-- There are as many functions as attempts if every attempt brought one. -/
theorem length_functions_eq {attempts : List Attempt} :
    (functions attempts).length = attempts.length ↔
      ∀ entry ∈ attempts.map (fun attempt => brought attempt.outcome), entry.isSome = true := by
  rw [functions, translated, List.length_map, List.length_filterMap_eq_countP,
    List.countP_eq_length, List.forall_mem_map]
  simp only [brought, Option.isSome_map]

/-- There are at most as many functions as attempts. -/
theorem length_functions_le (attempts : List Attempt) :
    (functions attempts).length ≤ attempts.length := by
  rw [functions, translated, List.length_map]
  exact List.length_filterMap_le _ _

/-- The functions are what the attempts brought. -/
theorem map_anonymous_functions (attempts : List Attempt) :
    (functions attempts).map Function.anonymous =
      (attempts.map fun attempt => brought attempt.outcome).filterMap (Option.map Prod.snd) := by
  rw [functions, translated, List.map_map, List.map_filterMap, List.filterMap_map]
  refine List.filterMap_congr fun attempt _ => ?_
  simp only [brought, Function.comp_apply, Option.map_map]
  rfl

/-- Failed attempts and functions make up all attempts. -/
theorem length_faults (attempts : List Attempt) :
    (attempts.filterMap Attempt.fault?).length =
      (attempts.map fun attempt => brought attempt.outcome).countP Option.isNone := by
  rw [List.length_filterMap_eq_countP, List.countP_map]
  refine List.countP_congr fun attempt _ => ?_
  obtain ⟨outcome, events⟩ := attempt
  cases outcome <;> simp [Attempt.fault?, brought, Except.toOption]

/-- Where the document of a run goes: to the standard output, or to the file that
is named.  Without a document neither gets any text. -/
structure Emits (report : Report) (output refusal : Option String) (document : Option Json) :
    Prop where
  stdout : (report.outcome output refusal).stdout =
    if output = none then linesText (document.map Json.indented).toList else ""
  saves : report.saves output =
    output.bind fun path => document.map fun json => (path, json.indented)

/-- A report whose document is the indented form of a value puts that value out. -/
theorem Report.emits {report : Report} {document : Option Json}
    (h : report.document = document.map Json.indented) (output refusal : Option String) :
    Emits report output refusal document := by
  have hsaves : report.saves output =
      output.bind fun path => document.map fun json => (path, json.indented) := by
    cases output with
    | none => rfl
    | some path =>
        simp only [Report.saves, h]
        cases document <;> rfl
  refine ⟨?_, hsaves⟩
  unfold Report.outcome
  rw [hsaves, h]
  cases output <;> cases document <;> cases refusal <;> rfl

section

variable (verbosity : Nat) (operands : List String) (output : Option String) (config : Config)
  (summary : Bool) (search : Glob → Id (List String)) (contents : Contents)

/-- The report of a run that translates, by what its operands come to. -/
theorem report_translate :
    let task : Task := .translate operands output config summary
    let paths := operands.flatMap (operandPaths search)
    let run := attempted config contents paths
    let complaints := (selected search operands).filterMap Selection.complaint
    Invocation.report ⟨verbosity, task⟩ (task.select search).run contents =
      { notes := complaints ++ run.1.flatMap (Attempt.notes verbosity) ++
          logLines verbosity [.totals (functions run.1).length paths.length run.2.registry.length]
        document := (documentOf paths (functions run.1)).map Json.indented
        closing :=
          if summary && !(translated run.1).isEmpty then
            [drawTable ((translated run.1).map fun (file, f) => tableRow file f)]
          else []
        failed := !complaints.isEmpty || (functions run.1).length != run.1.length } := by
  intro task paths run complaints
  have hselect : (task.select search).run = selected search operands := List.idRun_mapM
  have hlength : (translated run.1).length = (functions run.1).length := (List.length_map _).symm
  simp only [Invocation.report, hselect, task, translateReport, paths_selected]
  rw [← hlength]
  rfl

end

/-- What is told of a run: its notes, and then either the rest or why the document
was not saved. -/
theorem Report.told (report : Report) (output refusal : Option String) :
    ∃ more, (report.outcome output refusal).stderr = linesText (report.notes ++ more) ∧
      (more = report.closing ∨
        ∃ path reason, more = ["Failed to write " ++ path ++ ": " ++ reason]) := by
  unfold Report.outcome
  split
  · exact ⟨_, rfl, .inr ⟨_, _, rfl⟩⟩
  · exact ⟨_, rfl, .inl rfl⟩
  · exact ⟨_, rfl, .inl rfl⟩

/-- The exit code is 0 where nothing failed and nothing was kept from being
saved. -/
theorem Report.code_eq_zero (report : Report) (output refusal : Option String) :
    (report.outcome output refusal).code = 0 ↔
      report.failed = false ∧ (report.saves output = none ∨ refusal = none) := by
  have hexit (failed : Bool) : exitCode failed = 0 ↔ failed = false := by
    cases failed <;> decide
  unfold Report.outcome
  cases report.saves output with
  | none => simp [hexit]
  | some saved =>
      cases refusal with
      | none => simp [hexit]
      | some reason => simp

/-- The document of a run in words: there is none without functions, a function by
itself if its path is the only one, and otherwise an array. -/
theorem documentOf_cases {paths : List String} {functions : List Function}
    (hlength : functions.length ≤ paths.length) :
    (functions = [] ∧ documentOf paths functions = none) ∨
    (∃ path function, paths = [path] ∧ functions = [function] ∧
      documentOf paths functions = some (function.toFragment.toJson true)) ∨
    (functions ≠ [] ∧ paths.length ≠ 1 ∧ documentOf paths functions =
      some (.array (functions.map fun function => function.toFragment.toJson true))) := by
  match functions, paths with
  | [], paths => exact .inl ⟨rfl, by cases paths <;> rfl⟩
  | [function], [path] => exact .inr (.inl ⟨path, function, rfl, rfl, rfl⟩)
  | function :: rest, [] => exact absurd hlength (Nat.not_succ_le_zero _)
  | function :: second :: rest, [path] =>
      exact absurd (Nat.le_of_succ_le_succ hlength) (Nat.not_succ_le_zero _)
  | function :: rest, path :: other :: others =>
      refine .inr (.inr ⟨List.cons_ne_nil _ _, by simp, ?_⟩)
      cases rest <;> rfl

section

variable (verbosity : Nat) (operands : List String) (output : Option String) (config : Config)
  (summary : Bool) (search : Glob → Id (List String)) (contents : Contents)
  (refusal : Option String)

/-- What is told of a run holds one report for each path that brings no function. -/
theorem told_of_translation :
    let task : Task := .translate operands output config summary
    let report := Invocation.report ⟨verbosity, task⟩ (task.select search).run contents
    let paths := operands.flatMap (operandPaths search)
    ∃ told, (report.outcome output refusal).stderr = linesText told ∧
      told.filter tellsFault =
        ((attempted config contents paths).1.filterMap Attempt.fault?).map Fault.report ∧
      (told.filter tellsFault).length =
        paths.countP fun path => (entry config contents path).isNone := by
  intro task report paths
  have hreport : report = _ :=
    report_translate verbosity operands output config summary search contents
  obtain ⟨more, hstderr, hmore⟩ := report.told output refusal
  have hquiet : more.filter tellsFault = [] := by
    rcases hmore with rfl | ⟨path, reason, rfl⟩
    · rw [hreport]
      exact filter_tellsFault_closing _ _
    · rw [List.filter_singleton, tellsFault_failedToWrite]
      rfl
  have hfilter : (report.notes ++ more).filter tellsFault =
      ((attempted config contents paths).1.filterMap Attempt.fault?).map Fault.report := by
    rw [List.filter_append, hquiet, List.append_nil, hreport, List.filter_append,
      List.filter_append, filter_tellsFault_complaints, filter_tellsFault_notes,
      filter_tellsFault_logLines, List.nil_append, List.append_nil]
  refine ⟨report.notes ++ more, hstderr, hfilter, ?_⟩
  rw [hfilter, List.length_map, length_faults, brought_attempted, List.countP_map]
  rfl

/-- The document of a run has the functions that were brought: a single one by itself if
there is no other path. -/
theorem document_of_translation :
    let task : Task := .translate operands output config summary
    let report := Invocation.report ⟨verbosity, task⟩ (task.select search).run contents
    let paths := operands.flatMap (operandPaths search)
    let done := functions (attempted config contents paths).1
    ∃ document, Emits report output refusal document ∧
      ((done = [] ∧ document = none) ∨
      (∃ path function, paths = [path] ∧ done = [function] ∧
        document = some (function.toFragment.toJson true)) ∨
      (done ≠ [] ∧ paths.length ≠ 1 ∧
        document = some (.array (done.map fun function => function.toFragment.toJson true)))) := by
  intro task report paths done
  have hreport : report = _ :=
    report_translate verbosity operands output config summary search contents
  have hdone : done.length ≤ paths.length :=
    length_attempted config contents paths ▸ length_functions_le (attempted config contents paths).1
  exact ⟨_, Report.emits (by rw [hreport]) output refusal, documentOf_cases hdone⟩

/-- The exit code is 0 if nothing is missing. -/
theorem code_of_translation :
    let task : Task := .translate operands output config summary
    let report := Invocation.report ⟨verbosity, task⟩ (task.select search).run contents
    let paths := operands.flatMap (operandPaths search)
    (report.outcome output refusal).code = 0 ↔
      (∀ operand ∈ operands, operandPaths search operand ≠ []) ∧
      (∀ path ∈ paths, (entry config contents path).isSome = true) ∧
      (report.saves output = none ∨ refusal = none) := by
  intro task report paths
  have hreport : report = _ :=
    report_translate verbosity operands output config summary search contents
  have hcomplaints := complaints_selected search operands
  have hall : (functions (attempted config contents paths).1).length =
        (attempted config contents paths).1.length ↔
      ∀ path ∈ paths, (entry config contents path).isSome = true := by
    rw [length_functions_eq, brought_attempted, List.forall_mem_map]
  rw [Report.code_eq_zero, ← hcomplaints, ← hall, ← and_assoc]
  refine and_congr_left' ?_
  rw [hreport, Bool.or_eq_false_iff, Bool.not_eq_false', bne_eq_false_iff_eq]

end

/-- **A run that translates accounts for every input.**  Every path brings what it
would bring as the only one, but for numbers.  What is told holds one report for
each path that brings no function.  The document has the functions in the order
of their paths; their numbers are all different, and the registry lists them.
The exit code is 0 if and only if every operand came to a path, every path
brought a function, and the document was not kept from being saved. -/
theorem account_of_translation (verbosity : Nat) (operands : List String)
    (output : Option String) (config : Config) (summary : Bool)
    (search : Glob → Id (List String)) (contents : Contents) (refusal : Option String) :
    let task : Task := .translate operands output config summary
    let report := Invocation.report ⟨verbosity, task⟩ (task.select search).run contents
    let outcome := report.outcome output refusal
    let paths := operands.flatMap (operandPaths search)
    let run := attempted config contents paths
    let done := functions run.1
    run.1.map (fun attempt => brought attempt.outcome) = paths.map (entry config contents) ∧
    (∃ told, outcome.stderr = linesText told ∧
      told.filter tellsFault = (run.1.filterMap Attempt.fault?).map Fault.report ∧
      (told.filter tellsFault).length =
        paths.countP fun path => (entry config contents path).isNone) ∧
    (∃ document, Emits report output refusal document ∧
      ((done = [] ∧ document = none) ∨
      (∃ path function, paths = [path] ∧ done = [function] ∧
        document = some (function.toFragment.toJson true)) ∨
      (done ≠ [] ∧ paths.length ≠ 1 ∧
        document = some (.array (done.map fun function => function.toFragment.toJson true))))) ∧
    done.map Function.anonymous =
      paths.filterMap (fun path => (entry config contents path).map Prod.snd) ∧
    (done.flatMap fun function => function.toFragment.ids).Nodup ∧
    run.2.registry = done.map Function.registration ∧
    (outcome.code = 0 ↔
      (∀ operand ∈ operands, operandPaths search operand ≠ []) ∧
      (∀ path ∈ paths, (entry config contents path).isSome = true) ∧
      (report.saves output = none ∨ refusal = none)) := by
  intro task report outcome paths run done
  have hbrought : run.1.map (fun attempt => brought attempt.outcome) =
      paths.map (entry config contents) := brought_attempted config contents paths
  refine ⟨hbrought,
    told_of_translation verbosity operands output config summary search contents refusal,
    document_of_translation verbosity operands output config summary search contents refusal,
    ?_, ?_, registry_translateFiles contents paths (opening config),
    code_of_translation verbosity operands output config summary search contents refusal⟩
  · rw [map_anonymous_functions, hbrought, List.filterMap_map]
    rfl
  · exact (ids_translateFiles contents paths (opening config)).1.imp Nat.ne_of_lt

/-- A run in a snapshot goes by what the snapshot finds and holds, and by whether
the document can be saved in it. -/
theorem Entry.run_of_invocation (root : Entry) {args : List String} {invocation : Invocation}
    (h : Invocation.ofArgs args = some invocation) :
    let selections : List Selection :=
      (invocation.task.select (m := Id) fun glob => glob.search root.view).run
    let report := invocation.report selections fun path =>
      (root.readText path).mapError Obstacle.message
    ∃ refusal, (root.run args).1 = report.outcome invocation.task.output refusal ∧
      (refusal = none ↔ ∀ path text, report.saves invocation.task.output = some (path, text) →
        ∃ after, root.save path text = .ok after) := by
  intro selections report
  unfold run
  rw [h]
  dsimp only
  split
  next hsaves =>
    have hnone : report.saves invocation.task.output = none := hsaves
    refine ⟨none, rfl, fun _ path text hsome => ?_, fun _ => rfl⟩
    rw [hnone] at hsome
    cases hsome
  next path text hsaves =>
    have hsome : report.saves invocation.task.output = some (path, text) := hsaves
    rw [hsome]
    split
    next after hsave =>
      refine ⟨none, rfl, fun _ _ _ hsaved => ?_, fun _ => rfl⟩
      obtain ⟨rfl, rfl⟩ := Prod.mk.inj (Option.some.inj hsaved)
      exact ⟨after, hsave⟩
    next obstacle hsave =>
      refine ⟨some obstacle.message, rfl, nofun, fun hall => ?_⟩
      obtain ⟨after, hok⟩ := hall path text rfl
      rw [hsave] at hok
      cases hok

/-- **The program accounts for a command line that translates**, by what the snapshot
finds and holds.  It tells of each path that brings no function by one report, the
standard output has the document unless a file is named for it, and the exit code is 0 if
and only if every operand came to a path, every path brought a function, and the document
could be saved if it was to be. -/
theorem Entry.account_of_run {root : Entry} {args operands : List String} {verbosity : Nat}
    {output : Option String} {config : Config} {summary : Bool}
    (h : Invocation.ofArgs args = some ⟨verbosity, .translate operands output config summary⟩) :
    let task : Task := .translate operands output config summary
    let search : Glob → Id (List String) := fun glob => glob.search root.view
    let contents : Contents := fun path => (root.readText path).mapError Obstacle.message
    let report := Invocation.report ⟨verbosity, task⟩ (task.select search).run contents
    let outcome := (root.run args).1
    let paths := operands.flatMap (operandPaths search)
    let done := functions (attempted config contents paths).1
    (∃ told, outcome.stderr = linesText told ∧
      (told.filter tellsFault).length =
        paths.countP fun path => (entry config contents path).isNone) ∧
    (∃ document : Option Json,
      outcome.stdout =
        (if output = none then linesText (document.map Json.indented).toList else "") ∧
      ((done = [] ∧ document = none) ∨
      (∃ path function, paths = [path] ∧ done = [function] ∧
        document = some (function.toFragment.toJson true)) ∨
      (done ≠ [] ∧ paths.length ≠ 1 ∧
        document = some (.array (done.map fun function => function.toFragment.toJson true))))) ∧
    (outcome.code = 0 ↔
      (∀ operand ∈ operands, operandPaths search operand ≠ []) ∧
      (∀ path ∈ paths, (entry config contents path).isSome = true) ∧
      ∀ path text, report.saves output = some (path, text) →
        ∃ after, root.save path text = .ok after) := by
  intro task search contents report outcome paths done
  obtain ⟨refusal, hrun, hrefusal⟩ := root.run_of_invocation h
  have houtcome : outcome = report.outcome output refusal := hrun
  rw [houtcome]
  obtain ⟨told, hstderr, -, hlength⟩ :=
    told_of_translation verbosity operands output config summary search contents refusal
  obtain ⟨document, hemits, hcases⟩ :=
    document_of_translation verbosity operands output config summary search contents refusal
  refine ⟨⟨told, hstderr, hlength⟩, ⟨document, hemits.stdout, hcases⟩, ?_⟩
  have hsaved : (report.saves output = none ∨ refusal = none) ↔
      ∀ path text, report.saves output = some (path, text) →
        ∃ after, root.save path text = .ok after := by
    refine Iff.trans ⟨fun h => h.elim (fun hnone => hrefusal.mpr fun path text hsome => ?_) id, .inr⟩
      hrefusal
    have hsome : report.saves output = some (path, text) := hsome
    rw [hnone] at hsome
    cases hsome
  rw [← hsaved]
  exact code_of_translation verbosity operands output config summary search contents refusal

end FunctionIR.Command
