import FunctionIR.Proofs.Listing.Compound

/-!
# Functions

A function is laid out with its parameters and its decorators.  The
decorators stand on lines of their own at the margin of the function, and the
last of them is followed by the word `def`.
-/

namespace FunctionIR.Listing

open Grammar Grammar.Pattern Printing Reading

variable {file : String} {n : Nat} {margin : List (List Char)} {rest : List Char}

/-! ### Parameters -/

/-- A parameter ends before a comma or the closing parenthesis. -/
def EndsParameter (follow : List Char) : Prop :=
  ∃ c more, follow = c :: more ∧ (c = ',' ∨ c = ')')

/-- Behind a parameter nothing of it goes on. -/
theorem EndsParameter.misses {p : Pattern} {follow : List Char} (h : EndsParameter follow)
    (hp : p.refuses 16 ⟨[','], false⟩ = true ∧ p.refuses 16 ⟨[')'], false⟩ = true) :
    p.Misses follow := by
  obtain ⟨c, more, rfl, rfl | rfl⟩ := h
  · exact misses_of_refuses _ hp.1 (by decide) (Outlook.sees_append _ _)
  · exact misses_of_refuses _ hp.2 (by decide) (Outlook.sees_append _ _)

/-- No blanks come behind a parameter. -/
theorem EndsParameter.clear_eq {follow : List Char} (h : EndsParameter follow) :
    clear follow = follow := by
  obtain ⟨c, more, rfl, rfl | rfl⟩ := h
  · exact clear_cons (by decide) (by decide) (by decide) _
  · exact clear_cons (by decide) (by decide) (by decide) _

/-- No name goes on behind a parameter. -/
theorem EndsParameter.bounded {follow : List Char} (h : EndsParameter follow) :
    Bounded follow := by
  obtain ⟨c, more, rfl, rfl | rfl⟩ := h
  · rintro d _ ⟨⟩
    decide
  · rintro d _ ⟨⟩
    decide

/-- **A name is read as a parameter.** -/
theorem takes_parameter (ident : Identifier) {follow : List Char} (h : EndsParameter follow) :
    parameter.Takes (ident.text ++ follow) follow (IsParameter ident.text) := by
  have hbefore : ∀ q ∈ [Pattern.rule .kwargsParameter, .rule .varargsParameter,
      .rule .positionalMarker], q.Misses (ident.text ++ follow) := by
    obtain ⟨c, chars, htext, hc⟩ := ident.starts
    have hlit : ∀ (word : String) {d : Char} {more : List Char}, word.toList = d :: more →
        CharClass.nameStart.holds d = false → (lit word).Misses (ident.text ++ follow) := by
      intro word d more hword hd
      rw [htext]
      refine misses_lit hword ?_
      rintro c' _ ⟨⟩ rfl
      rw [hc] at hd
      cases hd
    simp only [List.mem_cons, List.not_mem_nil, or_false, forall_eq_or_imp, forall_eq]
    exact ⟨Misses.rule (r := .kwargsParameter) rfl (hlit "**" rfl (by decide)).seq,
      Misses.rule (r := .varargsParameter) rfl (hlit "*" rfl (by decide)).seq,
      Misses.rule (r := .positionalMarker) rfl (hlit "/" rfl (by decide))⟩
  have hhint : (Pattern.rule .typeHint).Misses (clear follow) := by
    rw [h.clear_eq]
    exact h.misses (by decide)
  have hdefault : (Pattern.rule .defaultValue).Misses (clear (clear follow)) := by
    rw [clear_clear, h.clear_eq]
    exact h.misses (by decide)
  have hend := (hhint.opt.seq hdefault.opt).mono fun _ h => Both.of_nothing h
  have hpattern := (ident.takes h.bounded).seq hend.of_clear.of_clear
  have hrule := Takes.rule (r := .plainParameter) rfl rfl hpattern
  refine (Takes.nth [.rule .kwargsParameter, .rule .varargsParameter,
    .rule .positionalMarker, .rule .plainParameter] 3 (by decide) hbefore hrule).mono ?_
  rintro phrases ⟨start, stop, text, parts, rfl, hparts⟩
  obtain ⟨start', stop', rfl⟩ := Both.to_nothing hparts
  exact ⟨start, stop, text, start', stop', rfl⟩

/-- **The parameters of a function** are the names between its parentheses. -/
theorem takes_parameters (parameters : List Identifier) (more : List Char) :
    (Pattern.opt (.rule .parameters)).Takes (parametersText parameters ++ ')' :: more)
      (')' :: more) (IsParameters (parameters.map Identifier.text)) := by
  have hclosing : EndsParameter (')' :: more) := ⟨')', more, rfl, .inr rfl⟩
  have hmisses : ∀ {p : Pattern}, p.refuses 64 ⟨[')'], false⟩ = true → p.Misses (')' :: more) :=
    fun h => misses_of_refuses _ h (by decide) (Outlook.sees_append _ _)
  cases parameters with
  | nil =>
      refine (hmisses (p := .rule .parameters) (by decide)).opt.mono ?_
      rintro phrases rfl
      exact .inl ⟨rfl, rfl⟩
  | cons first others =>
      have hnext : (Pattern.seq (lit ",") parameter).Misses (clear (')' :: more)) := by
        rw [hclosing.clear_eq]
        exact hmisses (by decide)
      have hlast : (lit ",").Misses (clear (')' :: more)) := by
        rw [hclosing.clear_eq]
        exact hmisses (by decide)
      have hclear : ∀ ident ∈ first :: others, ∀ follow,
          clear (ident.text ++ follow) = ident.text ++ follow := fun ident _ => ident.clear_text
      have hpattern := takes_commaList []
        (fun more => clear_cons (by decide) (by decide) (by decide) more)
        (fun more => ⟨',', more, rfl, .inl rfl⟩) hclear
        (fun ident _ follow h => takes_parameter ident h) hclosing hnext hlast.opt.of_clear
      have htext : parametersText (first :: others) ++ ')' :: more = first.text ++
          (others.flatMap (fun next => [] ++ ',' :: ' ' :: next.text) ++ ')' :: more) := by
        simp [parametersText]
      rw [htext]
      refine (Takes.rule (r := .parameters) rfl rfl hpattern).opt.mono ?_
      rintro phrases ⟨start, stop, text, parts, rfl, hparts⟩
      exact .inr ⟨start, stop, text, parts, rfl, (Both.to_nothing hparts).map⟩

/-! ### Definitions -/

/-- One phrase, of a function. -/
def Defines (file : String) (name : Identifier) (parameters : List Identifier) (body : Body)
    (phrases : List Phrase) : Prop :=
  ∃ phrase, phrases = [phrase] ∧
    IsFunction file name.text (parameters.map Identifier.text) body.trees phrase

/-- **A function without its decorators.** -/
theorem lays_functionDef (name : Identifier) (parameters : List Identifier) {body : Body}
    {spacing : Spacing} (hbody : body.Laid file) (hmargin : margin.flatten = spaces n)
    (hrest : Dedents n rest) :
    Lays spacing margin margin (.rule .functionDef) ("def ".toList ++ (name.text ++
      '(' :: (parametersText parameters ++ ')' :: ':' :: (body.text n ++ rest)))) rest
      (Defines file name parameters body) := by
  -- the parts of the pattern are put together from the last one, the suite, to the first
  generalize hinput : body.text n ++ rest = input
  have hcolon := hbody.colon hmargin hrest
  rw [hinput] at hcolon
  have hreturns : (Pattern.rule .returns).Misses (clear (':' :: input)) := by
    rw [clear_colon]
    exact misses_of_refuses ⟨[':'], false⟩ (n := 16) (by decide) (by decide)
      (Outlook.sees_append _ _)
  rw [← clear_colon, ← clear_colon] at hcolon
  have hafter := (hreturns.opt.seq_lays hcolon).mono fun _ h => Both.of_nothing h
  have hclose := ((takes_text ")".toList (':' :: input)).seq_lays hafter).mono
    fun _ h => Both.of_nothing h
  have hclear : ")".toList ++ ':' :: input = clear (")".toList ++ ':' :: input) :=
    (clear_cons (by decide) (by decide) (by decide) _).symm
  rw [hclear] at hclose
  have hparameters := (takes_parameters parameters (':' :: input)).seq_lays hclose
  have hbefore : parametersText parameters ++ ')' :: ':' :: input =
      clear (parametersText parameters ++ ')' :: ':' :: input) := by
    cases parameters with
    | nil => exact hclear
    | cons first more =>
        rw [parametersText, List.append_assoc]
        exact (first.clear_text _).symm
  rw [hbefore] at hparameters
  have hopen := ((takes_text "(".toList _).seq_lays hparameters).mono fun _ h => Both.of_nothing h
  have hopens : "(".toList ++ (parametersText parameters ++ ')' :: ':' :: input) =
      clear ("(".toList ++ (parametersText parameters ++ ')' :: ':' :: input)) :=
    (clear_cons (by decide) (by decide) (by decide) _).symm
  rw [hopens] at hopen
  have hbounded : Bounded ('(' :: (parametersText parameters ++ ')' :: ':' :: input)) := by
    rintro c _ ⟨⟩
    decide
  have hname := (name.takes hbounded).seq_lays hopen
  rw [← name.clear_text, ← clear_space] at hname
  have hdef : (Pattern.rule .kwDef).Takes ("def".toList ++ ' ' :: (name.text ++
      '(' :: (parametersText parameters ++ ')' :: ':' :: input))) _ Nothing :=
    takes_mute_word _ rfl (apart_space _).bounded
  have hpattern := (hdef.seq_lays hname).mono fun _ h => Both.of_nothing h
  refine (Lays.rule (r := .functionDef) (by cases spacing <;> rfl) rfl hpattern).mono ?_
  rintro phrases ⟨start, stop, text, parts, rfl, _, _, rfl, ⟨start', stop', rfl⟩,
    found, _, rfl, hfound, body', rfl, hrule, hbody⟩
  exact ⟨_, rfl, start, stop, text, start', stop', found, body', rfl, hfound, hrule, hbody⟩

/-- The line of a decorator. -/
def decoratorLine (n : Nat) (decorator : Printing.Whole) : List Char :=
  '\n' :: (spaces n ++ '@' :: decorator.val.text)

/-- The line breaks between decorators can be counted to the line before or
to the line after. -/
theorem decoratorsText_eq (n : Nat) (first : Printing.Whole) (more : List Printing.Whole)
    (input : List Char) : decoratorsText n (first :: more) ++ input =
      '@' :: (first.val.text ++ (more.flatMap (decoratorLine n) ++
        '\n' :: (spaces n ++ input))) := by
  induction more generalizing first with
  | nil => simp [decoratorsText]
  | cons next more ih =>
      have h := ih next
      simp only [decoratorsText, List.flatMap_cons, decoratorLine, List.cons_append,
        List.append_assoc, List.cons.injEq, true_and] at h ⊢
      rw [h]

/-- The line ends. -/
def EndsLine (follow : List Char) : Prop := ∃ more, follow = '\n' :: more

/-- **A decorator** takes the rest of its line. -/
theorem lays_decorator (file : String) (decorator : Printing.Whole) {follow : List Char}
    (h : EndsLine follow) :
    Lays .tight margin margin (.rule .decorator) ('@' :: (decorator.val.text ++ follow)) follow
      (IsDecorator file decorator.val.tree) := by
  obtain ⟨more, rfl⟩ := h
  have hexpression := decorator.property.reads file (Level.conditional_le _) _ (stops_newline more)
  rw [← decorator.property.clear_text] at hexpression
  have hpattern := ((takes_text "@".toList _).seq hexpression).lays
    (clear_cons (by decide) (by decide) (by decide) more) margin
  refine (Lays.rule (r := .decorator) rfl rfl hpattern).mono ?_
  rintro phrases ⟨start, stop, text, parts, rfl, hparts⟩
  obtain ⟨inner, rfl, -, hinner⟩ := Both.of_nothing hparts
  exact ⟨start, stop, text, inner, rfl, hinner⟩

/-- **Decorators and their function.** -/
theorem lays_decorated (first : Printing.Whole) (more : List Printing.Whole) {name : Identifier}
    {parameters : List Identifier} {body : Body} {input : List Char}
    (hmargin : margin.flatten = spaces n)
    (h : Lays .tight margin margin (.rule .functionDef) ("def ".toList ++ input) rest
      (Defines file name parameters body)) :
    Lays .loose margin margin (.rule .decorated)
      (decoratorsText n (first :: more) ++ ("def ".toList ++ input)) rest
      (IsStatement file (Listing.function (first :: more) name parameters body).tree) := by
  have hlines : ∀ (c : Char) (more : List Char), Begins c → Line (spaces n ++ c :: more) :=
    fun c more hc => .inr ⟨n, c, more, rfl, hc⟩
  have hline : ∀ decorator ∈ more, ∀ follow, EndsLine follow →
      Lays .tight margin margin (parts [lineBreak, .margin, .rule .decorator])
        (decoratorLine n decorator ++ follow) follow
        (IsDecorator file decorator.val.tree) := by
    intro decorator _ follow hfollow
    have h := lays_marginLine hmargin (hlines '@' _ ⟨by decide, by decide⟩)
      (lays_decorator file decorator hfollow)
    simpa [decoratorLine] using h
  have hdef : Line (spaces n ++ ("def ".toList ++ input)) :=
    hlines 'd' _ ⟨by decide, by decide⟩
  have hstop : Avoids .tight margin (parts [lineBreak, .margin, .rule .decorator])
      ('\n' :: (spaces n ++ ("def ".toList ++ input))) :=
    avoids_marginLine hmargin hdef (avoids_of_refuses ⟨"def ".toList, false⟩ (n := 16)
      (by decide) (by decide) (Outlook.sees_append _ _) _ _)
  have hmore := lays_many ⟨_, rfl⟩ (fun _ _ follow => ⟨_, rfl⟩) hline hstop
  have hends : EndsLine (more.flatMap (decoratorLine n) ++
      '\n' :: (spaces n ++ ("def ".toList ++ input))) := by
    cases more with
    | nil => exact ⟨_, rfl⟩
    | cons next more => exact ⟨_, rfl⟩
  have hpattern := (lays_decorator file first hends).seq (hmore.seq (lays_marginLine hmargin hdef h))
  rw [decoratorsText_eq]
  refine (Lays.rule (r := .decorated) rfl rfl hpattern).mono ?_
  rintro phrases ⟨start, stop, text, parts, rfl, before, _, rfl, hbefore, others, _, rfl, hothers,
    phrase, rfl, hphrase⟩
  refine ⟨_, rfl, ?_⟩
  rw [← List.append_assoc]
  exact holds_decorated ⟨before, others, rfl, hbefore, hothers.map⟩ hphrase

/-- **A function with its decorators**, or without any. -/
theorem laid_function {decorators : List Printing.Whole} {name : Identifier}
    {parameters : List Identifier} {body : Body} (hbody : body.Laid file) :
    (Listing.function decorators name parameters body).Laid file := by
  intro n margin rest hmargin hrest
  have htext : (Listing.function decorators name parameters body).text n ++ rest =
      decoratorsText n decorators ++ ("def ".toList ++ (name.text ++
        '(' :: (parametersText parameters ++ ')' :: ':' :: (body.text n ++ rest)))) := by
    simp
  rw [htext]
  cases decorators with
  | nil =>
      refine lays_statement "def ".toList 1 (by decide) (by decide) (by decide)
        ((lays_functionDef name parameters hbody hmargin hrest.dedents).mono ?_)
      rintro phrases ⟨phrase, rfl, hphrase⟩
      exact ⟨_, rfl, holds_function hphrase⟩
  | cons first more =>
      have h := lays_decorated first more hmargin
        (lays_functionDef name parameters hbody hmargin hrest.dedents)
      rw [decoratorsText_eq] at h ⊢
      exact lays_statement ['@'] 0 (by decide) (by decide) (by decide) h

end FunctionIR.Listing
