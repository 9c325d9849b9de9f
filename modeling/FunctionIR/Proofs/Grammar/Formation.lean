import FunctionIR.Proofs.Grammar.Blocks
import FunctionIR.Proofs.Grammar.Inversion

/-!
# The form of phrases

Whatever text it matches, a pattern can only **leave** phrases of a certain
form (`Pattern.Leaves`): a sequence leaves what its parts leave one after the
other, a rule that is kept leaves one phrase of its own.  A phrase is **formed**
if its parts are left by the pattern of its rule (`Phrase.Formed`), and every
phrase that comes out of a match is (`leaves_of_matches`).

For the rules of compound statements this says which parts they have: a block
has statements, and at least one; the last part of a function is its suite; an
assignment has a target and a value.
-/

namespace FunctionIR.Grammar

namespace Pattern

/-- The phrases that a pattern can leave. -/
inductive Leaves : Spacing → Pattern → List Phrase → Prop
  | text {spacing : Spacing} {chars : List Char} : Leaves spacing (.text chars) []
  | one {spacing : Spacing} {set : CharClass} : Leaves spacing (.one set) []
  | seq {spacing : Spacing} {p q : Pattern} {before after : List Phrase} :
      Leaves spacing p before → Leaves spacing q after → Leaves spacing (.seq p q) (before ++ after)
  | first {spacing : Spacing} {p q : Pattern} {found : List Phrase} :
      Leaves spacing p found → Leaves spacing (.choice p q) found
  | second {spacing : Spacing} {p q : Pattern} {found : List Phrase} :
      Leaves spacing q found → Leaves spacing (.choice p q) found
  | skipped {spacing : Spacing} {p : Pattern} : Leaves spacing (.opt p) []
  | taken {spacing : Spacing} {p : Pattern} {found : List Phrase} :
      Leaves spacing p found → Leaves spacing (.opt p) found
  | many {spacing : Spacing} {p : Pattern} {rounds : List (List Phrase)} :
      (∀ round ∈ rounds, Leaves spacing p round) → Leaves spacing (.many p) rounds.flatten
  | absent {spacing : Spacing} {p : Pattern} : Leaves spacing (.absent p) []
  | start {spacing : Spacing} : Leaves spacing .start []
  | finish {spacing : Spacing} : Leaves spacing .finish []
  | margin {spacing : Spacing} : Leaves spacing .margin []
  | indent {spacing : Spacing} {p : Pattern} {found : List Phrase} :
      Leaves spacing p found → Leaves spacing (.indent p) found
  | outdent {spacing : Spacing} : Leaves spacing .outdent []
  /-- A rule that is seen and kept. -/
  | kept {spacing : Spacing} {r : Rule} {start stop : Place} {text : List Char}
      {parts : List Phrase} :
      r.visible spacing = true → r.definition.kept = true →
      Leaves (r.inside spacing) r.definition.pattern parts →
      Leaves spacing (.rule r) [.mk r start stop text parts]
  | mute {spacing : Spacing} {r : Rule} :
      r.visible spacing = true → r.definition.kept = false → Leaves spacing (.rule r) []
  /-- A token inside a token. -/
  | unseen {spacing : Spacing} {r : Rule} {found : List Phrase} :
      r.visible spacing = false → Leaves (r.inside spacing) r.definition.pattern found →
      Leaves spacing (.rule r) found

end Pattern

/-- Outside tokens every rule is seen. -/
theorem Rule.visible_of_ne_token (r : Rule) {spacing : Spacing} (h : spacing ≠ .token) :
    r.visible spacing = true := by
  unfold Rule.visible
  split
  · simpa using h
  · rfl

/-- The parts of the phrase are left by the pattern of its rule, where the
spacing around it is the given one. -/
def Phrase.FormedIn (spacing : Spacing) (phrase : Phrase) : Prop :=
  Pattern.Leaves (phrase.rule.inside spacing) phrase.rule.definition.pattern phrase.parts

/-- The phrase is formed, outside tokens. -/
def Phrase.Formed (phrase : Phrase) : Prop := ∃ spacing, spacing ≠ .token ∧ phrase.FormedIn spacing

namespace Pattern

variable {p q : Pattern} {spacing : Spacing} {s t u : State} {n : Nat} {found : List Phrase}

/-! ### Every match leaves such phrases -/

/-- What comes to a state by a number of rounds. -/
private theorem leaves_of_rounds
    (hround : ∀ {s t : State}, p.MatchesIn n spacing s t →
      ∃ found, Leaves spacing p found ∧ t.phrases = found.reverse ++ s.phrases)
    (h : Relation.ReflTransGen (p.RoundIn n spacing) s t) :
    ∃ rounds : List (List Phrase), (∀ round ∈ rounds, Leaves spacing p round) ∧
      t.phrases = rounds.flatten.reverse ++ s.phrases := by
  induction h with
  | refl => exact ⟨[], List.forall_mem_nil _, rfl⟩
  | @tail t u _ hlast ih =>
      obtain ⟨rounds, hrounds, hphrases⟩ := ih
      obtain ⟨found, hfound, hlater⟩ := hround hlast
      refine ⟨rounds ++ [found], ?_, ?_⟩
      · intro round hmem
        rcases List.mem_append.mp hmem with hmem | hmem
        · exact hrounds round hmem
        · rw [List.mem_singleton.mp hmem]
          exact hfound
      · rw [hlater, State.skip_phrases, hphrases]
        simp

/-- What a match adds to the phrases is what its pattern leaves. -/
private theorem leaves_of_matchesIn (h : p.MatchesIn n spacing s t) :
    ∃ found, Leaves spacing p found ∧ t.phrases = found.reverse ++ s.phrases := by
  -- The steps go down with every rule, and between rules the pattern gets smaller.
  induction n using Nat.strongRecOn generalizing p spacing s t with
  | _ n ih =>
  induction p generalizing spacing s t with
  | text chars =>
      obtain ⟨rest, -, rfl⟩ := matches_text_iff.mp h.toMatches
      exact ⟨[], .text, rfl⟩
  | one set =>
      obtain ⟨c, rest, -, -, rfl⟩ := matches_one_iff.mp h.toMatches
      exact ⟨[], .one, rfl⟩
  | start =>
      obtain ⟨-, rfl⟩ := matches_start_iff.mp h.toMatches
      exact ⟨[], .start, rfl⟩
  | finish =>
      obtain ⟨-, rfl⟩ := matches_finish_iff.mp h.toMatches
      exact ⟨[], .finish, rfl⟩
  | margin =>
      obtain ⟨rest, -, rfl⟩ := matches_margin_iff.mp h.toMatches
      exact ⟨[], .margin, rfl⟩
  | outdent =>
      obtain ⟨width, outer, -, rfl⟩ := matches_outdent_iff.mp h.toMatches
      exact ⟨[], .outdent, rfl⟩
  | absent p =>
      obtain ⟨-, rfl⟩ := h.absent_inv
      exact ⟨[], .absent, rfl⟩
  | seq p q ihp ihq =>
      obtain ⟨u, hp, hq⟩ := h.seq_inv
      obtain ⟨before, hbefore, hu⟩ := ihp hp
      obtain ⟨after, hafter, ht⟩ := ihq hq
      refine ⟨before ++ after, .seq hbefore hafter, ?_⟩
      rw [ht, State.skip_phrases, hu, List.reverse_append, List.append_assoc]
  | choice p q ihp ihq =>
      rcases h.choice_inv with hp | ⟨-, hq⟩
      · obtain ⟨found, hfound, ht⟩ := ihp hp
        exact ⟨found, .first hfound, ht⟩
      · obtain ⟨found, hfound, ht⟩ := ihq hq
        exact ⟨found, .second hfound, ht⟩
  | opt p ihp =>
      rcases h.opt_inv with hp | ⟨-, rfl⟩
      · obtain ⟨found, hfound, ht⟩ := ihp hp
        exact ⟨found, .taken hfound, ht⟩
      · exact ⟨[], .skipped, rfl⟩
  | many p ihp =>
      rcases h.many_inv with ⟨-, rfl⟩ | ⟨u, hfirst, hrounds, -⟩
      · exact ⟨[], @Leaves.many spacing p [] (List.forall_mem_nil _), rfl⟩
      · obtain ⟨found, hfound, hu⟩ := ihp hfirst
        obtain ⟨rounds, hmem, ht⟩ := leaves_of_rounds ihp hrounds
        refine ⟨(found :: rounds).flatten, .many (List.forall_mem_cons.mpr ⟨hfound, hmem⟩), ?_⟩
        rw [ht, hu]
        simp
  | indent p ihp =>
      obtain ⟨u, hp, rfl⟩ := h.indent_inv
      obtain ⟨found, hfound, hu⟩ := ihp hp
      exact ⟨found, .indent hfound, hu⟩
  | rule r =>
      obtain ⟨k, hk, u, hp, rfl⟩ := h.rule_inv
      obtain ⟨found, hfound, hu⟩ := ih k hk hp
      cases hvisible : r.visible spacing with
      | false =>
          refine ⟨found, .unseen hvisible hfound, ?_⟩
          simpa [State.afterRule, State.openRule, hvisible] using hu
      | true =>
          have hparts : u.phrases.reverse = found := by
            simp [hu, State.openRule, hvisible]
          cases hkept : r.definition.kept with
          | false =>
              refine ⟨[], .mute hvisible hkept, ?_⟩
              simp [State.afterRule, State.closeRule, hvisible, hkept]
          | true =>
              refine ⟨[.mk r s.place u.place (s.textUpTo u) found],
                .kept hvisible hkept hfound, ?_⟩
              simp [State.afterRule, State.closeRule, hvisible, hkept, hparts]

/-- **A match leaves phrases of the pattern's form** behind those that were
there. -/
theorem leaves_of_matches (h : p.Matches spacing s t) :
    ∃ found, Leaves spacing p found ∧ t.phrases = found.reverse ++ s.phrases := by
  obtain ⟨n, hn⟩ := h
  exact leaves_of_matchesIn hn

/-- **What is left outside tokens is formed.** -/
theorem Leaves.formed (h : Leaves spacing p found) (hspacing : spacing ≠ .token) :
    ∀ phrase ∈ found, phrase.Formed := by
  induction h with
  | text | one | skipped | absent | start | finish | margin | outdent | mute =>
      exact List.forall_mem_nil _
  | seq _ _ ihp ihq =>
      intro phrase hmem
      exact (List.mem_append.mp hmem).elim (ihp hspacing phrase) (ihq hspacing phrase)
  | first _ ih | second _ ih | taken _ ih | indent _ ih => exact ih hspacing
  | many _ ih =>
      intro phrase hmem
      obtain ⟨round, hround, hmem⟩ := List.mem_flatten.mp hmem
      exact ih round hround hspacing phrase hmem
  | @kept spacing r start stop text parts _ _ hparts _ =>
      intro phrase hmem
      rw [List.mem_singleton.mp hmem]
      exact ⟨spacing, hspacing, hparts⟩
  | @unseen spacing r found hvisible _ _ =>
      rw [r.visible_of_ne_token hspacing] at hvisible
      cases hvisible

/-! ### Reading a form -/

/-- A sequence leaves what its parts leave, in turn. -/
theorem leaves_seq_iff :
    Leaves spacing (.seq p q) found ↔
      ∃ before after, found = before ++ after ∧ Leaves spacing p before ∧ Leaves spacing q after := by
  refine ⟨fun h => ?_, ?_⟩
  · cases h with
    | seq hp hq => exact ⟨_, _, rfl, hp, hq⟩
  · rintro ⟨before, after, rfl, hp, hq⟩
    exact .seq hp hq

/-- A choice leaves what one of its parts leaves. -/
theorem leaves_choice_iff :
    Leaves spacing (.choice p q) found ↔ Leaves spacing p found ∨ Leaves spacing q found := by
  refine ⟨fun h => ?_, fun h => h.elim .first .second⟩
  cases h with
  | first hp => exact .inl hp
  | second hq => exact .inr hq

/-- Rounds leave what each of them leaves, in turn. -/
theorem leaves_many_iff :
    Leaves spacing (.many p) found ↔
      ∃ rounds : List (List Phrase), found = rounds.flatten ∧
        ∀ round ∈ rounds, Leaves spacing p round := by
  refine ⟨fun h => ?_, ?_⟩
  · cases h with
    | many hrounds => exact ⟨_, rfl, hrounds⟩
  · rintro ⟨rounds, rfl, hrounds⟩
    exact .many hrounds

/-- A pattern that mentions no rule leaves nothing. -/
theorem leaves_bare_iff (hbare : p.bare = true) : Leaves spacing p found ↔ found = [] := by
  constructor
  · intro h
    induction h with
    | text | one | skipped | absent | start | finish | margin | outdent => rfl
    | seq _ _ ihp ihq =>
        simp only [bare, Bool.and_eq_true] at hbare
        rw [ihp hbare.1, ihq hbare.2, List.append_nil]
    | first _ ih =>
        simp only [bare, Bool.and_eq_true] at hbare
        exact ih hbare.1
    | second _ ih =>
        simp only [bare, Bool.and_eq_true] at hbare
        exact ih hbare.2
    | taken _ ih | indent _ ih => exact ih hbare
    | many _ ih => exact List.flatten_eq_nil_iff.mpr fun round hround => ih round hround hbare
    | kept | mute | unseen => cases hbare
  · rintro rfl
    induction p with
    | text => exact .text
    | one => exact .one
    | start => exact .start
    | finish => exact .finish
    | margin => exact .margin
    | outdent => exact .outdent
    | absent => exact .absent
    | opt => exact .skipped
    | many p => exact @Leaves.many spacing p [] (List.forall_mem_nil _)
    | seq p q ihp ihq =>
        simp only [bare, Bool.and_eq_true] at hbare
        exact .seq (ihp hbare.1) (ihq hbare.2)
    | choice p q ihp _ =>
        simp only [bare, Bool.and_eq_true] at hbare
        exact .first (ihp hbare.1)
    | indent p ih => exact .indent (ih hbare)
    | rule => cases hbare

/-- A rule that is kept leaves one phrase of its own. -/
theorem leaves_kept_iff {r : Rule} (hspacing : spacing ≠ .token) (hkept : r.definition.kept = true) :
    Leaves spacing (.rule r) found ↔
      ∃ phrase, found = [phrase] ∧ phrase.rule = r ∧ phrase.FormedIn spacing := by
  constructor
  · intro h
    cases h with
    | kept _ _ hparts => exact ⟨_, rfl, rfl, hparts⟩
    | mute _ hmute => rw [hkept] at hmute; cases hmute
    | unseen hvisible => rw [r.visible_of_ne_token hspacing] at hvisible; cases hvisible
  · rintro ⟨⟨r, start, stop, text, parts⟩, rfl, rfl, hparts⟩
    exact .kept (r.visible_of_ne_token hspacing) hkept hparts

/-- A rule that is not kept leaves nothing. -/
theorem leaves_mute_iff {r : Rule} (hspacing : spacing ≠ .token)
    (hmute : r.definition.kept = false) : Leaves spacing (.rule r) found ↔ found = [] := by
  constructor
  · intro h
    cases h with
    | kept _ hkept => rw [hmute] at hkept; cases hkept
    | mute => rfl
    | unseen hvisible => rw [r.visible_of_ne_token hspacing] at hvisible; cases hvisible
  · rintro rfl
    exact .mute (r.visible_of_ne_token hspacing) hmute

/-- What is kept and need not be there. -/
theorem leaves_opt_kept {r : Rule} (hspacing : spacing ≠ .token) (hkept : r.definition.kept = true)
    (h : Leaves spacing (.opt (.rule r)) found) :
    ∃ phrase : Option Phrase, found = phrase.toList ∧ ∀ part ∈ phrase, part.rule = r := by
  cases h with
  | skipped => exact ⟨none, rfl, nofun⟩
  | taken h =>
      obtain ⟨phrase, rfl, hrule, -⟩ := (leaves_kept_iff hspacing hkept).mp h
      exact ⟨.some phrase, rfl, by rintro _ ⟨⟩; exact hrule⟩

/-- Parts that leave nothing can be passed over. -/
theorem leaves_seq_left_iff (h : ∀ {found}, Leaves spacing p found ↔ found = []) :
    Leaves spacing (.seq p q) found ↔ Leaves spacing q found := by
  rw [leaves_seq_iff]
  constructor
  · rintro ⟨before, after, rfl, hp, hq⟩
    rwa [h.mp hp]
  · intro hq
    exact ⟨[], found, rfl, h.mpr rfl, hq⟩

/-- A part that leaves nothing can be dropped in front. -/
theorem leaves_bare_seq_iff (hbare : p.bare = true) :
    Leaves spacing (.seq p q) found ↔ Leaves spacing q found :=
  leaves_seq_left_iff (leaves_bare_iff hbare)

/-- A rule that is not kept can be dropped in front. -/
theorem leaves_mute_seq_iff {r : Rule} (hspacing : spacing ≠ .token)
    (hmute : r.definition.kept = false) :
    Leaves spacing (.seq (.rule r) q) found ↔ Leaves spacing q found :=
  leaves_seq_left_iff (leaves_mute_iff hspacing hmute)

/-- A rule that is kept puts its phrase in front. -/
theorem leaves_kept_seq_iff {r : Rule} (hspacing : spacing ≠ .token)
    (hkept : r.definition.kept = true) :
    Leaves spacing (.seq (.rule r) q) found ↔
      ∃ phrase rest, found = phrase :: rest ∧ phrase.rule = r ∧ phrase.FormedIn spacing ∧
        Leaves spacing q rest := by
  rw [leaves_seq_iff]
  simp only [leaves_kept_iff hspacing hkept]
  constructor
  · rintro ⟨_, rest, rfl, ⟨phrase, rfl, hrule, hformed⟩, hq⟩
    exact ⟨phrase, rest, rfl, hrule, hformed, hq⟩
  · rintro ⟨phrase, rest, rfl, hrule, hformed, hq⟩
    exact ⟨[phrase], rest, rfl, ⟨phrase, rfl, hrule, hformed⟩, hq⟩

end Pattern

/-! ### The rules of statements -/

/-- The phrase is the body of a compound statement. -/
def Phrase.IsSuite (phrase : Phrase) : Prop :=
  phrase.rule = .block ∨ phrase.rule = .simpleStatements

/-- A suite leaves one phrase. -/
theorem leaves_suite {spacing : Spacing} {found : List Phrase} (hspacing : spacing ≠ .token)
    (h : Pattern.Leaves spacing suite found) : ∃ body, found = [body] ∧ body.IsSuite := by
  rcases Pattern.leaves_choice_iff.mp h with hblock | hsimple
  · obtain ⟨body, rfl, hrule, -⟩ := (Pattern.leaves_kept_iff hspacing rfl).mp hblock
    exact ⟨body, rfl, .inl hrule⟩
  · obtain ⟨body, rfl, hrule, -⟩ := (Pattern.leaves_kept_iff hspacing rfl).mp hsimple
    exact ⟨body, rfl, .inr hrule⟩

/-- The parts of a parameter with a name: this, and perhaps a type and a default. -/
def NamesParameter (parts : List Phrase) : Prop :=
  ∃ (name : Phrase) (hint default : Option Phrase),
    parts = name :: (hint.toList ++ default.toList) ∧ name.rule = .identifier ∧
      (∀ type ∈ hint, type.rule = .typeHint) ∧ ∀ value ∈ default, value.rule = .defaultValue

/-- A name, and perhaps a type. -/
theorem namesParameter_of_leaves {spacing : Spacing} {found : List Phrase}
    (hspacing : spacing ≠ .token)
    (h : Pattern.Leaves spacing (.seq (.rule .identifier) (.opt (.rule .typeHint))) found) :
    NamesParameter found := by
  obtain ⟨name, rest, rfl, hname, -, hrest⟩ := (Pattern.leaves_kept_seq_iff hspacing rfl).mp h
  obtain ⟨hint, rfl, hhint⟩ := Pattern.leaves_opt_kept hspacing rfl hrest
  exact ⟨name, hint, none, by simp, hname, hhint, nofun⟩

namespace Phrase.Formed

open Pattern

variable {phrase : Phrase}

/-- What the pattern of its rule leaves. -/
theorem leaves {r : Rule} (h : phrase.Formed) (hrule : phrase.rule = r) :
    ∃ spacing, spacing ≠ .token ∧ Leaves (r.inside spacing) r.definition.pattern phrase.parts := by
  obtain ⟨spacing, hspacing, hparts⟩ := h
  subst hrule
  exact ⟨spacing, hspacing, hparts⟩

/-- The parts of a phrase that is no token are formed, too. -/
theorem inside {r : Rule} {start stop : Place} {text : List Char} {parts : List Phrase}
    (h : (Phrase.mk r start stop text parts).Formed)
    (htoken : r.definition.spacing ≠ some .token) : ∀ part ∈ parts, part.Formed := by
  obtain ⟨spacing, hspacing, hparts⟩ := h
  change Pattern.Leaves (r.inside spacing) r.definition.pattern parts at hparts
  refine hparts.formed ?_
  unfold Rule.inside
  cases hinner : r.definition.spacing with
  | none => exact hspacing
  | some inner =>
      rw [hinner] at htoken
      simpa using htoken

/-- A statement is one phrase: a compound statement, or simple ones. -/
theorem statement (h : phrase.Formed) (hrule : phrase.rule = .statement) :
    ∃ inner, phrase.parts = [inner] ∧ inner.rule ∈ ([.decorated, .functionDef, .ifStatement,
      .whileStatement, .forStatement, .simpleStatements] : List Rule) := by
  obtain ⟨spacing, hspacing, hparts⟩ := h.leaves hrule
  simp (disch := decide) only [Rule.definition, loose, Pattern.firstOf, leaves_choice_iff,
    leaves_kept_iff, Rule.inside, Option.getD] at hparts
  rcases hparts with h | h | h | h | h | h
  all_goals
    obtain ⟨inner, hinner, hrule, -⟩ := h
    exact ⟨inner, hinner, by simp [hrule]⟩

/-- A block has statements, and at least one. -/
theorem block (h : phrase.Formed) (hrule : phrase.rule = .block) :
    ∃ first rest, phrase.parts = first :: rest ∧ first.rule = .statement := by
  obtain ⟨spacing, hspacing, hparts⟩ := h.leaves hrule
  simp (disch := decide) only [Rule.definition, tight, Pattern.parts, leaves_bare_seq_iff,
    leaves_kept_seq_iff, Rule.inside, Option.getD] at hparts
  obtain ⟨first, rest, hparts, hrule, -⟩ := hparts
  exact ⟨first, rest, hparts, hrule⟩

/-- What is decorated is a function, and before it are the decorators. -/
theorem decorated (h : phrase.Formed) (hrule : phrase.rule = .decorated) :
    ∃ decorators function, phrase.parts = decorators ++ [function] ∧
      (∀ decorator ∈ decorators, decorator.rule = .decorator) ∧ function.rule = .functionDef := by
  obtain ⟨spacing, hspacing, hparts⟩ := h.leaves hrule
  simp (disch := decide) only [Rule.definition, tight, Pattern.parts, leaves_kept_seq_iff,
    Rule.inside, Option.getD] at hparts
  obtain ⟨first, rest, hparts, hfirst, -, hrest⟩ := hparts
  obtain ⟨more, last, rfl, hmore, hlast⟩ := leaves_seq_iff.mp hrest
  simp (disch := decide) only [leaves_bare_seq_iff, leaves_kept_iff] at hlast
  obtain ⟨function, rfl, hfunction, -⟩ := hlast
  refine ⟨first :: more, function, hparts, List.forall_mem_cons.mpr ⟨hfirst, ?_⟩, hfunction⟩
  obtain ⟨rounds, rfl, hrounds⟩ := leaves_many_iff.mp hmore
  intro decorator hmem
  obtain ⟨round, hround, hmem⟩ := List.mem_flatten.mp hmem
  have hleaves := hrounds round hround
  simp (disch := decide) only [leaves_bare_seq_iff, leaves_kept_iff] at hleaves
  obtain ⟨phrase, rfl, hphrase, -⟩ := hleaves
  rw [List.mem_singleton.mp hmem]
  exact hphrase

/-- A function has a name, then it can have parameters and a result, and the
last of its parts is its body. -/
theorem functionDef (h : phrase.Formed) (hrule : phrase.rule = .functionDef) :
    ∃ (name : Phrase) (parameters returns : Option Phrase) (body : Phrase),
      phrase.parts = name :: (parameters.toList ++ (returns.toList ++ [body])) ∧
      name.rule = .identifier ∧ (∀ list ∈ parameters, list.rule = .parameters) ∧
      (∀ result ∈ returns, result.rule = .returns) ∧ body.IsSuite := by
  obtain ⟨spacing, hspacing, hparts⟩ := h.leaves hrule
  simp (disch := decide) only [Rule.definition, loose, Pattern.parts, leaves_bare_seq_iff,
    leaves_mute_seq_iff, leaves_kept_seq_iff, Rule.inside, Option.getD] at hparts
  obtain ⟨name, rest, hparts, hname, -, hrest⟩ := hparts
  obtain ⟨_, rest, rfl, hparameters, hrest⟩ := leaves_seq_iff.mp hrest
  rw [leaves_bare_seq_iff (by decide)] at hrest
  obtain ⟨_, rest, rfl, hreturns, hrest⟩ := leaves_seq_iff.mp hrest
  rw [leaves_bare_seq_iff (by decide)] at hrest
  obtain ⟨body, rfl, hbody⟩ := leaves_suite (by decide) hrest
  obtain ⟨parameters, rfl, hlist⟩ := leaves_opt_kept (by decide) (by decide) hparameters
  obtain ⟨returns, rfl, hresult⟩ := leaves_opt_kept (by decide) (by decide) hreturns
  exact ⟨name, parameters, returns, body, hparts, hname, hlist, hresult, hbody⟩

/-- A plain parameter is a name with a default or without. -/
theorem plainParameter (h : phrase.Formed) (hrule : phrase.rule = .plainParameter) :
    NamesParameter phrase.parts := by
  obtain ⟨spacing, hspacing, hparts⟩ := h.leaves hrule
  simp only [Rule.definition, plain, Pattern.parts, Rule.inside, Option.getD] at hparts
  obtain ⟨name, rest, hparts, hname, -, hrest⟩ := (leaves_kept_seq_iff hspacing rfl).mp hparts
  obtain ⟨_, _, rfl, hhint, hdefault⟩ := leaves_seq_iff.mp hrest
  obtain ⟨hint, rfl, htype⟩ := leaves_opt_kept hspacing rfl hhint
  obtain ⟨default, rfl, hvalue⟩ := leaves_opt_kept hspacing rfl hdefault
  exact ⟨name, hint, default, hparts, hname, htype, hvalue⟩

/-- A star can stand alone. -/
theorem varargsParameter (h : phrase.Formed) (hrule : phrase.rule = .varargsParameter) :
    phrase.parts = [] ∨ NamesParameter phrase.parts := by
  obtain ⟨spacing, hspacing, hparts⟩ := h.leaves hrule
  simp only [Rule.definition, plain, Pattern.parts, Rule.inside, Option.getD] at hparts
  rw [leaves_bare_seq_iff (by decide)] at hparts
  generalize phrase.parts = parts at hparts ⊢
  cases hparts with
  | skipped => exact .inl rfl
  | taken hparts => exact .inr (namesParameter_of_leaves hspacing hparts)

/-- A parameter for further keywords is a name. -/
theorem kwargsParameter (h : phrase.Formed) (hrule : phrase.rule = .kwargsParameter) :
    NamesParameter phrase.parts := by
  obtain ⟨spacing, hspacing, hparts⟩ := h.leaves hrule
  simp only [Rule.definition, plain, Pattern.parts, Rule.inside, Option.getD] at hparts
  rw [leaves_bare_seq_iff (by decide)] at hparts
  exact namesParameter_of_leaves hspacing hparts

/-- A slash has no parts. -/
theorem positionalMarker (h : phrase.Formed) (hrule : phrase.rule = .positionalMarker) :
    phrase.parts = [] := by
  obtain ⟨_, -, hparts⟩ := h.leaves hrule
  exact (leaves_bare_iff rfl).mp hparts

/-- A conditional or a loop with a condition has this first, then its body. -/
theorem conditional (h : phrase.Formed)
    (hrule : phrase.rule = .ifStatement ∨ phrase.rule = .elifClause ∨
      phrase.rule = .whileStatement) :
    ∃ test body orelse, phrase.parts = test :: body :: orelse ∧ test.rule = .expression ∧
      body.IsSuite := by
  rcases hrule with hrule | hrule | hrule
  all_goals
    obtain ⟨spacing, hspacing, hparts⟩ := h.leaves hrule
    simp (disch := decide) only [Rule.definition, loose, Pattern.parts, leaves_bare_seq_iff,
      leaves_mute_seq_iff, leaves_kept_seq_iff, Rule.inside, Option.getD] at hparts
    obtain ⟨test, rest, hparts, htest, -, hrest⟩ := hparts
    obtain ⟨_, orelse, rfl, hsuite, -⟩ := leaves_seq_iff.mp hrest
    obtain ⟨body, rfl, hbody⟩ := leaves_suite (by decide) hsuite
    exact ⟨test, body, orelse, hparts, htest, hbody⟩

/-- The third part of a loop over a sequence is its body. -/
theorem forStatement (h : phrase.Formed) (hrule : phrase.rule = .forStatement) :
    ∃ target iter body orelse, phrase.parts = target :: iter :: body :: orelse ∧
      target.rule = .targetList ∧ iter.rule = .expressionList ∧ body.IsSuite := by
  obtain ⟨spacing, hspacing, hparts⟩ := h.leaves hrule
  simp (disch := decide) only [Rule.definition, loose, Pattern.parts, leaves_bare_seq_iff,
    leaves_mute_seq_iff, leaves_kept_seq_iff, Rule.inside, Option.getD] at hparts
  obtain ⟨target, _, hparts, htarget, -, iter, rest, rfl, hiter, -, hrest⟩ := hparts
  obtain ⟨_, orelse, rfl, hsuite, -⟩ := leaves_seq_iff.mp hrest
  obtain ⟨body, rfl, hbody⟩ := leaves_suite (by decide) hsuite
  exact ⟨target, iter, body, orelse, hparts, htarget, hiter, hbody⟩

/-- A simple statement leaves something. -/
private theorem ne_nil_of_simpleStatement {spacing : Spacing} {found : List Phrase}
    (hspacing : spacing ≠ .token) (h : Leaves spacing simpleStatement found) : found ≠ [] := by
  simp only [simpleStatement, Pattern.firstOf, leaves_choice_iff] at h
  rcases h with h | h | h | h | h | h | h
  all_goals
    obtain ⟨phrase, rfl, -⟩ := (leaves_kept_iff hspacing rfl).mp h
    exact List.cons_ne_nil phrase []

/-- Of simple statements on one line there is at least one. -/
theorem simpleStatements (h : phrase.Formed) (hrule : phrase.rule = .simpleStatements) :
    phrase.parts ≠ [] := by
  obtain ⟨spacing, hspacing, hparts⟩ := h.leaves hrule
  simp only [Rule.definition, loose, Pattern.parts, Rule.inside, Option.getD] at hparts
  obtain ⟨first, rest, hparts, hfirst, -⟩ := leaves_seq_iff.mp hparts
  rw [hparts]
  intro hnil
  exact ne_nil_of_simpleStatement (by decide) hfirst (List.append_eq_nil_iff.mp hnil).1

/-- An assignment has a target, and a value after it. -/
theorem assignment (h : phrase.Formed) (hrule : phrase.rule = .assignment) :
    ∃ first next rest, phrase.parts = first :: next :: rest := by
  obtain ⟨spacing, hspacing, hparts⟩ := h.leaves hrule
  simp only [Rule.definition, plain, Pattern.parts, Pattern.some, Rule.inside, Option.getD]
    at hparts
  obtain ⟨targets, value, hparts, htargets, hvalue⟩ := leaves_seq_iff.mp hparts
  obtain ⟨target, more, rfl, htarget, -⟩ := leaves_seq_iff.mp htargets
  obtain ⟨first, others, rfl, -⟩ := (leaves_kept_seq_iff hspacing rfl).mp htarget
  obtain ⟨last, rfl, -⟩ := (leaves_kept_iff hspacing rfl).mp hvalue
  have hne : others ++ more ++ [last] ≠ [] := by simp
  obtain ⟨next, rest, hrest⟩ := List.exists_cons_of_ne_nil hne
  exact ⟨first, next, rest, by simpa [hparts] using hrest⟩

end Phrase.Formed

/-- **A rule that matches a text leaves one phrase**, and this is formed. -/
theorem Rule.phrase_of_matchText {rule : Rule} {text : List Char} {s : State} {tried : Attempts}
    (hkept : rule.definition.kept = true) (h : rule.matchText text = (.matched s, tried)) :
    ∃ phrase, s.phrases = [phrase] ∧ phrase.rule = rule ∧ phrase.Formed := by
  have hmatched : (Pattern.rule rule).Matches .loose (.ofText text) s :=
    ⟨stepsFor text.length, congrArg Prod.fst h⟩
  obtain ⟨found, hfound, hphrases⟩ := Pattern.leaves_of_matches hmatched
  obtain ⟨phrase, rfl, hrule, hformed⟩ := (Pattern.leaves_kept_iff (by decide) hkept).mp hfound
  exact ⟨phrase, hphrases, hrule, .loose, by decide, hformed⟩

end FunctionIR.Grammar
