import FunctionIR.Proofs.Layout.Insertion
import FunctionIR.Proofs.Layout.Zones

/-!
# Two runs of blanks at one seam

Two texts are the same but for the run of blanks at a seam (`Swap`).  A match
reads them alike: first it is **before** the run in both, at the same place and
in the same zone (`Swap.Before`), and then it is behind the run in both
(`Swap.Late`).

It comes from here to there where blanks may stand between tokens.  What reads
on without that stays before the run, and does not find out what comes next
but that it is a blank or a backslash: the run is not looked into by names,
numbers, strings and comments, for the seam is in the code, and not by line
breaks, for a token stands behind the run on its line.
-/

namespace FunctionIR.Grammar

/-- At a seam of a text, one run of blanks for another.  Both or none are plain
where the words of an operator stand on both sides. -/
structure Swap where
  before : List Char
  run : List Char
  run' : List Char
  after : List Char
  seam : Seam before after
  isRun : IsRun run
  isRun' : IsRun run'
  operator : SplitsOperator before after → (IsPlain run ↔ IsPlain run')

/-- The set does not go on with the rest. -/
def CharClass.EndsBefore (set : CharClass) (rest : List Char) : Prop :=
  ∀ c more, rest = c :: more → set.holds c = false

/-- Whatever the two places are. -/
def Anywhere (_ _ : Place) : Prop := True

namespace Swap

variable (x : Swap)

/-- Both states are in the text before the run, in the zone, with so much left of
it. -/
structure Before (zone : Zone) (left : List Char) (s s' : State) : Prop where
  read : ∃ used, x.before = used ++ left ∧ s.place = used.foldl Place.after .origin ∧
    Zone.gap.past used = zone
  rest : s.rest = left ++ (x.run ++ x.after)
  rest' : s'.rest = left ++ (x.run' ++ x.after)
  place : s'.place = s.place
  margin : s'.margin = s.margin
  blank : ∀ c ∈ s.margin.flatten, CharClass.blank.holds c = true
  phrases : AllAlike Anywhere s.phrases s'.phrases

/-- Both states are before the run, where the zone and what is left are such. -/
def Early (P : Zone → List Char → Prop) (s s' : State) : Prop :=
  ∃ zone left, x.Before zone left s s' ∧ P zone left

/-- The second place is the first, but for the lengths of the runs. -/
def Shifted (p p' : Place) : Prop := p'.offset + x.run.length = p.offset + x.run'.length

/-- Both states are behind the run. -/
def Late : State → State → Prop := Displaced x.Shifted Anywhere

/-- The lengths of the runs are a displacement of places. -/
theorem displacement : Displacement x.Shifted Anywhere where
  after {p p'} c h := by
    unfold Shifted Place.after at *
    split <;> dsimp only <;> omega
  distance h h' := by
    unfold Shifted at *
    omega
  places _ := trivial

/-- A run begins with no character that a token looks for. -/
theorem behind_head : ∃ c more, x.run ++ x.after = c :: more ∧ opensRun c = true := by
  obtain ⟨c, rest, hrun, hc⟩ := x.isRun.head
  exact ⟨c, rest ++ x.after, by rw [hrun]; rfl, hc⟩

theorem behind_head' : ∃ c more, x.run' ++ x.after = c :: more ∧ opensRun c = true := by
  obtain ⟨c, rest, hrun, hc⟩ := x.isRun'.head
  exact ⟨c, rest ++ x.after, by rw [hrun]; rfl, hc⟩

variable {x} {zone : Zone} {left chars : List Char} {s s' t t' : State} {spacing : Spacing}
  {p q : Pattern} {P P' : Zone → List Char → Prop} {c : Char}

/-- Before the run, at a zone and a rest of the sort. -/
theorem Before.early (h : x.Before zone left s s') (hP : P zone left) : x.Early P s s' :=
  ⟨zone, left, h, hP⟩

theorem Early.mono (h : x.Early P s s') (himp : ∀ zone left, P zone left → P' zone left) :
    x.Early P' s s' := by
  obtain ⟨zone, left, h, hP⟩ := h
  exact ⟨zone, left, h, himp zone left hP⟩

end Swap

open Pattern

/-- What is found before a run is found in the text before it. -/
theorem prefix_of_prefix_run {chars left behind : List Char}
    (hbehind : ∃ c more, behind = c :: more ∧ opensRun c = true)
    (hchars : ∀ c ∈ chars, opensRun c = false) (h : chars <+: left ++ behind) :
    ∃ left', left = chars ++ left' := by
  rcases List.prefix_or_prefix_of_prefix h (List.prefix_append left _) with hprefix | hprefix
  · obtain ⟨left', hleft⟩ := hprefix
    exact ⟨left', hleft.symm⟩
  · obtain ⟨more, rfl⟩ := hprefix
    cases more with
    | nil => exact ⟨[], by simp⟩
    | cons c more =>
        obtain ⟨d, rest, rfl, hd⟩ := hbehind
        have hmore := (List.prefix_append_right_inj left).mp h
        obtain ⟨rfl, -⟩ := List.cons_prefix_cons.mp hmore
        rw [hchars c (by simp)] at hd
        cases hd

namespace Swap.Before

variable {x : Swap} {zone : Zone} {left chars : List Char} {s s' t t' : State} {spacing : Spacing}
  {p q : Pattern} {P : Zone → List Char → Prop} {c : Char} {r : Rule}

/-! ### Reading on -/

/-- Reading on leaves less before the run. -/
theorem past (chars : List Char) (h : x.Before zone (chars ++ left) s s') :
    x.Before (zone.past chars) left (s.past chars (left ++ (x.run ++ x.after)))
      (s'.past chars (left ++ (x.run' ++ x.after))) := by
  obtain ⟨used, hbefore, hplace, hzone⟩ := h.read
  refine ⟨⟨used ++ chars, ?_, ?_, ?_⟩, rfl, rfl, ?_, h.margin, h.blank, h.phrases⟩
  · rw [hbefore, List.append_assoc]
  · rw [List.foldl_append, ← hplace]
    rfl
  · rw [Zone.past_append, hzone]
  · rw [State.past, State.past, h.place]

/-- What is left ends with a token, if there is any. -/
theorem endsSolid (h : x.Before zone left s s') (hne : left ≠ []) : EndsSolid left := by
  obtain ⟨used, hbefore, -, -⟩ := h.read
  have hends := x.seam.ends
  rw [hbefore] at hends
  exact hends.of_append hne

/-- Outside of the code more is left. -/
theorem ne_nil (h : x.Before zone left s s') (hzone : zone.isCode = false) : left ≠ [] := by
  rintro rfl
  obtain ⟨used, hbefore, -, hused⟩ := h.read
  have hcode := x.seam.code
  rw [hbefore, List.append_nil, hused, hzone] at hcode
  cases hcode

/-- Behind layout more is left. -/
theorem ne_nil_of_layout (h : x.Before zone (chars ++ left) s s') (hne : chars ≠ [])
    (hchars : ∀ c ∈ chars, isLayout c = true) : left ≠ [] :=
  ((h.endsSolid (List.append_ne_nil_of_left_ne_nil hne left)).of_layout hchars).1

/-- A text that a run does not begin with is found in both texts or in none. -/
theorem agrees_text (h : x.Before zone left s s') (hchars : ∀ c ∈ chars, opensRun c = false) :
    (Pattern.text chars).Agrees
      (fun t t' => ∃ left', left = chars ++ left' ∧ x.Before (zone.past chars) left' t t')
      spacing s s' := by
  by_cases hprefix : ∃ left', left = chars ++ left'
  · obtain ⟨left', rfl⟩ := hprefix
    refine .of_matches (matches_text (State.takeText_append ?_))
      (matches_text (State.takeText_append ?_)) ⟨left', rfl, h.past chars⟩
    · rw [h.rest, List.append_assoc]
    · rw [h.rest', List.append_assoc]
  · refine .of_fails (fails_text (State.takeText_eq_none fun hs => hprefix ?_))
      (fails_text (State.takeText_eq_none fun hs => hprefix ?_))
    · rw [h.rest] at hs
      exact prefix_of_prefix_run x.behind_head hchars hs
    · rw [h.rest'] at hs
      exact prefix_of_prefix_run x.behind_head' hchars hs

/-- What is decided by the next character, which is in the text or opens a run
that is not looked for. -/
theorem agrees_head (accepts : Char → Bool) (h : x.Before zone left s s')
    (hrun : left = [] → ∀ c, opensRun c = true → accepts c = false)
    (hmatches : ∀ {u : State} {c rest}, accepts c = true → u.rest = c :: rest →
      p.Matches spacing u (u.past [c] rest))
    (hfails : ∀ {u : State} {c rest}, accepts c = false → u.rest = c :: rest → p.Fails spacing u) :
    p.Agrees (fun t t' => ∃ c left', left = c :: left' ∧ accepts c = true ∧
      x.Before (zone.after c) left' t t') spacing s s' := by
  obtain ⟨hs, hs'⟩ := And.intro h.rest h.rest'
  cases left with
  | nil =>
      obtain ⟨c, more, hbehind, hc⟩ := x.behind_head
      obtain ⟨c', more', hbehind', hc'⟩ := x.behind_head'
      rw [List.nil_append, hbehind] at hs
      rw [List.nil_append, hbehind'] at hs'
      exact .of_fails (hfails (hrun rfl c hc) hs) (hfails (hrun rfl c' hc') hs')
  | cons c left =>
      cases haccepts : accepts c with
      | false => exact .of_fails (hfails haccepts hs) (hfails haccepts hs')
      | true =>
          exact .of_matches (hmatches haccepts hs) (hmatches haccepts hs')
            ⟨c, left, rfl, haccepts, past [c] h⟩

/-- A class that no run begins with takes the same character. -/
theorem agrees_one {set : CharClass} (h : x.Before zone left s s')
    (hrun : left = [] → ∀ c, opensRun c = true → set.holds c = false) :
    (Pattern.one set).Agrees (fun t t' => ∃ c left', left = c :: left' ∧ set.holds c = true ∧
      x.Before (zone.after c) left' t t') spacing s s' := by
  refine h.agrees_head set.holds hrun (fun hc hu => matches_one hu hc) fun {u c rest} hc hu => ?_
  refine fails_one fun d more hd => ?_
  obtain ⟨rfl, -⟩ := List.cons.inj (hu.symm.trans hd)
  exact hc

/-- A character that no run begins with is found in both texts or in none. -/
theorem agrees_char {d : Char} (h : x.Before zone left s s')
    (hrun : left = [] → opensRun d = false) :
    (Pattern.text [d]).Agrees (fun t t' => ∃ left', left = d :: left' ∧
      x.Before (zone.after d) left' t t') spacing s s' := by
  refine (h.agrees_head (· == d) ?_ ?_ ?_).mono ?_
  · intro hleft c hc
    rw [beq_eq_false_iff_ne]
    rintro rfl
    rw [hrun hleft] at hc
    cases hc
  · intro u c rest hc hu
    obtain rfl := beq_iff_eq.mp hc
    exact matches_text_cons hu
  · intro u c rest hc hu
    exact fails_text_cons hu (beq_eq_false_iff_ne.mp hc)
  · rintro t t' ⟨c, left', hleft, hc, ht⟩
    obtain rfl := beq_iff_eq.mp hc
    exact ⟨left', hleft, ht⟩

theorem freePhrases : FreePhrases Anywhere (x.Before zone left) :=
  fun _ _ _ _ h hfound => ⟨h.read, h.rest, h.rest', h.place, h.margin, h.blank, hfound⟩

/-- Between states before the run lies the same text. -/
theorem textUpTo_eq {zone' : Zone} {left' : List Char} (h : x.Before zone left s s')
    (h' : x.Before zone' left' t t') : s'.textUpTo t' = s.textUpTo t := by
  obtain ⟨used, hbefore, hplace, -⟩ := h.read
  obtain ⟨used', hbefore', hplace', -⟩ := h'.read
  have hlength : used.length + left.length = used'.length + left'.length := by
    rw [← List.length_append, ← List.length_append, ← hbefore, ← hbefore']
  have hle : t.place.offset - s.place.offset ≤ left.length := by
    rw [hplace, hplace', Place.offset_foldl, Place.offset_foldl]
    omega
  rw [State.textUpTo, State.textUpTo, h.place, h'.place, h.rest, h.rest',
    List.take_append_of_le_length hle, List.take_append_of_le_length hle]

/-! ### Across the run -/

/-- Both come behind the run. -/
theorem across (h : x.Before zone [] s s') :
    x.Late (s.past x.run x.after) (s'.past x.run' x.after) := by
  refine ⟨rfl, h.margin, ?_, h.phrases⟩
  rw [Shifted, State.past, State.past, Place.offset_foldl, Place.offset_foldl, h.place]
  omega

/-- Where nothing is left blanks are skipped up to the token behind the run. -/
theorem skip_across (h : x.Before zone [] s s') : x.Late (s.skip .loose) (s'.skip .loose) := by
  obtain ⟨c, later, hafter, hc⟩ := x.seam.starts
  have hskip : ∀ {u : State} {run}, IsRun run → u.rest = [] ++ (run ++ x.after) →
      u.skip .loose = u.past run x.after := by
    intro u run hrun hu
    simp only [State.skip, hu, List.nil_append, hafter, hrun.skipBlanks_append hc]
    rfl
  rw [hskip x.isRun h.rest, hskip x.isRun' h.rest']
  exact h.across

/-- Where more is left blanks are skipped before the run. -/
theorem skip_loose (h : x.Before zone left s s') (hne : left ≠ []) :
    ∃ blanks left', left = blanks ++ left' ∧ left' ≠ [] ∧ (∀ c ∈ blanks, isLayout c = true) ∧
      x.Before (zone.past blanks) left' (s.skip .loose) (s'.skip .loose) := by
  obtain ⟨blanks, left', rfl, hne', hblanks, hskip⟩ := (h.endsSolid hne).skipBlanks_append
  have hskipped : ∀ {u : State} {behind}, u.rest = blanks ++ left' ++ behind →
      (∃ c more, behind = c :: more ∧ opensRun c = true) →
      u.skip .loose = u.past blanks (left' ++ behind) := by
    intro u behind hu hbehind
    simp only [State.skip, hu, hskip behind hbehind]
    rfl
  refine ⟨blanks, left', rfl, hne', hblanks, ?_⟩
  rw [hskipped h.rest x.behind_head, hskipped h.rest' x.behind_head']
  exact h.past blanks

end Swap.Before

/-! ### Line breaks before the run -/

/-- In the code, and the token that ends at the seam is still to come. -/
def Unfinished (zone : Zone) (left : List Char) : Prop := zone.isCode = true ∧ left ≠ []

/-- So it is, and no name or number goes on. -/
def Fresh (zone : Zone) (left : List Char) : Prop := zone = .gap ∧ left ≠ []

/-- In the code. -/
def Coded (zone : Zone) (_ : List Char) : Prop := zone.isCode = true

/-- A gap is in the code. -/
theorem coded_of_gap {zone : Zone} {left : List Char} (h : zone = .gap) : Coded zone left := by
  rw [Coded, h]
  rfl

/-- Where nothing goes on, the token at the seam is still to come. -/
theorem Fresh.unfinished {zone : Zone} {left : List Char} (h : Fresh zone left) :
    Unfinished zone left :=
  ⟨by rw [h.1]; rfl, h.2⟩

/-- A run of blanks ends no line: the spaces and tabs that it begins with are
followed by a backslash or by the token behind the run. -/
theorem blankRest_at_run {run after : List Char} (hrun : IsRun run)
    (hafter : StartsSolid after) {u : State} (hu : u.rest = run ++ after) :
    ∃ t, blankRest.Matches .tight u t ∧ ∃ c more, t.rest = c :: more ∧ endsLine c = false := by
  obtain ⟨blanks, tail, rfl, hblanks, htail⟩ := hrun.exists_plain
  obtain ⟨d, later, rfl, hd⟩ := hafter
  have hstop : ∃ c more, tail ++ d :: later = c :: more ∧ CharClass.blank.holds c = false ∧
      c ≠ '#' ∧ endsLine c = false := by
    rcases htail with rfl | ⟨more, rfl⟩
    · have hlayout := hd.not_isLayout
      simp only [isLayout, opensRun, Bool.or_eq_false_iff] at hlayout
      exact ⟨d, later, rfl, hlayout.1.1, hd.2.2, hlayout.2⟩
    · exact ⟨'\\', more ++ d :: later, rfl, by decide⟩
  obtain ⟨c, more, hrest, hblank, hhash, hends⟩ := hstop
  have hmany : (Pattern.many (.one .blank)).Spells blanks ([] ++ c :: more) := by
    refine spells_many_one hblanks fun e _ he => ?_
    obtain ⟨rfl, -⟩ := List.cons.inj he
    exact hblank
  have hnone : (Pattern.text ['#']).Rejects (c :: more) := fun _ hs => fails_text_cons hs hhash
  have hspells : blankRest.Spells (blanks ++ []) (c :: more) := hmany.seq hnone.seq.opt
  rw [List.append_nil] at hspells
  refine ⟨u.past blanks (c :: more), hspells.tight (by decide) ?_, c, more, rfl, hends⟩
  rw [hu, List.append_assoc, hrest]

/-- So there is no line break. -/
theorem fails_blankLine_at_run {run after : List Char} (hrun : IsRun run)
    (hafter : StartsSolid after) {u : State} (hu : u.rest = run ++ after) :
    blankLine.Fails .tight u := by
  obtain ⟨t, ht, c, more, hrest, hc⟩ := blankRest_at_run hrun hafter hu
  obtain ⟨hfeed, hreturn⟩ : c ≠ '\n' ∧ c ≠ '\r' := by simpa [endsLine] using hc
  exact ht.seq_fails ((fails_text_cons hrest hfeed).choice_fails
    ((fails_text_cons hrest hreturn).choice_fails (fails_text_cons hrest hreturn)))

/-- Where a line does not end, no line break is read. -/
theorem endsLine_of_fails_newline {spacing : Spacing} {u : State} {c : Char} {rest : List Char}
    (h : newline.Fails spacing u) (hu : u.rest = c :: rest) : endsLine c = false := by
  obtain ⟨hfeed, hboth⟩ := fails_choice_iff.mp h
  obtain ⟨-, hreturn⟩ := fails_choice_iff.mp hboth
  simp only [endsLine, Bool.or_eq_false_iff, beq_eq_false_iff_ne]
  constructor
  · rintro rfl
    exact (matches_text_cons hu).not_fails hfeed
  · rintro rfl
    exact (matches_text_cons hu).not_fails hreturn

/-- What ends with a token is not over with the blanks in it. -/
theorem prefix_of_prefix_layout {chars left behind : List Char} (hleft : EndsSolid left)
    (hchars : ∀ c ∈ chars, isLayout c = true) (h : chars <+: left ++ behind) :
    ∃ left', left = chars ++ left' := by
  rcases List.prefix_or_prefix_of_prefix h (List.prefix_append left _) with hprefix | hprefix
  · obtain ⟨left', hleft⟩ := hprefix
    exact ⟨left', hleft.symm⟩
  · obtain ⟨more, rfl⟩ := hprefix
    exact absurd (fun c hc => hchars c (List.mem_append_left more hc)) hleft.not_layout

namespace Swap.Before

variable {x : Swap} {zone : Zone} {left chars : List Char} {s s' t t' : State} {spacing : Spacing}

/-- A line break is there in both texts or in none. -/
theorem agrees_newline_of {R : State → State → Prop} (h : x.Before zone left s s')
    (hR : ∀ chars left' t t', chars ≠ [] → (∀ c ∈ chars, endsLine c = true) →
      left = chars ++ left' → x.Before (zone.past chars) left' t t' → R t t') :
    newline.Agrees R spacing s s' := by
  have htext : ∀ {chars}, chars ≠ [] → (∀ c ∈ chars, endsLine c = true) →
      (Pattern.text chars).Agrees R spacing s s' := by
    intro chars hne hchars
    have hclear : ∀ c ∈ chars, opensRun c = false := by
      intro c hc
      have hends := hchars c hc
      simp only [endsLine, Bool.or_eq_true, beq_iff_eq] at hends
      rcases hends with rfl | rfl <;> rfl
    refine (h.agrees_text hclear).mono ?_
    rintro t t' ⟨left', hleft, ht⟩
    exact hR chars left' t t' hne hchars hleft ht
  have hfeed : ∀ c ∈ ['\n'], endsLine c = true := List.forall_mem_singleton.mpr rfl
  have hreturn : ∀ c ∈ ['\r'], endsLine c = true := List.forall_mem_singleton.mpr rfl
  have hboth : ∀ c ∈ ['\r', '\n'], endsLine c = true := List.forall_mem_cons.mpr ⟨rfl, hfeed⟩
  exact (htext (List.cons_ne_nil _ _) hfeed).choice
    ((htext (List.cons_ne_nil _ _) hboth).choice (htext (List.cons_ne_nil _ _) hreturn))

/-- A line break leads into a gap. -/
theorem agrees_newline (h : x.Before zone left s s')
    (hzone : zone.isCode = true ∨ zone = .comment) :
    newline.Agrees (x.Early Fresh) spacing s s' := by
  refine h.agrees_newline_of ?_
  rintro chars left' t t' hne hchars rfl ht
  refine ht.early ⟨Zone.past_endsLine hzone hchars hne, ?_⟩
  exact h.ne_nil_of_layout hne fun c hc => by rw [isLayout, hchars c hc, Bool.or_true]

/-- A space or a tab before the seam. -/
theorem agrees_blank (h : x.Before zone left s s') (hzone : zone.isCode = true) (hne : left ≠ []) :
    (Pattern.one .blank).Agrees (x.Early Fresh) spacing s s' := by
  refine (h.agrees_one fun hnil => absurd hnil hne).mono ?_
  rintro t t' ⟨c, left', rfl, hc, ht⟩
  have hlayout : isLayout c = true := by
    rw [isLayout, opensRun, hc]
    rfl
  exact ht.early ⟨Zone.after_neutral hzone (isNeutral_of_isLayout hlayout),
    h.ne_nil_of_layout (List.cons_ne_nil c []) (List.forall_mem_singleton.mpr hlayout)⟩

end Swap.Before

namespace Swap.Early

variable {x : Swap} {P : Zone → List Char → Prop} {s s' : State} {spacing : Spacing}

/-- Spaces and tabs before the seam. -/
theorem agrees_blanks (h : x.Early Unfinished s s') :
    (Pattern.many (.one .blank)).Agrees (x.Early Unfinished) .tight s s' := by
  refine (Agrees.many State.skip_tight (fun t t' ht => ?_) h).mono fun _ _ ht => ht.1
  obtain ⟨zone, left, ht, hzone, hne⟩ := ht
  exact (ht.agrees_blank hzone hne).mono fun _ _ hu => hu.mono fun _ _ => Fresh.unfinished

/-- At least one of them. -/
theorem agrees_someBlanks (htight : ∀ u : State, u.skip spacing = u) (h : x.Early Unfinished s s') :
    (Pattern.some (.one .blank)).Agrees (x.Early Fresh) spacing s s' := by
  obtain ⟨zone, left, h, hzone, hne⟩ := h
  refine (h.agrees_blank hzone hne).seq fun t t' ht => ?_
  rw [htight, htight]
  refine (Agrees.many htight (fun u u' hu => ?_) ht).mono fun _ _ hu => hu.1
  obtain ⟨_, left', hu, rfl, hne'⟩ := hu
  exact hu.agrees_blank rfl hne'

/-- A comment before the seam ends before it, for the seam is in the code. -/
theorem agrees_comment (h : x.Early Unfinished s s') :
    (Pattern.opt comment).Agrees (x.Early fun zone left =>
      (zone.isCode = true ∨ zone = .comment) ∧ left ≠ []) .tight s s' := by
  obtain ⟨zone, left, h, hzone, hne⟩ := h
  have hmark : (Pattern.text ['#']).Agrees (x.Early fun zone _ => zone = .comment) .tight s s' := by
    refine (h.agrees_char fun hnil => absurd hnil hne).mono ?_
    rintro t t' ⟨left', -, ht⟩
    exact ht.early (Zone.after_hash hzone)
  have hchar : ∀ u u', x.Early (fun zone _ => zone = .comment) u u' →
      (guarding newline).Agrees (x.Early fun zone _ => zone = .comment) .tight u u' := by
    rintro u u' ⟨_, left, hu, rfl⟩
    have hgoing := hu.ne_nil rfl
    refine Agrees.seq (R := fun v v' => x.Before .comment left v v' ∧ newline.Fails .tight v)
      ((hu.agrees_newline (.inr rfl)).absent fun hfails => ⟨hu, hfails⟩) ?_
    rintro v v' ⟨hv, hfails⟩
    refine (hv.agrees_one fun hnil => absurd hnil hgoing).mono ?_
    rintro w w' ⟨c, left', rfl, -, hw⟩
    refine hw.early ?_
    rw [Zone.after, if_neg]
    rw [Bool.not_eq_true]
    exact endsLine_of_fails_newline hfails hv.rest
  refine Agrees.opt (hmark.seq fun t t' ht => ?_) (h.early ⟨.inl hzone, hne⟩)
  refine (Agrees.many State.skip_tight hchar ht).mono ?_
  rintro u u' ⟨⟨_, left, hu, rfl⟩, -⟩
  exact hu.early ⟨.inr rfl, hu.ne_nil rfl⟩

/-- Blanks and a comment before the run end there in both texts. -/
theorem agrees_blankRest (h : x.Early Unfinished s s') :
    blankRest.Agrees (x.Early fun zone left =>
      (zone.isCode = true ∨ zone = .comment) ∧ left ≠ []) .tight s s' :=
  h.agrees_blanks.seq fun _ _ ht => ht.agrees_comment

/-- **A blank line** is over before the seam. -/
theorem agrees_blankLine (h : x.Early Coded s s') :
    blankLine.Agrees (x.Early Fresh) .tight s s' := by
  obtain ⟨zone, left, h, hzone⟩ := h
  by_cases hne : left = []
  · subst hne
    exact .of_fails (fails_blankLine_at_run x.isRun x.seam.starts h.rest)
      (fails_blankLine_at_run x.isRun' x.seam.starts h.rest')
  · refine Early.agrees_blankRest (h.early ⟨hzone, hne⟩) |>.seq ?_
    rintro t t' ⟨zone', left', ht, hzone', -⟩
    exact ht.agrees_newline hzone'

/-- **A line break** is over before the seam. -/
theorem agrees_lineBreak (h : x.Early Coded s s') :
    lineBreak.Agrees (x.Early Fresh) .tight s s' := by
  have hlines : (Pattern.seq blankLine (.many blankLine)).Agrees (x.Early Fresh) .tight s s' := by
    refine h.agrees_blankLine.seq fun t t' ht => ?_
    refine (Agrees.many State.skip_tight (fun u u' hu => ?_) ht).mono fun _ _ hu => hu.1
    exact agrees_blankLine (hu.mono fun _ _ hfresh => coded_of_gap hfresh.1)
  constructor
  · intro t ht
    obtain ⟨t', ht', hR⟩ := hlines.1 t (matches_seq_iff.mpr (matches_lineBreak_iff.mp ht))
    exact ⟨t', matches_lineBreak_iff.mpr (matches_seq_iff.mp ht'), hR⟩
  · intro hfails
    exact fails_lineBreak_iff.mpr (h.agrees_blankLine.2 (fails_lineBreak_iff.mp hfails))

/-- The text does not end before the seam. -/
theorem agrees_endOfInput {R : State → State → Prop} (h : x.Early Coded s s') :
    (Pattern.seq blankRest (.rule .endOfInput)).Agrees R .tight s s' := by
  have hfails : ∀ {u : State}, u.rest ≠ [] → (Pattern.rule .endOfInput).Fails .tight u :=
    fun hu => Fails.rule (fails_finish hu)
  obtain ⟨zone, left, h, hzone⟩ := h
  by_cases hne : left = []
  · subst hne
    have hrun : ∀ {run u}, IsRun run → u.rest = run ++ x.after →
        (Pattern.seq blankRest (.rule .endOfInput)).Fails .tight u := by
      intro run u hrun hu
      obtain ⟨t, ht, c, more, hrest, -⟩ := blankRest_at_run hrun x.seam.starts hu
      exact ht.seq_fails (hfails (by rw [State.skip, hrest]; exact List.cons_ne_nil c more))
    exact .of_fails (hrun x.isRun h.rest) (hrun x.isRun' h.rest')
  · refine (Early.agrees_blankRest (h.early ⟨hzone, hne⟩)).seq ?_
    rintro t t' ⟨zone', left', ht, -, hne'⟩
    refine .of_fails (hfails ?_) (hfails ?_)
    · rw [State.skip, ht.rest]
      exact List.append_ne_nil_of_left_ne_nil hne' _
    · rw [State.skip, ht.rest']
      exact List.append_ne_nil_of_left_ne_nil hne' _

/-! ### Margins before the run -/

/-- Behind a line break the margin is before the seam. -/
theorem agrees_margin (h : x.Early Fresh s s') :
    Pattern.margin.Agrees (x.Early Fresh) spacing s s' := by
  obtain ⟨_, left, h, rfl, hne⟩ := h
  have hlayout : ∀ c ∈ s.margin.flatten, isLayout c = true := by
    intro c hc
    rw [isLayout, opensRun, h.blank c hc]
    rfl
  have hends := h.endsSolid hne
  by_cases hprefix : ∃ left', left = s.margin.flatten ++ left'
  · obtain ⟨left', rfl⟩ := hprefix
    refine .of_matches (matches_margin (State.takeText_append ?_)) (matches_margin ?_)
      ((h.past s.margin.flatten).early ⟨?_, ?_⟩)
    · rw [h.rest, List.append_assoc]
    · rw [h.margin]
      exact State.takeText_append (by rw [h.rest', List.append_assoc])
    · exact Zone.past_gap fun c hc => isNeutral_of_isLayout (hlayout c hc)
    · exact (hends.of_layout hlayout).1
  · refine .of_fails (fails_margin (State.takeText_eq_none fun hs => hprefix ?_))
      (fails_margin (State.takeText_eq_none fun hs => hprefix ?_))
    · rw [h.rest] at hs
      exact prefix_of_prefix_layout hends hlayout hs
    · rw [h.rest', h.margin] at hs
      exact prefix_of_prefix_layout hends hlayout hs

/-- An outdent takes off the same width. -/
theorem agrees_outdent (h : x.Early P s s') : Pattern.outdent.Agrees (x.Early P) spacing s s' := by
  obtain ⟨zone, left, h, hP⟩ := h
  refine .outdent h.margin fun width outer hmargin => ?_
  refine ⟨zone, left, ⟨h.read, h.rest, h.rest', h.place, rfl, fun c hc => h.blank c ?_, h.phrases⟩, hP⟩
  rw [hmargin]
  exact List.mem_append_right width hc

/-- Behind a line break the indentation is before the seam. -/
theorem agrees_indentation (h : x.Early Fresh s s') :
    (Pattern.indent indentation).Agrees (x.Early Fresh) .tight s s' := by
  have hunfinished : x.Early Unfinished s s' := h.mono fun _ _ => Fresh.unfinished
  refine (hunfinished.agrees_someBlanks State.skip_tight).indent fun t t' hmatches ht => ?_
  obtain ⟨zone, left, h, -⟩ := h
  obtain ⟨zone', left', ht, hfresh⟩ := ht
  have htext := h.textUpTo_eq ht
  have hwidth := blank_of_indentation hmatches
  refine ⟨zone', left', ⟨ht.read, ht.rest, ht.rest', ht.place, ?_, ?_, ht.phrases⟩, hfresh⟩
  · exact List.cons_eq_cons.mpr ⟨htext, ht.margin⟩
  · exact List.forall_mem_append.mpr ⟨hwidth, ht.blank⟩

end Swap.Early

end FunctionIR.Grammar
