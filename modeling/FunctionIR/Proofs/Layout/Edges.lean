import FunctionIR.Proofs.Grammar.Extents
import FunctionIR.Proofs.Layout.SeamRules
import FunctionIR.Proofs.Reading.StatementFindings

/-!
# The edges of phrases

A phrase begins with a token.  It ends with a token, too, but not always right
behind it: where blanks may stand between parts, a part that is tried last and
is not there leaves the blanks before it inside the phrase.  These are all the
blanks that stand there, so a phrase ends right behind a token or where the next
one begins (`BehindToken`).

Whether a pattern begins and ends so is told by its form (`Pattern.opens`,
`Pattern.ends`), once it is told for the rules in it.  Those of the grammar keep
what is told of them, which is checked by evaluation (`Rule.opens_definition`,
`Rule.ends_definition`).  So all phrases of a text have sharp edges
(`sharp_of_matchText`), but for the few that begin with the end of a line.
-/

namespace FunctionIR.Grammar

open Pattern (MatchesIn)

/-! ### Points in a text -/

/-- The place is the point of the text that has the rest behind it. -/
def Place.Before (whole rest : List Char) (place : Place) : Prop :=
  ∃ before, whole = before ++ rest ∧ place = before.foldl Place.after .origin

/-- The rest begins right behind a token or, if there can be a gap, behind all
blanks after the token. -/
def BehindToken (gaps : Bool) (whole rest : List Char) : Prop :=
  ∃ core behind, whole = core ++ behind ∧ EndsSolid core ∧
    (rest = behind ∨ (gaps = true ∧ rest = clear behind))

section

variable {whole rest : List Char} {gaps : Bool} {s t : State} {spacing : Spacing}

/-- Going over a text keeps the place where the text says. -/
theorem Place.Before.covers (h : s.place.Before whole s.rest) (hcovers : Covers s t) :
    t.place.Before whole t.rest := by
  obtain ⟨before, rfl, hplace⟩ := h
  obtain ⟨text, -, hrest, hstop, -, -⟩ := hcovers
  refine ⟨before ++ text, ?_, ?_⟩
  · rw [hrest, List.append_assoc]
  · rw [hstop, hplace, List.foldl_append]

/-- What is left gets no longer. -/
theorem Covers.length_le (h : Covers s t) : t.rest.length ≤ s.rest.length := by
  obtain ⟨text, -, hrest, -, -, -⟩ := h
  rw [hrest, List.length_append]
  omega

/-- A skip goes over some text. -/
theorem covers_skip (s : State) (spacing : Spacing) : Covers s (s.skip spacing) :=
  kept_covers.toAdvances.skip s spacing

theorem BehindToken.of_append {text : List Char} (h : EndsSolid text) :
    BehindToken gaps (whole ++ (text ++ rest)) rest := by
  obtain ⟨c, hlast, hc⟩ := h
  refine ⟨whole ++ text, rest, (List.append_assoc _ _ _).symm, ⟨c, ?_, hc⟩, .inl rfl⟩
  rw [List.getLast?_append, hlast, Option.some_or]

/-- Blanks that are skipped are a gap, and behind a gap there are none. -/
theorem BehindToken.skip (hgaps : gaps = true ∨ spacing ≠ .loose)
    (h : BehindToken gaps whole s.rest) : BehindToken gaps whole (s.skip spacing).rest := by
  cases spacing with
  | tight | token => exact h
  | loose =>
      obtain rfl := hgaps.resolve_right (absurd rfl)
      obtain ⟨core, behind, hwhole, hcore, hrest⟩ := h
      rw [State.skip_rest]
      refine ⟨core, behind, hwhole, hcore, .inr ⟨rfl, ?_⟩⟩
      rcases hrest with hrest | ⟨-, hrest⟩
      · rw [hrest]
      · rw [hrest, clear_clear]

end

/-! ### Rules -/

/-- The rule begins with a token; the others can begin with the end of a line. -/
def Rule.opens : Rule → Bool
  | .endOfInput | .module | .block | .elseClause | .loopElse => false
  | _ => true

/-- The rule ends with a token, with or without a gap behind it.  Without a gap
end the rules that are a token or have one at their end. -/
def Rule.ends : Bool → Rule → Bool
  | true, r => r ≠ .endOfInput && r ≠ .module
  | false, .identifier | false, .noneLiteral | false, .trueLiteral | false, .falseLiteral
  | false, .float | false, .integer | false, .string | false, .parenthesized
  | false, .listDisplay | false, .call | false, .attr | false, .subscript
  | false, .passStatement | false, .breakStatement | false, .continueStatement => true
  | false, _ => false

/-- All characters of the set are those of tokens. -/
def CharClass.solid : CharClass → Bool
  | .digit | .nameStart | .nameChar => true
  | .any | .blank => false

/-- A set of characters of tokens holds no blank and no sign of a comment. -/
theorem CharClass.isSolid {set : CharClass} (hset : set.solid = true) {c : Char}
    (hc : set.holds c = true) : IsSolid c := by
  have hname : CharClass.nameChar.holds c = true := by
    cases set with
    | digit => exact nameChar_of_digit hc
    | nameStart =>
        simp only [CharClass.holds, Char.isAlphanum, Bool.or_eq_true] at hc ⊢
        exact hc.imp_left .inl
    | nameChar => exact hc
    | any | blank => cases hset
  refine ⟨isBlank_of_nameChar hname, ?_, ?_⟩ <;> rintro rfl <;> revert hname <;> decide

namespace Pattern

/-- The pattern matches nothing. -/
def still : Pattern → Bool
  | .absent _ => true
  | _ => false

/-- The pattern begins with a token. -/
def opens (spacing : Spacing) : Pattern → Bool
  | .text chars => StartsSolid chars
  | .one set => set.solid
  | .seq p q => p.opens spacing || (p.still && spacing != .loose && q.opens spacing)
  | .choice p q => p.opens spacing && q.opens spacing
  | .rule r => r.opens
  | _ => false

mutual

/-- The pattern ends with a token. -/
def ends (gaps : Bool) (spacing : Spacing) : Pattern → Bool
  | .text chars => EndsSolid chars
  | .one set => set.solid
  | .seq p q =>
    q.ends gaps spacing ||
      ((gaps || spacing != .loose) && p.ends gaps spacing && q.trails gaps spacing)
  | .choice p q => p.ends gaps spacing && q.ends gaps spacing
  | .rule r => r.ends gaps
  | _ => false

/-- Behind what ends with a token, the pattern ends with a token. -/
def trails (gaps : Bool) (spacing : Spacing) : Pattern → Bool
  | .text chars => EndsSolid chars
  | .one set => set.solid
  | .seq p q =>
    q.ends gaps spacing ||
      ((gaps || spacing != .loose) && p.trails gaps spacing && q.trails gaps spacing)
  | .choice p q => p.trails gaps spacing && q.trails gaps spacing
  | .opt p => p.trails gaps spacing
  | .many p => (gaps || spacing != .loose) && p.trails gaps spacing
  | .rule r => r.ends gaps
  | .absent _ | .start | .finish | .outdent => true
  | _ => false

end

section

variable {gaps : Bool} {spacing : Spacing} {p q : Pattern}

/-- A sequence begins as its first part, or as its second behind a guard. -/
theorem opens_seq : (Pattern.seq p q).opens spacing =
    (p.opens spacing || (p.still && spacing != .loose && q.opens spacing)) := rfl

/-- A sequence ends as its second part, or as its first if the second adds nothing loose. -/
theorem ends_seq : (Pattern.seq p q).ends gaps spacing = (q.ends gaps spacing ||
    ((gaps || spacing != .loose) && p.ends gaps spacing && q.trails gaps spacing)) := rfl

/-- A sequence stays behind a token if it ends with one, or if both parts stay. -/
theorem trails_seq : (Pattern.seq p q).trails gaps spacing = (q.ends gaps spacing ||
    ((gaps || spacing != .loose) && p.trails gaps spacing && q.trails gaps spacing)) := rfl

/-- A choice ends with a token if both parts do. -/
theorem ends_choice :
    (Pattern.choice p q).ends gaps spacing = (p.ends gaps spacing && q.ends gaps spacing) := rfl

/-- A choice stays behind a token if both parts do. -/
theorem trails_choice : (Pattern.choice p q).trails gaps spacing =
    (p.trails gaps spacing && q.trails gaps spacing) := rfl

/-- Rounds stay behind a token if each of them does. -/
theorem trails_many : (Pattern.many p).trails gaps spacing =
    ((gaps || spacing != .loose) && p.trails gaps spacing) := rfl

end

end Pattern

/-- A rule begins with a token if its pattern is told to. -/
theorem Rule.opens_definition {r : Rule} (h : r.opens = true) (spacing : Spacing) :
    r.definition.pattern.opens (r.inside spacing) = true := by
  have hall : ∀ r ∈ Rule.all, r.opens = true → ∀ spacing ∈ [Spacing.loose, .tight, .token],
      r.definition.pattern.opens (r.inside spacing) = true := by
    decide +kernel
  exact hall r r.mem_all h spacing (by cases spacing <;> decide)

/-- A rule that ends with a token has a pattern that does. -/
theorem Rule.ends_definition {r : Rule} {gaps : Bool} (h : r.ends gaps = true)
    (spacing : Spacing) : r.definition.pattern.ends gaps (r.inside spacing) = true := by
  have hall : ∀ r ∈ Rule.all, ∀ gaps ∈ [true, false], r.ends gaps = true →
      ∀ spacing ∈ [Spacing.loose, .tight, .token],
        r.definition.pattern.ends gaps (r.inside spacing) = true := by
    decide +kernel
  exact hall r r.mem_all gaps (by cases gaps <;> decide) h spacing (by cases spacing <;> decide)

/-! ### Phrases with sharp edges -/

/-- The phrase is of a rule that leaves phrases, its text stands between its ends, it
begins and ends there as this rule does, and so do all phrases in it. -/
inductive Phrase.Sharp (whole : List Char) : Phrase → Prop
  | mk {rule : Rule} {start stop : Place} {text rest : List Char} {parts : List Phrase} :
      rule.definition.kept = true → start.Before whole (text ++ rest) → stop.Before whole rest →
      (rule.opens = true → StartsSolid (text ++ rest) ∧ text ≠ []) →
      (∀ gaps, rule.ends gaps = true → BehindToken gaps whole rest) →
      (∀ part ∈ parts, part.Sharp whole) → Phrase.Sharp whole (.mk rule start stop text parts)

/-- The parts of a sharp phrase are sharp. -/
theorem Phrase.Sharp.parts {whole : List Char} {phrase : Phrase} (h : phrase.Sharp whole) :
    ∀ part ∈ phrase.parts, part.Sharp whole := by
  cases h with
  | mk _ _ _ _ _ hparts => exact hparts

/-- A sharp phrase is of a rule that is kept. -/
theorem Phrase.Sharp.kept {whole : List Char} {phrase : Phrase} (h : phrase.Sharp whole) :
    phrase.rule.definition.kept = true := by
  cases h with
  | mk hkept => exact hkept

/-- What is known of a match, between the ends of which phrases are found. -/
structure Pattern.Edged (whole : List Char) (p : Pattern) (spacing : Spacing) (s t : State) :
    Prop where
  opens : p.opens spacing = true → StartsSolid s.rest ∧ t.rest.length < s.rest.length
  ends : ∀ gaps, p.ends gaps spacing = true → BehindToken gaps whole t.rest
  trails : ∀ gaps, p.trails gaps spacing = true → BehindToken gaps whole s.rest →
    BehindToken gaps whole t.rest
  phrases : (∀ phrase ∈ s.phrases, phrase.Sharp whole) → ∀ phrase ∈ t.phrases, phrase.Sharp whole

namespace Pattern

variable {whole : List Char} {p q : Pattern} {spacing : Spacing} {s t u : State} {n : Nat}

/-- A match goes over some text. -/
theorem MatchesIn.covers (h : p.MatchesIn n spacing s t) : Covers s t := kept_covers.of_matched h

/-- Nothing is matched where there is no token to match. -/
theorem edged_refl (hopens : p.opens spacing = false)
    (hends : ∀ gaps, p.ends gaps spacing = false) :
    p.Edged whole spacing s s where
  opens h := by rw [hopens] at h; cases h
  ends gaps h := by rw [hends] at h; cases h
  trails _ _ h := h
  phrases h := h

/-- A text that is a token. -/
theorem edged_past {chars rest : List Char} (hs : s.place.Before whole s.rest)
    (hrest : s.rest = chars ++ rest) (hopens : p.opens spacing = true → StartsSolid chars)
    (hends : ∀ gaps, p.ends gaps spacing = true → EndsSolid chars)
    (htrails : ∀ gaps, p.trails gaps spacing = true → EndsSolid chars) :
    p.Edged whole spacing s (s.past chars rest) := by
  have hbehind (gaps : Bool) (h : EndsSolid chars) : BehindToken gaps whole rest := by
    obtain ⟨before, rfl, -⟩ := hs
    rw [hrest]
    exact .of_append h
  refine ⟨fun h => ?_, fun gaps h => hbehind gaps (hends gaps h),
    fun gaps h _ => hbehind gaps (htrails gaps h), fun h => h⟩
  obtain ⟨c, later, rfl, hc⟩ := hopens h
  rw [hrest]
  refine ⟨⟨c, later ++ rest, rfl, hc⟩, ?_⟩
  simp only [State.past_rest, List.cons_append, List.length_cons, List.length_append]
  omega

/-- Edges of a sequence from those of its parts. -/
theorem Edged.seq (hp : p.Edged whole spacing s t)
    (hq : q.Edged whole spacing (t.skip spacing) u) (hcovers : Covers (t.skip spacing) u)
    (hstill : p.still = true → t = s) : (Pattern.seq p q).Edged whole spacing s u where
  opens h := by
    simp only [opens_seq, Bool.or_eq_true, Bool.and_eq_true, bne_iff_ne, ne_eq] at h
    rcases h with h | ⟨⟨h, htight⟩, hqopens⟩
    · obtain ⟨hstarts, hlt⟩ := hp.opens h
      have hskip := (covers_skip t spacing).length_le
      have hle := hcovers.length_le
      exact ⟨hstarts, by omega⟩
    · have hskip : t.skip spacing = s := by
        rw [hstill h]
        cases spacing <;> first | rfl | exact absurd rfl htight
      have hstarts := hq.opens hqopens
      rwa [hskip] at hstarts
  ends gaps h := by
    simp only [ends_seq, Bool.or_eq_true, Bool.and_eq_true, bne_iff_ne] at h
    rcases h with h | ⟨⟨hgaps, hends⟩, htrails⟩
    · exact hq.ends gaps h
    · exact hq.trails gaps htrails ((hp.ends gaps hends).skip hgaps)
  trails gaps h hs := by
    simp only [trails_seq, Bool.or_eq_true, Bool.and_eq_true, bne_iff_ne] at h
    rcases h with h | ⟨⟨hgaps, hfirst⟩, hsecond⟩
    · exact hq.ends gaps h
    · exact hq.trails gaps hsecond ((hp.trails gaps hfirst hs).skip hgaps)
  phrases h := hq.phrases (by rw [State.skip_phrases]; exact hp.phrases h)

/-- Edges of a choice that goes the first way. -/
theorem Edged.choice_left (h : p.Edged whole spacing s t) :
    (Pattern.choice p q).Edged whole spacing s t where
  opens hopens := h.opens (Bool.and_eq_true_iff.mp hopens).1
  ends gaps hends := by
    rw [ends_choice, Bool.and_eq_true] at hends
    exact h.ends gaps hends.1
  trails gaps htrails := by
    rw [trails_choice, Bool.and_eq_true] at htrails
    exact h.trails gaps htrails.1
  phrases := h.phrases

/-- Edges of a choice that goes the second way. -/
theorem Edged.choice_right (h : q.Edged whole spacing s t) :
    (Pattern.choice p q).Edged whole spacing s t where
  opens hopens := h.opens (Bool.and_eq_true_iff.mp hopens).2
  ends gaps hends := by
    rw [ends_choice, Bool.and_eq_true] at hends
    exact h.ends gaps hends.2
  trails gaps htrails := by
    rw [trails_choice, Bool.and_eq_true] at htrails
    exact h.trails gaps htrails.2
  phrases := h.phrases

/-- Edges of an optional part that is there. -/
theorem Edged.opt (h : p.Edged whole spacing s t) : (Pattern.opt p).Edged whole spacing s t where
  opens hopens := by cases hopens
  ends gaps hends := by cases hends
  trails gaps htrails := h.trails gaps htrails
  phrases := h.phrases

/-- The rounds of a repetition, each behind the one before. -/
theorem edged_many (hs : s.place.Before whole s.rest) (h : (Pattern.many p).MatchesIn n spacing s t)
    (hp : ∀ {s t : State}, p.MatchesIn n spacing s t → s.place.Before whole s.rest →
      p.Edged whole spacing s t) : (Pattern.many p).Edged whole spacing s t := by
  rcases h.many_inv with ⟨-, rfl⟩ | ⟨u, hfirst, hrounds, -⟩
  · exact edged_refl rfl fun _ => rfl
  have hedged := hp hfirst hs
  -- Every round begins at a point of the text, behind the first.
  suffices hall : t.place.Before whole t.rest ∧
      (∀ gaps, (Pattern.many p).trails gaps spacing = true → BehindToken gaps whole u.rest →
        BehindToken gaps whole t.rest) ∧
      ((∀ phrase ∈ u.phrases, phrase.Sharp whole) → ∀ phrase ∈ t.phrases, phrase.Sharp whole) by
    obtain ⟨-, htrails, hphrases⟩ := hall
    refine ⟨nofun, nofun, fun gaps hgaps hbehind => htrails gaps hgaps ?_,
      fun hsharp => hphrases (hedged.phrases hsharp)⟩
    rw [trails_many, Bool.and_eq_true] at hgaps
    exact hedged.trails gaps hgaps.2 hbehind
  clear h
  induction hrounds with
  | refl => exact ⟨hs.covers hfirst.covers, fun _ _ h => h, fun h => h⟩
  | @tail a b _ hlast ih =>
      obtain ⟨ha, htrails, hphrases⟩ := ih
      have hskipped := ha.covers (covers_skip a spacing)
      have hround := hp hlast hskipped
      refine ⟨hskipped.covers hlast.covers, fun gaps hgaps hbehind => ?_, fun hsharp => ?_⟩
      · have hmany := hgaps
        rw [trails_many, Bool.and_eq_true, Bool.or_eq_true, bne_iff_ne] at hmany
        exact hround.trails gaps hmany.2 ((htrails gaps hgaps hbehind).skip hmany.1)
      · refine hround.phrases ?_
        rw [State.skip_phrases]
        exact hphrases hsharp

/-- A rule has the edges of its pattern, and leaves a phrase that has them. -/
theorem Edged.rule {r : Rule} (hs : s.place.Before whole s.rest)
    (hcovers : Covers (s.openRule r spacing) t)
    (h : r.definition.pattern.Edged whole (r.inside spacing) (s.openRule r spacing) t) :
    (Pattern.rule r).Edged whole spacing s (State.afterRule r spacing s t) := by
  have hrest : (s.openRule r spacing).rest = s.rest := by unfold State.openRule; split <;> rfl
  have hplace : (s.openRule r spacing).place = s.place := by unfold State.openRule; split <;> rfl
  have hafter : (State.afterRule r spacing s t).rest = t.rest := by
    unfold State.afterRule; split <;> rfl
  have ht : t.place.Before whole t.rest := by
    refine Place.Before.covers ?_ hcovers
    rwa [hrest, hplace]
  have hopens (hr : r.opens = true) : StartsSolid s.rest ∧ t.rest.length < s.rest.length := by
    have hpattern := h.opens (Rule.opens_definition hr spacing)
    rwa [hrest] at hpattern
  have htext : s.rest = s.textUpTo t ++ t.rest := by
    have hcovered := hcovers.rest_eq
    rwa [State.textUpTo, hrest, hplace] at hcovered
  have hends (gaps : Bool) (hr : r.ends gaps = true) : BehindToken gaps whole t.rest :=
    h.ends gaps (Rule.ends_definition hr spacing)
  refine ⟨fun hr => ?_, fun gaps hr => ?_, fun gaps hr _ => ?_, fun hsharp => ?_⟩
  · rw [hafter]
    exact hopens hr
  · rw [hafter]
    exact hends gaps hr
  · rw [hafter]
    exact hends gaps hr
  · cases hvisible : r.visible spacing with
    | false =>
        have hphrases := h.phrases
        simp only [State.openRule, State.afterRule, hvisible] at hphrases ⊢
        exact hphrases hsharp
    | true =>
        have hparts := h.phrases
        rw [State.openRule_of_visible hvisible] at hparts
        have hinside := hparts (List.forall_mem_nil _)
        rw [State.afterRule, if_pos hvisible, State.closeRule]
        split
        next hkept =>
          refine List.forall_mem_cons.mpr
            ⟨.mk hkept (by rwa [← htext]) ht (fun hr => ?_) hends fun part hpart => ?_, hsharp⟩
          · obtain ⟨hstarts, hshorter⟩ := hopens hr
            refine ⟨by rwa [← htext], fun hnil => ?_⟩
            rw [htext, hnil] at hshorter
            exact Nat.lt_irrefl _ hshorter
          · exact hinside part (List.mem_reverse.mp hpart)
        next => exact hsharp

/-- **A match has the edges that its pattern tells**, and so have the phrases in
it. -/
theorem edged_of_matchesIn (h : p.MatchesIn n spacing s t) (hs : s.place.Before whole s.rest) :
    p.Edged whole spacing s t := by
  -- a rule is entered with fewer steps, while the parts of a pattern have as many: the inner
  -- induction is on the pattern
  induction n using Nat.strongRecOn generalizing p spacing s t with
  | _ n ih =>
  induction p generalizing s t with
  | text chars =>
      obtain ⟨rest, hrest, rfl⟩ := matches_text_iff.mp h.toMatches
      exact edged_past hs hrest of_decide_eq_true (fun gaps hends => of_decide_eq_true hends)
        fun gaps htrails => of_decide_eq_true htrails
  | one set =>
      obtain ⟨c, rest, hrest, hc, rfl⟩ := matches_one_iff.mp h.toMatches
      have hsolid (hset : set.solid = true) : IsSolid c := CharClass.isSolid hset hc
      exact edged_past hs hrest (fun hopens => ⟨c, [], rfl, hsolid hopens⟩)
        (fun gaps hends => ⟨c, rfl, hsolid hends⟩) fun gaps htrails => ⟨c, rfl, hsolid htrails⟩
  | seq p q ihp ihq =>
      obtain ⟨u, hp, hq⟩ := h.seq_inv
      have hu := (hs.covers hp.covers).covers (covers_skip u spacing)
      refine (ihp hp hs).seq (ihq hq hu) hq.covers fun hstill => ?_
      cases p with
      | absent => exact hp.absent_inv.2
      | _ => cases hstill
  | choice p q ihp ihq =>
      rcases h.choice_inv with hp | ⟨-, hq⟩
      · exact (ihp hp hs).choice_left
      · exact (ihq hq hs).choice_right
  | opt p ih =>
      rcases h.opt_inv with hp | ⟨-, rfl⟩
      · exact (ih hp hs).opt
      · exact edged_refl rfl fun _ => rfl
  | many p ih => exact edged_many hs h ih
  | absent p _ =>
      obtain ⟨-, rfl⟩ := h.absent_inv
      exact edged_refl rfl fun _ => rfl
  | start =>
      obtain ⟨-, rfl⟩ := matches_start_iff.mp h.toMatches
      exact edged_refl rfl fun _ => rfl
  | finish =>
      obtain ⟨-, rfl⟩ := matches_finish_iff.mp h.toMatches
      exact edged_refl rfl fun _ => rfl
  | outdent =>
      obtain ⟨width, outer, -, rfl⟩ := matches_outdent_iff.mp h.toMatches
      exact ⟨nofun, nofun, fun _ _ h => h, fun h => h⟩
  | margin =>
      obtain ⟨rest, -, rfl⟩ := matches_margin_iff.mp h.toMatches
      exact ⟨nofun, nofun, nofun, fun h => h⟩
  | indent p ih =>
      obtain ⟨u, hp, rfl⟩ := h.indent_inv
      exact ⟨nofun, nofun, nofun, (ih hp hs).phrases⟩
  | rule r =>
      obtain ⟨k, hk, u, hu, rfl⟩ := h.rule_inv
      refine Edged.rule hs hu.covers (ih k hk hu ?_)
      unfold State.openRule
      split <;> exact hs

end Pattern

/-- **The phrases of a matched text have sharp edges.** -/
theorem sharp_of_matchText {rule : Rule} {text : List Char} {s : State} {tried : Attempts}
    (h : rule.matchText text = (.matched s, tried)) : ∀ phrase ∈ s.phrases, phrase.Sharp text := by
  have hmatched : (Pattern.rule rule).MatchesIn (stepsFor text.length) .loose (.ofText text) s :=
    congrArg Prod.fst h
  have hstart : (State.ofText text).place.Before text (State.ofText text).rest := ⟨[], rfl, rfl⟩
  exact (Pattern.edged_of_matchesIn hmatched hstart).phrases (List.forall_mem_nil _)

end FunctionIR.Grammar

namespace FunctionIR

/-- The phrase of a whole source is sharp. -/
theorem Source.MatchedBy.sharp {source : Source} {whole : Grammar.Phrase}
    (h : source.MatchedBy whole) : whole.Sharp source.text.toList := by
  obtain ⟨s, tried, hmatched, hphrases⟩ := h
  exact Grammar.sharp_of_matchText hmatched whole (by simp [hphrases])

end FunctionIR
