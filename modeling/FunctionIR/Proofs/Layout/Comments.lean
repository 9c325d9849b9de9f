import FunctionIR.Proofs.Layout.Insertion
import FunctionIR.Proofs.Reading.StatementMoves

/-!
# Comments and blank lines are ignored

One more line of blanks and a comment changes neither whether a program text
has a tree nor the tree, but for the lines of what comes behind it
(`comment_ignored`).  The line may stand anywhere: in a block, with any
indentation of its own, between decorators, before an `else`, at the end.
-/

namespace FunctionIR

/-- The line of a text that a line becomes when another is put in before the
line `first`. -/
def pushLine (first line : Nat) : Nat := if line < first then line else line + 1

/-- The line of a text that a line becomes when the line `first` is taken out. -/
def pullLine (first line : Nat) : Nat := if line < first then line else line - 1

/-- Pulling undoes pushing. -/
theorem pullLine_pushLine (first line : Nat) : pullLine first (pushLine first line) = line := by
  rw [pushLine]
  split
  next hbefore => rw [pullLine, if_pos hbefore]
  next hbehind =>
    rw [pullLine, if_neg (by omega)]
    omega

namespace Grammar

/-- A text that lines can follow: it is empty, or it ends with a line feed that
is not hidden by a backslash. -/
def WholeLines (text : List Char) : Prop :=
  text = [] ∨ ∃ early, text = early ++ ['\n'] ∧ early.getLast? ≠ some '\\'

/-- The places are the same, but for a line put in before the line `first`. -/
def OnPushedLines (first : Nat) (p p' : Place) : Prop :=
  p'.line = pushLine first p.line ∧ p'.column = p.column

/-- The places are the same, but for a line of that length put in before both. -/
structure Pushed (first length : Nat) (p p' : Place) : Prop where
  below : first ≤ p.line
  line : p'.line = p.line + 1
  column : p'.column = p.column
  offset : p'.offset = p.offset + length

/-- Pushing lines is a displacement of places. -/
theorem pushed_displacement (first length : Nat) :
    Displacement (Pushed first length) (OnPushedLines first) where
  after {p p'} c h := by
    obtain ⟨hbelow, hline, hcolumn, hoffset⟩ := h
    unfold Place.after
    by_cases hc : c = '\n'
    · rw [if_pos hc, if_pos hc]
      constructor <;> dsimp only <;> omega
    · rw [if_neg hc, if_neg hc]
      constructor <;> dsimp only <;> omega
  distance h h' := by
    rw [h.offset, h'.offset]
    omega
  places h := by
    refine ⟨?_, h.column⟩
    rw [pushLine, if_neg (Nat.not_lt.mpr h.below), h.line]

section

variable {u v c line early : List Char}

/-- A line of blanks and a comment has one line feed, at its end. -/
theorem IsBlankLine.ends (h : IsBlankLine line) : ∃ chars, line = chars ++ ['\n'] ∧ '\n' ∉ chars := by
  obtain ⟨blanks, comment, rfl, hblanks, hcomment⟩ := h
  refine ⟨blanks ++ comment, (List.append_assoc ..).symm, fun hmem => ?_⟩
  rcases List.mem_append.mp hmem with hmem | hmem
  · exact absurd (hblanks '\n' hmem) (by decide)
  · rcases hcomment with rfl | ⟨chars, rfl, hchars⟩
    · cases hmem
    · rcases List.mem_cons.mp hmem with hmark | hmem
      · exact absurd hmark (by decide)
      · exact absurd (hchars '\n' hmem) (by decide)

/-- A place at the start of a line is pushed down by such a line. -/
theorem IsBlankLine.pushed (h : IsBlankLine line) {first : Nat} {place : Place}
    (hbelow : first ≤ place.line) (hcolumn : place.column = 0) :
    Pushed first line.length place (line.foldl Place.after place) := by
  obtain ⟨chars, rfl, hchars⟩ := h.ends
  refine ⟨hbelow, ?_, ?_, Place.offset_foldl _ _⟩
  · rw [Place.line_foldl, List.count_append, List.count_eq_zero_of_not_mem hchars]
    rfl
  · rw [Place.column_foldl_break, hcolumn]

/-- **A line of blanks and a comment** is ignored by the grammar. -/
theorem sameAnswer_comment (hreturn : '\r' ∉ u) (hu : WholeLines u) (hc : IsBlankLine c)
    (v : List Char) : SameAnswer (OnPushedLines (u.count '\n' + 1)) (u ++ v) (u ++ (c ++ v)) := by
  rcases hu with rfl | ⟨early, rfl, hlast⟩
  · exact sameAnswer_first (pushed_displacement _ _) hc (hc.pushed (Nat.le_refl _) rfl)
  · have hopen : OpenEnded early := by
      refine ⟨fun hmem => hreturn (List.mem_append_left _ hmem), fun before hbefore => hlast ?_⟩
      rw [hbefore, List.getLast?_concat]
    have hcount : (early ++ ['\n']).count '\n' = early.count '\n' + 1 := List.count_append
    have hinsert : Insertion (Pushed ((early ++ ['\n']).count '\n' + 1) c.length)
        (OnPushedLines ((early ++ ['\n']).count '\n' + 1)) early c :=
      { openEnded := hopen
        stays := by
          intro used left hearly
          refine ⟨?_, rfl⟩
          have hline := Place.line_foldl used .origin
          have hle : used.count '\n' ≤ early.count '\n' := by
            rw [hearly, List.count_append]
            omega
          change _ = 1 + _ at hline
          rw [pushLine, if_pos (by omega)]
        displacement := pushed_displacement _ _
        blank := hc
        place := by
          refine hc.pushed ?_ (Place.column_foldl_break early .origin)
          rw [placeBehind, Place.line_foldl]
          exact Nat.le_of_eq (Nat.add_comm _ _) }
    rw [List.append_assoc, List.append_assoc]
    exact sameAnswer_behind hinsert

end

/-- Texts that get the same answer do so the other way round. -/
theorem SameAnswer.flip {E F : Place → Place → Prop} {text text' : List Char}
    (hEF : ∀ {p p'}, E p p' → F p' p) (h : SameAnswer E text text') : SameAnswer F text' text := by
  obtain ⟨hmatched, hfailed⟩ := h
  cases hfound : Rule.module.matchText text with
  | mk outcome tried =>
      cases outcome with
      | exhausted => exact absurd (congrArg Prod.fst hfound) (Rule.module.matchText_ends text)
      | failed =>
          have hnone := hfailed (congrArg Prod.fst hfound)
          refine ⟨fun s' tried' hs' => ?_, fun _ => congrArg Prod.fst hfound⟩
          rw [hs'] at hnone
          cases hnone
      | matched s =>
          obtain ⟨s', tried', hs', halike⟩ := hmatched s tried hfound
          constructor
          · intro t tried'' ht
            cases hs'.symm.trans ht
            exact ⟨s, tried, hfound, halike.flip hEF⟩
          · intro hnone
            rw [hs'] at hnone
            cases hnone

end Grammar

open Grammar Numbered Reading

/-- A program text as a source. -/
def Source.ofProgram (name path : String) (text : List Char) : Source :=
  ⟨name, path, String.ofList text, .program⟩

section

variable {E : Place → Place → Prop} {L : Location → Location → Prop} {f : Nat → Nat}
  {text text' : List Char}

/-- A program is empty exactly if its text is blank. -/
theorem Source.isEmpty_ofProgram (name path : String) (text : List Char) :
    (Source.ofProgram name path text).isEmpty = text.all Text.isBlank :=
  congrArg (List.all · Text.isBlank) String.toList_ofList

/-- A program text is read from the phrases in it. -/
theorem Source.tree_ofProgram (name path : String) {s : State} {tried : Attempts}
    (hblank : (Source.ofProgram name path text).isEmpty = false)
    (hmatched : Rule.module.matchText text = (.matched s, tried)) :
    (Source.ofProgram name path text).tree = moduleTree name (s.phrases.flatMap Phrase.parts) := by
  rw [Source.tree, if_neg (by rw [hblank]; nofun)]
  change Source.programTree name (String.ofList text) = _
  rw [Source.programTree, String.toList_ofList, hmatched]

/-- Texts that get the same answer have trees that differ in locations. -/
theorem relocates_tree (name path : String) (hE : Locates L E) (h : SameAnswer E text text')
    (hblank : (Source.ofProgram name path text').isEmpty = false) :
    Mirrors (Node.Relocates L) (Source.ofProgram name path text).tree
      (Source.ofProgram name path text').tree := by
  intro counter tree next htree counter'
  obtain ⟨-, s, tried, hmatched, hread⟩ := Source.match_of_tree rfl htree
  rw [Source.ofProgram, String.toList_ofList] at hmatched
  obtain ⟨s', tried', hmatched', halike⟩ := h.1 s tried hmatched
  rw [Source.tree_ofProgram name path hblank hmatched']
  exact moduleTree_moves hE halike counter tree next hread counter'

/-- Texts that get the same answer have trees that differ in lines. -/
theorem mirrors_tree (name path : String) (hE : OnLines f E) (h : SameAnswer E text text')
    (hblank : (Source.ofProgram name path text').isEmpty = false) :
    Mirrors (Node.Moves f) (Source.ofProgram name path text).tree
      (Source.ofProgram name path text').tree :=
  relocates_tree name path hE.locates h hblank

end

/-- **Comments and blank lines are ignored.** -/
theorem comment_ignored (name path : String) {u v c : List Char} (hreturn : '\r' ∉ u)
    (hu : WholeLines u) (hc : IsBlankLine c)
    (hblank : (Source.ofProgram name path (u ++ v)).isEmpty = false) (counter counter' : Nat) :
    ((∃ tree next, (Source.ofProgram name path (u ++ c ++ v)).tree.runFrom counter' =
        (.ok tree, next)) ↔
      ∃ tree next, (Source.ofProgram name path (u ++ v)).tree.runFrom counter = (.ok tree, next)) ∧
    ∀ tree next tree' next',
      (Source.ofProgram name path (u ++ v)).tree.runFrom counter = (.ok tree, next) →
      (Source.ofProgram name path (u ++ c ++ v)).tree.runFrom counter' = (.ok tree', next') →
      tree'.anonymous = (tree.onLines (pushLine (u.count '\n' + 1))).anonymous := by
  have hanswer := sameAnswer_comment hreturn hu hc v
  have hpush : OnLines (pushLine (u.count '\n' + 1)) (OnPushedLines (u.count '\n' + 1)) := id
  have hpull : OnLines (pullLine (u.count '\n' + 1))
      (fun p p' => OnPushedLines (u.count '\n' + 1) p' p) := by
    intro p p' h
    rw [h.1, h.2, pullLine_pushLine]
    exact ⟨rfl, rfl⟩
  have hblank' : (Source.ofProgram name path (u ++ (c ++ v))).isEmpty = false := by
    rw [Source.isEmpty_ofProgram, List.all_append] at hblank ⊢
    rw [List.all_append]
    cases hfirst : u.all Text.isBlank with
    | false => rfl
    | true =>
        rw [hfirst, Bool.true_and] at hblank
        rw [hblank, Bool.true_and, Bool.and_false]
  rw [List.append_assoc]
  have hforth := mirrors_tree name path hpush hanswer hblank'
  have hback := mirrors_tree name path hpull (hanswer.flip id) hblank
  refine ⟨⟨?_, ?_⟩, ?_⟩
  · rintro ⟨tree', next', htree'⟩
    obtain ⟨tree, next, htree, -⟩ := hback counter' tree' next' htree' counter
    exact ⟨tree, next, htree⟩
  · rintro ⟨tree, next, htree⟩
    obtain ⟨tree', next', htree', -⟩ := hforth counter tree next htree counter'
    exact ⟨tree', next', htree'⟩
  · intro tree next tree' next' htree htree'
    obtain ⟨other, last, hother, hmoves⟩ := hforth counter tree next htree counter'
    cases hother.symm.trans htree'
    exact hmoves.anonymous_eq

/-- A comment between the two lines of a function, further to the left than the
second. -/
theorem comment_ignored_in_block :
    let u := "def f(a):\n".toList
    let v := "    return a\n".toList
    let c := "  # a as it is\n".toList
    '\r' ∉ u ∧ Grammar.WholeLines u ∧ Grammar.IsBlankLine c ∧
      (Source.ofProgram "m" "m" (u ++ v)).isEmpty = false ∧
      ((∃ tree next, (Source.ofProgram "m" "m" (u ++ c ++ v)).tree.runFrom 1 = (.ok tree, next)) ↔
        ∃ tree next, (Source.ofProgram "m" "m" (u ++ v)).tree.runFrom 1 = (.ok tree, next)) ∧
      (∀ tree next tree' next',
        (Source.ofProgram "m" "m" (u ++ v)).tree.runFrom 1 = (.ok tree, next) →
        (Source.ofProgram "m" "m" (u ++ c ++ v)).tree.runFrom 1 = (.ok tree', next') →
        tree'.anonymous = (tree.onLines (pushLine 2)).anonymous) ∧
      ∃ tree tree', ((Source.ofProgram "m" "m" (u ++ v)).tree.runFrom 1).1 = .ok tree ∧
        ((Source.ofProgram "m" "m" (u ++ c ++ v)).tree.runFrom 1).1 = .ok tree' ∧
        tree'.anonymous = (tree.onLines (pushLine 2)).anonymous := by
  intro u v c
  have hreturn : '\r' ∉ u := by decide
  have hu : WholeLines u := .inr ⟨"def f(a):".toList, by decide, by decide⟩
  have hchars : " a as it is".toList.any endsLine = false := by decide +kernel
  have hc : IsBlankLine c :=
    ⟨"  ".toList, "# a as it is".toList, by decide +kernel, List.all_eq_true.mp (by decide +kernel),
      .inr ⟨" a as it is".toList, by decide +kernel, by simpa using hchars⟩⟩
  have hblank : (Source.ofProgram "m" "m" (u ++ v)).isEmpty = false := by decide +kernel
  obtain ⟨tree, htree, -⟩ : ∃ tree : Node,
      ((Source.ofProgram "m" "m" (u ++ v)).tree.runFrom 1).1 = .ok tree ∧
        tree.head.kind = .module := by
    decide +kernel
  obtain ⟨tree', htree', -⟩ : ∃ tree : Node,
      ((Source.ofProgram "m" "m" (u ++ c ++ v)).tree.runFrom 1).1 = .ok tree ∧
        tree.head.kind = .module := by
    decide +kernel
  obtain ⟨haccepted, hsame⟩ := comment_ignored "m" "m" hreturn hu hc hblank 1 1
  exact ⟨hreturn, hu, hc, hblank, haccepted, hsame, tree, tree', htree, htree',
    hsame _ _ _ _ (Numbered.runFrom_of_ok htree) (Numbered.runFrom_of_ok htree')⟩

end FunctionIR
