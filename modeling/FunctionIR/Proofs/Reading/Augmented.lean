import FunctionIR.Proofs.Printing.Expression
import FunctionIR.Proofs.Reading.Provenance
import FunctionIR.Proofs.Reading.Spans

/-!
# Augmented assignments

The grammar lets an augmented assignment have a single target, not a list of
them.  But a target is any value with what can follow one directly, so it may be
something in parentheses or brackets; and it becomes a target by the way that is
shared with plain assignments, which goes through tuples and lists.  So with the
parentheses taken away (`Phrase.core`) the target of an augmented assignment is a
name, an attribute or a subscript, or else a tuple or a list that is written in
parentheses or brackets (`augmented_spelled`, `tuple_augmented`).

What is assigned to tells how it is written: a phrase that is read as something
that can stand on the left has a core of the same kind (`Finds.targetKind`).
-/

namespace FunctionIR

open Grammar (Phrase Place Rule PartsInPlace)

/-! ### How targets are written -/

/-- The rule is a list of expressions or targets with commas between them. -/
def Grammar.Rule.isList (rule : Rule) : Bool := rule = .expressionList || rule = .targetList

/-- The phrase without the levels and parentheses around it that have no reading of
their own. -/
def Grammar.Phrase.core : Phrase → Phrase
  | .mk rule start stop text [inner] =>
    if Reading.passes rule || rule.isList then inner.core else .mk rule start stop text [inner]
  | phrase => phrase

/-- The kind of a value that ends with the trailer and can stand on the left. -/
def Grammar.Rule.trailerKind : Rule → Option Kind
  | .attr => some .attr
  | .subscript => some .subscript
  | _ => none

/-- The kind of node that can stand on the left and is written like the core. -/
def Grammar.Phrase.targetKind (core : Phrase) : Option Kind :=
  match core.rule with
  | .identifier => some .name
  | .primary => core.parts.getLast?.bind fun trailer => trailer.rule.trailerKind
  | .parenthesized | .expressionList | .targetList => some .tuple
  | .listDisplay => some .list
  | _ => none

/-- The rule is that of a tuple or a list. -/
def Grammar.Rule.isSequence : Rule → Bool
  | .parenthesized | .expressionList | .targetList | .listDisplay => true
  | _ => false

namespace Grammar.Phrase

variable {phrase : Phrase} {rule : Rule} {start stop : Place} {text : List Char} {inner : Phrase}

/-- A level without a reading of its own has the core of what is in it. -/
theorem core_wrapped (h : (Reading.passes rule || rule.isList) = true) :
    (Phrase.mk rule start stop text [inner]).core = inner.core := by
  rw [core, if_pos h]

/-- A phrase that has not exactly one part is its own core. -/
theorem core_of_length {parts : List Phrase} (h : parts.length ≠ 1) :
    (Phrase.mk rule start stop text parts).core = .mk rule start stop text parts := by
  unfold core
  split
  next heq =>
    cases heq
    exact absurd rfl h
  next => rfl

/-- A phrase of any other rule is its own core. -/
theorem core_kept (hpasses : Reading.passes rule = false) (hlist : rule.isList = false)
    {parts : List Phrase} :
    (Phrase.mk rule start stop text parts).core = .mk rule start stop text parts := by
  unfold core
  split
  next heq =>
    cases heq
    rw [if_neg (by simp [hpasses, hlist])]
  next => rfl

/-- Apart from tuples and lists, targets are names, attributes and subscripts. -/
theorem single_of_targetKind {core : Phrase} {kind : Kind} (h : core.targetKind = some kind) :
    kind ∈ [.name, .attr, .subscript] ∨ core.rule.isSequence = true := by
  unfold targetKind at h
  split at h
  next =>
    cases h
    exact .inl (by decide)
  next =>
    obtain ⟨trailer, -, h⟩ := Option.bind_eq_some_iff.mp h
    unfold Rule.trailerKind at h
    split at h <;> cases h <;> exact .inl (by decide)
  next hrule => exact .inr (by rw [hrule]; rfl)
  next hrule => exact .inr (by rw [hrule]; rfl)
  next hrule => exact .inr (by rw [hrule]; rfl)
  next hrule => exact .inr (by rw [hrule]; rfl)
  next => cases h

/-- An augmented assignment has a target, an operator and a value. -/
theorem Formed.augAssignment (h : phrase.Formed) (hrule : phrase.rule = .augAssignment) :
    ∃ target token value, phrase.parts = [target, token, value] ∧
      target.rule = .target ∧ token.rule = .augOp ∧ value.rule = .expressionList := by
  obtain ⟨spacing, hspacing, hparts⟩ := h.leaves hrule
  simp only [Rule.definition, plain, Pattern.parts, Rule.inside, Option.getD] at hparts
  obtain ⟨target, _, hparts, htarget, -, hrest⟩ := (Pattern.leaves_kept_seq_iff hspacing rfl).mp hparts
  obtain ⟨token, _, rfl, htoken, -, hrest⟩ := (Pattern.leaves_kept_seq_iff hspacing rfl).mp hrest
  obtain ⟨value, rfl, hvalue, -⟩ := (Pattern.leaves_kept_iff hspacing rfl).mp hrest
  exact ⟨target, token, value, hparts, htarget, htoken, hvalue⟩

/-- A list does not begin with a comma. -/
theorem Formed.elements (h : phrase.Formed) (hrule : phrase.rule.isList = true) :
    ∃ first rest, phrase.parts = first :: rest ∧ first.rule ≠ .trailingComma := by
  rcases Bool.or_eq_true_iff.mp hrule with hrule | hrule
  all_goals
    obtain ⟨spacing, hspacing, hparts⟩ := h.leaves (of_decide_eq_true hrule)
    simp only [Rule.definition, plain, Pattern.parts, commaList, List.cons_append, Rule.inside,
      Option.getD] at hparts
    obtain ⟨first, rest, hparts, hfirst, -⟩ := (Pattern.leaves_kept_seq_iff hspacing rfl).mp hparts
    exact ⟨first, rest, hparts, by rw [hfirst]; decide⟩

end Grammar.Phrase

namespace Reading

variable {file : String} {whole : Phrase} {c d : Nat}

/-- Where the value can stand on the left, it is of the kind that the phrase is
written like. -/
def WrittenLike (phrase : Phrase) (value : Value) : Prop :=
  ∀ head fields, value = .node head fields → head.kind.isAssignable = true →
    phrase.core.targetKind = some head.kind

/-- What is found in phrases inside the whole is written like it. -/
def Finding.Written (whole : Phrase) : Finding → Prop
  | .expression phrase value => phrase ∈ whole.inner → WrittenLike phrase value
  | .elements phrases values trailingComma =>
    (∀ phrase ∈ phrases, phrase ∈ whole.inner) → trailingComma = false →
      List.Forall₂ WrittenLike phrases values
  | .operations _ _ phrases value =>
    phrases ≠ [] → ∃ head fields, value = .node head fields ∧ head.kind = .binOp
  | .trailers _ _ phrases result =>
    ∀ last ∈ phrases.getLast?, ∃ head fields, result = .node head fields ∧
      (head.kind.isAssignable = true → last.rule.trailerKind = some head.kind)
  | .expressions _ _ | .comparisons _ _ _ | .arguments _ _ _ => True

/-- What cannot stand on the left is written like anything. -/
theorem writtenLike_of_not {phrase : Phrase} {head : Head} {fields : Fields}
    (h : head.kind.isAssignable = false) : WrittenLike phrase (.node head fields) := by
  rintro _ _ ⟨⟩ hassignable
  rw [h] at hassignable
  cases hassignable

/-- Whatever is found for a phrase is written as its core says. -/
theorem Finds.written (hformed : ∀ phrase ∈ whole.inner, phrase.Formed) {finding : Finding}
    (h : Finds file c finding d) : finding.Written whole := by
  induction h with
  | conditional | joined | negation | comparison | sign | power | literal =>
      exact fun _ => writtenLike_of_not rfl
  | chain _ _ _ _ ih =>
      obtain ⟨head, fields, rfl, hkind⟩ := ih (List.cons_ne_nil _ _)
      exact fun _ => writtenLike_of_not (by rw [hkind]; rfl)
  | @primary _ _ _ start stop text atom trailer rest _ result _ _ _ ih =>
      intro _ head fields hresult hassignable
      have hlast := List.getLast?_eq_getLast_of_ne_nil (List.cons_ne_nil trailer rest)
      obtain ⟨_, _, hnode, hkind⟩ := ih _ hlast
      cases hresult.symm.trans hnode
      rw [Phrase.core_of_length (by simp), Phrase.targetKind]
      simpa [Phrase.rule, Phrase.parts, hlast] using hkind hassignable
  | unit =>
      rintro - _ _ ⟨⟩ -
      rfl
  | display =>
      rintro - _ _ ⟨⟩ -
      rw [Phrase.core_kept rfl rfl]
      rfl
  | @alone _ _ rule _ _ _ parts value hrule _ ih =>
      intro hin
      have hparts := ih (parts_inside hin) rfl
      cases hparts with
      | cons hwritten hrest =>
          cases hrest
          intro head fields hvalue hassignable
          rw [Phrase.core_wrapped (by simp [Grammar.Rule.isList, hrule])]
          exact hwritten head fields hvalue hassignable
  | @tuple _ _ rule start stop text parts items _ hrule hcount helements _ =>
      rintro hin _ _ ⟨⟩ -
      have hlist : rule.isList = true := by simp [Grammar.Rule.isList, hrule]
      obtain ⟨first, rest, rfl, hfirst⟩ := (hformed _ hin).elements hlist
      -- a single part without a comma would be the value itself
      have hlength : (first :: rest).length ≠ 1 := by
        rintro hlength
        obtain rfl : rest = [] := by simpa using hlength
        cases helements with
        | comma => exact hfirst rfl
        | element _ hrest =>
            cases hrest
            simp at hcount
      rw [Phrase.core_of_length hlength]
      rcases hrule with rfl | rfl <;> rfl
  | name =>
      rintro - _ _ ⟨⟩ -
      rw [Phrase.core_kept rfl rfl]
      rfl
  | passed hpasses _ ih =>
      intro hin head fields hvalue hassignable
      rw [Phrase.core_wrapped (by simp [hpasses])]
      exact ih (List.forall_mem_cons.mp (parts_inside hin)).1 head fields hvalue hassignable
  | nothing | next | notCompared | compared | noArgument | keyword | argument => trivial
  | noElement => exact fun _ _ => .nil
  | comma =>
      intro _ htrailing
      cases htrailing
  | element _ _ ih ihrest =>
      intro hin htrailing
      obtain ⟨hfirst, hothers⟩ := List.forall_mem_cons.mp hin
      exact .cons (ih hfirst) (ihrest hothers htrailing)
  | notOperated => exact fun h => absurd rfl h
  | @operated _ _ _ _ _ _ rest _ _ _ _ _ _ hrest _ ih =>
      intro _
      cases rest with
      | nil =>
          cases hrest
          exact ⟨_, _, rfl, rfl⟩
      | cons => exact ih (List.cons_ne_nil _ _)
  | notExtended =>
      intro last hlast
      cases hlast
  | @called _ _ _ _ _ _ _ _ rest _ _ _ _ _ hrest _ ih
  | @selected _ _ _ _ _ _ _ rest _ _ hrest ih
  | @subscripted _ _ _ _ _ _ _ _ rest _ _ _ _ hrest _ ih =>
      cases rest with
      | nil =>
          cases hrest
          rintro _ ⟨⟩
          refine ⟨_, _, rfl, ?_⟩
          intro hassignable
          first | rfl | cases hassignable
      | cons trailer rest =>
          intro last hlast
          rw [List.getLast?_cons_cons] at hlast
          exact ih last hlast

/-- What has become a target is written like it. -/
theorem FindsTarget.written (hformed : ∀ phrase ∈ whole.inner, phrase.Formed) {phrase : Phrase}
    {target : Value} (h : FindsTarget file c phrase target d) (hin : phrase ∈ whole.inner) :
    ∃ head fields, target = .node head fields ∧ phrase.core.targetKind = some head.kind := by
  cases h with
  | mk hfound hstored =>
      have hwritten := hfound.written hformed hin
      cases hstored with
      | single _ hassignable _ => exact ⟨_, _, rfl, hwritten _ _ rfl hassignable⟩
      | sequence hkind _ =>
          exact ⟨_, _, rfl, hwritten _ _ rfl (Kind.isAssignable_of_sequence hkind)⟩

/-! ### Their operators -/

/-- The tokens of augmented assignments. -/
def augmentedTokens : List String := ["+=", "-=", "**=", "*=", "//=", "/=", "%=", "@="]

/-- Without the equals sign a token is that of an operator. -/
theorem token_of_augmented {op : BinaryOp} : ∀ word ∈ augmentedTokens,
    BinaryOp.ofToken (String.ofList word.toList.dropLast) = some op →
      word.toList = op.token.toList ++ ['='] := by
  cases op <;> decide

/-- The node is the augmented assignment of the phrase, with the operator and with a
target that has the head. -/
structure Augments (file : String) (phrase first : Phrase) (op : BinaryOp) (head : Head)
    (node : Node) : Prop where
  rule : phrase.rule = .augAssignment
  span : node.head.span = some (spanOf file phrase.start phrase.stop)
  /-- The text has the target, behind it the operator, and behind this the equals sign. -/
  text : ∃ before gap value,
    phrase.text = before ++ first.text ++ gap ++ op.token.toList ++ '=' :: value
  op : ∃ id, node.field? "op" = some (bareNode id (.binary op))
  target : ∃ fields, node.field? "target" = some (.node head fields)

/-- An augmented assignment stems from its phrase. -/
theorem Stems.augments {source : Source} {whole : Phrase} {node : Node}
    (hmatched : source.MatchedBy whole) (h : Stems source.name whole node)
    (hkind : node.head.kind = .augAssign) :
    ∃ phrase ∈ whole.inner, ∃ first ∈ phrase.parts, ∃ op head,
      Augments source.name phrase first op head node ∧ first.core.targetKind = some head.kind := by
  cases h with
  | silent _ _ hother => exact absurd hkind hother
  | named hfield => rw [hkind] at hfield; cases hfield
  | literal hother => cases hkind.symm.trans hother
  | @augmented _ _ _ start stop text first token second op target value hin hop htarget =>
      have hformed : ∀ phrase ∈ whole.inner, phrase.Formed :=
        fun phrase hphrase => (hmatched.original phrase hphrase).formed
      have hparts := parts_inside hin
      simp only [List.forall_mem_cons] at hparts
      obtain ⟨hfirst, htoken, -⟩ := hparts
      obtain ⟨_, _, _, hthree, -, hrule, -⟩ := (hformed _ hin).augAssignment rfl
      cases hthree
      obtain ⟨word, hword, htext⟩ := (hmatched.original token htoken).token_of_words
        augmentedTokens (by rw [hrule]; rfl)
      have hspelled : token.text = op.token.toList ++ ['='] := by
        rw [htext] at hop ⊢
        exact token_of_augmented word hword hop
      have hplaced := (hmatched.inPlace.inner _ hin).inside
      obtain ⟨head, fields, rfl, hlike⟩ := htarget.written hformed hfirst
      refine ⟨_, hin, first, List.mem_cons_self, op, head, ⟨rfl, rfl, ?_, ⟨_, rfl⟩, ⟨_, rfl⟩⟩,
        hlike⟩
      cases hplaced with
      | @cons _ _ before _ _ _ hbefore _ _ hrest =>
        cases hrest with
        | @cons _ _ gap rest _ _ hgap =>
          refine ⟨before, gap, rest, ?_⟩
          have htext := hbefore
          rw [hgap, hspelled] at htext
          simpa using htext

end Reading

open Reading in
/-- **An augmented assignment has one target.**  In the tree of a program text every
augmented assignment has the operator that stands behind its target and before the
equals sign.  What it assigns to is written like the target without its parentheses: it
is a name, an attribute or a subscript unless the target is then empty, a list with
commas, or a list in brackets. -/
theorem augmented_spelled {source : Source} (hformat : source.format = .program)
    {counter next : Nat} {tree : Node} (h : source.tree.runFrom counter = (.ok tree, next)) :
    ∃ whole, source.MatchedBy whole ∧
      ∀ node ∈ tree.toValue.nodes, node.head.kind = .augAssign →
        ∃ phrase ∈ whole.inner, ∃ first ∈ phrase.parts, ∃ op head,
          Augments source.name phrase first op head node ∧
          first.core.targetKind = some head.kind ∧
          (head.kind ∈ [.name, .attr, .subscript] ∨
            first.core.rule.isSequence = true) := by
  obtain ⟨whole, hmatched, hstems⟩ := Source.tree_stems hformat h
  refine ⟨whole, hmatched, fun node hnode hkind => ?_⟩
  obtain ⟨phrase, hphrase, first, hfirst, op, head, haugments, hlike⟩ :=
    (hstems node hnode).augments hmatched hkind
  exact ⟨phrase, hphrase, first, hfirst, op, head, haugments, hlike,
    Phrase.single_of_targetKind hlike⟩

/-- The kind of what a node assigns to. -/
def Node.targetKind? (node : Node) : Option Kind :=
  ((node.field? "target").bind Value.asNode).map fun target => target.head.kind

open Reading in
/-- Targets of all three sorts, two of them in parentheses. -/
theorem augmented_spelled_all_forms :
    let source := Source.ofText "m" "a += 1\n((b.c)) //= 2\n(d[e, f]) **= 3\n" .program
    ∃ tree, (source.tree.runFrom 1).1 = .ok tree ∧
      (tree.toValue.nodes.filterMap Node.targetKind?) = [.name, .attr, .subscript] ∧
      ∃ whole, source.MatchedBy whole ∧
        ∀ node ∈ tree.toValue.nodes, node.head.kind = .augAssign →
          ∃ phrase ∈ whole.inner, ∃ first ∈ phrase.parts, ∃ op head,
            Augments source.name phrase first op head node ∧
            first.core.targetKind = some head.kind ∧
            (head.kind ∈ [.name, .attr, .subscript] ∨ first.core.rule.isSequence = true) := by
  intro source
  obtain ⟨tree, hread, hkinds⟩ :
      ∃ tree, (source.tree.runFrom 1).1 = .ok tree ∧
        (tree.toValue.nodes.filterMap Node.targetKind?) = [.name, .attr, .subscript] := by
    decide +kernel
  exact ⟨tree, hread, hkinds, augmented_spelled rfl (Numbered.runFrom_of_ok hread)⟩

/-- A tuple in parentheses is accepted as a target. -/
theorem tuple_augmented :
    ∃ tree, ((Source.ofText "m" "def f():\n    (a, b) += c\n" .program).tree.runFrom 1).1 =
        .ok tree ∧
      ∃ node ∈ tree.toValue.nodes, node.head.kind = .augAssign ∧
        node.targetKind? = some .tuple ∧ Kind.tuple ∉ [Kind.name, .attr, .subscript] := by
  decide +kernel

end FunctionIR
