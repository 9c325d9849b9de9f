import FunctionIR.Proofs.Grammar.Displacement
import FunctionIR.Proofs.Reading.StatementFindings

/-!
# Reading alike phrases

Phrases that are alike at corresponding places are read as trees that differ
in locations and numbers only: every location in the one is in the other one
that corresponds to it (`Relocates`).  Often that is the same column of another
line of the same file (`Moves`).
-/

namespace FunctionIR

/-! ### Lines of a tree -/

/-- The location with another line. -/
def Location.onLines (f : Nat → Nat) (l : Location) : Location := { l with line := f l.line }

/-- The span with other lines. -/
def Span.onLines (f : Nat → Nat) (s : Span) : Span := ⟨s.start.onLines f, s.stop.onLines f⟩

/-- The head with other lines. -/
def Head.onLines (f : Nat → Nat) (head : Head) : Head :=
  { head with
    location := head.location.map (Location.onLines f)
    span := head.span.map (Span.onLines f) }

namespace Value

mutual

/-- The value with other lines. -/
def onLines (f : Nat → Nat) : Value → Value
  | .scalar s => .scalar s
  | .node head fields => .node (head.onLines f) (onLinesFields f fields)
  | .list items => .list (onLinesItems f items)
  | .foreign document => .foreign document

/-- The values with other lines. -/
def onLinesItems (f : Nat → Nat) : List Value → List Value
  | [] => []
  | item :: rest => onLines f item :: onLinesItems f rest

/-- The fields with other lines. -/
def onLinesFields (f : Nat → Nat) : List (String × Value) → List (String × Value)
  | [] => []
  | (name, value) :: rest => (name, onLines f value) :: onLinesFields f rest

end

end Value

/-- The tree with other lines. -/
def Node.onLines (f : Nat → Nat) (tree : Node) : Node :=
  ⟨tree.head.onLines f, Value.onLinesFields f tree.fields⟩

/-! ### Trees at other locations -/

/-- The ends of the spans correspond. -/
def Span.Relocates (L : Location → Location → Prop) (s s' : Span) : Prop :=
  L s.start s'.start ∧ L s.stop s'.stop

/-- The second head is the first at a corresponding location, with maybe another
number. -/
structure Head.Relocates (L : Location → Location → Prop) (head head' : Head) : Prop where
  kind : head'.kind = head.kind
  location : Option.Rel L head.location head'.location
  span : Option.Rel (Span.Relocates L) head.span head'.span

mutual

/-- The second value is the first at corresponding locations, with maybe other
numbers. -/
inductive Relocates (L : Location → Location → Prop) : Value → Value → Prop
  | scalar (s : Scalar) : Relocates L (.scalar s) (.scalar s)
  | node {head head' : Head} {fields fields' : Fields} :
      head.Relocates L head' → FieldsRelocate L fields fields' →
      Relocates L (.node head fields) (.node head' fields')
  | list {items items' : List Value} :
      ItemsRelocate L items items' → Relocates L (.list items) (.list items')

/-- The same of values one by one. -/
inductive ItemsRelocate (L : Location → Location → Prop) : List Value → List Value → Prop
  | nil : ItemsRelocate L [] []
  | cons {item item' : Value} {rest rest' : List Value} :
      Relocates L item item' → ItemsRelocate L rest rest' →
      ItemsRelocate L (item :: rest) (item' :: rest')

/-- The same of fields one by one. -/
inductive FieldsRelocate (L : Location → Location → Prop) : Fields → Fields → Prop
  | nil : FieldsRelocate L [] []
  | cons {name : String} {value value' : Value} {rest rest' : Fields} :
      Relocates L value value' → FieldsRelocate L rest rest' →
      FieldsRelocate L ((name, value) :: rest) ((name, value') :: rest')

end

/-- The second tree is the first at corresponding locations, with maybe other
numbers. -/
structure Node.Relocates (L : Location → Location → Prop) (tree tree' : Node) : Prop where
  head : tree.head.Relocates L tree'.head
  fields : FieldsRelocate L tree.fields tree'.fields

/-- The second location is the first on the line that corresponds. -/
def Location.OnLine (f : Nat → Nat) (l l' : Location) : Prop := l' = l.onLines f

/-- The second value is the first, with other lines and maybe other numbers. -/
abbrev Moves (f : Nat → Nat) (value value' : Value) : Prop :=
  Relocates (Location.OnLine f) value value'

/-- The second tree is the first, with other lines and maybe other numbers. -/
abbrev Node.Moves (f : Nat → Nat) (tree tree' : Node) : Prop :=
  tree.Relocates (Location.OnLine f) tree'

section

variable {L : Location → Location → Prop} {items items' others others' : List Value}

theorem ItemsRelocate.append (h : ItemsRelocate L items items')
    (h' : ItemsRelocate L others others') :
    ItemsRelocate L (items ++ others) (items' ++ others') := by
  induction items generalizing items' with
  | nil =>
      cases h
      exact h'
  | cons item rest ih =>
      cases h with
      | cons hitem hrest => exact .cons hitem (ih hrest)

/-- A list that is empty stays so. -/
theorem ItemsRelocate.isEmpty (h : ItemsRelocate L items items') :
    items'.isEmpty = items.isEmpty := by
  cases h <;> rfl

theorem moves_absent : Relocates L .absent .absent := .scalar .none

theorem moves_str (text : String) : Relocates L (.str text) (.str text) := .scalar (.str text)

end

/-! ### Computations that follow each other -/

namespace Numbered

variable {α β α' β' : Type} {R : α → α' → Prop} {S : β → β' → Prop} {L : Location → Location → Prop}

/-- Where the first computation succeeds, from whatever counter, the second
does, from whatever other, and the values are related. -/
def Mirrors (R : α → α' → Prop) (m : Numbered α) (m' : Numbered α') : Prop :=
  ∀ counter a next, m.runFrom counter = (.ok a, next) →
    ∀ counter', ∃ a' next', m'.runFrom counter' = (.ok a', next') ∧ R a a'

theorem Mirrors.pure {a : α} {a' : α'} (h : R a a') : Mirrors R (Pure.pure a) (Pure.pure a') := by
  rintro counter _ _ ⟨⟩ counter'
  exact ⟨a', counter', rfl, h⟩

/-- A computation that fails is mirrored by any other. -/
theorem Mirrors.throw {fault : Fault} {m' : Numbered α'} :
    Mirrors R (MonadExcept.throw fault : Numbered α) m' := by
  intro counter a next h
  cases h

theorem Mirrors.bind {m : Numbered α} {m' : Numbered α'} {k : α → Numbered β}
    {k' : α' → Numbered β'} (hm : Mirrors R m m')
    (hk : ∀ a a', R a a' → Mirrors S (k a) (k' a')) : Mirrors S (m >>= k) (m' >>= k') := by
  intro counter b last h counter'
  simp only [runFrom, ExceptT.run_bind, StateT.run_bind] at h ⊢
  cases hrun : m.runFrom counter with
  | mk outcome next =>
      change StateT.run (ExceptT.run m) counter = _ at hrun
      rw [hrun] at h
      cases outcome with
      | error fault => cases h
      | ok a =>
          obtain ⟨a', next', hrun', hR⟩ := hm counter a next hrun counter'
          obtain ⟨b', last', hlast', hS⟩ := hk a a' hR next b last h next'
          change StateT.run (ExceptT.run m') counter' = _ at hrun'
          refine ⟨b', last', ?_, hS⟩
          rw [hrun']
          exact hlast'

theorem Mirrors.mono {S : α → α' → Prop} {m : Numbered α} {m' : Numbered α'} (h : Mirrors R m m')
    (himp : ∀ a a', R a a' → S a a') : Mirrors S m m' := by
  intro counter a next hrun counter'
  obtain ⟨a', next', hrun', hR⟩ := h counter a next hrun counter'
  exact ⟨a', next', hrun', himp a a' hR⟩

/-- A head at related places gets the same number. -/
theorem mirrors_head (kind : Kind) {location location' : Option Location} {span span' : Option Span}
    (hlocation : Option.Rel L location location')
    (hspan : Option.Rel (Span.Relocates L) span span') :
    Mirrors (Head.Relocates L) (head kind location span) (head kind location' span') := by
  rintro counter _ _ ⟨⟩ counter'
  exact ⟨_, _, rfl, rfl, hlocation, hspan⟩

/-- A new node without fields. -/
theorem mirrors_bare (kind : Kind) : Mirrors (Relocates L) (bare kind) (bare kind) :=
  (mirrors_head kind .none .none).bind fun _ _ hhead => .pure (.node hhead .nil)

end Numbered

open Numbered

namespace Reading

open Grammar (Phrase Place Rule AllAlike everyOther)

variable {file : String} {L : Location → Location → Prop} {E : Place → Place → Prop}
  {start start' stop stop' : Place}

/-- Corresponding places are at corresponding locations. -/
def Locates (L : Location → Location → Prop) (E : Place → Place → Prop) : Prop :=
  ∀ {file p p'}, E p p' → L (locate file p) (locate file p')

/-- Corresponding places are on corresponding lines, in the same column. -/
def OnLines (f : Nat → Nat) (E : Place → Place → Prop) : Prop :=
  ∀ {p p'}, E p p' → p'.line = f p.line ∧ p'.column = p.column

/-- A relation that moves lines moves the locations made of places. -/
theorem OnLines.locates {f : Nat → Nat} (h : OnLines f E) : Locates (Location.OnLine f) E := by
  intro file p p' hE
  obtain ⟨hline, hcolumn⟩ := h hE
  simp only [Location.OnLine, locate, Location.onLines, hline, hcolumn]

/-- A misplaced phrase is mirrored by anything. -/
theorem mirrors_misplaced {α α' : Type} {R : α → α' → Prop} {phrase : Phrase} {m' : Numbered α'} :
    Mirrors R (misplaced file phrase : Numbered α) m' := .throw

/-- A context is the same everywhere. -/
theorem mirrors_context (c : Context) : Mirrors (Relocates L) (context c) (context c) :=
  mirrors_bare _

section

variable (hE : Locates L E)

include hE

/-- A head at related places. -/
theorem mirrors_headAt (kind : Kind) (hstart : E start start') (hstop : E stop stop') :
    Mirrors (Head.Relocates L) (headAt file kind start stop) (headAt file kind start' stop') := by
  rw [headAt, headAt, spanOf, spanOf]
  exact mirrors_head kind (.some (hE hstart)) (.some ⟨hE hstart, hE hstop⟩)

/-- A constant at related places. -/
theorem mirrors_constant (value : Scalar) (hstart : E start start') (hstop : E stop stop') :
    Mirrors (Relocates L) (constant file value start stop) (constant file value start' stop') :=
  (mirrors_headAt hE .constant hstart hstop).bind fun _ _ hhead =>
    .pure (.node hhead (.cons (.scalar value) (.cons moves_absent .nil)))

/-- A tuple at related places. -/
theorem mirrors_tupleOf {items items' : List Value} (trailingComma : Bool) (hstart : E start start')
    (hstop : E stop stop') (hitems : ItemsRelocate L items items') :
    Mirrors (Relocates L) (tupleOf file start stop items trailingComma)
      (tupleOf file start' stop' items' trailingComma) := by
  have htuple : ∀ {items items' : List Value}, ItemsRelocate L items items' →
      Mirrors (Relocates L)
        (do let head ← headAt file .tuple start stop
            let ctx ← context .load
            return .node head [("elts", .list items), ("ctx", ctx)])
        (do let head ← headAt file .tuple start' stop'
            let ctx ← context .load
            return .node head [("elts", .list items'), ("ctx", ctx)]) := fun hitems =>
    (mirrors_headAt hE .tuple hstart hstop).bind fun _ _ hhead =>
    (mirrors_context .load).bind fun _ _ hctx =>
    .pure (.node hhead (.cons (.list hitems) (.cons hctx .nil)))
  cases hitems with
  | nil => exact htuple .nil
  | cons hitem hrest =>
      cases hrest with
      | nil =>
          cases trailingComma with
          | false => exact .pure hitem
          | true => exact htuple (.cons hitem .nil)
      | cons hsecond hrest => exact htuple (.cons hitem (.cons hsecond hrest))

/-- Operands that one word joins, at related places. -/
theorem mirrors_joined (word : BoolOp) {first first' second second' : Numbered Value}
    {rest rest' : Numbered (List Value)} (hstart : E start start') (hstop : E stop stop')
    (hfirst : Mirrors (Relocates L) first first') (hsecond : Mirrors (Relocates L) second second')
    (hrest : Mirrors (ItemsRelocate L) rest rest') :
    Mirrors (Relocates L)
      (do let first ← first
          let second ← second
          let rest ← rest
          let head ← headAt file .boolOp start stop
          let op ← bare (.boolean word)
          return .node head [("op", op), ("values", .list (first :: second :: rest))])
      (do let first ← first'
          let second ← second'
          let rest ← rest'
          let head ← headAt file .boolOp start' stop'
          let op ← bare (.boolean word)
          return .node head [("op", op), ("values", .list (first :: second :: rest))]) :=
  hfirst.bind fun _ _ hfirst =>
  hsecond.bind fun _ _ hsecond =>
  hrest.bind fun _ _ hrest =>
  (mirrors_headAt hE .boolOp hstart hstop).bind fun _ _ hhead =>
  (mirrors_bare (.boolean word)).bind fun _ _ hop =>
  .pure (.node hhead (.cons hop (.cons (.list (.cons hfirst (.cons hsecond hrest))) .nil)))

end

/-! ### Expressions -/

/-- An operator of two operands is told by its text. -/
theorem mirrors_binaryOp {phrase phrase' : Phrase} (htext : phrase'.text = phrase.text) :
    Mirrors Eq (binaryOp file phrase) (binaryOp file phrase') := by
  rw [binaryOp, binaryOp, htext]
  split
  · exact .pure rfl
  · exact mirrors_misplaced

/-- An operator of one operand is told by its text. -/
theorem mirrors_unaryOp {phrase phrase' : Phrase} (htext : phrase'.text = phrase.text) :
    Mirrors Eq (unaryOp file phrase) (unaryOp file phrase') := by
  rw [unaryOp, unaryOp, htext]
  split
  · exact .pure rfl
  · exact mirrors_misplaced

/-- A comparison sign is told by its text without blanks. -/
theorem mirrors_compareOp {phrase phrase' : Phrase}
    (htext : squeeze phrase'.text = squeeze phrase.text) :
    Mirrors Eq (compareOp file phrase) (compareOp file phrase') := by
  rw [compareOp, compareOp, htext]
  split
  · exact .pure rfl
  · exact mirrors_misplaced

/-- Rules whose phrases stand for their only part. -/
def passesOn : Rule → Bool
  | .listDisplay | .expressionList | .targetList | .identifier | .noneLiteral | .trueLiteral
  | .falseLiteral | .integer | .float | .string => false
  | _ => true

/-- A level that passes on is read as what is in it. -/
theorem expression_passesOn {r : Rule} (hr : passesOn r = true) (text : List Char) (inner : Phrase) :
    expression file (.mk r start stop text [inner]) = expression file inner := by
  cases r <;> first | rfl | cases hr

mutual

/-- **Alike expressions** are read as values that differ in locations. -/
theorem expression_moves (hE : Locates L E) (phrase phrase' : Phrase) (h : phrase.Alike E phrase') :
    Mirrors (Relocates L) (expression file phrase) (expression file phrase') := by
  -- one case for each line of the reader: the phrases have the same rule and as many parts,
  -- so the second is read by the same line, and its parts move by the recursion
  rw [expression.eq_def file phrase]
  split
  next body test orelse =>
    match h with
    | .mk hstart hstop _ (.cons hbody (.cons htest (.cons horelse .nil))) =>
        rw [expression]
        exact (expression_moves hE body _ hbody).bind fun _ _ hbody =>
          (mirrors_headAt hE .ifExp hstart hstop).bind fun _ _ hhead =>
          (expression_moves hE test _ htest).bind fun _ _ htest =>
          (expression_moves hE orelse _ horelse).bind fun _ _ horelse =>
          .pure (.node hhead (.cons htest (.cons hbody (.cons horelse .nil))))
  next first second rest =>
    match h with
    | .mk hstart hstop _ (.cons hfirst (.cons hsecond hrest)) =>
        rw [expression]
        exact mirrors_joined hE .or hstart hstop (expression_moves hE first _ hfirst)
          (expression_moves hE second _ hsecond) (expressions_move hE rest _ hrest)
  next first second rest =>
    match h with
    | .mk hstart hstop _ (.cons hfirst (.cons hsecond hrest)) =>
        rw [expression]
        exact mirrors_joined hE .and hstart hstop (expression_moves hE first _ hfirst)
          (expression_moves hE second _ hsecond) (expressions_move hE rest _ hrest)
  next operand =>
    match h with
    | .mk hstart hstop _ (.cons _ (.cons hoperand .nil)) =>
        rw [expression]
        exact (expression_moves hE operand _ hoperand).bind fun _ _ hoperand =>
          (mirrors_headAt hE .unaryOp hstart hstop).bind fun _ _ hhead =>
          (mirrors_bare (.unary .not)).bind fun _ _ hop =>
          .pure (.node hhead (.cons hop (.cons hoperand .nil)))
  next left op right rest =>
    match h with
    | .mk hstart hstop htext (.cons hleft (.cons hop (.cons hright hrest))) =>
        rw [expression]
        refine (expression_moves hE left _ hleft).bind fun _ _ hleft => ?_
        refine (comparisons_move hE _ _ (.cons hop (.cons hright hrest)) htext.2).bind
          fun _ _ hlists => ?_
        exact (mirrors_headAt hE .compare hstart hstop).bind fun _ _ hhead =>
          .pure (.node hhead
            (.cons hleft (.cons (.list hlists.1) (.cons (.list hlists.2) .nil))))
  next first op right rest =>
    match h with
    | .mk hstart _ htext (.cons hfirst (.cons hop (.cons hright hrest))) =>
        rw [expression]
        exact (expression_moves hE first _ hfirst).bind fun _ _ hfirst =>
          operations_move hE hstart _ _ (.cons hop (.cons hright hrest)) htext.2 hfirst
  next first op right rest =>
    match h with
    | .mk hstart _ htext (.cons hfirst (.cons hop (.cons hright hrest))) =>
        rw [expression]
        exact (expression_moves hE first _ hfirst).bind fun _ _ hfirst =>
          operations_move hE hstart _ _ (.cons hop (.cons hright hrest)) htext.2 hfirst
  next op operand =>
    match h with
    | .mk hstart hstop htext (.cons hop (.cons hoperand .nil)) =>
        rw [expression]
        refine (mirrors_unaryOp (List.cons_eq_cons.mp htext.2).1).bind ?_
        rintro op _ rfl
        exact (mirrors_headAt hE .unaryOp hstart hstop).bind fun _ _ hhead =>
          (mirrors_bare (.unary op)).bind fun _ _ hop =>
          (expression_moves hE operand _ hoperand).bind fun _ _ hoperand =>
          .pure (.node hhead (.cons hop (.cons hoperand .nil)))
  next base exponent =>
    match h with
    | .mk hstart hstop _ (.cons hbase (.cons hexponent .nil)) =>
        rw [expression]
        exact (expression_moves hE base _ hbase).bind fun _ _ hbase =>
          (mirrors_headAt hE .binOp hstart hstop).bind fun _ _ hhead =>
          (mirrors_bare (.binary .pow)).bind fun _ _ hop =>
          (expression_moves hE exponent _ hexponent).bind fun _ _ hexponent =>
          .pure (.node hhead (.cons hbase (.cons hop (.cons hexponent .nil))))
  next atom trailer rest =>
    match h with
    | .mk _ _ _ (.cons hatom (.cons htrailer hrest)) =>
        rw [expression]
        exact (expression_moves hE atom _ hatom).bind fun _ _ hvalue =>
          trailers_move hE hatom.start _ _ (.cons htrailer hrest) hvalue
  next =>
    match h with
    | .mk hstart hstop _ .nil =>
        rw [expression]
        exact mirrors_tupleOf hE false hstart hstop .nil
  next items =>
    match h with
    | .mk hstart hstop _ hitems =>
        rw [expression]
        exact (expressions_move hE items _ hitems).bind fun _ _ hitems =>
          (mirrors_headAt hE .list hstart hstop).bind fun _ _ hhead =>
          (mirrors_context .load).bind fun _ _ hctx =>
          .pure (.node hhead (.cons (.list hitems) (.cons hctx .nil)))
  next parts =>
    match h with
    | .mk hstart hstop _ hparts =>
        rw [expression]
        refine (elements_move hE parts _ hparts).bind ?_
        rintro ⟨items, comma⟩ ⟨items', _⟩ ⟨hitems, rfl⟩
        exact mirrors_tupleOf hE comma hstart hstop hitems
  next parts =>
    match h with
    | .mk hstart hstop _ hparts =>
        rw [expression]
        refine (elements_move hE parts _ hparts).bind ?_
        rintro ⟨items, comma⟩ ⟨items', _⟩ ⟨hitems, rfl⟩
        exact mirrors_tupleOf hE comma hstart hstop hitems
  next =>
    match h with
    | .mk hstart hstop htext _ =>
        have hsame := htext.1 rfl
        dsimp only [Rule.sense] at hsame
        rw [expression, hsame]
        exact (mirrors_headAt hE .name hstart hstop).bind fun _ _ hhead =>
          (mirrors_context .load).bind fun _ _ hctx =>
          .pure (.node hhead (.cons (moves_str _) (.cons hctx .nil)))
  next =>
    match h with
    | .mk hstart hstop _ _ =>
        rw [expression]
        exact mirrors_constant hE .none hstart hstop
  next =>
    match h with
    | .mk hstart hstop _ _ =>
        rw [expression]
        exact mirrors_constant hE (.bool true) hstart hstop
  next =>
    match h with
    | .mk hstart hstop _ _ =>
        rw [expression]
        exact mirrors_constant hE (.bool false) hstart hstop
  next =>
    match h with
    | .mk hstart hstop htext _ =>
        have hsame := htext.1 rfl
        dsimp only [Rule.sense] at hsame
        rw [expression, hsame]
        split
        · exact mirrors_constant hE (.int _) hstart hstop
        · exact .throw
  next =>
    match h with
    | .mk hstart hstop htext _ =>
        have hsame := htext.1 rfl
        dsimp only [Rule.sense] at hsame
        rw [expression, hsame]
        exact mirrors_constant hE (.real _) hstart hstop
  next =>
    match h with
    | .mk hstart hstop htext _ =>
        have hsame := htext.1 rfl
        dsimp only [Rule.sense] at hsame
        rw [expression, hsame]
        exact mirrors_constant hE (.str _) hstart hstop
  next =>
    match h with
    | @Phrase.Alike.mk _ r _ _ _ _ _ _ _ _ _ _ _ (.cons hinner .nil) =>
        have hr : passesOn r = true := by
          cases r <;> first | rfl | simp_all
        rw [expression_passesOn hr]
        exact expression_moves hE _ _ hinner
  next => exact mirrors_misplaced
termination_by sizeOf phrase
decreasing_by
  all_goals
    subst_vars
    simp only [Phrase.mk.sizeOf_spec, List.cons.sizeOf_spec]
    omega

/-- Several expressions move with their phrases. -/
theorem expressions_move (hE : Locates L E) (phrases phrases' : List Phrase)
    (h : AllAlike E phrases phrases') :
    Mirrors (ItemsRelocate L) (expressions file phrases) (expressions file phrases') := by
  match h with
  | .nil => exact .pure .nil
  | .cons hphrase hrest =>
      exact (expression_moves hE _ _ hphrase).bind fun _ _ hvalue =>
        (expressions_move hE _ _ hrest).bind fun _ _ hvalues => .pure (.cons hvalue hvalues)
termination_by sizeOf phrases
decreasing_by
  all_goals
    simp only [List.cons.sizeOf_spec]
    omega

/-- Elements move with their phrases. -/
theorem elements_move (hE : Locates L E) (phrases phrases' : List Phrase)
    (h : AllAlike E phrases phrases') :
    Mirrors (fun found found' => ItemsRelocate L found.1 found'.1 ∧ found.2 = found'.2)
      (elements file phrases) (elements file phrases') := by
  rw [elements.eq_def file phrases]
  split
  next =>
    match h with
    | .nil => exact .pure ⟨.nil, rfl⟩
  next rest =>
    obtain _ | ⟨⟨-, -, -, -⟩, hrest⟩ := h
    rw [elements]
    exact (elements_move hE rest _ hrest).bind fun _ _ hfound => .pure ⟨hfound.1, rfl⟩
  next phrase rest hne =>
    match h with
    | .cons hphrase hrest =>
        rw [elements]
        · exact (expression_moves hE phrase _ hphrase).bind fun _ _ hvalue =>
            (elements_move hE rest _ hrest).bind fun _ _ hfound =>
            .pure ⟨.cons hvalue hfound.1, hfound.2⟩
        · rintro start stop text parts rfl
          cases hphrase
          exact hne _ _ _ _ rfl
termination_by sizeOf phrases
decreasing_by
  all_goals
    subst_vars
    simp only [Phrase.mk.sizeOf_spec, List.cons.sizeOf_spec]
    omega

/-- Comparisons move with their phrases, if the signs are the same. -/
theorem comparisons_move (hE : Locates L E) (phrases phrases' : List Phrase)
    (h : AllAlike E phrases phrases')
    (htexts : (everyOther phrases').map (squeeze ·.text) =
      (everyOther phrases).map (squeeze ·.text)) :
    Mirrors (fun lists lists' => ItemsRelocate L lists.1 lists'.1 ∧ ItemsRelocate L lists.2 lists'.2)
      (comparisons file phrases) (comparisons file phrases') := by
  match h with
  | .nil => exact .pure ⟨.nil, .nil⟩
  | .cons _ .nil => exact mirrors_misplaced
  | .cons hop (.cons hright hrest) =>
      obtain ⟨htext, htexts⟩ := List.cons_eq_cons.mp htexts
      refine (mirrors_compareOp htext).bind ?_
      rintro op _ rfl
      exact (mirrors_bare (.comparison op)).bind fun _ _ hop =>
        (expression_moves hE _ _ hright).bind fun _ _ hright =>
        (comparisons_move hE _ _ hrest htexts).bind fun _ _ hlists =>
        .pure ⟨.cons hop hlists.1, .cons hright hlists.2⟩
termination_by sizeOf phrases
decreasing_by
  all_goals
    simp only [List.cons.sizeOf_spec]
    omega

/-- Operations move with their phrases, if the operators are the same. -/
theorem operations_move (hE : Locates L E) {start start' : Place} (hstart : E start start')
    (phrases phrases' : List Phrase) (h : AllAlike E phrases phrases')
    (htexts : (everyOther phrases').map Phrase.text = (everyOther phrases).map Phrase.text)
    {left left' : Value}
    (hleft : Relocates L left left') :
    Mirrors (Relocates L) (operations file start left phrases)
      (operations file start' left' phrases') := by
  match h with
  | .nil => exact .pure hleft
  | .cons _ .nil => exact mirrors_misplaced
  | .cons hop (.cons hright hrest) =>
      obtain ⟨htext, htexts⟩ := List.cons_eq_cons.mp htexts
      refine (mirrors_binaryOp htext).bind ?_
      rintro op _ rfl
      exact (expression_moves hE _ _ hright).bind fun _ _ hvalue =>
        (mirrors_headAt hE .binOp hstart hright.stop).bind fun _ _ hhead =>
        (mirrors_bare (.binary op)).bind fun _ _ hop =>
        operations_move hE hstart _ _ hrest htexts
          (.node hhead (.cons hleft (.cons hop (.cons hvalue .nil))))
termination_by sizeOf phrases
decreasing_by
  all_goals
    simp only [List.cons.sizeOf_spec]
    omega

/-- Trailers move with their phrases. -/
theorem trailers_move (hE : Locates L E) {start start' : Place} (hstart : E start start')
    (phrases phrases' : List Phrase) (h : AllAlike E phrases phrases') {value value' : Value}
    (hvalue : Relocates L value value') :
    Mirrors (Relocates L) (trailers file start value phrases)
      (trailers file start' value' phrases') := by
  rw [trailers.eq_def file start value phrases]
  split
  next parts rest =>
    obtain _ | ⟨⟨-, hstop, -, hparts⟩, hrest⟩ := h
    rw [trailers]
    exact (arguments_move hE parts _ hparts).bind fun _ _ hlists =>
      (mirrors_headAt hE .call hstart hstop).bind fun _ _ hhead =>
      trailers_move hE hstart rest _ hrest (.node hhead
        (.cons hvalue (.cons (.list hlists.1) (.cons (.list hlists.2) .nil))))
  next name rest =>
    obtain _ | ⟨⟨-, hstop, htext, _ | ⟨-, ⟨⟩⟩⟩, hrest⟩ := h
    have hsame := (List.cons_eq_cons.mp htext.2).1
    dsimp only [Rule.sense] at hsame
    rw [trailers, hsame]
    exact (mirrors_headAt hE .attr hstart hstop).bind fun _ _ hhead =>
      (mirrors_context .load).bind fun _ _ hctx =>
      trailers_move hE hstart rest _ hrest
        (.node hhead (.cons hvalue (.cons (moves_str _) (.cons hctx .nil))))
  next index rest =>
    obtain _ | ⟨⟨-, hstop, -, _ | ⟨hindex, ⟨⟩⟩⟩, hrest⟩ := h
    rw [trailers]
    exact (mirrors_headAt hE .subscript hstart hstop).bind fun _ _ hhead =>
      (expression_moves hE index _ hindex).bind fun _ _ hslice =>
      (mirrors_context .load).bind fun _ _ hctx =>
      trailers_move hE hstart rest _ hrest
        (.node hhead (.cons hvalue (.cons hslice (.cons hctx .nil))))
  next => exact mirrors_misplaced
  next =>
    match h with
    | .nil => exact .pure hvalue
termination_by sizeOf phrases
decreasing_by
  all_goals
    subst_vars
    simp only [Phrase.mk.sizeOf_spec, List.cons.sizeOf_spec]
    omega

/-- Arguments move with their phrases. -/
theorem arguments_move (hE : Locates L E) (phrases phrases' : List Phrase)
    (h : AllAlike E phrases phrases') :
    Mirrors (fun lists lists' => ItemsRelocate L lists.1 lists'.1 ∧ ItemsRelocate L lists.2 lists'.2)
      (arguments file phrases) (arguments file phrases') := by
  rw [arguments.eq_def file phrases]
  split
  next =>
    match h with
    | .nil => exact .pure ⟨.nil, .nil⟩
  next name value rest =>
    obtain _ | ⟨⟨hstart, hstop, htext, _ | ⟨-, _ | ⟨hvalue, ⟨⟩⟩⟩⟩, hrest⟩ := h
    have hsame := (List.cons_eq_cons.mp htext.2).1
    dsimp only [Rule.sense] at hsame
    rw [arguments, hsame]
    exact (mirrors_headAt hE .keyword hstart hstop).bind fun _ _ hhead =>
      (expression_moves hE value _ hvalue).bind fun _ _ hvalue =>
      (arguments_move hE rest _ hrest).bind fun _ _ hlists =>
      .pure ⟨hlists.1, .cons (.node hhead (.cons (moves_str _) (.cons hvalue .nil))) hlists.2⟩
  next phrase rest hne =>
    match h with
    | .cons hphrase hrest =>
        rw [arguments]
        · exact (expression_moves hE phrase _ hphrase).bind fun _ _ hvalue =>
            (arguments_move hE rest _ hrest).bind fun _ _ hlists =>
            .pure ⟨.cons hvalue hlists.1, hlists.2⟩
        · rintro start stop text name value rfl
          match hphrase with
          | .mk _ _ _ (.cons _ (.cons _ .nil)) => exact hne _ _ _ _ _ rfl
termination_by sizeOf phrases
decreasing_by
  all_goals
    subst_vars
    simp only [Phrase.mk.sizeOf_spec, List.cons.sizeOf_spec]
    omega

end

/-! ### Targets -/

/-- Fields keep corresponding when one is set in both. -/
theorem fieldsMove_set {fields fields' : Fields} (h : FieldsRelocate L fields fields') (name : String)
    {value value' : Value} (hvalue : Relocates L value value') :
    FieldsRelocate L (Members.set name value fields) (Members.set name value' fields') := by
  induction fields generalizing fields' with
  | nil =>
      cases h
      exact .cons hvalue .nil
  | cons field rest ih =>
      obtain ⟨key, old⟩ := field
      cases h with
      | cons hold hrest =>
          rw [Members.set, Members.set]
          split
          · exact .cons hvalue hrest
          · exact .cons hold (ih hrest)

mutual

/-- A stored value moves as it did when it was read. -/
theorem store_moves (value value' : Value) (h : Relocates L value value') :
    Mirrors (Relocates L) (store value) (store value') := by
  match h with
  | .scalar s => exact .pure (.scalar s)
  | .list hitems => exact .pure (.list hitems)
  | @Relocates.node _ head head' fields fields' hhead hfields =>
      rw [store, store, hhead.kind]
      split
      · exact .throw
      · have hstore : ∀ fields fields', FieldsRelocate L fields fields' →
            Mirrors (Relocates L)
              (do let ctx ← context .store
                  return .node head (Members.set "ctx" ctx fields))
              (do let ctx ← context .store
                  return .node head' (Members.set "ctx" ctx fields')) := fun _ _ hfields =>
          (mirrors_context .store).bind fun _ _ hctx =>
          .pure (.node hhead (fieldsMove_set hfields "ctx" hctx))
        dsimp only
        split
        · exact (storeElements_move _ _ hfields).bind hstore
        · exact (Mirrors.pure hfields).bind hstore
termination_by sizeOf value

theorem storeElements_move (fields fields' : Fields) (h : FieldsRelocate L fields fields') :
    Mirrors (FieldsRelocate L) (storeElements fields) (storeElements fields') := by
  rw [storeElements.eq_def fields]
  split
  next =>
    match h with
    | .nil => exact .pure .nil
  next items rest =>
    obtain _ | ⟨_ | _ | ⟨hitems⟩, hrest⟩ := h
    rw [storeElements]
    exact (storeAll_move items _ hitems).bind fun _ _ hitems =>
      .pure (.cons (.list hitems) hrest)
  next field rest hne =>
    obtain ⟨name, value⟩ := field
    match h with
    | .cons hvalue hrest =>
        rw [storeElements]
        · exact (storeElements_move rest _ hrest).bind fun _ _ hfields =>
            .pure (.cons hvalue hfields)
        · intro items heq
          obtain ⟨rfl, rfl⟩ := Prod.mk.inj heq
          cases hvalue
          exact hne _ rfl
termination_by sizeOf fields

theorem storeAll_move (items items' : List Value) (h : ItemsRelocate L items items') :
    Mirrors (ItemsRelocate L) (storeAll items) (storeAll items') := by
  match h with
  | .nil => exact .pure .nil
  | .cons hitem hrest =>
      exact (store_moves _ _ hitem).bind fun _ _ hvalue =>
        (storeAll_move _ _ hrest).bind fun _ _ hvalues => .pure (.cons hvalue hvalues)
termination_by sizeOf items

end

/-- A target moves with its phrase. -/
theorem target_moves (hE : Locates L E) {phrase phrase' : Phrase} (h : phrase.Alike E phrase') :
    Mirrors (Relocates L) (Reading.target file phrase) (Reading.target file phrase') :=
  (expression_moves hE phrase phrase' h).bind fun value value' hvalue => store_moves value value' hvalue

end Reading

end FunctionIR
