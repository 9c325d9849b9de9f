import FunctionIR.Proofs.Grammar.Extents
import FunctionIR.Proofs.Reading.StatementFindings

/-!
# Where nodes lie

A node with a place covers a stretch of the text, and the nodes below it cover
stretches inside that one.  Only the decorators of a function stand before the
stretch of the function, which begins with its `def`.

This is not plain from a single node, because a stretch can be put together:
in a chain of operations or of calls it leads from the start of one phrase to
the stop of another, and parentheses belong to a stretch where something
follows them and not where nothing does.  So what is found between two places
is shown to lie between them (`Value.Lies`), along all paths of the reading.
The phrases have the order of the text (`Phrase.InPlace`), and the values of a
list keep it.
-/

namespace FunctionIR

open Grammar (Phrase Place Rule PartsInPlace)

/-! ### Stretches of a file -/

/-- The locations are in one file, the first not behind the second: by their
lines, then by their columns. -/
def Location.UpTo (a b : Location) : Prop :=
  a.file = b.file ∧ (a.line < b.line ∨ (a.line = b.line ∧ a.column ≤ b.column))

/-- The one span lies within the other. -/
def Span.Within (inner outer : Span) : Prop :=
  outer.start.UpTo inner.start ∧ inner.stop.UpTo outer.stop

/-- A node with a location has a span that starts there and does not end before
it starts.  Within its span lie those of all nodes below it, but for the
decorators of a function. -/
structure Node.Nests (node : Node) : Prop where
  span : ∀ location, node.head.location = some location →
    ∃ span, node.head.span = some span ∧ span.start = location ∧ span.start.UpTo span.stop
  inside : ∀ outer, node.head.span = some outer → ∀ field ∈ node.fields,
    ¬ (node.head.kind = .functionDef ∧ field.1 = "decorator_list") →
    ∀ below ∈ field.2.nodes, ∀ inner, below.head.span = some inner → inner.Within outer

namespace Reading

variable {file : String} {lo lo' mid hi hi' start start' stop stop' : Place}

/-- The order of places is that of their locations. -/
theorem locate_upTo {a b : Place} (h : a ≤ b) : (locate file a).UpTo (locate file b) := ⟨rfl, h⟩

mutual

/-- All nodes of the value lie between the two places of the file, and each has
those below it inside. -/
inductive Lies (file : String) : Place → Place → Value → Prop
  | scalar {lo hi : Place} {s : Scalar} : Lies file lo hi (.scalar s)
  | list {lo hi : Place} {items : List Value} :
      ItemsLie file lo hi items → Lies file lo hi (.list items)
  /-- No expression is without a place. -/
  | unplaced {lo hi : Place} {head : Head} {fields : Fields} :
      head.kind.role ≠ some .expression → head.location = none → head.span = none →
      FieldsLie file head.kind lo hi lo hi fields → Lies file lo hi (.node head fields)
  | placed {lo hi start stop : Place} {head : Head} {fields : Fields} :
      lo ≤ start → start ≤ stop → stop ≤ hi →
      head.location = some (locate file start) → head.span = some (spanOf file start stop) →
      FieldsLie file head.kind lo hi start stop fields → Lies file lo hi (.node head fields)

/-- The values lie between the places, one after the other. -/
inductive ItemsLie (file : String) : Place → Place → List Value → Prop
  | nil {lo hi : Place} : ItemsLie file lo hi []
  | cons {lo mid hi : Place} {value : Value} {rest : List Value} :
      lo ≤ mid → mid ≤ hi → Lies file lo mid value → ItemsLie file mid hi rest →
      ItemsLie file lo hi (value :: rest)

/-- The fields of a node lie where the node does, but decorators may lie
anywhere in its surroundings. -/
inductive FieldsLie (file : String) : Kind → Place → Place → Place → Place → Fields → Prop
  | nil {kind : Kind} {lo hi start stop : Place} : FieldsLie file kind lo hi start stop []
  | inside {kind : Kind} {lo hi start stop : Place} {name : String} {value : Value}
      {rest : Fields} :
      Lies file start stop value → FieldsLie file kind lo hi start stop rest →
      FieldsLie file kind lo hi start stop ((name, value) :: rest)
  | decorators {lo hi start stop : Place} {value : Value} {rest : Fields} :
      Lies file lo hi value → FieldsLie file .functionDef lo hi start stop rest →
      FieldsLie file .functionDef lo hi start stop (("decorator_list", value) :: rest)

end

/-! ### Building -/

mutual

/-- What lies between two places lies between places further apart. -/
theorem Lies.mono : {lo hi lo' hi' : Place} → {value : Value} → Lies file lo hi value →
    lo' ≤ lo → hi ≤ hi' → Lies file lo' hi' value
  | _, _, _, _, _, .scalar, _, _ => .scalar
  | _, _, _, _, _, .list hitems, hlo, hhi => .list (ItemsLie.mono hitems hlo hhi)
  | _, _, _, _, _, .unplaced hrole hlocation hspan hfields, hlo, hhi =>
      .unplaced hrole hlocation hspan (FieldsLie.mono hfields hlo hhi hlo hhi)
  | _, _, _, _, _, .placed hstart hin hstop hlocation hspan hfields, hlo, hhi =>
      .placed (le_trans hlo hstart) hin (le_trans hstop hhi) hlocation hspan
        (FieldsLie.mono hfields hlo hhi (le_refl _) (le_refl _))

theorem ItemsLie.mono : {lo hi lo' hi' : Place} → {items : List Value} →
    ItemsLie file lo hi items → lo' ≤ lo → hi ≤ hi' → ItemsLie file lo' hi' items
  | _, _, _, _, _, .nil, _, _ => .nil
  | _, _, _, _, _, .cons hstart hstop hvalue hrest, hlo, hhi =>
      .cons (le_trans hlo hstart) (le_trans hstop hhi) (Lies.mono hvalue hlo (le_refl _))
        (ItemsLie.mono hrest (le_refl _) hhi)

theorem FieldsLie.mono : {kind : Kind} → {lo hi lo' hi' start stop start' stop' : Place} →
    {fields : Fields} → FieldsLie file kind lo hi start stop fields → lo' ≤ lo → hi ≤ hi' →
    start' ≤ start → stop ≤ stop' → FieldsLie file kind lo' hi' start' stop' fields
  | _, _, _, _, _, _, _, _, _, _, .nil, _, _, _, _ => .nil
  | _, _, _, _, _, _, _, _, _, _, .inside hvalue hrest, hlo, hhi, hstart, hstop =>
      .inside (Lies.mono hvalue hstart hstop) (FieldsLie.mono hrest hlo hhi hstart hstop)
  | _, _, _, _, _, _, _, _, _, _, .decorators hvalue hrest, hlo, hhi, hstart, hstop =>
      .decorators (Lies.mono hvalue hlo hhi) (FieldsLie.mono hrest hlo hhi hstart hstop)

end

theorem lies_str (text : String) : Lies file lo hi (.str text) := .scalar

theorem lies_absent : Lies file lo hi .absent := .scalar

/-- A node that is no expression need not have a place. -/
theorem lies_bareNode (id : Nat) {kind : Kind} (hrole : kind.role ≠ some .expression) :
    Lies file lo hi (bareNode id kind) :=
  .unplaced hrole rfl rfl .nil

theorem lies_getD {value : Option Value} (h : ∀ v ∈ value, Lies file lo hi v) :
    Lies file lo hi (value.getD .absent) := by
  cases value with
  | none => exact lies_absent
  | some v => exact h v rfl

/-- A new node that covers the text between two places. -/
theorem lies_placed {id : Nat} {kind : Kind} {fields : Fields} (hle : start ≤ stop)
    (hfields : FieldsLie file kind start stop start stop fields) :
    Lies file start stop (.node (placedHead file id kind start stop) fields) :=
  .placed (le_refl _) hle (le_refl _) rfl rfl hfields

/-- A tuple or a list around its items. -/
theorem lies_sequenceNode {id : Nat} {kind : Kind} {items : List Value} (hle : start ≤ stop)
    (hitems : ItemsLie file start stop items) :
    Lies file start stop (sequenceNode (placedHead file id kind start stop) items) :=
  lies_placed hle (.inside (.list hitems) (.inside (lies_bareNode _ nofun) .nil))

theorem ItemsLie.single {value : Value} (hle : lo ≤ hi) (h : Lies file lo hi value) :
    ItemsLie file lo hi [value] :=
  .cons hle (le_refl _) h .nil

theorem ItemsLie.append {items more : List Value} (hlo : lo ≤ mid) (hhi : mid ≤ hi)
    (h : ItemsLie file lo mid items) (hmore : ItemsLie file mid hi more) :
    ItemsLie file lo hi (items ++ more) := by
  induction items generalizing lo with
  | nil => exact hmore.mono hlo (le_refl _)
  | cons item items ih =>
      cases h with
      | cons hstart hstop hitem hitems =>
          exact .cons hstart (le_trans hstop hhi) hitem (ih hstop hitems)

/-- The first value lies between the same places. -/
theorem ItemsLie.head {value : Value} {rest : List Value}
    (h : ItemsLie file lo hi (value :: rest)) : Lies file lo hi value := by
  cases h with
  | cons _ hstop hvalue _ => exact hvalue.mono (le_refl _) hstop

/-- A field that is set to a value inside. -/
theorem FieldsLie.set {kind : Kind} {name : String} {value : Value} {fields : Fields}
    (h : FieldsLie file kind lo hi start stop fields) (hvalue : Lies file start stop value) :
    FieldsLie file kind lo hi start stop (Members.set name value fields) := by
  induction fields with
  | nil => exact .inside hvalue .nil
  | cons field rest ih =>
      rw [Members.set]
      cases h with
      | inside hold hrest =>
          split
          · exact .inside hvalue hrest
          · exact .inside hold (ih hrest)
      | decorators hold hrest =>
          split
          · exact .inside hvalue hrest
          · exact .decorators hold (ih hrest)

/-- A field that holds no decorators lies where the node does. -/
theorem FieldsLie.inside_of_ne {kind : Kind} {name : String} {value : Value} {rest : Fields}
    (h : FieldsLie file kind lo hi start stop ((name, value) :: rest))
    (hname : name ≠ "decorator_list") : Lies file start stop value := by
  cases h with
  | inside hvalue _ => exact hvalue
  | decorators => exact absurd rfl hname

/-- The elements of a tuple or list. -/
theorem FieldsLie.elements {kind : Kind} {items : List Value} {rest : Fields}
    (h : FieldsLie file kind lo hi start stop (("elts", .list items) :: rest)) :
    ItemsLie file start stop items := by
  cases h.inside_of_ne (by decide) with
  | list hitems => exact hitems

/-! ### Phrases along the text -/

/-- The phrases are in place between the two places, one after the other. -/
def Along (lo hi : Place) : List Phrase → Prop
  | [] => lo ≤ hi
  | phrase :: rest => lo ≤ phrase.start ∧ phrase.InPlace ∧ Along phrase.stop hi rest

/-- Phrases along a stretch of text do not go backwards. -/
theorem Along.le {phrases : List Phrase} (h : Along lo hi phrases) : lo ≤ hi := by
  induction phrases generalizing lo with
  | nil => exact h
  | cons phrase rest ih =>
      obtain ⟨hstart, hin, hrest⟩ := h
      exact le_trans hstart (le_trans hin.start_le_stop (ih hrest))

/-- They may begin earlier. -/
theorem Along.from {phrases : List Phrase} (hlo : lo' ≤ lo) (h : Along lo hi phrases) :
    Along lo' hi phrases := by
  cases phrases with
  | nil => exact le_trans hlo h
  | cons phrase rest => exact ⟨le_trans hlo h.1, h.2⟩

/-- Parts in place go along the text they stand in. -/
theorem along_of_parts {place : Place} {text : List Char} {phrases : List Phrase}
    (h : PartsInPlace place text phrases) : Along place (text.foldl Place.after place) phrases := by
  induction phrases generalizing place text with
  | nil => exact Place.le_foldl _ _
  | cons phrase rest ih =>
      cases h with
      | cons htext hstart hpart hrest =>
          refine ⟨?_, hpart, ?_⟩
          · rw [hstart]
            exact Place.le_foldl _ _
          · rw [htext, List.foldl_append, List.foldl_append, ← hstart, ← hpart.stop_eq]
            exact ih hrest

/-- The parts of a phrase go along it. -/
theorem along_parts {phrase : Phrase} (h : phrase.InPlace) :
    Along phrase.start phrase.stop phrase.parts := by
  rw [h.stop_eq]
  exact along_of_parts h.inside

/-! ### What is found lies where its phrases do -/

/-- What is found lies where the phrases do.  A value that is gone on from lies
before them. -/
def Finding.LiesIn (file : String) : Finding → Prop
  | .expression phrase value => phrase.InPlace → Lies file phrase.start phrase.stop value
  | .expressions phrases values | .elements phrases values _ =>
    ∀ lo hi, Along lo hi phrases → ItemsLie file lo hi values
  | .comparisons phrases first second | .arguments phrases first second =>
    ∀ lo hi, Along lo hi phrases → ItemsLie file lo hi first ∧ ItemsLie file lo hi second
  | .operations start before phrases value | .trailers start before phrases value =>
    ∀ mid hi, start ≤ mid → Along mid hi phrases → Lies file start mid before →
      Lies file start hi value

/-- What lies in a part of a phrase lies in the phrase. -/
theorem lies_part {phrase part : Phrase} {value : Value} (hin : phrase.InPlace)
    (hpart : part ∈ phrase.parts) (h : part.InPlace → Lies file part.start part.stop value) :
    Lies file phrase.start phrase.stop value := by
  obtain ⟨hinPart, hstart, hstop⟩ := hin.parts part hpart
  exact (h hinPart).mono hstart hstop

/-- An operation goes on from its left operand. -/
theorem lies_operated {id : Nat} {op : BinaryOp} {left right : Value} (hle : start ≤ mid)
    (hmid : mid ≤ lo) (hhi : lo ≤ hi) (hleft : Lies file start mid left)
    (hright : Lies file lo hi right) :
    Lies file start hi (.node (placedHead file id .binOp start hi)
      [("left", left), ("op", bareNode (id + 1) (.binary op)), ("right", right)]) :=
  lies_placed (le_trans hle (le_trans hmid hhi))
    (.inside (hleft.mono (le_refl _) (le_trans hmid hhi)) (.inside (lies_bareNode _ nofun)
      (.inside (hright.mono (le_trans hle hmid) (le_refl _)) .nil)))

/-- A call, an attribute and a subscript go on from their value. -/
theorem lies_called {id : Nat} {value : Value} {args keywords : List Value} (hle : start ≤ mid)
    (hhi : mid ≤ hi) (hvalue : Lies file start mid value) (hargs : ItemsLie file mid hi args)
    (hkeywords : ItemsLie file mid hi keywords) :
    Lies file start hi (.node (placedHead file id .call start hi)
      [("func", value), ("args", .list args), ("keywords", .list keywords)]) :=
  lies_placed (le_trans hle hhi)
    (.inside (hvalue.mono (le_refl _) hhi) (.inside (.list (hargs.mono hle (le_refl _)))
      (.inside (.list (hkeywords.mono hle (le_refl _))) .nil)))

/-- An attribute lies around the value it is taken of. -/
theorem lies_selected {id : Nat} {value : Value} {name : String} (hle : start ≤ mid)
    (hhi : mid ≤ hi) (hvalue : Lies file start mid value) :
    Lies file start hi (.node (placedHead file id .attr start hi)
      [("value", value), ("attr", .str name), ("ctx", bareNode (id + 1) (.context .load))]) :=
  lies_placed (le_trans hle hhi)
    (.inside (hvalue.mono (le_refl _) hhi)
      (.inside (lies_str _) (.inside (lies_bareNode _ nofun) .nil)))

/-- A subscript lies around its value and its index. -/
theorem lies_subscripted {id ctx : Nat} {value slice : Value} (hle : start ≤ mid) (hhi : mid ≤ hi)
    (hvalue : Lies file start mid value) (hslice : Lies file mid hi slice) :
    Lies file start hi (.node (placedHead file id .subscript start hi)
      [("value", value), ("slice", slice), ("ctx", bareNode ctx (.context .load))]) :=
  lies_placed (le_trans hle hhi)
    (.inside (hvalue.mono (le_refl _) hhi) (.inside (hslice.mono hle (le_refl _))
      (.inside (lies_bareNode _ nofun) .nil)))

/-- **What is found lies where its phrases do.** -/
theorem Finds.lies {c d : Nat} {finding : Finding} (h : Finds file c finding d) :
    finding.LiesIn file := by
  induction h with
  | conditional _ _ _ ihbody ihtest ihorelse =>
      intro hin
      exact lies_placed hin.start_le_stop
        (.inside (lies_part hin (by simp [Phrase.parts]) ihtest)
          (.inside (lies_part hin (by simp [Phrase.parts]) ihbody)
            (.inside (lies_part hin (by simp [Phrase.parts]) ihorelse) .nil)))
  | joined _ _ ih =>
      intro hin
      exact lies_placed hin.start_le_stop
        (.inside (lies_bareNode _ nofun) (.inside (.list (ih _ _ (along_parts hin))) .nil))
  | negation _ ih =>
      intro hin
      exact lies_placed hin.start_le_stop
        (.inside (lies_bareNode _ nofun) (.inside (lies_part hin (by simp [Phrase.parts]) ih) .nil))
  | comparison _ _ ihleft ihrest =>
      intro hin
      obtain ⟨hstart, hinFirst, hrest⟩ := along_parts hin
      obtain ⟨hops, hcomparators⟩ :=
        ihrest _ _ (hrest.from (le_trans hstart hinFirst.start_le_stop))
      exact lies_placed hin.start_le_stop
        (.inside (lies_part hin (by simp [Phrase.parts]) ihleft)
          (.inside (.list hops) (.inside (.list hcomparators) .nil)))
  | chain _ _ _ ihleft ihrest =>
      intro hin
      obtain ⟨hstart, hinFirst, hrest⟩ := along_parts hin
      exact ihrest _ _ (le_trans hstart hinFirst.start_le_stop) hrest
        ((ihleft hinFirst).mono hstart (le_refl _))
  | sign _ _ ih =>
      intro hin
      exact lies_placed hin.start_le_stop
        (.inside (lies_bareNode _ nofun) (.inside (lies_part hin (by simp [Phrase.parts]) ih) .nil))
  | power _ _ ihbase ihexponent =>
      intro hin
      exact lies_placed hin.start_le_stop
        (.inside (lies_part hin (by simp [Phrase.parts]) ihbase)
          (.inside (lies_bareNode _ nofun)
            (.inside (lies_part hin (by simp [Phrase.parts]) ihexponent) .nil)))
  | primary _ _ ihatom ihrest =>
      -- The chain starts with the atom, which may be behind a bracket of the phrase.
      intro hin
      obtain ⟨hstart, hinAtom, hrest⟩ := along_parts hin
      exact (ihrest _ _ hinAtom.start_le_stop hrest (ihatom hinAtom)).mono hstart (le_refl _)
  | unit =>
      intro hin
      exact lies_sequenceNode hin.start_le_stop .nil
  | display _ ih =>
      intro hin
      exact lies_sequenceNode hin.start_le_stop (ih _ _ (along_parts hin))
  | alone _ _ ih =>
      intro hin
      exact (ih _ _ (along_parts hin)).head
  | tuple _ _ _ ih =>
      intro hin
      exact lies_sequenceNode hin.start_le_stop (ih _ _ (along_parts hin))
  | name =>
      intro hin
      exact lies_placed hin.start_le_stop
        (.inside (lies_str _) (.inside (lies_bareNode _ nofun) .nil))
  | literal =>
      intro hin
      exact lies_placed hin.start_le_stop (.inside .scalar (.inside lies_absent .nil))
  | passed _ _ ih =>
      intro hin
      exact lies_part hin (by simp [Phrase.parts]) ih
  | nothing | noElement =>
      intro lo hi _
      exact .nil
  | next _ _ ihvalue ihrest | element _ _ ihvalue ihrest =>
      intro lo hi halong
      obtain ⟨hstart, hin, hrest⟩ := halong
      exact .cons (le_trans hstart hin.start_le_stop) hrest.le
        ((ihvalue hin).mono hstart (le_refl _)) (ihrest _ _ hrest)
  | comma _ ih =>
      intro lo hi halong
      obtain ⟨hstart, hin, hrest⟩ := halong
      exact ih _ _ (hrest.from (le_trans hstart hin.start_le_stop))
  | notCompared | noArgument =>
      intro lo hi _
      exact ⟨.nil, .nil⟩
  | compared _ _ _ ihright ihrest =>
      intro lo hi halong
      obtain ⟨hstart, hinToken, hbetween, hin, hrest⟩ := halong
      have hlo := le_trans (le_trans hstart hinToken.start_le_stop) hbetween
      have hmid := le_trans hlo hin.start_le_stop
      obtain ⟨hops, hcomparators⟩ := ihrest _ _ hrest
      exact ⟨.cons hmid hrest.le (lies_bareNode _ nofun) hops,
        .cons hmid hrest.le ((ihright hin).mono hlo (le_refl _)) hcomparators⟩
  | notOperated | notExtended =>
      intro mid hi _ halong hbefore
      exact hbefore.mono (le_refl _) halong
  | operated _ _ _ ihright ihrest =>
      intro mid hi hle halong hleft
      obtain ⟨hstart, hinToken, hbetween, hin, hrest⟩ := halong
      have hmid := le_trans (le_trans hstart hinToken.start_le_stop) hbetween
      have hstop := le_trans hmid hin.start_le_stop
      exact ihrest _ _ (le_trans hle hstop) hrest
        (lies_operated hle hmid hin.start_le_stop hleft (ihright hin))
  | called _ _ ihargs ihrest =>
      intro mid hi hle halong hvalue
      obtain ⟨hstart, hin, hrest⟩ := halong
      have hstop := le_trans hstart hin.start_le_stop
      obtain ⟨hargs, hkeywords⟩ := ihargs _ _ ((along_parts hin).from hstart)
      exact ihrest _ _ (le_trans hle hstop) hrest (lies_called hle hstop hvalue hargs hkeywords)
  | selected _ ihrest =>
      intro mid hi hle halong hvalue
      obtain ⟨hstart, hin, hrest⟩ := halong
      have hstop := le_trans hstart hin.start_le_stop
      exact ihrest _ _ (le_trans hle hstop) hrest (lies_selected hle hstop hvalue)
  | subscripted _ _ ihindex ihrest =>
      intro mid hi hle halong hvalue
      obtain ⟨hstart, hin, hrest⟩ := halong
      have hstop := le_trans hstart hin.start_le_stop
      have hslice := lies_part hin (by simp [Phrase.parts]) ihindex
      exact ihrest _ _ (le_trans hle hstop) hrest
        (lies_subscripted hle hstop hvalue (hslice.mono hstart (le_refl _)))
  | keyword _ _ ihvalue ihrest =>
      intro lo hi halong
      obtain ⟨hstart, hin, hrest⟩ := halong
      obtain ⟨hargs, hkeywords⟩ := ihrest _ _ hrest
      have hmid := le_trans hstart hin.start_le_stop
      have hvalue := lies_part hin (by simp [Phrase.parts]) ihvalue
      refine ⟨hargs.mono hmid (le_refl _), .cons hmid hrest.le ?_ hkeywords⟩
      exact (lies_placed hin.start_le_stop (.inside (lies_str _) (.inside hvalue .nil))).mono
        hstart (le_refl _)
  | argument _ _ ihvalue ihrest =>
      intro lo hi halong
      obtain ⟨hstart, hin, hrest⟩ := halong
      obtain ⟨hargs, hkeywords⟩ := ihrest _ _ hrest
      have hmid := le_trans hstart hin.start_le_stop
      exact ⟨.cons hmid hrest.le ((ihvalue hin).mono hstart (le_refl _)) hargs,
        hkeywords.mono hmid (le_refl _)⟩

/-! ### Targets and statements without a body -/

mutual

/-- What is stored lies where it lay. -/
theorem Stores.lies : {c d : Nat} → {value target : Value} → Stores c value target d →
    ∀ {lo hi : Place}, Lies file lo hi value → Lies file lo hi target
  | _, _, _, _, .single _ _ _, _, _, .unplaced hrole hlocation hspan hfields =>
      .unplaced hrole hlocation hspan (hfields.set (lies_bareNode _ nofun))
  | _, _, _, _, .single _ _ _, _, _, .placed hstart hin hstop hlocation hspan hfields =>
      .placed hstart hin hstop hlocation hspan (hfields.set (lies_bareNode _ nofun))
  | _, _, _, _, .sequence _ hitems, _, _, .unplaced hrole hlocation hspan hfields =>
      .unplaced hrole hlocation hspan
        (.inside (.list (StoresAll.lie hitems hfields.elements))
          (.inside (lies_bareNode _ nofun) .nil))
  | _, _, _, _, .sequence _ hitems, _, _, .placed hstart hin hstop hlocation hspan hfields =>
      .placed hstart hin hstop hlocation hspan
        (.inside (.list (StoresAll.lie hitems hfields.elements))
          (.inside (lies_bareNode _ nofun) .nil))

theorem StoresAll.lie : {c d : Nat} → {values targets : List Value} →
    StoresAll c values targets d →
    ∀ {lo hi : Place}, ItemsLie file lo hi values → ItemsLie file lo hi targets
  | _, _, _, _, .nil, _, _, _ => .nil
  | _, _, _, _, .cons hvalue hrest, _, _, .cons hstart hstop hlies hlie =>
      .cons hstart hstop (Stores.lies hvalue hlies) (StoresAll.lie hrest hlie)

end

/-- A target lies where its phrase does. -/
theorem FindsTarget.lies {c d : Nat} {phrase : Phrase} {target : Value}
    (h : FindsTarget file c phrase target d) (hin : phrase.InPlace) :
    Lies file phrase.start phrase.stop target := by
  cases h with
  | mk hvalue hstores => exact hstores.lies (hvalue.lies hin)

/-- The targets lie before the value. -/
theorem FindsTargets.lie {c d : Nat} {phrases : List Phrase} {targets : List Value}
    {value : Phrase} (h : FindsTargets file c phrases targets value d) {lo hi : Place}
    (halong : Along lo hi phrases) :
    ItemsLie file lo hi targets ∧ value ∈ phrases := by
  induction h generalizing lo with
  | value => exact ⟨.nil, List.mem_singleton_self _⟩
  | target htarget _ ih =>
      obtain ⟨hstart, hin, hrest⟩ := halong
      obtain ⟨htargets, hvalue⟩ := ih hrest
      exact ⟨.cons (le_trans hstart hin.start_le_stop) hrest.le
        ((htarget.lies hin).mono hstart (le_refl _)) htargets, List.mem_cons_of_mem _ hvalue⟩

/-- A simple statement lies where its phrase does. -/
theorem FindsSimple.lies {c d : Nat} {phrase : Phrase} {value : Value}
    (h : FindsSimple file c phrase value d) (hin : phrase.InPlace) :
    Lies file phrase.start phrase.stop value := by
  cases h with
  | word => exact lies_placed hin.start_le_stop .nil
  | returned => exact lies_placed hin.start_le_stop (.inside lies_absent .nil)
  | returnedValue hvalue | evaluated hvalue =>
      exact lies_placed hin.start_le_stop
        (.inside (lies_part hin (by simp [Phrase.parts]) hvalue.lies) .nil)
  | assigned htargets hvalue =>
      obtain ⟨hlie, hmem⟩ := htargets.lie (along_parts hin)
      exact lies_placed hin.start_le_stop
        (.inside (.list hlie) (.inside (lies_part hin hmem hvalue.lies) (.inside lies_absent .nil)))
  | augmented _ htarget hvalue =>
      exact lies_placed hin.start_le_stop
        (.inside (lies_part hin (by simp [Phrase.parts]) htarget.lies)
          (.inside (lies_bareNode _ nofun)
            (.inside (lies_part hin (by simp [Phrase.parts]) hvalue.lies) .nil)))

/-- Simple statements lie along their phrases. -/
theorem FindsSimples.lie {c d : Nat} {phrases : List Phrase} {values : List Value}
    (h : FindsSimples file c phrases values d) {lo hi : Place} (halong : Along lo hi phrases) :
    ItemsLie file lo hi values := by
  induction h generalizing lo with
  | nil => exact .nil
  | cons hstatement _ ih =>
      obtain ⟨hstart, hin, hrest⟩ := halong
      exact .cons (le_trans hstart hin.start_le_stop) hrest.le
        ((hstatement.lies hin).mono hstart (le_refl _)) (ih hrest)

/-! ### Parameters -/

/-- What has been read of a parameter lies between the places. -/
def ParameterParts.LieIn (file : String) (lo hi : Place) (parts : ParameterParts) : Prop :=
  (∀ v ∈ parts.annotated, Lies file lo hi v) ∧ ∀ v ∈ parts.default, Lies file lo hi v

/-- The parts of a parameter lie inside it. -/
theorem FindsParts.lie {c d : Nat} {phrases : List Phrase} {sofar parts : ParameterParts}
    (h : FindsParts file c phrases sofar parts d)
    (hin : ∀ phrase ∈ phrases, phrase.InPlace ∧ lo ≤ phrase.start ∧ phrase.stop ≤ hi)
    (hsofar : sofar.LieIn file lo hi) : parts.LieIn file lo hi := by
  induction h with
  | done => exact hsofar
  | name _ ih =>
      obtain ⟨-, hrest⟩ := List.forall_mem_cons.mp hin
      exact ih hrest hsofar
  | hint hvalue _ ih =>
      obtain ⟨⟨hphrase, hstart, hstop⟩, hrest⟩ := List.forall_mem_cons.mp hin
      have hfound := finds_expression _ hvalue
      have hlies := (lies_part hphrase (by simp [Phrase.parts]) hfound.lies).mono hstart hstop
      exact ih hrest ⟨by rintro _ ⟨⟩; exact hlies, hsofar.2⟩
  | default hvalue _ ih =>
      obtain ⟨⟨hphrase, hstart, hstop⟩, hrest⟩ := List.forall_mem_cons.mp hin
      have hfound := finds_expression _ hvalue
      have hlies := (lies_part hphrase (by simp [Phrase.parts]) hfound.lies).mono hstart hstop
      exact ih hrest ⟨hsofar.1, by rintro _ ⟨⟩; exact hlies⟩

/-- A parameter and its default lie where their phrase does. -/
theorem FindsParameter.lies {c d : Nat} {rule : Rule} {text : List Char} {phrases : List Phrase}
    {arg : Value} {default : Option Value}
    (h : FindsParameter file c start stop phrases arg default d)
    (hin : (Phrase.mk rule start stop text phrases).InPlace) :
    Lies file start stop arg ∧ ∀ v ∈ default, Lies file start stop v := by
  cases h with
  | mk hparts =>
      obtain ⟨hannotated, hdefault⟩ := hparts.lie hin.parts ⟨nofun, nofun⟩
      exact ⟨lies_placed hin.start_le_stop (.inside (lies_str _)
        (.inside (lies_getD hannotated) (.inside lies_absent .nil))), hdefault⟩

/-- The parameters lie between the places, those of each group one after the
other. -/
structure Parameters.LieIn (file : String) (lo hi : Place) (p : Parameters) : Prop where
  positionalOnly : ItemsLie file lo hi p.positionalOnly
  positional : ItemsLie file lo hi p.positional
  rest : ∀ v ∈ p.rest, Lies file lo hi v
  keywordOnly : ItemsLie file lo hi p.keywordOnly
  keywordDefaults : ItemsLie file lo hi p.keywordDefaults
  keywords : ∀ v ∈ p.keywords, Lies file lo hi v
  defaults : ItemsLie file lo hi p.defaults

namespace Parameters

variable {p q : Parameters}

theorem lieIn_empty : empty.LieIn file lo hi := ⟨.nil, .nil, nofun, .nil, .nil, nofun, .nil⟩

theorem LieIn.mono (h : p.LieIn file lo hi) (hhi : hi ≤ hi') : p.LieIn file lo hi' where
  positionalOnly := h.positionalOnly.mono (le_refl _) hhi
  positional := h.positional.mono (le_refl _) hhi
  rest v hv := (h.rest v hv).mono (le_refl _) hhi
  keywordOnly := h.keywordOnly.mono (le_refl _) hhi
  keywordDefaults := h.keywordDefaults.mono (le_refl _) hhi
  keywords v hv := (h.keywords v hv).mono (le_refl _) hhi
  defaults := h.defaults.mono (le_refl _) hhi

/-- A slash moves no parameter. -/
theorem LieIn.addSlash (h : p.LieIn file lo hi) (hadded : p.addSlash = some q) :
    q.LieIn file lo hi := by
  obtain ⟨-, -, rfl⟩ := addSlash_eq_some hadded
  exact { h with positionalOnly := h.positional, positional := .nil }

/-- A parameter is added behind those that were read. -/
theorem LieIn.addPlain {arg : Value} {default : Option Value} (hlo : lo ≤ mid) (hhi : mid ≤ hi)
    (h : p.LieIn file lo mid) (harg : Lies file mid hi arg)
    (hdefault : ∀ v ∈ default, Lies file mid hi v) (hadded : p.addPlain arg default = some q) :
    q.LieIn file lo hi := by
  have hlater := h.mono hhi
  have hsingle := ItemsLie.single hhi harg
  obtain ⟨-, rfl⟩ | ⟨-, value, rfl, rfl⟩ | ⟨-, -, -, rfl⟩ := addPlain_eq_some hadded
  · exact { hlater with
      keywordOnly := h.keywordOnly.append hlo hhi hsingle
      keywordDefaults := h.keywordDefaults.append hlo hhi (.single hhi (lies_getD hdefault)) }
  · exact { hlater with
      positional := h.positional.append hlo hhi hsingle
      defaults := h.defaults.append hlo hhi (.single hhi (hdefault value rfl)) }
  · exact { hlater with positional := h.positional.append hlo hhi hsingle }

/-- The node of parameters has no place and those in it lie as they do. -/
theorem LieIn.node (h : p.LieIn file lo hi) (id : Nat) : Lies file lo hi (p.node id) :=
  .unplaced nofun rfl rfl
    (.inside (.list h.positionalOnly) (.inside (.list h.positional)
      (.inside (lies_getD h.rest) (.inside (.list h.keywordOnly)
        (.inside (.list h.keywordDefaults) (.inside (lies_getD h.keywords)
          (.inside (.list h.defaults) .nil)))))))

end Parameters

/-- Parameters lie along their phrases. -/
theorem FindsParameters.lie {c d : Nat} {phrases : List Phrase} {p q : Parameters}
    (h : FindsParameters file c phrases p q d) {lo mid hi : Place} (hle : lo ≤ mid)
    (halong : Along mid hi phrases) (hp : p.LieIn file lo mid) : q.LieIn file lo hi := by
  induction h generalizing mid with
  | done => exact hp.mono halong
  | slash hadded _ ih =>
      obtain ⟨hstart, hin, hrest⟩ := halong
      have hstop := le_trans hstart hin.start_le_stop
      exact ih (le_trans hle hstop) hrest ((hp.addSlash hadded).mono hstop)
  | plain hparameter hadded _ ih =>
      obtain ⟨hstart, hin, hrest⟩ := halong
      have hstop := le_trans hstart hin.start_le_stop
      obtain ⟨harg, hdefault⟩ := hparameter.lies hin
      refine ih (le_trans hle hstop) hrest ?_
      exact hp.addPlain hle hstop (harg.mono hstart (le_refl _))
        (fun v hv => (hdefault v hv).mono hstart (le_refl _)) hadded
  | star _ _ ih =>
      obtain ⟨hstart, hin, hrest⟩ := halong
      have hstop := le_trans hstart hin.start_le_stop
      exact ih (le_trans hle hstop) hrest { hp.mono hstop with }
  | varargs _ _ hparameter _ ih =>
      obtain ⟨hstart, hin, hrest⟩ := halong
      have hstop := le_trans hstart hin.start_le_stop
      have harg := (hparameter.lies hin).1.mono (le_trans hle hstart) (le_refl _)
      exact ih (le_trans hle hstop) hrest
        { hp.mono hstop with rest := by rintro _ ⟨⟩; exact harg }
  | kwargs hparameter _ ih =>
      obtain ⟨hstart, hin, hrest⟩ := halong
      have hstop := le_trans hstart hin.start_le_stop
      have harg := (hparameter.lies hin).1.mono (le_trans hle hstart) (le_refl _)
      exact ih (le_trans hle hstop) hrest
        { hp.mono hstop with keywords := by rintro _ ⟨⟩; exact harg }

/-! ### Statements -/

/-- The parts of a function lie between the places. -/
structure FunctionParts.LieIn (file : String) (lo hi : Place) (parts : FunctionParts) : Prop where
  arguments : ∀ v ∈ parts.arguments, Lies file lo hi v
  returns : ∀ v ∈ parts.returns, Lies file lo hi v
  body : ItemsLie file lo hi parts.body

theorem FunctionParts.lieIn_nothing : (FunctionParts.mk "" none none []).LieIn file lo hi :=
  ⟨nofun, nofun, .nil⟩

/-- The arguments of a function lie inside it. -/
theorem FindsArguments.lies {c d : Nat} {given : Option Value} {arguments : Value}
    (h : FindsArguments c given arguments d) (hgiven : ∀ v ∈ given, Lies file lo hi v) :
    Lies file lo hi arguments := by
  cases h with
  | given => exact hgiven arguments rfl
  | none => exact Parameters.lieIn_empty.node _

/-- A function lies between the places, with its decorators. -/
theorem FindsFunction.lies {c d : Nat} {decorators : List Value} {parts : FunctionParts}
    {function : Value} (h : FindsFunction file c start stop decorators parts function d)
    (hparts : parts.LieIn file start stop) (hdecorators : ItemsLie file lo hi decorators)
    (hlo : lo ≤ start) (hle : start ≤ stop) (hhi : stop ≤ hi) : Lies file lo hi function := by
  cases h with
  | mk harguments =>
      refine .placed hlo hle hhi rfl rfl ?_
      exact .inside (lies_str _) (.inside (harguments.lies hparts.arguments)
        (.inside (.list hparts.body) (.decorators (.list hdecorators)
          (.inside (lies_getD hparts.returns) (.inside lies_absent .nil)))))

/-- What is found lies where the phrases do; decorators that were found lie
before them. -/
def StatementFinding.LiesIn (file : String) : StatementFinding → Prop
  | .statements phrase values =>
    phrase.InPlace → ItemsLie file phrase.start phrase.stop values
  | .all phrases values => ∀ lo hi, Along lo hi phrases → ItemsLie file lo hi values
  | .decorated phrases decorators values =>
    ∀ lo mid hi, lo ≤ mid → Along mid hi phrases → ItemsLie file lo mid decorators →
      ItemsLie file lo hi values
  | .parts phrases sofar found =>
    ∀ lo hi, (∀ phrase ∈ phrases, phrase.InPlace ∧ lo ≤ phrase.start ∧ phrase.stop ≤ hi) →
      sofar.LieIn file lo hi → found.LieIn file lo hi

/-- What lies in a part of a phrase lies in the phrase. -/
theorem itemsLie_part {phrase part : Phrase} {values : List Value} (hin : phrase.InPlace)
    (hpart : part ∈ phrase.parts)
    (h : part.InPlace → ItemsLie file part.start part.stop values) :
    ItemsLie file phrase.start phrase.stop values := by
  obtain ⟨hinPart, hstart, hstop⟩ := hin.parts part hpart
  exact (h hinPart).mono hstart hstop

/-- **Statements lie where their phrases do.** -/
theorem StatementFinds.lies {c d : Nat} {finding : StatementFinding}
    (h : StatementFinds file c finding d) : finding.LiesIn file := by
  -- phrases lie along the text in order, so what is found so far ends before the next one
  induction h with
  | passed _ _ ih =>
      intro hin
      exact itemsLie_part hin (by simp [Phrase.parts]) ih
  | simple hstatements =>
      intro hin
      exact hstatements.lie (along_parts hin)
  | block _ ih =>
      intro hin
      exact ih _ _ (along_parts hin)
  | decorated _ ih =>
      intro hin
      exact ih _ _ _ (le_refl _) (along_parts hin) .nil
  | function _ hfunction ih =>
      intro hin
      have hparts := ih _ _ hin.parts FunctionParts.lieIn_nothing
      exact .single hin.start_le_stop
        (hfunction.lies hparts .nil (le_refl _) hin.start_le_stop (le_refl _))
  | conditional _ _ htest _ ihorelse ihbody =>
      intro hin
      obtain ⟨hstart, hinFirst, hbetween, hinSecond, hrest⟩ := along_parts hin
      have horelse := ihorelse _ _ (hrest.from (le_trans hstart
        (le_trans hinFirst.start_le_stop (le_trans hbetween hinSecond.start_le_stop))))
      refine .single hin.start_le_stop (lies_placed hin.start_le_stop ?_)
      exact .inside (lies_part hin (by simp [Phrase.parts]) htest.lies)
        (.inside (.list (itemsLie_part hin (by simp [Phrase.parts]) ihbody))
          (.inside (.list horelse) .nil))
  | loop _ htarget hiter _ ihorelse ihbody =>
      intro hin
      obtain ⟨hstart, hinFirst, hbetween, hinSecond, hbefore, hinThird, hrest⟩ := along_parts hin
      have hmid := le_trans hstart
        (le_trans hinFirst.start_le_stop (le_trans hbetween hinSecond.start_le_stop))
      have horelse := ihorelse _ _
        (hrest.from (le_trans hmid (le_trans hbefore hinThird.start_le_stop)))
      refine .single hin.start_le_stop (lies_placed hin.start_le_stop ?_)
      exact .inside (lies_part hin (by simp [Phrase.parts]) htarget.lies)
        (.inside (lies_part hin (by simp [Phrase.parts]) hiter.lies)
          (.inside (.list (itemsLie_part hin (by simp [Phrase.parts]) ihbody))
            (.inside (.list horelse) (.inside lies_absent .nil))))
  | nothing =>
      intro lo hi _
      exact .nil
  | next _ _ ihfirst ihrest =>
      intro lo hi halong
      obtain ⟨hstart, hin, hrest⟩ := halong
      exact ((ihfirst hin).mono hstart (le_refl _)).append
        (le_trans hstart hin.start_le_stop) hrest.le (ihrest _ _ hrest)
  | decorator hvalue _ ih =>
      intro lo mid hi hle halong hdecorators
      obtain ⟨hstart, hin, hrest⟩ := halong
      have hstop := le_trans hstart hin.start_le_stop
      have hdecorator := lies_part hin (by simp [Phrase.parts]) hvalue.lies
      exact ih _ _ _ (le_trans hle hstop) hrest (hdecorators.append hle hstop
        (.single hstop (hdecorator.mono hstart (le_refl _))))
  | decoratedFunction _ hfunction ih =>
      intro lo mid hi hle halong hdecorators
      have hhi := halong.le
      obtain ⟨hstart, hin, hrest⟩ := halong
      have hparts := ih _ _ hin.parts FunctionParts.lieIn_nothing
      exact .single (le_trans hle hhi) (hfunction.lies hparts (hdecorators.mono (le_refl _) hhi)
        (le_trans hle hstart) hin.start_le_stop hrest.le)
  | undecorated =>
      intro lo mid hi _ _ _
      exact .nil
  | done =>
      intro lo hi _ hsofar
      exact hsofar
  | name _ ih =>
      intro lo hi hin hsofar
      obtain ⟨-, hrest⟩ := List.forall_mem_cons.mp hin
      exact ih _ _ hrest { hsofar with }
  | parameters hparameters _ ih =>
      intro lo hi hin hsofar
      obtain ⟨⟨hphrase, hstart, hstop⟩, hrest⟩ := List.forall_mem_cons.mp hin
      have hp := hparameters.lie (le_refl _) (along_parts hphrase) Parameters.lieIn_empty
      exact ih _ _ hrest
        { hsofar with arguments := by rintro _ ⟨⟩; exact (hp.node _).mono hstart hstop }
  | returns hvalue _ ih =>
      intro lo hi hin hsofar
      obtain ⟨⟨hphrase, hstart, hstop⟩, hrest⟩ := List.forall_mem_cons.mp hin
      have hlies := (lies_part hphrase (by simp [Phrase.parts]) hvalue.lies).mono hstart hstop
      exact ih _ _ hrest { hsofar with returns := by rintro _ ⟨⟩; exact hlies }
  | body _ _ ihbody ih =>
      intro lo hi hin hsofar
      obtain ⟨⟨hphrase, hstart, hstop⟩, hrest⟩ := List.forall_mem_cons.mp hin
      exact ih _ _ hrest { hsofar with body := (ihbody hphrase).mono hstart hstop }

/-! ### All nodes nest -/

end Reading

theorem Location.UpTo.trans {a b c : Location} (h : a.UpTo b) (h' : b.UpTo c) : a.UpTo c := by
  obtain ⟨hfile, hle⟩ := h
  obtain ⟨hfile', hle'⟩ := h'
  exact ⟨hfile.trans hfile', by omega⟩

/-- A span within a stretch is within a longer one. -/
theorem Span.Within.mono {file : String} {span : Span} {lo hi lo' hi' : Place}
    (h : span.Within (Reading.spanOf file lo hi)) (hlo : lo' ≤ lo) (hhi : hi ≤ hi') :
    span.Within (Reading.spanOf file lo' hi') :=
  ⟨(Reading.locate_upTo hlo).trans h.1, h.2.trans (Reading.locate_upTo hhi)⟩

namespace Reading

variable {file : String}

/-- A field that holds no decorators lies where the node does. -/
theorem FieldsLie.of_mem {kind : Kind} {lo hi start stop : Place} {fields : Fields}
    (h : FieldsLie file kind lo hi start stop fields) : ∀ field ∈ fields,
      ¬ (kind = .functionDef ∧ field.1 = "decorator_list") → Lies file start stop field.2 := by
  induction fields with
  | nil => exact List.forall_mem_nil _
  | cons field rest ih =>
      cases h with
      | inside hvalue hrest => exact List.forall_mem_cons.mpr ⟨fun _ => hvalue, ih hrest⟩
      | decorators _ hrest =>
          exact List.forall_mem_cons.mpr ⟨fun hne => absurd ⟨rfl, rfl⟩ hne, ih hrest⟩

mutual

/-- The spans of what lies between two places are stretches between them. -/
theorem Lies.within : {lo hi : Place} → {value : Value} → Lies file lo hi value →
    ∀ node ∈ value.nodes, ∀ span, node.head.span = some span → span.Within (spanOf file lo hi)
  | _, _, _, .scalar => List.forall_mem_nil _
  | _, _, _, .list hitems => ItemsLie.within hitems
  | _, _, _, .unplaced _ _ hspan hfields => by
      refine List.forall_mem_cons.mpr
        ⟨fun span hsome => ?_, FieldsLie.within hfields (le_refl _) (le_refl _)⟩
      rw [hspan] at hsome
      cases hsome
  | _, _, _, .placed hstart _ hstop _ hspan hfields => by
      refine List.forall_mem_cons.mpr ⟨fun span hsome => ?_, FieldsLie.within hfields hstart hstop⟩
      rw [hspan] at hsome
      cases hsome
      exact ⟨locate_upTo hstart, locate_upTo hstop⟩

theorem ItemsLie.within : {lo hi : Place} → {items : List Value} → ItemsLie file lo hi items →
    ∀ node ∈ Value.nodesOfItems items, ∀ span, node.head.span = some span →
      span.Within (spanOf file lo hi)
  | _, _, _, .nil => List.forall_mem_nil _
  | _, _, _, .cons hstart hstop hvalue hrest =>
      List.forall_mem_append.mpr
        ⟨fun node hnode span hspan =>
            (Lies.within hvalue node hnode span hspan).mono (le_refl _) hstop,
          fun node hnode span hspan =>
            (ItemsLie.within hrest node hnode span hspan).mono hstart (le_refl _)⟩

theorem FieldsLie.within : {kind : Kind} → {lo hi start stop : Place} → {fields : Fields} →
    FieldsLie file kind lo hi start stop fields → lo ≤ start → stop ≤ hi →
    ∀ node ∈ Value.nodesOfFields fields, ∀ span, node.head.span = some span →
      span.Within (spanOf file lo hi)
  | _, _, _, _, _, _, .nil, _, _ => List.forall_mem_nil _
  | _, _, _, _, _, _, .inside hvalue hrest, hlo, hhi =>
      List.forall_mem_append.mpr
        ⟨fun node hnode span hspan => (Lies.within hvalue node hnode span hspan).mono hlo hhi,
          FieldsLie.within hrest hlo hhi⟩
  | _, _, _, _, _, _, .decorators hvalue hrest, hlo, hhi =>
      List.forall_mem_append.mpr ⟨Lies.within hvalue, FieldsLie.within hrest hlo hhi⟩

end

mutual

/-- **The spans of what lies between two places nest.** -/
theorem Lies.nests : {lo hi : Place} → {value : Value} → Lies file lo hi value →
    ∀ node ∈ value.nodes, node.Nests
  | _, _, _, .scalar => List.forall_mem_nil _
  | _, _, _, .list hitems => ItemsLie.nest hitems
  | _, _, _, .unplaced _ hlocation hspan hfields => by
      refine List.forall_mem_cons.mpr ⟨⟨fun location hsome => ?_, fun outer hsome => ?_⟩,
        FieldsLie.nest hfields⟩
      · rw [hlocation] at hsome
        cases hsome
      · rw [hspan] at hsome
        cases hsome
  | _, _, _, .placed _ hin _ hlocation hspan hfields => by
      refine List.forall_mem_cons.mpr ⟨⟨fun location hsome => ?_, fun outer hsome => ?_⟩,
        FieldsLie.nest hfields⟩
      · rw [hlocation] at hsome
        cases hsome
        exact ⟨_, hspan, rfl, locate_upTo hin⟩
      · rw [hspan] at hsome
        cases hsome
        intro field hfield hne
        exact (hfields.of_mem field hfield hne).within

theorem ItemsLie.nest : {lo hi : Place} → {items : List Value} → ItemsLie file lo hi items →
    ∀ node ∈ Value.nodesOfItems items, node.Nests
  | _, _, _, .nil => List.forall_mem_nil _
  | _, _, _, .cons _ _ hvalue hrest =>
      List.forall_mem_append.mpr ⟨Lies.nests hvalue, ItemsLie.nest hrest⟩

theorem FieldsLie.nest : {kind : Kind} → {lo hi start stop : Place} → {fields : Fields} →
    FieldsLie file kind lo hi start stop fields → ∀ node ∈ Value.nodesOfFields fields, node.Nests
  | _, _, _, _, _, _, .nil => List.forall_mem_nil _
  | _, _, _, _, _, _, .inside hvalue hrest | _, _, _, _, _, _, .decorators hvalue hrest =>
      List.forall_mem_append.mpr ⟨Lies.nests hvalue, FieldsLie.nest hrest⟩

end

end Reading

/-- The phrase of a whole source is in its place. -/
theorem Source.MatchedBy.inPlace {source : Source} {whole : Phrase}
    (h : source.MatchedBy whole) : whole.InPlace := by
  obtain ⟨s, tried, hmatched, hphrases⟩ := h
  exact Grammar.inPlace_of_matchText hmatched whole (by simp [hphrases])

/-- **Spans nest like the tree.**  In the tree of a program text every node with
a location has a span that starts there and does not end before, and the spans
of the nodes below a node lie within its own, but for the decorators of a
function. -/
theorem spans_nest {source : Source} (hformat : source.format = .program)
    {counter next : Nat} {tree : Node} (h : source.tree.runFrom counter = (.ok tree, next)) :
    ∀ node ∈ tree.toValue.nodes, node.Nests := by
  obtain ⟨whole, body, last, hmatched, hfound, rfl⟩ := Source.tree_found hformat h
  have hbody := hfound.lies _ _ (Reading.along_parts hmatched.inPlace)
  have hmodule : Reading.Lies source.name whole.start whole.stop
      (.node ⟨last, .module, none, none⟩
        [("body", .list body), ("type_ignores", .list [])]) :=
    .unplaced nofun rfl rfl (.inside (.list hbody) (.inside (.list .nil) .nil))
  exact hmodule.nests

/-- A decorated function that returns a product. -/
theorem spans_nest_decorated :
    let source :=
      Source.ofText "m" "@d\ndef f(a, b=1):\n    return (a + b) * f(a).x\n" .program
    ∃ tree, (source.tree.runFrom 1).1 = .ok tree ∧
      (tree.toValue.nodes.filter fun node => node.head.span.isSome).length = 14 ∧
      ∀ node ∈ tree.toValue.nodes, node.Nests := by
  intro source
  obtain ⟨tree, hread, hlength⟩ :
      ∃ tree, (source.tree.runFrom 1).1 = .ok tree ∧
        (tree.toValue.nodes.filter fun node => node.head.span.isSome).length = 14 := by
    decide +kernel
  have hrun : source.tree.runFrom 1 = (.ok tree, (source.tree.runFrom 1).2) :=
    Prod.ext hread rfl
  exact ⟨tree, hread, hlength, spans_nest rfl hrun⟩

end FunctionIR
