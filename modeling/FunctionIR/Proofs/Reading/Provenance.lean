import FunctionIR.Proofs.Grammar.Origins
import FunctionIR.Proofs.Reading.Functions

/-!
# Where the texts in a tree come from

Most nodes of a tree only hold other nodes.  Those that spell something out have
it from a phrase of the text: a name from a phrase of a name, a constant from a
literal.  And an augmented assignment has its operator and its target from the
phrase of the assignment (`Stems`).

That this is so of every node of the tree of a program text is one induction over
what reading finds (`Source.tree_stems`).  A property of the texts in a tree is
then a matter of these few cases.
-/

namespace FunctionIR

open Grammar (Phrase Place Rule)

/-- The field in which a node of the kind spells a name. -/
def Kind.nameField : Kind → Option String
  | .name => some "id"
  | .attr => some "attr"
  | .arg | .keyword => some "arg"
  | .functionDef => some "name"
  | _ => none

namespace Reading

/-! ### What a node stems from -/

/-- Whatever the node spells out it has from a phrase inside the whole. -/
inductive Stems (file : String) (whole : Phrase) : Node → Prop
  | silent {head : Head} {fields : Fields} :
      head.kind.nameField = none → head.kind ≠ .constant → head.kind ≠ .augAssign →
      Stems file whole ⟨head, fields⟩
  | named {head : Head} {fields : Fields} {field : String} {phrase : Phrase} :
      head.kind.nameField = some field → phrase ∈ whole.inner → phrase.rule = .identifier →
      Members.get? field fields = some (.str (String.ofList phrase.text)) →
      Stems file whole ⟨head, fields⟩
  | literal {head : Head} {rule : Rule} {text : List Char} {value : Scalar} :
      head.kind = .constant → literalValue rule text = some value →
      Stems file whole ⟨head, [("value", .scalar value), ("kind", .absent)]⟩
  | augmented {c c' d : Nat} {start stop : Place} {text : List Char} {first token second : Phrase}
      {op : BinaryOp} {target value : Value} :
      .mk .augAssignment start stop text [first, token, second] ∈ whole.inner →
      BinaryOp.ofToken (String.ofList token.text.dropLast) = some op →
      FindsTarget file c first target c' →
      Stems file whole ⟨placedHead file d .augAssign start stop,
        [("target", target), ("op", bareNode (d + 1) (.binary op)), ("value", value)]⟩

variable {file : String} {whole : Phrase} {assigned assigned' : Bool} {start stop : Place}

/-- All nodes in the value stem from phrases inside the whole. -/
abbrev AllStem (file : String) (whole : Phrase) (value : Value) : Prop :=
  value.Each (fun _ node => Stems file whole node) false

/-- The same of several values. -/
abbrev ItemsStem (file : String) (whole : Phrase) (values : List Value) : Prop :=
  ItemsEach (fun _ node => Stems file whole node) false values

/-- Where a node stands does not matter. -/
theorem each_congr {P : Node → Prop} {value : Value} (h : value.Each (fun _ => P) assigned) :
    value.Each (fun _ => P) assigned' := by
  have hnodes (flag : Bool) : value.Each (fun _ => P) flag ↔ ∀ node ∈ value.nodes, P node := by
    rw [← Value.map_standings flag value, List.forall_mem_map]
    rfl
  exact (hnodes assigned').mpr ((hnodes assigned).mp h)

/-- Where the standing does not matter it may be another. -/
theorem itemsEach_congr {P : Node → Prop} {values : List Value}
    (h : ItemsEach (fun _ => P) assigned values) : ItemsEach (fun _ => P) assigned' values := by
  have hlist : (Value.list values).Each (fun _ => P) assigned := h
  exact each_congr hlist

/-- A node that spells nothing out. -/
theorem allStem_silent {head : Head} {fields : Fields}
    (hkind : head.kind.nameField = none ∧ head.kind ≠ .constant ∧ head.kind ≠ .augAssign)
    (hfields : FieldsEach (fun _ => Stems file whole) head.kind false fields) :
    AllStem file whole (.node head fields) :=
  each_node.mpr ⟨.silent hkind.1 hkind.2.1 hkind.2.2, hfields⟩

/-- A node without fields and without a name stems from anywhere. -/
theorem allStem_bareNode (id : Nat) {kind : Kind}
    (hkind : kind.nameField = none ∧ kind ≠ .constant ∧ kind ≠ .augAssign) :
    AllStem file whole (bareNode id kind) :=
  allStem_silent hkind .none

/-- A tuple or a list stems from the text if its items do. -/
theorem allStem_sequenceNode {id : Nat} {kind : Kind} {items : List Value}
    (hkind : kind = .tuple ∨ kind = .list) (hitems : ItemsStem file whole items) :
    AllStem file whole (sequenceNode (placedHead file id kind start stop) items) := by
  have hctx : AllStem file whole (bareNode (id + 1) (.context .load)) :=
    allStem_bareNode _ ⟨rfl, nofun, nofun⟩
  rcases hkind with rfl | rfl
  · exact allStem_silent ⟨rfl, nofun, nofun⟩ (.field hitems (.field hctx .none))
  · exact allStem_silent ⟨rfl, nofun, nofun⟩ (.field hitems (.field hctx .none))

/-! ### Expressions -/

/-- An attribute names what is selected. -/
theorem name_of_attr {text : List Char} {name : Phrase}
    (h : (Phrase.mk .attr start stop text [name]).Formed) : name.rule = .identifier := by
  obtain ⟨spacing, hspacing, hparts⟩ := h.leaves rfl
  obtain ⟨phrase, hphrase, hrule, -⟩ := (Grammar.Pattern.leaves_kept_iff hspacing rfl).mp
    ((Grammar.Pattern.leaves_bare_seq_iff rfl).mp hparts)
  cases hphrase
  exact hrule

/-- A keyword argument names its parameter. -/
theorem name_of_keywordArgument {text : List Char} {name phrase : Phrase}
    (h : (Phrase.mk .keywordArgument start stop text [name, phrase]).Formed) :
    name.rule = .identifier := by
  obtain ⟨spacing, hspacing, hparts⟩ := h.leaves rfl
  obtain ⟨first, rest, hphrases, hrule, -, -⟩ :=
    (Grammar.Pattern.leaves_kept_seq_iff hspacing rfl).mp hparts
  cases hphrases
  exact hrule

/-- What is found in phrases inside the whole stems from these.  A value that is gone
on from does so if it did before. -/
def Finding.Stem (file : String) (whole : Phrase) : Finding → Prop
  | .expression phrase value => phrase ∈ whole.inner → AllStem file whole value
  | .expressions phrases values | .elements phrases values _ =>
    (∀ phrase ∈ phrases, phrase ∈ whole.inner) → ItemsStem file whole values
  | .comparisons phrases first second | .arguments phrases first second =>
    (∀ phrase ∈ phrases, phrase ∈ whole.inner) →
      ItemsStem file whole first ∧ ItemsStem file whole second
  | .operations _ before phrases value | .trailers _ before phrases value =>
    (∀ phrase ∈ phrases, phrase ∈ whole.inner) → AllStem file whole before →
      AllStem file whole value

/-- The parts of a phrase inside the whole are inside it. -/
theorem parts_inside {rule : Rule} {text : List Char} {parts : List Phrase}
    (h : .mk rule start stop text parts ∈ whole.inner) : ∀ part ∈ parts, part ∈ whole.inner :=
  fun _ hpart => Phrase.mem_inner_of_part h hpart

/-- **Everything in an expression stems from its phrase.** -/
theorem Finds.stem (hformed : ∀ phrase ∈ whole.inner, phrase.Formed) {c d : Nat}
    {finding : Finding} (h : Finds file c finding d) : finding.Stem file whole := by
  -- what has no name and no literal of its own passes the fields on; names and literals
  -- point at the phrase they were made from
  induction h with
  | conditional _ _ _ ihbody ihtest ihorelse =>
      intro hin
      have hparts := parts_inside hin
      simp only [List.forall_mem_cons] at hparts
      obtain ⟨hbody, htest, horelse, -⟩ := hparts
      exact allStem_silent ⟨rfl, nofun, nofun⟩
        (.field (ihtest htest) (.field (ihbody hbody) (.field (ihorelse horelse) .none)))
  | joined _ _ ih =>
      intro hin
      exact allStem_silent ⟨rfl, nofun, nofun⟩ (.field (allStem_bareNode _ ⟨rfl, nofun, nofun⟩)
        (.field (ih (parts_inside hin)) .none))
  | negation _ ih | sign _ _ ih =>
      intro hin
      have hparts := parts_inside hin
      simp only [List.forall_mem_cons] at hparts
      exact allStem_silent ⟨rfl, nofun, nofun⟩ (.field (allStem_bareNode _ ⟨rfl, nofun, nofun⟩)
        (.field (ih hparts.2.1) .none))
  | comparison _ _ ihleft ihrest =>
      intro hin
      obtain ⟨hfirst, hothers⟩ := List.forall_mem_cons.mp (parts_inside hin)
      obtain ⟨hops, hcomparators⟩ := ihrest hothers
      exact allStem_silent ⟨rfl, nofun, nofun⟩
        (.field (ihleft hfirst) (.field hops (.field hcomparators .none)))
  | chain _ _ _ ihleft ihrest =>
      intro hin
      obtain ⟨hfirst, hothers⟩ := List.forall_mem_cons.mp (parts_inside hin)
      exact ihrest hothers (ihleft hfirst)
  | power _ _ ihbase ihexponent =>
      intro hin
      have hparts := parts_inside hin
      simp only [List.forall_mem_cons] at hparts
      obtain ⟨hbase, hexponent, -⟩ := hparts
      exact allStem_silent ⟨rfl, nofun, nofun⟩ (.field (ihbase hbase)
        (.field (allStem_bareNode _ ⟨rfl, nofun, nofun⟩) (.field (ihexponent hexponent) .none)))
  | primary _ _ ihatom ihrest =>
      intro hin
      obtain ⟨hfirst, hothers⟩ := List.forall_mem_cons.mp (parts_inside hin)
      exact ihrest hothers (ihatom hfirst)
  | unit => exact fun _ => allStem_sequenceNode (.inl rfl) itemsEach_nil
  | display _ ih => exact fun hin => allStem_sequenceNode (.inr rfl) (ih (parts_inside hin))
  | alone _ _ ih => exact fun hin => (itemsEach_cons.mp (ih (parts_inside hin))).1
  | tuple _ _ _ ih => exact fun hin => allStem_sequenceNode (.inl rfl) (ih (parts_inside hin))
  | name =>
      intro hin
      exact each_node.mpr ⟨.named rfl hin rfl rfl, .field (each_str _)
        (.field (allStem_bareNode _ ⟨rfl, nofun, nofun⟩) .none)⟩
  | literal hvalue =>
      exact fun _ => each_node.mpr ⟨.literal rfl hvalue,
        .field (each_scalar _) (.field each_absent .none)⟩
  | passed _ _ ih => exact fun hin => ih (List.forall_mem_cons.mp (parts_inside hin)).1
  | nothing | noElement => exact fun _ => itemsEach_nil
  | next _ _ ihvalue ihrest | element _ _ ihvalue ihrest =>
      intro hin
      obtain ⟨hfirst, hothers⟩ := List.forall_mem_cons.mp hin
      exact itemsEach_cons.mpr ⟨ihvalue hfirst, ihrest hothers⟩
  | comma _ ih => exact fun hin => ih (List.forall_mem_cons.mp hin).2
  | notCompared | noArgument => exact fun _ => ⟨itemsEach_nil, itemsEach_nil⟩
  | compared _ _ _ ihright ihrest =>
      intro hin
      simp only [List.forall_mem_cons] at hin
      obtain ⟨-, hright, hothers⟩ := hin
      obtain ⟨hops, hcomparators⟩ := ihrest hothers
      exact ⟨itemsEach_cons.mpr ⟨allStem_bareNode _ ⟨rfl, nofun, nofun⟩, hops⟩,
        itemsEach_cons.mpr ⟨ihright hright, hcomparators⟩⟩
  | notOperated | notExtended => exact fun _ => id
  | operated _ _ _ ihright ihrest =>
      intro hin hleft
      simp only [List.forall_mem_cons] at hin
      obtain ⟨-, hright, hothers⟩ := hin
      exact ihrest hothers (allStem_silent ⟨rfl, nofun, nofun⟩ (.field hleft
        (.field (allStem_bareNode _ ⟨rfl, nofun, nofun⟩) (.field (ihright hright) .none))))
  | called _ _ ihargs ihrest =>
      intro hin hvalue
      obtain ⟨hcall, hothers⟩ := List.forall_mem_cons.mp hin
      obtain ⟨hargs, hkeywords⟩ := ihargs (parts_inside hcall)
      exact ihrest hothers (allStem_silent ⟨rfl, nofun, nofun⟩
        (.field hvalue (.field hargs (.field hkeywords .none))))
  | selected _ ihrest =>
      intro hin hvalue
      obtain ⟨hattr, hothers⟩ := List.forall_mem_cons.mp hin
      have hname := (List.forall_mem_cons.mp (parts_inside hattr)).1
      have hrule := name_of_attr (hformed _ hattr)
      exact ihrest hothers (each_node.mpr ⟨.named rfl hname hrule rfl, .field hvalue
        (.field (each_str _) (.field (allStem_bareNode _ ⟨rfl, nofun, nofun⟩) .none))⟩)
  | subscripted _ _ ihindex ihrest =>
      intro hin hvalue
      obtain ⟨hsubscript, hothers⟩ := List.forall_mem_cons.mp hin
      have hindex := (List.forall_mem_cons.mp (parts_inside hsubscript)).1
      exact ihrest hothers (allStem_silent ⟨rfl, nofun, nofun⟩ (.field hvalue
        (.field (ihindex hindex) (.field (allStem_bareNode _ ⟨rfl, nofun, nofun⟩) .none))))
  | keyword _ _ ihvalue ihrest =>
      intro hin
      obtain ⟨hkeyword, hothers⟩ := List.forall_mem_cons.mp hin
      have hparts := parts_inside hkeyword
      simp only [List.forall_mem_cons] at hparts
      obtain ⟨hname, hvalue, -⟩ := hparts
      have hrule := name_of_keywordArgument (hformed _ hkeyword)
      obtain ⟨hargs, hkeywords⟩ := ihrest hothers
      exact ⟨hargs, itemsEach_cons.mpr ⟨each_node.mpr ⟨.named rfl hname hrule rfl,
        .field (each_str _) (.field (ihvalue hvalue) .none)⟩, hkeywords⟩⟩
  | argument _ _ ihvalue ihrest =>
      intro hin
      obtain ⟨hfirst, hothers⟩ := List.forall_mem_cons.mp hin
      obtain ⟨hargs, hkeywords⟩ := ihrest hothers
      exact ⟨itemsEach_cons.mpr ⟨ihvalue hfirst, hargs⟩, hkeywords⟩

/-! ### Targets -/

/-- A name in a node is not in its context. -/
theorem nameField_ne_ctx {kind : Kind} {field : String} (h : kind.nameField = some field) :
    field ≠ "ctx" := by
  cases kind <;> cases h <;> decide

mutual

/-- **What is stored stems** from where it was read. -/
theorem Stores.stem : {c d : Nat} → {value target : Value} → Stores c value target d →
    AllStem file whole value → AllStem file whole target
  | c, _, .node head fields, _, .single hkind hassignable _, h => by
      obtain ⟨hnode, hfields⟩ := each_node.mp h
      have hctx : AllStem file whole (bareNode c (.context .store)) :=
        allStem_bareNode _ ⟨rfl, nofun, nofun⟩
      refine each_node.mpr ⟨?_, .set (each_congr hctx) hfields⟩
      cases hnode with
      | silent hname hconstant haugmented => exact .silent hname hconstant haugmented
      | named hname hin hrule htext =>
          refine .named hname hin hrule ?_
          rwa [Members.get?_set_of_ne (nameField_ne_ctx hname).symm]
      | literal hconstant => rw [hconstant] at hassignable; cases hassignable
      | augmented => cases hassignable
  | _, _, .node head _, _, .sequence hkind hitems, h => by
      obtain ⟨-, hfields⟩ := each_node.mp h
      have hvalues : ItemsStem file whole _ := StoresAll.stem hitems (hfields.elements hkind)
      have hctx (id : Nat) : AllStem file whole (bareNode id (.context .store)) :=
        allStem_bareNode _ ⟨rfl, nofun, nofun⟩
      have hsilent : head.kind.nameField = none ∧ head.kind ≠ .constant ∧
          head.kind ≠ .augAssign := by
        rcases hkind with hkind | hkind <;> rw [hkind] <;> exact ⟨rfl, nofun, nofun⟩
      exact allStem_silent hsilent
        (.field (itemsEach_congr hvalues) (.field (each_congr (hctx _)) .none))

/-- Storing values that stem from the text gives targets that do. -/
theorem StoresAll.stem : {c d : Nat} → {values targets : List Value} →
    StoresAll c values targets d → ItemsStem file whole values → ItemsStem file whole targets
  | _, _, _, _, .nil, _ => itemsEach_nil
  | _, _, _, _, .cons hvalue hrest, h => by
      obtain ⟨hfirst, hothers⟩ := itemsEach_cons.mp h
      exact itemsEach_cons.mpr ⟨Stores.stem hvalue hfirst, StoresAll.stem hrest hothers⟩

end

section

variable (hformed : ∀ phrase ∈ whole.inner, phrase.Formed) {c d : Nat}

include hformed

/-- A target stems from the text. -/
theorem FindsTarget.stem {phrase : Phrase} {target : Value}
    (h : FindsTarget file c phrase target d) (hin : phrase ∈ whole.inner) :
    AllStem file whole target := by
  cases h with
  | mk hvalue hstores => exact hstores.stem (hvalue.stem hformed hin)

/-- Targets stem from the text. -/
theorem FindsTargets.stem {phrases : List Phrase} {targets : List Value} {value : Phrase}
    (h : FindsTargets file c phrases targets value d)
    (hin : ∀ phrase ∈ phrases, phrase ∈ whole.inner) :
    ItemsStem file whole targets ∧ value ∈ whole.inner := by
  induction h with
  | value => exact ⟨itemsEach_nil, (List.forall_mem_cons.mp hin).1⟩
  | target htarget _ ih =>
      obtain ⟨hfirst, hothers⟩ := List.forall_mem_cons.mp hin
      obtain ⟨htargets, hvalue⟩ := ih hothers
      exact ⟨itemsEach_cons.mpr ⟨htarget.stem hformed hfirst, htargets⟩, hvalue⟩

/-! ### Statements without a body -/

/-- A simple statement stems from the text. -/
theorem FindsSimple.stem {phrase : Phrase} {statement : Value}
    (h : FindsSimple file c phrase statement d) (hin : phrase ∈ whole.inner) :
    AllStem file whole statement := by
  cases h with
  | @word rule kind _ _ _ _ hkind =>
      have hsilent : kind.nameField = none ∧ kind ≠ .constant ∧ kind ≠ .augAssign := by
        unfold wordKind at hkind
        split at hkind <;> cases hkind <;> exact ⟨rfl, nofun, nofun⟩
      exact allStem_silent hsilent .none
  | returned => exact allStem_silent ⟨rfl, nofun, nofun⟩ (.field each_absent .none)
  | returnedValue hvalue | evaluated hvalue =>
      have hphrase := (List.forall_mem_cons.mp (parts_inside hin)).1
      exact allStem_silent ⟨rfl, nofun, nofun⟩ (.field (hvalue.stem hformed hphrase) .none)
  | assigned htargets hvalue =>
      obtain ⟨htargets, hphrase⟩ := htargets.stem hformed (parts_inside hin)
      exact allStem_silent ⟨rfl, nofun, nofun⟩
        (.field (itemsEach_congr htargets)
          (.field (hvalue.stem hformed hphrase) (.field each_absent .none)))
  | augmented hop htarget hvalue =>
      have hparts := parts_inside hin
      simp only [List.forall_mem_cons] at hparts
      obtain ⟨hfirst, -, hsecond, -⟩ := hparts
      exact each_node.mpr ⟨.augmented hin hop htarget,
        .field (each_congr (htarget.stem hformed hfirst))
          (.field (allStem_bareNode _ ⟨rfl, nofun, nofun⟩)
            (.field (hvalue.stem hformed hsecond) .none))⟩

/-- Simple statements stem from the text. -/
theorem FindsSimples.stem {phrases : List Phrase} {statements : List Value}
    (h : FindsSimples file c phrases statements d)
    (hin : ∀ phrase ∈ phrases, phrase ∈ whole.inner) : ItemsStem file whole statements := by
  induction h with
  | nil => exact itemsEach_nil
  | cons hstatement _ ih =>
      obtain ⟨hfirst, hothers⟩ := List.forall_mem_cons.mp hin
      exact itemsEach_cons.mpr ⟨hstatement.stem hformed hfirst, ih hothers⟩

/-! ### Parameters -/

/-- What has been read of a parameter behind its name does not change the name, and
stems from its phrases. -/
theorem FindsParts.stem {phrases : List Phrase} {sofar parts : ParameterParts}
    (h : FindsParts file c phrases sofar parts d)
    (hin : ∀ phrase ∈ phrases, phrase ∈ whole.inner)
    (hannotated : ∀ v ∈ sofar.annotated, AllStem file whole v)
    (hdefault : ∀ v ∈ sofar.default, AllStem file whole v) :
    (∀ v ∈ parts.annotated, AllStem file whole v) ∧ (∀ v ∈ parts.default, AllStem file whole v) ∧
      ((∀ phrase ∈ phrases, phrase.rule ≠ .identifier) → parts.name = sofar.name) := by
  induction h with
  | done => exact ⟨hannotated, hdefault, fun _ => rfl⟩
  | name _ ih =>
      obtain ⟨-, hothers⟩ := List.forall_mem_cons.mp hin
      obtain ⟨h₁, h₂, -⟩ := ih hothers hannotated hdefault
      exact ⟨h₁, h₂, fun hrules => absurd rfl (List.forall_mem_cons.mp hrules).1⟩
  | hint hvalue _ ih =>
      obtain ⟨hfirst, hothers⟩ := List.forall_mem_cons.mp hin
      have hphrase := (List.forall_mem_cons.mp (parts_inside hfirst)).1
      have hfound := (finds_expression _ hvalue).stem hformed hphrase
      obtain ⟨h₁, h₂, h₃⟩ := ih hothers (by rintro _ ⟨⟩; exact hfound) hdefault
      exact ⟨h₁, h₂, fun hrules => h₃ (List.forall_mem_cons.mp hrules).2⟩
  | default hvalue _ ih =>
      obtain ⟨hfirst, hothers⟩ := List.forall_mem_cons.mp hin
      have hphrase := (List.forall_mem_cons.mp (parts_inside hfirst)).1
      have hfound := (finds_expression _ hvalue).stem hformed hphrase
      obtain ⟨h₁, h₂, h₃⟩ := ih hothers hannotated (by rintro _ ⟨⟩; exact hfound)
      exact ⟨h₁, h₂, fun hrules => h₃ (List.forall_mem_cons.mp hrules).2⟩

/-- A parameter and its default stem from the text. -/
theorem FindsParameter.stem {phrases : List Phrase} {arg : Value} {default : Option Value}
    (h : FindsParameter file c start stop phrases arg default d)
    (hnames : Grammar.NamesParameter phrases) (hin : ∀ phrase ∈ phrases, phrase ∈ whole.inner) :
    AllStem file whole arg ∧ ∀ v ∈ default, AllStem file whole v := by
  obtain ⟨name, hint, value, rfl, hname, hhint, hvalue⟩ := hnames
  obtain ⟨hfirst, hothers⟩ := List.forall_mem_cons.mp hin
  have hrules : ∀ phrase ∈ hint.toList ++ value.toList, phrase.rule ≠ .identifier := by
    simp only [List.mem_append, Option.mem_toList]
    rintro phrase (hphrase | hphrase)
    · rw [hhint phrase hphrase]
      decide
    · rw [hvalue phrase hphrase]
      decide
  cases h with
  | mk hparts =>
      cases hparts with
      | name hparts =>
          obtain ⟨hannotated, hdefault, hsame⟩ := hparts.stem hformed hothers nofun nofun
          have harg := congrArg (fun name => some (Value.str name)) (hsame hrules)
          exact ⟨each_node.mpr ⟨.named rfl hfirst hname harg, .field (each_str _)
            (.field (each_getD hannotated) (.field each_absent .none))⟩, hdefault⟩
      | hint | default => cases hname

/-- Parameters stem from the text. -/
theorem FindsParameters.stem {phrases : List Phrase} {p q : Parameters}
    (h : FindsParameters file c phrases p q d)
    (hin : ∀ phrase ∈ phrases, phrase ∈ whole.inner)
    (hp : ∀ v ∈ p.values, AllStem file whole v) : ∀ v ∈ q.values, AllStem file whole v := by
  induction h with
  | done => exact hp
  | slash hadded _ ih =>
      exact ih (List.forall_mem_cons.mp hin).2
        fun v hv => hp v (Parameters.values_addSlash hadded v hv)
  | plain hparameter hadded _ ih =>
      obtain ⟨hfirst, hothers⟩ := List.forall_mem_cons.mp hin
      obtain ⟨harg, hdefault⟩ := hparameter.stem hformed
        ((hformed _ hfirst).plainParameter rfl) (parts_inside hfirst)
      refine ih hothers fun v hv => ?_
      rcases Parameters.values_addPlain hadded v hv with hv | rfl | hv | rfl
      · exact hp v hv
      · exact harg
      · exact hdefault v hv
      · exact each_absent
  | star _ _ ih => exact ih (List.forall_mem_cons.mp hin).2 hp
  | @varargs _ _ _ _ _ _ _ _ arg _ p _ _ hparts hparameter _ ih =>
      obtain ⟨hfirst, hothers⟩ := List.forall_mem_cons.mp hin
      have hnames := ((hformed _ hfirst).varargsParameter rfl).resolve_left hparts
      obtain ⟨harg, -⟩ := hparameter.stem hformed hnames (parts_inside hfirst)
      refine ih hothers fun v hv => ?_
      have hcases : v ∈ p.values ∨ v = arg := by grind [Parameters.values]
      rcases hcases with hv | rfl
      · exact hp v hv
      · exact harg
  | @kwargs _ _ _ _ _ _ _ _ arg _ p _ hparameter _ ih =>
      obtain ⟨hfirst, hothers⟩ := List.forall_mem_cons.mp hin
      obtain ⟨harg, -⟩ := hparameter.stem hformed
        ((hformed _ hfirst).kwargsParameter rfl) (parts_inside hfirst)
      refine ih hothers fun v hv => ?_
      have hcases : v ∈ p.values ∨ v = arg := by grind [Parameters.values]
      rcases hcases with hv | rfl
      · exact hp v hv
      · exact harg

omit hformed in
/-- The node of parameters stems from the text if they do. -/
theorem allStem_parameters {p : Parameters} (h : ∀ v ∈ p.values, AllStem file whole v) (id : Nat) :
    AllStem file whole (p.node id) := by
  obtain ⟨fields, hnode, hfields⟩ := Parameters.fieldsEach h id
  rw [hnode]
  exact allStem_silent ⟨rfl, nofun, nofun⟩ hfields

/-! ### Statements -/

/-- The parts of a function stem from phrases inside the whole. -/
structure FunctionParts.Stem (file : String) (whole : Phrase) (parts : FunctionParts) : Prop where
  arguments : ∀ v ∈ parts.arguments, AllStem file whole v
  returns : ∀ v ∈ parts.returns, AllStem file whole v
  body : ItemsStem file whole parts.body

omit hformed in
theorem FunctionParts.stem_nothing : (FunctionParts.mk "" none none []).Stem file whole :=
  ⟨nofun, nofun, itemsEach_nil⟩

omit hformed in
/-- The arguments of a function stem from the text. -/
theorem FindsArguments.stem {given : Option Value} {arguments : Value}
    (h : FindsArguments c given arguments d) (hgiven : ∀ v ∈ given, AllStem file whole v) :
    AllStem file whole arguments := by
  cases h with
  | given => exact hgiven arguments rfl
  | none => exact allStem_parameters (by simp [Parameters.values, Parameters.empty]) _

omit hformed in
/-- A function stems from the phrases of its parts, one of which is its name. -/
theorem FindsFunction.stem {decorators : List Value} {parts : FunctionParts} {function : Value}
    {word : Phrase} (h : FindsFunction file c start stop decorators parts function d)
    (hin : word ∈ whole.inner) (hrule : word.rule = .identifier)
    (hname : parts.name = String.ofList word.text) (hparts : parts.Stem file whole)
    (hdecorators : ItemsStem file whole decorators) : AllStem file whole function := by
  cases h with
  | mk harguments =>
      have hfield := congrArg (fun name => some (Value.str name)) hname
      exact each_node.mpr ⟨.named rfl hin hrule hfield, .field (each_str _)
        (.field (harguments.stem hparts.arguments) (.field hparts.body (.field hdecorators
          (.field (each_getD hparts.returns) (.field each_absent .none)))))⟩

/-- What is found in phrases inside the whole stems from these. -/
def StatementFinding.Stem (file : String) (whole : Phrase) : StatementFinding → Prop
  | .statements phrase values => phrase ∈ whole.inner → ItemsStem file whole values
  | .all phrases values =>
    (∀ phrase ∈ phrases, phrase ∈ whole.inner) → ItemsStem file whole values
  | .decorated phrases decorators values =>
    (∀ phrase ∈ phrases, phrase ∈ whole.inner) → ItemsStem file whole decorators →
      ItemsStem file whole values
  | .parts phrases sofar found =>
    (∀ phrase ∈ phrases, phrase ∈ whole.inner) → sofar.Stem file whole → found.Stem file whole

/-- **Everything in statements stems from their phrases.** -/
theorem StatementFinds.stem {finding : StatementFinding} (h : StatementFinds file c finding d) :
    finding.Stem file whole := by
  induction h with
  | passed _ _ ih => exact fun hin => ih (List.forall_mem_cons.mp (parts_inside hin)).1
  | block _ ih => exact fun hin => ih (parts_inside hin)
  | simple hstatements => exact fun hin => hstatements.stem hformed (parts_inside hin)
  | decorated _ ih => exact fun hin => ih (parts_inside hin) itemsEach_nil
  | function hparts hfunction ih =>
      intro hin
      obtain ⟨word, hword, hrule, hname⟩ := hparts.name_found (hformed _ hin)
      exact itemsEach_single (hfunction.stem (parts_inside hin word hword) hrule hname
        (ih (parts_inside hin) FunctionParts.stem_nothing) itemsEach_nil)
  | conditional hkind _ htest _ ihorelse ihbody =>
      intro hin
      have hparts := parts_inside hin
      simp only [List.forall_mem_cons] at hparts
      obtain ⟨hfirst, hsecond, hothers⟩ := hparts
      have htest := htest.stem hformed hfirst
      refine itemsEach_single ?_
      rcases kind_of_condition hkind with rfl | rfl
      · exact allStem_silent ⟨rfl, nofun, nofun⟩
          (.field htest (.field (ihbody hsecond) (.field (ihorelse hothers) .none)))
      · exact allStem_silent ⟨rfl, nofun, nofun⟩
          (.field htest (.field (ihbody hsecond) (.field (ihorelse hothers) .none)))
  | loop _ htarget hiter _ ihorelse ihbody =>
      intro hin
      have hparts := parts_inside hin
      simp only [List.forall_mem_cons] at hparts
      obtain ⟨hfirst, hsecond, hthird, hothers⟩ := hparts
      exact itemsEach_single (allStem_silent ⟨rfl, nofun, nofun⟩
        (.field (each_congr (htarget.stem hformed hfirst))
          (.field (hiter.stem hformed hsecond)
            (.field (ihbody hthird) (.field (ihorelse hothers) (.field each_absent .none))))))
  | nothing => exact fun _ => itemsEach_nil
  | next _ _ ihfirst ihrest =>
      intro hin
      obtain ⟨hfirst, hothers⟩ := List.forall_mem_cons.mp hin
      exact ItemsEach.append (ihfirst hfirst) (ihrest hothers)
  | decorator hvalue _ ih =>
      intro hin hdecorators
      obtain ⟨hfirst, hothers⟩ := List.forall_mem_cons.mp hin
      have hinner := (List.forall_mem_cons.mp (parts_inside hfirst)).1
      exact ih hothers
        (ItemsEach.append hdecorators (itemsEach_single (hvalue.stem hformed hinner)))
  | decoratedFunction hparts hfunction ih =>
      intro hin hdecorators
      obtain ⟨hfirst, -⟩ := List.forall_mem_cons.mp hin
      obtain ⟨word, hword, hrule, hname⟩ := hparts.name_found (hformed _ hfirst)
      exact itemsEach_single (hfunction.stem (parts_inside hfirst word hword) hrule hname
        (ih (parts_inside hfirst) FunctionParts.stem_nothing) hdecorators)
  | undecorated => exact fun _ _ => itemsEach_nil
  | done => exact fun _ => id
  | name _ ih => exact fun hin hsofar => ih (List.forall_mem_cons.mp hin).2 { hsofar with }
  | parameters hparameters _ ih =>
      intro hin hsofar
      obtain ⟨hfirst, hothers⟩ := List.forall_mem_cons.mp hin
      have hp := hparameters.stem hformed (parts_inside hfirst)
        (by simp [Parameters.values, Parameters.empty])
      exact ih hothers { hsofar with
        arguments := by rintro _ ⟨⟩; exact allStem_parameters hp _ }
  | returns hvalue _ ih =>
      intro hin hsofar
      obtain ⟨hfirst, hothers⟩ := List.forall_mem_cons.mp hin
      have hinner := (List.forall_mem_cons.mp (parts_inside hfirst)).1
      exact ih hothers { hsofar with returns := by rintro _ ⟨⟩; exact hvalue.stem hformed hinner }
  | body _ _ ihbody ih =>
      intro hin hsofar
      obtain ⟨hfirst, hothers⟩ := List.forall_mem_cons.mp hin
      exact ih hothers { hsofar with body := ihbody hfirst }

end

end Reading

/-! ### Whole texts -/

/-- All phrases of a text are original. -/
theorem Source.MatchedBy.original {source : Source} {whole : Phrase} (h : source.MatchedBy whole) :
    ∀ phrase ∈ whole.inner, phrase.Original source.text.toList := by
  obtain ⟨s, tried, hmatched, hphrases⟩ := h
  refine Phrase.forall_inner (fun _ h => h.parts) ?_
  exact Grammar.original_of_matchText hmatched whole (by rw [hphrases]; exact List.mem_singleton_self _)

open Reading in
/-- **Every node of a program text stems from a phrase of it.** -/
theorem Source.tree_stems {source : Source} (hformat : source.format = .program)
    {counter next : Nat} {tree : Node} (h : source.tree.runFrom counter = (.ok tree, next)) :
    ∃ whole, source.MatchedBy whole ∧
      ∀ node ∈ tree.toValue.nodes, Stems source.name whole node := by
  obtain ⟨whole, body, last, hmatched, hfound, rfl⟩ := Source.tree_found hformat h
  have hformed : ∀ phrase ∈ whole.inner, phrase.Formed :=
    fun phrase hphrase => (hmatched.original phrase hphrase).formed
  have hbody : ItemsStem source.name whole body := hfound.stem hformed
    fun part hpart => Phrase.mem_inner_of_part whole.mem_inner_self hpart
  have hnothing : ItemsStem source.name whole [] := itemsEach_nil
  have hmodule : AllStem source.name whole (.node ⟨last, .module, none, none⟩
      [("body", .list body), ("type_ignores", .list [])]) :=
    allStem_silent ⟨rfl, nofun, nofun⟩ (.field hbody (.field hnothing .none))
  refine ⟨whole, hmatched, fun node hnode => ?_⟩
  rw [← Value.map_standings false] at hnode
  obtain ⟨entry, hentry, rfl⟩ := List.mem_map.mp hnode
  exact hmodule entry hentry

end FunctionIR
