import FunctionIR.Proofs.Grammar.Invariant
import FunctionIR.Proofs.Reading.Findings
import FunctionIR.Proofs.Reading.Signature

/-!
# What is found fits

The values that are found in phrases of expressions fit the slot of an expression,
whatever the phrases are: what cannot be read so is refused.  So nothing needs to
be known of the grammar here, and the places of the nodes are places of the
phrases.

The fit is told of everything that is found at once (`Finding.Fit`), and comes by
induction over it.
-/

namespace FunctionIR.Reading

open Grammar (Phrase Place Rule)

/-- The head has no place, or its places are some with the property. -/
def Placed (file : String) (P : Place → Prop) (head : Head) : Prop :=
  (head.location = none ∧ head.span = none) ∨
    ∃ start stop, P start ∧ P stop ∧
      head.location = some (locate file start) ∧ head.span = some (spanOf file start stop)

variable {file : String} {P : Place → Prop} {start stop : Place} {id : Nat}

/-! ### Single nodes -/

/-- A node in the text fits if its fields do. -/
theorem fits_placed {kind : Kind} {role : Role} {fields : Fields} (hstart : P start)
    (hstop : P stop) (hrole : kind.role = some role)
    (hfields : FieldsFit (Placed file P) kind.signature fields) :
    Fits (Placed file P) (.node role) (.node (placedHead file id kind start stop) fields) :=
  .node hrole (.inr ⟨start, stop, hstart, hstop, rfl, rfl⟩) hfields

/-- A node that is not in the text fits where it has no fields. -/
theorem fits_bareNode {kind : Kind} {role : Role} (hrole : kind.role = some role)
    (hsignature : kind.signature = []) :
    Fits (Placed file P) (.node role) (bareNode id kind) := by
  refine .node hrole (.inl ⟨rfl, rfl⟩) ?_
  rw [hsignature]
  exact .nil

/-- A context fits. -/
theorem fits_context (c : Context) :
    Fits (Placed file P) (.node .context) (bareNode id (.context c)) :=
  fits_bareNode rfl rfl

/-- A tuple or a list fits if its items do. -/
theorem fits_sequenceNode {kind : Kind} {items : List Value} (hkind : kind = .tuple ∨ kind = .list)
    (hstart : P start) (hstop : P stop)
    (hitems : ItemsFit (Placed file P) (.node .expression) items) :
    Fits (Placed file P) (.node .expression)
      (sequenceNode (placedHead file id kind start stop) items) := by
  refine fits_placed hstart hstop ?_ ?_
  · rcases hkind with rfl | rfl <;> rfl
  · rw [elements_signature hkind]
    exact .cons (.list hitems) (.cons (fits_context .load) .nil)

/-! ### Expressions -/

/-- What is found fits, where the places of the phrases have the property. -/
def Finding.Fit (file : String) (P : Place → Prop) : Finding → Prop
  | .expression phrase value => phrase.All P → Fits (Placed file P) (.node .expression) value
  | .expressions phrases values | .elements phrases values _ =>
      (∀ phrase ∈ phrases, phrase.All P) → ItemsFit (Placed file P) (.node .expression) values
  | .comparisons phrases ops comparators =>
      (∀ phrase ∈ phrases, phrase.All P) →
        ItemsFit (Placed file P) (.node .comparison) ops ∧
          ItemsFit (Placed file P) (.node .expression) comparators
  | .operations start value phrases result | .trailers start value phrases result =>
      (∀ phrase ∈ phrases, phrase.All P) → P start →
        Fits (Placed file P) (.node .expression) value →
          Fits (Placed file P) (.node .expression) result
  | .arguments phrases args keywords =>
      (∀ phrase ∈ phrases, phrase.All P) →
        ItemsFit (Placed file P) (.node .expression) args ∧
          ItemsFit (Placed file P) (.node .keyword) keywords

/-- **What is found fits.** -/
theorem Finds.fit {c d : Nat} {finding : Finding} (h : Finds file c finding d) :
    finding.Fit file P := by
  -- chains of operations and trailers carry the node so far as a hypothesis
  induction h with
  | conditional _ _ _ ihbody ihtest ihorelse =>
      intro h
      obtain ⟨hbody, hrest⟩ := List.forall_mem_cons.mp h.parts
      obtain ⟨htest, hrest⟩ := List.forall_mem_cons.mp hrest
      obtain ⟨horelse, -⟩ := List.forall_mem_cons.mp hrest
      exact fits_placed h.start h.stop rfl
        (.cons (ihtest htest) (.cons (ihbody hbody) (.cons (ihorelse horelse) .nil)))
  | joined _ _ ih =>
      intro h
      exact fits_placed h.start h.stop rfl
        (.cons (fits_bareNode rfl rfl) (.cons (.list (ih h.parts)) .nil))
  | negation _ ih | sign _ _ ih =>
      intro h
      obtain ⟨-, hrest⟩ := List.forall_mem_cons.mp h.parts
      obtain ⟨hoperand, -⟩ := List.forall_mem_cons.mp hrest
      exact fits_placed h.start h.stop rfl
        (.cons (fits_bareNode rfl rfl) (.cons (ih hoperand) .nil))
  | comparison _ _ ihleft ihrest =>
      intro h
      obtain ⟨hleft, hrest⟩ := List.forall_mem_cons.mp h.parts
      obtain ⟨hops, hcomparators⟩ := ihrest hrest
      exact fits_placed h.start h.stop rfl
        (.cons (ihleft hleft) (.cons (.list hops) (.cons (.list hcomparators) .nil)))
  | chain _ _ _ ihleft ihrest =>
      intro h
      obtain ⟨hleft, hrest⟩ := List.forall_mem_cons.mp h.parts
      exact ihrest hrest h.start (ihleft hleft)
  | power _ _ ihbase ihexponent =>
      intro h
      obtain ⟨hbase, hrest⟩ := List.forall_mem_cons.mp h.parts
      obtain ⟨hexponent, -⟩ := List.forall_mem_cons.mp hrest
      exact fits_placed h.start h.stop rfl
        (.cons (ihbase hbase) (.cons (fits_bareNode rfl rfl) (.cons (ihexponent hexponent) .nil)))
  | primary _ _ ihatom ihrest =>
      intro h
      obtain ⟨hatom, hrest⟩ := List.forall_mem_cons.mp h.parts
      exact ihrest hrest hatom.start (ihatom hatom)
  | unit => exact fun h => fits_sequenceNode (.inl rfl) h.start h.stop .nil
  | display _ ih => exact fun h => fits_sequenceNode (.inr rfl) h.start h.stop (ih h.parts)
  | alone _ _ ih => exact fun h => (itemsFit_cons.mp (ih h.parts)).1
  | tuple _ _ _ ih => exact fun h => fits_sequenceNode (.inl rfl) h.start h.stop (ih h.parts)
  | name =>
      intro h
      exact fits_placed h.start h.stop rfl (.cons (.text _) (.cons (fits_context .load) .nil))
  | literal =>
      intro h
      exact fits_placed h.start h.stop rfl (.cons (.leaf _) (.cons .absent .nil))
  | passed _ _ ih => exact fun h => ih (h.parts _ List.mem_cons_self)
  | nothing | noElement => exact fun _ => .nil
  | next _ _ ihvalue ihrest | element _ _ ihvalue ihrest =>
      intro h
      obtain ⟨hvalue, hrest⟩ := List.forall_mem_cons.mp h
      exact .cons (ihvalue hvalue) (ihrest hrest)
  | comma _ ih => exact fun h => ih (List.forall_mem_cons.mp h).2
  | notCompared | noArgument => exact fun _ => ⟨.nil, .nil⟩
  | compared _ _ _ ihright ihrest =>
      intro h
      obtain ⟨-, hrest⟩ := List.forall_mem_cons.mp h
      obtain ⟨hright, hrest⟩ := List.forall_mem_cons.mp hrest
      obtain ⟨hops, hcomparators⟩ := ihrest hrest
      exact ⟨.cons (fits_bareNode rfl rfl) hops, .cons (ihright hright) hcomparators⟩
  | notOperated | notExtended => exact fun _ _ => id
  | operated _ _ _ ihright ihrest =>
      intro h hstart hleft
      obtain ⟨-, hrest⟩ := List.forall_mem_cons.mp h
      obtain ⟨hright, hrest⟩ := List.forall_mem_cons.mp hrest
      exact ihrest hrest hstart (fits_placed hstart hright.stop rfl
        (.cons hleft (.cons (fits_bareNode rfl rfl) (.cons (ihright hright) .nil))))
  | called _ _ ihargs ihrest =>
      intro h hstart hvalue
      obtain ⟨hcall, hrest⟩ := List.forall_mem_cons.mp h
      obtain ⟨hargs, hkeywords⟩ := ihargs hcall.parts
      exact ihrest hrest hstart (fits_placed hstart hcall.stop rfl
        (.cons hvalue (.cons (.list hargs) (.cons (.list hkeywords) .nil))))
  | selected _ ihrest =>
      intro h hstart hvalue
      obtain ⟨hattr, hrest⟩ := List.forall_mem_cons.mp h
      exact ihrest hrest hstart (fits_placed hstart hattr.stop rfl
        (.cons hvalue (.cons (.text _) (.cons (fits_context .load) .nil))))
  | subscripted _ _ ihindex ihrest =>
      intro h hstart hvalue
      obtain ⟨hsubscript, hrest⟩ := List.forall_mem_cons.mp h
      have hslice := ihindex (hsubscript.parts _ List.mem_cons_self)
      exact ihrest hrest hstart (fits_placed hstart hsubscript.stop rfl
        (.cons hvalue (.cons hslice (.cons (fits_context .load) .nil))))
  | keyword _ _ ihvalue ihrest =>
      intro h
      obtain ⟨hkeyword, hrest⟩ := List.forall_mem_cons.mp h
      obtain ⟨-, hinside⟩ := List.forall_mem_cons.mp hkeyword.parts
      have hvalue := ihvalue (hinside _ List.mem_cons_self)
      obtain ⟨hargs, hkeywords⟩ := ihrest hrest
      exact ⟨hargs, .cons (fits_placed hkeyword.start hkeyword.stop rfl
        (.cons (.text _) (.cons hvalue .nil))) hkeywords⟩
  | argument _ _ ihvalue ihrest =>
      intro h
      obtain ⟨hphrase, hrest⟩ := List.forall_mem_cons.mp h
      obtain ⟨hargs, hkeywords⟩ := ihrest hrest
      exact ⟨.cons (ihvalue hphrase) hargs, hkeywords⟩

/-- **What is read from a phrase of an expression is an expression.** -/
theorem expression_fits (phrase : Phrase) (h : phrase.All P) :
    (expression file phrase).Yields (Fits (Placed file P) (.node .expression)) :=
  fun _ _ _ hrun => (finds_expression phrase hrun).fit h

end FunctionIR.Reading
