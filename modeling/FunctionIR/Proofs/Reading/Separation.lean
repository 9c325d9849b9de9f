import FunctionIR.Proofs.Reading.Counts
import FunctionIR.Proofs.Reading.Covering
import FunctionIR.Proofs.Tree.Paths
import Mathlib.Data.List.Forall2

/-!
# Nodes side by side

Of two nodes in a tree the one can be above the other, and then its span is around
the other's.  Where neither is, they stand in different fields of some node or at
different positions of a list, and their spans are apart (`Span.Apart`).  The one
exception is a parameter: its span goes on over its own default, which is not below it
but in another field of the parameters (`Value.Governs`, `OwnsDefault`).

For lists this is known from where nodes lie, as their items lie one after the
other.  For the fields of a node it is not, so it is shown here along the reading,
together with how the span of each node begins and ends (`Node.Neat`): first of
expressions (`Finds.neat`), then of targets and of statements without a body.
-/

namespace FunctionIR

open Grammar (Phrase Place Rule)

/-! ### Spans apart -/

/-- The one span stops before the other starts. -/
def Span.Apart (s t : Span) : Prop := s.stop.UpTo t.start ∨ t.stop.UpTo s.start

theorem Span.Apart.symm {s t : Span} (h : s.Apart t) : t.Apart s := Or.symm h

/-- What is apart from a span is apart from those within. -/
theorem Span.Apart.of_within {s t inner : Span} (h : s.Apart t) (hinner : inner.Within t) :
    s.Apart inner :=
  h.imp (fun hbefore => hbefore.trans hinner.1) fun hbehind => hinner.2.trans hbehind

namespace Value

/-- The spans of the nodes in a value. -/
def spans (value : Value) : List Span := value.nodes.filterMap fun node => node.head.span

/-- The spans in the one value are apart from those in the other. -/
def Apart (v w : Value) : Prop := ∀ s ∈ v.spans, ∀ t ∈ w.spans, s.Apart t

/-- The first value is a parameter whose span is around all spans in the second; what is
below the parameter is apart from these. -/
def Governs (v w : Value) : Prop :=
  ∃ head fields s, v = .node head fields ∧ head.kind = .arg ∧ head.span = some s ∧
    (∀ t ∈ w.spans, t.Within s) ∧ ∀ field ∈ fields, field.2.Apart w

variable {v w : Value} {items : List Value} {span : Span}

/-- The spans of a value are those of its nodes. -/
theorem mem_spans : span ∈ v.spans ↔ ∃ node ∈ v.nodes, node.head.span = some span :=
  List.mem_filterMap

/-- The spans of a list are those of its items. -/
theorem mem_spans_list : span ∈ (list items).spans ↔ ∃ item ∈ items, span ∈ item.spans := by
  simp only [mem_spans, nodes, mem_nodesOfItems]
  grind

theorem Apart.symm (h : v.Apart w) : w.Apart v := fun t ht s hs => (h s hs t ht).symm

/-- A value without spans is apart from everything. -/
theorem apart_of_no_spans (h : v.spans = []) : v.Apart w := by
  rw [Apart, h]
  exact List.forall_mem_nil _

/-- Everything is apart from a value without spans. -/
theorem apart_no_spans (h : w.spans = []) : v.Apart w := (apart_of_no_spans h).symm

/-- A text has no spans. -/
@[simp]
theorem str_apart (text : String) : (str text).Apart w := apart_of_no_spans rfl

@[simp]
theorem apart_str (text : String) : v.Apart (str text) := apart_no_spans rfl

/-- An absent value has no spans. -/
@[simp]
theorem absent_apart : absent.Apart w := apart_of_no_spans rfl

@[simp]
theorem apart_absent : v.Apart absent := apart_no_spans rfl

/-- A node without fields and place has no spans. -/
@[simp]
theorem bareNode_apart (id : Nat) (kind : Kind) : (Reading.bareNode id kind).Apart w :=
  apart_of_no_spans rfl

@[simp]
theorem apart_bareNode (id : Nat) (kind : Kind) : v.Apart (Reading.bareNode id kind) :=
  apart_no_spans rfl

/-- A list is apart from what all its items are apart from. -/
theorem list_apart : (list items).Apart w ↔ ∀ item ∈ items, item.Apart w := by
  simp only [Apart, mem_spans_list]
  grind

/-- What is apart from all items is apart from their list. -/
theorem apart_list : v.Apart (list items) ↔ ∀ item ∈ items, v.Apart item :=
  ⟨fun h item hitem => (list_apart.mp h.symm item hitem).symm,
    fun h => (list_apart.mpr fun item hitem => (h item hitem).symm).symm⟩

/-- What is apart from a parameter is apart from its default. -/
theorem Apart.of_governs {u : Value} (h : u.Apart v) (hgoverns : v.Governs w) : u.Apart w := by
  obtain ⟨head, fields, span, rfl, -, hspan, hwithin, -⟩ := hgoverns
  intro s hs t ht
  have hmem : span ∈ (node head fields).spans :=
    mem_spans.mpr ⟨⟨head, fields⟩, List.mem_cons_self, hspan⟩
  exact (h s hs span hmem).of_within (hwithin t ht)

end Value

/-! ### Neat nodes -/

/-- In the fields of parameters, the default at the second position is that of the
parameter at the first.  A keyword-only parameter has its default beside it, and the
other defaults are those of the last positional parameters. -/
def OwnsDefault (fields : Fields) : String × Nat → String × Nat → Prop
  | ("kwonlyargs", i), ("kw_defaults", j) => i = j
  | ("posonlyargs", i), ("defaults", j) =>
    i + listLength "defaults" fields =
      j + (listLength "posonlyargs" fields + listLength "args" fields)
  | ("args", i), ("defaults", j) =>
    i + listLength "defaults" fields = j + listLength "args" fields
  | _, _ => False

namespace Node

/-- Of the parameters in the one field of the node and the defaults in the other, each
default is governed by its own parameter and apart from all others. -/
def Governs (node : Node) (f g : String × Value) : Prop :=
  ∃ parameters defaults, f.2 = .list parameters ∧ g.2 = .list defaults ∧
    ∀ i j v w, parameters[i]? = some v → defaults[j]? = some w →
      v.Apart w ∨ (OwnsDefault node.fields (f.1, i) (g.1, j) ∧ v.Governs w)

/-- The values of two fields of the node are apart, or the node is one of parameters,
and the one field holds parameters and the other defaults. -/
def Separates (node : Node) (f g : String × Value) : Prop :=
  f.2.Apart g.2 ∨ (node.head.kind = .arguments ∧ (node.Governs f g ∨ node.Governs g f))

theorem Separates.symm {node : Node} {f g : String × Value} (h : node.Separates f g) :
    node.Separates g f :=
  h.imp Value.Apart.symm (And.imp_right Or.symm)

/-- The span of the node is that of what it was read from, it begins and ends with a
token, and the fields of the node are apart from each other. -/
structure Neat (script : Script) (node : Node) : Prop where
  edged : node.Edged script
  separated : node.fields.Pairwise node.Separates

end Node

/-- All nodes in the value are neat. -/
def Value.Neat (script : Script) (value : Value) : Prop := ∀ node ∈ value.nodes, node.Neat script

section

variable {script : Script} {head : Head} {fields : Fields} {items : List Value} {value : Value}

namespace Value

@[simp]
theorem neat_scalar (s : Scalar) : (scalar s).Neat script := List.forall_mem_nil _

@[simp]
theorem neat_str (text : String) : (str text).Neat script := List.forall_mem_nil _

@[simp]
theorem neat_absent : absent.Neat script := List.forall_mem_nil _

/-- A list is neat if its items are. -/
@[simp]
theorem neat_list : (list items).Neat script ↔ ∀ item ∈ items, item.Neat script := by
  simp only [Neat, nodes, mem_nodesOfItems]
  grind

/-- A node is neat if its span is right, its fields are apart and what is in them is neat. -/
theorem neat_node : (node head fields).Neat script ↔
    Node.Edged script ⟨head, fields⟩ ∧ fields.Pairwise (Node.Separates ⟨head, fields⟩) ∧
      ∀ field ∈ fields, field.2.Neat script := by
  simp only [Neat, nodes, List.forall_mem_cons, mem_nodesOfFields]
  constructor
  · rintro ⟨⟨hedged, hseparated⟩, hfields⟩
    exact ⟨hedged, hseparated, fun field hfield node hnode => hfields node ⟨field, hfield, hnode⟩⟩
  · rintro ⟨hedged, hseparated, hfields⟩
    refine ⟨⟨hedged, hseparated⟩, ?_⟩
    rintro node ⟨field, hfield, hnode⟩
    exact hfields field hfield node hnode

/-- A node without fields and place is neat. -/
@[simp]
theorem neat_bareNode (id : Nat) (kind : Kind) : (Reading.bareNode id kind).Neat script :=
  neat_node.mpr ⟨Reading.edged_bare, .nil, List.forall_mem_nil _⟩

theorem neat_getD {value : Option Value} (h : ∀ v ∈ value, v.Neat script) :
    (value.getD .absent).Neat script := by
  cases value with
  | none => exact neat_absent
  | some v => exact h v rfl

/-- A node is neat if its span begins and ends with a token and all its fields are
apart. -/
theorem neat_of_apart (hedged : Node.Edged script ⟨head, fields⟩)
    (hapart : fields.Pairwise fun f g => f.2.Apart g.2)
    (hfields : ∀ field ∈ fields, field.2.Neat script) : (node head fields).Neat script :=
  neat_node.mpr ⟨hedged, hapart.imp .inl, hfields⟩

/-- Unless the node is one of parameters, all its fields are apart. -/
theorem apart_of_neat (h : (node head fields).Neat script) (hkind : head.kind ≠ .arguments) :
    fields.Pairwise fun f g => f.2.Apart g.2 :=
  (neat_node.mp h).2.1.imp fun hseparates => hseparates.resolve_right fun h => hkind h.1

/-- What has no spans is apart from all other fields. -/
theorem apart_set (name : String) (hvalue : value.spans = [])
    (h : fields.Pairwise fun f g => f.2.Apart g.2) :
    (Members.set name value fields).Pairwise fun f g => f.2.Apart g.2 := by
  induction fields with
  | nil => exact List.pairwise_singleton _ _
  | cons field rest ih =>
      obtain ⟨hfield, hrest⟩ := List.pairwise_cons.mp h
      rw [Members.set]
      split
      · exact .cons (fun _ _ => apart_of_no_spans hvalue) hrest
      · refine .cons (fun other hother => ?_) (ih hrest)
        rcases mem_set other hother with heq | hother
        · exact apart_no_spans (by rw [heq, hvalue])
        · exact hfield other hother

/-! ### Parameters and their defaults -/

variable {parameters before own defaults : List Value} {v w : Value}

/-- What is apart from parameters is apart from their defaults. -/
theorem apart_of_governed (hown : List.Forall₂ Governs own defaults)
    (h : ∀ parameter ∈ own, v.Apart parameter) : ∀ default ∈ defaults, v.Apart default := by
  induction hown with
  | nil => exact List.forall_mem_nil _
  | cons hgoverns _ ih =>
      obtain ⟨hfirst, hothers⟩ := List.forall_mem_cons.mp h
      exact List.forall_mem_cons.mpr ⟨hfirst.of_governs hgoverns, ih hothers⟩

/-- Where the last parameters have the defaults, each default is apart from all
parameters but its own. -/
theorem apart_or_governs (hown : List.Forall₂ Governs own defaults)
    (hsplit : parameters = before ++ own) (hapart : parameters.Pairwise Apart) {i j : Nat}
    (hv : parameters[i]? = some v) (hw : defaults[j]? = some w) :
    v.Apart w ∨ (i = before.length + j ∧ v.Governs w) := by
  obtain ⟨hj, rfl⟩ := List.getElem?_eq_some_iff.mp hw
  have hj' : j < own.length := by rwa [hown.length_eq]
  have hgoverns : own[j].Governs defaults[j] := hown.get hj' hj
  have howner : parameters[before.length + j]? = some own[j] := by
    rw [hsplit, List.getElem?_append_right (Nat.le_add_right _ _), Nat.add_sub_cancel_left,
      List.getElem?_eq_getElem hj']
  by_cases heq : i = before.length + j
  · rw [← heq, hv] at howner
    cases howner
    exact .inr ⟨heq, hgoverns⟩
  · obtain ⟨hi, rfl⟩ := List.getElem?_eq_some_iff.mp hv
    obtain ⟨hk, howner⟩ := List.getElem?_eq_some_iff.mp howner
    have hpairs := List.pairwise_iff_getElem.mp hapart
    have hother : parameters[i].Apart parameters[before.length + j] := by
      rcases Nat.lt_or_gt_of_ne heq with hlt | hlt
      · exact hpairs _ _ hi hk hlt
      · exact (hpairs _ _ hk hi hlt).symm
    rw [howner] at hother
    exact .inl (hother.of_governs hgoverns)

end Value

end

/-! ### What lies apart -/

namespace Reading

open Value

variable {file : String} {script : Script} {lo mid mid' hi : Place} {v w : Value}
  {values items : List Value}

/-- What lies between two places is apart from what lies behind them. -/
theorem Lies.apart (h : Lies file lo mid v) (hle : mid ≤ mid') (h' : Lies file mid' hi w) :
    v.Apart w := by
  intro s hs t ht
  obtain ⟨node, hnode, hspan⟩ := mem_spans.mp hs
  obtain ⟨other, hother, hspan'⟩ := mem_spans.mp ht
  have hbefore := (h.within node hnode s hspan).2
  have hbehind := (h'.within other hother t hspan').1
  exact .inl (hbefore.trans ((locate_upTo hle).trans hbehind))

/-- The items of a list are apart from each other. -/
theorem ItemsLie.pairwise (h : ItemsLie file lo hi items) : items.Pairwise Apart := by
  induction items generalizing lo with
  | nil => exact .nil
  | cons item items ih =>
      cases h with
      | cons _ _ hitem hitems =>
          exact .cons (apart_list.mp (hitem.apart (le_refl _) (.list hitems))) (ih hitems)

/-! ### Expressions -/

/-- The parts of a settled phrase are settled. -/
theorem settled_parts {rule : Rule} {start stop : Place} {text : List Char} {parts : List Phrase}
    (h : (Phrase.mk rule start stop text parts).Settled script) :
    ∀ part ∈ parts, part.Settled script := fun _ hpart => h.part hpart

/-- The phrases are the last ones of a chain of operations that starts at the place. -/
def EndsOperations (script : Script) (start : Place) (phrases : List Phrase) : Prop :=
  ∃ chain ∈ script.whole.inner, (chain.rule = .sum ∨ chain.rule = .term) ∧
    chain.start = start ∧ phrases <:+ chain.parts

/-- The phrases are the last ones behind an atom that starts at the place. -/
def EndsTrailers (script : Script) (start : Place) (phrases : List Phrase) : Prop :=
  ∃ chain ∈ script.whole.inner, chain.rule = .primary ∧
    ∃ atom trailers, chain.parts = atom :: trailers ∧ atom.start = start ∧ phrases <:+ trailers

/-- The node of the next operation has its extent from the start of the chain. -/
theorem EndsOperations.extent {c d : Nat} {token operand : Phrase} {phrases : List Phrase}
    {left : Value} {head : Head} {fields : Fields}
    (h : EndsOperations script lo (token :: operand :: phrases))
    (hfound : Finds script.file c (.operations lo left [token, operand] (.node head fields)) d) :
    script.whole.Extent script.file ⟨head, fields⟩ lo operand.stop := by
  obtain ⟨chain, hinside, hrule, rfl, before, hparts⟩ := h
  exact .operation hinside hrule hparts.symm hfound

/-- Behind an operation come the last ones of the same chain. -/
theorem EndsOperations.rest {token operand : Phrase} {phrases : List Phrase}
    (h : EndsOperations script lo (token :: operand :: phrases)) :
    EndsOperations script lo phrases := by
  obtain ⟨chain, hinside, hrule, hstart, hparts⟩ := h
  have hlast : phrases <:+ token :: operand :: phrases := List.suffix_append [token, operand] _
  exact ⟨chain, hinside, hrule, hstart, hlast.trans hparts⟩

/-- The node of the next trailer has its extent from the start of the atom. -/
theorem EndsTrailers.extent {c d : Nat} {trailer : Phrase} {phrases : List Phrase}
    {value : Value} {head : Head} {fields : Fields} (h : EndsTrailers script lo (trailer :: phrases))
    (hfound : Finds script.file c (.trailers lo value [trailer] (.node head fields)) d) :
    script.whole.Extent script.file ⟨head, fields⟩ lo trailer.stop := by
  obtain ⟨chain, hinside, hrule, atom, trailers, hparts, rfl, hlast⟩ := h
  exact .trailer hinside hrule hparts (hlast.subset List.mem_cons_self) hfound

/-- Behind a trailer come the last ones of the same chain. -/
theorem EndsTrailers.rest {trailer : Phrase} {phrases : List Phrase}
    (h : EndsTrailers script lo (trailer :: phrases)) : EndsTrailers script lo phrases := by
  obtain ⟨chain, hinside, hrule, atom, trailers, hparts, hstart, hlast⟩ := h
  exact ⟨chain, hinside, hrule, atom, trailers, hparts, hstart,
    (List.suffix_cons trailer phrases).trans hlast⟩

/-- What is found in settled phrases is neat, if what is gone on from is. -/
def Finding.IsNeat (script : Script) : Finding → Prop
  | .expression phrase value => phrase.Settled script → value.Neat script
  | .expressions phrases values | .elements phrases values _ =>
    (∀ phrase ∈ phrases, phrase.Settled script) → ∀ value ∈ values, value.Neat script
  | .comparisons phrases ops comparators =>
    (∀ phrase ∈ phrases, phrase.Settled script) →
      (∀ op ∈ ops, ∃ id kind, op = bareNode id kind) ∧ ∀ value ∈ comparators, value.Neat script
  | .arguments phrases args keywords =>
    ∀ lo hi, Along lo hi phrases → (∀ phrase ∈ phrases, phrase.Settled script) →
      (∀ arg ∈ args, arg.Neat script) ∧ (∀ keyword ∈ keywords, keyword.Neat script) ∧
        (Value.list args).Apart (.list keywords)
  | .operations start before phrases value =>
    EndsOperations script start phrases →
      ∀ mid hi, Opens script.text start → start ≤ mid → Along mid hi phrases →
        (∀ phrase ∈ phrases, phrase.Settled script) → Lies script.file start mid before →
        before.Neat script → value.Neat script
  | .trailers start before phrases value =>
    EndsTrailers script start phrases →
      ∀ mid hi, Opens script.text start → start ≤ mid → Along mid hi phrases →
        (∀ phrase ∈ phrases, phrase.Settled script) → Lies script.file start mid before →
        before.Neat script → value.Neat script

/-- The rules of literals are tokens. -/
theorem edges_of_literal {rule : Rule} {text : List Char} {scalar : Scalar}
    (h : literalValue rule text = some scalar) :
    rule.kind? = some .constant ∧ rule.opens = true ∧ rule.ends false = true := by
  unfold literalValue at h
  split at h <;> first | exact ⟨rfl, rfl, rfl⟩ | cases h

/-- What joins operands by a word is read as a node for that. -/
theorem kind_of_joiningOp {rule : Rule} {op : BoolOp} (h : joiningOp rule = some op) :
    rule.kind? = some .boolOp := by
  unfold joiningOp at h
  split at h <;> first | rfl | cases h

/-- A list between commas is read as a tuple. -/
theorem kind_of_list {rule : Rule} (h : rule = .expressionList ∨ rule = .targetList) :
    rule.kind? = some .tuple := by
  rcases h with rfl | rfl <;> rfl

/-- Nodes without a place are apart from everything. -/
theorem spans_of_bare {ops : List Value} (h : ∀ op ∈ ops, ∃ id kind, op = bareNode id kind) :
    (Value.list ops).spans = [] := by
  refine List.eq_nil_iff_forall_not_mem.mpr fun span hspan => ?_
  obtain ⟨op, hop, hspan⟩ := mem_spans_list.mp hspan
  obtain ⟨id, kind, rfl⟩ := h op hop
  cases hspan

/-- **What is found in settled phrases is neat.** -/
theorem Finds.neat {c d : Nat} {finding : Finding} (h : Finds script.file c finding d) :
    finding.IsNeat script := by
  induction h with
  | conditional hbody htest horelse ihbody ihtest ihorelse =>
      intro hsettled
      obtain ⟨hfirst, hsecond, hthird⟩ : _ ∧ _ ∧ _ := by simpa using settled_parts hsettled
      obtain ⟨-, -, hbetween, -, hbefore, -, -⟩ := along_parts hsettled.inPlace
      have hbodyLies := hbody.lies hfirst.inPlace
      have htestLies := htest.lies hsecond.inPlace
      have horelseLies := horelse.lies hthird.inPlace
      have hbodyTest := hbodyLies.apart hbetween htestLies
      have htestOrelse := htestLies.apart hbefore horelseLies
      have hbodyOrelse := hbodyLies.apart
        (le_trans hbetween (le_trans hsecond.inPlace.start_le_stop hbefore)) horelseLies
      refine neat_of_apart
        (edged_sharp hsettled.inside hsettled.sharp (.expression (.conditional hbody htest
        horelse)) rfl rfl rfl) ?_ ?_
      · simp [hbodyTest.symm, htestOrelse, hbodyOrelse]
      · simp [ihbody hfirst, ihtest hsecond, ihorelse hthird]
  | joined hop hvalues ih =>
      intro hsettled
      refine neat_of_apart
        (edged_settled hsettled (.expression (.joined hop hvalues)) (kind_of_joiningOp hop) rfl)
        (by simp) ?_
      simpa using ih (settled_parts hsettled)
  | tuple hrule hitems helements ih =>
      intro hsettled
      have hkind := kind_of_list hrule
      refine neat_of_apart
        (edged_settled hsettled (.expression (.tuple hrule hitems helements)) hkind rfl)
        (by simp) ?_
      simpa using ih (settled_parts hsettled)
  | negation hoperand ih =>
      intro hsettled
      refine neat_of_apart
        (edged_sharp hsettled.inside hsettled.sharp (.expression (.negation hoperand)) rfl rfl rfl)
        (by simp) ?_
      simpa using ih (hsettled.part (by simp [Phrase.parts]))
  | sign hop hoperand ih =>
      intro hsettled
      refine neat_of_apart
        (edged_sharp hsettled.inside hsettled.sharp (.expression (.sign hop hoperand)) rfl rfl rfl)
        (by simp) ?_
      simpa using ih (hsettled.part (by simp [Phrase.parts]))
  | comparison hleft hrest ihleft ihrest =>
      intro hsettled
      obtain ⟨hfirst, hothers⟩ := List.forall_mem_cons.mp (settled_parts hsettled)
      obtain ⟨-, -, hbehind⟩ := along_parts hsettled.inPlace
      obtain ⟨hops, hcomparators⟩ := ihrest hothers
      have hnone := spans_of_bare hops
      have hapart := (hleft.lies hfirst.inPlace).apart (le_refl _)
        (.list (hrest.lies _ _ hbehind).2)
      refine neat_of_apart
        (edged_sharp hsettled.inside hsettled.sharp (.expression (.comparison hleft hrest)) rfl rfl
        rfl) ?_ ?_
      · simp [apart_no_spans hnone, apart_of_no_spans hnone, hapart]
      · simp only [List.forall_mem_cons, neat_list]
        refine ⟨ihleft hfirst, fun op hop => ?_, hcomparators, List.forall_mem_nil _⟩
        obtain ⟨id, kind, rfl⟩ := hops op hop
        exact neat_bareNode id kind
  | chain hrule hleft _ ihleft ihrest =>
      intro hsettled
      obtain ⟨hfirst, hothers⟩ := List.forall_mem_cons.mp (settled_parts hsettled)
      obtain ⟨hstart, hin, hbehind⟩ := along_parts hsettled.inPlace
      exact ihrest ⟨_, hsettled.inside, hrule, rfl, List.suffix_cons _ _⟩ _ _ hsettled.opens
        (le_trans hstart hin.start_le_stop) hbehind hothers
        ((hleft.lies hin).mono hstart (le_refl _)) (ihleft hfirst)
  | power hbase hexponent ihbase ihexponent =>
      intro hsettled
      obtain ⟨hfirst, hsecond⟩ : _ ∧ _ := by simpa using settled_parts hsettled
      obtain ⟨-, -, hbetween, -, -⟩ := along_parts hsettled.inPlace
      have hapart := (hbase.lies hfirst.inPlace).apart hbetween (hexponent.lies hsecond.inPlace)
      refine neat_of_apart
        (edged_sharp hsettled.inside hsettled.sharp (.expression (.power hbase hexponent)) rfl rfl
        rfl) ?_ ?_
      · simp [hapart]
      · simp [ihbase hfirst, ihexponent hsecond]
  | primary hatom _ ihatom ihrest =>
      -- The chain starts where the atom does, and a token begins there, too.
      intro hsettled
      obtain ⟨hfirst, hothers⟩ := List.forall_mem_cons.mp (settled_parts hsettled)
      obtain ⟨-, hin, hbehind⟩ := along_parts hsettled.inPlace
      exact ihrest ⟨_, hsettled.inside, rfl, _, _, rfl, rfl, List.suffix_refl _⟩ _ _ hfirst.opens
        hin.start_le_stop hbehind hothers (hatom.lies hin) (ihatom hfirst)
  | unit =>
      intro hsettled
      exact neat_of_apart
        (edged_sharp hsettled.inside hsettled.sharp (.expression .unit) rfl rfl rfl)
        (by simp) (by simp)
  | name =>
      intro hsettled
      exact neat_of_apart
        (edged_sharp hsettled.inside hsettled.sharp (.expression .name) rfl rfl rfl)
        (by simp) (by simp)
  | display hitems ih =>
      intro hsettled
      refine neat_of_apart
        (edged_sharp hsettled.inside hsettled.sharp (.expression (.display hitems)) rfl rfl rfl)
        (by simp) ?_
      simpa using ih (settled_parts hsettled)
  | alone _ _ ih =>
      intro hsettled
      exact ih (settled_parts hsettled) _ (List.mem_singleton_self _)
  | literal hvalue =>
      intro hsettled
      obtain ⟨hkind, hopens, hends⟩ := edges_of_literal hvalue
      exact neat_of_apart
        (edged_sharp hsettled.inside hsettled.sharp (.expression (.literal hvalue)) hkind hopens
        hends) (by simp) (by simp)
  | passed _ _ ih =>
      intro hsettled
      exact ih (hsettled.part (List.mem_singleton_self _))
  | nothing | noElement => exact fun _ => List.forall_mem_nil _
  | next _ _ ihvalue ihrest | element _ _ ihvalue ihrest =>
      intro hsettled
      obtain ⟨hfirst, hothers⟩ := List.forall_mem_cons.mp hsettled
      exact List.forall_mem_cons.mpr ⟨ihvalue hfirst, ihrest hothers⟩
  | comma _ ih =>
      intro hsettled
      exact ih (List.forall_mem_cons.mp hsettled).2
  | notCompared => exact fun _ => ⟨List.forall_mem_nil _, List.forall_mem_nil _⟩
  | compared _ _ _ ihright ihrest =>
      intro hsettled
      obtain ⟨-, hothers⟩ := List.forall_mem_cons.mp hsettled
      obtain ⟨hphrase, hothers⟩ := List.forall_mem_cons.mp hothers
      obtain ⟨hops, hcomparators⟩ := ihrest hothers
      exact ⟨List.forall_mem_cons.mpr ⟨⟨_, _, rfl⟩, hops⟩,
        List.forall_mem_cons.mpr ⟨ihright hphrase, hcomparators⟩⟩
  | notOperated | notExtended => exact fun _ _ _ _ _ _ _ _ hbefore => hbefore
  | operated hop hright _ ihright ihrest =>
      -- The operation begins where the chain does and ends where its right operand does.
      intro hlast mid hi hopens hle halong hsettled hlies hleft
      obtain ⟨-, hothers⟩ := List.forall_mem_cons.mp hsettled
      obtain ⟨hphrase, hothers⟩ := List.forall_mem_cons.mp hothers
      obtain ⟨hstart, hinToken, hbetween, hin, hbehind⟩ := halong
      have hmid := le_trans (le_trans hstart hinToken.start_le_stop) hbetween
      have hapart := hlies.apart hmid (hright.lies hin)
      have hlt := lt_of_le_of_lt (le_trans hle hmid) hphrase.start_lt_stop
      refine ihrest hlast.rest _ _ hopens (le_of_lt hlt) hbehind hothers
        (lies_operated hle hmid hin.start_le_stop hlies (hright.lies hin))
        (neat_of_apart
          (edged_placed (hlast.extent (.operated hop hright .notOperated)) hopens hlt
          hphrase.closes) ?_ ?_)
      · simp [hapart]
      · simp [hleft, ihright hphrase]
  | called hargs _ ihargs ihrest =>
      -- It ends with the bracket of the call, so there is no gap.
      intro hlast mid hi hopens hle halong hsettled hlies hvalue
      obtain ⟨hcall, hothers⟩ := List.forall_mem_cons.mp hsettled
      obtain ⟨hstart, hin, hbehind⟩ := halong
      have hlt := lt_of_le_of_lt (le_trans hle hstart) hcall.start_lt_stop
      have hstop := le_trans hstart hin.start_le_stop
      have hinside := (along_parts hin).from hstart
      obtain ⟨hargsLie, hkeywordsLie⟩ := hargs.lies _ _ hinside
      obtain ⟨hargsNeat, hkeywordsNeat, hapart⟩ := ihargs _ _ hinside (settled_parts hcall)
      have hargsApart := hlies.apart (le_refl _) (.list hargsLie)
      have hkeywordsApart := hlies.apart (le_refl _) (.list hkeywordsLie)
      refine ihrest hlast.rest _ _ hopens (le_of_lt hlt) hbehind hothers
        (lies_called hle hstop hlies hargsLie hkeywordsLie)
        (neat_of_apart
          (edged_placed (hlast.extent (.called hargs .notExtended)) hopens hlt
          (hcall.sharp.closes rfl)) ?_ ?_)
      · simp [hargsApart, hkeywordsApart, hapart]
      · simpa using ⟨hvalue, hargsNeat, hkeywordsNeat⟩
  | selected _ ihrest =>
      intro hlast mid hi hopens hle halong hsettled hlies hvalue
      obtain ⟨hattr, hothers⟩ := List.forall_mem_cons.mp hsettled
      obtain ⟨hstart, hin, hbehind⟩ := halong
      have hlt := lt_of_le_of_lt (le_trans hle hstart) hattr.start_lt_stop
      refine ihrest hlast.rest _ _ hopens (le_of_lt hlt) hbehind hothers
        (lies_selected hle (le_trans hstart hin.start_le_stop) hlies)
        (neat_of_apart
          (edged_placed (hlast.extent (.selected .notExtended)) hopens hlt
          (hattr.sharp.closes rfl)) ?_ ?_)
      · simp
      · simpa using hvalue
  | subscripted hindex _ ihindex ihrest =>
      intro hlast mid hi hopens hle halong hsettled hlies hvalue
      obtain ⟨hsubscript, hothers⟩ := List.forall_mem_cons.mp hsettled
      obtain ⟨hstart, hin, hbehind⟩ := halong
      have hlt := lt_of_le_of_lt (le_trans hle hstart) hsubscript.start_lt_stop
      have hslice := (lies_part hin (by simp [Phrase.parts]) hindex.lies).mono hstart (le_refl _)
      have hapart := hlies.apart (le_refl _) hslice
      refine ihrest hlast.rest _ _ hopens (le_of_lt hlt) hbehind hothers
        (lies_subscripted hle (le_trans hstart hin.start_le_stop) hlies hslice)
        (neat_of_apart
          (edged_placed (hlast.extent (.subscripted hindex .notExtended)) hopens hlt
          (hsubscript.sharp.closes rfl)) ?_ ?_)
      · simp [hapart]
      · simp [hvalue, ihindex (hsubscript.part (by simp [Phrase.parts]))]
  | noArgument =>
      exact fun _ _ _ _ => ⟨List.forall_mem_nil _, List.forall_mem_nil _, apart_of_no_spans rfl⟩
  | keyword hvalue hrest ihvalue ihrest =>
      intro lo hi halong hsettled
      obtain ⟨hfirst, hothers⟩ := List.forall_mem_cons.mp hsettled
      obtain ⟨-, hin, hbehind⟩ := halong
      obtain ⟨hargs, hkeywords, hapart⟩ := ihrest _ _ hbehind hothers
      have hlies := lies_part hin (by simp [Phrase.parts]) hvalue.lies
      refine ⟨hargs, List.forall_mem_cons.mpr ⟨?_, hkeywords⟩,
        apart_list.mpr (List.forall_mem_cons.mpr ⟨?_, apart_list.mp hapart⟩)⟩
      · refine neat_of_apart (edged_sharp hfirst.inside hfirst.sharp
        (.keyword (.keyword hvalue .noArgument)) rfl rfl rfl) (by simp) ?_
        simpa using ihvalue (hfirst.part (by simp [Phrase.parts]))
      · refine Apart.symm (Lies.apart (lies_placed hin.start_le_stop ?_) (le_refl _)
          (.list (hrest.lies _ _ hbehind).1))
        exact .inside (lies_str _) (.inside hlies .nil)
  | argument hvalue hrest ihvalue ihrest =>
      intro lo hi halong hsettled
      obtain ⟨hfirst, hothers⟩ := List.forall_mem_cons.mp hsettled
      obtain ⟨-, hin, hbehind⟩ := halong
      obtain ⟨hargs, hkeywords, hapart⟩ := ihrest _ _ hbehind hothers
      refine ⟨List.forall_mem_cons.mpr ⟨ihvalue hfirst, hargs⟩, hkeywords,
        list_apart.mpr (List.forall_mem_cons.mpr ⟨?_, list_apart.mp hapart⟩)⟩
      exact (hvalue.lies hin).apart (le_refl _) (.list (hrest.lies _ _ hbehind).2)

/-! ### Targets and statements without a body -/

mutual

/-- What is stored is as neat as it was. -/
theorem Stores.neat : {c d : Nat} → {value target : Value} → Stores c value target d →
    value.Neat script → target.Neat script
  | _, _, .node head _, _, hstores@(.single _ hassignable _), h => by
      obtain ⟨hedged, -, hfields⟩ := neat_node.mp h
      have hkind : head.kind ≠ .arguments := by
        intro hkind
        rw [hkind] at hassignable
        cases hassignable
      refine neat_of_apart (hedged.congr rfl hstores.contextless_eq)
        (apart_set "ctx" rfl (apart_of_neat h hkind)) fun field hfield => ?_
      rcases mem_set field hfield with heq | hfield
      · rw [heq]
        exact neat_bareNode _ _
      · exact hfields field hfield
  | _, _, _, _, hstores@(.sequence _ hitems), h => by
      obtain ⟨hedged, -, hfields⟩ := neat_node.mp h
      have hvalues := neat_list.mp (List.forall_mem_cons.mp hfields).1
      refine neat_of_apart (hedged.congr rfl hstores.contextless_eq) (by simp) ?_
      simpa using StoresAll.neat hitems hvalues

theorem StoresAll.neat : {c d : Nat} → {values targets : List Value} →
    StoresAll c values targets d → (∀ value ∈ values, value.Neat script) →
    ∀ target ∈ targets, target.Neat script
  | _, _, _, _, .nil, _ => List.forall_mem_nil _
  | _, _, _, _, .cons hvalue hrest, h => by
      obtain ⟨hfirst, hothers⟩ := List.forall_mem_cons.mp h
      exact List.forall_mem_cons.mpr ⟨Stores.neat hvalue hfirst, StoresAll.neat hrest hothers⟩

end

/-- A target is neat. -/
theorem FindsTarget.neat {c d : Nat} {phrase : Phrase} {target : Value}
    (h : FindsTarget script.file c phrase target d) (hsettled : phrase.Settled script) :
    target.Neat script := by
  cases h with
  | mk hvalue hstores => exact hstores.neat (hvalue.neat hsettled)

/-- Targets are neat, and the value behind them is settled. -/
theorem FindsTargets.neat {c d : Nat} {phrases : List Phrase} {targets : List Value}
    {value : Phrase} (h : FindsTargets script.file c phrases targets value d)
    (hsettled : ∀ phrase ∈ phrases, phrase.Settled script) :
    (∀ target ∈ targets, target.Neat script) ∧ value.Settled script := by
  induction h with
  | value => exact ⟨List.forall_mem_nil _, hsettled _ (List.mem_singleton_self _)⟩
  | target htarget _ ih =>
      obtain ⟨hfirst, hothers⟩ := List.forall_mem_cons.mp hsettled
      obtain ⟨htargets, hvalue⟩ := ih hothers
      exact ⟨List.forall_mem_cons.mpr ⟨htarget.neat hfirst, htargets⟩, hvalue⟩

/-- The targets lie before the phrase of the value. -/
theorem FindsTargets.lie_before {c d : Nat} {phrases : List Phrase} {targets : List Value}
    {value : Phrase} (h : FindsTargets file c phrases targets value d)
    (halong : Along lo hi phrases) :
    lo ≤ value.start ∧ ItemsLie file lo value.start targets := by
  induction h generalizing lo with
  | value => exact ⟨halong.1, .nil⟩
  | target htarget _ ih =>
      obtain ⟨hstart, hin, hbehind⟩ := halong
      obtain ⟨hle, htargets⟩ := ih hbehind
      have hstop := le_trans hstart hin.start_le_stop
      exact ⟨le_trans hstop hle,
        .cons hstop hle ((htarget.lies hin).mono hstart (le_refl _)) htargets⟩

/-- A statement of one word begins and ends with that word. -/
theorem edges_of_word {rule : Rule} {kind : Kind} (h : wordKind rule = some kind) :
    rule.kind? = some kind ∧ rule.opens = true ∧ rule.ends (!kind.isTight) = true := by
  unfold wordKind at h
  split at h <;> cases h <;> exact ⟨rfl, rfl, rfl⟩

/-- A simple statement is neat. -/
theorem FindsSimple.neat {c d : Nat} {phrase : Phrase} {value : Value}
    (h : FindsSimple script.file c phrase value d) (hsettled : phrase.Settled script) :
    value.Neat script := by
  cases h with
  | word hword =>
      obtain ⟨hkind, hopens, hends⟩ := edges_of_word hword
      exact neat_of_apart
        (edged_sharp hsettled.inside hsettled.sharp (.simple (.word hword)) hkind hopens hends)
        .nil (List.forall_mem_nil _)
  | returned =>
      exact neat_of_apart
        (edged_sharp hsettled.inside hsettled.sharp (.simple .returned) rfl rfl rfl) (by simp)
        (by simp)
  | returnedValue hvalue =>
      refine neat_of_apart (edged_sharp hsettled.inside hsettled.sharp
        (.simple (.returnedValue hvalue)) rfl rfl rfl) (by simp) ?_
      simpa using hvalue.neat (hsettled.part (List.mem_singleton_self _))
  | evaluated hvalue =>
      refine neat_of_apart (edged_sharp hsettled.inside hsettled.sharp
        (.simple (.evaluated hvalue)) rfl rfl rfl) (by simp) ?_
      simpa using hvalue.neat (hsettled.part (List.mem_singleton_self _))
  | assigned htargets hvalue =>
      obtain ⟨htargetsNeat, hphrase⟩ := htargets.neat (settled_parts hsettled)
      obtain ⟨-, hbefore⟩ := htargets.lie_before (along_parts hsettled.inPlace)
      have hapart := Lies.apart (.list hbefore) (le_refl _) (hvalue.lies hphrase.inPlace)
      refine neat_of_apart
        (edged_sharp hsettled.inside hsettled.sharp (.simple (.assigned htargets hvalue)) rfl rfl
        rfl) ?_ ?_
      · simp [hapart]
      · simpa using ⟨htargetsNeat, hvalue.neat hphrase⟩
  | augmented hop htarget hvalue =>
      obtain ⟨hfirst, htoken, hsecond⟩ : _ ∧ _ ∧ _ := by simpa using settled_parts hsettled
      obtain ⟨-, -, hbetween, -, hbefore, -, -⟩ := along_parts hsettled.inPlace
      have hapart := (htarget.lies hfirst.inPlace).apart
        (le_trans hbetween (le_trans htoken.inPlace.start_le_stop hbefore))
        (hvalue.lies hsecond.inPlace)
      refine neat_of_apart
        (edged_sharp hsettled.inside hsettled.sharp (.simple (.augmented hop htarget hvalue)) rfl
        rfl rfl) ?_ ?_
      · simp [hapart]
      · simpa using ⟨htarget.neat hfirst, hvalue.neat hsecond⟩

/-- Simple statements are neat. -/
theorem FindsSimples.neat {c d : Nat} {phrases : List Phrase}
    (h : FindsSimples script.file c phrases values d)
    (hsettled : ∀ phrase ∈ phrases, phrase.Settled script) :
    ∀ value ∈ values, value.Neat script := by
  induction h with
  | nil => exact List.forall_mem_nil _
  | cons hstatement _ ih =>
      obtain ⟨hfirst, hothers⟩ := List.forall_mem_cons.mp hsettled
      exact List.forall_mem_cons.mpr ⟨hstatement.neat hfirst, ih hothers⟩

end Reading

end FunctionIR
