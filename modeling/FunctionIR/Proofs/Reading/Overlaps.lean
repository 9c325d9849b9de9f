import FunctionIR.Proofs.Reading.StatementSeparation
import Mathlib.Data.List.Pairwise

/-!
# Where spans overlap

In the tree of a program text the span of every node is that of the phrase the node is
made of, or goes on from the start of a chain to such a phrase.  It begins with a token,
and it ends with one or with the gap behind it.  Of two nodes of which neither is above
the other the spans do not overlap, unless the one is a parameter and the other is in its
own default (`spans_separated`).

Two such nodes are told by the ways that lead to them: neither way goes on from the
other, so they part at some value, at different items of a list or different fields of a
node.  There it is known that what lies on the one side is apart from what lies on the
other (`Reading.separated_of_ways`).
-/

namespace FunctionIR

open Grammar (Phrase Place isLayout)

/-! ### Ways to nodes -/

namespace Value

/-- The node at the end of a way. -/
def nodeAt? (value : Value) (way : List Turn) : Option Node :=
  match value.at? way with
  | some (.node head fields) => some ⟨head, fields⟩
  | _ => none

/-- The first way leads to a parameter, the second one into the default of this
parameter. -/
def PartAtDefault (value : Value) (way way' : List Turn) : Prop :=
  ∃ above arguments parameter default more,
    value.nodeAt? above = some arguments ∧ arguments.head.kind = .arguments ∧
      way = above ++ [.field parameter.1, .item parameter.2] ∧
      way' = above ++ .field default.1 :: .item default.2 :: more ∧
      OwnsDefault arguments.fields parameter default

/-- The node at the end of the first way is a parameter, the second way leads into its
own default, and the second span is within the first. -/
structure CoversDefault (value : Value) (way way' : List Turn) (node : Node) (s t : Span) :
    Prop where
  parameter : node.head.kind = .arg
  within : t.Within s
  default : value.PartAtDefault way way'

/-- The spans are apart, but one that is a parameter's may cover its default. -/
def Separated (value : Value) (way way' : List Turn) (node other : Node) (s t : Span) : Prop :=
  s.Apart t ∨ value.CoversDefault way way' node s t ∨ value.CoversDefault way' way other t s

variable {value part : Value} {turn : Turn} {way way' : List Turn} {node other : Node} {s t : Span}

/-- The way through a part goes on in the part. -/
theorem nodeAt?_of_part (h : value.part? turn = some part) :
    value.nodeAt? (turn :: way) = part.nodeAt? way := by
  rw [nodeAt?, at?, h]
  rfl

/-- A way with a turn goes through a part. -/
theorem exists_part (h : value.nodeAt? (turn :: way) = some node) :
    ∃ part, value.part? turn = some part ∧ part.nodeAt? way = some node := by
  cases hpart : value.part? turn with
  | none =>
      rw [nodeAt?, at?, hpart] at h
      cases h
  | some part =>
      rw [nodeAt?_of_part hpart] at h
      exact ⟨part, rfl, h⟩

/-- What is behind a turn is an item of a list or in a field of a node. -/
theorem part_cases (h : value.part? turn = some part) :
    (∃ items index, value = .list items ∧ turn = .item index ∧ items[index]? = some part) ∨
      ∃ head fields name, value = .node head fields ∧ turn = .field name ∧
        (name, part) ∈ fields := by
  cases value with
  | scalar | foreign => cases h
  | list items =>
      cases turn with
      | field => cases h
      | item index => exact .inl ⟨items, index, rfl, rfl, h⟩
  | node head fields =>
      cases turn with
      | field name => exact .inr ⟨head, fields, name, rfl, rfl, Exchange.mem_of_get? h⟩
      | item => cases h

/-- A way to a default goes through what is above it. -/
theorem PartAtDefault.behind (h : part.PartAtDefault way way')
    (hpart : value.part? turn = some part) :
    value.PartAtDefault (turn :: way) (turn :: way') := by
  obtain ⟨above, arguments, parameter, default, more, hnode, hkind, rfl, rfl, howns⟩ := h
  exact ⟨turn :: above, arguments, parameter, default, more, (nodeAt?_of_part hpart).trans hnode,
    hkind, rfl, rfl, howns⟩

theorem Separated.symm (h : value.Separated way way' node other s t) :
    value.Separated way' way other node t s :=
  h.elim (fun hapart => .inl hapart.symm) fun hcovers => .inr hcovers.symm

/-- Spans that are separated in a part are separated in what is above it. -/
theorem Separated.behind (h : part.Separated way way' node other s t)
    (hpart : value.part? turn = some part) :
    value.Separated (turn :: way) (turn :: way') node other s t :=
  h.imp_right (Or.imp (fun h => { h with default := h.default.behind hpart })
    fun h => { h with default := h.default.behind hpart })

/-- The nodes of a part are nodes of the value. -/
theorem nodes_of_part (h : value.part? turn = some part) :
    ∀ node ∈ part.nodes, node ∈ value.nodes := by
  intro node hnode
  obtain ⟨items, index, rfl, -, hitem⟩ | ⟨head, fields, name, rfl, -, hfield⟩ := part_cases h
  · exact mem_nodesOfItems.mpr ⟨part, List.mem_of_getElem? hitem, hnode⟩
  · exact List.mem_cons_of_mem _ (mem_nodesOfFields.mpr ⟨_, hfield, hnode⟩)

/-- The node at the end of a way is in the value. -/
theorem mem_nodes_of_nodeAt? (h : value.nodeAt? way = some node) : node ∈ value.nodes := by
  induction way generalizing value with
  | nil =>
      cases value with
      | node head fields =>
          cases h
          exact List.mem_cons_self
      | scalar | list | foreign => cases h
  | cons turn way ih =>
      obtain ⟨part, hpart, hnode⟩ := exists_part h
      exact nodes_of_part hpart node (ih hnode)

/-- A part of a neat value is neat. -/
theorem Neat.of_part {script : Script} (h : value.Neat script)
    (hpart : value.part? turn = some part) : part.Neat script :=
  fun node hnode => h node (nodes_of_part hpart node hnode)

/-- The span at the end of a way is among those of the value. -/
theorem mem_spans_of_nodeAt? (h : value.nodeAt? way = some node) (hs : node.head.span = some s) :
    s ∈ value.spans :=
  mem_spans.mpr ⟨node, mem_nodes_of_nodeAt? h, hs⟩

/-- A way into a list goes on from one of its items. -/
theorem exists_item {items : List Value} (h : (list items).nodeAt? way = some node) :
    ∃ index more item, way = .item index :: more ∧ items[index]? = some item ∧
      item.nodeAt? more = some node := by
  cases way with
  | nil => cases h
  | cons turn more =>
      obtain ⟨item, hpart, hnode⟩ := exists_part h
      obtain ⟨_, index, heq, rfl, hitem⟩ | ⟨_, _, _, hnone, -⟩ := part_cases hpart
      · cases heq
        exact ⟨index, more, item, rfl, hitem, hnode⟩
      · cases hnone

/-- Of what is at and below a parameter, only its own span covers what it governs. -/
theorem Governs.apart_or_within {v w : Value} (h : v.Governs w)
    (hnode : v.nodeAt? way = some node) (hs : node.head.span = some s) (ht : t ∈ w.spans) :
    s.Apart t ∨ (way = [] ∧ node.head.kind = .arg ∧ t.Within s) := by
  obtain ⟨head, fields, span, rfl, hkind, hspan, hwithin, hfields⟩ := h
  cases way with
  | nil =>
      cases hnode
      cases hspan.symm.trans hs
      exact .inr ⟨rfl, hkind, hwithin t ht⟩
  | cons turn more =>
      obtain ⟨part, hpart, hbelow⟩ := exists_part hnode
      obtain ⟨_, _, hnone, -⟩ | ⟨_, _, name, heq, -, hfield⟩ := part_cases hpart
      · cases hnone
      · cases heq
        exact .inl (hfields (name, part) hfield s (mem_spans_of_nodeAt? hbelow hs) t ht)

/-- Where ways part between parameters and their defaults, a span is apart from the other
or covers it as that of the own default. -/
theorem separated_of_governs {head : Head} {fields : Fields} {f g : String × Value}
    (h : Node.Governs ⟨head, fields⟩ f g) (hkind : head.kind = .arguments)
    (hnode : f.2.nodeAt? way = some node) (hother : g.2.nodeAt? way' = some other)
    (hs : node.head.span = some s) (ht : other.head.span = some t) :
    (Value.node head fields).Separated (.field f.1 :: way) (.field g.1 :: way') node other s t := by
  obtain ⟨parameters, defaults, hf, hg, hgoverns⟩ := h
  rw [hf] at hnode
  rw [hg] at hother
  obtain ⟨i, more, v, rfl, hv, hnode⟩ := exists_item hnode
  obtain ⟨j, more', w, rfl, hw, hother⟩ := exists_item hother
  have hspan := mem_spans_of_nodeAt? hnode hs
  have hspan' := mem_spans_of_nodeAt? hother ht
  rcases hgoverns i j v w hv hw with hapart | ⟨howns, hgoverns⟩
  · exact .inl (hapart s hspan t hspan')
  · refine (hgoverns.apart_or_within hnode hs hspan').imp_right ?_
    rintro ⟨rfl, hparameter, hwithin⟩
    exact .inl ⟨hparameter, hwithin, [], ⟨head, fields⟩, (f.1, i), (g.1, j), more', rfl, hkind,
      rfl, rfl, howns⟩

end Value

namespace Reading

open Value

variable {file : String} {lo hi start stop : Place} {value part : Value} {turn : Turn}
  {way way' : List Turn} {node other : Node} {s t : Span} {script : Script}

/-- What is in a field of a node lies between two places. -/
theorem FieldsLie.exists_lies {kind : Kind} {fields : Fields}
    (h : FieldsLie file kind lo hi start stop fields) :
    ∀ field ∈ fields, ∃ lo hi, Lies file lo hi field.2 := by
  induction fields with
  | nil => exact List.forall_mem_nil _
  | cons field rest ih =>
      cases h with
      | inside hvalue hrest | decorators hvalue hrest =>
          exact List.forall_mem_cons.mpr ⟨⟨_, _, hvalue⟩, ih hrest⟩

/-- A part of what lies between two places lies between two places. -/
theorem Lies.exists_lies (h : Lies file lo hi value) (hpart : value.part? turn = some part) :
    ∃ lo hi, Lies file lo hi part := by
  obtain ⟨items, index, rfl, -, hitem⟩ | ⟨head, fields, name, rfl, -, hfield⟩ := part_cases hpart
  · cases h with
    | list hitems => exact ⟨_, _, hitems.of_mem _ (List.mem_of_getElem? hitem)⟩
  · cases h with
    | unplaced _ _ _ hfields | placed _ _ _ _ _ hfields => exact hfields.exists_lies _ hfield

/-- Different items of a list are apart. -/
theorem apart_of_items {items : List Value} {i j : Nat} {v w : Value}
    (h : ItemsLie file lo hi items) (hne : i ≠ j) (hv : items[i]? = some v)
    (hw : items[j]? = some w) : v.Apart w := by
  obtain ⟨hi, rfl⟩ := List.getElem?_eq_some_iff.mp hv
  obtain ⟨hj, rfl⟩ := List.getElem?_eq_some_iff.mp hw
  have hapart := List.pairwise_iff_getElem.mp h.pairwise
  rcases Nat.lt_or_gt_of_ne hne with hlt | hlt
  · exact hapart i j hi hj hlt
  · exact (hapart j i hj hi hlt).symm

/-- Different fields of a node are apart. -/
theorem separates_of_fields {head : Head} {fields : Fields} {f g : String × Value}
    (h : (Value.node head fields).Neat script) (hne : f ≠ g) (hf : f ∈ fields) (hg : g ∈ fields) :
    Node.Separates ⟨head, fields⟩ f g := by
  have hsymm : Std.Symm (Node.Separates ⟨head, fields⟩) := ⟨fun _ _ => Node.Separates.symm⟩
  exact (neat_node.mp h).2.1.forall hf hg hne

/-- Where ways part, what is behind the one turn is apart from what is behind the
other. -/
theorem separated_of_turns {turn' : Turn} (hlies : Lies file lo hi value)
    (hneat : value.Neat script) (hturn : turn ≠ turn')
    (hnode : value.nodeAt? (turn :: way) = some node)
    (hother : value.nodeAt? (turn' :: way') = some other) (hs : node.head.span = some s)
    (ht : other.head.span = some t) :
    value.Separated (turn :: way) (turn' :: way') node other s t := by
  obtain ⟨part, hpart, hbehind⟩ := exists_part hnode
  obtain ⟨part', hpart', hbehind'⟩ := exists_part hother
  have hspan := mem_spans_of_nodeAt? hbehind hs
  have hspan' := mem_spans_of_nodeAt? hbehind' ht
  obtain ⟨items, i, rfl, rfl, hitem⟩ | ⟨head, fields, name, rfl, rfl, hfield⟩ := part_cases hpart
  · obtain ⟨_, j, heq, rfl, hitem'⟩ | ⟨_, _, _, hnone, -⟩ := part_cases hpart'
    · cases heq
      have hne : i ≠ j := fun heq => hturn (congrArg Turn.item heq)
      cases hlies with
      | list hitems => exact .inl (apart_of_items hitems hne hitem hitem' s hspan t hspan')
    · cases hnone
  · obtain ⟨_, _, hnone, -⟩ | ⟨_, _, name', heq, rfl, hfield'⟩ := part_cases hpart'
    · cases hnone
    · cases heq
      have hne : (name, part) ≠ (name', part') :=
        fun heq => hturn (congrArg (fun field => Turn.field field.1) heq)
      -- In parameters, the one field may hold the defaults of the other.
      rcases separates_of_fields hneat hne hfield hfield' with
        hapart | ⟨hkind, hgoverns | hgoverns⟩
      · exact .inl (hapart s hspan t hspan')
      · exact separated_of_governs hgoverns hkind hbehind hbehind' hs ht
      · exact (separated_of_governs hgoverns hkind hbehind' hbehind ht hs).symm

/-- **The spans at the ends of two ways are apart** if neither way goes on from the
other, but for those of parameters and of their own defaults. -/
theorem separated_of_ways (hlies : Lies file lo hi value) (hneat : value.Neat script)
    (hway : ¬ way <+: way') (hway' : ¬ way' <+: way) (hnode : value.nodeAt? way = some node)
    (hother : value.nodeAt? way' = some other) (hs : node.head.span = some s)
    (ht : other.head.span = some t) : value.Separated way way' node other s t := by
  induction way generalizing value way' lo hi with
  | nil => exact absurd List.nil_prefix hway
  | cons turn way ih =>
      cases way' with
      | nil => exact absurd List.nil_prefix hway'
      | cons turn' way' =>
          by_cases hturn : turn = turn'
          · subst hturn
            obtain ⟨part, hpart, hbehind⟩ := exists_part hnode
            obtain ⟨_, _, hliesPart⟩ := hlies.exists_lies hpart
            rw [nodeAt?_of_part hpart] at hother
            rw [List.prefix_cons_inj] at hway hway'
            exact (ih hliesPart (hneat.of_part hpart) hway hway' hbehind hother).behind hpart
          · exact separated_of_turns hlies hneat hturn hnode hother hs ht

end Reading

/-! ### All program texts -/

/-- The text of the source, and the phrase that it is matched by. -/
def Source.script (source : Source) (whole : Phrase) : Script :=
  ⟨source.name, source.text.toList, whole⟩

/-- The parts of what a text is matched by are sound. -/
theorem Source.MatchedBy.sound {source : Source} {whole : Phrase} (h : source.MatchedBy whole) :
    ∀ part ∈ whole.parts, part.Sound (source.script whole) := by
  obtain ⟨hrule, hformed⟩ := h.formed
  have hsound : whole.Sound (source.script whole) :=
    ⟨whole.mem_inner_self, h.inPlace, h.sharp, hformed⟩
  obtain ⟨rule, start, stop, text, parts⟩ := whole
  cases hrule
  exact hsound.below rfl

/-- **The span of a phrase inside a matched text covers the text of the phrase.** -/
theorem Source.MatchedBy.covered {source : Source} {whole : Phrase} (h : source.MatchedBy whole) :
    ∀ phrase ∈ whole.inner,
      (Reading.spanOf source.name phrase.start phrase.stop).covered source.text.toList =
        phrase.text := by
  intro phrase hphrase
  have hsharp := Phrase.forall_inner (fun _ h => h.parts) h.sharp phrase hphrase
  exact covered_of_sharp source.name hsharp (h.inPlace.inner phrase hphrase)

/-- **Spans cover phrases and do not overlap.**  In the tree of a program text the span of
a node is its extent inside the phrase of the text: over the phrase that the node is made
of, or from the start of a chain to the end of a phrase.  It begins with a token and ends
with one, or with all blanks behind it.  Of two nodes of which neither is above the other
the spans do not overlap, but that of a parameter goes on over its own default. -/
theorem spans_separated {source : Source} (hformat : source.format = .program)
    {counter next : Nat} {tree : Node} (h : source.tree.runFrom counter = (.ok tree, next)) :
    ∃ whole, source.MatchedBy whole ∧
      (∀ phrase ∈ whole.inner,
        (Reading.spanOf source.name phrase.start phrase.stop).covered source.text.toList =
          phrase.text) ∧
      (∀ node ∈ tree.toValue.nodes, ∀ span, node.head.span = some span →
        node.Covers source.name whole span ∧
          span.CutsAtTokens (!node.head.kind.isTight) source.text.toList) ∧
      ∀ way way' node other s t, tree.toValue.nodeAt? way = some node →
        tree.toValue.nodeAt? way' = some other → ¬ way <+: way' → ¬ way' <+: way →
        node.head.span = some s → other.head.span = some t →
        tree.toValue.Separated way way' node other s t := by
  obtain ⟨whole, body, last, hmatched, hfound, rfl⟩ := Source.tree_found hformat h
  have hbody := hfound.lies _ _ (Reading.along_parts hmatched.inPlace)
  have hlies : Reading.Lies source.name whole.start whole.stop
      (.node ⟨last, .module, none, none⟩ [("body", .list body), ("type_ignores", .list [])]) :=
    .unplaced nofun rfl rfl (.inside (.list hbody) (.inside (.list .nil) .nil))
  have hneatBody : (Reading.StatementFinding.all whole.parts body).IsNeat (source.script whole) :=
    hfound.neat
  have hneat : Value.Neat (source.script whole)
      (.node ⟨last, .module, none, none⟩ [("body", .list body), ("type_ignores", .list [])]) := by
    refine Value.neat_of_apart Reading.edged_bare ?_ ?_
    · simpa using Value.apart_no_spans rfl
    · simpa using hneatBody hmatched.sound
  refine ⟨whole, hmatched, hmatched.covered, fun node hnode span hspan => ?_, ?_⟩
  · have hedged := (hneat node hnode).edged
    exact ⟨hedged.covers hspan, hedged.cutsAtTokens hspan⟩
  · intro way way' node other s t hnode hother hway hway' hs ht
    exact Reading.separated_of_ways hlies hneat hway hway' hnode hother hs ht

/-- A parameter with a default, and a blank behind a statement. -/
theorem spans_separated_default :
    let source := Source.ofText "m" "def f(a=1):\n    x = a + 2 \n    return x\n" .program
    ∃ tree, (source.tree.runFrom 1).1 = .ok tree ∧
      (tree.toValue.nodes.filter fun node => node.head.span.isSome).length = 10 ∧
      ∃ whole, source.MatchedBy whole ∧
        (∀ phrase ∈ whole.inner,
          (Reading.spanOf source.name phrase.start phrase.stop).covered source.text.toList =
            phrase.text) ∧
        (∀ node ∈ tree.toValue.nodes, ∀ span, node.head.span = some span →
          node.Covers source.name whole span ∧
            span.CutsAtTokens (!node.head.kind.isTight) source.text.toList) ∧
        ∀ way way' node other s t, tree.toValue.nodeAt? way = some node →
          tree.toValue.nodeAt? way' = some other → ¬ way <+: way' → ¬ way' <+: way →
          node.head.span = some s → other.head.span = some t →
          tree.toValue.Separated way way' node other s t := by
  intro source
  obtain ⟨tree, hread, hlength⟩ :
      ∃ tree, (source.tree.runFrom 1).1 = .ok tree ∧
        (tree.toValue.nodes.filter fun node => node.head.span.isSome).length = 10 := by
    decide +kernel
  have hrun : source.tree.runFrom 1 = (.ok tree, (source.tree.runFrom 1).2) :=
    Prod.ext hread rfl
  exact ⟨tree, hread, hlength, spans_separated rfl hrun⟩

/-- The text of a statement goes on over the blank behind it, and the span of a
parameter over its default, which is not below it. -/
theorem spans_not_exact :
    (¬ ∀ source : Source, source.format = .program → ∀ counter next tree,
      source.tree.runFrom counter = (.ok tree, next) → ∀ node ∈ tree.toValue.nodes,
        ∀ span, node.head.span = some span →
          (∀ c ∈ (span.covered source.text.toList).head?, isLayout c = false) ∧
            ∀ c ∈ (span.covered source.text.toList).getLast?, isLayout c = false) ∧
    ¬ ∀ source : Source, source.format = .program → ∀ counter next tree,
      source.tree.runFrom counter = (.ok tree, next) → ∀ way way' node other s t,
        tree.toValue.nodeAt? way = some node → tree.toValue.nodeAt? way' = some other →
        ¬ way <+: way' → ¬ way' <+: way →
        node.head.span = some s → other.head.span = some t → s.Apart t := by
  constructor
  · intro h
    let source := Source.ofText "m" "def f():\n    x = 1 \n" .program
    let span : Span := ⟨⟨"m", 2, 4⟩, ⟨"m", 2, 10⟩⟩
    obtain ⟨tree, hread, hassign⟩ :
        ∃ tree, (source.tree.runFrom 1).1 = .ok tree ∧
          (tree.toValue.nodeAt? [.field "body", .item 0, .field "body", .item 0]).bind
            (fun node => node.head.span) = some span := by
      decide +kernel
    have hrun : source.tree.runFrom 1 = (.ok tree, (source.tree.runFrom 1).2) :=
      Prod.ext hread rfl
    have hcovered : span.covered source.text.toList = "x = 1 ".toList := by decide +kernel
    obtain ⟨node, hnode, hspan⟩ := Option.bind_eq_some_iff.mp hassign
    obtain ⟨-, hends⟩ :=
      h source rfl _ _ _ hrun node (Value.mem_nodes_of_nodeAt? hnode) span hspan
    rw [hcovered] at hends
    exact absurd (hends ' ' rfl) (by decide)
  · intro h
    let source := Source.ofText "m" "def f(a=1):\n    pass\n" .program
    let arguments : List Turn := [.field "body", .item 0, .field "args"]
    let parameter : Span := ⟨⟨"m", 1, 6⟩, ⟨"m", 1, 9⟩⟩
    let default : Span := ⟨⟨"m", 1, 8⟩, ⟨"m", 1, 9⟩⟩
    obtain ⟨tree, hread, hparameter, hdefault⟩ :
        ∃ tree, (source.tree.runFrom 1).1 = .ok tree ∧
          (tree.toValue.nodeAt? (arguments ++ [.field "args", .item 0])).bind
              (fun node => node.head.span) = some parameter ∧
            (tree.toValue.nodeAt? (arguments ++ [.field "defaults", .item 0])).bind
              (fun node => node.head.span) = some default := by
      decide +kernel
    have hrun : source.tree.runFrom 1 = (.ok tree, (source.tree.runFrom 1).2) :=
      Prod.ext hread rfl
    obtain ⟨node, hnode, hs⟩ := Option.bind_eq_some_iff.mp hparameter
    obtain ⟨other, hother, ht⟩ := Option.bind_eq_some_iff.mp hdefault
    have hapart := h source rfl _ _ _ hrun _ _ node other parameter default hnode hother
      (by decide) (by decide) hs ht
    rcases hapart with ⟨-, hle⟩ | ⟨-, hle⟩
    · revert hle
      decide
    · revert hle
      decide

end FunctionIR
