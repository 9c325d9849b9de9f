import FunctionIR.Proofs.Command.Files
import FunctionIR.Proofs.Layout.Edges
import FunctionIR.Proofs.Reading.Functions
import FunctionIR.Proofs.Translation.Discounting
import FunctionIR.Proofs.Translation.Mirroring
import FunctionIR.Proofs.Translation.Qualification

/-!
# What a qualified name tells

A qualified name is made of the names of the functions around, with underscores
between them.  A name can have underscores of its own, so the names cannot be
told from the qualified name.  What can be told is the **words** of the names,
the pieces between underscores (`wordsOf`), all in one row: two rows of names
make the same qualified name just if they have the same words
(`join_eq_iff`).  Without underscores in the names each name is one word, and
then the names can be told.

The names must not be empty for this, since no name at all and one that is empty
are joined alike.  In a program text they are not: a name is read from a word of
the text, and this begins with a token (`Source.named`).
-/

namespace FunctionIR

/-! ### Words -/

/-- The pieces of a name between underscores. -/
def wordsOf (name : String) : List (List Char) := name.toList.splitOn '_'

section

variable {name : String} {names names' : List String}

/-- A name without underscores is one word. -/
theorem wordsOf_of_notMem (h : '_' ∉ name.toList) : wordsOf name = [name.toList] :=
  List.splitOn_eq_singleton h

/-- Names without an underscore are one word each. -/
theorem flatMap_wordsOf (h : ∀ name ∈ names, '_' ∉ name.toList) :
    names.flatMap wordsOf = names.map String.toList := by
  induction names with
  | nil => rfl
  | cons name rest ih =>
      obtain ⟨hname, hrest⟩ := List.forall_mem_cons.mp h
      rw [List.flatMap_cons, wordsOf_of_notMem hname, ih hrest]
      rfl

/-- Every name has a word. -/
theorem flatMap_wordsOf_eq_nil_iff : names.flatMap wordsOf = [] ↔ names = [] := by
  refine ⟨fun h => ?_, by rintro rfl; rfl⟩
  cases names with
  | nil => rfl
  | cons name rest =>
      rw [List.flatMap_cons] at h
      exact absurd (List.append_eq_nil_iff.mp h).1 (List.splitOn_ne_nil _ _)

/-- The characters of the joined names. -/
def joined (names : List String) : List Char := ['_'].intercalate (names.map String.toList)

/-- The characters of joined names. -/
theorem toList_join (names : List String) : ("_".intercalate names).toList = joined names := by
  rw [String.toList_intercalate]
  rfl

/-- The words of the joined names are those of the names. -/
theorem splitOn_joined (h : names ≠ []) : (joined names).splitOn '_' = names.flatMap wordsOf := by
  induction names with
  | nil => exact absurd rfl h
  | cons name rest ih =>
      cases rest with
      | nil => simp [joined, wordsOf]
      | cons next rest =>
          have hjoin : joined (name :: next :: rest) = name.toList ++ '_' :: joined (next :: rest) := by
            simp [joined]
          rw [hjoin, List.splitOn_append_cons_self, ih (List.cons_ne_nil _ _), List.flatMap_cons]
          rfl

/-- Only no names at all are joined to nothing. -/
theorem joined_eq_nil_iff (h : ∀ name ∈ names, name ≠ "") : joined names = [] ↔ names = [] := by
  refine ⟨fun hjoin => ?_, by rintro rfl; rfl⟩
  cases names with
  | nil => rfl
  | cons name rest =>
      have hname : name.toList ≠ [] := fun heq =>
        (List.forall_mem_cons.mp h).1 (String.toList_eq_nil_iff.mp heq)
      cases rest with
      | nil => exact absurd (by simpa [joined] using hjoin) hname
      | cons next rest => simp [joined] at hjoin

/-- **The words are what a joined name tells**, where no name is empty. -/
theorem join_eq_iff (h : ∀ name ∈ names, name ≠ "") (h' : ∀ name ∈ names', name ≠ "") :
    "_".intercalate names = "_".intercalate names' ↔
      names.flatMap wordsOf = names'.flatMap wordsOf := by
  rw [← String.toList_inj, toList_join, toList_join]
  constructor
  · intro hjoin
    by_cases hnames : names = []
    · have hnil := (joined_eq_nil_iff h).mpr hnames
      rw [hnames, (joined_eq_nil_iff h').mp (hjoin.symm.trans hnil)]
    · have hnames' : names' ≠ [] := fun hnil =>
        hnames ((joined_eq_nil_iff h).mp (hjoin.trans ((joined_eq_nil_iff h').mpr hnil)))
      rw [← splitOn_joined hnames, ← splitOn_joined hnames', hjoin]
  · intro hwords
    by_cases hnames : names = []
    · have hnil := flatMap_wordsOf_eq_nil_iff.mpr hnames
      rw [hnames, flatMap_wordsOf_eq_nil_iff.mp (hwords.symm.trans hnil)]
    · have hnames' : names' ≠ [] := fun hnil =>
        hnames (flatMap_wordsOf_eq_nil_iff.mp (hwords.trans (flatMap_wordsOf_eq_nil_iff.mpr hnil)))
      calc joined names = ['_'].intercalate ((joined names).splitOn '_') :=
            (List.intercalate_splitOn _).symm
        _ = ['_'].intercalate ((joined names').splitOn '_') := by
            rw [splitOn_joined hnames, splitOn_joined hnames', hwords]
        _ = joined names' := List.intercalate_splitOn _

end

/-! ### Names in a program text -/

namespace Grammar.Phrase

variable {phrase : Phrase} {whole : List Char}

/-- A phrase that begins with a token has text. -/
theorem Sharp.text_ne_nil (h : phrase.Sharp whole) (hopens : phrase.rule.opens = true) :
    phrase.text ≠ [] := by
  cases h with
  | mk _ _ _ hedges => exact (hedges hopens).2

end Grammar.Phrase

/-- The names of the functions in the value have the property. -/
def Value.Named (P : String → Prop) (value : Value) : Prop :=
  ∀ function ∈ value.functions, ∀ name, function.textField? "name" = some name → P name

/-- **No function of a program text has an empty name.** -/
theorem Source.named {source : Source} (hformat : source.format = .program)
    {counter next : Nat} {tree : Node} (h : source.tree.runFrom counter = (.ok tree, next)) :
    tree.toValue.Named (· ≠ "") := by
  obtain ⟨whole, hmatched, hread⟩ := Source.functions_found hformat h
  intro function hfunction name hname
  obtain ⟨written, hwritten, hfrom⟩ : ∃ written ∈ whole.functions,
      Reading.ReadFrom source.name written function := by
    obtain ⟨i, hi, rfl⟩ := List.getElem_of_mem hfunction
    have hlength := hread.length_eq
    exact ⟨_, List.getElem_mem (by rw [hlength]; exact hi), hread.get (by rw [hlength]; exact hi) hi⟩
  obtain ⟨word, hword, hrule, htext⟩ := hfrom.name
  have hinner := List.mem_of_mem_filter hwritten
  have hsharp := Grammar.Phrase.forall_inner (fun _ h => h.parts) hmatched.sharp written hinner
  have hne := (hsharp.parts word hword).text_ne_nil (by rw [hrule]; rfl)
  rw [htext] at hname
  cases hname
  exact fun hempty => hne (String.ofList_eq_empty_iff.mp hempty)

/-! ### Names in a fragment -/

open Fragment (Within)

/-- The names of the functions around a function in the fragment have the property. -/
def Fragment.Encloses (P : String → Prop) (fragment : Fragment) : Prop :=
  ∀ names g, Within names g fragment → ∀ name ∈ names, P name

section

variable {P : String → Prop}

namespace Value

/-- A list is named if its items are. -/
theorem named_list {items : List Value} :
    (Value.list items).Named P ↔ ∀ item ∈ items, item.Named P := by
  simp only [Named, functions, nodes, List.mem_filter, mem_nodesOfItems]
  constructor
  · intro h item hitem function hfunction
    exact h function ⟨⟨item, hitem, hfunction.1⟩, hfunction.2⟩
  · rintro h function ⟨⟨item, hitem, hnode⟩, hkind⟩
    exact h item hitem function ⟨hnode, hkind⟩

/-- What is in the fields of a named node is named. -/
theorem Named.fields {head : Head} {members : Fields} (h : (Value.node head members).Named P) :
    ∀ field ∈ members, field.2.Named P := by
  intro field hfield function hfunction
  refine h function (List.mem_filter.mpr ⟨List.mem_cons_of_mem _ ?_, ?_⟩)
  · exact mem_nodesOfFields.mpr ⟨field, hfield, (List.mem_filter.mp hfunction).1⟩
  · exact (List.mem_filter.mp hfunction).2

variable {head : Head} {fields : Fields} {name : String}

/-- What is in one field of a named node is named. -/
theorem Named.field {value : Value} (h : (Value.node head fields).Named P)
    (hvalue : Members.get? name fields = some value) : value.Named P :=
  h.fields _ (Exchange.mem_of_get? hvalue)

/-- A field, or a value without functions. -/
theorem Named.getD {absent : Value} (h : (Value.node head fields).Named P)
    (habsent : absent.functions = []) : ((Members.get? name fields).getD absent).Named P := by
  cases hvalue : Members.get? name fields with
  | none =>
      intro function hfunction
      rw [Option.getD_none, habsent] at hfunction
      cases hfunction
  | some value => exact h.field hvalue

end Value

mutual

/-- **The names around a function come from the value** that is mirrored. -/
theorem MirroredBy.encloses : {value : Value} → {fragment : Fragment} →
    MirroredBy value fragment → value.Named P → fragment.Encloses P
  | _, _, .scalar _, _ => fun _ _ h => nomatch h
  | _, _, .list hitems, h => fun names g hg => by
      cases hg with
      | item hmem hg => exact hitems.encloses (Value.named_list.mp h) _ hmem names g hg
  | _, _, .module _ hbody hfirst, h =>
      hfirst.encloses (Value.named_list.mp (h.field hbody) _ List.mem_cons_self)
  | .node head fields, _, .function hkind hname _ _ _ hdecorators harguments hreturns hbody hitems,
      h => fun names g hg => by
      cases hg with
      | here => exact List.forall_mem_nil _
      | decorators hg => exact hdecorators.encloses (h.getD rfl) names g hg
      | arguments hg => exact harguments.encloses (h.getD rfl) names g hg
      | returns hg => exact hreturns.encloses (h.getD rfl) names g hg
      | body hmem hg =>
          have hself : ⟨head, fields⟩ ∈ (Value.node head fields).functions := by
            rw [Value.functions_function hkind]
            exact List.mem_cons_self
          refine List.forall_mem_cons.mpr ⟨h _ hself _ ?_, ?_⟩
          · rw [Node.textField?, Node.field?, hname]
            rfl
          · exact hitems.encloses (Value.named_list.mp (h.field hbody)) _ hmem _ g hg
  | _, _, .generic _ hfields, h => fun names g hg => by
      cases hg with
      | field hmem hg => exact hfields.encloses h.fields _ hmem names g hg

theorem ItemsMirroredBy.encloses : {items : List Value} → {fragments : List Fragment} →
    ItemsMirroredBy items fragments → (∀ item ∈ items, item.Named P) →
    ∀ fragment ∈ fragments, fragment.Encloses P
  | _, _, .nil, _ => List.forall_mem_nil _
  | _, _, .cons hitem hrest, h =>
      List.forall_mem_cons.mpr ⟨hitem.encloses (List.forall_mem_cons.mp h).1,
        hrest.encloses (List.forall_mem_cons.mp h).2⟩

theorem FieldsMirroredBy.encloses : {fields : Fields} → {fragments : List (String × Fragment)} →
    FieldsMirroredBy fields fragments → (∀ field ∈ fields, field.2.Named P) →
    ∀ field ∈ fragments, field.2.Encloses P
  | _, _, .nil, _ => List.forall_mem_nil _
  | _, _, .cons hvalue hrest, h =>
      List.forall_mem_cons.mpr ⟨hvalue.encloses (List.forall_mem_cons.mp h).1,
        hrest.encloses (List.forall_mem_cons.mp h).2⟩

end

/-! ### Names on other lines -/

mutual

/-- A move of lines changes no name. -/
theorem Value.Named.onLines (f : Nat → Nat) : (value : Value) → value.Named P →
    (value.onLines f).Named P
  | .scalar _, h | .foreign _, h => h
  | .list items, h => Value.named_list.mpr (Value.named_onLinesItems f items (Value.named_list.mp h))
  | .node head fields, h => by
      intro function hfunction name hname
      obtain ⟨hnode, hkind⟩ := List.mem_filter.mp hfunction
      rcases List.mem_cons.mp hnode with rfl | hnode
      · rw [Node.textField?, Node.field?, text_onLinesFields] at hname
        refine h ⟨head, fields⟩ ?_ name hname
        exact List.mem_filter.mpr ⟨List.mem_cons_self, hkind⟩
      · obtain ⟨field, hfield, hnode⟩ := Value.mem_nodesOfFields.mp hnode
        exact Value.named_onLinesFields f fields h.fields field hfield function
          (List.mem_filter.mpr ⟨hnode, hkind⟩) name hname

theorem Value.named_onLinesItems (f : Nat → Nat) : (items : List Value) →
    (∀ item ∈ items, item.Named P) → ∀ item ∈ Value.onLinesItems f items, item.Named P
  | [], _ => List.forall_mem_nil _
  | item :: rest, h =>
      List.forall_mem_cons.mpr ⟨Value.Named.onLines f item (List.forall_mem_cons.mp h).1,
        Value.named_onLinesItems f rest (List.forall_mem_cons.mp h).2⟩

theorem Value.named_onLinesFields (f : Nat → Nat) : (fields : Fields) →
    (∀ field ∈ fields, field.2.Named P) → ∀ field ∈ Value.onLinesFields f fields, field.2.Named P
  | [], _ => List.forall_mem_nil _
  | (_, value) :: rest, h =>
      List.forall_mem_cons.mpr ⟨Value.Named.onLines f value (List.forall_mem_cons.mp h).1,
        Value.named_onLinesFields f rest (List.forall_mem_cons.mp h).2⟩

end

/-- The preparation of a tree changes no name. -/
theorem Value.Named.prepared {tree : Node} (h : tree.toValue.Named P) (discount : Bool) :
    (tree.prepare discount).toValue.Named P := by
  rw [Node.prepare.eq_def]
  split
  · rw [Node.shift_eq_onLines]
    exact h.onLines _
  · exact h

end

/-! ### Calls of a session -/

section

variable {session : Session} {source : Source} {tree : Node} {function : Function}

/-- A source that is loaded and translated has been read, and its prepared tree has been
translated at the top of a session with the same choices. -/
theorem Session.loadAndTranslate_eq_ok
    (h : (session.loadAndTranslate source).1 = .ok (tree, function)) :
    (∃ original, (source.tree.runFrom session.nextNode).1 = .ok original ∧
      tree = original.prepare session.config.discountDecorators) ∧
    ∃ ready : Session, ready.config = session.config ∧ (ready.translate tree).1 = .ok function := by
  have hload := session.load_fst source
  have hconfig := (session.reads_load source).config
  rw [Session.read_fst] at hload
  rw [Session.loadAndTranslate] at h
  generalize session.load source = loaded at h hload hconfig
  obtain ⟨outcome, ready⟩ := loaded
  cases outcome with
  | error fault => cases h
  | ok prepared =>
      cases houtcome : (ready.translate prepared).1 with
      | error fault =>
          simp only [houtcome] at h
          cases h
      | ok translated =>
          simp only [houtcome] at h
          cases h
          refine ⟨?_, ready, hconfig, houtcome⟩
          cases hread : (source.tree.runFrom session.nextNode).1 with
          | error fault =>
              rw [hread] at hload
              cases hload
          | ok original =>
              rw [hread] at hload
              cases hload
              exact ⟨original, rfl, rfl⟩

/-- No function in the outcome of a translation is around another one under an empty
name, if the source is a program text. -/
theorem names_ne_empty (hformat : source.format = .program)
    (h : (session.loadAndTranslate source).1 = .ok (tree, function)) :
    function.toFragment.Encloses (· ≠ "") := by
  obtain ⟨⟨original, hread, rfl⟩, ready, -, htranslate⟩ := Session.loadAndTranslate_eq_ok h
  have hnamed := (Source.named hformat (Prod.ext hread rfl)).prepared
    session.config.discountDecorators
  rw [(ready.translate_atTop _).1] at htranslate
  obtain ⟨hfollow, hrendered⟩ := Session.translateIn_eq_ok.mp htranslate
  have hmirrored := mirroredBy_rendered _ 0 ready.atTop.translator.scope
    ready.atTop.translator.nextId ((unrefused_iff_follow ready.atTop.translator).mpr hfollow)
  rw [hrendered] at hmirrored
  exact hmirrored.encloses hnamed

/-- With the standard choices the names around a function are joined by underscores. -/
theorem qualified_join (hconfig : session.config = .standard)
    (h : (session.loadAndTranslate source).1 = .ok (tree, function)) {names : List String}
    {g : FunctionHead} (hg : Within names g function.toFragment) (hnames : ∀ name ∈ names, name ≠ "") :
    g.qualifiedName = "_".intercalate names := by
  obtain ⟨-, ready, hready, htranslate⟩ := Session.loadAndTranslate_eq_ok h
  rw [(ready.translate_atTop _).1] at htranslate
  rw [← (Session.translateIn_eq_ok.mp htranslate).2] at hg
  rw [rendered_qualified _ _ _ names g hg, Scope.qualify,
    List.filter_eq_self.mpr fun name hname => decide_eq_true (hnames name hname)]
  simp only [Session.atTop, Scope.top, hready, hconfig, Config.standard, List.nil_append]
  rfl

/-- **What a qualified name tells.**  In the outcome of a program text that is translated
with the standard choices, two functions have the same qualified name just if the names
around the one and around the other have the same words.  So the names are the same if
none of them has an underscore. -/
theorem words_of_qualifiedName (hconfig : session.config = .standard)
    (hformat : source.format = .program)
    (h : (session.loadAndTranslate source).1 = .ok (tree, function)) :
    ∀ names g names' g', Within names g function.toFragment →
      Within names' g' function.toFragment →
      (g.qualifiedName = g'.qualifiedName ↔ names.flatMap wordsOf = names'.flatMap wordsOf) ∧
      ((∀ name ∈ names ++ names', '_' ∉ name.toList) → g.qualifiedName = g'.qualifiedName →
        names = names') := by
  intro names g names' g' hg hg'
  have hnames := names_ne_empty hformat h names g hg
  have hnames' := names_ne_empty hformat h names' g' hg'
  have hwords : g.qualifiedName = g'.qualifiedName ↔
      names.flatMap wordsOf = names'.flatMap wordsOf := by
    rw [qualified_join hconfig h hg hnames, qualified_join hconfig h hg' hnames',
      join_eq_iff hnames hnames']
  refine ⟨hwords, fun hplain heq => ?_⟩
  obtain ⟨hplain, hplain'⟩ := List.forall_mem_append.mp hplain
  have hsame := hwords.mp heq
  rw [flatMap_wordsOf hplain, flatMap_wordsOf hplain'] at hsame
  exact (List.map_inj_right fun _ _ => String.toList_inj.mp).mp hsame

end

/-- Two functions in a third, one of them two deep: the names around are different, and so
are the qualified names. -/
theorem words_of_qualifiedName_nested :
    let source := Source.ofText "m" ("def f():\n    def g():\n        pass\n" ++
      "    def h():\n        def g():\n            pass\n") .program
    let session := Session.begin .standard "_"
    ∃ tree function g g', (session.loadAndTranslate source).1 = .ok (tree, function) ∧
      Within ["f"] g function.toFragment ∧ Within ["f", "h"] g' function.toFragment ∧
      (g.qualifiedName = g'.qualifiedName ↔
        ["f"].flatMap wordsOf = ["f", "h"].flatMap wordsOf) ∧
      ((∀ name ∈ ["f"] ++ ["f", "h"], '_' ∉ name.toList) → g.qualifiedName = g'.qualifiedName →
        ["f"] = ["f", "h"]) := by
  intro source session
  obtain ⟨⟨tree, function⟩, hok, ⟨inner, hinner, hnames⟩, ⟨inner', hinner', hnames'⟩⟩ :
      ∃ found, (session.loadAndTranslate source).1 = .ok found ∧
        (∃ inner ∈ found.2.toFragment.around, inner.1 = ["f"]) ∧
        ∃ inner ∈ found.2.toFragment.around, inner.1 = ["f", "h"] := by
    decide +kernel
  have hwithin := Fragment.within_of_mem_around _ inner hinner
  have hwithin' := Fragment.within_of_mem_around _ inner' hinner'
  rw [hnames] at hwithin
  rw [hnames'] at hwithin'
  exact ⟨tree, function, inner.2, inner'.2, hok, hwithin, hwithin',
    words_of_qualifiedName rfl rfl hok _ _ _ _ hwithin hwithin'⟩

/-- A function in a_b, and one in b in a: both are in f, and both are called f_a_b. -/
theorem qualifiedName_ambiguous :
    ¬ ∀ (session : Session) (source : Source) (tree : Node) (function : Function),
      session.config = .standard → source.format = .program →
      (session.loadAndTranslate source).1 = .ok (tree, function) →
      ∀ names g names' g', Within names g function.toFragment →
        Within names' g' function.toFragment → g.qualifiedName = g'.qualifiedName →
        names = names' := by
  intro h
  obtain ⟨⟨tree, function⟩, hok, inner, hinner, inner', hinner', heq, hne⟩ :
      ∃ found, ((Session.begin .standard "_").loadAndTranslate (Source.ofText "m"
          ("def f():\n    def a_b():\n        def x(): pass\n" ++
            "    def a():\n        def b():\n            def y(): pass\n") .program)).1 = .ok found ∧
        ∃ inner ∈ found.2.toFragment.around, ∃ inner' ∈ found.2.toFragment.around,
          inner.2.qualifiedName = inner'.2.qualifiedName ∧ inner.1 ≠ inner'.1 := by
    decide +kernel
  exact hne (h _ _ tree function rfl rfl hok _ _ _ _
    (Fragment.within_of_mem_around _ inner hinner)
    (Fragment.within_of_mem_around _ inner' hinner') heq)

end FunctionIR
