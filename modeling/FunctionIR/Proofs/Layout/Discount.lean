import FunctionIR.Proofs.Layout.Decorators
import FunctionIR.Proofs.Reading.StatementFitting

/-!
# Discounting decorators

The lines of a decorated function are reported as if its decorators were not
there: the tree that a text is loaded as is the tree of the same text without
the lines of the decorators, but for the list of the decorators itself
(`load_undecorated`).

Both trees are read from phrases that are alike, so many lines apart as the
decorators have (`plain_of_decorated`).  The discount finds this number in the
tree, as the distance from the first decorator to the function, and moves all
lines by it.
-/

namespace FunctionIR

open Grammar Numbered

/-! ### Trees without decorators -/

/-- A function without its decorators. -/
def Value.undecorated : Value → Value
  | .node head fields => .node head (Members.set "decorator_list" (.list []) fields)
  | value => value

/-- A module whose first statement is without its decorators. -/
def Node.undecorated (tree : Node) : Node :=
  match tree.fields with
  | (name, .list (first :: rest)) :: more =>
    ⟨tree.head, (name, .list (first.undecorated :: rest)) :: more⟩
  | _ => tree

/-- The line of the first decorator of a function. -/
def Node.decoratorLine? (function : Node) : Option Nat := do
  let decorators ← function.listField? "decorator_list"
  let first ← decorators.head?
  let node ← first.asNode
  node.line?

section

variable {f : Nat → Nat}

/-- Moving the lines of fields passes through setting one of them. -/
theorem Value.onLinesFields_set (name : String) (value : Value) (fields : Fields) :
    Value.onLinesFields f (Members.set name value fields) =
      Members.set name (value.onLines f) (Value.onLinesFields f fields) := by
  induction fields with
  | nil => rfl
  | cons field rest ih =>
      obtain ⟨key, old⟩ := field
      rw [Members.set, Value.onLinesFields, Members.set]
      split
      · rfl
      · rw [Value.onLinesFields, ih]

/-- The decorators may be dropped before or after lines are moved. -/
theorem Value.undecorated_onLines (value : Value) :
    (value.onLines f).undecorated = value.undecorated.onLines f := by
  cases value with
  | node head fields =>
      rw [Value.onLines, Value.undecorated, Value.undecorated, Value.onLines,
        Value.onLinesFields_set]
      rfl
  | scalar | list | foreign => rfl

/-- Decorators are taken out before or after lines are changed. -/
theorem Node.undecorated_onLines (tree : Node) :
    (tree.onLines f).undecorated = tree.undecorated.onLines f := by
  obtain ⟨head, fields⟩ := tree
  cases fields with
  | nil => rfl
  | cons field more =>
      obtain ⟨name, value⟩ := field
      cases value with
      | scalar | node | foreign => rfl
      | list items =>
          cases items with
          | nil => rfl
          | cons first rest =>
              change Node.mk _ ((name, .list ((first.onLines f).undecorated :: _)) :: _) = _
              rw [Value.undecorated_onLines]
              rfl

end

/-! ### Moving by lines -/

/-- A shift of a head is a move of its lines. -/
theorem Head.shift_eq_onLines (delta : Int) (head : Head) :
    head.shift delta = head.onLines (shiftLine delta) := rfl

mutual

/-- A shift of a value is a move of its lines. -/
theorem Value.shift_eq_onLines (delta : Int) : (value : Value) →
    value.shift delta = value.onLines (shiftLine delta)
  | .scalar _ => rfl
  | .node head fields => by
      rw [Value.shift, Value.onLines, Value.shiftFields_eq_onLines, Head.shift_eq_onLines]
  | .list items => by
      rw [Value.shift, Value.onLines, Value.shiftItems_eq_onLines]
  | .foreign _ => rfl

/-- A shift of items is a move of their lines. -/
theorem Value.shiftItems_eq_onLines (delta : Int) : (items : List Value) →
    Value.shiftItems delta items = Value.onLinesItems (shiftLine delta) items
  | [] => rfl
  | item :: rest => by
      rw [Value.shiftItems, Value.onLinesItems, Value.shift_eq_onLines,
        Value.shiftItems_eq_onLines]

/-- A shift of fields is a move of their lines. -/
theorem Value.shiftFields_eq_onLines (delta : Int) : (fields : Fields) →
    Value.shiftFields delta fields = Value.onLinesFields (shiftLine delta) fields
  | [] => rfl
  | (name, value) :: rest => by
      rw [Value.shiftFields, Value.onLinesFields, Value.shift_eq_onLines,
        Value.shiftFields_eq_onLines]

end

/-- To move a tree is to change its lines. -/
theorem Node.shift_eq_onLines (delta : Int) (tree : Node) :
    tree.shift delta = tree.onLines (shiftLine delta) := by
  rw [Node.shift, Node.onLines, Value.shiftFields_eq_onLines, Head.shift_eq_onLines]

/-! ### Reading with and without decorators -/

namespace Numbered

variable {α β α' : Type} {R : α → α' → Prop} {S : β → α' → Prop}

/-- What is done to the value at the end can be done afterwards. -/
theorem Mirrors.of_map {g : α → β} {m : Numbered α} {m' : Numbered α'}
    (h : Mirrors S (do let a ← m; return g a) m') : Mirrors (fun a a' => S (g a) a') m m' := by
  intro counter a next hrun counter'
  refine h counter (g a) next ?_ counter'
  simp only [runFrom, ExceptT.run_bind, StateT.run_bind] at hrun ⊢
  rw [hrun]
  rfl

end Numbered

namespace Reading

variable {file : String} {f : Nat → Nat} {E : Place → Place → Prop}
  {start start' stop stop' : Place} {chars chars' : List Char} {parts parts' : List Phrase}
  {decorators others others' : List Phrase} {before : List Value}

/-- Decorators make no difference to a function but that they are listed. -/
theorem toNode_undecorated (parts : FunctionParts) (before : List Value) :
    (do let function ← parts.toNode file before start stop
        return function.undecorated) = parts.toNode file [] start stop := by
  have hset : ∀ arguments head, (parts.node before arguments head).undecorated =
      parts.node [] arguments head := by
    intro arguments head
    simp [FunctionParts.node, Value.undecorated, Members.set]
  simp only [FunctionParts.toNode_eq, bind_assoc, pure_bind, hset]

/-- The node of a function stands at the start of its phrase. -/
theorem yields_toNode (parts : FunctionParts) (before : List Value) :
    (parts.toNode file before start stop).Yields fun function =>
      ∃ head fields, function = .node head fields ∧ head.kind = .functionDef ∧
        head.location = some (locate file start) := by
  rw [FunctionParts.toNode_eq]
  exact (yields_any _).bind fun arguments _ => (yields_head .functionDef _ _).bind fun head hhead =>
    .pure ⟨head, _, rfl, hhead.1, hhead.2.1⟩

/-- What is read after the decorators of a function. -/
def afterDecorators (file : String) (found : List Value) (start stop : Place) (parts : List Phrase) :
    Numbered (List Value) := do
  let parts ← functionParts file parts ⟨"", none, none, []⟩
  let function ← parts.toNode file found start stop
  return [function]

/-- The decorators of a function are read before it. -/
theorem decorated_run (hinline : ∀ decorator ∈ decorators, decorator.Inline) {counter next : Nat}
    {values : List Value}
    (h : (decorated file (decorators ++ [.mk .functionDef start stop chars parts]) before).runFrom
      counter = (.ok values, next)) :
    ∃ found counter', (afterDecorators file found start stop parts).runFrom counter' =
      (.ok values, next) := by
  induction decorators generalizing before counter with
  | nil =>
      rw [List.nil_append, decorated] at h
      exact ⟨before, counter, h⟩
  | cons decorator rest ih =>
      obtain ⟨hfirst, hrest⟩ := List.forall_mem_cons.mp hinline
      rw [List.cons_append, decorated.eq_def] at h
      split at h
      next heq =>
        cases heq
        obtain ⟨value, last, -, h⟩ := runFrom_bind h
        exact ih hrest h
      next heq =>
        cases heq
        cases hfirst.rule
      next => cases h
      next heq => cases heq

/-- A decorated function is at the place of its `def`. -/
theorem decorated_yields (hinline : ∀ decorator ∈ decorators, decorator.Inline) :
    (decorated file (decorators ++ [.mk .functionDef start stop chars parts]) before).Yields
      fun values => ∃ head fields, values = [.node head fields] ∧ head.kind = .functionDef ∧
        head.location = some (locate file start) := by
  intro counter values next h
  obtain ⟨found, counter', h⟩ := decorated_run hinline h
  have hyields : (afterDecorators file found start stop parts).Yields fun values =>
      ∃ head fields, values = [.node head fields] ∧ head.kind = .functionDef ∧
        head.location = some (locate file start) := by
    refine (yields_any _).bind fun p _ => (yields_toNode p found).bind fun function hfunction =>
      .pure ?_
    obtain ⟨head, fields, rfl, hhead⟩ := hfunction
    exact ⟨head, fields, rfl, hhead⟩
  exact hyields counter' values next h

/-- **A function is read alike without its decorators.** -/
theorem decorated_mirrors (hE : OnLines f E) (hinline : ∀ decorator ∈ decorators, decorator.Inline)
    (hstart : E start start') (hstop : E stop stop') (hparts : AllAlike E parts parts') :
    Mirrors (fun values values' => ∃ function function', values = [function] ∧
        values' = [function'] ∧ Moves f function.undecorated function')
      (decorated file (decorators ++ [.mk .functionDef start stop chars parts]) before)
      (statements file (.mk .functionDef start' stop' chars' parts')) := by
  intro counter values next h
  obtain ⟨found, counter', h⟩ := decorated_run hinline h
  have hmirrors : Mirrors (fun values values' => ∃ function function', values = [function] ∧
        values' = [function'] ∧ Moves f function.undecorated function')
      (afterDecorators file found start stop parts) (afterDecorators file [] start' stop' parts') := by
    refine (functionParts_move hE.locates _ _ hparts ⟨rfl, .none, .none, .nil⟩).bind fun p p' hp => ?_
    have hnode : Mirrors (fun function function' => Moves f function.undecorated function')
        (p.toNode file found start stop) (p'.toNode file [] start' stop') := by
      refine Mirrors.of_map ?_
      rw [toNode_undecorated]
      exact hp.toNode hE.locates hstart hstop .nil
    exact hnode.bind fun function function' hfunction =>
      .pure ⟨function, function', rfl, rfl, hfunction⟩
  rw [statements]
  exact hmirrors counter' values next h

/-- **A text is read alike without the decorators** of its first statement. -/
theorem moduleTree_undecorated (hE : OnLines f E)
    (hinline : ∀ decorator ∈ decorators, decorator.Inline) (hstart : E start start')
    (hstop : E stop stop') (hparts : AllAlike E parts parts') (hothers : AllAlike E others others')
    {first first' : Phrase} (hfirst : statements file first =
      decorated file (decorators ++ [.mk .functionDef start stop chars parts]) [])
    (hfirst' : statements file first' = statements file (.mk .functionDef start' stop' chars' parts')) :
    Mirrors (fun tree tree' => tree.undecorated.Moves f tree')
      (moduleTree file (first :: others)) (moduleTree file (first' :: others')) := by
  rw [moduleTree, moduleTree, allStatements.eq_def, allStatements.eq_def]
  simp only [hfirst, hfirst', bind_assoc, pure_bind]
  refine (decorated_mirrors hE hinline hstart hstop hparts).bind ?_
  rintro _ _ ⟨function, function', rfl, rfl, hfunction⟩
  exact (allStatements_move hE.locates _ _ hothers).bind fun _ _ hbody =>
    (mirrors_head .module .none .none).bind fun _ _ hhead =>
    .pure ⟨hhead, .cons (.list (.cons hfunction hbody)) (.cons (.list .nil) .nil)⟩

/-- The leading function of such a text is the decorated one. -/
theorem moduleTree_leading (hinline : ∀ decorator ∈ decorators, decorator.Inline) {first : Phrase}
    (hfirst : statements file first =
      decorated file (decorators ++ [.mk .functionDef start stop chars parts]) []) :
    (moduleTree file (first :: others)).Yields fun tree =>
      tree.leadingFunction.bind (·.head.location) = some (locate file start) := by
  rw [moduleTree, allStatements.eq_def]
  simp only [hfirst, bind_assoc, pure_bind]
  refine (decorated_yields hinline).bind ?_
  rintro _ ⟨function, fields, rfl, hkind, hlocation⟩
  refine (yields_any _).bind fun body _ => (yields_head .module none none).bind fun head hhead =>
    .pure ?_
  have hleading : (Node.mk head [("body", .list ([.node function fields] ++ body)),
      ("type_ignores", .list [])]).leadingFunction = some ⟨function, fields⟩ := by
    simp [Node.leadingFunction, hhead.1, Node.listField?, Node.field?, Members.get?, Value.asList,
      Value.asNode, hkind]
  rw [hleading]
  exact hlocation

end Reading

/-! ### The discount of a tree -/

section

variable {H : Head → Prop} {P : Place → Prop} {file : String} {f : Nat → Nat} {line : Nat}
  {head : Head} {fields fields' : Fields} {rest : List Value} {items : List Value}

/-- Values are looked up in corresponding fields. -/
theorem FieldsRelocate.get? {name : String} {value : Value}
    (h : FieldsRelocate (Location.OnLine f) fields fields')
    (hget : Members.get? name fields = some value) :
    ∃ value', Members.get? name fields' = some value' ∧ Moves f value value' := by
  induction fields generalizing fields' with
  | nil => cases hget
  | cons field rest ih =>
      obtain ⟨key, old⟩ := field
      cases h with
      | cons hold hrest =>
          rw [Members.get?] at hget ⊢
          split at hget
          next hkey =>
            cases hget
            rw [if_pos hkey]
            exact ⟨_, rfl, hold⟩
          next hkey =>
            rw [if_neg hkey]
            exact ih hrest hget

/-- The decorators of a function are expressions. -/
theorem Fits.decorators (h : Fits H (.node .statement) (.node head fields))
    (hkind : head.kind = .functionDef)
    (hitems : (Node.mk head fields).listField? "decorator_list" = some items) :
    ItemsFit H (.node .expression) items := by
  cases h with
  | node _ _ hfields =>
      rw [hkind] at hfields
      cases hfields with
      | cons _ hfields => cases hfields with
      | cons _ hfields => cases hfields with
      | cons _ hfields => cases hfields with
      | cons hlist _ =>
          cases hlist with
          | list hexpressions =>
              simp [Node.listField?, Node.field?, Members.get?, Value.asList] at hitems
              rwa [← hitems]

/-- Items that fit a slot fit it one by one. -/
theorem ItemsFit.forall_mem {slot : Slot} (h : ItemsFit H slot items) :
    ∀ item ∈ items, Fits H slot item := by
  induction items with
  | nil => exact List.forall_mem_nil _
  | cons item items ih =>
      cases h with
      | cons hitem hrest => exact List.forall_mem_cons.mpr ⟨hitem, ih hrest⟩

/-- Expressions are on the lines of their phrases. -/
theorem ItemsFit.lines (h : ItemsFit (Reading.Placed file P) (.node .expression) items)
    (hP : ∀ place, P place → line ≤ place.line) :
    ∀ found ∈ (items.filterMap Value.asNode).filterMap Node.line?, line ≤ found := by
  intro found hfound
  obtain ⟨node, hnode, hline⟩ := List.mem_filterMap.mp hfound
  obtain ⟨item, hitem, hasNode⟩ := List.mem_filterMap.mp hnode
  obtain ⟨head, fields, rfl, -, hhead, -⟩ := Fits.exists_node (h.forall_mem item hitem)
  cases hasNode
  rw [Node.line?] at hline
  rcases hhead with ⟨hlocation, -⟩ | ⟨start, -, hstart, -, hlocation, -⟩
  · rw [hlocation] at hline
    cases hline
  · rw [hlocation] at hline
    cases hline
    exact hP start hstart

/-- The distance from the first decorator to the function. -/
theorem Node.decoratorOffset_eq {tree function : Node} {first line : Nat}
    (hfunction : tree.leadingFunction = some function) (hline : function.line? = some line)
    (hfirst : function.decoratorLine? = some first) (hlt : first < line)
    (hitems : ∀ items, function.listField? "decorator_list" = some items →
      ∀ found ∈ (items.filterMap Value.asNode).filterMap Node.line?, first ≤ found) :
    tree.decoratorOffset = some (line - first) := by
  simp only [Node.decoratorLine?, Option.bind_eq_bind, Option.bind_eq_some_iff] at hfirst
  obtain ⟨items, hlist, value, hvalue, node, hnode, hfirst⟩ := hfirst
  have hmin : ((items.filterMap Value.asNode).filterMap Node.line?).min? = some first := by
    refine List.min?_eq_some_iff.mpr ⟨?_, hitems items hlist⟩
    refine List.mem_filterMap.mpr ⟨node, List.mem_filterMap.mpr ⟨value, ?_, hnode⟩, hfirst⟩
    exact List.mem_of_head? hvalue
  simp [Node.decoratorOffset, hfunction, hline, hlist, hmin, hlt]

end

/-! ### Texts with and without decorators -/

section

variable {name path : String} {text a d f : List Char} {counter next : Nat} {tree : Node}

/-- A program that is read comes from a match of the lines of a module. -/
theorem Source.matches_of_tree
    (h : (Source.ofProgram name path text).tree.runFrom counter = (.ok tree, next)) :
    ∃ t, moduleLines.Matches .tight (.ofText text) t ∧
      (Reading.moduleTree name t.phrases.reverse).runFrom counter = (.ok tree, next) := by
  obtain ⟨-, s, tried, hmatched, hread⟩ := Source.match_of_tree rfl h
  rw [Source.ofProgram, String.toList_ofList] at hmatched
  have hin : (Pattern.rule .module).MatchesIn (stepsFor text.length) .loose (.ofText text) s :=
    congrArg Prod.fst hmatched
  obtain ⟨k, -, t, ht, rfl⟩ := hin.module_inv
  rw [parts_module] at hread
  exact ⟨t, ht.toMatches, hread⟩

/-- Lines of a module that match are what the tree is read from. -/
theorem Source.tree_of_matches {t : State} (hblank : text.all Text.isBlank = false)
    (h : moduleLines.Matches .tight (.ofText text) t) :
    (Source.ofProgram name path text).tree = Reading.moduleTree name t.phrases.reverse := by
  have hfound := Rule.matchText_of_matches (matches_module h)
  rw [Source.tree_ofProgram name path ((Source.isEmpty_ofProgram ..).trans hblank)
    (Prod.ext hfound rfl), parts_module]

/-- A text without statements has no function. -/
theorem leadingFunction_of_nil
    (h : (Reading.moduleTree name []).runFrom counter = (.ok tree, next)) :
    tree.leadingFunction = none := by
  cases h
  simp [Node.leadingFunction, Node.listField?, Node.field?, Members.get?, Value.asList]

/-- A text with a decorator has fewer lines than characters. -/
theorem count_lines_lt (hd : ∃ chars, d = '@' :: (chars ++ ['\n']))
    (hlength : (a ++ d ++ f).length < 2 ^ 63) : (a ++ d ++ f).count '\n' + 1 < 1 <<< 63 := by
  obtain ⟨chars, rfl⟩ := hd
  have hlines : ('@' :: (chars ++ ['\n'])).count '\n' ≤ (chars ++ ['\n']).length := by
    rw [List.count_cons_of_ne (by decide)]
    exact List.count_le_length
  have ha := a.count_le_length (a := '\n')
  have hf := f.count_le_length (a := '\n')
  simp only [List.count_append, List.length_append, List.length_cons] at *
  omega

/-- Lines further up, as far as the signed lines of a discount go. -/
theorem onLines_raised {lines length first : Nat} (htext : text.count '\n' + 1 < 1 <<< 63) :
    Reading.OnLines (shiftLine (-(lines : Int)))
      fun p p' => Raised lines length p p' ∧ OnLine first text p := by
  rintro p p' ⟨hraised, -, hline⟩
  refine ⟨?_, hraised.column⟩
  have hshort : p.line < 1 <<< 63 := by omega
  have hshift := shiftLine_eq hshort (-(lines : Int))
  have hp := hraised.line
  have hfirst := hraised.first
  omega

/-- **The text without the decorators** of its first statement has the tree
without them, further up. -/
theorem mirrors_undecorated (ha : BlankLines a) (hd : ∃ chars, d = '@' :: (chars ++ ['\n']))
    (hlines : (a ++ d ++ f).count '\n' + 1 < 1 <<< 63)
    (htree : (Source.ofProgram name path (a ++ d ++ f)).tree.runFrom counter = (.ok tree, next))
    (hdef : tree.leadingFunction.bind (·.head.location) =
      some (Reading.locate name ((a ++ d).foldl Place.after .origin))) (counter' : Nat) :
    (∃ body, tree.head.kind = .module ∧
      tree.fields = [("body", .list body), ("type_ignores", .list [])] ∧
      ItemsFit (Reading.Placed name (OnLine (1 + a.count '\n') (a ++ d ++ f))) (.node .statement)
        body) ∧
    ∃ tree' next', (Source.ofProgram name path (a ++ f)).tree.runFrom counter' = (.ok tree', next') ∧
      tree.undecorated.Moves (shiftLine (-(d.count '\n' : Int))) tree' := by
  obtain ⟨t, ht, hread⟩ := Source.matches_of_tree htree
  have hne : t.phrases ≠ [] := by
    intro hnil
    rw [hnil] at hread
    rw [leadingFunction_of_nil hread] at hdef
    cases hdef
  have htext : ∃ rest, a ++ d ++ f = a ++ '@' :: rest := by
    obtain ⟨chars, rfl⟩ := hd
    exact ⟨chars ++ ['\n'] ++ f, by simp⟩
  have hends : ∃ chars, d = chars ++ ['\n'] := by
    obtain ⟨chars, rfl⟩ := hd
    exact ⟨'@' :: chars, rfl⟩
  obtain ⟨rest, htext⟩ := htext
  rw [htext] at ht
  have hfrom := ht.from_leadingLines ha rejects_at
  obtain ⟨decorators, v, x, u, start, start', stop, stop', chars, chars', chars'', hv, hphrases,
    hinline, hx, hu, htphrases⟩ := decorated_first ha ht hne
  rw [← htext] at hv hfrom
  have hreverse := congrArg List.reverse htphrases
  rw [List.reverse_append, List.reverse_singleton, List.singleton_append] at hreverse
  have hall : ∀ phrase ∈ t.phrases.reverse, phrase.All (OnLine (1 + a.count '\n') (a ++ d ++ f)) :=
    fun phrase hphrase => hfrom.phrases phrase (List.mem_reverse.mp hphrase)
  obtain ⟨body, hkind, -, hfields, hfit⟩ := Reading.moduleTree_fits _ hall counter tree next hread
  refine ⟨⟨body, hkind, hfields, hfit⟩, ?_⟩
  rw [hreverse] at hread hall
  -- The function is where the text says, so the rest of the text is known.
  have hfirst : Reading.statements name (.mk .statement start stop chars
      [.mk .decorated start' stop' chars'
        (decorators ++ [.mk .functionDef v.place x.place chars'' x.phrases.reverse])]) =
      Reading.decorated name
        (decorators ++ [.mk .functionDef v.place x.place chars'' x.phrases.reverse]) [] := by
    rw [Reading.statements, Reading.statements]
  have hleading := Reading.moduleTree_leading hinline hfirst counter tree next hread
  have hlocation := Option.some.inj (hleading.symm.trans hdef)
  simp only [Reading.locate, Location.mk.injEq, true_and] at hlocation
  obtain ⟨t', x', u', first, stop'', start'', more, more', ⟨word, hword⟩, ht', htphrases', hstart,
    hstop, hparts, hothers⟩ :=
    plain_of_decorated ha hends hv hphrases hlocation.1 hlocation.2 hx hu
  have hallFunction : (Phrase.mk .functionDef v.place x.place chars'' x.phrases.reverse).All
      (OnLine (1 + a.count '\n') (a ++ d ++ f)) := by
    have hstatement := (List.forall_mem_cons.mp hall).1
    have hdecorated := hstatement.parts _ List.mem_cons_self
    exact hdecorated.parts _ (List.mem_append_right decorators List.mem_cons_self)
  have hfirst' : Reading.statements name (.mk .statement first stop'' more
      [.mk .functionDef start'' x'.place more' x'.phrases.reverse]) =
      Reading.statements name (.mk .functionDef start'' x'.place more' x'.phrases.reverse) := by
    rw [Reading.statements]
  have hmirrors := Reading.moduleTree_undecorated (onLines_raised hlines) hinline
    ⟨hstart, hallFunction.start⟩ ⟨hstop, hallFunction.stop⟩
    (hparts.reverse.and hallFunction.parts)
    (hothers.reverse.and (List.forall_mem_cons.mp hall).2) hfirst hfirst'
  obtain ⟨tree', next', hread', hmoves⟩ := hmirrors counter tree next hread counter'
  refine ⟨tree', next', ?_, hmoves⟩
  have hblank : (a ++ f).all Text.isBlank = false := by
    rw [hword, List.all_append, List.all_cons]
    have hd : Text.isBlank 'd' = false := by decide
    rw [hd, Bool.false_and, Bool.and_false]
  rw [Source.tree_of_matches hblank ht', htphrases', List.reverse_append]
  exact hread'

/-- The function that a module stands for is its first statement. -/
theorem Node.leadingFunction_module {head : Head} {body : List Value} {function : Node}
    (hkind : head.kind = .module) :
    (Node.mk head [("body", .list body), ("type_ignores", .list [])]).leadingFunction =
      some function ↔ ∃ rest, body = function.toValue :: rest ∧ function.head.kind = .functionDef := by
  cases body with
  | nil => simp [Node.leadingFunction, hkind, Node.listField?, Node.field?, Members.get?, Value.asList]
  | cons first rest =>
      have hlist : (Node.mk head [("body", .list (first :: rest)),
          ("type_ignores", .list [])]).listField? "body" = some (first :: rest) := by
        simp [Node.listField?, Node.field?, Members.get?, Value.asList]
      cases first with
      | node head' fields' =>
          have hif : (Node.mk head [("body", .list (.node head' fields' :: rest)),
              ("type_ignores", .list [])]).leadingFunction =
              if head'.kind = .functionDef then some ⟨head', fields'⟩ else none := by
            simp [Node.leadingFunction, hkind, hlist, Value.asNode]
          rw [hif]
          constructor
          · intro h
            split at h
            next hfunction =>
              cases h
              exact ⟨rest, rfl, hfunction⟩
            next => cases h
          · rintro ⟨rest, heq, hfunction⟩
            obtain ⟨hnode, -⟩ := List.cons.inj heq
            cases hnode
            exact if_pos hfunction
      | scalar | list | foreign =>
          simp [Node.leadingFunction, hkind, hlist, Value.asNode, Node.toValue]

/-- A function without decorators has none to discount. -/
theorem Node.prepare_of_no_decorators {function : Node}
    (hfunction : tree.leadingFunction = some function)
    (hlist : function.listField? "decorator_list" = some []) (discount : Bool) :
    tree.prepare discount = tree := by
  have hoffset : tree.decoratorOffset = none := by
    simp only [Node.decoratorOffset, hfunction, hlist, Option.bind_eq_bind, Option.bind_some]
    cases function.line? <;> rfl
  rw [Node.prepare.eq_def, hoffset]
  cases discount <;> rfl

/-- A discount moves the tree. -/
theorem Node.prepare_of_offset {lines : Nat} (h : tree.decoratorOffset = some lines) :
    tree.prepare true = tree.shift (-signedLine lines) := by
  rw [Node.prepare.eq_def, h]

/-- So there is nothing to discount where the decorators were taken out. -/
theorem Node.Moves.prepare_eq {move : Nat → Nat} {head : Head} {function : Node} {rest : List Value}
    (hkind : head.kind = .module) (hfunction : function.head.kind = .functionDef)
    (h : (Node.mk head [("body", .list (function.toValue :: rest)),
      ("type_ignores", .list [])]).undecorated.Moves move tree) (discount : Bool) :
    tree.prepare discount = tree := by
  obtain ⟨fhead, ffields⟩ := function
  obtain ⟨head', fields'⟩ := tree
  obtain ⟨hhead, hfields⟩ := h
  have hkind' : head'.kind = .module := hhead.kind.trans hkind
  cases hfields with
  | cons hbody hmore =>
  cases hbody with
  | list hbody =>
  cases hbody with
  | @cons _ _ _ rest' hfirst _ =>
  cases hmore with
  | cons hignores hmore =>
  cases hmore
  cases hignores with
  | list hignores =>
  cases hignores
  cases hfirst with
  | @node _ fhead' _ ffields' hfhead hffields =>
      have hnode : (Node.mk fhead' ffields').head.kind = .functionDef := hfhead.kind.trans hfunction
      have hleading := (Node.leadingFunction_module hkind').mpr ⟨rest', rfl, hnode⟩
      refine Node.prepare_of_no_decorators hleading ?_ discount
      obtain ⟨value, hget, hvalue⟩ := hffields.get? (Members.get?_set_self ..)
      rw [Node.listField?, Node.field?, hget]
      cases hvalue with
      | list hitems =>
          cases hitems
          rfl

/-- Loading reads the tree and prepares it. -/
theorem Source.load_run {source : Source} (h : source.tree.runFrom counter = (.ok tree, next))
    (discount : Bool) :
    (source.load discount).runFrom counter = (.ok (tree.prepare discount), next) := by
  rw [Source.load]
  simp only [runFrom, ExceptT.run_bind, StateT.run_bind] at h ⊢
  rw [h]
  rfl

end

/-- **Discounting decorators** loads the text without their lines.  Blank lines
`a` come first, then `d` from the first decorator up to the line before the
function, and the rest of the text starts at its `def`.  No text in memory is
longer than `2 ^ 63`, so a discount reads its lines as they are. -/
theorem load_undecorated (name path : String) {a d f : List Char} (ha : BlankLines a)
    (hd : ∃ chars, d = '@' :: (chars ++ ['\n']))
    (hlength : (a ++ d ++ f).length < 2 ^ 63) {counter next : Nat} {tree : Node}
    (htree : (Source.ofProgram name path (a ++ d ++ f)).tree.runFrom counter = (.ok tree, next))
    (hdef : tree.leadingFunction.bind (·.head.location) =
      some (Reading.locate name ((a ++ d).foldl Place.after .origin)))
    (hfirst : tree.leadingFunction.bind Node.decoratorLine? = some (1 + a.count '\n'))
    (discount : Bool) (counter' : Nat) :
    ∃ loaded loaded' next',
      ((Source.ofProgram name path (a ++ d ++ f)).load true).runFrom counter = (.ok loaded, next) ∧
      ((Source.ofProgram name path (a ++ f)).load discount).runFrom counter' = (.ok loaded', next') ∧
      loaded'.anonymous = loaded.undecorated.anonymous := by
  have hlines := count_lines_lt hd hlength
  obtain ⟨⟨body, hkind, hfields, hfit⟩, tree', next', htree', hmoves⟩ :=
    mirrors_undecorated ha hd hlines htree hdef counter'
  obtain ⟨head, fields⟩ := tree
  change fields = _ at hfields
  subst hfields
  obtain ⟨⟨fhead, ffields⟩, hfunction, hlocation⟩ := Option.bind_eq_some_iff.mp hdef
  rw [hfunction, Option.bind_some] at hfirst
  obtain ⟨rest, rfl, hfkind⟩ := (Node.leadingFunction_module hkind).mp hfunction
  -- The distance between the first decorator and the function is the number of lines between.
  have hoffset : (Node.mk head [("body", .list (Node.toValue ⟨fhead, ffields⟩ :: rest)),
      ("type_ignores", .list [])]).decoratorOffset = some (d.count '\n') := by
    have hline : (Node.mk fhead ffields).line? = some (1 + (a ++ d).count '\n') := by
      rw [Node.line?, hlocation]
      exact congrArg some (Place.line_foldl (a ++ d) .origin)
    have hpositive : 0 < d.count '\n' := by
      obtain ⟨chars, rfl⟩ := hd
      exact List.count_pos_iff.mpr (by simp)
    rw [List.count_append] at hline
    have hoffset := Node.decoratorOffset_eq hfunction hline hfirst (by omega) fun items hitems => by
      cases hfit with
      | cons hstatement _ => exact (hstatement.decorators hfkind hitems).lines fun _ h => h.1
    rw [hoffset]
    congr 1
    omega
  have hsigned : signedLine (d.count '\n') = d.count '\n' := by
    rw [List.count_append, List.count_append] at hlines
    unfold signedLine
    rw [Int.bmod_eq_of_le] <;> omega
  refine ⟨_, _, next', Source.load_run htree true, Source.load_run htree' discount, ?_⟩
  rw [hmoves.prepare_eq hkind hfkind, hmoves.anonymous_eq, Node.prepare_of_offset hoffset, hsigned,
    Node.shift_eq_onLines, Node.undecorated_onLines]

/-- A function with two decorators and a comment between them. -/
theorem load_undecorated_twice :
    let a := "# f\n\n".toList
    let d := "@g\n# h\n@h(1)\n".toList
    let f := "def f(x):\n    return x\n".toList
    BlankLines a ∧ (∃ chars, d = '@' :: (chars ++ ['\n'])) ∧
      (a ++ d ++ f).length < 2 ^ 63 ∧
      ∃ tree, ((Source.ofProgram "m" "m" (a ++ d ++ f)).tree.runFrom 1).1 = .ok tree ∧
        tree.leadingFunction.bind (·.head.location) =
          some (Reading.locate "m" ((a ++ d).foldl Place.after .origin)) ∧
        tree.leadingFunction.bind Node.decoratorLine? = some (1 + a.count '\n') ∧
        ∃ loaded loaded' next',
          ((Source.ofProgram "m" "m" (a ++ d ++ f)).load true).runFrom 1 =
            (.ok loaded, ((Source.ofProgram "m" "m" (a ++ d ++ f)).tree.runFrom 1).2) ∧
          ((Source.ofProgram "m" "m" (a ++ f)).load true).runFrom 1 = (.ok loaded', next') ∧
          loaded'.anonymous = loaded.undecorated.anonymous := by
  intro a d f
  have hchars : " f".toList.any endsLine = false := by decide +kernel
  have hcomment : IsBlankLine "# f\n".toList :=
    ⟨[], "# f".toList, by decide +kernel, List.forall_mem_nil _,
      .inr ⟨" f".toList, by decide +kernel, by simpa using hchars⟩⟩
  have hempty : IsBlankLine ['\n'] := ⟨[], [], rfl, List.forall_mem_nil _, .inl rfl⟩
  have ha : BlankLines a :=
    ⟨["# f\n".toList, ['\n']], by decide +kernel,
      List.forall_mem_cons.mpr ⟨hcomment, List.forall_mem_singleton.mpr hempty⟩⟩
  have hd : ∃ chars, d = '@' :: (chars ++ ['\n']) := ⟨"g\n# h\n@h(1)".toList, by decide +kernel⟩
  have hlength : (a ++ d ++ f).length < 2 ^ 63 := by decide +kernel
  obtain ⟨tree, hread, hdef, hfirst⟩ :
      ∃ tree, ((Source.ofProgram "m" "m" (a ++ d ++ f)).tree.runFrom 1).1 = .ok tree ∧
        tree.leadingFunction.bind (·.head.location) =
          some (Reading.locate "m" ((a ++ d).foldl Place.after .origin)) ∧
        tree.leadingFunction.bind Node.decoratorLine? = some (1 + a.count '\n') := by
    decide +kernel
  have hrun : (Source.ofProgram "m" "m" (a ++ d ++ f)).tree.runFrom 1 =
      (.ok tree, ((Source.ofProgram "m" "m" (a ++ d ++ f)).tree.runFrom 1).2) := Prod.ext hread rfl
  exact ⟨ha, hd, hlength, tree, hread, hdef, hfirst,
    load_undecorated "m" "m" ha hd hlength hrun hdef hfirst true 1⟩

end FunctionIR
