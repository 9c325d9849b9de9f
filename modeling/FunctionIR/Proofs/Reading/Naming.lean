import FunctionIR.Proofs.Reading.Provenance

/-!
# Names and reserved words

The names in the tree of a program text are identifiers of the text, and no word
that the grammar reserves is among them (`names_spelled`).  But the grammar
reserves fewer words than the language it reads a part of: seven are missing
(`unreservedWords`), and a statement that consists of one of these, such as a
`raise` alone, is read as a plain name (`unreserved_read`, `raise_read`).
-/

namespace FunctionIR

open Grammar (reservedWords)

/-- The reserved words of Python. -/
def pythonWords : List String := [
  "False", "None", "True", "and", "as", "assert", "async", "await", "break", "class",
  "continue", "def", "del", "elif", "else", "except", "finally", "for", "from", "global",
  "if", "import", "in", "is", "lambda", "nonlocal", "not", "or", "pass", "raise",
  "return", "try", "while", "with", "yield"]

/-- Those of them that the grammar does not reserve. -/
def unreservedWords : List String :=
  ["assert", "async", "await", "except", "finally", "raise", "try"]

/-- Every keyword of the language is reserved or among those that are not. -/
theorem mem_reservedWords_or_unreserved :
    ∀ word ∈ pythonWords, word ∈ reservedWords ∨ word ∈ unreservedWords := by
  decide

/-- A letter or an underscore, then letters, digits and underscores. -/
def IsIdentifier (text : List Char) : Prop :=
  ∃ c more, text = c :: more ∧ (c.isAlpha = true ∨ c = '_') ∧
    ∀ d ∈ more, d.isAlphanum = true ∨ d = '_'

/-- A name as it is written is an identifier. -/
theorem Printing.Identifier.isIdentifier (ident : Identifier) : IsIdentifier ident.text := by
  obtain ⟨c, more, htext, hc⟩ := ident.starts
  refine ⟨c, more, htext, by simpa [Grammar.CharClass.holds] using hc, fun d hd => ?_⟩
  have hchar := ident.word d (by rw [htext]; exact List.mem_cons_of_mem _ hd)
  simpa [Grammar.CharClass.holds] using hchar

/-- What is spelled as a name is an identifier of the text, and no word that the grammar
reserves. -/
structure IsName (source : Source) (name : String) : Prop where
  identifier : IsIdentifier name.toList
  stands : name.toList <:+: source.text.toList
  free : name ∉ reservedWords

/-- The phrase of a name spells a name. -/
theorem isName_of_phrase {source : Source} {phrase : Grammar.Phrase}
    (h : phrase.Original source.text.toList) (hrule : phrase.rule = .identifier) :
    IsName source (String.ofList phrase.text) := by
  obtain ⟨ident, hident⟩ := h.identifier hrule
  refine ⟨?_, ?_, ?_⟩
  · rw [String.toList_ofList, ← hident]
    exact ident.isIdentifier
  · rw [String.toList_ofList]
    exact h.text_infix
  · rw [← hident]
    exact ident.free

open Reading in
/-- A node that spells a name does so with a name of the text. -/
theorem Reading.Stems.name {source : Source} {whole : Grammar.Phrase} {node : Node}
    (hmatched : source.MatchedBy whole) (h : Stems source.name whole node) {field : String}
    (hfield : node.head.kind.nameField = some field) :
    ∃ name, node.field? field = some (.str name) ∧ IsName source name := by
  cases h with
  | silent hnone => rw [hnone] at hfield; cases hfield
  | @named _ _ _ phrase hkind hin hrule htext =>
      rw [hkind] at hfield
      cases hfield
      exact ⟨_, htext, isName_of_phrase (hmatched.original phrase hin) hrule⟩
  | literal hconstant => rw [hconstant] at hfield; cases hfield
  | augmented => cases hfield

/-- **Names are names.**  Every name in the tree of a program text (of a variable, an
attribute, a parameter, a keyword argument or a function) is an identifier that stands
in the text.  If it is a reserved word of the language, it is one that the grammar does
not know. -/
theorem names_spelled {source : Source} (hformat : source.format = .program)
    {counter next : Nat} {tree : Node} (h : source.tree.runFrom counter = (.ok tree, next)) :
    ∀ node ∈ tree.toValue.nodes, ∀ field, node.head.kind.nameField = some field →
      ∃ name, node.field? field = some (.str name) ∧ IsIdentifier name.toList ∧
        name.toList <:+: source.text.toList ∧ (name ∈ pythonWords → name ∈ unreservedWords) := by
  obtain ⟨whole, hmatched, hstems⟩ := Source.tree_stems hformat h
  intro node hnode field hfield
  obtain ⟨name, htext, hname⟩ := (hstems node hnode).name hmatched hfield
  exact ⟨name, htext, hname.identifier, hname.stands,
    fun hword => (mem_reservedWords_or_unreserved name hword).resolve_left hname.free⟩

/-- The names in a text with names of all five sorts. -/
theorem names_spelled_all_forms :
    let source := Source.ofText "m" "def f(a):\n    return a.b(c=_d1)\n" .program
    ∃ tree, (source.tree.runFrom 1).1 = .ok tree ∧
      (tree.toValue.nodes.filterMap fun node => node.head.kind.nameField.bind node.textField?) =
        ["f", "a", "b", "a", "c", "_d1"] ∧
      ∀ node ∈ tree.toValue.nodes, ∀ field, node.head.kind.nameField = some field →
        ∃ name, node.field? field = some (.str name) ∧ IsIdentifier name.toList ∧
          name.toList <:+: source.text.toList ∧
          (name ∈ pythonWords → name ∈ unreservedWords) := by
  intro source
  obtain ⟨tree, hread, hnames⟩ :
      ∃ tree, (source.tree.runFrom 1).1 = .ok tree ∧
        (tree.toValue.nodes.filterMap fun node => node.head.kind.nameField.bind node.textField?) =
          ["f", "a", "b", "a", "c", "_d1"] := by
    decide +kernel
  exact ⟨tree, hread, hnames, names_spelled rfl (Numbered.runFrom_of_ok hread)⟩

/-- Every word that the grammar does not know is read as a name where it stands alone as
the body of a function. -/
theorem unreserved_read : ∀ word ∈ unreservedWords,
    ∃ tree, ((Source.ofText "m" ("def f():\n    " ++ word ++ "\n") .program).tree.runFrom 1).1 =
        .ok tree ∧
      ∃ node ∈ tree.toValue.nodes,
        node.head.kind = .name ∧ node.textField? "id" = some word := by
  decide +kernel

/-- So a function that raises again is read as one that names something called
`raise`. -/
theorem raise_read :
    ∃ tree, ((Source.ofText "m" "def f():\n    raise\n" .program).tree.runFrom 1).1 = .ok tree ∧
      ∃ node ∈ tree.toValue.nodes, node.head.kind.nameField = some "id" ∧
        node.textField? "id" = some "raise" ∧ "raise" ∈ pythonWords := by
  obtain ⟨tree, hread, node, hnode, hkind, htext⟩ := unreserved_read "raise" (by decide)
  exact ⟨tree, hread, node, hnode, by rw [hkind]; rfl, htext, by decide⟩

end FunctionIR
