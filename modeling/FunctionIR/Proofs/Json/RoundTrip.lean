import FunctionIR.Proofs.Json.Doubles

/-!
# Reading back what is written: documents

An indented document is read back as it was, if it is one that a reader could
have made in the first place: its integers are those of 64 bits, no object has
two members of one name, the doubles satisfy what is asked of them, and arrays
and objects are not nested too deep (`Proper`, `nesting`).

The writer treats the last item of a list differently, the reader the first.
Both agree on what stands behind an item, up to the bracket that closes the
list (`moreItems`, `moreMembers`), and the induction is on that.
-/

namespace FunctionIR.Json

mutual

/-- How deep arrays and objects are nested. -/
def nesting : Json → Nat
  | .array items => itemsNesting items + 1
  | .object members => membersNesting members + 1
  | _ => 0

/-- How deep the deepest item is nested. -/
def itemsNesting : List Json → Nat
  | [] => 0
  | item :: rest => max (nesting item) (itemsNesting rest)

/-- How deep the deepest member is nested. -/
def membersNesting : List (String × Json) → Nat
  | [] => 0
  | (_, value) :: rest => max (nesting value) (membersNesting rest)

end

mutual

/-- The integers have 64 bits, the members of an object have different names,
and the doubles satisfy the predicate. -/
def Proper (real : Binary64 → Prop) : Json → Prop
  | .number (.integer value) => -2 ^ 63 ≤ value ∧ value < 2 ^ 64
  | .number (.real x) => real x
  | .array items => ItemsProper real items
  | .object members => (members.map Prod.fst).Nodup ∧ MembersProper real members
  | _ => True

/-- All items are proper. -/
def ItemsProper (real : Binary64 → Prop) : List Json → Prop
  | [] => True
  | item :: rest => Proper real item ∧ ItemsProper real rest

/-- All members are proper. -/
def MembersProper (real : Binary64 → Prop) : List (String × Json) → Prop
  | [] => True
  | (_, value) :: rest => Proper real value ∧ MembersProper real rest

end

mutual

/-- The doubles of a document, in order. -/
def doubles : Json → List Binary64
  | .number (.real x) => [x]
  | .array items => itemsDoubles items
  | .object members => membersDoubles members
  | _ => []

/-- The doubles of several documents. -/
def itemsDoubles : List Json → List Binary64
  | [] => []
  | item :: rest => doubles item ++ itemsDoubles rest

/-- The doubles of the members of an object. -/
def membersDoubles : List (String × Json) → List Binary64
  | [] => []
  | (_, value) :: rest => doubles value ++ membersDoubles rest

end

mutual

/-- What the doubles satisfy is a matter of the doubles only. -/
theorem Proper.of_doubles {real other : Binary64 → Prop} : {document : Json} →
    document.Proper real → (∀ x ∈ document.doubles, other x) → document.Proper other
  | .null, _, _ => trivial
  | .bool _, _, _ => trivial
  | .number (.integer _), h, _ => h
  | .number (.real x), _, hother => hother x List.mem_cons_self
  | .string _, _, _ => trivial
  | .array _, h, hother => ItemsProper.of_doubles h hother
  | .object _, h, hother => ⟨h.1, MembersProper.of_doubles h.2 hother⟩

theorem ItemsProper.of_doubles {real other : Binary64 → Prop} : {items : List Json} →
    ItemsProper real items → (∀ x ∈ itemsDoubles items, other x) → ItemsProper other items
  | [], _, _ => trivial
  | _ :: _, h, hother =>
      have hother := List.forall_mem_append.mp hother
      ⟨Proper.of_doubles h.1 hother.1, ItemsProper.of_doubles h.2 hother.2⟩

theorem MembersProper.of_doubles {real other : Binary64 → Prop} :
    {members : List (String × Json)} → MembersProper real members →
    (∀ x ∈ membersDoubles members, other x) → MembersProper other members
  | [], _, _ => trivial
  | (_, _) :: _, h, hother =>
      have hother := List.forall_mem_append.mp hother
      ⟨Proper.of_doubles h.1 hother.1, MembersProper.of_doubles h.2 hother.2⟩

end

/-! ### The texts -/

/-- What follows an item of an array, whose own lines are at a level. -/
def moreItems (level : Nat) : List Json → List Char
  | [] => (lineStart level).toList ++ [']']
  | item :: rest =>
    ',' :: (lineStart (level + 1)).toList ++ (indentedAt (level + 1) item).toList ++
      moreItems level rest

/-- A member of an object from its name on. -/
def memberText (level : Nat) (name : String) (value : Json) : List Char :=
  '"' :: (stringBody name ++ ':' :: ' ' :: (indentedAt (level + 1) value).toList)

/-- What follows a member of an object, whose own lines are at a level. -/
def moreMembers (level : Nat) : List (String × Json) → List Char
  | [] => (lineStart level).toList ++ ['\x7d']
  | (name, value) :: rest =>
    ',' :: (lineStart (level + 1)).toList ++ memberText level name value ++
      moreMembers level rest

/-- The characters of an array: its first item, and the others behind commas. -/
theorem toList_array (level : Nat) (item : Json) (rest : List Json) :
    (indentedAt level (.array (item :: rest))).toList =
      '[' :: (lineStart (level + 1)).toList ++ (indentedAt (level + 1) item).toList ++
        moreItems level rest := by
  have hitems : (indentedItems (level + 1) (item :: rest) ++ lineStart level ++ "]").toList =
      (lineStart (level + 1)).toList ++ (indentedAt (level + 1) item).toList ++
        moreItems level rest := by
    induction rest generalizing item with
    | nil => simp [indentedItems, moreItems]
    | cons next rest ih =>
        rw [moreItems]
        simp only [List.append_assoc, List.cons_append] at ih ⊢
        rw [← ih next]
        simp [indentedItems]
  simpa [indentedAt, List.append_assoc] using hitems

/-- The characters of an object: its first member, and the others behind commas. -/
theorem toList_object (level : Nat) (name : String) (value : Json)
    (rest : List (String × Json)) :
    (indentedAt level (.object ((name, value) :: rest))).toList =
      '\x7b' :: (lineStart (level + 1)).toList ++ memberText level name value ++
        moreMembers level rest := by
  have hmembers : (indentedMembers (level + 1) ((name, value) :: rest) ++ lineStart level ++
      "\x7d").toList =
      (lineStart (level + 1)).toList ++ memberText level name value ++
        moreMembers level rest := by
    induction rest generalizing name value with
    | nil => simp [indentedMembers, moreMembers, memberText, toList_stringText]
    | cons next rest ih =>
        obtain ⟨name', value'⟩ := next
        rw [moreMembers]
        simp only [List.append_assoc, List.cons_append] at ih ⊢
        rw [← ih name' value']
        simp [indentedMembers, memberText, toList_stringText]
  simpa [indentedAt, List.append_assoc] using hmembers

/-- The text of further items is longer than their number. -/
theorem length_moreItems (level : Nat) (items : List Json) :
    items.length < (moreItems level items).length := by
  induction items with
  | nil => simp [moreItems]
  | cons item rest ih => simp only [moreItems, List.length_append, List.length_cons]; omega

/-- The text of further members is longer than their number. -/
theorem length_moreMembers (level : Nat) (members : List (String × Json)) :
    members.length < (moreMembers level members).length := by
  induction members with
  | nil => simp [moreMembers]
  | cons member rest ih =>
      simp only [moreMembers, List.length_append, List.length_cons]
      omega

/-- A number ends before the start of a line. -/
theorem boundary_lineStart (level : Nat) (rest : List Char) :
    Boundary ((lineStart level).toList ++ rest) := by
  simp only [lineStart, String.toList_ofList, List.cons_append]
  exact boundary_cons.mpr (by decide)

/-- A number ends before further items. -/
theorem boundary_moreItems (level : Nat) (items : List Json) (rest : List Char) :
    Boundary (moreItems level items ++ rest) := by
  cases items with
  | nil =>
      rw [moreItems, List.append_assoc]
      exact boundary_lineStart _ _
  | cons item items => exact boundary_cons.mpr (by decide)

/-- A number ends before further members. -/
theorem boundary_moreMembers (level : Nat) (members : List (String × Json)) (rest : List Char) :
    Boundary (moreMembers level members ++ rest) := by
  cases members with
  | nil =>
      rw [moreMembers, List.append_assoc]
      exact boundary_lineStart _ _
  | cons member members => exact boundary_cons.mpr (by decide)

/-- A text that starts with neither a blank nor the end of an array. -/
def Opens (text : List Char) : Prop :=
  ∃ c more, text = c :: more ∧ isSpace c = false ∧ c ≠ ']'

theorem Opens.append {text : List Char} (h : Opens text) (rest : List Char) :
    Opens (text ++ rest) := by
  obtain ⟨c, more, rfl, hspace, hne⟩ := h
  exact ⟨c, more ++ rest, rfl, hspace, hne⟩

/-- A text that opens a value does not start with a blank. -/
theorem Opens.solid {text : List Char} (h : Opens text) : Solid text := by
  obtain ⟨c, more, rfl, hspace, -⟩ := h
  exact solid_cons.mpr hspace

/-- The characters of an integer. -/
theorem toList_integer (value : Int) :
    (Number.text (.integer value)).toList =
      if value < 0 then '-' :: Nat.toDigits 10 value.natAbs
      else Nat.toDigits 10 value.natAbs := by
  cases value with
  | ofNat n => simp [Number.text, toString, Int.repr, Int.natAbs]
  | negSucc n => simp [Number.text, toString, Int.repr, Int.natAbs, Int.negSucc_lt_zero]

/-- A character of a double opens a value. -/
theorem opens_inDouble {c : Char} (h : InDouble c) (more : List Char) : Opens (c :: more) := by
  refine ⟨c, more, rfl, h.not_space, ?_⟩
  rintro rfl
  rcases h with h | h | h | h | h <;> revert h <;> decide

/-- Digits open a value. -/
theorem opens_toDigits (n : Nat) : Opens (Nat.toDigits 10 n) := by
  cases hdigits : Nat.toDigits 10 n with
  | nil => exact absurd hdigits Nat.toDigits_ne_nil
  | cons c more => exact opens_inDouble (inDouble_toDigits (n := n) (by simp [hdigits])) more

/-- Every value starts with a character of its own. -/
theorem opens_indentedAt {document : Json} (h : document.Proper Settled) (level : Nat) :
    Opens (indentedAt level document).toList := by
  cases document with
  | null => exact ⟨'n', ['u', 'l', 'l'], by simp [indentedAt], rfl, by decide⟩
  | bool value =>
      cases value with
      | true => exact ⟨'t', ['r', 'u', 'e'], by simp [indentedAt], rfl, by decide⟩
      | false => exact ⟨'f', ['a', 'l', 's', 'e'], by simp [indentedAt], rfl, by decide⟩
  | number value =>
      cases value with
      | integer value =>
          rw [indentedAt, toList_integer]
          split
          · exact ⟨'-', _, rfl, rfl, by decide⟩
          · exact opens_toDigits _
      | real x =>
          have hsettled : Settled x := h
          rw [indentedAt, Number.text]
          obtain ⟨c, more, htext, hc⟩ := hsettled.head
          rw [htext]
          exact opens_inDouble hc more
  | string s =>
      rw [indentedAt, toList_stringText]
      exact ⟨'"', _, rfl, rfl, by decide⟩
  | array items =>
      cases items with
      | nil => exact ⟨'[', [']'], by simp [indentedAt], rfl, by decide⟩
      | cons item rest =>
          rw [toList_array]
          exact ⟨'[', _, rfl, rfl, by decide⟩
  | object members =>
      cases members with
      | nil => exact ⟨'\x7b', ['\x7d'], by simp [indentedAt], rfl, by decide⟩
      | cons member rest =>
          rw [toList_object]
          exact ⟨'\x7b', _, rfl, rfl, by decide⟩

/-! ### The members of an object -/

/-- A member under a new name goes behind the others. -/
theorem set_of_notMem {α : Type} {name : String} {members : List (String × α)}
    (h : name ∉ members.map Prod.fst) (value : α) :
    Members.set name value members = members ++ [(name, value)] := by
  induction members with
  | nil => rfl
  | cons member rest ih =>
      obtain ⟨key, old⟩ := member
      simp only [List.map_cons, List.mem_cons, not_or] at h
      simp only [Members.set, Ne.symm h.1, if_false, ih h.2, List.cons_append]

/-- Merging puts one member after the other among those before it. -/
theorem mergeMembers_eq_foldl (members : List (String × Json)) :
    mergeMembers members =
      members.foldl (fun merged member => Members.set member.1 member.2 merged) [] := rfl

/-- Members of different names are kept as they are. -/
theorem mergeMembers_eq {members : List (String × Json)} (h : (members.map Prod.fst).Nodup) :
    mergeMembers members = members := by
  have hmerge (merged rest : List (String × Json))
      (h : ((merged ++ rest).map Prod.fst).Nodup) :
      rest.foldl (fun merged member => Members.set member.1 member.2 merged) merged =
        merged ++ rest := by
    induction rest generalizing merged with
    | nil => simp
    | cons member rest ih =>
        obtain ⟨name, value⟩ := member
        have hnew : name ∉ merged.map Prod.fst := by
          rw [List.map_append, List.nodup_append] at h
          intro hmem
          exact h.2.2 name hmem name (by simp) rfl
        rw [List.foldl_cons]
        simp only [set_of_notMem hnew]
        rw [ih _ (by simpa using h), List.append_assoc, List.singleton_append]
  rw [mergeMembers_eq_foldl, hmerge [] members (by simpa using h), List.nil_append]

/-! ### Documents -/

/-- A blank before a value is no part of it. -/
theorem readValue_blank {bound depth : Nat} {text more rest : List Char} {value : Json}
    (htext : Opens text)
    (h : ∀ line column, Gets (readValue bound depth ⟨text ++ more, line, column⟩) value rest)
    (line column : Nat) :
    Gets (readValue bound depth ⟨' ' :: (text ++ more), line, column⟩) value rest := by
  cases depth with
  | zero =>
      obtain ⟨_, _, h⟩ := h line column
      exact absurd h not_ok_beyond
  | succ depth =>
      obtain ⟨line', column', hskip⟩ := @skipSpace_blanks [' '] (text ++ more)
        (List.forall_mem_singleton.mpr rfl) (htext.append more).solid line column
      rw [List.singleton_append] at hskip
      rw [readValue_skipSpace, hskip]
      exact h line' column'

/-- An integer is read back. -/
theorem readValue_integer (rounds depth : Nat) {value : Int} (hlow : -2 ^ 63 ≤ value)
    (hhigh : value < 2 ^ 64) {rest : List Char} (hrest : Boundary rest) (line column : Nat) :
    Gets (readValue rounds (depth + 1)
      ⟨(Number.text (.integer value)).toList ++ rest, line, column⟩)
      (.number (.integer value)) rest := by
  rw [toList_integer]
  split
  next hneg =>
    have hvalue : integerOrReal true value.natAbs = .number (.integer value) := by
      have h : value.natAbs ≠ 0 ∧ value.natAbs ≤ 1 <<< 63 := by
        simp only [Nat.one_shiftLeft]
        omega
      simp only [integerOrReal, Bool.not_true, Bool.false_eq_true, if_false, if_pos h]
      rw [show -(value.natAbs : Int) = value by omega]
    rw [List.cons_append, readValue_minus, ← hvalue]
    exact readNumber_toDigits (by simp only [Nat.one_shiftLeft]; omega) true hrest _ _
  next hneg =>
    have hvalue : integerOrReal false value.natAbs = .number (.integer value) := by
      simp only [integerOrReal, Bool.not_false, if_true]
      rw [show (value.natAbs : Int) = value by omega]
    rw [← hvalue]
    cases hdigits : Nat.toDigits 10 value.natAbs with
    | nil => exact absurd hdigits Nat.toDigits_ne_nil
    | cons c more =>
        have hc : c.isDigit = true :=
          Nat.isDigit_of_mem_toDigits (by decide) (by decide) (hdigits ▸ List.mem_cons_self)
        rw [List.cons_append, readValue_digit _ _ hc, ← List.cons_append, ← hdigits]
        exact readNumber_toDigits (by simp only [Nat.one_shiftLeft]; omega) false hrest _ _

/-- A word is read. -/
theorem readWord_append (word rest : List Char) (line column : Nat) :
    ∃ line' column', readWord word ⟨word ++ rest, line, column⟩ = .ok ⟨rest, line', column'⟩ := by
  induction word generalizing line column with
  | nil => exact ⟨line, column, rfl⟩
  | cons c word ih =>
      simp only [List.cons_append, readWord, if_true, Cursor.after]
      split
      · exact ih _ _
      · exact ih _ _

/-- A word that stands for a value is read to its end. -/
theorem gets_word {word rest : List Char} {value : Json} (line column : Nat) :
    Gets (do
      let cursor ← readWord word ⟨word ++ rest, line, column⟩
      return (value, cursor)) value rest := by
  obtain ⟨line', column', h⟩ := readWord_append word rest line column
  rw [h]
  exact .ok

/-- A value that starts with a quote is a string. -/
theorem readValue_quote (bound depth : Nat) (more : List Char) (line column : Nat) :
    readValue bound (depth + 1) ⟨'"' :: more, line, column⟩ = (do
      let (text, cursor) ← Cursor.string ⟨more, line, column + 1⟩
      return (.string text, cursor)) := by
  have hskip := @skipSpace_solid ⟨'"' :: more, line, column⟩ (solid_cons.mpr rfl)
  simp only [readValue, hskip]
  rfl

/-- A value that starts with a bracket is an array. -/
theorem readValue_bracket (bound depth : Nat) (more : List Char) (line column : Nat) :
    readValue bound (depth + 2) ⟨'[' :: more, line, column⟩ = (do
      let (items, cursor) ← readArray (readValue bound (depth + 1)) bound ⟨more, line, column + 1⟩
      return (.array items, cursor)) := by
  have hskip := @skipSpace_solid ⟨'[' :: more, line, column⟩ (solid_cons.mpr rfl)
  rw [readValue]
  simp only [hskip]
  rfl

/-- A value that starts with a brace is an object. -/
theorem readValue_brace (bound depth : Nat) (more : List Char) (line column : Nat) :
    readValue bound (depth + 2) ⟨'\x7b' :: more, line, column⟩ = (do
      let (members, cursor) ← readObject (readValue bound (depth + 1)) bound
        ⟨more, line, column + 1⟩
      return (.object (mergeMembers members), cursor)) := by
  have hskip := @skipSpace_solid ⟨'\x7b' :: more, line, column⟩ (solid_cons.mpr rfl)
  rw [readValue]
  simp only [hskip]
  rfl

/-- The value is read off the text, before whatever is no part of a number. -/
def ReadAs (value : ValueReader) (text : List Char) (document : Json) : Prop :=
  Opens text ∧ ∀ rest, Boundary rest → ∀ line column,
    Gets (value ⟨text ++ rest, line, column⟩) document rest

section Lists

variable {value : ValueReader} {text more rest : List Char} {document : Json} {rounds : Nat}

/-- Where a value stands, after a line was started, is no end of an array. -/
theorem ReadAs.afterLine (h : ReadAs value text document) (level : Nat) (more : List Char)
    (line column : Nat) :
    ∃ c text' line' column', isSpace c = false ∧ c ≠ ']' ∧ text ++ more = c :: text' ∧
      Cursor.skipSpace ⟨(lineStart level).toList ++ (text ++ more), line, column⟩ =
        ⟨c :: text', line', column'⟩ := by
  obtain ⟨c, text', htext, hspace, hne⟩ := h.1.append more
  obtain ⟨line', column', hskip⟩ := skipSpace_blanks (isSpace_lineStart level)
    (h.1.append more).solid line column
  exact ⟨c, text', line', column', hspace, hne, htext, htext ▸ hskip⟩

theorem after_comma (more : List Char) (line column : Nat) :
    Cursor.after ⟨',' :: more, line, column⟩ ',' more = ⟨more, line, column + 1⟩ := rfl

/-- The first item and those after it. -/
theorem readArray_cons (hitem : ReadAs value text document) (level : Nat)
    (hboundary : Boundary more) {items : List Json}
    (hmore : ∀ line column, Gets (readItems value rounds ⟨more, line, column⟩) items rest)
    (line column : Nat) :
    Gets (readArray value rounds ⟨(lineStart level).toList ++ (text ++ more), line, column⟩)
      (document :: items) rest := by
  obtain ⟨c, text', line', column', -, hne, htext, hskip⟩ := hitem.afterLine level more line column
  have hread := hitem.2 more hboundary line' column'
  rw [htext] at hread
  rw [readArray]
  simp only [hskip]
  split
  next heq => cases heq
  next heq => cases heq; exact absurd rfl hne
  next => exact hread.bind fun _ _ => (hmore _ _).bind fun _ _ => .ok

/-- An item after the first, and those after it. -/
theorem readItems_cons (hitem : ReadAs value text document) (level : Nat)
    (hboundary : Boundary more) {items : List Json}
    (hmore : ∀ line column, Gets (readItems value rounds ⟨more, line, column⟩) items rest)
    (line column : Nat) :
    Gets (readItems value (rounds + 1)
      ⟨',' :: ((lineStart level).toList ++ (text ++ more)), line, column⟩)
      (document :: items) rest := by
  obtain ⟨c, text', line', column', -, hne, htext, hskip⟩ :=
    hitem.afterLine level more line (column + 1)
  have hread := hitem.2 more hboundary line' column'
  have hcomma := @skipSpace_solid ⟨',' :: ((lineStart level).toList ++ (text ++ more)), line,
    column⟩ (solid_cons.mpr rfl)
  rw [htext] at hread
  rw [readItems]
  simp only [hcomma, after_comma, hskip]
  split
  next heq => cases heq
  next heq => cases heq; exact absurd rfl hne
  next => exact hread.bind fun _ _ => (hmore _ _).bind fun _ _ => .ok

/-- The end of an array, on a line of its own. -/
theorem readItems_nil (level : Nat) (line column : Nat) :
    Gets (readItems value (rounds + 1)
      ⟨(lineStart level).toList ++ ']' :: rest, line, column⟩) [] rest := by
  obtain ⟨line', column', hskip⟩ := @skipSpace_blanks _ (']' :: rest) (isSpace_lineStart level)
    (solid_cons.mpr rfl) line column
  rw [readItems]
  simp only [hskip]
  exact .ok

/-- A member, from after the quote of its name. -/
theorem readMember_cons {name : String}
    (hvalue : ∀ line column, Gets (value ⟨' ' :: text, line, column⟩) document more)
    (line column : Nat) :
    Gets (readMember value ⟨stringBody name ++ ':' :: ' ' :: text, line, column⟩)
      (name, document) more := by
  rw [readMember]
  refine (string_stringBody name _ line column).bind fun line column => ?_
  have hcolon := @skipSpace_solid ⟨':' :: ' ' :: text, line, column⟩ (solid_cons.mpr rfl)
  simp only [hcolon]
  exact (hvalue _ _).bind fun _ _ => .ok

/-- Where a name stands, after a line was started. -/
theorem skipSpace_quote (level : Nat) (more : List Char) (line column : Nat) :
    ∃ line' column', Cursor.skipSpace ⟨(lineStart level).toList ++ '"' :: more, line, column⟩ =
      ⟨'"' :: more, line', column'⟩ :=
  skipSpace_blanks (isSpace_lineStart level) (solid_cons.mpr rfl) line column

/-- The first member and those after it. -/
theorem readObject_cons {name : String}
    (hvalue : ∀ line column, Gets (value ⟨' ' :: text, line, column⟩) document more)
    (level : Nat) {members : List (String × Json)}
    (hmore : ∀ line column, Gets (readMembers value rounds ⟨more, line, column⟩) members rest)
    (line column : Nat) :
    Gets (readObject value rounds ⟨(lineStart level).toList ++
        '"' :: (stringBody name ++ ':' :: ' ' :: text), line, column⟩)
      ((name, document) :: members) rest := by
  obtain ⟨line', column', hskip⟩ := skipSpace_quote level
    (stringBody name ++ ':' :: ' ' :: text) line column
  rw [readObject]
  simp only [hskip]
  exact (readMember_cons hvalue _ _).bind fun _ _ => (hmore _ _).bind fun _ _ => .ok

/-- A member after the first, and those after it. -/
theorem readMembers_cons {name : String}
    (hvalue : ∀ line column, Gets (value ⟨' ' :: text, line, column⟩) document more)
    (level : Nat) {members : List (String × Json)}
    (hmore : ∀ line column, Gets (readMembers value rounds ⟨more, line, column⟩) members rest)
    (line column : Nat) :
    Gets (readMembers value (rounds + 1) ⟨',' :: ((lineStart level).toList ++
        '"' :: (stringBody name ++ ':' :: ' ' :: text)), line, column⟩)
      ((name, document) :: members) rest := by
  obtain ⟨line', column', hskip⟩ := skipSpace_quote level
    (stringBody name ++ ':' :: ' ' :: text) line (column + 1)
  have hcomma := @skipSpace_solid ⟨',' :: ((lineStart level).toList ++
    '"' :: (stringBody name ++ ':' :: ' ' :: text)), line, column⟩ (solid_cons.mpr rfl)
  rw [readMembers]
  simp only [hcomma, after_comma, hskip]
  exact (readMember_cons hvalue _ _).bind fun _ _ => (hmore _ _).bind fun _ _ => .ok

/-- The end of an object, on a line of its own. -/
theorem readMembers_nil (level : Nat) (line column : Nat) :
    Gets (readMembers value (rounds + 1)
      ⟨(lineStart level).toList ++ '\x7d' :: rest, line, column⟩) [] rest := by
  obtain ⟨line', column', hskip⟩ := @skipSpace_blanks _ ('\x7d' :: rest)
    (isSpace_lineStart level) (solid_cons.mpr rfl) line column
  rw [readMembers]
  simp only [hskip]
  exact .ok

end Lists

/-- Whatever is above a number has a predecessor. -/
theorem exists_succ_of_lt {n depth : Nat} (h : n < depth) : ∃ k, depth = k + 1 :=
  Nat.exists_eq_add_one.mpr (Nat.zero_lt_of_lt h)

mutual

/-- **A document is read back** where what follows is no part of a number. -/
theorem readValue_indentedAt (bound : Nat) (document : Json) (level depth : Nat)
    (hproper : document.Proper Settled) (hnesting : document.nesting < depth)
    (hlength : (indentedAt level document).toList.length ≤ bound) (rest : List Char)
    (hrest : Boundary rest) (line column : Nat) :
    Gets (readValue bound depth ⟨(indentedAt level document).toList ++ rest, line, column⟩)
      document rest := by
  obtain ⟨depth, rfl⟩ := exists_succ_of_lt hnesting
  cases document with
  | null =>
      have htext : (indentedAt level .null).toList = ['n', 'u', 'l', 'l'] := by simp [indentedAt]
      have hskip := @skipSpace_solid ⟨['n', 'u', 'l', 'l'] ++ rest, line, column⟩
        (solid_cons.mpr rfl)
      rw [htext, readValue]
      simp only [hskip]
      exact gets_word _ _
  | bool b =>
      cases b with
      | true =>
          have htext : (indentedAt level (.bool true)).toList = ['t', 'r', 'u', 'e'] := by
            simp [indentedAt]
          have hskip := @skipSpace_solid ⟨['t', 'r', 'u', 'e'] ++ rest, line, column⟩
            (solid_cons.mpr rfl)
          rw [htext, readValue]
          simp only [hskip]
          exact gets_word _ _
      | false =>
          have htext : (indentedAt level (.bool false)).toList = ['f', 'a', 'l', 's', 'e'] := by
            simp [indentedAt]
          have hskip := @skipSpace_solid ⟨['f', 'a', 'l', 's', 'e'] ++ rest, line, column⟩
            (solid_cons.mpr rfl)
          rw [htext, readValue]
          simp only [hskip]
          exact gets_word _ _
  | number n =>
      rw [indentedAt]
      cases n with
      | integer value => exact readValue_integer bound depth hproper.1 hproper.2 hrest line column
      | real x => exact Settled.reads hproper bound depth hrest line column
  | string s =>
      rw [indentedAt, toList_stringText, List.cons_append, readValue_quote]
      exact (string_stringBody s rest line (column + 1)).bind fun _ _ => .ok
  | array items =>
      obtain ⟨depth, rfl⟩ := exists_succ_of_lt (Nat.lt_of_succ_lt_succ hnesting)
      cases items with
      | nil =>
          have htext : (indentedAt level (.array [])).toList = ['[', ']'] := by simp [indentedAt]
          have hskip := @skipSpace_solid ⟨']' :: rest, line, column + 1⟩ (solid_cons.mpr rfl)
          rw [htext, List.cons_append, readValue_bracket, readArray, List.singleton_append]
          simp only [hskip]
          exact .ok
      | cons item items =>
          obtain ⟨hitem, hitems⟩ := hproper
          simp only [nesting, itemsNesting] at hnesting
          have hcount := length_moreItems level items
          rw [toList_array] at hlength ⊢
          simp only [List.length_cons, List.length_append] at hlength
          have hread : ReadAs (readValue bound (depth + 1)) _ item :=
            ⟨opens_indentedAt hitem (level + 1), readValue_indentedAt bound item (level + 1)
              (depth + 1) hitem (by omega) (by omega)⟩
          have hmore := readItems_moreItems bound items level (depth + 1) bound hitems (by omega)
            (by omega) (by omega) rest
          simp only [List.cons_append, List.append_assoc]
          rw [readValue_bracket]
          have hboundary := boundary_moreItems level items rest
          exact (readArray_cons hread (level + 1) hboundary hmore _ _).bind fun _ _ => .ok
  | object members =>
      obtain ⟨depth, rfl⟩ := exists_succ_of_lt (Nat.lt_of_succ_lt_succ hnesting)
      cases members with
      | nil =>
          have htext : (indentedAt level (.object [])).toList = ['\x7b', '\x7d'] := by
            simp [indentedAt]
          have hskip := @skipSpace_solid ⟨'\x7d' :: rest, line, column + 1⟩ (solid_cons.mpr rfl)
          rw [htext, List.cons_append, readValue_brace, readObject, List.singleton_append]
          simp only [hskip]
          exact .ok
      | cons member members =>
          obtain ⟨name, value⟩ := member
          obtain ⟨hnames, hvalue, hmembers⟩ := hproper
          simp only [nesting, membersNesting] at hnesting
          have hcount := length_moreMembers level members
          rw [toList_object] at hlength ⊢
          simp only [memberText, List.length_cons, List.length_append] at hlength
          have hread := readValue_blank (opens_indentedAt hvalue (level + 1))
            (readValue_indentedAt bound value (level + 1) (depth + 1) hvalue (by omega) (by omega) _
              (boundary_moreMembers level members rest))
          have hmore := readMembers_moreMembers bound members level (depth + 1) bound hmembers
            (by omega) (by omega) (by omega) rest
          simp only [memberText, List.cons_append, List.append_assoc]
          rw [readValue_brace]
          refine (readObject_cons hread (level + 1) hmore _ _).bind fun _ _ => ?_
          simp only [mergeMembers_eq hnames]
          exact .ok

/-- The items after the first are read back. -/
theorem readItems_moreItems (bound : Nat) : (items : List Json) → (level depth rounds : Nat) →
    ItemsProper Settled items → itemsNesting items < depth →
    (moreItems level items).length ≤ bound → items.length < rounds → (rest : List Char) →
    (line column : Nat) →
    Gets (readItems (readValue bound depth) rounds ⟨moreItems level items ++ rest, line, column⟩)
      items rest
  | _, _, _, 0, _, _, _, hrounds, _, _, _ => absurd hrounds (Nat.not_lt_zero _)
  | [], level, depth, rounds + 1, _, _, _, _, rest, line, column => by
      rw [moreItems, List.append_assoc]
      exact readItems_nil level line column
  | item :: items, level, depth, rounds + 1, hproper, hnesting, hlength, hrounds, rest, line,
      column => by
      rw [itemsNesting] at hnesting
      simp only [moreItems, List.cons_append, List.length_cons, List.length_append] at hlength
      have hread : ReadAs (readValue bound depth) _ item :=
        ⟨opens_indentedAt hproper.1 (level + 1), readValue_indentedAt bound item (level + 1) depth
          hproper.1 (by omega) (by omega)⟩
      have hmore := readItems_moreItems bound items level depth rounds hproper.2 (by omega)
        (by omega) (Nat.lt_of_succ_lt_succ hrounds) rest
      simp only [moreItems, List.cons_append, List.append_assoc]
      exact readItems_cons hread (level + 1) (boundary_moreItems level items rest) hmore _ _

/-- The members after the first are read back. -/
theorem readMembers_moreMembers (bound : Nat) : (members : List (String × Json)) →
    (level depth rounds : Nat) → MembersProper Settled members → membersNesting members < depth →
    (moreMembers level members).length ≤ bound → members.length < rounds → (rest : List Char) →
    (line column : Nat) →
    Gets (readMembers (readValue bound depth) rounds
      ⟨moreMembers level members ++ rest, line, column⟩) members rest
  | _, _, _, 0, _, _, _, hrounds, _, _, _ => absurd hrounds (Nat.not_lt_zero _)
  | [], level, depth, rounds + 1, _, _, _, _, rest, line, column => by
      rw [moreMembers, List.append_assoc]
      exact readMembers_nil level line column
  | (name, value) :: members, level, depth, rounds + 1, hproper, hnesting, hlength, hrounds, rest,
      line, column => by
      rw [membersNesting] at hnesting
      simp only [moreMembers, memberText, List.cons_append, List.length_cons,
        List.length_append] at hlength
      have hread := readValue_blank (opens_indentedAt hproper.1 (level + 1))
        (readValue_indentedAt bound value (level + 1) depth hproper.1 (by omega) (by omega) _
          (boundary_moreMembers level members rest))
      have hmore := readMembers_moreMembers bound members level depth rounds hproper.2 (by omega)
        (by omega) (Nat.lt_of_succ_lt_succ hrounds) rest
      simp only [moreMembers, memberText, List.cons_append, List.append_assoc]
      exact readMembers_cons hread (level + 1) hmore _ _

end

/-- **An indented document is read back**, if it is proper and its nesting is
within the limit. -/
theorem read_indented {document : Json} (hproper : document.Proper Settled)
    (hnesting : document.nesting < nestingLimit) : read document.indented = .ok document := by
  obtain ⟨line, column, hread⟩ := readValue_indentedAt document.indented.length document 0
    nestingLimit hproper hnesting (Nat.le_of_eq String.length_toList) [] boundary_nil 1 0
  rw [List.append_nil] at hread
  rw [read, show document.indented.toList = (indentedAt 0 document).toList from rfl, hread]
  rfl

end FunctionIR.Json
