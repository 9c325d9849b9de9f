import FunctionIR.Proofs.Decimal.Notation
import FunctionIR.Proofs.Exchange.Program
import FunctionIR.Proofs.Json.RoundTrip
import FunctionIR.Proofs.Reading.Denotes
import FunctionIR.Proofs.Reading.Naming
import FunctionIR.Proofs.Reading.Shape
import FunctionIR.Proofs.Text.Quoting

/-!
# Dumps tell trees

A dump is a text for reading by eye, but it leaves nothing of a tree out, places and
identity numbers apart: two trees with the same dump are alike at every depth
(`alike_of_dump`).  What a value is can be seen from the first character of its dump
that belongs to no word (`behindWord`): a quote for a text, a bracket for a list, a
parenthesis for a node, and else something that stands behind the value.  And every
dump shows where it ends, so what is behind it does not matter
(`Value.dump_append_inj`).

This is so for values of which the names are identifiers, and which hold nothing
foreign and no double that is not a number (`Value.Legible`).  The trees of program
texts are such.
-/

namespace FunctionIR

open Decimal (InWord Unsigned)

namespace Value

mutual

/-- Tags and names of fields are identifiers, nothing is foreign, and every double is a
number. -/
def Legible : Value → Prop
  | .scalar (.real x) => x.isNaN = false
  | .scalar _ => True
  | .node head fields => IsIdentifier head.kind.tag.toList ∧ FieldsLegible fields
  | .list items => ItemsLegible items
  | .foreign _ => False

/-- All items are legible. -/
def ItemsLegible : List Value → Prop
  | [] => True
  | item :: rest => Legible item ∧ ItemsLegible rest

/-- All fields are legible. -/
def FieldsLegible : List (String × Value) → Prop
  | [] => True
  | (name, value) :: rest => IsIdentifier name.toList ∧ Legible value ∧ FieldsLegible rest

end

mutual

/-- At every depth the tags of kinds, the names of fields in order, and the leaves are
the same. -/
inductive Alike : Value → Value → Prop
  | scalar (s : Scalar) : Alike (.scalar s) (.scalar s)
  | node {head head' : Head} {fields fields' : Fields} :
      head.kind.tag = head'.kind.tag → FieldsAlike fields fields' →
      Alike (.node head fields) (.node head' fields')
  | list {items items' : List Value} : ItemsAlike items items' → Alike (.list items) (.list items')

/-- The items are alike one by one. -/
inductive ItemsAlike : List Value → List Value → Prop
  | nil : ItemsAlike [] []
  | cons {item item' : Value} {rest rest' : List Value} :
      Alike item item' → ItemsAlike rest rest' → ItemsAlike (item :: rest) (item' :: rest')

/-- The fields have the same names and are alike one by one. -/
inductive FieldsAlike : Fields → Fields → Prop
  | nil : FieldsAlike [] []
  | cons {name : String} {value value' : Value} {rest rest' : Fields} :
      Alike value value' → FieldsAlike rest rest' →
      FieldsAlike ((name, value) :: rest) ((name, value') :: rest')

end

end Value

/-! ### Words -/

/-- Whether a text is an identifier can be computed. -/
theorem isIdentifier_iff {text : List Char} : IsIdentifier text ↔
    (text.head?.any fun c => c.isAlpha || c == '_') = true ∧
      ((text.drop 1).all fun c => c.isAlphanum || c == '_') = true := by
  cases text with
  | nil =>
      refine ⟨fun h => ?_, fun h => Bool.noConfusion h.1⟩
      obtain ⟨_, _, htext, -⟩ := h
      cases htext
  | cons first more => simp [IsIdentifier]

/-- Whether a text is an identifier can be seen from its characters. -/
instance (text : List Char) : Decidable (IsIdentifier text) :=
  decidable_of_iff _ isIdentifier_iff.symm

/-- The characters of an identifier are characters of words. -/
theorem IsIdentifier.inWord {text : List Char} (h : IsIdentifier text) : ∀ c ∈ text, InWord c := by
  obtain ⟨first, more, rfl, hfirst, hmore⟩ := h
  refine List.forall_mem_cons.mpr ⟨?_, fun c hc => ?_⟩
  · rcases hfirst with hfirst | rfl
    · exact .inl (by simp [Char.isAlphanum, hfirst])
    · exact .inr (.inl rfl)
  · exact (hmore c hc).imp_right .inl

/-- A name ends at a character that belongs to no word. -/
theorem IsIdentifier.append_inj {name name' : String} (h : IsIdentifier name.toList)
    (h' : IsIdentifier name'.toList) {c : Char} (hc : ¬ InWord c) {rest rest' : List Char}
    (heq : name.toList ++ c :: rest = name'.toList ++ c :: rest') : name = name' ∧ rest = rest' := by
  have hhead (rest : List Char) : ∀ d ∈ (c :: rest).head?, ¬ InWord d := by
    rintro _ ⟨⟩
    exact hc
  obtain ⟨hname, hbehind⟩ :=
    Text.append_inj_of_stretch h.inWord h'.inWord (hhead rest) (hhead rest') heq
  exact ⟨String.toList_injective hname, (List.cons.inj hbehind).2⟩

/-- The first character that belongs to no word. -/
def behindWord (text : List Char) : Option Char := text.find? fun c => !decide (InWord c)

theorem behindWord_append {word : List Char} (h : ∀ c ∈ word, InWord c) (rest : List Char) :
    behindWord (word ++ rest) = behindWord rest := by
  have hnone : word.find? (fun c => !decide (InWord c)) = none :=
    List.find?_eq_none.mpr fun c hc => by simp [h c hc]
  rw [behindWord, List.find?_append, hnone, Option.none_or]
  rfl

/-- What can stand behind a value. -/
def Delimited (rest : List Char) : Prop := ∀ c ∈ rest.head?, c = ',' ∨ c = ')' ∨ c = ']'

/-- What stands behind a value belongs to no word. -/
theorem Delimited.not_inWord {rest : List Char} (h : Delimited rest) :
    ∀ c ∈ rest.head?, ¬ InWord c := by
  intro c hc
  rcases h c hc with rfl | rfl | rfl <;> decide

/-- What stands behind a value begins with the first such character. -/
theorem Delimited.behindWord {rest : List Char} (h : Delimited rest) :
    behindWord rest = rest.head? := by
  cases rest with
  | nil => rfl
  | cons c more => simp [FunctionIR.behindWord, h.not_inWord c rfl]

namespace Scalar

/-- The leaf is shown as a word. -/
def isWord : Scalar → Bool
  | .str _ => false
  | _ => true

/-- The leaf is a number. -/
def isNumber : Scalar → Bool
  | .int _ | .real _ => true
  | _ => false

/-- A leaf that is told from the others in a dump. -/
def Legible (s : Scalar) : Prop := (Value.scalar s).Legible

/-- The characters of an integer. -/
theorem toList_dump_int (value : Int64) : (Scalar.int value).dump.toList =
    if value.toInt < 0 then '-' :: Nat.toDigits 10 value.toInt.natAbs
    else Nat.toDigits 10 value.toInt.natAbs :=
  Json.toList_integer value.toInt

/-- The text of an integer has digits only, but for its sign. -/
theorem mem_dump_int {value : Int64} {c : Char} (h : c ∈ (Scalar.int value).dump.toList) :
    c.isDigit = true ∨ c = '-' := by
  have hdigit (n : Nat) (h : c ∈ Nat.toDigits 10 n) : c.isDigit = true :=
    Nat.isDigit_of_mem_toDigits (by decide) (by decide) h
  rw [toList_dump_int] at h
  split at h
  · exact (List.mem_cons.mp h).symm.imp_left (hdigit _)
  · exact .inl (hdigit _ h)

/-- A number starts with a digit or a sign, or it is infinite. -/
theorem head_number {s : Scalar} (h : s.Legible) (hnumber : s.isNumber = true) :
    ∃ c more, s.dump.toList = c :: more ∧ (c.isDigit = true ∨ c = '-' ∨ c = 'i') := by
  cases s with
  | none | bool | str => cases hnumber
  | int value =>
      cases htext : (Scalar.int value).dump.toList with
      | nil =>
          rw [toList_dump_int] at htext
          split at htext
          · cases htext
          · exact absurd htext Nat.toDigits_ne_nil
      | cons c more =>
          exact ⟨c, more, rfl, (mem_dump_int (htext ▸ List.mem_cons_self)).imp_right .inl⟩
  | real x =>
      obtain ⟨text, htext, hunsigned⟩ := Decimal.toList_write h
      rw [dump, htext]
      split
      · exact ⟨'-', text, rfl, .inr (.inl rfl)⟩
      · obtain ⟨first, more, rfl, hfirst⟩ := hunsigned.head
        exact ⟨first, more, rfl, hfirst.imp_right .inr⟩

/-- No number is shown like a leaf that is none. -/
theorem number_ne {s t : Scalar} (h : s.Legible) (hs : s.isNumber = true)
    (ht : t.isNumber = false) (hword : t.isWord = true) : s.dump.toList ≠ t.dump.toList := by
  obtain ⟨c, more, htext, hc⟩ := head_number h hs
  rw [htext]
  intro heq
  cases t with
  | none =>
      cases heq
      exact absurd hc (by decide)
  | bool value => cases value <;> cases heq <;> exact absurd hc (by decide)
  | int | real => cases ht
  | str => cases hword

/-- An integer is not shown like a double. -/
theorem int_ne_real {value : Int64} {x : Binary64} (h : (Scalar.real x).Legible) :
    (Scalar.int value).dump.toList ≠ (Scalar.real x).dump.toList := by
  intro heq
  obtain ⟨text, htext, hunsigned⟩ := Decimal.toList_write h
  obtain ⟨c, hc, hdigit, hminus⟩ := hunsigned.exists_not_digit
  have hmem : c ∈ (Scalar.int value).dump.toList := by
    rw [heq, dump, htext]
    exact List.mem_append_right _ hc
  rcases mem_dump_int hmem with h | h
  · rw [hdigit] at h
    cases h
  · exact hminus h

/-- Different integers are shown differently. -/
theorem int_injective {value value' : Int64}
    (h : (Scalar.int value).dump.toList = (Scalar.int value').dump.toList) : value = value' := by
  have hminus (n : Nat) (more : List Char) : Nat.toDigits 10 n ≠ '-' :: more := by
    intro heq
    have hmem : '-' ∈ Nat.toDigits 10 n := heq ▸ List.mem_cons_self
    exact absurd (Nat.isDigit_of_mem_toDigits (by decide) (by decide) hmem) (by decide)
  have hdigits {n m : Nat} (h : Nat.toDigits 10 n = Nat.toDigits 10 m) : n = m :=
    Text.toDigits_inj (by decide) (by decide) h
  rw [toList_dump_int, toList_dump_int] at h
  refine Int64.toInt_inj.mp ?_
  split at h <;> split at h
  · have hsame := hdigits (List.cons.inj h).2
    omega
  · exact absurd h.symm (hminus _ _)
  · exact absurd h (hminus _ _)
  · have hsame := hdigits h
    omega

/-- Different words that are no numbers are shown differently. -/
theorem keyword_injective {s t : Scalar} (hs : s.isNumber = false) (ht : t.isNumber = false)
    (hsword : s.isWord = true) (htword : t.isWord = true)
    (h : s.dump.toList = t.dump.toList) : s = t := by
  have hkeyword : ∀ s ∈ [Scalar.none, .bool true, .bool false],
      ∀ t ∈ [Scalar.none, .bool true, .bool false],
        s.dump.toList = t.dump.toList → s = t := by
    decide
  have hmem {s : Scalar} (hs : s.isNumber = false) (hword : s.isWord = true) :
      s ∈ [Scalar.none, .bool true, .bool false] := by
    cases s with
    | none => decide
    | bool value => cases value <;> decide
    | int | real => cases hs
    | str => cases hword
  exact hkeyword s (hmem hs hsword) t (hmem ht htword) h

/-- Different numbers are shown differently. -/
theorem number_injective {s t : Scalar} (hs : s.Legible) (ht : t.Legible)
    (hsnumber : s.isNumber = true) (htnumber : t.isNumber = true)
    (h : s.dump.toList = t.dump.toList) : s = t := by
  cases s with
  | none | bool | str => cases hsnumber
  | int value =>
      cases t with
      | none | bool | str => cases htnumber
      | int value' => rw [int_injective h]
      | real x => exact absurd h (int_ne_real ht)
  | real x =>
      cases t with
      | none | bool | str => cases htnumber
      | int value => exact absurd h.symm (int_ne_real hs)
      | real y => rw [Decimal.dumpLayout_injective hs ht (String.toList_injective h)]

/-- **Different words are shown differently.** -/
theorem dump_injective {s t : Scalar} (hs : s.Legible) (ht : t.Legible)
    (hsword : s.isWord = true) (htword : t.isWord = true)
    (h : s.dump.toList = t.dump.toList) : s = t := by
  cases hsnumber : s.isNumber <;> cases htnumber : t.isNumber
  · exact keyword_injective hsnumber htnumber hsword htword h
  · exact absurd h.symm (number_ne ht htnumber hsnumber hsword)
  · exact absurd h (number_ne hs hsnumber htnumber htword)
  · exact number_injective hs ht hsnumber htnumber h

/-- A leaf that is shown as a word is made of characters of words. -/
theorem inWord_dump {s : Scalar} (h : s.Legible) (hword : s.isWord = true) :
    ∀ c ∈ s.dump.toList, InWord c := by
  cases s with
  | none => exact IsIdentifier.inWord (by decide)
  | bool value => cases value <;> exact IsIdentifier.inWord (by decide)
  | int value =>
      intro c hc
      exact (mem_dump_int hc).elim Decimal.inWord_of_digit fun hminus => .inr (.inr (.inr hminus))
  | real x =>
      obtain ⟨text, htext, hunsigned⟩ := Decimal.toList_write h
      rw [dump, htext]
      refine List.forall_mem_append.mpr ⟨fun c hc => ?_, hunsigned.inWord⟩
      split at hc
      · exact .inr (.inr (.inr (List.mem_singleton.mp hc)))
      · cases hc
  | str => cases hword

end Scalar

namespace Value

/-! ### Lists of texts -/

/-- What follows an item of a list. -/
def moreItems : List Value → List Char
  | [] => [']']
  | item :: rest => ',' :: ' ' :: (item.dump.toList ++ moreItems rest)

/-- The items of a list, up to its end. -/
def itemsText : List Value → List Char
  | [] => [']']
  | item :: rest => item.dump.toList ++ moreItems rest

/-- A field from its name on. -/
def fieldText (name : String) (value : Value) : List Char :=
  name.toList ++ '=' :: value.dump.toList

/-- What follows a field of a node. -/
def moreFields : Fields → List Char
  | [] => [')']
  | (name, value) :: rest => ',' :: ' ' :: (fieldText name value ++ moreFields rest)

/-- The fields of a node, up to its end. -/
def fieldsText : Fields → List Char
  | [] => [')']
  | (name, value) :: rest => fieldText name value ++ moreFields rest

/-- The characters of the items of a list. -/
theorem toList_dumpItems (items : List Value) :
    (dumpItems items).toList ++ [']'] = itemsText items := by
  cases items with
  | nil => rfl
  | cons item rest =>
      rw [itemsText]
      induction rest generalizing item with
      | nil => rw [dumpItems, moreItems]
      | cons next rest ih =>
          rw [moreItems, ← ih next, dumpItems]
          · simp
          · simp

/-- The characters of the fields of a node. -/
theorem toList_dumpFields (fields : Fields) :
    (dumpFields fields).toList ++ [')'] = fieldsText fields := by
  cases fields with
  | nil => rfl
  | cons field rest =>
      obtain ⟨name, value⟩ := field
      rw [fieldsText]
      induction rest generalizing name value with
      | nil => simp [dumpFields, moreFields, fieldText]
      | cons next rest ih =>
          obtain ⟨name', value'⟩ := next
          rw [moreFields, ← ih name' value', dumpFields]
          · simp [fieldText]
          · simp

/-- The characters of a list. -/
theorem toList_dump_list (items : List Value) :
    (Value.list items).dump.toList = '[' :: itemsText items := by
  rw [dump, ← toList_dumpItems]
  simp

/-- The characters of a node. -/
theorem toList_dump_node (head : Head) (fields : Fields) :
    (Value.node head fields).dump.toList =
      head.kind.tag.toList ++ '(' :: fieldsText fields := by
  rw [dump, ← toList_dumpFields]
  simp

/-- An item ends where the next one or the end of the list stands. -/
theorem delimited_moreItems (items : List Value) (rest : List Char) :
    Delimited (moreItems items ++ rest) := by
  cases items <;> rintro _ ⟨⟩ <;> decide

/-- A field ends where the next one or the end of the node stands. -/
theorem delimited_moreFields (fields : Fields) (rest : List Char) :
    Delimited (moreFields fields ++ rest) := by
  cases fields <;> rintro _ ⟨⟩ <;> decide

/-! ### What a value is -/

/-- What shows the sort of a value: the first character of its dump, or behind it, that
belongs to no word. -/
def mark (value : Value) (rest : List Char) : Option Char :=
  match value with
  | .scalar (.str _) => some '"'
  | .scalar _ => rest.head?
  | .node _ _ => some '('
  | .list _ => some '['
  | .foreign _ => some '<'

/-- What shows a word is what stands behind it. -/
theorem mark_word {s : Scalar} (h : s.isWord = true) (rest : List Char) :
    (Value.scalar s).mark rest = rest.head? := by
  cases s with
  | str => cases h
  | _ => rfl

/-- The first character behind the first word shows the sort of the value. -/
theorem behindWord_dump {value : Value} (h : value.Legible) {rest : List Char}
    (hrest : Delimited rest) : behindWord (value.dump.toList ++ rest) = value.mark rest := by
  cases value with
  | scalar s =>
      cases hword : s.isWord with
      | true =>
          rw [dump, behindWord_append (Scalar.inWord_dump h hword), hrest.behindWord,
            mark_word hword]
      | false =>
          cases s with
          | str text =>
              rw [dump, Scalar.dump, Text.toList_quoted]
              rfl
          | _ => cases hword
  | node head fields =>
      rw [toList_dump_node, List.append_assoc, behindWord_append h.1.inWord]
      rfl
  | list items =>
      rw [toList_dump_list]
      rfl
  | foreign => exact h.elim

/-- A dump begins with a word, a quote or a bracket. -/
theorem head_dump {value : Value} (h : value.Legible) :
    ∃ c more, value.dump.toList = c :: more ∧ (InWord c ∨ c = '"' ∨ c = '[') := by
  cases value with
  | scalar s =>
      cases s with
      | str text => exact ⟨'"', _, Text.toList_quoted text, .inr (.inl rfl)⟩
      | none => exact ⟨'N', _, rfl, .inl (by decide)⟩
      | bool value => cases value <;> exact ⟨_, _, rfl, .inl (by decide)⟩
      | int | real =>
          obtain ⟨c, more, htext, -⟩ := Scalar.head_number h rfl
          exact ⟨c, more, htext, .inl (Scalar.inWord_dump h rfl c (by simp [htext]))⟩
  | node head fields =>
      obtain ⟨c, more, htext, -⟩ := h.1
      rw [toList_dump_node, htext]
      exact ⟨c, _, rfl, .inl (h.1.inWord c (by simp [htext]))⟩
  | list items => exact ⟨'[', _, toList_dump_list items, .inr (.inr rfl)⟩
  | foreign => exact h.elim

/-- No value is shown like the end of a list. -/
theorem dump_ne_end {value : Value} (h : value.Legible) (rest more : List Char) :
    value.dump.toList ++ rest ≠ ']' :: more := by
  obtain ⟨c, others, htext, hc⟩ := head_dump h
  rw [htext]
  rintro ⟨⟩
  revert hc
  decide

/-- A field does not begin like the end of a node. -/
theorem fieldText_ne_end {name : String} (h : IsIdentifier name.toList) (value : Value)
    (rest more : List Char) : fieldText name value ++ rest ≠ ')' :: more := by
  have hword := h.inWord
  obtain ⟨c, others, htext, -⟩ := h
  have hc := hword c (by simp [htext])
  rw [fieldText, htext]
  rintro ⟨⟩
  revert hc
  decide

/-- Behind two lists that are written alike, what follows an item is, too. -/
theorem moreItems_of_itemsText {items items' : List Value} (ha : ItemsLegible items)
    (hb : ItemsLegible items') {rest rest' : List Char}
    (h : itemsText items ++ rest = itemsText items' ++ rest') :
    moreItems items ++ rest = moreItems items' ++ rest' := by
  cases items with
  | nil =>
      cases items' with
      | nil => exact h
      | cons item' items' =>
          rw [itemsText, itemsText, List.append_assoc] at h
          exact absurd h.symm (dump_ne_end hb.1 _ _)
  | cons item items =>
      cases items' with
      | nil =>
          rw [itemsText, itemsText, List.append_assoc] at h
          exact absurd h (dump_ne_end ha.1 _ _)
      | cons item' items' => exact congrArg (fun text => ',' :: ' ' :: text) h

/-- Two nodes that are shown alike have alike fields or none. -/
theorem moreFields_of_fieldsText {fields fields' : Fields} (ha : FieldsLegible fields)
    (hb : FieldsLegible fields') {rest rest' : List Char}
    (h : fieldsText fields ++ rest = fieldsText fields' ++ rest') :
    moreFields fields ++ rest = moreFields fields' ++ rest' := by
  cases fields with
  | nil =>
      cases fields' with
      | nil => exact h
      | cons field' fields' =>
          rw [fieldsText, fieldsText, List.append_assoc] at h
          exact absurd h.symm (fieldText_ne_end hb.1 _ _ _)
  | cons field fields =>
      cases fields' with
      | nil =>
          rw [fieldsText, fieldsText, List.append_assoc] at h
          exact absurd h (fieldText_ne_end ha.1 _ _ _)
      | cons field' fields' => exact congrArg (fun text => ',' :: ' ' :: text) h

/-- What shows a word is a comma or a closing bracket. -/
theorem mark_delimited {s : Scalar} (hword : s.isWord = true) {rest : List Char}
    (hrest : Delimited rest) {c : Char} (h : (Value.scalar s).mark rest = some c) :
    c = ',' ∨ c = ')' ∨ c = ']' :=
  hrest c (by rw [← mark_word hword, h]; exact Option.mem_some_self c)

/-- Leaves are told from what is behind them. -/
theorem scalar_append_inj {s t : Scalar} (hs : s.Legible) (ht : t.Legible)
    {rest rest' : List Char} (hrest : Delimited rest) (hrest' : Delimited rest')
    (hmark : (Value.scalar s).mark rest = (Value.scalar t).mark rest')
    (h : s.dump.toList ++ rest = t.dump.toList ++ rest') : s = t ∧ rest = rest' := by
  cases hsword : s.isWord <;> cases htword : t.isWord
  · cases s with
    | str text =>
        cases t with
        | str text' =>
            obtain ⟨rfl, hbehind⟩ := Text.quoted_append_inj h
            exact ⟨rfl, hbehind⟩
        | _ => cases htword
    | _ => cases hsword
  · cases s with
    | str text => exact absurd (mark_delimited htword hrest' hmark.symm) (by decide)
    | _ => cases hsword
  · cases t with
    | str text => exact absurd (mark_delimited hsword hrest hmark) (by decide)
    | _ => cases htword
  · obtain ⟨hsame, hbehind⟩ := Text.append_inj_of_stretch (Scalar.inWord_dump hs hsword)
      (Scalar.inWord_dump ht htword) hrest.not_inWord hrest'.not_inWord h
    exact ⟨Scalar.dump_injective hs ht hsword htword hsame, hbehind⟩

/-- A leaf is no node and no list. -/
theorem mark_scalar_ne {s : Scalar} {rest : List Char} (hrest : Delimited rest) {c : Char}
    (hc : c = '(' ∨ c = '[') : (Value.scalar s).mark rest ≠ some c := by
  intro h
  cases hword : s.isWord with
  | true =>
      have hdelimited := mark_delimited hword hrest h
      rcases hc with rfl | rfl <;> revert hdelimited <;> decide
  | false =>
      cases s with
      | str => rcases hc with rfl | rfl <;> cases h
      | _ => cases hword

mutual

/-- **A dump tells the value**, and where it ends. -/
theorem dump_append_inj : (a b : Value) → a.Legible → b.Legible → {rest rest' : List Char} →
    Delimited rest → Delimited rest' → a.dump.toList ++ rest = b.dump.toList ++ rest' →
    a.Alike b ∧ rest = rest'
  | a, b, ha, hb, _, _, hrest, hrest', h => by
      -- the marks tell that both values are of one sort
      have hmark := (behindWord_dump ha hrest).symm.trans ((congrArg behindWord h).trans
        (behindWord_dump hb hrest'))
      cases a with
      | scalar s =>
          cases b with
          | scalar t =>
              obtain ⟨rfl, hbehind⟩ := scalar_append_inj ha hb hrest hrest' hmark h
              exact ⟨.scalar s, hbehind⟩
          | node => exact absurd hmark (mark_scalar_ne hrest (.inl rfl))
          | list => exact absurd hmark (mark_scalar_ne hrest (.inr rfl))
          | foreign => exact hb.elim
      | node head fields =>
          cases b with
          | scalar t => exact absurd hmark.symm (mark_scalar_ne hrest' (.inl rfl))
          | node head' fields' =>
              rw [toList_dump_node, toList_dump_node, List.append_assoc, List.append_assoc] at h
              obtain ⟨htag, hbehind⟩ := ha.1.append_inj hb.1 (by decide) h
              obtain ⟨hfields, hrest⟩ := moreFields_append_inj fields fields' ha.2 hb.2
                (moreFields_of_fieldsText ha.2 hb.2 hbehind)
              exact ⟨.node htag hfields, hrest⟩
          | list => cases hmark
          | foreign => exact hb.elim
      | list items =>
          cases b with
          | scalar t => exact absurd hmark.symm (mark_scalar_ne hrest' (.inr rfl))
          | node => cases hmark
          | list items' =>
              rw [toList_dump_list, toList_dump_list] at h
              obtain ⟨hitems, hrest⟩ := moreItems_append_inj items items' ha hb
                (moreItems_of_itemsText ha hb (List.cons.inj h).2)
              exact ⟨.list hitems, hrest⟩
          | foreign => exact hb.elim
      | foreign => exact ha.elim

theorem moreItems_append_inj : (items items' : List Value) → ItemsLegible items →
    ItemsLegible items' → {rest rest' : List Char} →
    moreItems items ++ rest = moreItems items' ++ rest' → ItemsAlike items items' ∧ rest = rest'
  | [], [], _, _, _, _, h => ⟨.nil, (List.cons.inj h).2⟩
  | [], _ :: _, _, _, _, _, h => absurd (List.cons.inj h).1 (by decide)
  | _ :: _, [], _, _, _, _, h => absurd (List.cons.inj h).1 (by decide)
  | item :: items, item' :: items', ha, hb, rest, rest', h => by
      simp only [moreItems, List.cons_append, List.append_assoc, List.cons.injEq, true_and] at h
      obtain ⟨hitem, hmore⟩ := dump_append_inj item item' ha.1 hb.1
        (delimited_moreItems items rest) (delimited_moreItems items' rest') h
      obtain ⟨hitems, hrest⟩ := moreItems_append_inj items items' ha.2 hb.2 hmore
      exact ⟨.cons hitem hitems, hrest⟩

theorem moreFields_append_inj : (fields fields' : Fields) → FieldsLegible fields →
    FieldsLegible fields' → {rest rest' : List Char} →
    moreFields fields ++ rest = moreFields fields' ++ rest' →
    FieldsAlike fields fields' ∧ rest = rest'
  | [], [], _, _, _, _, h => ⟨.nil, (List.cons.inj h).2⟩
  | [], _ :: _, _, _, _, _, h => absurd (List.cons.inj h).1 (by decide)
  | _ :: _, [], _, _, _, _, h => absurd (List.cons.inj h).1 (by decide)
  | (name, value) :: fields, (name', value') :: fields', ha, hb, rest, rest', h => by
      simp only [moreFields, fieldText, List.cons_append, List.append_assoc, List.cons.injEq,
        true_and] at h
      -- the name ends at the equals sign, the value where what is behind it begins
      obtain ⟨rfl, hbehind⟩ := ha.1.append_inj hb.1 (by decide) h
      obtain ⟨hvalue, hmore⟩ := dump_append_inj value value' ha.2.1 hb.2.1
        (delimited_moreFields fields rest) (delimited_moreFields fields' rest') hbehind
      obtain ⟨hfields, hrest⟩ := moreFields_append_inj fields fields' ha.2.2 hb.2.2 hmore
      exact ⟨.cons hvalue hfields, hrest⟩

end

/-! ### Forms -/

mutual

/-- Alike values are the same, identity numbers and places apart, if their kinds are told
by their tags. -/
theorem Alike.form_eq : {a b : Value} → a.Alike b →
    (∀ node ∈ a.nodes, node.head.kind.Portable) → (∀ node ∈ b.nodes, node.head.kind.Portable) →
    a.form = b.form
  | _, _, .scalar _, _, _ => rfl
  | .node head fields, .node head' fields', .node htag hfields, ha, hb => by
      obtain ⟨hhead, ha⟩ := List.forall_mem_cons.mp ha
      obtain ⟨hhead', hb⟩ := List.forall_mem_cons.mp hb
      have hkind : head.kind = head'.kind := by
        rw [← hhead.ofTag, ← hhead'.ofTag]
        exact congrArg Kind.ofTag htag
      rw [form, form, hkind, FieldsAlike.form_eq hfields ha hb]
  | _, _, .list hitems, ha, hb => by
      rw [form, form, ItemsAlike.form_eq hitems ha hb]

theorem ItemsAlike.form_eq : {items items' : List Value} → ItemsAlike items items' →
    (∀ node ∈ nodesOfItems items, node.head.kind.Portable) →
    (∀ node ∈ nodesOfItems items', node.head.kind.Portable) → formItems items = formItems items'
  | _, _, .nil, _, _ => rfl
  | _, _, .cons hitem hrest, ha, hb => by
      obtain ⟨ha, hamore⟩ := List.forall_mem_append.mp ha
      obtain ⟨hb, hbmore⟩ := List.forall_mem_append.mp hb
      rw [formItems, formItems, Alike.form_eq hitem ha hb, ItemsAlike.form_eq hrest hamore hbmore]

theorem FieldsAlike.form_eq : {fields fields' : Fields} → FieldsAlike fields fields' →
    (∀ node ∈ nodesOfFields fields, node.head.kind.Portable) →
    (∀ node ∈ nodesOfFields fields', node.head.kind.Portable) →
    formFields fields = formFields fields'
  | _, _, .nil, _, _ => rfl
  | _, _, .cons hvalue hrest, ha, hb => by
      obtain ⟨ha, hamore⟩ := List.forall_mem_append.mp ha
      obtain ⟨hb, hbmore⟩ := List.forall_mem_append.mp hb
      rw [formFields, formFields, Alike.form_eq hvalue ha hb,
        FieldsAlike.form_eq hrest hamore hbmore]

end

end Value

/-! ### Program texts -/

namespace Kind

/-- The known tags are identifiers. -/
theorem isIdentifier_tag : ∀ kind ∈ known, IsIdentifier kind.tag.toList := by decide +kernel

/-- The fields of a kind have identifiers for names. -/
theorem isIdentifier_signature (kind : Kind) :
    ∀ entry ∈ kind.signature, IsIdentifier entry.1.toList := by
  cases kind <;> first | decide | (intro _ h; cases h)

/-- A known kind is the one its tag names. -/
theorem portable_of_known {kind : Kind} (h : kind.isOther = false) : kind.Portable := by
  rintro _ rfl
  cases h

end Kind

/-- The slot is one for leaves of any sort. -/
def Slot.holdsLeaf : Slot → Bool
  | .leaf => true
  | .list item => item.holdsLeaf
  | .text | .absent | .node _ | .optional _ => false

/-- Only constants hold leaves of any sort. -/
theorem signature_leaf {kind : Kind} (h : kind ≠ .constant) :
    ∀ entry ∈ kind.signature, entry.2.holdsLeaf = false := by
  cases kind <;> first | exact absurd rfl h | decide | (intro _ h; cases h)

/-- No number of a text is read as a double that is no number. -/
theorem isNaN_ofDecimal (negative : Bool) (digits : Nat) (exponent : Int) :
    (Binary64.ofDecimal negative digits exponent).isNaN = false := by
  have hnot {m : Nat} (hle : m ≤ Binary64.infinity) :
      (Binary64.ofMagnitude negative m).isNaN = false := by
    have hbound : Binary64.infinity < 1 <<< 63 := by decide
    rw [Binary64.isNaN, Binary64.magnitude_ofMagnitude (Nat.lt_of_le_of_lt hle hbound)]
    exact decide_eq_false (Nat.not_lt.mpr hle)
  refine hnot ?_
  split_ifs
  · exact Nat.zero_le _
  · exact Nat.le_refl _
  · exact Binary64.nearest_le_infinity _ _
  · exact Nat.zero_le _
  · exact Binary64.nearest_le_infinity _ _

namespace Reading

open Grammar (Phrase Rule)

/-- The value of a literal is told from others in a dump. -/
theorem legible_literal {rule : Rule} {text : List Char} {value : Scalar}
    (h : literalValue rule text = some value) : value.Legible := by
  cases value with
  | real x =>
      obtain rfl : floatValue text = x := by
        cases rule <;> simp_all [literalValue]
      exact isNaN_ofDecimal _ _ _
  | _ => trivial

/-- A constant has a literal for its value. -/
def Literal (node : Node) : Prop :=
  node.head.kind = .constant →
    ∃ s : Scalar, s.Legible ∧ node.fields = [("value", .scalar s), ("kind", .absent)]

/-- A constant that stems from a text is the value of a literal. -/
theorem literal_of_stems {file : String} {whole : Phrase} {node : Node}
    (h : Stems file whole node) : Literal node := by
  intro hconstant
  cases h with
  | silent _ hne => exact absurd hconstant hne
  | named hname =>
      simp only at hconstant
      rw [hconstant] at hname
      cases hname
  | literal _ hvalue => exact ⟨_, legible_literal hvalue, rfl⟩
  | augmented => cases hconstant

end Reading

open Reading (Literal)

variable {H : Head → Prop}

mutual

/-- A value that fits is legible, if its constants are literals. -/
theorem Fits.legible : {slot : Slot} → {value : Value} → Fits H slot value →
    slot.holdsLeaf = false → (∀ node ∈ value.nodes, Literal node) → value.Legible
  | _, _, .text _, _, _ | _, _, .absent, _, _ | _, _, .missing, _, _ => trivial
  | _, _, .present h, _, hnodes => Fits.legible h rfl hnodes
  | _, _, .list h, hslot, hnodes => ItemsFit.legible h hslot hnodes
  | _, .node head fields, .node hrole _ hfields, _, hnodes => by
      obtain ⟨hnode, hinside⟩ := List.forall_mem_cons.mp hnodes
      refine ⟨Kind.isIdentifier_tag _ (Kind.mem_known (known_of_role hrole).1), ?_⟩
      -- only a constant holds leaves that are no texts, and these are those of literals
      by_cases hconstant : head.kind = .constant
      · obtain ⟨s, hs, rfl⟩ := hnode hconstant
        exact ⟨by decide, hs, by decide, trivial, trivial⟩
      · exact FieldsFit.legible hfields (Kind.isIdentifier_signature _) (signature_leaf hconstant)
          hinside

theorem ItemsFit.legible : {slot : Slot} → {items : List Value} → ItemsFit H slot items →
    slot.holdsLeaf = false → (∀ node ∈ Value.nodesOfItems items, Literal node) →
    Value.ItemsLegible items
  | _, _, .nil, _, _ => trivial
  | _, _, .cons hitem hrest, hslot, hnodes =>
      have hnodes := List.forall_mem_append.mp hnodes
      ⟨Fits.legible hitem hslot hnodes.1, ItemsFit.legible hrest hslot hnodes.2⟩

theorem FieldsFit.legible : {signature : List (String × Slot)} → {fields : Fields} →
    FieldsFit H signature fields → (∀ entry ∈ signature, IsIdentifier entry.1.toList) →
    (∀ entry ∈ signature, entry.2.holdsLeaf = false) →
    (∀ node ∈ Value.nodesOfFields fields, Literal node) → Value.FieldsLegible fields
  | _, _, .nil, _, _, _ => trivial
  | _, _, .cons hvalue hrest, hnames, hslots, hnodes =>
      have hnames := List.forall_mem_cons.mp hnames
      have hslots := List.forall_mem_cons.mp hslots
      have hnodes := List.forall_mem_append.mp hnodes
      ⟨hnames.1, Fits.legible hvalue hslots.1 hnodes.1,
        FieldsFit.legible hrest hnames.2 hslots.2 hnodes.2⟩

end

/-- The fields of the tree of a program text are those of a module. -/
theorem Source.tree_fieldsFit {source : Source} (hformat : source.format = .program)
    {counter next : Nat} {tree : Node} (h : source.tree.runFrom counter = (.ok tree, next)) :
    tree.head.kind = .module ∧
      FieldsFit (Reading.Placed source.name (Grammar.Place.Within source.text.length))
        Kind.module.signature tree.fields := by
  obtain ⟨body, hkind, -, hfields, hbody⟩ := Source.tree_fits hformat counter tree next h
  refine ⟨hkind, ?_⟩
  rw [hfields]
  exact .cons (.list hbody) (.cons (.list .nil) .nil)

/-- **Trees of program texts are legible.** -/
theorem Source.tree_legible {source : Source} (hformat : source.format = .program)
    {counter next : Nat} {tree : Node} (h : source.tree.runFrom counter = (.ok tree, next)) :
    tree.toValue.Legible := by
  obtain ⟨hkind, hfit⟩ := Source.tree_fieldsFit hformat h
  obtain ⟨whole, -, hstems⟩ := Source.tree_stems hformat h
  have hliteral : ∀ node ∈ Value.nodesOfFields tree.fields, Literal node :=
    fun node hnode => Reading.literal_of_stems (hstems node (List.mem_cons_of_mem _ hnode))
  exact ⟨Kind.isIdentifier_tag _ (by rw [hkind]; decide),
    hfit.legible (Kind.isIdentifier_signature _) (signature_leaf nofun) hliteral⟩

namespace Value

mutual

/-- The kinds in a portable value are portable. -/
theorem Portable.kinds {file : String} : {value : Value} → value.Portable file →
    ∀ node ∈ value.nodes, node.head.kind.Portable
  | .scalar _, _ => List.forall_mem_nil _
  | .foreign _, _ => List.forall_mem_nil _
  | .node _ _, h => List.forall_mem_cons.mpr ⟨h.1.kind, FieldsPortable.kinds h.2.2⟩
  | .list _, h => ItemsPortable.kinds h

theorem ItemsPortable.kinds {file : String} : {items : List Value} → ItemsPortable file items →
    ∀ node ∈ nodesOfItems items, node.head.kind.Portable
  | [], _ => List.forall_mem_nil _
  | _ :: _, h => List.forall_mem_append.mpr ⟨Portable.kinds h.1, ItemsPortable.kinds h.2⟩

theorem FieldsPortable.kinds {file : String} : {fields : Fields} → FieldsPortable file fields →
    ∀ node ∈ nodesOfFields fields, node.head.kind.Portable
  | [], _ => List.forall_mem_nil _
  | (_, _) :: _, h => List.forall_mem_append.mpr ⟨Portable.kinds h.2.1, FieldsPortable.kinds h.2.2⟩

end

end Value

/-- No tree that is read has a foreign kind with the tag of another one. -/
theorem Source.tree_kinds {source : Source} {counter next : Nat} {tree : Node}
    (h : source.tree.runFrom counter = (.ok tree, next)) :
    ∀ node ∈ tree.toValue.nodes, node.head.kind.Portable := by
  cases hformat : source.format with
  | program =>
      obtain ⟨hkind, hfit⟩ := Source.tree_fieldsFit hformat h
      have hcounted := Source.tree_counted hformat counter tree next h
      refine List.forall_mem_cons.mpr
        ⟨Kind.portable_of_known (by rw [hkind]; rfl), fun node hnode => ?_⟩
      have hshaped := hfit.allWellShaped (Value.counted_node.mp hcounted).2 node hnode
      exact Kind.portable_of_known hshaped.2.known
  | tree =>
      rw [Source.tree] at h
      split at h
      · cases h
      · rw [hformat] at h
        exact Value.Portable.kinds (Exchange.importTree_yields _ _ counter tree next h).1

/-- **Equal dumps mean equal trees.**  Trees with the same dump have, at every depth,
nodes of the same tags with the same fields in the same order, and the same leaves.
If their kinds are told by their tags, as in all trees that are read, they are the same
but for places and identity numbers.  And the tree of a program text is legible. -/
theorem alike_of_dump :
    (∀ a b : Node, a.toValue.Legible → b.toValue.Legible → a.dump = b.dump →
      a.toValue.Alike b.toValue ∧
        ((∀ node ∈ a.toValue.nodes, node.head.kind.Portable) →
          (∀ node ∈ b.toValue.nodes, node.head.kind.Portable) →
          a.toValue.form = b.toValue.form)) ∧
    ∀ (source : Source) (counter next : Nat) (tree : Node),
      source.tree.runFrom counter = (.ok tree, next) →
      (∀ node ∈ tree.toValue.nodes, node.head.kind.Portable) ∧
        (source.format = .program → tree.toValue.Legible) := by
  refine ⟨fun a b ha hb hdump => ?_, fun source counter next tree h => ?_⟩
  · have hnothing : Delimited [] := nofun
    have htext : a.toValue.dump.toList ++ [] = b.toValue.dump.toList ++ [] := by
      rw [← Node.dump, ← Node.dump, hdump]
    obtain ⟨halike, -⟩ := Value.dump_append_inj _ _ ha hb hnothing hnothing htext
    exact ⟨halike, fun hkinds hkinds' => halike.form_eq hkinds hkinds'⟩
  · exact ⟨Source.tree_kinds h, fun hformat => Source.tree_legible hformat h⟩

/-- Two spellings of one assignment, whose trees have other places. -/
theorem alike_of_dump_respelled :
    let source := Source.ofText "m" "x = \"a, b=(1)]\", 0.5, None\n" .program
    let other := Source.ofText "m" "x = ( 'a, b=(1)]', 5e-1, None )\n" .program
    ∃ a b, (source.tree.runFrom 1).1 = .ok a ∧ (other.tree.runFrom 9).1 = .ok b ∧
      a.dump = b.dump ∧ a.toValue.Legible ∧ b.toValue.Legible ∧
      a.toValue.Alike b.toValue ∧ a.toValue.form = b.toValue.form := by
  intro source other
  obtain ⟨a, ha, b, hb, hdump⟩ : ∃ a, (source.tree.runFrom 1).1 = .ok a ∧
      ∃ b, (other.tree.runFrom 9).1 = .ok b ∧ a.dump = b.dump := by
    decide +kernel
  obtain ⟨hkinds, hlegible⟩ := alike_of_dump.2 source _ _ a (Numbered.runFrom_of_ok ha)
  obtain ⟨hkinds', hlegible'⟩ := alike_of_dump.2 other _ _ b (Numbered.runFrom_of_ok hb)
  obtain ⟨halike, hform⟩ := alike_of_dump.1 a b (hlegible rfl) (hlegible' rfl) hdump
  exact ⟨a, b, ha, hb, hdump, hlegible rfl, hlegible' rfl, halike, hform hkinds hkinds'⟩

/-- A name, and a node of a foreign kind with the tag of a name: both dumps are `Name()`,
and the nodes are of different kinds. -/
theorem kind_not_in_dump :
    ¬ ∀ a b : Node, a.toValue.Legible → b.toValue.Legible → a.dump = b.dump →
      a.toValue.form = b.toValue.form := by
  intro h
  have hname : IsIdentifier "Name".toList := by decide
  have hform := h ⟨⟨1, .name, none, none⟩, []⟩ ⟨⟨1, .other "Name", none, none⟩, []⟩
    ⟨hname, trivial⟩ ⟨hname, trivial⟩ rfl
  cases hform

end FunctionIR
