import FunctionIR.Proofs.Json.Scanning

/-!
# Reading back what is written: doubles

Whether a double comes back as it was written is a question about the two
numerical procedures, the one that finds its digits and the one that turns
digits into a double; the latter rounds more than once, and so the answer is
not yes for all of them.  A double is **settled** if its text, read alone, is
that double (`Settled`).

What surrounds a number has no part in this.  A number is read up to a
boundary, and what is behind the boundary does not change what is read before
it (`Local`).  So a settled double is read back wherever it is written.
-/

namespace FunctionIR.Json

/-- A double that is read back, where nothing stands around it. -/
def Settled (x : Binary64) : Prop := read (Number.text (.real x)) = .ok (.number (.real x))

/-- What a double comes back as, if as a double. -/
def reread (x : Binary64) : Option Binary64 :=
  match read (Number.text (.real x)) with
  | .ok (.number (.real y)) => some y
  | _ => none

/-- A double is settled exactly if it comes back as itself. -/
theorem settled_iff {x : Binary64} : Settled x ↔ reread x = some x := by
  unfold Settled reread
  split
  next y hread => simp [hread]
  next hread =>
    refine ⟨fun h => absurd h (hread x), nofun⟩

/-- Whether a double is settled can be found out by reading it back. -/
instance (x : Binary64) : Decidable (Settled x) := decidable_of_iff _ settled_iff.symm

/-! ### What follows a number -/

/-- What is read off a text is read off any text that goes on after it, up to a
boundary. -/
def Local (read : Cursor → Except ReadError (Json × Cursor)) : Prop :=
  ∀ cursor value after, read cursor = .ok (value, after) →
    after.rest <:+ cursor.rest ∧
    ∀ rest, Boundary rest → ∀ other : Cursor, other.rest = cursor.rest ++ rest →
      ∃ after', read other = .ok (value, after') ∧ after'.rest = after.rest ++ rest

/-- Digits up to a boundary are the same whatever is behind it. -/
theorem takeDigits_local {line column : Nat} {text : List Char} {digits : List Nat}
    {after : Cursor} (h : takeDigits line column text = (digits, after)) :
    after.rest <:+ text ∧
    ∀ rest, Boundary rest → ∀ line' column',
      ∃ after', takeDigits line' column' (text ++ rest) = (digits, after') ∧
        after'.rest = after.rest ++ rest := by
  induction text generalizing column digits after with
  | nil =>
      cases h
      refine ⟨List.suffix_rfl, fun rest hrest line' column' => ?_⟩
      obtain ⟨column'', htake⟩ := @takeDigits_append [] rest nofun
        (fun c hc => (hrest c hc).1) line' column'
      exact ⟨_, htake, rfl⟩
  | cons c text ih =>
      rw [takeDigits] at h
      split at h
      next hc =>
        generalize htake : takeDigits line (column + 1) text = taken at h
        obtain ⟨digits', after'⟩ := taken
        cases h
        obtain ⟨hsuffix, hlocal⟩ := ih htake
        refine ⟨hsuffix.trans (List.suffix_cons c text), fun rest hrest line' column' => ?_⟩
        obtain ⟨after'', hafter, hleft⟩ := hlocal rest hrest line' (column' + 1)
        refine ⟨after'', ?_, hleft⟩
        simp only [List.cons_append, takeDigits, hc, if_true, hafter]
      next hc =>
        cases h
        refine ⟨List.suffix_rfl, fun rest _ line' column' => ?_⟩
        refine ⟨⟨c :: text ++ rest, line', column'⟩, ?_, rfl⟩
        simp only [List.cons_append, takeDigits, hc, Bool.false_eq_true, if_false]

theorem digits_local {cursor after : Cursor} {digits : List Nat}
    (h : cursor.digits = (digits, after)) :
    after.rest <:+ cursor.rest ∧
    ∀ rest, Boundary rest → ∀ other : Cursor, other.rest = cursor.rest ++ rest →
      ∃ after', other.digits = (digits, after') ∧ after'.rest = after.rest ++ rest := by
  obtain ⟨hsuffix, hlocal⟩ := takeDigits_local h
  refine ⟨hsuffix, fun rest hrest other hother => ?_⟩
  rw [Cursor.digits, hother]
  exact hlocal rest hrest other.line other.column

theorem exponentDigits_local {exponent line column : Nat} {text : List Char}
    {found : Option Nat} {after : Cursor}
    (h : exponentDigits exponent line column text = (found, after)) :
    after.rest <:+ text ∧
    ∀ rest, Boundary rest → ∀ line' column',
      ∃ after', exponentDigits exponent line' column' (text ++ rest) = (found, after') ∧
        after'.rest = after.rest ++ rest := by
  induction text generalizing exponent column with
  | nil =>
      cases h
      refine ⟨List.suffix_rfl, fun rest hrest line' column' => ?_⟩
      cases rest with
      | nil => exact ⟨_, rfl, rfl⟩
      | cons c rest =>
          refine ⟨⟨c :: rest, line', column'⟩, ?_, rfl⟩
          simp [exponentDigits, (boundary_cons.mp hrest).1]
  | cons c text ih =>
      rw [exponentDigits] at h
      split at h
      next hc =>
        split at h
        next hlt =>
          obtain ⟨hsuffix, hlocal⟩ := ih h
          refine ⟨hsuffix.trans (List.suffix_cons c text), fun rest hrest line' column' => ?_⟩
          obtain ⟨after', hafter, hleft⟩ := hlocal rest hrest line' (column' + 1)
          refine ⟨after', ?_, hleft⟩
          simp only [List.cons_append, exponentDigits, hc, hlt, if_true, hafter]
        next hlt =>
          cases h
          refine ⟨List.suffix_cons c text, fun rest _ line' column' => ?_⟩
          refine ⟨⟨text ++ rest, line', column' + 1⟩, ?_, rfl⟩
          simp only [List.cons_append, exponentDigits, hc, hlt, if_true, if_false]
      next hc =>
        cases h
        refine ⟨List.suffix_rfl, fun rest _ line' column' => ?_⟩
        refine ⟨⟨c :: text ++ rest, line', column'⟩, ?_, rfl⟩
        simp only [List.cons_append, exponentDigits, hc, Bool.false_eq_true, if_false]

/-- A double is finished without looking at the text. -/
theorem finishReal_eq_ok {negative : Bool} {significand : Nat} {exponent : Int}
    {cursor after : Cursor} {value : Json}
    (h : finishReal negative significand exponent cursor = .ok (value, after)) :
    after = cursor ∧
      ∀ other, finishReal negative significand exponent other = .ok (value, other) := by
  unfold finishReal at h ⊢
  cases hreal : realOfParts significand exponent with
  | none => simp [hreal, Cursor.here] at h
  | some x =>
      simp only [hreal, Except.ok.injEq, Prod.mk.injEq] at h ⊢
      exact ⟨h.2.symm, fun _ => ⟨h.1, trivial⟩⟩

/-- The end of a number with a fraction or an exponent looks at nothing ahead. -/
theorem finishReal_local (negative : Bool) (significand : Nat) (exponent : Int) :
    Local (finishReal negative significand exponent) := by
  intro cursor value after h
  obtain ⟨rfl, hall⟩ := finishReal_eq_ok h
  exact ⟨List.suffix_rfl, fun rest _ other hother => ⟨other, hall other, hother⟩⟩

/-- The digits of an exponent with the sign `down`, and what they finish. -/
def exponentFrom (negative : Bool) (significand : Nat) (start : Int) (down : Bool)
    (cursor : Cursor) : Except ReadError (Json × Cursor) :=
  match cursor.rest with
  | [] => cursor.here .endInValue
  | c :: _ =>
    if c.isDigit then
      match exponentDigits 0 cursor.line cursor.column cursor.rest with
      | (some exponent, cursor) =>
        finishReal negative significand
          (if down then start - exponent else start + exponent) cursor
      | (none, cursor) =>
        if significand ≠ 0 && !down then cursor.here .numberOutOfRange
        else .ok (signed negative (.ofMagnitude false 0), (cursor.digits).2)
    else cursor.beyond .invalidNumber

/-- Whether the exponent at the cursor is negative, and the cursor after its
sign. -/
def afterSign (cursor : Cursor) : Bool × Cursor :=
  match cursor.rest with
  | '+' :: rest => (false, cursor.after '+' rest)
  | '-' :: rest => (true, cursor.after '-' rest)
  | _ => (false, cursor)

/-- An exponent: its sign, then its digits. -/
theorem readExponent_eq (negative : Bool) (significand : Nat) (start : Int) (cursor : Cursor) :
    readExponent negative significand start cursor =
      exponentFrom negative significand start (afterSign cursor).1 (afterSign cursor).2 := rfl

/-- Behind a character is the rest. -/
theorem rest_after (cursor : Cursor) (c : Char) (rest : List Char) :
    (cursor.after c rest).rest = rest := by
  unfold Cursor.after
  split <;> rfl

/-- An error is no result. -/
theorem not_ok_beyond {α : Type} {cursor : Cursor} {cause : ReadError.Cause} {a : α} :
    cursor.beyond cause ≠ .ok a := by
  unfold Cursor.beyond
  split <;> nofun

/-- The digits of an exponent are local. -/
theorem exponentFrom_local (negative : Bool) (significand : Nat) (start : Int) (down : Bool) :
    Local (exponentFrom negative significand start down) := by
  intro cursor value after h
  unfold exponentFrom at h
  cases htext : cursor.rest with
  | nil => simp [htext, Cursor.here] at h
  | cons c text =>
      simp only [htext] at h
      split at h
      next hc =>
        generalize hdigits : exponentDigits 0 cursor.line cursor.column (c :: text) = found at h
        obtain ⟨found, cursor'⟩ := found
        obtain ⟨hsuffix, hlocal⟩ := exponentDigits_local hdigits
        cases found with
        | some exponent =>
            simp only at h
            obtain ⟨rfl, hall⟩ := finishReal_eq_ok h
            refine ⟨hsuffix, fun rest hrest other hother => ?_⟩
            obtain ⟨after', hafter, hleft⟩ := hlocal rest hrest other.line other.column
            refine ⟨after', ?_, hleft⟩
            rw [exponentFrom, hother, List.cons_append]
            simp only [List.cons_append] at hafter
            simp only [hc, if_true, hafter, hall]
        -- an exponent too large to count is read to its end where the number is zero
        | none =>
            simp only at h
            split at h
            · cases h
            next hzero =>
              cases h
              generalize htaken : cursor'.digits = taken
              obtain ⟨digits, final⟩ := taken
              obtain ⟨hsuffix', hlocal'⟩ := digits_local htaken
              refine ⟨hsuffix'.trans hsuffix, fun rest hrest other hother => ?_⟩
              obtain ⟨after', hafter, hleft⟩ := hlocal rest hrest other.line other.column
              obtain ⟨final', hfinal, hleft'⟩ := hlocal' rest hrest after' hleft
              refine ⟨final', ?_, hleft'⟩
              rw [exponentFrom, hother, List.cons_append]
              simp only [List.cons_append] at hafter
              simp only [hc, if_true, hafter, hzero, Bool.false_eq_true, if_false, hfinal]
      next => exact absurd h not_ok_beyond

/-- The sign of an exponent is taken off alike, whatever follows. -/
theorem afterSign_local {cursor : Cursor} (h : cursor.rest ≠ []) :
    (afterSign cursor).2.rest <:+ cursor.rest ∧
    ∀ rest (other : Cursor), other.rest = cursor.rest ++ rest →
      (afterSign other).1 = (afterSign cursor).1 ∧
        (afterSign other).2.rest = (afterSign cursor).2.rest ++ rest := by
  unfold afterSign
  split
  next text htext =>
    rw [rest_after, htext]
    refine ⟨List.suffix_cons _ _, fun rest other hother => ?_⟩
    rw [hother]
    exact ⟨rfl, rest_after _ _ _⟩
  next text htext =>
    rw [rest_after, htext]
    refine ⟨List.suffix_cons _ _, fun rest other hother => ?_⟩
    rw [hother]
    exact ⟨rfl, rest_after _ _ _⟩
  next hplus hminus =>
    refine ⟨List.suffix_rfl, fun rest other hother => ?_⟩
    obtain ⟨c, text, htext⟩ := List.exists_cons_of_ne_nil h
    rw [htext, List.cons_append] at hother
    rw [htext] at hplus hminus
    rw [hother]
    split
    next heq => cases heq; exact absurd rfl (hplus text)
    next heq => cases heq; exact absurd rfl (hminus text)
    next => rw [hother, htext, List.cons_append]; exact ⟨rfl, rfl⟩

/-- An exponent is local. -/
theorem readExponent_local (negative : Bool) (significand : Nat) (start : Int) :
    Local (readExponent negative significand start) := by
  intro cursor value after h
  rw [readExponent_eq] at h
  have hne : cursor.rest ≠ [] := by
    intro hnil
    simp [afterSign, hnil, exponentFrom, Cursor.here] at h
  obtain ⟨hsign, hother⟩ := afterSign_local hne
  obtain ⟨hsuffix, hlocal⟩ := exponentFrom_local negative significand start _ _ _ _ h
  refine ⟨hsuffix.trans hsign, fun rest hrest other h' => ?_⟩
  obtain ⟨hdown, hleft⟩ := hother rest other h'
  rw [readExponent_eq, hdown]
  exact hlocal rest hrest _ hleft

/-- What would go on with a number is not behind a boundary. -/
theorem Boundary.starts {c : Char} (hc : c = '.' ∨ c = 'e' ∨ c = 'E') {rest more : List Char}
    (hrest : Boundary rest) : rest ≠ c :: more := by
  rintro rfl
  obtain ⟨-, hpoint, hlower, hupper⟩ := boundary_cons.mp hrest
  rcases hc with rfl | rfl | rfl <;> contradiction

/-- Go on with `read` behind the character `c` if it is next, and with `other`
if it is not. -/
def behind (c : Char) (read other : Cursor → Except ReadError (Json × Cursor)) (cursor : Cursor) :
    Except ReadError (Json × Cursor) :=
  match cursor.rest with
  | [] => other cursor
  | d :: text => if d = c then read (cursor.after c text) else other cursor

/-- Where the character is next, the reading goes on behind it. -/
theorem behind_of_eq {c : Char} {read other : Cursor → Except ReadError (Json × Cursor)}
    {cursor : Cursor} {text : List Char} (h : cursor.rest = c :: text) :
    behind c read other cursor = read (cursor.after c text) := by
  rw [behind, h]
  exact if_pos rfl

/-- Where the character is not next, the other reading goes on. -/
theorem behind_of_ne {c : Char} {read other : Cursor → Except ReadError (Json × Cursor)}
    {cursor : Cursor} (h : ∀ text, cursor.rest ≠ c :: text) :
    behind c read other cursor = other cursor := by
  rw [behind]
  split
  · rfl
  next d text htext => exact if_neg fun hd : d = c => h text (hd ▸ htext)

/-- A character that goes on with a number is seen or not whatever is behind a
boundary. -/
theorem Local.behind {c : Char} (hc : c = '.' ∨ c = 'e' ∨ c = 'E')
    {read other : Cursor → Except ReadError (Json × Cursor)} (hread : Local read)
    (hother : Local other) : Local (Json.behind c read other) := by
  intro cursor value after h
  by_cases hnext : ∃ text, cursor.rest = c :: text
  · obtain ⟨text, htext⟩ := hnext
    rw [behind_of_eq htext] at h
    obtain ⟨hsuffix, hlocal⟩ := hread _ _ _ h
    rw [rest_after] at hsuffix hlocal
    refine ⟨hsuffix.trans (htext ▸ List.suffix_cons c text), fun rest hrest cursor' h' => ?_⟩
    rw [htext, List.cons_append] at h'
    rw [behind_of_eq h']
    exact hlocal rest hrest _ (rest_after _ _ _)
  · have hnext := not_exists.mp hnext
    rw [behind_of_ne hnext] at h
    obtain ⟨hsuffix, hlocal⟩ := hother _ _ _ h
    refine ⟨hsuffix, fun rest hrest cursor' h' => ?_⟩
    rw [behind_of_ne]
    · exact hlocal rest hrest cursor' h'
    · intro text htext
      cases hleft : cursor.rest with
      | nil => exact hrest.starts hc (by rw [← htext, h', hleft, List.nil_append])
      | cons d more =>
          rw [h', hleft, List.cons_append] at htext
          exact hnext more (by rw [hleft, (List.cons.inj htext).1])

/-- What follows the digits of a fraction: an exponent, or nothing. -/
def afterFraction (negative : Bool) (significand : Nat) (exponent : Int) (digits : List Nat) :
    Cursor → Except ReadError (Json × Cursor) :=
  let significand' := (accumulate significand digits).1
  let exponent' := exponent - (accumulate significand digits).2.1
  behind 'e' (readExponent negative significand' exponent')
    (behind 'E' (readExponent negative significand' exponent')
      (finishReal negative significand' exponent'))

/-- What follows the digits of a fraction is local. -/
theorem afterFraction_local (negative : Bool) (significand : Nat) (exponent : Int)
    (digits : List Nat) : Local (afterFraction negative significand exponent digits) :=
  .behind (.inr (.inl rfl)) (readExponent_local _ _ _)
    (.behind (.inr (.inr rfl)) (readExponent_local _ _ _) (finishReal_local _ _ _))

/-- A fraction: at least one digit, then what follows it. -/
theorem readFraction_eq {negative : Bool} {significand : Nat} {exponent : Int}
    {cursor middle : Cursor} {digit : Nat} {digits : List Nat}
    (h : cursor.digits = (digit :: digits, middle)) :
    readFraction negative significand exponent cursor =
      afterFraction negative significand exponent (digit :: digits) middle := by
  simp only [readFraction, h, afterFraction]
  split
  next htext => rw [behind_of_eq htext]
  next htext => rw [behind_of_ne (by simp [htext]), behind_of_eq htext]
  next hlower hupper => rw [behind_of_ne hlower, behind_of_ne hupper]

/-- A fraction is local. -/
theorem readFraction_local (negative : Bool) (significand : Nat) (exponent : Int) :
    Local (readFraction negative significand exponent) := by
  intro cursor value after h
  generalize hdigits : cursor.digits = taken
  obtain ⟨digits, middle⟩ := taken
  obtain ⟨hsuffix, hlocal⟩ := digits_local hdigits
  cases digits with
  | nil =>
      simp only [readFraction, hdigits] at h
      split at h
      · cases h
      · exact absurd h not_ok_beyond
  | cons digit digits =>
      rw [readFraction_eq hdigits] at h
      obtain ⟨hsuffix', hlocal'⟩ := afterFraction_local _ _ _ _ _ _ _ h
      refine ⟨hsuffix'.trans hsuffix, fun rest hrest other hother => ?_⟩
      obtain ⟨middle', hmiddle, hleft⟩ := hlocal rest hrest other hother
      rw [readFraction_eq hmiddle]
      exact hlocal' rest hrest middle' hleft

/-- A number without point and exponent is finished without looking at the
text. -/
def finishWhole (negative : Bool) (significand dropped : Nat) (cursor : Cursor) :
    Except ReadError (Json × Cursor) :=
  if dropped = 0 then .ok (integerOrReal negative significand, cursor)
  else finishReal negative significand dropped cursor

/-- The end of a whole number looks at nothing ahead. -/
theorem finishWhole_local (negative : Bool) (significand dropped : Nat) :
    Local (finishWhole negative significand dropped) := by
  intro cursor value after h
  unfold finishWhole at h ⊢
  split at h
  next hzero =>
    cases h
    refine ⟨List.suffix_rfl, fun rest _ other hother => ⟨other, ?_, hother⟩⟩
    rw [if_pos hzero]
  next hdropped =>
    simp only [if_neg hdropped]
    exact finishReal_local negative significand dropped cursor value after h

/-- What follows the digits of a number: a fraction, an exponent, or nothing. -/
def afterWhole (negative : Bool) (digits : List Nat) : Cursor → Except ReadError (Json × Cursor) :=
  let significand := (accumulate 0 digits).1
  let dropped := (accumulate 0 digits).2.2
  behind '.' (readFraction negative significand dropped)
    (behind 'e' (readExponent negative significand dropped)
      (behind 'E' (readExponent negative significand dropped)
        (finishWhole negative significand dropped)))

/-- What follows the whole digits is local. -/
theorem afterWhole_local (negative : Bool) (digits : List Nat) :
    Local (afterWhole negative digits) :=
  .behind (.inl rfl) (readFraction_local _ _ _)
    (.behind (.inr (.inl rfl)) (readExponent_local _ _ _)
      (.behind (.inr (.inr rfl)) (readExponent_local _ _ _) (finishWhole_local _ _ _)))

/-- A number: its whole digits, no zero ahead of others, then what follows them. -/
theorem readNumber_eq {negative : Bool} {cursor middle : Cursor} {c : Char} {more : List Char}
    {digits : List Nat} (htext : cursor.rest = c :: more) (hc : c.isDigit = true)
    (hdigits : cursor.digits = (digits, middle)) :
    readNumber negative cursor =
      if c = '0' ∧ 1 < digits.length then (cursor.after c more).beyond .invalidNumber
      else afterWhole negative digits middle := by
  simp only [readNumber, htext, hc, Bool.not_true, Bool.false_eq_true, if_false, hdigits,
    afterWhole]
  split
  · rfl
  · split
    next h => rw [behind_of_eq h]
    next h => rw [behind_of_ne (by simp [h]), behind_of_eq h]
    next h => rw [behind_of_ne (by simp [h]), behind_of_ne (by simp [h]), behind_of_eq h]
    next hpoint hlower hupper =>
      rw [behind_of_ne hpoint, behind_of_ne hlower, behind_of_ne hupper, finishWhole]

/-- A number is local. -/
theorem readNumber_local (negative : Bool) : Local (readNumber negative) := by
  intro cursor value after h
  generalize hdigits : cursor.digits = taken
  obtain ⟨digits, middle⟩ := taken
  obtain ⟨hsuffix, hlocal⟩ := digits_local hdigits
  cases htext : cursor.rest with
  | nil => simp [readNumber, htext, Cursor.here] at h
  | cons c more =>
      cases hc : c.isDigit with
      | false =>
          simp only [readNumber, htext, hc, Bool.not_false, if_true] at h
          exact absurd h not_ok_beyond
      | true =>
          rw [readNumber_eq htext hc hdigits] at h
          split at h
          · exact absurd h not_ok_beyond
          next hzero =>
            obtain ⟨hsuffix', hlocal'⟩ := afterWhole_local _ _ _ _ _ h
            rw [htext] at hsuffix hlocal
            refine ⟨hsuffix'.trans hsuffix, fun rest hrest other hother => ?_⟩
            obtain ⟨middle', hmiddle, hleft⟩ := hlocal rest hrest other hother
            rw [readNumber_eq hother hc hmiddle, if_neg hzero]
            exact hlocal' rest hrest middle' hleft

/-! ### The text of a double -/

/-- A character that the text of a double can have. -/
def InDouble (c : Char) : Prop := c.isDigit = true ∨ c = '.' ∨ c = 'e' ∨ c = '+' ∨ c = '-'

/-- No character of a double is a blank. -/
theorem InDouble.not_space {c : Char} (h : InDouble c) : isSpace c = false := by
  rcases h with h | rfl | rfl | rfl | rfl
  · simp only [Char.isDigit, Bool.and_eq_true, decide_eq_true_eq] at h
    simp only [isSpace, Bool.or_eq_false_iff, beq_eq_false_iff_ne]
    refine ⟨⟨⟨?_, ?_⟩, ?_⟩, ?_⟩ <;> rintro rfl <;> revert h <;> decide
  all_goals rfl

/-- A decimal digit is a character of a double. -/
theorem inDouble_toDigits {n : Nat} {c : Char} (h : c ∈ Nat.toDigits 10 n) : InDouble c :=
  .inl (Nat.isDigit_of_mem_toDigits (by decide) (by decide) h)

/-- The positional form is made of characters of a double. -/
theorem inDouble_positional {digits : List Char} (hdigits : ∀ c ∈ digits, InDouble c) (lead : Int) :
    ∀ c ∈ Decimal.positional digits lead, InDouble c := by
  have hzero : InDouble '0' := .inl rfl
  have hpoint : InDouble '.' := .inr (.inl rfl)
  have hzeros (n : Nat) : ∀ c ∈ List.replicate n '0', InDouble c := fun c hc => by
    rw [List.eq_of_mem_replicate hc]
    exact hzero
  unfold Decimal.positional
  split
  · simp only [List.cons_append, List.forall_mem_cons, List.forall_mem_append]
    exact ⟨hzero, hpoint, hzeros _, hdigits⟩
  · simp only
    split
    · simp only [List.forall_mem_append, List.forall_mem_cons]
      exact ⟨⟨hdigits, hzeros _⟩, hpoint, hzero, List.forall_mem_nil _⟩
    · simp only [List.forall_mem_append, List.forall_mem_cons]
      exact ⟨fun c hc => hdigits c (List.mem_of_mem_take hc), hpoint,
        fun c hc => hdigits c (List.mem_of_mem_drop hc)⟩

/-- The exponential form is made of characters of a double. -/
theorem inDouble_exponential {digits : List Char} (hdigits : ∀ c ∈ digits, InDouble c)
    (lead : Int) : ∀ c ∈ Decimal.exponential "+" digits lead, InDouble c := by
  have hpoint : InDouble '.' := .inr (.inl rfl)
  have he : InDouble 'e' := .inr (.inr (.inl rfl))
  have hplus : InDouble '+' := .inr (.inr (.inr (.inl rfl)))
  have hminus : InDouble '-' := .inr (.inr (.inr (.inr rfl)))
  have hlead : ∀ c ∈ Nat.toDigits 10 lead.natAbs, InDouble c := fun c hc => inDouble_toDigits hc
  have hsign : ∀ c ∈ (if lead < 0 then ['-'] else "+".toList), InDouble c := by
    split
    · simpa using hminus
    · simpa using hplus
  unfold Decimal.exponential
  simp only
  split
  · simp only [List.forall_mem_append, List.forall_mem_cons] at hdigits ⊢
    exact ⟨⟨⟨hdigits.1, hpoint, hdigits.2⟩, he, hsign⟩, hlead⟩
  · simp only [List.forall_mem_append, List.forall_mem_cons]
    exact ⟨⟨hdigits, he, hsign⟩, hlead⟩

/-- A finite double is written with the characters of a number. -/
theorem inDouble_write {x : Binary64} (hfinite : x.isFinite = true) :
    ∀ c ∈ (realLayout.write x).toList, InDouble c := by
  have hnan : x.isNaN = false := by
    simp only [Binary64.isFinite, Binary64.isNaN, decide_eq_true_eq] at hfinite ⊢
    simp only [decide_eq_false_iff_not]
    omega
  have hinf : x.isInfinite = false := by
    simp only [Binary64.isFinite, Binary64.isInfinite, decide_eq_true_eq] at hfinite ⊢
    simp only [beq_eq_false_iff_ne]
    omega
  have hsign : ∀ c ∈ (if x.isNegative then "-" else "").toList, InDouble c := by
    have hminus : InDouble '-' := .inr (.inr (.inr (.inr rfl)))
    split
    · simpa using hminus
    · simp
  have hzero : ∀ c ∈ "0.0".toList, InDouble c := by
    simp only [String.reduceToList, List.forall_mem_cons]
    exact ⟨.inl rfl, .inr (.inl rfl), .inl rfl, List.forall_mem_nil _⟩
  unfold Decimal.Layout.write
  simp only [hnan, hinf, Bool.false_eq_true, if_false]
  split
  · simpa only [String.toList_append, List.forall_mem_append] using ⟨hsign, hzero⟩
  · simp only [String.toList_append, String.toList_ofList, List.forall_mem_append]
    refine ⟨hsign, ?_⟩
    split
    · exact inDouble_positional (fun c hc => inDouble_toDigits hc) _
    · exact inDouble_exponential (fun c hc => inDouble_toDigits hc) _

/-! ### Where a number is read -/

/-- Blanks before a value are skipped. -/
theorem readValue_skipSpace (rounds depth : Nat) (cursor : Cursor) :
    readValue rounds (depth + 1) cursor = readValue rounds (depth + 1) cursor.skipSpace := by
  have hidem : cursor.skipSpace.skipSpace = cursor.skipSpace :=
    skipSpace_solid (solid_skipSpace cursor)
  simp only [readValue, hidem]

/-- A value that starts with a digit is a number. -/
theorem readValue_digit (rounds depth : Nat) {c : Char} (hc : c.isDigit = true) (more : List Char)
    (line column : Nat) :
    readValue rounds (depth + 1) ⟨c :: more, line, column⟩ =
      readNumber false ⟨c :: more, line, column⟩ := by
  have hskip : Cursor.skipSpace ⟨c :: more, line, column⟩ = ⟨c :: more, line, column⟩ :=
    skipSpace_solid (solid_cons.mpr (InDouble.not_space (.inl hc)))
  simp only [readValue, hskip]
  -- No other value starts with a digit.
  split <;> simp_all

/-- A value that starts with a minus sign is a number. -/
theorem readValue_minus (rounds depth : Nat) (more : List Char) (line column : Nat) :
    readValue rounds (depth + 1) ⟨'-' :: more, line, column⟩ =
      readNumber true ⟨more, line, column + 1⟩ := by
  have hskip : Cursor.skipSpace ⟨'-' :: more, line, column⟩ = ⟨'-' :: more, line, column⟩ :=
    skipSpace_solid (solid_cons.mpr rfl)
  simp only [readValue, hskip]
  rfl

/-- No value starts with another character. -/
theorem readValue_none (rounds depth : Nat) {c : Char} (hspace : isSpace c = false)
    (hdigit : c.isDigit = false) (hstart : c ∉ ['n', 't', 'f', '-', '"', '[', '\x7b'])
    (more : List Char) (line column : Nat) :
    readValue rounds (depth + 1) ⟨c :: more, line, column⟩ =
      Cursor.beyond ⟨c :: more, line, column⟩ .expectedValue := by
  have hskip := @skipSpace_solid ⟨c :: more, line, column⟩ (solid_cons.mpr hspace)
  simp only [readValue, hskip]
  split <;> simp_all

/-- What can stand in a double and start a value is a digit or a sign. -/
theorem readValue_inDouble {rounds depth : Nat} {c : Char} (hc : InDouble c) {more : List Char}
    {line column : Nat} {result : Json × Cursor}
    (h : readValue rounds (depth + 1) ⟨c :: more, line, column⟩ = .ok result) :
    c.isDigit = true ∨ c = '-' := by
  have hnone := @readValue_none rounds depth c hc.not_space
  rcases hc with hc | rfl | rfl | rfl | rfl
  · exact .inl hc
  iterate 3 exact absurd ((hnone rfl (by decide) more line column).symm.trans h) not_ok_beyond
  · exact .inr rfl

/-- The text of a double is read as a number, wherever it is read. -/
theorem readValue_number {c : Char} {more : List Char} (hc : c.isDigit = true ∨ c = '-') :
    ∃ negative text, text <:+ c :: more ∧ ∀ rounds depth rest line column, ∃ column',
      readValue rounds (depth + 1) ⟨c :: more ++ rest, line, column⟩ =
        readNumber negative ⟨text ++ rest, line, column'⟩ := by
  rcases hc with hc | rfl
  · refine ⟨false, c :: more, List.suffix_rfl, fun rounds depth rest line column => ⟨column, ?_⟩⟩
    exact readValue_digit rounds depth hc (more ++ rest) line column
  · refine ⟨true, more, List.suffix_cons '-' more,
      fun rounds depth rest line column => ⟨column + 1, ?_⟩⟩
    exact readValue_minus rounds depth (more ++ rest) line column

/-- A double that is not finite has the text of no number. -/
theorem text_of_not_finite {x : Binary64} (h : x.isFinite = false) :
    Number.text (.real x) = "null" := by
  simp only [Number.text, Decimal.Layout.write, realLayout]
  split
  · rfl
  next hnan =>
    split
    · rfl
    next hinf =>
      simp only [Binary64.isFinite, Binary64.isNaN, Binary64.isInfinite,
        decide_eq_false_iff_not, decide_eq_true_eq, beq_iff_eq] at h hnan hinf
      omega

/-- A settled double is finite. -/
theorem Settled.finite {x : Binary64} (h : Settled x) : x.isFinite = true := by
  have hnull : read "null" = .ok .null := rfl
  cases hfinite : x.isFinite with
  | true => rfl
  | false =>
      rw [Settled, text_of_not_finite hfinite, hnull] at h
      cases h

/-- The text of a settled double is not empty. -/
theorem Settled.head {x : Binary64} (h : Settled x) :
    ∃ c more, (realLayout.write x).toList = c :: more ∧ InDouble c := by
  have hall := inDouble_write h.finite
  rw [Settled, Number.text, read] at h
  cases htext : (realLayout.write x).toList with
  | nil =>
      rw [htext] at h
      cases h
  | cons c more => exact ⟨c, more, rfl, hall c (by simp [htext])⟩

/-- **A settled double is read back** wherever it is written. -/
theorem Settled.reads {x : Binary64} (h : Settled x) (rounds depth : Nat) {rest : List Char}
    (hrest : Boundary rest) (line column : Nat) :
    Gets (readValue rounds (depth + 1) ⟨(realLayout.write x).toList ++ rest, line, column⟩)
      (.number (.real x)) rest := by
  have hall := inDouble_write h.finite
  rw [Settled, Number.text, read] at h
  cases htext : (realLayout.write x).toList with
  | nil =>
      rw [htext] at h
      cases h
  | cons c more =>
      rw [htext] at h hall
      cases hread : readValue (realLayout.write x).length nestingLimit ⟨c :: more, 1, 0⟩ with
      | error e => simp [hread, bind, Except.bind] at h
      | ok result =>
          obtain ⟨value, after⟩ := result
          have hhead := readValue_inDouble (hall c (by simp)) hread
          obtain ⟨negative, text, hsuffix, hnumber⟩ := @readValue_number c more hhead
          obtain ⟨column', hfirst⟩ := hnumber (realLayout.write x).length 127 [] 1 0
          rw [List.append_nil, List.append_nil] at hfirst
          obtain ⟨hleft, hlocal⟩ := readNumber_local negative _ _ _ (hfirst.symm.trans hread)
          -- Nothing of the text is left over, for what is left is no blank.
          have hnone : after.rest = [] := by
            have hsolid : Solid after.rest := fun d hd =>
              (hall d ((hleft.trans hsuffix).subset (List.mem_of_mem_head? hd))).not_space
            simp only [hread, bind, Except.bind, skipSpace_solid hsolid] at h
            split at h
            next hempty => simpa using hempty
            next => exact absurd h not_ok_beyond
          have hvalue : value = .number (.real x) := by
            have hsolid : Solid after.rest := hnone ▸ solid_nil
            simp only [hread, bind, Except.bind, skipSpace_solid hsolid, hnone, List.isEmpty_nil,
              if_true] at h
            cases h
            rfl
          obtain ⟨column'', hother⟩ := hnumber rounds depth rest line column
          obtain ⟨after', hafter, hrest'⟩ := hlocal rest hrest ⟨text ++ rest, line, column''⟩ rfl
          rw [hother, hafter, hvalue]
          obtain ⟨rest', line', column'⟩ := after'
          rw [hnone, List.nil_append] at hrest'
          subst hrest'
          exact .ok

end FunctionIR.Json
