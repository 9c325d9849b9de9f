import FunctionIR.Json.Value

/-!
# Reading JSON

The reader takes a document apart character by character and either returns
its value or says what is wrong and where.  Places are counted in bytes of
the UTF-8 form: a line feed starts a new line at column 0, every other
character moves the column on by its size.  Two kinds of place occur.  A
fault found at the end of something read is placed **here**, at the cursor;
a fault found at the next character is placed just **beyond** the first byte
of that character, which is the start of the next line if it is a line feed.

Nesting is bounded: arrays and objects may be nested 127 deep.  That bound
is also what the reader recurs on.  The loops over items and members are
bounded by the number of characters of the document, which no loop can use
up, since every round reads at least one.

A name that occurs twice in an object keeps its first place and has its last
value.
-/

namespace FunctionIR.Json

/-- What can be wrong with a document. -/
inductive ReadError.Cause where
  | endInValue
  | endInArray
  | endInObject
  | endInString
  | expectedValue
  | expectedWord
  | expectedColon
  | expectedArrayEnd
  | expectedObjectEnd
  | nameNotString
  | trailingComma
  | trailingCharacters
  | invalidEscape
  | invalidNumber
  | numberOutOfRange
  | controlCharacter
  | loneSurrogate
  | surrogateCutShort
  | nestedTooDeep
deriving DecidableEq

/-- Why and where a document cannot be read. -/
structure ReadError where
  cause : ReadError.Cause
  line : Nat
  column : Nat
deriving DecidableEq

/-- The wording of a cause. -/
def ReadError.Cause.text : ReadError.Cause → String
  | .endInValue => "EOF while parsing a value"
  | .endInArray => "EOF while parsing a list"
  | .endInObject => "EOF while parsing an object"
  | .endInString => "EOF while parsing a string"
  | .expectedValue => "expected value"
  | .expectedWord => "expected ident"
  | .expectedColon => "expected `:`"
  | .expectedArrayEnd => "expected `,` or `]`"
  | .expectedObjectEnd => "expected `,` or `\x7d`"
  | .nameNotString => "key must be a string"
  | .trailingComma => "trailing comma"
  | .trailingCharacters => "trailing characters"
  | .invalidEscape => "invalid escape"
  | .invalidNumber => "invalid number"
  | .numberOutOfRange => "number out of range"
  | .controlCharacter =>
    "control character (\\u0000-\\u001F) found while parsing a string"
  | .loneSurrogate => "lone leading surrogate in hex escape"
  | .surrogateCutShort => "unexpected end of hex escape"
  | .nestedTooDeep => "recursion limit exceeded"

/-- The cause with its place. -/
def ReadError.message (e : ReadError) : String :=
  e.cause.text ++ " at line " ++ toString e.line ++ " column " ++ toString e.column

/-- Where the reader stands: what is left, and the place in bytes. -/
structure Cursor where
  rest : List Char
  line : Nat
  column : Nat

namespace Cursor

/-- The cursor after the character `c`, before `rest`. -/
def after (cursor : Cursor) (c : Char) (rest : List Char) : Cursor :=
  if c = '\n' then ⟨rest, cursor.line + 1, 0⟩
  else ⟨rest, cursor.line, cursor.column + c.utf8Size⟩

/-- A fault at the cursor. -/
def here {α : Type} (cursor : Cursor) (cause : ReadError.Cause) :
    Except ReadError α :=
  .error ⟨cause, cursor.line, cursor.column⟩

/-- A fault at the next character, if there is one. -/
def beyond {α : Type} (cursor : Cursor) (cause : ReadError.Cause) :
    Except ReadError α :=
  match cursor.rest with
  | [] => .error ⟨cause, cursor.line, cursor.column⟩
  | '\n' :: _ => .error ⟨cause, cursor.line + 1, 0⟩
  | _ :: _ => .error ⟨cause, cursor.line, cursor.column + 1⟩

/-- The place `count` bytes on, if there are so many. -/
def placeAfterBytes : Nat → Nat → Nat → List Char → Option (Nat × Nat)
  | 0, line, column, _ => some (line, column)
  | _ + 1, _, _, [] => none
  | count + 1, line, column, c :: rest =>
    if c = '\n' then placeAfterBytes count (line + 1) 0 rest
    else if count < c.utf8Size then some (line, column + count + 1)
    else placeAfterBytes (count + 1 - c.utf8Size) line (column + c.utf8Size) rest

end Cursor

/-- The four characters that count as blanks between the parts of a
document. -/
def isSpace (c : Char) : Bool := c == ' ' || c == '\n' || c == '\t' || c == '\r'

/-- The rest of a text after leading blanks, with its place. -/
def skipSpaceFrom (line column : Nat) : List Char → Cursor
  | [] => ⟨[], line, column⟩
  | c :: rest =>
    if isSpace c then
      if c = '\n' then skipSpaceFrom (line + 1) 0 rest
      else skipSpaceFrom line (column + 1) rest
    else ⟨c :: rest, line, column⟩

/-- The cursor after blanks. -/
def Cursor.skipSpace (cursor : Cursor) : Cursor :=
  skipSpaceFrom cursor.line cursor.column cursor.rest

/-- Read the given characters. -/
def readWord : List Char → Cursor → Except ReadError Cursor
  | [], cursor => .ok cursor
  | expected :: more, cursor =>
    match cursor.rest with
    | [] => cursor.here .endInValue
    | c :: rest =>
      if c = expected then readWord more (cursor.after c rest)
      else cursor.beyond .expectedWord

/-- The value of a decimal digit. -/
def digitValue (c : Char) : Nat := c.toNat - '0'.toNat

/-- The digits at the cursor, and the cursor after them. -/
def takeDigits (line column : Nat) : List Char → List Nat × Cursor
  | [] => ([], ⟨[], line, column⟩)
  | c :: rest =>
    if c.isDigit then
      let (digits, cursor) := takeDigits line (column + 1) rest
      (digitValue c :: digits, cursor)
    else ([], ⟨c :: rest, line, column⟩)

/-- The digits at the cursor. -/
def Cursor.digits (cursor : Cursor) : List Nat × Cursor :=
  takeDigits cursor.line cursor.column cursor.rest

/-- Append digits to a number as long as it stays below `2 ^ 64`; returns
the number, how many digits went in and how many did not. -/
def accumulate : Nat → List Nat → Nat × Nat × Nat
  | sofar, [] => (sofar, 0, 0)
  | sofar, digit :: rest =>
    if sofar * 10 + digit < 1 <<< 64 then
      let (total, taken, dropped) := accumulate (sofar * 10 + digit) rest
      (total, taken + 1, dropped)
    else (sofar, 0, rest.length + 1)

/-- The double of `10 ^ power`. -/
def powerOfTen (power : Nat) : Binary64 :=
  .ofMagnitude false (Binary64.nearest (Nat.pow 10 power) 1)

/-- The double of a significand below `2 ^ 64` and an exponent, unless it is
too large.  The significand is rounded to a double first and then multiplied
or divided by a rounded power of ten, so a long significand can come out one
step away from the nearest double.  An exponent below `-308` divides
twice. -/
def realOfParts (significand : Nat) (exponent : Int) : Option Binary64 :=
  let start := Binary64.ofMagnitude false (Binary64.nearest significand 1)
  if significand = 0 then some start
  else if 308 < exponent then none
  else if 0 ≤ exponent then
    let scaled := start.mul (powerOfTen exponent.toNat)
    if scaled.isInfinite then none else some scaled
  else if -308 ≤ exponent then some (start.div (powerOfTen (-exponent).toNat))
  else if exponent < -616 then some (.ofMagnitude false 0)
  else some ((start.div (powerOfTen 308)).div (powerOfTen (-exponent - 308).toNat))

/-- A double with its sign. -/
def signed (negative : Bool) (x : Binary64) : Json :=
  .number (.real (if negative then x.neg else x))

/-- The double of its parts, or a fault at the cursor. -/
def finishReal (negative : Bool) (significand : Nat) (exponent : Int)
    (cursor : Cursor) : Except ReadError (Json × Cursor) :=
  match realOfParts significand exponent with
  | some x => .ok (signed negative x, cursor)
  | none => cursor.here .numberOutOfRange

/-- The digits of an exponent; nothing once it reaches `2 ^ 31`. -/
def exponentDigits (exponent line column : Nat) :
    List Char → Option Nat × Cursor
  | [] => (some exponent, ⟨[], line, column⟩)
  | c :: rest =>
    if c.isDigit then
      if exponent * 10 + digitValue c < 1 <<< 31 then
        exponentDigits (exponent * 10 + digitValue c) line (column + 1) rest
      else (none, ⟨rest, line, column + 1⟩)
    else (some exponent, ⟨c :: rest, line, column⟩)

/-- Read an exponent, from after its `e`, and finish the number. -/
def readExponent (negative : Bool) (significand : Nat) (start : Int)
    (cursor : Cursor) : Except ReadError (Json × Cursor) :=
  let (down, cursor) :=
    match cursor.rest with
    | '+' :: rest => (false, cursor.after '+' rest)
    | '-' :: rest => (true, cursor.after '-' rest)
    | _ => (false, cursor)
  match cursor.rest with
  | [] => cursor.here .endInValue
  | c :: _ =>
    if c.isDigit then
      match exponentDigits 0 cursor.line cursor.column cursor.rest with
      | (some exponent, cursor) =>
        finishReal negative significand
          (if down then start - exponent else start + exponent) cursor
      | (none, cursor) =>
        if significand ≠ 0 && !down then cursor.here .numberOutOfRange
        else .ok (signed negative (.ofMagnitude false 0), (cursor.digits).2)
    else cursor.beyond .invalidNumber

/-- Read what follows the point of a number and finish it. -/
def readFraction (negative : Bool) (significand : Nat) (exponent : Int)
    (cursor : Cursor) : Except ReadError (Json × Cursor) :=
  match cursor.digits with
  | ([], _) =>
    match cursor.rest with
    | [] => cursor.here .endInValue
    | _ :: _ => cursor.beyond .invalidNumber
  | (digits, cursor) =>
    let (significand, taken, _) := accumulate significand digits
    let exponent := exponent - taken
    match cursor.rest with
    | 'e' :: rest => readExponent negative significand exponent (cursor.after 'e' rest)
    | 'E' :: rest => readExponent negative significand exponent (cursor.after 'E' rest)
    | _ => finishReal negative significand exponent cursor

/-- A number without point and exponent.  It is an integer if it is one of
64 bits, signed or not; a negative zero and everything larger is a
double. -/
def integerOrReal (negative : Bool) (significand : Nat) : Json :=
  if !negative then .number (.integer significand)
  else if significand ≠ 0 ∧ significand ≤ 1 <<< 63 then
    .number (.integer (-(significand : Int)))
  else signed true (.ofMagnitude false (Binary64.nearest significand 1))

/-- Read a number, from after its sign. -/
def readNumber (negative : Bool) (cursor : Cursor) :
    Except ReadError (Json × Cursor) :=
  match cursor.rest with
  | [] => cursor.here .endInValue
  | c :: more =>
    if !c.isDigit then cursor.beyond .invalidNumber
    else
      let (digits, after) := cursor.digits
      if c = '0' ∧ 1 < digits.length then
        (cursor.after c more).beyond .invalidNumber
      else
        let (significand, _, dropped) := accumulate 0 digits
        match after.rest with
        | '.' :: rest => readFraction negative significand dropped (after.after '.' rest)
        | 'e' :: rest => readExponent negative significand dropped (after.after 'e' rest)
        | 'E' :: rest => readExponent negative significand dropped (after.after 'E' rest)
        | _ =>
          if dropped = 0 then .ok (integerOrReal negative significand, after)
          else finishReal negative significand dropped after

/-- The value of a hexadecimal digit. -/
def hexValue (c : Char) : Option Nat :=
  if c.isDigit then some (c.toNat - '0'.toNat)
  else if 'a' ≤ c ∧ c ≤ 'f' then some (c.toNat - 'a'.toNat + 10)
  else if 'A' ≤ c ∧ c ≤ 'F' then some (c.toNat - 'A'.toNat + 10)
  else none

/-- The number of four hexadecimal digits. -/
def hexQuad (a b c d : Char) : Option Nat :=
  match hexValue a, hexValue b, hexValue c, hexValue d with
  | some a, some b, some c, some d => some (((a * 16 + b) * 16 + c) * 16 + d)
  | _, _, _, _ => none

/-- The character that a one letter escape stands for. -/
def simpleEscape (c : Char) : Option Char :=
  match c with
  | '"' => some '"'
  | '\\' => some '\\'
  | '/' => some '/'
  | 'b' => some '\x08'
  | 'f' => some '\x0c'
  | 'n' => some '\n'
  | 'r' => some '\r'
  | 't' => some '\t'
  | _ => none

/-- The fault where four hexadecimal digits should stand and do not: there
are four bytes but not of digits, or the text ends within them. -/
def badHexQuad {α : Type} (line column : Nat) (rest : List Char) :
    Except ReadError α :=
  match Cursor.placeAfterBytes 4 line column rest with
  | some (line, column) => .error ⟨.invalidEscape, line, column⟩
  | none =>
    let final := rest.foldl (fun cursor c => Cursor.after cursor c []) ⟨[], line, column⟩
    final.here .endInString

/-- Read the rest of a string and its closing quote. -/
def readString (line column : Nat) :
    List Char → Except ReadError (List Char × Cursor)
  | [] => .error ⟨.endInString, line, column⟩
  | '"' :: rest => .ok ([], ⟨rest, line, column + 1⟩)
  | '\\' :: [] => .error ⟨.endInString, line, column + 1⟩
  | '\\' :: 'u' :: a :: b :: c :: d :: rest =>
    match hexQuad a b c d with
    | none => badHexQuad line (column + 2) (a :: b :: c :: d :: rest)
    | some unit =>
      if 0xDC00 ≤ unit ∧ unit ≤ 0xDFFF then
        .error ⟨.loneSurrogate, line, column + 6⟩
      else if unit < 0xD800 ∨ 0xDBFF < unit then do
        let (text, cursor) ← readString line (column + 6) rest
        return (Char.ofNat unit :: text, cursor)
      else
        match rest with
        | '\\' :: 'u' :: e :: f :: g :: h :: rest =>
          match hexQuad e f g h with
          | none => badHexQuad line (column + 8) (e :: f :: g :: h :: rest)
          | some low =>
            if low < 0xDC00 ∨ 0xDFFF < low then
              .error ⟨.loneSurrogate, line, column + 12⟩
            else do
              let (text, cursor) ← readString line (column + 12) rest
              return (Char.ofNat
                ((unit - 0xD800) * 0x400 + (low - 0xDC00) + 0x10000) :: text, cursor)
        | '\\' :: 'u' :: rest => badHexQuad line (column + 8) rest
        | '\\' :: rest =>
          if rest.isEmpty then .error ⟨.endInString, line, column + 7⟩
          else Cursor.beyond ⟨rest, line, column + 7⟩ .surrogateCutShort
        | rest =>
          if rest.isEmpty then .error ⟨.endInString, line, column + 6⟩
          else Cursor.beyond ⟨rest, line, column + 6⟩ .surrogateCutShort
  | '\\' :: 'u' :: rest => badHexQuad line (column + 2) rest
  | '\\' :: c :: rest =>
    match simpleEscape c with
    | some plain => do
      let (text, cursor) ← readString line (column + 2) rest
      return (plain :: text, cursor)
    | none => Cursor.beyond ⟨c :: rest, line, column + 1⟩ .invalidEscape
  | c :: rest =>
    if c.toNat < 0x20 then
      Cursor.beyond ⟨c :: rest, line, column⟩ .controlCharacter
    else do
      let (text, cursor) ← readString line (column + c.utf8Size) rest
      return (c :: text, cursor)

/-- A quote that is not escaped ends the string. -/
theorem readString_quote (line column : Nat) (rest : List Char) :
    readString line column ('"' :: rest) = .ok ([], ⟨rest, line, column + 1⟩) := by
  rw [readString]

/-- Read a string, from after its opening quote. -/
def Cursor.string (cursor : Cursor) : Except ReadError (String × Cursor) := do
  let (text, cursor) ← readString cursor.line cursor.column cursor.rest
  return (String.ofList text, cursor)

/-- Reads one value. -/
abbrev ValueReader := Cursor → Except ReadError (Json × Cursor)

/-- Read the items of an array that follow its first, and its end. -/
def readItems (value : ValueReader) :
    Nat → Cursor → Except ReadError (List Json × Cursor)
  | 0, cursor => cursor.here .endInArray
  | rounds + 1, cursor =>
    let cursor := cursor.skipSpace
    match cursor.rest with
    | [] => cursor.here .endInArray
    | ']' :: rest => .ok ([], cursor.after ']' rest)
    | ',' :: rest =>
      let cursor := (cursor.after ',' rest).skipSpace
      match cursor.rest with
      | [] => cursor.here .endInValue
      | ']' :: _ => cursor.beyond .trailingComma
      | _ => do
        let (item, cursor) ← value cursor
        let (items, cursor) ← readItems value rounds cursor
        return (item :: items, cursor)
    | _ => cursor.beyond .expectedArrayEnd

/-- Read an array, from after its opening bracket. -/
def readArray (value : ValueReader) (rounds : Nat) (cursor : Cursor) :
    Except ReadError (List Json × Cursor) :=
  let cursor := cursor.skipSpace
  match cursor.rest with
  | [] => cursor.here .endInArray
  | ']' :: rest => .ok ([], cursor.after ']' rest)
  | _ => do
    let (item, cursor) ← value cursor
    let (items, cursor) ← readItems value rounds cursor
    return (item :: items, cursor)

/-- Read one member, from after the opening quote of its name. -/
def readMember (value : ValueReader) (cursor : Cursor) :
    Except ReadError ((String × Json) × Cursor) := do
  let (name, cursor) ← cursor.string
  let cursor := cursor.skipSpace
  match cursor.rest with
  | [] => cursor.here .endInObject
  | ':' :: rest =>
    let (value, cursor) ← value (cursor.after ':' rest)
    return ((name, value), cursor)
  | _ => cursor.beyond .expectedColon

/-- Read the members of an object that follow its first, and its end. -/
def readMembers (value : ValueReader) :
    Nat → Cursor → Except ReadError (List (String × Json) × Cursor)
  | 0, cursor => cursor.here .endInObject
  | rounds + 1, cursor =>
    let cursor := cursor.skipSpace
    match cursor.rest with
    | [] => cursor.here .endInObject
    | '\x7d' :: rest => .ok ([], cursor.after '\x7d' rest)
    | ',' :: rest =>
      let cursor := (cursor.after ',' rest).skipSpace
      match cursor.rest with
      | [] => cursor.here .endInValue
      | '"' :: rest => do
        let (member, cursor) ← readMember value (cursor.after '"' rest)
        let (members, cursor) ← readMembers value rounds cursor
        return (member :: members, cursor)
      | '\x7d' :: _ => cursor.beyond .trailingComma
      | _ => cursor.beyond .nameNotString
    | _ => cursor.beyond .expectedObjectEnd

/-- Read an object, from after its opening brace. -/
def readObject (value : ValueReader) (rounds : Nat) (cursor : Cursor) :
    Except ReadError (List (String × Json) × Cursor) :=
  let cursor := cursor.skipSpace
  match cursor.rest with
  | [] => cursor.here .endInObject
  | '\x7d' :: rest => .ok ([], cursor.after '\x7d' rest)
  | '"' :: rest => do
    let (member, cursor) ← readMember value (cursor.after '"' rest)
    let (members, cursor) ← readMembers value rounds cursor
    return (member :: members, cursor)
  | _ => cursor.beyond .nameNotString

/-- The members in document order, with the last value of a repeated name in
its first place. -/
def mergeMembers (members : List (String × Json)) : List (String × Json) :=
  members.foldl (fun merged (name, value) => Members.set name value merged) []

/-- Read one value in which brackets are nested less than `depth` deep and
hold fewer than `rounds` values after their first. -/
def readValue (rounds : Nat) : Nat → ValueReader
  | 0, cursor => cursor.beyond .nestedTooDeep
  | depth + 1, cursor =>
    let cursor := cursor.skipSpace
    match cursor.rest with
    | [] => cursor.here .endInValue
    | 'n' :: rest => do
      let cursor ← readWord ['u', 'l', 'l'] (cursor.after 'n' rest)
      return (.null, cursor)
    | 't' :: rest => do
      let cursor ← readWord ['r', 'u', 'e'] (cursor.after 't' rest)
      return (.bool true, cursor)
    | 'f' :: rest => do
      let cursor ← readWord ['a', 'l', 's', 'e'] (cursor.after 'f' rest)
      return (.bool false, cursor)
    | '-' :: rest => readNumber true (cursor.after '-' rest)
    | '"' :: rest => do
      let (text, cursor) ← (cursor.after '"' rest).string
      return (.string text, cursor)
    | '[' :: rest =>
      if depth = 0 then cursor.beyond .nestedTooDeep
      else do
        let (items, cursor) ← readArray (readValue rounds depth) rounds
          (cursor.after '[' rest)
        return (.array items, cursor)
    | '\x7b' :: rest =>
      if depth = 0 then cursor.beyond .nestedTooDeep
      else do
        let (members, cursor) ← readObject (readValue rounds depth) rounds
          (cursor.after '\x7b' rest)
        return (.object (mergeMembers members), cursor)
    | c :: _ =>
      if c.isDigit then readNumber false cursor
      else cursor.beyond .expectedValue

/-- Nothing is read where brackets are nested too deep. -/
theorem readValue_zero (rounds : Nat) (cursor : Cursor) :
    readValue rounds 0 cursor = cursor.beyond .nestedTooDeep := by
  rw [readValue]

/-- How deep arrays and objects may be nested, plus one. -/
def nestingLimit : Nat := 128

/-- Read a whole document. -/
def read (text : String) : Except ReadError Json := do
  let (value, cursor) ← readValue text.length nestingLimit ⟨text.toList, 1, 0⟩
  let cursor := cursor.skipSpace
  if cursor.rest.isEmpty then return value
  else cursor.beyond .trailingCharacters

end FunctionIR.Json
