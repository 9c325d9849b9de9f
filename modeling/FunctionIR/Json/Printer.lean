import FunctionIR.Json.Value
import FunctionIR.Decimal.Layout
import FunctionIR.Text.Quoted

/-!
# Writing JSON

A document is written in one of two layouts: compact, on one line without
blanks, or indented by two spaces per level, one item or member per line and
a blank after each colon.  Empty arrays and objects are written without
anything between their brackets in either.  In a string only the quote, the
backslash and the control characters are escaped, the latter by their short
names where they have one.

A third form, `describe`, names the sort of every value; error messages use
it for a value that should have been something else.
-/

namespace FunctionIR.Json

/-- How a double is written in a document: positionally from `1e-5` up to
`1e16`, otherwise with a signed exponent, and `null` where it is no
number. -/
def realLayout : Decimal.Layout where
  tieUp := false
  firstPositional := -5
  lastPositional := 15
  plus := "+"
  infinite := fun _ => "null"
  notANumber := "null"

/-- The text of a number. -/
def Number.text : Number → String
  | .integer value => toString value
  | .real value => realLayout.write value

/-- One character inside a JSON string. -/
def escapeChar (c : Char) : List Char :=
  match c with
  | '"' => ['\\', '"']
  | '\\' => ['\\', '\\']
  | '\x08' => ['\\', 'b']
  | '\x0c' => ['\\', 'f']
  | '\n' => ['\\', 'n']
  | '\r' => ['\\', 'r']
  | '\t' => ['\\', 't']
  | c =>
    if c.toNat < 0x10 then ['\\', 'u', '0', '0', '0'] ++ Text.hexDigits c.toNat
    else if c.toNat < 0x20 then ['\\', 'u', '0', '0'] ++ Text.hexDigits c.toNat
    else [c]

/-- A string in quotes. -/
def stringText (text : String) : String :=
  String.ofList ('"' :: text.toList.flatMap escapeChar ++ ['"'])

mutual

/-- The document on one line. -/
def compact : Json → String
  | .null => "null"
  | .bool true => "true"
  | .bool false => "false"
  | .number n => n.text
  | .string s => stringText s
  | .array items => "[" ++ compactItems items ++ "]"
  | .object members => "\x7b" ++ compactMembers members ++ "\x7d"

/-- The items of an array on one line. -/
def compactItems : List Json → String
  | [] => ""
  | [item] => compact item
  | item :: rest => compact item ++ "," ++ compactItems rest

/-- The members of an object on one line. -/
def compactMembers : List (String × Json) → String
  | [] => ""
  | [(name, value)] => stringText name ++ ":" ++ compact value
  | (name, value) :: rest =>
    stringText name ++ ":" ++ compact value ++ "," ++ compactMembers rest

end

/-- The start of a line at a level of nesting. -/
def lineStart (level : Nat) : String :=
  String.ofList ('\n' :: List.replicate (2 * level) ' ')

mutual

/-- The document with one item or member per line, at a level of nesting. -/
def indentedAt (level : Nat) : Json → String
  | .null => "null"
  | .bool true => "true"
  | .bool false => "false"
  | .number n => n.text
  | .string s => stringText s
  | .array [] => "[]"
  | .array items => "[" ++ indentedItems (level + 1) items ++ lineStart level ++ "]"
  | .object [] => "\x7b\x7d"
  | .object members =>
    "\x7b" ++ indentedMembers (level + 1) members ++ lineStart level ++ "\x7d"

/-- The items of an array, each on its line. -/
def indentedItems (level : Nat) : List Json → String
  | [] => ""
  | [item] => lineStart level ++ indentedAt level item
  | item :: rest =>
    lineStart level ++ indentedAt level item ++ "," ++ indentedItems level rest

/-- The members of an object, each on its line. -/
def indentedMembers (level : Nat) : List (String × Json) → String
  | [] => ""
  | [(name, value)] =>
    lineStart level ++ stringText name ++ ": " ++ indentedAt level value
  | (name, value) :: rest =>
    lineStart level ++ stringText name ++ ": " ++ indentedAt level value ++ "," ++
      indentedMembers level rest

end

/-- The document with one item or member per line. -/
def indented (document : Json) : String := indentedAt 0 document

mutual

/-- The document with the sort of each value named. -/
def describe : Json → String
  | .null => "Null"
  | .bool true => "Bool(true)"
  | .bool false => "Bool(false)"
  | .number n => "Number(" ++ n.text ++ ")"
  | .string s => "String(" ++ Text.quoted s ++ ")"
  | .array items => "Array [" ++ describeItems items ++ "]"
  | .object members => "Object \x7b" ++ describeMembers members ++ "\x7d"

/-- The items of an array with their sorts named. -/
def describeItems : List Json → String
  | [] => ""
  | [item] => describe item
  | item :: rest => describe item ++ ", " ++ describeItems rest

/-- The members of an object with their sorts named. -/
def describeMembers : List (String × Json) → String
  | [] => ""
  | [(name, value)] => Text.quoted name ++ ": " ++ describe value
  | (name, value) :: rest =>
    Text.quoted name ++ ": " ++ describe value ++ ", " ++ describeMembers rest

end

end FunctionIR.Json
