import FunctionIR.Decimal.Binary64

/-!
# Literals

What the text of a literal stands for.  A number may have underscores
between its digits, which mean nothing.  A string keeps a backslash that
starts no escape it knows, and drops one that stands before a line feed
together with the line feed.
-/

namespace FunctionIR.Reading

/-- The number that decimal digits stand for. -/
def digitsValue (digits : List Char) : Nat :=
  digits.foldl (fun sum c => sum * 10 + (c.toNat - '0'.toNat)) 0

/-- The integer of a literal, if it fits a signed 64 bit word. -/
def integerValue (text : List Char) : Option Int64 :=
  let value := digitsValue (text.filter (· != '_'))
  if value < 1 <<< 63 then some (Int64.ofNat value) else none

/-- The exponent that a literal ends with, from its `e`. -/
def exponentValue : List Char → Int
  | _ :: '-' :: digits => -(digitsValue digits : Int)
  | _ :: '+' :: digits => digitsValue digits
  | _ :: digits => digitsValue digits
  | [] => 0

/-- The double nearest to the number of a literal. -/
def floatValue (text : List Char) : Binary64 :=
  let text := text.filter (· != '_')
  let whole := text.takeWhile Char.isDigit
  let rest := text.dropWhile Char.isDigit
  let (fraction, rest) := match rest with
    | '.' :: rest => (rest.takeWhile Char.isDigit, rest.dropWhile Char.isDigit)
    | rest => ([], rest)
  .ofDecimal false (digitsValue (whole ++ fraction))
    (exponentValue rest - fraction.length)

/-- The text between the quotes of a string literal, with its escapes
resolved. -/
def unescape : List Char → List Char
  | [] => []
  | '\\' :: 'n' :: rest => '\n' :: unescape rest
  | '\\' :: 't' :: rest => '\t' :: unescape rest
  | '\\' :: 'r' :: rest => '\r' :: unescape rest
  | '\\' :: '0' :: rest => '\x00' :: unescape rest
  | '\\' :: '\\' :: rest => '\\' :: unescape rest
  | '\\' :: '\'' :: rest => '\'' :: unescape rest
  | '\\' :: '"' :: rest => '"' :: unescape rest
  | '\\' :: '\n' :: rest => unescape rest
  | '\\' :: c :: rest => '\\' :: c :: unescape rest
  | c :: rest => c :: unescape rest

/-- The text of a string literal. -/
def stringValue (text : List Char) : String :=
  String.ofList (unescape (text.drop 1).dropLast)

end FunctionIR.Reading
