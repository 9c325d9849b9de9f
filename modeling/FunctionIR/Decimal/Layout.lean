import FunctionIR.Decimal.Shortest

/-!
# How a double is written

The digits of a double are the same wherever it is written; a `Layout` says
how they are arranged: for which exponents positional notation is used, how
the exponent looks otherwise, and what stands for the doubles that are not
numbers.  Positional notation always has a fractional part, if only `.0`, so
that a double is never taken for an integer.
-/

namespace FunctionIR.Decimal

/-- The arrangement of a double's digits.  The exponents are those of the
leading digit. -/
structure Layout where
  /-- Of two equally near shortest decimals, take the upper one. -/
  tieUp : Bool
  /-- The least exponent that is written positionally. -/
  firstPositional : Int
  /-- The greatest exponent that is written positionally. -/
  lastPositional : Int
  /-- The sign of a positive exponent. -/
  plus : String
  /-- The text of an infinite double, by its sign. -/
  infinite : Bool → String
  /-- The text of a double that is not a number. -/
  notANumber : String

/-- The digits, with the leading one worth `10 ^ lead`, in positional
notation. -/
def positional (digits : List Char) (lead : Int) : List Char :=
  if lead < 0 then
    '0' :: '.' :: List.replicate (-lead - 1).toNat '0' ++ digits
  else
    let whole := lead.toNat + 1
    if digits.length ≤ whole then
      digits ++ List.replicate (whole - digits.length) '0' ++ ['.', '0']
    else digits.take whole ++ '.' :: digits.drop whole

/-- The digits, with the leading one worth `10 ^ lead`, as a significand and
an exponent. -/
def exponential (plus : String) (digits : List Char) (lead : Int) :
    List Char :=
  let significand :=
    match digits with
    | first :: rest@(_ :: _) => first :: '.' :: rest
    | short => short
  let sign := if lead < 0 then ['-'] else plus.toList
  significand ++ 'e' :: sign ++ Nat.toDigits 10 lead.natAbs

/-- The text of a double. -/
def Layout.write (layout : Layout) (x : Binary64) : String :=
  if x.isNaN then layout.notANumber
  else if x.isInfinite then layout.infinite x.isNegative
  else
    let sign := if x.isNegative then "-" else ""
    if x.magnitude = 0 then sign ++ "0.0"
    else
      let (digits, power) := shortest layout.tieUp x
      let digits := Nat.toDigits 10 digits
      let lead := power + digits.length - 1
      let body :=
        if layout.firstPositional ≤ lead ∧ lead ≤ layout.lastPositional then
          positional digits lead
        else exponential layout.plus digits lead
      sign ++ String.ofList body

end FunctionIR.Decimal
