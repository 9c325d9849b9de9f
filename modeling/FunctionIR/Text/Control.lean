/-!
# Control sequences

Some characters act on a terminal instead of being shown.  Most do so alone.
The escape character begins a sequence: a letter, parameters up to a letter,
a command up to a bell, or a string up to the next escape.  A log is written
without all of these, so that what a text says cannot act on the terminal
that the log is read on.

White space is kept, and where it stands inside a sequence the sequence ends.
-/

namespace FunctionIR.Text

/-- The part of a control sequence that a text is in. -/
inductive ControlState where
  /-- No control sequence. -/
  | text
  /-- Behind the escape character. -/
  | escape
  /-- In the intermediate characters of a short sequence. -/
  | intermediate
  /-- In the parameters of a sequence. -/
  | parameters
  /-- In a command to the system. -/
  | command
  /-- In a string to the terminal. -/
  | string
deriving DecidableEq

/-- White space that moves the place of writing. -/
def isLayout (c : Char) : Bool :=
  c == '\t' || c == '\n' || c == '\x0C' || c == '\r'

/-- The control characters of ASCII. -/
def isControl (c : Char) : Bool := c.toNat < 0x20 || c.toNat == 0x7F

namespace ControlState

/-- The state after a character behind the escape character. -/
def begin (c : Char) : ControlState :=
  if c = '[' then .parameters
  else if c = ']' then .command
  else if c = 'P' ∨ c = 'X' ∨ c = '^' ∨ c = '_' then .string
  else if c.toNat < 0x30 then .intermediate
  else if c.toNat < 0x7F then .text
  else .escape

/-- The state after a character. -/
def next (state : ControlState) (c : Char) : ControlState :=
  if c = '\x1B' then .escape
  else if c = '\x18' ∨ c = '\x1A' then .text
  else
    match state with
    | .text => .text
    | .command => if c = '\x07' then .text else .command
    | .string => .string
    | .escape => if isControl c then (if isLayout c then .text else .escape) else begin c
    | .intermediate =>
      if isControl c then (if isLayout c then .text else .intermediate)
      else if 0x30 ≤ c.toNat ∧ c.toNat < 0x7F then .text
      else .intermediate
    | .parameters =>
      if isControl c then (if isLayout c then .text else .parameters)
      else if 0x40 ≤ c.toNat ∧ c.toNat < 0x7F then .text
      else .parameters

/-- The character is kept where a text is in the state. -/
def keeps (state : ControlState) (c : Char) : Bool :=
  match state with
  | .text => !isControl c || isLayout c
  | .escape | .intermediate | .parameters => isLayout c
  | .command | .string => false

end ControlState

/-- The characters that are kept of a text that begins in some state. -/
def keptChars : ControlState → List Char → List Char
  | _, [] => []
  | state, c :: rest =>
    if state.keeps c then c :: keptChars (state.next c) rest
    else keptChars (state.next c) rest

/-- The text without control characters and control sequences. -/
def withoutControls (text : String) : String :=
  String.ofList (keptChars .text text.toList)

end FunctionIR.Text
