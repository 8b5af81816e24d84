/-!
# Plain text

What remains of a text where it is shown without colours. The control sequences of a terminal are
taken out, and so are all control characters but white space.

A sequence starts with the escape character, and the character behind that says of which kind it is.
White space is shown even in the middle of a short sequence, and the text behind it is shown as well:
the sequence goes on at the next control character.

* `Control`, `Control.next`: the kinds of sequences, and how far each of them goes;
* `plain`: what remains of a text.
-/

namespace DeskCalc.Text

/-- Where a character stands with regard to control sequences. -/
inductive Control where
  | none
  | escape
  /-- In a sequence that a digit, a letter or a sign above the digits ends. -/
  | intermediate
  /-- In a sequence that a letter ends, as those for colours are. -/
  | parameters
  | deviceHead
  | deviceParameters
  | deviceIntermediate
  /-- In a string that the byte of the string terminator ends. -/
  | string
  /-- In a string that the bell ends, as those for window titles are. -/
  | title
  deriving DecidableEq

namespace Control

/-- The kind of sequence that a character behind the escape character starts, if any. -/
def start (c : Char) : Control :=
  if c = '[' then .parameters
  else if c = ']' then .title
  else if c = 'P' then .deviceHead
  else if c = 'X' ∨ c = '^' ∨ c = '_' then .string
  else if ' ' ≤ c ∧ c ≤ '/' then .intermediate
  else if '0' ≤ c ∧ c ≤ '~' then .none
  else .escape

/-- Where the next character stands, behind a character that is not shown. -/
def next (c : Char) (s : Control) : Control :=
  if c = '\x1b' then .escape
  else if c = '\x18' ∨ c = '\x1a' then .none
  else match s with
    | .none => .none
    | .escape => start c
    | .intermediate => if '0' ≤ c ∧ c ≤ '~' then .none else .intermediate
    | .parameters => if '@' ≤ c ∧ c ≤ '~' then .none else .parameters
    | .deviceHead =>
      if ' ' ≤ c ∧ c ≤ '/' then .deviceIntermediate
      else if '0' ≤ c ∧ c ≤ '?' then .deviceParameters
      else if '@' ≤ c ∧ c ≤ '~' then .string
      else .deviceHead
    | .deviceParameters =>
      if ' ' ≤ c ∧ c ≤ '/' then .deviceIntermediate
      else if '<' ≤ c ∧ c ≤ '~' then .string
      else .deviceParameters
    | .deviceIntermediate => if '0' ≤ c ∧ c ≤ '~' then .string else .deviceIntermediate
    | .string => if (0x9c : UInt8) ∈ String.utf8EncodeChar c then .none else .string
    | .title => if c = '\x07' then .none else .title

/-- Is white space shown in the middle of a sequence? -/
def showsSpace : Control → Bool
  | .none | .escape | .intermediate | .parameters => true
  | _ => false

end Control

def isGraphic (c : Char) : Bool := ' ' ≤ c && c ≤ '~'

/-- Is the character a control character of ASCII that is white space? -/
def isSpaceControl (c : Char) : Bool := c == '\t' || c == '\n' || c == '\x0c' || c == '\r'

/--
What remains of a text, the start of which stands as given with regard to control sequences. Where
the flag is set the sequence has been broken off by white space.
-/
def plainFrom (s : Control) (brokenOff : Bool) : List Char → List Char
  | [] => []
  | c :: text =>
    if isSpaceControl c ∧ s.showsSpace then c :: plainFrom s true text
    else if s = .none ∨ brokenOff then
      if isGraphic c then c :: plainFrom s brokenOff text
      else if '\x7f' < c then c :: plainFrom .none false text
      else plainFrom (s.next c) false text
    else plainFrom (s.next c) false text

/-- A text without control sequences and without control characters other than white space. -/
def plain (text : String) : String := String.ofList (plainFrom .none false text.toList)

end DeskCalc.Text
