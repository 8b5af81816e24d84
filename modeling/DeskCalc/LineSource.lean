import DeskCalc.Lexeme
import DeskCalc.Text.Lines

/-!
# Line sources

A line source hands out its lines one at a time, so that whoever types them sees each answer as soon
as the line is complete. A line of bytes that is no text cannot be handed out, and a source may break
off altogether: then it hands out the part of a line that it had and fails from there on.

* `LineSource`: what is still to be read;
* `LineSource.ofText`, `ofBytes`, `failing`: where sources come from;
* `LineSource.read`, `readLine`: reading one line;
* `LineSource.next?`: the first lexeme of what is left of a line and of the lines behind it.
-/

namespace DeskCalc

/-- A line of a source, with the line break at its end if it has one. -/
inductive SourceLine where
  | text (chars : List Char)
  | undecodable
  deriving DecidableEq

/-- What happens behind the last line of a source. -/
inductive Ending where
  | clean
  /-- The source breaks off after the given part of a line. -/
  | failure (part : List Char) (message : String)
  deriving DecidableEq

/-- The lines still to be read, and what happens behind them. -/
structure LineSource where
  lines : List SourceLine
  ending : Ending
  /-- Is the source released together with the input that it was made for? -/
  owned : Bool
  deriving DecidableEq

inductive Reading where
  | line (chars : List Char)
  | finished
  /-- The line cannot be read; a part of it may have been. -/
  | failed (part : List Char) (message : String)

namespace LineSource

def undecodableMessage : String := "stream did not contain valid UTF-8"

/-- A source that hands out a text. -/
def ofText (text : String) : LineSource where
  lines := (Text.splitAfter '\n' text.toList).map .text
  ending := .clean
  owned := true

def decodeLine (bytes : List UInt8) : SourceLine :=
  match String.fromUTF8? ⟨bytes.toArray⟩ with
  | some text => .text text.toList
  | none => .undecodable

/-- A source that hands out bytes which belong to someone else. -/
def ofBytes (bytes : ByteArray) : LineSource where
  lines := (Text.splitAfter 10 bytes.data.toList).map decodeLine
  ending := .clean
  owned := false

/-- A source that hands out a text and then breaks off. -/
def failing (text message : String) : LineSource where
  lines := (complete (Text.splitAfter '\n' text.toList)).1.map .text
  ending := .failure (complete (Text.splitAfter '\n' text.toList)).2 message
  owned := true
where
  /-- The lines that end in a line break, and what is left behind them. -/
  complete (pieces : List (List Char)) : List (List Char) × List Char :=
    if (pieces.getLast?.bind List.getLast?) = some '\n' then (pieces, [])
    else (pieces.dropLast, pieces.getLast?.getD [])

def read (s : LineSource) : Reading × LineSource :=
  match s.lines with
  | .text chars :: lines => (.line chars, { s with lines := lines })
  | .undecodable :: lines => (.failed [] undecodableMessage, { s with lines := lines })
  | [] =>
    match s.ending with
    | .clean => (.finished, s)
    | .failure part message => (.failed part message, { s with ending := .failure [] message })

/--
Reads a line onto the end of a buffer and counts its bytes; zero means that there is nothing more.
-/
def readLine (s : LineSource) (buffer : String) : Except String Nat × String × LineSource :=
  match s.read with
  | (.line chars, s) =>
    let text := String.ofList chars
    (.ok text.utf8ByteSize, buffer ++ text, s)
  | (.finished, s) => (.ok 0, buffer, s)
  | (.failed part message, s) => (.error message, buffer ++ String.ofList part, s)

/-- The number of characters still to be read, the part that goes with a failure apart. -/
def unread (s : LineSource) : Nat :=
  s.lines.foldr
    (fun line n => (match line with | .text chars => chars.length | .undecodable => 0) + n) 0

/-- Reading a line leaves fewer lines and characters to be read. -/
theorem of_read_eq_line {s s' : LineSource} {chars : List Char} (h : s.read = (.line chars, s')) :
    s'.lines.length < s.lines.length ∧ chars.length + s'.unread = s.unread := by
  unfold read at h
  split at h
  · next hl =>
    cases h
    simp [unread, hl]
  · simp at h
  · split at h <;> simp at h

theorem unread_of_read_ne_line {s : LineSource} (h : ∀ chars, s.read.1 ≠ .line chars) :
    s.read.2.unread = s.unread := by
  unfold read at h ⊢
  split
  · next hl => simp [hl] at h
  · next hl => simp [unread, hl]
  · split <;> rfl

inductive Found where
  | lexeme (l : Lexeme) (rest : List Char)
  | finished
  | failed (message : String)

/-- The first lexeme of the rest of a line and of the lines behind it, which are read as needed. -/
def next (rest : List Char) (s : LineSource) : Found × LineSource :=
  match Lexeme.next? rest with
  | some (l, rest) => (.lexeme l rest, s)
  | none =>
    match _h : s.read with
    | (.line chars, s') => next chars s'
    | (.finished, s') => (.finished, s')
    | (.failed _ message, s') => (.failed message, s')
termination_by s.lines.length
decreasing_by exact (of_read_eq_line _h).1

/-- A lexeme takes at least one of the characters that were still to be read. -/
theorem unread_lt_of_next {rest rest' : List Char} {s s' : LineSource} {l : Lexeme}
    (h : next rest s = (.lexeme l rest', s')) :
    rest'.length + s'.unread < rest.length + s.unread := by
  -- by the cases of the search; a further line is read only where the rest has no lexeme
  fun_induction next rest s with
  | case1 rest s l' rest'' hl =>
    cases h
    have := Lexeme.length_lt_of_next? hl
    omega
  | case2 rest s _ chars s'' hr ih =>
    have := ih h
    have := of_read_eq_line hr
    omega
  | case3 => simp at h
  | case4 => simp at h

/-- A search never adds to what is still to be read. -/
theorem unread_next_le (rest : List Char) (s : LineSource) :
    (next rest s).2.unread ≤ s.unread := by
  fun_induction next rest s with
  | case1 => simp
  | case2 rest s _ chars s'' hr ih =>
    have := of_read_eq_line hr
    omega
  -- at the end and at a failure, what is unread stays unread
  | case3 rest s _ s' hr =>
    have := unread_of_read_ne_line (s := s) (by simp [hr])
    simp_all
  | case4 rest s _ _ _ s' hr =>
    have := unread_of_read_ne_line (s := s) (by simp [hr])
    simp_all

end LineSource

end DeskCalc
