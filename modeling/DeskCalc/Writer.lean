/-!
# Writers

A writer keeps the bytes that were written to it. It may have room for only so many of them, and it
may fail to flush. What does not fit is written as far as it fits.
-/

namespace DeskCalc

/-- Bytes written so far, and what may keep more from being written. -/
structure Writer where
  written : ByteArray
  /-- How many more bytes fit; no limit if there is none. -/
  room : Option Nat
  flushFails : Bool

namespace Writer

/-- A writer with nothing written to it, which takes everything or only so many bytes. -/
def new (room : Option Nat) (flushFails : Bool) : Writer := ⟨.empty, room, flushFails⟩

def unlimited : Writer := new none false

def fullMessage : String := "disk full"

def flushMessage : String := "flush failed"

def fitting (w : Writer) (bytes : ByteArray) : Nat :=
  match w.room with
  | none => bytes.size
  | some room => min room bytes.size

/-- Writes a text, or as much of it as fits; then the message is that of a full writer. -/
def write (text : String) (w : Writer) : Except String Unit × Writer :=
  let bytes := text.toUTF8
  let n := w.fitting bytes
  (if n = bytes.size then .ok () else .error fullMessage,
    { w with written := w.written ++ bytes.extract 0 n, room := w.room.map (· - n) })

/-- Makes sure that what was written has arrived. -/
def flush (w : Writer) : Except String Unit :=
  if w.flushFails then .error flushMessage else .ok ()

end Writer

end DeskCalc
