/-
A place in a text from which to scan, for callers who keep the place themselves. A scan that fails leaves
the cursor where the failure was noticed: at the end of the text for a string that is never closed, and
where it stood for a delimiter that is missing.
-/
import StyleScope.Scan.Nesting

namespace StyleScope.Scan

/-- A place in a text, in bytes from its start. It may stand inside a character. -/
structure Cursor where
  /-- The whole text. -/
  text : Bytes
  /-- The place in it. -/
  offset : Nat
  /-- The place is within the text. -/
  offset_le : offset ≤ text.length

namespace Cursor

/-- The cursor at an offset, or at the end of the text if that comes first. -/
def ofOffset (text : Bytes) (offset : Nat) : Cursor :=
  ⟨text, min offset text.length, Nat.min_le_right _ _⟩

/-- The cursor before what remains of its text. -/
def leaving (c : Cursor) (rest : Bytes) : Cursor :=
  ⟨c.text, offsetOf c.text rest, Nat.sub_le _ _⟩

/-- What remains of the text. -/
def rest (c : Cursor) : Bytes := c.text.drop c.offset

/-- Nothing remains. -/
def atEnd (c : Cursor) : Bool := c.rest.isEmpty

/-- The next byte. -/
def peek (c : Cursor) : Option UInt8 := c.rest.head?

/-- Where the cursor stands after a fault. -/
def afterFault (c : Cursor) : Fault → Cursor
  | .unterminatedQuote .. => c.leaving []
  | _ => c

/-- Moves past a gap. -/
def skipGap (c : Cursor) : Cursor := c.leaving (Scan.skipGap c.rest)

/-- Moves to the next byte that `stop` accepts. -/
def seek (stop : UInt8 → Bool) (c : Cursor) : Cursor := c.leaving (Scan.seek stop c.rest)

/-- Moves as a scan of what remains does. -/
def advance (scan : Bytes → Except Fault Bytes) (c : Cursor) : Except Error Unit × Cursor :=
  match scan c.rest with
  | .ok rest => (.ok (), c.leaving rest)
  | .error fault => (.error (fault.locate c.text), c.afterFault fault)

/-- Moves past a delimiter. -/
def expect (delimiter : UInt8) (c : Cursor) : Except Error Unit × Cursor := c.advance (Scan.expect delimiter)

/-- Moves to the next top-level stop. -/
def topLevel (stops : Bytes) (c : Cursor) : Except Error Unit × Cursor := c.advance (Scan.topLevel stops)

/-- The slice between two offsets. -/
def slice (c : Cursor) (start stop : Nat) : Except Error String :=
  match Text.slice? c.text start stop with
  | some text => .ok text
  | none => .error .invalidSlice

/-- The slice between an offset and the cursor. -/
def sliceFrom (c : Cursor) (start : Nat) : Except Error String := c.slice start c.offset

/-- Moves past a value and gives its text. -/
def value (follow : Bytes) (c : Cursor) : Except Error String × Cursor :=
  match c.advance (afterValue follow) with
  | (.ok (), moved) => (moved.sliceFrom c.offset, moved)
  | (.error error, moved) => (.error error, moved)

end Cursor

end StyleScope.Scan
