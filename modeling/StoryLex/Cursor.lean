import StoryLex.Bytes.Classes
import StoryLex.Token.Basic

/-!
# StoryLex — cursors

A cursor is a place in a text: the offset, the byte right before it and the
bytes still to come. Rules look one byte back and read on from there, so a
cursor is all they need, and moving on never goes back to the whole text.

A cursor never leaves its text: `Cursor.advance` stops at the end.
-/

namespace StoryLex

/-- A place in a text. -/
structure Cursor where
  /-- How many bytes of the text lie before this place. -/
  offset : Nat
  /-- The last byte before this place, if there is one. -/
  before : Option UInt8
  /-- The bytes from this place on. -/
  rest : Bytes
deriving DecidableEq, Repr

namespace Cursor

/-- The place with `n` bytes before it, or the end of a shorter text. -/
def ofOffset (text : Bytes) (n : Nat) : Cursor where
  offset := (text.take n).length
  before := (text.take n).getLast?
  rest := text.drop n

/-- The place `n` bytes further on, or the end of the text if that comes first. -/
def advance (c : Cursor) (n : Nat) : Cursor where
  offset := c.offset + (c.rest.take n).length
  before := (c.rest.take n).getLast?.or c.before
  rest := c.rest.drop n

/-- The first place from here on whose byte is not in the class `p`. -/
def skip (p : UInt8 → Bool) (c : Cursor) : Cursor := c.advance (runLength p c.rest)

/-- The same place in the text that ends with the current line. -/
def inLine (c : Cursor) : Cursor := { c with rest := c.rest.takeWhile isInLine }

/-- The span from one place to a later one. -/
def spanTo (c d : Cursor) : Span := ⟨c.offset, d.offset⟩

/-- The token that covers the bytes from one place to a later one. -/
def tokenTo (c d : Cursor) (kind : Kind) : Token where
  kind := kind
  span := c.spanTo d
  lexeme := c.rest.take (d.offset - c.offset)

@[simp] theorem rest_advance (c : Cursor) (n : Nat) : (c.advance n).rest = c.rest.drop n := rfl

/-- Moving on by at least one byte leaves less to come, unless nothing was left. -/
theorem length_rest_advance_lt {c : Cursor} (h : c.rest ≠ []) (n : Nat) :
    (c.advance (n + 1)).rest.length < c.rest.length := by
  have := List.length_pos_iff.mpr h
  simp only [rest_advance, List.length_drop]
  omega

theorem length_rest_advance_le (c : Cursor) (n : Nat) :
    (c.advance n).rest.length ≤ c.rest.length := by
  simp

/-- Skipping leaves no more to come, for a cursor only ever moves on. -/
theorem length_rest_skip_le (p : UInt8 → Bool) (c : Cursor) :
    (c.skip p).rest.length ≤ c.rest.length :=
  length_rest_advance_le c _

end Cursor

end StoryLex
