import StoryLex.Bytes.Classes

/-!
# StoryLex — lines and columns

An index of a text holds the offset at which each of its lines starts. It
turns byte offsets into line and column, both counted from one, and finds the
text of a line. Columns count characters: the bytes with which a UTF-8
character goes on are not counted.
-/

namespace StoryLex

/-- A line and a column, counted from one. -/
structure Location where
  /-- The line. -/
  line : Nat
  /-- The column, in characters. -/
  column : Nat
deriving DecidableEq, Repr

/-- Where the lines of a text start. -/
structure LineIndex where
  /-- The text itself. -/
  text : Bytes
  /-- The offsets at which its lines start, in increasing order. -/
  starts : List Nat
deriving DecidableEq, Repr

namespace LineIndex

/-- The offsets behind the newlines of a text, the first byte of which has the
given offset. -/
def startsFrom (offset : Nat) : Bytes → List Nat
  | [] => []
  | b :: rest =>
    if b == newline then (offset + 1) :: startsFrom (offset + 1) rest
    else startsFrom (offset + 1) rest

/-- The index of a text. The first line starts at the beginning, every other
one behind a newline. -/
def ofText (text : Bytes) : LineIndex where
  text := text
  starts := 0 :: startsFrom 0 text

/-- The number of lines. -/
def lineCount (index : LineIndex) : Nat := index.starts.length

/-- Where an offset lies. Offsets past the end of the text lie at its end. -/
def locate (index : LineIndex) (offset : Nat) : Location :=
  let offset := min offset index.text.length
  -- the starts increase, so those not past the offset stand in front
  let line := (index.starts.takeWhile (· ≤ offset)).length
  let lineStart := index.starts.getD (line - 1) 0
  let before := (index.text.take offset).drop lineStart
  { line := line, column := 1 + before.countP (!isContinuation ·) }

/-- The text of a line without its end, a newline or a carriage return and a
newline. It is empty where there is no such line. -/
def lineText (index : LineIndex) (line : Nat) : Bytes :=
  if line = 0 then []
  else match index.starts[line - 1]? with
    | none => []
    | some start =>
      -- up to the newline before the next line, or to the end of the text
      let stop := index.starts[line]?.elim index.text.length (· - 1)
      let text := (index.text.take stop).drop start
      if text.getLast? = some carriageReturn then text.dropLast else text

end LineIndex

end StoryLex
