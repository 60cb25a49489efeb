import StoryLex.Bytes.Decimal
import StoryLex.Token.Basic

/-!
# StoryLex — the token dump

A forest of tokens is written one token a line, as
`Kind start..stop "lexeme"`, with two blanks of indentation for each level of
nesting. Quotes, backslashes, newlines, carriage returns and tabs of a lexeme
are escaped, so a line of the dump is always one line.
-/

namespace StoryLex

/-- One byte of a quoted lexeme. -/
def escapeByte (b : UInt8) : Bytes :=
  if b == 0x22 then ascii "\\\""
  else if b == 0x5C then ascii "\\\\"
  else if b == newline then ascii "\\n"
  else if b == carriageReturn then ascii "\\r"
  else if b == 0x09 then ascii "\\t"
  else [b]

/-- A text in quotes. -/
def quoted (text : Bytes) : Bytes := ascii "\"" ++ text.flatMap escapeByte ++ ascii "\""

namespace Token

/-- The line of a token itself, without its nested tokens. -/
def line (depth : Nat) (t : Token) : Bytes :=
  spaces (2 * depth) ++ ascii t.kind.name ++ ascii " " ++ decimal t.span.start ++ ascii ".." ++
    decimal t.span.stop ++ ascii " " ++ quoted t.lexeme ++
    (if t.unterminated then ascii " (unterminated)" else []) ++ [newline]

mutual

/-- The lines of a token and of all tokens inside it. -/
def dumpTree (depth : Nat) : Token → Bytes
  | ⟨kind, span, lexeme, nested, unterminated⟩ =>
    line depth ⟨kind, span, lexeme, nested, unterminated⟩ ++ dumpForest (depth + 1) nested

/-- The lines of neighbouring tokens, in order. -/
def dumpForest (depth : Nat) : List Token → Bytes
  | [] => []
  | t :: ts => dumpTree depth t ++ dumpForest depth ts

end

/-- The dump of a stream. -/
def dump (stream : List Token) : Bytes := dumpForest 0 stream

end Token

end StoryLex
