import StoryLex.Bytes.Decimal
import StoryLex.Diagnostic
import StoryLex.LineIndex
import StoryLex.Terminal

/-!
# StoryLex — reports

A diagnostic is shown in three lines: where it lies and what it says, the line
of the script, and carets below the bytes concerned. The carets stay on the
line where the diagnostic starts.
-/

namespace StoryLex

/-- The codes of the style in which a fault's name is written. -/
def Fault.codes : Fault → String
  | unterminated => "1;31"
  | unrecognized => "1;33"

/-- How many carets mark what lies between two places: one for each character
if both are on one line, and one in any case. -/
def caretCount (first last : Location) : Nat :=
  if last.line = first.line ∧ first.column < last.column then last.column - first.column else 1

/-- The report on a diagnostic of the text called `name`. -/
def Diagnostic.report (name : Bytes) (index : LineIndex) (color : Bool) (d : Diagnostic) : Bytes :=
  let first := index.locate d.span.start
  let last := index.locate d.span.stop
  let carets := List.replicate (caretCount first last) (byte '^')
  name ++ ascii ":" ++ decimal first.line ++ ascii ":" ++ decimal first.column ++ ascii ": " ++
    paint color d.fault.codes (ascii d.fault.name) ++ ascii ": " ++ d.message ++ [newline] ++
    spaces 2 ++ index.lineText first.line ++ [newline] ++
    spaces 2 ++ spaces (first.column - 1) ++ paint color "32" carets ++ [newline]

end StoryLex
