import StoryLex.Bytes.Basic

/-!
# StoryLex — terminal colours

A terminal changes its style at `ESC [ codes m` and goes back to its own at
`ESC [ 0 m`. A painted text stands between two such sequences; a text that is
empty, or painted in a style without codes, is written as it is.
-/

namespace StoryLex

/-- The sequence at which a terminal takes up the style of the given codes. -/
def styleSequence (codes : String) : Bytes :=
  escape :: byte '[' :: (ascii codes ++ [byte 'm'])

/-- The text in the style of the given codes, or bare where colours are off. -/
def paint (color : Bool) (codes : String) (text : Bytes) : Bytes :=
  if !color || codes = "" || text.isEmpty then text
  else styleSequence codes ++ text ++ styleSequence "0"

end StoryLex
