import StoryLex.Bytes.Classes

/-!
# StoryLex — lines and trimming

Cutting a text at its newlines, and cutting the white space off its ends.
-/

namespace StoryLex

/-- The pieces between the newlines of a text. There is always at least one,
and a text that ends in a newline has an empty last piece. -/
def lines : Bytes → List Bytes
  | [] => [[]]
  | b :: rest =>
    if b == newline then
      [] :: lines rest
    else
      match lines rest with
      | [] => [[b]]
      | l :: ls => (b :: l) :: ls

/-- A text has at least one line, be it an empty one. -/
theorem lines_ne_nil (text : Bytes) : lines text ≠ [] := by
  cases text with
  | nil => simp [lines]
  | cons b rest =>
    unfold lines
    split
    · simp
    · split <;> simp

/-- The text without the white space at its end. -/
def trimEnd (text : Bytes) : Bytes := (text.reverse.dropWhile isSpace).reverse

/-- The text without the white space at either end. -/
def trim (text : Bytes) : Bytes := trimEnd (text.dropWhile isSpace)

end StoryLex
