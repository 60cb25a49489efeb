import StoryLex.Bytes.Basic

/-!
# StoryLex — classes of bytes

The grammar of scripts is written over ASCII: letters, digits and the
underscore make words, and every byte from 0x80 up is in no class but one.
That one is `isContinuation`, the bytes with which a UTF-8 character goes on;
skipping and column counting keep such characters whole.
-/

namespace StoryLex

/-- The lower case ASCII letters. -/
def isLower (b : UInt8) : Bool := byte 'a' ≤ b && b ≤ byte 'z'

/-- The upper case ASCII letters. -/
def isUpper (b : UInt8) : Bool := byte 'A' ≤ b && b ≤ byte 'Z'

/-- The ASCII digits. -/
def isDigit (b : UInt8) : Bool := byte '0' ≤ b && b ≤ byte '9'

/-- The ASCII letters. -/
def isLetter (b : UInt8) : Bool := isLower b || isUpper b

/-- What words are made of: letters, digits and the underscore. -/
def isWord (b : UInt8) : Bool := isLetter b || isDigit b || b == byte '_'

/-- White space within a line: the blank and the tab. -/
def isBlank (b : UInt8) : Bool := b == byte ' ' || b == 0x09

/-- White space: the blank, and the bytes from the tab to the carriage return. -/
def isSpace (b : UInt8) : Bool := b == byte ' ' || (0x09 ≤ b && b ≤ 0x0D)

/-- The bytes 0x80 to 0xBF, with which a UTF-8 character goes on. -/
def isContinuation (b : UInt8) : Bool := b &&& 0xC0 == 0x80

/-- Every byte but the newline. -/
def isInLine (b : UInt8) : Bool := b != newline

/-- Whether a word may start here: no word byte stands right before. -/
def atWordStart (before : Option UInt8) : Bool := !before.any isWord

/-- Whether a line starts here: nothing stands before, or a newline does. -/
def atLineStart (before : Option UInt8) : Bool := before.all (· == newline)

end StoryLex
