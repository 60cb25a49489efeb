/-!
# StoryLex — byte texts

Scripts, settings files, arguments and everything the program prints are
*byte texts*: plain lists of bytes, valid UTF-8 or not. Offsets and lengths
count bytes throughout the library.
-/

namespace StoryLex

/-- A text, byte by byte. -/
abbrev Bytes := List UInt8

/-- The byte of an ASCII character. -/
abbrev byte (c : Char) : UInt8 := c.toUInt8

/-- The bytes of a text that is written here in ASCII. -/
def ascii (s : String) : Bytes := s.toList.map Char.toUInt8

/-- The byte that ends a line. -/
abbrev newline : UInt8 := 0x0A

/-- The byte that may stand before a newline as part of the line's end. -/
abbrev carriageReturn : UInt8 := 0x0D

/-- The escape byte, which opens a terminal's colour sequences. -/
abbrev escape : UInt8 := 0x1B

/-- A text of `n` blanks. -/
def spaces (n : Nat) : Bytes := List.replicate n (byte ' ')

/-- How many bytes at the front of `text` satisfy `p` without a break. -/
def runLength (p : UInt8 → Bool) (text : Bytes) : Nat := (text.takeWhile p).length

end StoryLex
