import StoryLex.Bytes.Classes

/-!
# StoryLex — decimal numbers

Numbers are written in decimal, without leading zeros. They are read from a
run of digits, where leading zeros do no harm.
-/

namespace StoryLex

/-- The digit of `d`, for `d` below ten. -/
def digit (d : Nat) : UInt8 := byte '0' + d.toUInt8

/-- A number in decimal, most significant digit first. -/
def decimal (n : Nat) : Bytes :=
  if n < 10 then [digit n] else decimal (n / 10) ++ [digit (n % 10)]

/-- The value of a text of digits, or `none` if it is empty or holds anything else. -/
def decimal? (text : Bytes) : Option Nat :=
  if !text.isEmpty && text.all isDigit then
    some (text.foldl (fun n b => 10 * n + (b.toNat - (byte '0').toNat)) 0)
  else
    none

end StoryLex
