import StoryLex.Bytes.Basic

/-!
# StoryLex — highlight groups

The display categories that kinds of token are linked to. Each has a stable
name, used by the settings file, and the codes of a terminal style.
-/

namespace StoryLex

/-- A display category. -/
inductive Group where
  /-- Plain text. -/
  | normal
  /-- Narrative text. -/
  | string
  /-- Numbers and dice rolls. -/
  | number
  /-- Words that open a command. -/
  | keyword
  /-- Variables. -/
  | identifier
  /-- Jumps and messages. -/
  | statement
  /-- Module qualifiers. -/
  | tag
  /-- Literals that stand for themselves. -/
  | constant
  /-- Punctuation around other things. -/
  | delimiter
  /-- What stands out of its surroundings. -/
  | special
  /-- Macros. -/
  | macroName
  /-- Names of scenes. -/
  | function
  /-- The marks of scene headers. -/
  | preProc
  /-- Labels. -/
  | label
  /-- Words that open a match or a condition. -/
  | conditional
  /-- Comments. -/
  | comment
  /-- Operators. -/
  | operator
deriving DecidableEq, Repr

namespace Group

/-- Every group, in order. -/
def all : List Group :=
  [.normal, .string, .number, .keyword, .identifier, .statement, .tag, .constant, .delimiter,
    .special, .macroName, .function, .preProc, .label, .conditional, .comment, .operator]

/-- The stable name of a group. -/
def name : Group → String
  | normal => "Normal"
  | string => "String"
  | number => "Number"
  | keyword => "Keyword"
  | identifier => "Identifier"
  | statement => "Statement"
  | tag => "Tag"
  | constant => "Constant"
  | delimiter => "Delimiter"
  | special => "Special"
  | macroName => "Macro"
  | function => "Function"
  | preProc => "PreProc"
  | label => "Label"
  | conditional => "Conditional"
  | comment => "Comment"
  | operator => "Operator"

/-- The group of the given name, letter case included. -/
def ofName? (text : Bytes) : Option Group := all.find? fun g => ascii g.name == text

/-- No two groups share a name. -/
@[simp] theorem ofName?_name (g : Group) : ofName? (ascii g.name) = some g := by
  cases g <;> decide

/-- The place of a group in the order, from zero. -/
def index (g : Group) : Nat := all.idxOf g

/-- The codes of a group's style. Plain text has none. -/
def codes : Group → String
  | normal => ""
  | string => "32"
  | number => "35"
  | keyword => "1;33"
  | identifier => "36"
  | statement => "1;34"
  | tag => "4;36"
  | constant => "95"
  | delimiter => "37"
  | special => "91"
  | macroName => "1;35"
  | function => "1;36"
  | preProc => "34"
  | label => "93"
  | conditional => "33"
  | comment => "2;37"
  | operator => "1;37"

end Group

end StoryLex
