import StoryLex.Bytes.Basic

/-!
# StoryLex — kinds of token

The twenty-five kinds into which a script is classified. Each has a stable
name, used by the token dump and by the settings file.
-/

namespace StoryLex

/-- The class of a token. The order is that of the lexer's priorities, with
the end of the input last. -/
inductive Kind where
  /-- A single `=`. -/
  | equals
  /-- The `==` that opens a scene's header line. -/
  | sceneDef
  /-- The name of a scene, where one is expected. -/
  | sceneName
  /-- Region: a parenthesised argument list after a scene's name. -/
  | sceneArgs
  /-- A module's name in front of `:`. -/
  | modName
  /-- The `:` after a module's name. -/
  | modSep
  /-- A jump to a scene, `->`. -/
  | divert
  /-- An apostrophe and a name. -/
  | label
  /-- A `?` and an upper case name. -/
  | macroName
  /-- A `#` and a name. -/
  | atom
  /-- A capitalised run of letters. -/
  | variableName
  /-- A dice roll such as `3d6`. -/
  | random
  /-- A run of digits. -/
  | number
  /-- One of `-`, `+`, `*`, `<`, `<=`. -/
  | arithmetic
  /-- Region: `--` to the end of the line. -/
  | comment
  /-- Region: `> ` to the end of the line. -/
  | string
  /-- Region: doubled braces inside a string. -/
  | template
  /-- A word that opens a match or a condition. -/
  | keywordMatch
  /-- A word that opens a command. -/
  | keywordCommand
  /-- The word `from`. -/
  | keywordFrom
  /-- `Self` or `_`, as whole words. -/
  | reserved
  /-- A choice, `|`. -/
  | choice
  /-- A message send, `<-`. -/
  | send
  /-- The end of a block, `;;`. -/
  | endMark
  /-- The end of the input, of no width. -/
  | eof
deriving DecidableEq, Repr

namespace Kind

/-- Every kind, in order. -/
def all : List Kind :=
  [.equals, .sceneDef, .sceneName, .sceneArgs, .modName, .modSep, .divert, .label, .macroName,
    .atom, .variableName, .random, .number, .arithmetic, .comment, .string, .template,
    .keywordMatch, .keywordCommand, .keywordFrom, .reserved, .choice, .send, .endMark, .eof]

/-- The stable name of a kind. -/
def name : Kind → String
  | equals => "Equals"
  | sceneDef => "SceneDef"
  | sceneName => "SceneName"
  | sceneArgs => "SceneArgs"
  | modName => "ModName"
  | modSep => "ModSep"
  | divert => "Divert"
  | label => "Label"
  | macroName => "Macro"
  | atom => "Atom"
  | variableName => "VariableName"
  | random => "Random"
  | number => "Number"
  | arithmetic => "Arithmetic"
  | comment => "Comment"
  | string => "String"
  | template => "Template"
  | keywordMatch => "KeywordMatch"
  | keywordCommand => "KeywordCommand"
  | keywordFrom => "KeywordFrom"
  | reserved => "Reserved"
  | choice => "Choice"
  | send => "Send"
  | endMark => "End"
  | eof => "Eof"

/-- The kind of the given name, letter case included. -/
def ofName? (text : Bytes) : Option Kind := all.find? fun k => ascii k.name == text

/-- No two kinds share a name. -/
@[simp] theorem ofName?_name (k : Kind) : ofName? (ascii k.name) = some k := by
  cases k <;> decide

/-- The place of a kind in the order, from zero. -/
def index (k : Kind) : Nat := all.idxOf k

/-- Whether tokens of this kind run from an opening mark to a closing condition. -/
def isRegion : Kind → Bool
  | sceneArgs | comment | string | template => true
  | _ => false

end Kind

end StoryLex
