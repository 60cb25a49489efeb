import StoryLex.Highlight.Group
import StoryLex.Token.Kind

/-!
# StoryLex — highlight tables

A table links every kind of token to exactly one group. The standard links
can be changed kind by kind; of several links of one kind the last one counts.
-/

namespace StoryLex

/-- A choice of group for every kind of token. -/
structure HighlightTable where
  /-- The group that a kind is linked to. -/
  group : Kind → Group

namespace HighlightTable

/-- The group that a kind is linked to unless settings say otherwise. -/
def standardGroup : Kind → Group
  | .equals => .operator
  | .sceneDef => .preProc
  | .sceneName => .function
  | .sceneArgs => .delimiter
  | .modName => .tag
  | .modSep => .delimiter
  | .divert => .statement
  | .label => .label
  | .macroName => .macroName
  | .atom => .constant
  | .variableName => .identifier
  | .random => .number
  | .number => .number
  | .arithmetic => .operator
  | .comment => .comment
  | .string => .string
  | .template => .special
  | .keywordMatch => .conditional
  | .keywordCommand => .keyword
  | .keywordFrom => .keyword
  | .reserved => .special
  | .choice => .delimiter
  | .send => .statement
  | .endMark => .delimiter
  | .eof => .normal

/-- The table of the standard links. -/
def standard : HighlightTable := ⟨standardGroup⟩

/-- Links a kind to another group. -/
def set (table : HighlightTable) (kind : Kind) (g : Group) : HighlightTable where
  group k := if k = kind then g else table.group k

/-- Makes links one after the other. -/
def setAll (table : HighlightTable) (links : List (Kind × Group)) : HighlightTable :=
  links.foldl (fun table link => table.set link.1 link.2) table

/-- The groups of all kinds, in the order of the kinds. -/
def toList (table : HighlightTable) : List Group := Kind.all.map table.group

@[simp] theorem group_set_self (table : HighlightTable) (k : Kind) (g : Group) :
    (table.set k g).group k = g := by
  simp [set]

/-- The link of one kind leaves all others as they were. -/
@[simp] theorem group_set_of_ne {table : HighlightTable} {k k' : Kind} {g : Group} (h : k ≠ k') :
    (table.set k' g).group k = table.group k := by
  simp [set, h]

end HighlightTable

end StoryLex
