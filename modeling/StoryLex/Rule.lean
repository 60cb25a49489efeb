import StoryLex.Bytes.Classes
import StoryLex.Token.Kind

/-!
# StoryLex — the rules for single tokens

A rule is asked at a place of the text and answers what stands there. It sees
the byte `before` the place, the byte `b` at the place and the `tail` behind
it; it does not know where in the text it is asked.

An answer (`Match`) is a kind and the number of bytes after the first one, so
that every match takes at least one byte.

The older revision of the grammar (`legacy`) takes any word for a scene's
name, and any word behind a sigil.
-/

namespace StoryLex

/-- A token recognised at a place of the text. -/
structure Match where
  /-- The class of the token. -/
  kind : Kind
  /-- How many bytes the token has after its first one. -/
  more : Nat
deriving DecidableEq, Repr

/-! ## Sigils -/

/-- The names that open with a mark of their own. -/
inductive Sigil where
  /-- An apostrophe. -/
  | label
  /-- A question mark. -/
  | macroName
  /-- A hash. -/
  | atom
deriving DecidableEq, Repr

namespace Sigil

/-- The sigil whose mark is `b`. -/
def ofByte? (b : UInt8) : Option Sigil :=
  if b == 0x27 then some label
  else if b == byte '?' then some macroName
  else if b == byte '#' then some atom
  else none

/-- The kind of the token that a sigil opens. -/
def kind : Sigil → Kind
  | label => .label
  | macroName => .macroName
  | atom => .atom

/-- The bytes that may follow the mark: lower case for labels and atoms, upper
case for macros. -/
def first (legacy : Bool) (s : Sigil) (b : UInt8) : Bool :=
  if legacy then isWord b
  else match s with
    | macroName => isUpper b
    | label | atom => isLower b

/-- The bytes that may go on with the name. -/
def later (legacy : Bool) (s : Sigil) (b : UInt8) : Bool :=
  if legacy then isWord b else s.first false b || isDigit b || b == byte '_'

end Sigil

/-! ## Keywords -/

/-- The words that open a match or a condition. -/
def matchKeywords : List Bytes :=
  ["trap", "given", "listen", "weave", "branch", "when", "if", "then"].map ascii

/-- The words that open a command. -/
def commandKeywords : List Bytes :=
  ["let", "trace", "wait", "disarm", "spawn"].map ascii

/-- The kind of a whole word that stands for itself. -/
def keyword? (word : Bytes) : Option Kind :=
  if word = ascii "_" then some .reserved
  else if word = ascii "from" then some .keywordFrom
  else if word ∈ matchKeywords then some .keywordMatch
  else if word ∈ commandKeywords then some .keywordCommand
  else none

namespace Rule

/-! ## Names and numbers -/

/-- The name of a scene, where one is expected: a word that starts in lower case. -/
def sceneName? (legacy : Bool) (b : UInt8) (tail : Bytes) : Option Match :=
  if if legacy then isWord b else isLower b then some ⟨.sceneName, runLength isWord tail⟩ else none

/-- The name of a module: a word that starts with a letter and is directly
followed by a colon and another word. -/
def modName? (b : UInt8) (tail : Bytes) : Option Match :=
  if isLetter b then
    let n := runLength isWord tail
    match tail.drop n with
    | c :: d :: _ => if c == byte ':' && isWord d then some ⟨.modName, n⟩ else none
    | _ => none
  else
    none

/-- The name behind a sigil's mark. -/
def sigil? (legacy : Bool) (s : Sigil) (tail : Bytes) : Option Match :=
  match tail with
  | c :: rest =>
    if s.first legacy c then some ⟨s.kind, runLength (s.later legacy) rest + 1⟩ else none
  | [] => none

/-- A variable: a capital and the letters after it. The whole word `Self` is reserved. -/
def variableName? (before : Option UInt8) (b : UInt8) (tail : Bytes) : Option Match :=
  if isUpper b then
    -- digits and underscores end a variable, but not a word
    let n := runLength isLetter tail
    let whole := atWordStart before && !(tail.drop n).head?.any isWord
    some ⟨if b :: tail.take n = ascii "Self" && whole then .reserved else .variableName, n⟩
  else
    none

/-- A number, or a dice roll such as `3d6`. -/
def number? (b : UInt8) (tail : Bytes) : Option Match :=
  if isDigit b then
    let n := runLength isDigit tail
    match tail.drop n with
    | c :: d :: rest =>
      if c == byte 'd' && isDigit d then some ⟨.random, n + 2 + runLength isDigit rest⟩
      else some ⟨.number, n⟩
    | _ => some ⟨.number, n⟩
  else
    none

/-- What a word byte outside all regions starts. Keywords are whole words; the
tail of a word that another token cut short is none. -/
def word? (before : Option UInt8) (b : UInt8) (tail : Bytes) : Option Match :=
  modName? b tail <|> variableName? before b tail <|> number? b tail <|>
    if atWordStart before then
      let n := runLength isWord tail
      (keyword? (b :: tail.take n)).map (⟨·, n⟩)
    else
      none

/-! ## Marks -/

/-- A lone `=` assigns; two of them open a scene's header, at the start of a
line only. Any other row of `=` means nothing. -/
def equals? (before : Option UInt8) (tail : Bytes) : Option Match :=
  -- inside a longer row, whose front was skipped
  if before = some (byte '=') then none
  else if tail.head? ≠ some (byte '=') then some ⟨.equals, 0⟩
  else if (tail.drop 1).head? ≠ some (byte '=') && atLineStart before then some ⟨.sceneDef, 1⟩
  else none

/-- What the marks stand for that open no region. -/
def mark? (b : UInt8) (tail : Bytes) : Option Match :=
  let next := tail.head?
  if b == byte '-' then
    if next = some (byte '>') then some ⟨.divert, 1⟩ else some ⟨.arithmetic, 0⟩
  else if b == byte '+' || b == byte '*' then some ⟨.arithmetic, 0⟩
  else if b == byte '<' then
    if next = some (byte '-') then some ⟨.send, 1⟩
    else if next = some (byte '=') then some ⟨.arithmetic, 1⟩
    else some ⟨.arithmetic, 0⟩
  else if b == byte '|' then some ⟨.choice, 0⟩
  else if b == byte ';' && next = some (byte ';') then some ⟨.endMark, 1⟩
  else none

/-- The token at a place outside all regions, unless it is a region itself. -/
def leaf? (legacy : Bool) (before : Option UInt8) (b : UInt8) (tail : Bytes) : Option Match :=
  if b == byte '=' then equals? before tail
  else if isWord b then word? before b tail
  else match Sigil.ofByte? b with
    | some s => sigil? legacy s tail
    | none => mark? b tail

/-! ## What no rule matches -/

/-- How much is skipped where no rule matches, after the first byte: the rest
of a word, or the rest of a UTF-8 character. -/
def junk (b : UInt8) (tail : Bytes) : Nat :=
  runLength (if isWord b then isWord else isContinuation) tail

end Rule

end StoryLex
