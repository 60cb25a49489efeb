import StoryLex.Cursor
import StoryLex.Diagnostic
import StoryLex.Rule

/-!
# StoryLex — regions

A region runs from an opening mark to a closing condition and has rules of its
own for what stands inside.

* A **comment** is plain text to the end of its line.
* A **string** is text to the end of its line, with templates in it.
* A **template** is written in doubled braces inside a string and names
  variables; it cannot leave its string's line.
* A list of **scene arguments** is written in parentheses, over as many lines
  as it takes.

The last two have an inside made of filler, tokens and junk. `scanBody` reads
it, given what the region takes a place inside it for (`Piece`).
-/

namespace StoryLex

/-- The byte `{`, two of which open a template. -/
abbrev openBrace : UInt8 := 0x7B

/-- The byte `}`, two of which close a template. -/
abbrev closeBrace : UInt8 := 0x7D

/-- A token that was found, with the faults met inside it and the place after it. -/
structure Found where
  /-- The token. -/
  token : Token
  /-- What was skipped or left open inside the token, in order. -/
  faults : List Diagnostic
  /-- The place right after the token. -/
  stop : Cursor

/-- A token that is no region. -/
def Match.found (m : Match) (c : Cursor) : Found :=
  let stop := c.advance (m.more + 1)
  { token := c.tokenTo stop m.kind, faults := [], stop := stop }

/-! ## The inside of a region -/

/-- What the inside of a region has at a place. -/
inductive Piece where
  /-- The region's closing mark, with so many bytes after the first. -/
  | close (more : Nat)
  /-- A byte that belongs to the region and to no token. -/
  | filler
  /-- A token. -/
  | leaf (m : Match)
  /-- Input that no rule of the region matches, with so many bytes after the first. -/
  | junk (more : Nat)
deriving DecidableEq, Repr

/-- The inside of a region. -/
structure Body where
  /-- The tokens inside, in order. -/
  tokens : List Token
  /-- What was skipped or left open inside, in order. -/
  faults : List Diagnostic
  /-- The place after the closing mark, or where the region was cut off. -/
  stop : Cursor
  /-- Whether the region was closed rather than cut off. -/
  closed : Bool

/-- Reads the inside of a region, from the place after its opening mark. -/
def scanBody (pieceAt : Option UInt8 → UInt8 → Bytes → Piece) (c : Cursor) : Body :=
  match _h : c.rest with
  | [] => { tokens := [], faults := [], stop := c, closed := false }
  | b :: tail =>
    match pieceAt c.before b tail with
    | .close more => { tokens := [], faults := [], stop := c.advance (more + 1), closed := true }
    | .filler => scanBody pieceAt (c.advance 1)
    | .leaf m =>
      let found := m.found c
      let body := scanBody pieceAt (c.advance (m.more + 1))
      { body with tokens := found.token :: body.tokens }
    | .junk more =>
      let next := c.advance (more + 1)
      let body := scanBody pieceAt next
      { body with faults := .unrecognized (c.spanTo next) :: body.faults }
termination_by c.rest.length
decreasing_by all_goals exact Cursor.length_rest_advance_lt (by simp [_h]) _

/-- Reading the inside of a region never goes back. -/
theorem length_rest_scanBody_le (pieceAt : Option UInt8 → UInt8 → Bytes → Piece) (c : Cursor) :
    (scanBody pieceAt c).stop.rest.length ≤ c.rest.length := by
  fun_induction scanBody pieceAt c with
  | case1 c h => simp
  | case2 c b tail h more hp => exact Cursor.length_rest_advance_le c _
  | case3 c b tail h hp ih => exact Nat.le_trans ih (Cursor.length_rest_advance_le c _)
  | case4 c b tail h m hp found body ih =>
    exact Nat.le_trans ih (Cursor.length_rest_advance_le c _)
  | case5 c b tail h more hp next body ih =>
    exact Nat.le_trans ih (Cursor.length_rest_advance_le c _)

/-- The token of a region that opens at `c` and has the given inside. A region
that was cut off is told after all that was met inside it. -/
def Body.enclose (body : Body) (c : Cursor) (kind : Kind) : Found where
  token :=
    { c.tokenTo body.stop kind with nested := body.tokens, unterminated := !body.closed }
  faults :=
    body.faults ++ if body.closed then [] else [.unterminated kind (c.spanTo body.stop)]
  stop := body.stop

/-! ## Scene arguments -/

/-- Inside an argument list commas and white space are filler; atoms, numbers,
variables and a lone underscore are tokens; the first closing parenthesis ends
the list. -/
def argsPiece (legacy : Bool) (before : Option UInt8) (b : UInt8) (tail : Bytes) : Piece :=
  if b == byte ')' then .close 0
  else if b == byte ',' || isSpace b then .filler
  else
    let found :=
      if b == byte '#' then Rule.sigil? legacy .atom tail
      else if b == byte '_' then
        if atWordStart before && !tail.head?.any isWord then some ⟨.reserved, 0⟩ else none
      else Rule.number? b tail <|> Rule.variableName? before b tail
    match found with
    | some m => .leaf m
    | none => .junk (Rule.junk b tail)

/-- The argument list that opens at `c`. -/
def sceneArgs (legacy : Bool) (c : Cursor) : Found :=
  (scanBody (argsPiece legacy) (c.advance 1)).enclose c .sceneArgs

/-! ## Templates and strings -/

/-- Inside a template blanks are filler and variables are tokens. A template
names a variable, never `Self`. -/
def templatePiece (before : Option UInt8) (b : UInt8) (tail : Bytes) : Piece :=
  if b == closeBrace && tail.head? = some closeBrace then .close 1
  else if isBlank b then .filler
  else match Rule.variableName? before b tail with
    | some ⟨.variableName, more⟩ => .leaf ⟨.variableName, more⟩
    | _ => .junk (Rule.junk b tail)

/-- The template that opens at `c`, in a text that ends with the line. -/
def template (c : Cursor) : Found :=
  (scanBody templatePiece (c.advance 2)).enclose c .template

/-- A template takes at least its opening mark. This is why the search for the
next one ends. -/
theorem length_rest_template_lt {c : Cursor} (h : c.rest ≠ []) :
    (template c).stop.rest.length < c.rest.length :=
  Nat.lt_of_le_of_lt (length_rest_scanBody_le _ _) (Cursor.length_rest_advance_lt h 1)

/-- Reads the inside of a string, in a text that ends with the line: the
templates, and around them text that is nothing of its own. -/
def scanString (c : Cursor) : Body :=
  match _h : c.rest with
  | [] => { tokens := [], faults := [], stop := c, closed := true }
  | b :: tail =>
    if b == openBrace && tail.head? = some openBrace then
      -- a template takes two bytes at least, so the search moves on
      let found := template c
      let body := scanString found.stop
      { body with tokens := found.token :: body.tokens, faults := found.faults ++ body.faults }
    else
      scanString (c.advance 1)
termination_by c.rest.length
decreasing_by
  · exact length_rest_template_lt (by simp [_h])
  · exact Cursor.length_rest_advance_lt (by simp [_h]) 0

/-- The string that opens at `c`. -/
def string (c : Cursor) : Found :=
  { (scanString (c.advance 2).inLine).enclose c .string with stop := (c.advance 2).skip isInLine }

/-! ## Comments -/

/-- The comment that opens at `c`. -/
def comment (c : Cursor) : Found :=
  let stop := (c.advance 2).skip isInLine
  { token := c.tokenTo stop .comment, faults := [], stop := stop }

end StoryLex
