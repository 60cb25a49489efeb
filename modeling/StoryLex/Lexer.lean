import StoryLex.Region

/-!
# StoryLex — the lexer

The lexer reads a script from left to right and hands out its top-level
tokens one at a time (`Lexer.next`) or all at once (`Lexer.run`).

Some tokens narrow what may come next: a scene's header wants a scene's name,
a divert wants a scene or a module, and so on. Such an **expectation** is a
function of the last token's kind alone (`Expectation.after`). It is tried
once, on the same line; where it is not met, the general rules decide.

Faults are output only. No rule reads them back, so whether unrecognised input
is reported cannot change a single token.
-/

namespace StoryLex

/-- What the last token lets come next. -/
inductive Expectation where
  /-- Nothing in particular. -/
  | none
  /-- A scene's name. -/
  | sceneName
  /-- A module's name, or else a scene's. -/
  | sceneOrModule
  /-- The colon after a module's name. -/
  | modSep
  /-- A scene's arguments. -/
  | sceneArgs
deriving DecidableEq, Repr

/-- What a token of the given kind lets come next. -/
def Expectation.after : Kind → Expectation
  | .sceneDef | .modSep => sceneName
  | .divert => sceneOrModule
  | .modName => modSep
  | .sceneName => sceneArgs
  | _ => none

/-- How a script is read. -/
structure LexOptions where
  /-- Where reading begins. Offsets are counted from the script's start all the same. -/
  startOffset : Nat := 0
  /-- Whether the older revision of the grammar is followed. -/
  legacyIdentifiers : Bool := false
  /-- Whether unrecognised input is reported. -/
  reportUnrecognized : Bool := true
deriving DecidableEq, Repr

/-- The diagnostics that a list of faults gives rise to. -/
def LexOptions.report (options : LexOptions) (faults : List Diagnostic) : List Diagnostic :=
  Diagnostic.coalesce
    (faults.filter fun d => options.reportUnrecognized || d.fault = .unterminated)

/-! ## One token -/

/-- The token that was expected at `c`, if it is there. All but the colon may
be set off by blanks. -/
def expected? (legacy : Bool) (e : Expectation) (c : Cursor) : Option Found :=
  -- blanks never hide a newline, so an expectation stays on its line
  let c := if e = .modSep then c else c.skip isBlank
  match c.rest with
  | [] => none
  | b :: tail =>
    match e with
    | .none => none
    | .sceneName => (Rule.sceneName? legacy b tail).map (·.found c)
    | .sceneOrModule => (Rule.modName? b tail <|> Rule.sceneName? legacy b tail).map (·.found c)
    | .modSep => if b == byte ':' then some (Match.found ⟨.modSep, 0⟩ c) else none
    | .sceneArgs => if b == byte '(' then some (sceneArgs legacy c) else none

/-- The token at `c` by the general rules. -/
def general? (legacy : Bool) (c : Cursor) : Option Found :=
  match c.rest with
  | [] => none
  | b :: tail =>
    if b == byte '-' && tail.head? = some (byte '-') then some (comment c)
    else if b == byte '>' && tail.head? = some (byte ' ') then some (string c)
    else (Rule.leaf? legacy c.before b tail).map (·.found c)

/-- A token that the general rules find takes at least one byte. -/
theorem length_rest_general?_lt {legacy : Bool} {c : Cursor} {found : Found}
    (h : general? legacy c = some found) : found.stop.rest.length < c.rest.length := by
  unfold general? at h
  split at h
  · simp at h
  · next b tail hc =>
    have hne : c.rest ≠ [] := by simp [hc]
    -- comments and strings take two bytes and then what is left of the line
    have hline : ((c.advance 2).skip isInLine).rest.length < c.rest.length :=
      Nat.lt_of_le_of_lt (Cursor.length_rest_skip_le _ _) (Cursor.length_rest_advance_lt hne 1)
    split at h
    · cases h
      exact hline
    · split at h
      · cases h
        exact hline
      · obtain ⟨m, -, rfl⟩ := Option.map_eq_some_iff.mp h
        exact Cursor.length_rest_advance_lt hne m.more

/-- What came of looking for the next token. -/
structure Step where
  /-- The token, if there was one more. -/
  token : Option Token
  /-- What was skipped or left open on the way and inside the token, in order. -/
  faults : List Diagnostic
  /-- The place after the token, or the end of the text. -/
  stop : Cursor

/-- A token that was found at once. -/
def Found.step (found : Found) : Step where
  token := some found.token
  faults := found.faults
  stop := found.stop

/-- The next token by the general rules, over white space and unrecognised input. -/
def scanGeneral (legacy : Bool) (c : Cursor) : Step :=
  match _h : c.rest with
  | [] => { token := none, faults := [], stop := c }
  | b :: tail =>
    if isSpace b then
      scanGeneral legacy (c.advance 1)
    else
      match general? legacy c with
      | some found => found.step
      | none =>
        -- skip on, and tell it in front of what the search still meets
        let next := c.advance (Rule.junk b tail + 1)
        let step := scanGeneral legacy next
        { step with faults := .unrecognized (c.spanTo next) :: step.faults }
termination_by c.rest.length
decreasing_by all_goals exact Cursor.length_rest_advance_lt (by simp [_h]) _

/-- The next token: the expected one if it is there, else by the general rules. -/
def scanToken (legacy : Bool) (e : Expectation) (c : Cursor) : Step :=
  match expected? legacy e c with
  | some found => found.step
  | none => scanGeneral legacy c

/-! ### Progress -/

/-- An expected token takes at least one byte, blanks in front of it or not. -/
theorem length_rest_expected?_lt {legacy : Bool} {e : Expectation} {c : Cursor} {found : Found}
    (h : expected? legacy e c = some found) : found.stop.rest.length < c.rest.length := by
  unfold expected? at h
  generalize hd : (if e = .modSep then c else c.skip isBlank) = d at h
  -- the token starts no earlier than the lexer stands
  have hle : d.rest.length ≤ c.rest.length := by
    subst hd
    split
    · exact Nat.le_refl _
    · exact Cursor.length_rest_skip_le _ _
  refine Nat.lt_of_lt_of_le ?_ hle
  simp only at h
  split at h
  · simp at h
  · next b tail hc =>
    have hne : d.rest ≠ [] := by simp [hc]
    split at h
    · simp at h
    · obtain ⟨m, -, rfl⟩ := Option.map_eq_some_iff.mp h
      exact Cursor.length_rest_advance_lt hne m.more
    · obtain ⟨m, -, rfl⟩ := Option.map_eq_some_iff.mp h
      exact Cursor.length_rest_advance_lt hne m.more
    · split at h
      · cases h
        exact Cursor.length_rest_advance_lt hne 0
      · simp at h
    · split at h
      · cases h
        exact Nat.lt_of_le_of_lt (length_rest_scanBody_le _ _)
          (Cursor.length_rest_advance_lt hne 0)
      · simp at h

/-- The search stops behind the place where it began, if it finds a token. -/
theorem length_rest_scanGeneral_lt {legacy : Bool} {c : Cursor} {t : Token}
    (h : (scanGeneral legacy c).token = some t) :
    (scanGeneral legacy c).stop.rest.length < c.rest.length := by
  fun_induction scanGeneral legacy c with
  | case1 c hc => simp at h
  | case2 c b tail hc hs ih =>
    exact Nat.lt_of_lt_of_le (ih h) (Cursor.length_rest_advance_le c _)
  | case3 c b tail hc hs found hf => exact length_rest_general?_lt hf
  | case4 c b tail hc hs hf next step ih =>
    exact Nat.lt_of_lt_of_le (ih h) (Cursor.length_rest_advance_le c _)

/-- A token is never handed out without moving on. -/
theorem length_rest_scanToken_lt {legacy : Bool} {e : Expectation} {c : Cursor} {t : Token}
    (h : (scanToken legacy e c).token = some t) :
    (scanToken legacy e c).stop.rest.length < c.rest.length := by
  unfold scanToken at h ⊢
  split at h
  · next found hf => exact length_rest_expected?_lt hf
  · exact length_rest_scanGeneral_lt h

/-! ## The lexer as a machine -/

/-- A lexer between two calls. -/
structure Lexer where
  /-- How the script is read. -/
  options : LexOptions
  /-- Where the lexer stands. -/
  cursor : Cursor
  /-- What the last token lets come next. -/
  expectation : Expectation := .none
  /-- What was reported so far. -/
  diagnostics : List Diagnostic := []

namespace Lexer

/-- The lexer at the beginning of a script. -/
def start (source : Bytes) (options : LexOptions) : Lexer where
  options := options
  cursor := .ofOffset source options.startOffset

/-- The offset at which the lexer stands. -/
def position (l : Lexer) : Nat := l.cursor.offset

/-- The next token, or `none` once the script is exhausted. -/
def next (l : Lexer) : Option Token × Lexer :=
  let step := scanToken l.options.legacyIdentifiers l.expectation l.cursor
  (step.token,
    { l with
      cursor := step.stop
      expectation := step.token.elim .none (Expectation.after ·.kind)
      diagnostics := l.diagnostics ++ l.options.report step.faults })

/-- A call of `next` that hands out a token moves the lexer on. This is why a
run ends. -/
theorem length_rest_next_lt {l l' : Lexer} {t : Token} (h : l.next = (some t, l')) :
    l'.cursor.rest.length < l.cursor.rest.length := by
  simp only [next, Prod.mk.injEq] at h
  obtain ⟨ht, rfl⟩ := h
  exact length_rest_scanToken_lt ht

/-- All tokens that are left, and the end of the input after them. -/
def run (l : Lexer) : List Token × Lexer :=
  match _h : l.next with
  | (none, l') => ([Token.eof l'.position], l')
  | (some t, l') =>
    let (ts, l'') := l'.run
    (t :: ts, l'')
termination_by l.cursor.rest.length
decreasing_by exact length_rest_next_lt _h

/-- One use of a lexer. -/
inductive Call where
  /-- Asks for one token. -/
  | next
  /-- Asks for all tokens that are left. -/
  | run
deriving DecidableEq, Repr

/-- What a lexer hands out when used. -/
inductive Reply where
  /-- One token, or none when the script is exhausted. -/
  | token (t : Option Token)
  /-- A stream that ends with the end of the input. -/
  | stream (ts : List Token)
deriving DecidableEq, Repr

/-- Uses a lexer once. -/
def call (l : Lexer) : Call → Reply × Lexer
  | .next => (.token l.next.1, l.next.2)
  | .run => (.stream l.run.1, l.run.2)

end Lexer

/-- The tokens of a whole script, and its diagnostics. -/
def lex (source : Bytes) (options : LexOptions) : List Token × List Diagnostic :=
  let (stream, l) := (Lexer.start source options).run
  (stream, l.diagnostics)

end StoryLex
