import StoryLex.Proofs.Session

/-!
# StoryLex — the lexer as a machine with a stack

A region is read by a scan of its own, and a template by a scan inside that of
its string. This module has the same lexer with no scan inside another: a
**machine** that works on offsets, keeps the regions that are open on a stack,
and takes one turn of one loop at a time. Outside all regions a turn looks for
the next token; inside, it asks three questions of the innermost region: does
it end here, is this a byte of its text, does something start here that has a
place in it.

Nothing in the machine's types makes it behave. It reads bytes wherever it
stands, past the end too, where they are zero; it moves on by as much as it is
told to; and the three questions have no answer where the stack is empty
(`Turn.stuck`). That it stays in its text and never gets stuck is a matter of
what holds in every state that it can come to.

* `Machine.turn` — one turn.
* `Machine.Sound` — the invariant: the stack has one of five forms, the regions
  that are being read are those on the stack, and the position lies in the text.
* `Machine.turn_outcome` — all that a turn can come to in such a state.
* `Machine.Visits.sound` — the invariant holds in every state of every session.
-/

namespace StoryLex

-- ---------------------------------------------------------------------------
-- Regions by their mode
-- ---------------------------------------------------------------------------

/-- The byte at an offset. Past the end it is zero, and zero may be a byte of
the text as well. -/
def byteAt (source : Bytes) (p : Nat) : UInt8 := source.getD p 0

/-- The rules by which the inside of a region is read. -/
inductive Mode where
  | comment
  | string
  | template
  | sceneArgs
deriving DecidableEq, Repr

/-- What starts at a place. -/
inductive Opening where
  | leaf (m : Match)
  | region (mode : Mode)

namespace Mode

/-- The kind of the region's token. -/
def kind : Mode → Kind
  | comment => .comment
  | string => .string
  | template => .template
  | sceneArgs => .sceneArgs

/-- How many bytes the opening mark has. -/
def width : Mode → Nat
  | comment | string | template => 2
  | sceneArgs => 1

/-- Whether the region ends at `p`; if so, whether it was closed or cut off, and
the width of the closing mark. -/
def close? (source : Bytes) (p : Nat) : Mode → Option (Bool × Nat)
  | comment | string =>
    if source.length ≤ p ∨ byteAt source p = newline then some (true, 0) else none
  | template =>
    if byteAt source p = closeBrace ∧ byteAt source (p + 1) = closeBrace then some (true, 2)
    else if source.length ≤ p ∨ byteAt source p = newline then some (false, 0)
    else none
  | sceneArgs =>
    if byteAt source p = byte ')' then some (true, 1)
    else if source.length ≤ p then some (false, 0)
    else none

/-- Whether the byte at `p` belongs to the region and to no token in it. -/
def IsText (source : Bytes) (p : Nat) : Mode → Prop
  | comment => True
  | string => ¬ (byteAt source p = openBrace ∧ byteAt source (p + 1) = openBrace)
  | template => isBlank (byteAt source p) = true
  | sceneArgs => byteAt source p = byte ',' ∨ isSpace (byteAt source p) = true

instance (source : Bytes) (p : Nat) (mode : Mode) : Decidable (mode.IsText source p) := by
  cases mode <;> unfold IsText <;> infer_instance

/-- What starts at `p` inside the region. It is asked of a string only where two
braces stand. -/
def inside? (legacy : Bool) (source : Bytes) (p : Nat) : Mode → Option Opening
  | comment => none
  | string => some (.region template)
  | template =>
    match Rule.variableName? (byteBefore source p) (byteAt source p) (source.drop (p + 1)) with
    | none => none
    -- the word `Self` is taken back, and the place is as it was
    | some m => if m.kind = .reserved then none else some (.leaf m)
  | sceneArgs =>
    let b := byteAt source p
    let tail := source.drop (p + 1)
    if b = byte '#' then (Rule.sigil? legacy .atom tail).map .leaf
    else if isDigit b = true then (Rule.number? b tail).map .leaf
    else if isUpper b = true then (Rule.variableName? (byteBefore source p) b tail).map .leaf
    else if b = byte '_' ∧ isWord (byteAt source (p + 1)) = false ∧
        atWordStart (byteBefore source p) = true then some (.leaf ⟨.reserved, 0⟩)
    else none

end Mode

/-- What was expected and starts at `p`. -/
def Expectation.opening? (legacy : Bool) (source : Bytes) (p : Nat) (e : Expectation) :
    Option Opening :=
  let b := byteAt source p
  let tail := source.drop (p + 1)
  match e with
  | none => .none
  | sceneName => (Rule.sceneName? legacy b tail).map .leaf
  | sceneOrModule => (Rule.modName? b tail <|> Rule.sceneName? legacy b tail).map .leaf
  | modSep => if b = byte ':' then some (.leaf ⟨.modSep, 0⟩) else .none
  | sceneArgs => if b = byte '(' then some (.region .sceneArgs) else .none

/-- What starts at `p` by the general rules. -/
def opening? (legacy : Bool) (source : Bytes) (p : Nat) : Option Opening :=
  let b := byteAt source p
  if b = byte '-' ∧ byteAt source (p + 1) = byte '-' then some (.region .comment)
  else if b = byte '>' ∧ byteAt source (p + 1) = byte ' ' then some (.region .string)
  else (Rule.leaf? legacy (byteBefore source p) b (source.drop (p + 1))).map .leaf

-- ---------------------------------------------------------------------------
-- The machine
-- ---------------------------------------------------------------------------

/-- A region whose inside is being read: its kind, where it starts, and the
tokens found inside so far. -/
structure Opened where
  kind : Kind
  start : Nat
  tokens : List Token := []

/-- A lexer in the middle of its work. -/
structure Machine where
  /-- Where it stands. -/
  position : Nat
  /-- What the last token lets come next. -/
  expectation : Expectation := .none
  /-- The stack: the modes of the open regions, the innermost last. -/
  modes : List Mode := []
  /-- The regions that are being read, the innermost first. -/
  opened : List Opened := []
  /-- What was met since the last token was handed out. -/
  faults : List Diagnostic := []

namespace Machine

/-- The machine at the beginning of a script. -/
def start (source : Bytes) (options : LexOptions) : Machine where
  position := min options.startOffset source.length

/-- What a turn comes to. -/
inductive Turn where
  /-- The loop goes on. -/
  | on (s : Machine)
  /-- The search for the next token ends, with one or without. -/
  | back (token : Option Token) (faults : List Diagnostic) (s : Machine)
  /-- The innermost region is asked for, and the stack is empty. -/
  | stuck

/-- Hands a token to the region around it, or out of the machine. -/
def hand (t : Token) (s : Machine) : Turn :=
  match s.opened with
  | [] => .back (some t) s.faults { s with expectation := .after t.kind, faults := [] }
  | g :: gs => .on { s with opened := { g with tokens := g.tokens ++ [t] } :: gs }

/-- The token of a kind that covers the bytes from `p` to `q`. -/
def tokenOf (source : Bytes) (kind : Kind) (p q : Nat) : Token where
  kind := kind
  span := ⟨p, q⟩
  lexeme := Span.bytes ⟨p, q⟩ source

/-- Takes what starts at `p`. -/
def take (source : Bytes) (s : Machine) (p : Nat) : Opening → Turn
  | .leaf m =>
    let stop := p + (m.more + 1)
    hand (tokenOf source m.kind p stop) { s with position := stop }
  | .region mode =>
    .on { s with
      position := p + mode.width
      modes := s.modes ++ [mode]
      opened := ⟨mode.kind, p, []⟩ :: s.opened }

/-- Skips what no rule takes, from `p` on. -/
def skip (source : Bytes) (s : Machine) (p : Nat) : Turn :=
  let stop := p + (Rule.junk (byteAt source p) (source.drop (p + 1)) + 1)
  .on { s with position := stop, faults := s.faults ++ [.unrecognized ⟨p, stop⟩] }

/-- Ends the region `g`, inside the regions `gs`. -/
def leave (source : Bytes) (s : Machine) (g : Opened) (gs : List Opened) (closed : Bool)
    (width : Nat) : Turn :=
  let stop := s.position + width
  hand
    { tokenOf source g.kind g.start stop with nested := g.tokens, unterminated := !closed }
    { s with
      position := stop
      modes := s.modes.dropLast
      opened := gs
      faults := s.faults ++ if closed then [] else [.unterminated g.kind ⟨g.start, stop⟩] }

/-- A turn of the loop that reads the region `g`, inside the regions `gs`. -/
def insideTurn (legacy : Bool) (source : Bytes) (s : Machine) (g : Opened) (gs : List Opened) :
    Turn :=
  match s.modes.getLast? with
  | none => .stuck
  | some mode =>
    match mode.close? source s.position with
    | some (closed, width) => s.leave source g gs closed width
    | none =>
      if mode.IsText source s.position then
        .on { s with position := s.position + 1 }
      else
        match mode.inside? legacy source s.position with
        | some o => s.take source s.position o
        | none => s.skip source s.position

/-- The search by the general rules, from `p` on. -/
def generalTurn (legacy : Bool) (source : Bytes) (s : Machine) (p : Nat) : Turn :=
  let q := p + runLength isSpace (source.drop p)
  if source.length ≤ q then
    .back none s.faults { s with position := q, faults := [] }
  else
    match opening? legacy source q with
    | some o => s.take source q o
    | none => s.skip source q

/-- Where an expected token is looked for. -/
def expectedPlace (source : Bytes) (s : Machine) : Nat :=
  if s.expectation = .none ∨ s.expectation = .modSep then s.position
  else s.position + runLength isBlank (source.drop s.position)

/-- A turn of the loop that looks for the next token. -/
def outsideTurn (legacy : Bool) (source : Bytes) (s : Machine) : Turn :=
  let p := s.expectedPlace source
  -- the expectation is used up, met or not
  let next := { s with expectation := .none }
  match if source.length ≤ p then none else s.expectation.opening? legacy source p with
  | some o => next.take source p o
  | none => next.generalTurn legacy source p

/-- One turn of the innermost loop. -/
def turn (legacy : Bool) (source : Bytes) (s : Machine) : Turn :=
  match s.opened with
  | [] => s.outsideTurn legacy source
  | g :: gs => s.insideTurn legacy source g gs

/-- The state in which a turn leaves the machine. -/
def Turn.state? : Turn → Option Machine
  | on s | back _ _ s => some s
  | stuck => none

/-- The states that the machine comes to from `s`, whether it goes on or is
called again. -/
inductive Visits (legacy : Bool) (source : Bytes) (s : Machine) : Machine → Prop where
  | refl : Visits legacy source s s
  | turn {t u : Machine} (visited : Visits legacy source s t)
      (turned : (t.turn legacy source).state? = some u) : Visits legacy source s u

/-- The five forms of the stack. -/
def stackForms : List (List Mode) := [[], [.comment], [.string], [.string, .template], [.sceneArgs]]

/-- The invariant of the machine. -/
structure Sound (source : Bytes) (s : Machine) : Prop where
  stack  : s.modes ∈ stackForms
  kinds  : s.opened.map (·.kind) = (s.modes.map Mode.kind).reverse
  inText : s.position ≤ source.length

/-- All that a turn can come to. -/
inductive Outcome (source : Bytes) (s : Machine) : Turn → Prop where
  /-- Some bytes go by. -/
  | pass {t : Machine} (modes : t.modes = s.modes) (opened : t.opened = s.opened)
      (moved : s.position < t.position) (inText : t.position ≤ source.length) :
      Outcome source s (.on t)
  /-- A token that is no region is found. -/
  | leaf {t : Machine} {token : Token} (modes : t.modes = s.modes) (opened : t.opened = s.opened)
      (moved : s.position < t.position) (inText : t.position ≤ source.length) :
      Outcome source s (hand token t)
  /-- A region starts that has a place on the stack. -/
  | enter {t : Machine} {mode : Mode} {g : Opened} (stack : s.modes ++ [mode] ∈ stackForms)
      (modes : t.modes = s.modes ++ [mode]) (opened : t.opened = g :: s.opened)
      (kind : g.kind = mode.kind) (moved : s.position < t.position)
      (inText : t.position ≤ source.length) : Outcome source s (.on t)
  /-- The innermost region ends, and its end may take no bytes. -/
  | leave {t : Machine} {token : Token} {g : Opened} (modes : t.modes = s.modes.dropLast)
      (opened : s.opened = g :: t.opened) (kept : s.position ≤ t.position)
      (inText : t.position ≤ source.length) : Outcome source s (hand token t)
  /-- Nothing is left. -/
  | exhausted {t : Machine} {faults : List Diagnostic} (outside : s.opened = [])
      (modes : t.modes = s.modes) (opened : t.opened = s.opened)
      (ended : t.position = source.length) : Outcome source s (.back none faults t)

end Machine

-- ---------------------------------------------------------------------------
-- What starts at a place fits there
-- ---------------------------------------------------------------------------

section Openings

variable {legacy : Bool} {source : Bytes} {modes : List Mode} {mode : Mode} {p : Nat}
  {o : Opening}

/-- Where a byte other than zero is read, the text has not ended. -/
theorem lt_length_of_byteAt {b : UInt8} (h : byteAt source p = b) (hb : b ≠ 0) :
    p < source.length := by
  by_contra hp
  rw [byteAt, List.getD_eq_getElem?_getD, List.getElem?_eq_none (by omega)] at h
  exact hb h.symm

/-- What starts at `p`, with the given stack, lies in the text and has a place
on the stack. -/
def Opening.Fits (source : Bytes) (modes : List Mode) (p : Nat) : Opening → Prop
  | .leaf m => p + (m.more + 1) ≤ source.length
  | .region mode => modes ++ [mode] ∈ Machine.stackForms ∧ p + mode.width ≤ source.length

/-- A match that lies in the rest of the text behind `p`. -/
theorem Opening.leaf_fits {m : Match} (hp : p < source.length)
    (hm : m.more ≤ (source.drop (p + 1)).length) : (Opening.leaf m).Fits source modes p := by
  rw [List.length_drop] at hm
  show p + (m.more + 1) ≤ source.length
  omega

/-- What a rule finds fits if its matches lie in the text. -/
theorem Opening.fits_of_map_leaf {found : Option Match} (hp : p < source.length)
    (hfound : ∀ m, found = some m → m.more ≤ (source.drop (p + 1)).length)
    (h : found.map .leaf = some o) : o.Fits source modes p := by
  obtain ⟨m, hm, rfl⟩ := Option.map_eq_some_iff.mp h
  exact Opening.leaf_fits hp (hfound m hm)

/-- What starts by the general rules fits, outside all regions. -/
theorem opening?_fits (hp : p < source.length) (h : opening? legacy source p = some o) :
    o.Fits source [] p := by
  unfold opening? at h
  dsimp only at h
  split at h
  · next hmark =>
    cases h
    exact ⟨by decide, lt_length_of_byteAt hmark.2 (by decide)⟩
  split at h
  · next hmark =>
    cases h
    exact ⟨by decide, lt_length_of_byteAt hmark.2 (by decide)⟩
  · exact Opening.fits_of_map_leaf hp (fun m => Rule.leaf?_fits) h

/-- What was expected and starts fits, outside all regions. -/
theorem Expectation.opening?_fits {e : Expectation} (hp : p < source.length)
    (h : e.opening? legacy source p = some o) : o.Fits source [] p := by
  cases e with
  | none => cases h
  | sceneName => exact Opening.fits_of_map_leaf hp (fun m => Rule.sceneName?_fits) h
  | sceneOrModule =>
    refine Opening.fits_of_map_leaf hp ?_ h
    intro m hm
    rw [Option.orElse_eq_orElse, Option.orElse_eq_or, Option.or_eq_some_iff] at hm
    rcases hm with hm | ⟨-, hm⟩
    · exact Rule.modName?_fits hm
    · exact Rule.sceneName?_fits hm
  | modSep =>
    obtain ⟨-, ho⟩ := Option.ite_none_right_eq_some.mp h
    cases ho
    exact Opening.leaf_fits hp (Nat.zero_le _)
  | sceneArgs =>
    obtain ⟨-, ho⟩ := Option.ite_none_right_eq_some.mp h
    cases ho
    exact ⟨by decide, hp⟩

theorem Rule.variableName?_fits {before : Option UInt8} {b : UInt8} {tail : Bytes} {m : Match}
    (h : variableName? before b tail = some m) : m.more ≤ tail.length :=
  variableName?_more h ▸ runLength_le _ _

theorem Mode.width_pos (mode : Mode) : 0 < mode.width := by
  cases mode <;> decide

/-- Only a string has a region in it, and a string is never inside another region. -/
theorem Mode.inside?_fits (hstack : modes ∈ Machine.stackForms) (hlast : modes.getLast? = some mode)
    (hp : p < source.length) (htext : ¬ mode.IsText source p)
    (h : mode.inside? legacy source p = some o) : o.Fits source modes p := by
  cases mode with
  | comment => exact absurd trivial htext
  | string =>
    cases h
    have hbraces := not_not.mp htext
    -- of the forms of the stack only one ends with a string, and a template has a place on it
    have hplace : modes ++ [.template] ∈ Machine.stackForms := by
      revert hlast
      revert modes
      decide
    exact ⟨hplace, lt_length_of_byteAt hbraces.2 (by decide)⟩
  | template =>
    simp only [inside?] at h
    split at h
    · cases h
    · next m hm =>
      split at h
      · cases h
      · cases h
        exact Opening.leaf_fits hp (Rule.variableName?_fits hm)
  | sceneArgs =>
    simp only [inside?] at h
    split at h
    · exact Opening.fits_of_map_leaf hp (fun m => Rule.sigil?_fits) h
    split at h
    · exact Opening.fits_of_map_leaf hp (fun m => Rule.number?_fits) h
    split at h
    · exact Opening.fits_of_map_leaf hp (fun m => Rule.variableName?_fits) h
    split at h
    · cases h
      exact Opening.leaf_fits hp (Nat.zero_le _)
    · cases h

/-- A region that does not end at `p` has a byte there. -/
theorem Mode.lt_length_of_close?_eq_none (h : mode.close? source p = none) :
    p < source.length := by
  cases mode <;> simp only [close?] at h <;> grind

/-- A closing mark is only found where all its bytes stand. -/
theorem Mode.close?_fits {closed : Bool} {width : Nat} (hp : p ≤ source.length)
    (h : mode.close? source p = some (closed, width)) : p + width ≤ source.length := by
  cases mode with
  | comment | string =>
    obtain ⟨-, hclose⟩ := Option.ite_none_right_eq_some.mp h
    cases hclose
    exact hp
  | template =>
    simp only [close?] at h
    split at h
    · next hbraces =>
      cases h
      exact lt_length_of_byteAt hbraces.2 (by decide)
    · obtain ⟨-, hclose⟩ := Option.ite_none_right_eq_some.mp h
      cases hclose
      exact hp
  | sceneArgs =>
    simp only [close?] at h
    split at h
    · next hparen =>
      cases h
      exact lt_length_of_byteAt hparen (by decide)
    · obtain ⟨-, hclose⟩ := Option.ite_none_right_eq_some.mp h
      cases hclose
      exact hp

end Openings

namespace Machine

variable {legacy : Bool} {source : Bytes} {s t u : Machine} {T : Turn} {token : Option Token}
  {faults : List Diagnostic}

-- ---------------------------------------------------------------------------
-- What a turn can come to
-- ---------------------------------------------------------------------------

/-- Taking what fits, at a place further on. What is expected next does not matter. -/
theorem take_outcome {p : Nat} {o : Opening} (e : Expectation) (hp : s.position ≤ p)
    (ho : o.Fits source s.modes p) :
    Outcome source s ({ s with expectation := e }.take source p o) := by
  cases o with
  | leaf m => exact .leaf rfl rfl (by show s.position < p + (m.more + 1); omega) ho
  | region mode =>
    obtain ⟨hstack, hin⟩ := ho
    have hwidth := mode.width_pos
    exact .enter hstack rfl rfl rfl (by show s.position < p + mode.width; omega) hin

/-- Skipping passes some bytes of the text. -/
theorem skip_outcome {p : Nat} (e : Expectation) (hp : s.position ≤ p) (hlt : p < source.length) :
    Outcome source s ({ s with expectation := e }.skip source p) := by
  have hjunk := Rule.junk_le (byteAt source p) (source.drop (p + 1))
  rw [List.length_drop] at hjunk
  refine .pass rfl rfl ?_ ?_
  · show s.position < p + (Rule.junk (byteAt source p) (source.drop (p + 1)) + 1)
    omega
  · show p + (Rule.junk (byteAt source p) (source.drop (p + 1)) + 1) ≤ source.length
    omega

theorem Sound.modes_eq_nil (hs : Sound source s) (h : s.opened = []) : s.modes = [] := by
  have hkinds := hs.kinds
  rw [h] at hkinds
  simpa using hkinds.symm

/-- A region that is being read is on the stack. -/
theorem Sound.modes_ne_nil (hs : Sound source s) (h : s.opened ≠ []) : s.modes ≠ [] := by
  intro hempty
  have hkinds := hs.kinds
  rw [hempty] at hkinds
  exact h (by simpa using hkinds)

/-- All that a turn inside a region can come to. -/
theorem insideTurn_outcome (hs : Sound source s) {g : Opened} {gs : List Opened}
    (hopened : s.opened = g :: gs) : Outcome source s (s.insideTurn legacy source g gs) := by
  unfold insideTurn
  split
  · -- a region is being read, so the stack is not empty
    next hempty =>
    have hmodes := hs.modes_ne_nil (by simp [hopened])
    exact absurd (List.getLast?_eq_none_iff.mp hempty) hmodes
  next mode hlast =>
  split
  · next closed width hclose =>
    exact .leave rfl hopened (Nat.le_add_right _ _) (Mode.close?_fits hs.inText hclose)
  next hopen =>
  have hlt := Mode.lt_length_of_close?_eq_none hopen
  split
  · exact .pass rfl rfl (Nat.lt_succ_self _) hlt
  next htext =>
  split
  · next o ho => exact take_outcome _ le_rfl (Mode.inside?_fits hs.stack hlast hlt htext ho)
  · exact skip_outcome _ le_rfl hlt

/-- A run of a class ends with the text at the latest. -/
theorem add_runLength_le {p : Nat} (hp : p ≤ source.length) (q : UInt8 → Bool) :
    p + runLength q (source.drop p) ≤ source.length := by
  have := runLength_le q (source.drop p)
  rw [List.length_drop] at this
  omega

/-- All that a turn outside all regions can come to. -/
theorem outsideTurn_outcome (hs : Sound source s) (hopened : s.opened = []) :
    Outcome source s (s.outsideTurn legacy source) := by
  have hmodes := hs.modes_eq_nil hopened
  have hplace : s.position ≤ s.expectedPlace source ∧ s.expectedPlace source ≤ source.length := by
    unfold expectedPlace
    split
    · exact ⟨le_rfl, hs.inText⟩
    · exact ⟨Nat.le_add_right _ _, add_runLength_le hs.inText _⟩
  unfold outsideTurn
  dsimp only
  split
  · next o ho =>
    split at ho
    · cases ho
    next hlt =>
    refine take_outcome _ hplace.1 ?_
    rw [hmodes]
    exact Expectation.opening?_fits (Nat.lt_of_not_le hlt) ho
  · unfold generalTurn
    dsimp only
    have hspace := add_runLength_le hplace.2 isSpace
    split
    · -- only white space is left
      next hend => exact .exhausted hopened rfl rfl (le_antisymm hspace hend)
    next hlt =>
    have hle : s.position ≤
        s.expectedPlace source + runLength isSpace (source.drop (s.expectedPlace source)) := by
      omega
    split
    · next o ho =>
      refine take_outcome _ hle ?_
      rw [hmodes]
      exact opening?_fits (Nat.lt_of_not_le hlt) ho
    · exact skip_outcome _ hle (Nat.lt_of_not_le hlt)

/-- **All that a turn can come to**, in a state in which the invariant holds. -/
theorem turn_outcome (legacy : Bool) (hs : Sound source s) :
    Outcome source s (s.turn legacy source) := by
  unfold turn
  split
  · next hopened => exact outsideTurn_outcome hs hopened
  · next g gs hopened => exact insideTurn_outcome hs hopened

-- ---------------------------------------------------------------------------
-- Every state of every session
-- ---------------------------------------------------------------------------

theorem Turn.state?_of_on (h : T = .on u) : T.state? = some u := by
  rw [h]
  rfl

theorem Turn.state?_of_back (h : T = .back token faults u) : T.state? = some u := by
  rw [h]
  rfl

/-- A token that is handed on changes neither the stack nor the place. -/
theorem state?_hand {x : Token} (h : (hand x t).state? = some u) :
    u.modes = t.modes ∧ u.position = t.position ∧
      u.opened.map (·.kind) = t.opened.map (·.kind) := by
  unfold hand at h
  split at h
  · cases h
    exact ⟨rfl, rfl, rfl⟩
  · next g gs hopened =>
    cases h
    exact ⟨rfl, rfl, by simp [hopened]⟩

/-- A token that is handed out was in no region. -/
theorem opened_of_hand_eq_back {x : Token} (h : hand x t = .back token faults u) :
    u.opened = [] := by
  unfold hand at h
  split at h
  · next hopened =>
    cases h
    exact hopened
  · cases h

theorem hand_ne_stuck (x : Token) (t : Machine) : hand x t ≠ .stuck := by
  unfold hand
  split <;> simp

/-- A region that ends leaves the stack in one of its forms. -/
theorem dropLast_mem_stackForms : ∀ modes ∈ stackForms, modes.dropLast ∈ stackForms := by
  decide

namespace Outcome

variable (h : Outcome source s T) (hs : Sound source s)
include h

/-- No turn gets stuck. -/
theorem ne_stuck : T ≠ .stuck := by
  cases h with
  | pass | enter | exhausted => simp
  | leaf | leave => exact hand_ne_stuck _ _

/-- Nothing is open when the search for a token ends. -/
theorem opened_eq_nil (hT : T = .back token faults u) : u.opened = [] := by
  cases h with
  | pass | enter => cases hT
  | leaf | leave => exact opened_of_hand_eq_back hT
  | exhausted outside modes opened ended =>
    cases hT
    rw [opened, outside]

include hs

/-- No turn goes back. -/
theorem position_le (hT : T.state? = some u) : s.position ≤ u.position := by
  cases h with
  | pass modes opened moved inText | enter stack modes opened kind moved inText =>
    cases hT
    exact moved.le
  | leaf modes opened moved inText =>
    rw [(state?_hand hT).2.1]
    exact moved.le
  | leave modes opened kept inText =>
    rw [(state?_hand hT).2.1]
    exact kept
  | exhausted outside modes opened ended =>
    cases hT
    -- nothing is left, and no state stands past the end
    rw [ended]
    exact hs.inText

/-- A turn keeps the invariant. -/
theorem sound (hT : T.state? = some u) : Sound source u := by
  -- the invariant only sees the stack, the place and the kinds of the open regions
  have hand_sound : ∀ {x : Token} {t : Machine}, Sound source t →
      (hand x t).state? = some u → Sound source u := by
    intro x t ht hu
    obtain ⟨hmodes, hpos, hkinds⟩ := state?_hand hu
    exact ⟨hmodes ▸ ht.stack, by rw [hkinds, hmodes]; exact ht.kinds, hpos ▸ ht.inText⟩
  cases h with
  | pass modes opened moved inText =>
    cases hT
    exact ⟨modes ▸ hs.stack, by rw [opened, modes]; exact hs.kinds, inText⟩
  | leaf modes opened moved inText =>
    exact hand_sound ⟨modes ▸ hs.stack, by rw [opened, modes]; exact hs.kinds, inText⟩ hT
  | enter stack modes opened kind moved inText =>
    cases hT
    exact ⟨modes ▸ stack, by simp [opened, modes, kind, hs.kinds], inText⟩
  | leave modes opened kept inText =>
    -- the innermost region is taken off both lists
    refine hand_sound ⟨?_, ?_, inText⟩ hT
    · rw [modes]
      exact dropLast_mem_stackForms _ hs.stack
    · have hkinds := congrArg List.tail hs.kinds
      rw [opened] at hkinds
      rw [modes, List.map_dropLast, ← List.tail_reverse]
      exact hkinds
  | exhausted outside modes opened ended =>
    cases hT
    exact ⟨modes ▸ hs.stack, by rw [opened, modes]; exact hs.kinds, ended.le⟩

end Outcome

/-- The invariant holds at the beginning of a script. -/
theorem sound_start (source : Bytes) (options : LexOptions) :
    Sound source (start source options) :=
  ⟨List.mem_cons_self, rfl, Nat.min_le_right _ _⟩

/-- **The invariant holds in every state** that the machine comes to. -/
theorem Visits.sound (h : Visits legacy source s t) (hs : Sound source s) : Sound source t := by
  induction h with
  | refl => exact hs
  | turn visited turned ih => exact (turn_outcome legacy ih).sound ih turned

/-- The machine never goes back. -/
theorem Visits.position_le (h : Visits legacy source s t) (hs : Sound source s) :
    s.position ≤ t.position := by
  induction h with
  | refl => exact le_rfl
  | turn visited turned ih =>
    have ht := visited.sound hs
    exact ih.trans ((turn_outcome legacy ht).position_le ht turned)

theorem Visits.trans (h : Visits legacy source s t) (h' : Visits legacy source t u) :
    Visits legacy source s u := by
  induction h' with
  | refl => exact h
  | turn visited turned ih => exact .turn ih turned

end Machine

end StoryLex
