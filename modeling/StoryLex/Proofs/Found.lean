import StoryLex.Lexer
import StoryLex.Proofs.Matches

/-!
# StoryLex — what can be found at a place

A top-level token is found by an expectation or by the general rules, but in
the end it is one of four things: a match, a comment, a string or an argument
list (`FoundAt`). Whatever holds of these four holds of every token of a
stream.

* `scanBody_eq`, `scanString_eq`, `scanGeneral_eq` — the loops, one turn at a
  time.
* `general?_cases`, `expected?_cases` — what the two ways of finding a token
  can come to, guards included.
* `general?_foundAt`, `expected?_foundAt` — the four forms. An expected token
  stands at `Expectation.place`, behind the blanks that set it off.
* `expected?_none` — nothing is found where nothing is expected.
* `scanToken_origin`, `scanToken_found`, `scanToken_exhausted` — what the search
  for the next token comes to, over all that it skips.
-/

namespace StoryLex

/-- The place at which an expected token is looked for: behind the blanks,
where blanks may set it off. -/
def Expectation.place (e : Expectation) (c : Cursor) : Cursor :=
  if e = .modSep then c else c.skip isBlank

/-- The forms of a top-level token that starts at `c`. -/
inductive FoundAt (legacy : Bool) (c : Cursor) : Found → Prop where
  | leaf {b : UInt8} {tail : Bytes} {m : Match} (rest : c.rest = b :: tail)
      (fits : m.more ≤ tail.length) (inLine : newline ∉ b :: tail.take m.more)
      (region : m.kind.isRegion = false) (eof : m.kind ≠ .eof)
      (modName : m.kind = .modName → Rule.modName? b tail = some m) :
      FoundAt legacy c (m.found c)
  | comment {tail : Bytes} (rest : c.rest = byte '-' :: byte '-' :: tail) :
      FoundAt legacy c (comment c)
  | string {tail : Bytes} (rest : c.rest = byte '>' :: byte ' ' :: tail) :
      FoundAt legacy c (string c)
  | sceneArgs {tail : Bytes} (rest : c.rest = byte '(' :: tail) :
      FoundAt legacy c (sceneArgs legacy c)

-- ---------------------------------------------------------------------------
-- The loops, one turn at a time
-- ---------------------------------------------------------------------------

section Turns

variable {pieceAt : Option UInt8 → UInt8 → Bytes → Piece} {legacy : Bool} {c : Cursor}
  {b : UInt8} {tail : Bytes}

theorem scanBody_of_rest_eq_nil (h : c.rest = []) :
    scanBody pieceAt c = { tokens := [], faults := [], stop := c, closed := false } := by
  rw [scanBody]
  split
  · rfl
  · next h' => simp [h] at h'

/-- One turn of the loop over the inside of a region. -/
theorem scanBody_eq (h : c.rest = b :: tail) :
    scanBody pieceAt c =
      match pieceAt c.before b tail with
      | .close more => { tokens := [], faults := [], stop := c.advance (more + 1), closed := true }
      | .filler => scanBody pieceAt (c.advance 1)
      | .leaf m =>
        let body := scanBody pieceAt (c.advance (m.more + 1))
        { body with tokens := (m.found c).token :: body.tokens }
      | .junk more =>
        let body := scanBody pieceAt (c.advance (more + 1))
        { body with
          faults := .unrecognized (c.spanTo (c.advance (more + 1))) :: body.faults } := by
  rw [scanBody]
  split
  · next h' => simp [h] at h'
  · next b' tail' h' =>
    rw [h, List.cons.injEq] at h'
    obtain ⟨rfl, rfl⟩ := h'
    rfl

theorem scanString_of_rest_eq_nil (h : c.rest = []) :
    scanString c = { tokens := [], faults := [], stop := c, closed := true } := by
  rw [scanString]
  split
  · rfl
  · next h' => simp [h] at h'

/-- One turn of the loop over a string: a template is read, any other byte is
passed. -/
theorem scanString_eq (h : c.rest = b :: tail) :
    scanString c =
      if b == openBrace && tail.head? = some openBrace then
        let body := scanString (template c).stop
        { body with
          tokens := (template c).token :: body.tokens
          faults := (template c).faults ++ body.faults }
      else
        scanString (c.advance 1) := by
  rw [scanString]
  split
  · next h' => simp [h] at h'
  · next b' tail' h' =>
    rw [h, List.cons.injEq] at h'
    obtain ⟨rfl, rfl⟩ := h'
    rfl

/-- The general rules try a comment first, then a string, then the leaves. -/
theorem general?_eq (h : c.rest = b :: tail) :
    general? legacy c =
      if b == byte '-' && tail.head? = some (byte '-') then some (comment c)
      else if b == byte '>' && tail.head? = some (byte ' ') then some (string c)
      else (Rule.leaf? legacy c.before b tail).map (·.found c) := by
  rw [general?, h]

theorem scanGeneral_of_rest_eq_nil (h : c.rest = []) :
    scanGeneral legacy c = { token := none, faults := [], stop := c } := by
  rw [scanGeneral]
  split
  · rfl
  · next h' => simp [h] at h'

/-- One turn of the search: white space is passed, a token found, or junk
skipped and told. -/
theorem scanGeneral_eq (h : c.rest = b :: tail) :
    scanGeneral legacy c =
      if isSpace b then
        scanGeneral legacy (c.advance 1)
      else
        match general? legacy c with
        | some found => found.step
        | none =>
          let next := c.advance (Rule.junk b tail + 1)
          let step := scanGeneral legacy next
          { step with faults := .unrecognized (c.spanTo next) :: step.faults } := by
  rw [scanGeneral]
  split
  · next h' => simp [h] at h'
  · next b' tail' h' =>
    rw [h, List.cons.injEq] at h'
    obtain ⟨rfl, rfl⟩ := h'
    rfl

end Turns

variable {legacy : Bool} {e : Expectation} {c : Cursor} {found : Found}

-- ---------------------------------------------------------------------------
-- The general rules
-- ---------------------------------------------------------------------------

/-- A mark of two bytes that is found is the front of the rest. -/
theorem front_of_mark {b x y : UInt8} {tail : Bytes}
    (h : (b == x && tail.head? = some y) = true) : b = x ∧ ∃ rest, tail = y :: rest := by
  rw [Bool.and_eq_true, beq_iff_eq, decide_eq_true_eq] at h
  exact ⟨h.1, List.head?_eq_some_iff.mp h.2⟩

/-- What the general rules can find. -/
theorem general?_cases (h : general? legacy c = some found) :
    (∃ tail, c.rest = byte '-' :: byte '-' :: tail ∧ found = comment c) ∨
      (∃ tail, c.rest = byte '>' :: byte ' ' :: tail ∧ found = string c) ∨
      ∃ b tail m, c.rest = b :: tail ∧ ¬ (b = byte '-' ∧ tail.head? = some (byte '-')) ∧
        Rule.leaf? legacy c.before b tail = some m ∧ found = m.found c := by
  unfold general? at h
  split at h
  · simp at h
  · next b tail hc =>
    split at h
    · next hcomment =>
      obtain ⟨rfl, tail', rfl⟩ := front_of_mark hcomment
      exact Or.inl ⟨tail', hc, (Option.some.inj h).symm⟩
    · next hcomment =>
      split at h
      · next hstring =>
        obtain ⟨rfl, tail', rfl⟩ := front_of_mark hstring
        exact Or.inr (Or.inl ⟨tail', hc, (Option.some.inj h).symm⟩)
      · obtain ⟨m, hm, rfl⟩ := Option.map_eq_some_iff.mp h
        exact Or.inr (Or.inr ⟨b, tail, m, hc, by simpa using hcomment, hm, rfl⟩)

/-- What the general rules find has one of the four forms. -/
theorem general?_foundAt (h : general? legacy c = some found) : FoundAt legacy c found := by
  rcases general?_cases h with ⟨tail, hc, rfl⟩ | ⟨tail, hc, rfl⟩ | ⟨b, tail, m, hc, -, hm, rfl⟩
  · exact .comment hc
  · exact .string hc
  · obtain ⟨hregion, -, heof, hmod⟩ := Rule.leaf?_kind hm
    exact .leaf hc (Rule.leaf?_fits hm) (Rule.leaf?_inLine hm) hregion heof hmod

-- ---------------------------------------------------------------------------
-- Expectations
-- ---------------------------------------------------------------------------

/-- The expected token at the place `d` where it is looked for, whose bytes are
`b` and then `tail`. -/
def Expectation.meet? (legacy : Bool) (e : Expectation) (d : Cursor) (b : UInt8) (tail : Bytes) :
    Option Found :=
  match e with
  | none => Option.none
  | sceneName => (Rule.sceneName? legacy b tail).map (·.found d)
  | sceneOrModule => (Rule.modName? b tail <|> Rule.sceneName? legacy b tail).map (·.found d)
  | modSep => if b == byte ':' then some (Match.found ⟨.modSep, 0⟩ d) else Option.none
  | sceneArgs => if b == byte '(' then some (StoryLex.sceneArgs legacy d) else Option.none

/-- An expectation looks at its place for what would meet it. -/
theorem expected?_eq {b : UInt8} {tail : Bytes} (h : (e.place c).rest = b :: tail) :
    expected? legacy e c = e.meet? legacy (e.place c) b tail := by
  have hplace : (if e = .modSep then c else c.skip isBlank) = e.place c := rfl
  simp only [expected?, hplace, h]
  cases e <;> rfl

theorem expected?_of_rest_eq_nil (h : (e.place c).rest = []) : expected? legacy e c = none := by
  have hplace : (if e = .modSep then c else c.skip isBlank) = e.place c := rfl
  simp only [expected?, hplace, h]

/-- What an expectation can find. -/
theorem expected?_cases (h : expected? legacy e c = some found) :
    ∃ b tail, (e.place c).rest = b :: tail ∧
      ((e = .sceneArgs ∧ b = byte '(' ∧ found = sceneArgs legacy (e.place c)) ∨
        ∃ m : Match, found = m.found (e.place c) ∧
          (e = .modSep ∧ b = byte ':' ∧ m = ⟨.modSep, 0⟩ ∨
            e = .sceneOrModule ∧ Rule.modName? b tail = some m ∨
            (e = .sceneName ∨ e = .sceneOrModule ∧ Rule.modName? b tail = none) ∧
              Rule.sceneName? legacy b tail = some m)) := by
  cases hc : (e.place c).rest with
  | nil =>
    rw [expected?_of_rest_eq_nil hc] at h
    simp at h
  | cons b tail =>
    rw [expected?_eq hc] at h
    refine ⟨b, tail, rfl, ?_⟩
    cases e with
    | none => cases h
    | sceneName =>
      obtain ⟨m, hm, rfl⟩ := Option.map_eq_some_iff.mp h
      exact Or.inr ⟨m, rfl, Or.inr (Or.inr ⟨Or.inl rfl, hm⟩)⟩
    | sceneOrModule =>
      obtain ⟨m, hm, rfl⟩ := Option.map_eq_some_iff.mp h
      rw [Option.orElse_eq_orElse, Option.orElse_eq_or, Option.or_eq_some_iff] at hm
      rcases hm with hm | ⟨hnone, hm⟩
      · exact Or.inr ⟨m, rfl, Or.inr (Or.inl ⟨rfl, hm⟩)⟩
      · exact Or.inr ⟨m, rfl, Or.inr (Or.inr ⟨Or.inr ⟨rfl, hnone⟩, hm⟩)⟩
    | modSep =>
      obtain ⟨hb, hf⟩ := Option.ite_none_right_eq_some.mp h
      exact Or.inr ⟨⟨.modSep, 0⟩, (Option.some.inj hf).symm,
        Or.inl ⟨rfl, beq_iff_eq.mp hb, rfl⟩⟩
    | sceneArgs =>
      obtain ⟨hb, hf⟩ := Option.ite_none_right_eq_some.mp h
      exact Or.inl ⟨rfl, beq_iff_eq.mp hb, (Option.some.inj hf).symm⟩

/-- What is found because it was expected has one of the four forms. -/
theorem expected?_foundAt (h : expected? legacy e c = some found) :
    FoundAt legacy (e.place c) found := by
  obtain ⟨b, tail, hc, ⟨-, rfl, rfl⟩ | ⟨m, rfl, hm⟩⟩ := expected?_cases h
  · exact .sceneArgs hc
  · rcases hm with ⟨-, rfl, rfl⟩ | ⟨-, hm⟩ | ⟨-, hm⟩
    · -- the colon after a module's name is a leaf of one byte
      have hline : newline ∉ byte ':' :: tail.take 0 := by
        rw [List.take_zero]
        decide
      exact .leaf hc (Nat.zero_le _) hline rfl (by simp) (by simp)
    · -- a module's name
      have hmod := hm
      obtain ⟨hb, -, rfl⟩ := Rule.modName?_eq_some_iff.mp hm
      exact .leaf hc (runLength_le _ _) (Rule.word_inLine (Rule.isWord_of_isLetter hb) tail) rfl
        (by simp) fun _ => hmod
    · obtain ⟨hb, rfl⟩ := Rule.sceneName?_eq_some_iff.mp hm
      exact .leaf hc (runLength_le _ _) (Rule.word_inLine (Rule.isWord_of_sceneStart hb) tail) rfl
        (by simp) (by simp)

/-- Where nothing is expected, the general rules decide alone. -/
theorem expected?_none (legacy : Bool) (c : Cursor) : expected? legacy .none c = none := by
  cases h : expected? legacy .none c with
  | none => rfl
  | some found =>
    obtain ⟨b, tail, -, ⟨he, -⟩ | ⟨m, -, ⟨he, -⟩ | ⟨he, -⟩ | ⟨he | ⟨he, -⟩, -⟩⟩⟩ :=
      expected?_cases h <;> simp at he

/-- Where nothing is expected, the search for the next token is that by the
general rules. -/
theorem scanToken_none (legacy : Bool) (c : Cursor) :
    scanToken legacy .none c = scanGeneral legacy c := by
  rw [scanToken, expected?_none]

theorem Expectation.place_in {text : Bytes} (e : Expectation) (hc : c.In text) :
    (e.place c).In text := by
  unfold Expectation.place
  split
  · exact hc
  · exact hc.skip isBlank

theorem Expectation.offset_le_place (e : Expectation) (c : Cursor) :
    c.offset ≤ (e.place c).offset := by
  unfold Expectation.place
  split
  · exact le_rfl
  · exact c.offset_le_advance _

-- ---------------------------------------------------------------------------
-- The search for the next token
-- ---------------------------------------------------------------------------

variable {text : Bytes} {t : Token}

/-- The token of a search is what the general rules find at some place further
on, and the search stops where it does. -/
theorem scanGeneral_origin (hc : c.In text) (h : (scanGeneral legacy c).token = some t) :
    ∃ d found, d.In text ∧ c.offset ≤ d.offset ∧ general? legacy d = some found ∧
      found.token = t ∧ (scanGeneral legacy c).stop = found.stop := by
  fun_induction scanGeneral legacy c with
  | case1 c hrest => simp at h
  | case2 c b tail hrest hspace ih =>
    obtain ⟨d, found, hd, hle, hfound⟩ := ih (hc.advance 1) h
    exact ⟨d, found, hd, (c.offset_le_advance 1).trans hle, hfound⟩
  | case3 c b tail hrest hspace found hgen =>
    exact ⟨c, found, hc, le_rfl, hgen, Option.some.inj h, rfl⟩
  | case4 c b tail hrest hspace hgen next step ih =>
    obtain ⟨d, found, hd, hle, hfound⟩ := ih (hc.advance _) h
    exact ⟨d, found, hd, (c.offset_le_advance _).trans hle, hfound⟩

/-- A search that finds no token has come to the end of the text. -/
theorem scanGeneral_exhausted (hc : c.In text) (h : (scanGeneral legacy c).token = none) :
    (scanGeneral legacy c).stop.In text ∧ (scanGeneral legacy c).stop.rest = [] := by
  fun_induction scanGeneral legacy c with
  | case1 c hrest => exact ⟨hc, hrest⟩
  | case2 c b tail hrest hspace ih => exact ih (hc.advance 1) h
  | case3 c b tail hrest hspace found hgen => simp [Found.step] at h
  | case4 c b tail hrest hspace hgen next step ih => exact ih (hc.advance _) h

/-- The next token is the expected one, or one that the general rules find
further on; and the search stops where it does. -/
theorem scanToken_origin (hc : c.In text) (h : (scanToken legacy e c).token = some t) :
    ∃ d found, d.In text ∧ c.offset ≤ d.offset ∧
      (expected? legacy e c = some found ∧ d = e.place c ∨ general? legacy d = some found) ∧
      found.token = t ∧ (scanToken legacy e c).stop = found.stop := by
  unfold scanToken at h ⊢
  split at h
  · -- the expectation is met at its place
    next found hexp =>
    exact ⟨e.place c, found, e.place_in hc, e.offset_le_place c, Or.inl ⟨hexp, rfl⟩,
      Option.some.inj h, rfl⟩
  · obtain ⟨d, found, hd, hle, hgen, hfound⟩ := scanGeneral_origin hc h
    exact ⟨d, found, hd, hle, Or.inr hgen, hfound⟩

/-- The next token has one of the four forms, at a place further on, and the
search stops where it does. -/
theorem scanToken_found (hc : c.In text) (h : (scanToken legacy e c).token = some t) :
    ∃ d found, d.In text ∧ c.offset ≤ d.offset ∧ FoundAt legacy d found ∧ found.token = t ∧
      (scanToken legacy e c).stop = found.stop := by
  obtain ⟨d, found, hd, hle, ⟨hexp, rfl⟩ | hgen, hfound⟩ := scanToken_origin hc h
  · exact ⟨_, found, hd, hle, expected?_foundAt hexp, hfound⟩
  · exact ⟨d, found, hd, hle, general?_foundAt hgen, hfound⟩

/-- Where no token is left, the search has come to the end of the text. -/
theorem scanToken_exhausted (hc : c.In text) (h : (scanToken legacy e c).token = none) :
    (scanToken legacy e c).stop.In text ∧ (scanToken legacy e c).stop.rest = [] := by
  unfold scanToken at h ⊢
  split at h
  · simp [Found.step] at h
  · exact scanGeneral_exhausted hc h

end StoryLex
