import StoryLex.Proofs.Extent

/-!
# StoryLex — line ends spelled with a carriage return

`crlf` puts a carriage return in front of every newline of a text. To the rules
that is no change: a carriage return is in no class that a rule asks for, no
more than the newline is, so a rule that stops at the one stops at the other.

The rules are not asked about `crlf` itself. A region may be read in the text
that ends with its line, and there the carriage return is left over where the
newline was cut off. `Respelled` relates a text to what it may become in either
way, and each rule answers the same of both.

* `Rule.leaf?_respelled`, `Rule.modName?_respelled`, … — the rules themselves.
* `PieceBlind` — what a region takes a place for, with the same answer for both
  spellings and within one line (`argsPiece_blind`, `templatePiece_blind`).
-/

namespace StoryLex

/-- The text with a carriage return in front of every newline. -/
def crlf (text : Bytes) : Bytes :=
  text.flatMap fun b => if b = newline then [carriageReturn, newline] else [b]

/-- A text and the same text with its line ends respelled; a carriage return
may be left over at its end. -/
inductive Respelled : Bytes → Bytes → Prop where
  | nil : Respelled [] []
  | cut : Respelled [] [carriageReturn]
  | lineEnd {t t' : Bytes} (rest : Respelled t t') :
      Respelled (newline :: t) (carriageReturn :: newline :: t')
  | same {b : UInt8} {t t' : Bytes} (ne : b ≠ newline) (rest : Respelled t t') :
      Respelled (b :: t) (b :: t')

/-- The class holds no byte with which lines end. -/
def Inner (p : UInt8 → Bool) : Prop := p newline = false ∧ p carriageReturn = false

instance (p : UInt8 → Bool) : Decidable (Inner p) := inferInstanceAs (Decidable (_ ∧ _))

theorem Sigil.inner_first (legacy : Bool) (s : Sigil) : Inner (s.first legacy) := by
  cases legacy <;> cases s <;> decide

theorem Sigil.inner_later (legacy : Bool) (s : Sigil) : Inner (s.later legacy) := by
  cases legacy <;> cases s <;> decide

/-- A text and its spelling with carriage returns are respelled line for
line. -/
theorem respelled_crlf (text : Bytes) : Respelled text (crlf text) := by
  induction text with
  | nil => exact .nil
  | cons b text ih =>
    rw [crlf, List.flatMap_cons]
    by_cases hb : b = newline
    · rw [hb, if_pos rfl]
      exact .lineEnd ih
    · rw [if_neg hb]
      exact .same hb ih

namespace Respelled

variable {t t' : Bytes} {p : UInt8 → Bool}

-- ---------------------------------------------------------------------------
-- What can be seen of a respelled text
-- ---------------------------------------------------------------------------

/-- A run of a class that ends within its line is the same in both spellings. -/
theorem takeWhile_eq (h : Respelled t t') (hp : Inner p) : t'.takeWhile p = t.takeWhile p := by
  induction h with
  | nil => rfl
  | cut => exact List.takeWhile_cons_of_neg (by simp [hp.2])
  | lineEnd _ _ =>
    rw [List.takeWhile_cons_of_neg (by simp [hp.2]), List.takeWhile_cons_of_neg (by simp [hp.1])]
  | same _ _ ih => rw [List.takeWhile_cons, List.takeWhile_cons, ih]

theorem runLength_eq (h : Respelled t t') (hp : Inner p) : runLength p t' = runLength p t := by
  rw [runLength, h.takeWhile_eq hp, runLength]

/-- Within a line the two texts are the same, and behind that again respelled. -/
theorem take_drop (h : Respelled t t') {n : Nat} (hn : n ≤ t.length) (hline : newline ∉ t.take n) :
    t'.take n = t.take n ∧ Respelled (t.drop n) (t'.drop n) := by
  induction h generalizing n with
  | nil => exact ⟨rfl, by simpa using Respelled.nil⟩
  | cut =>
    obtain rfl : n = 0 := by simpa using hn
    exact ⟨rfl, .cut⟩
  | lineEnd rest _ =>
    cases n with
    | zero => exact ⟨rfl, .lineEnd rest⟩
    | succ n => simp at hline
  | same ne rest ih =>
    cases n with
    | zero => exact ⟨rfl, .same ne rest⟩
    | succ n =>
      rw [List.take_succ_cons, List.mem_cons, not_or] at hline
      obtain ⟨htake, hdrop⟩ := ih (Nat.le_of_succ_le_succ hn) hline.2
      exact ⟨by rw [List.take_succ_cons, List.take_succ_cons, htake], hdrop⟩

/-- A run is the same in both spellings, and what is behind it is respelled. -/
theorem take_drop_run (h : Respelled t t') (hp : Inner p) :
    t'.take (runLength p t) = t.take (runLength p t) ∧
      Respelled (t.drop (runLength p t)) (t'.drop (runLength p t)) :=
  h.take_drop (runLength_le p t) (newline_notMem_run hp.1 t)

/-- A class that no line ends with has the first byte of both texts or of
neither. -/
theorem head?_any (h : Respelled t t') (hp : Inner p) : t'.head?.any p = t.head?.any p := by
  cases h with
  | nil => rfl
  | cut => exact hp.2
  | lineEnd rest => exact hp.2.trans hp.1.symm
  | same ne rest => rfl

/-- A byte that no line ends with is the first of both texts or of neither. -/
theorem head?_eq_iff (h : Respelled t t') {x : UInt8} (hx : Inner (· == x)) :
    t'.head? = some x ↔ t.head? = some x := by
  have hany : ∀ o : Option UInt8, o.any (· == x) = true ↔ o = some x := by
    intro o
    cases o <;> simp
  rw [← hany, ← hany, h.head?_any hx]

/-- Two bytes that no line ends with stand at the front of both texts or of
neither. -/
theorem front_iff (h : Respelled t t') {x : UInt8} (hx : Inner (· == x)) (hp : Inner p) :
    (∃ d rest', t' = x :: d :: rest' ∧ p d = true) ↔ ∃ d rest, t = x :: d :: rest ∧ p d = true := by
  have hany : ∀ s : Bytes, s.head?.any p = true ↔ ∃ d rest, s = d :: rest ∧ p d = true := by
    intro s
    cases s <;> simp
  cases h with
  | nil => simp
  | cut => simp
  | lineEnd rest =>
    -- neither text starts with the byte asked for
    have hr : carriageReturn ≠ x := by simpa using hx.2
    have hn : newline ≠ x := by simpa using hx.1
    simp [hr, hn]
  | @same b s s' ne rest =>
    have hsecond := rest.head?_any hp
    rw [Bool.eq_iff_iff, hany, hany] at hsecond
    simp only [List.cons.injEq]
    constructor
    · rintro ⟨d, rest', ⟨rfl, htail⟩, hd⟩
      obtain ⟨d', r, htail', hd'⟩ := hsecond.mp ⟨d, rest', htail, hd⟩
      exact ⟨d', r, ⟨rfl, htail'⟩, hd'⟩
    · rintro ⟨d, r, ⟨rfl, htail⟩, hd⟩
      obtain ⟨d', rest', htail', hd'⟩ := hsecond.mpr ⟨d, r, htail, hd⟩
      exact ⟨d', rest', ⟨rfl, htail'⟩, hd'⟩

end Respelled

-- ---------------------------------------------------------------------------
-- The rules
-- ---------------------------------------------------------------------------

namespace Rule

variable {tail tail' : Bytes} (h : Respelled tail tail')

include h

/-- A scene's name is the same in both spellings. -/
theorem sceneName?_respelled (legacy : Bool) (b : UInt8) :
    sceneName? legacy b tail' = sceneName? legacy b tail := by
  rw [sceneName?, h.runLength_eq (by decide), sceneName?]

/-- A module's name is the same in both spellings. -/
theorem modName?_respelled (b : UInt8) : modName? b tail' = modName? b tail := by
  have hp : Inner isWord := by decide
  -- the mark and the word behind the name are asked for in the text past its run
  have hqualifies : Qualifies tail' ↔ Qualifies tail := by
    rw [Qualifies, Qualifies, h.runLength_eq hp]
    exact (h.take_drop_run hp).2.front_iff (by decide) hp
  apply Option.ext
  intro m
  rw [modName?_eq_some_iff, modName?_eq_some_iff, hqualifies, h.runLength_eq hp]

/-- What stands behind a sigil is the same in both spellings. -/
theorem sigil?_respelled (legacy : Bool) (s : Sigil) :
    sigil? legacy s tail' = sigil? legacy s tail := by
  -- the first byte is looked at alone, so each way a text may start is a case
  obtain ⟨hnewline, hreturn⟩ := Sigil.inner_first legacy s
  cases h with
  | nil => rfl
  | cut => simp [sigil?, hreturn]
  | lineEnd rest => simp [sigil?, hreturn, hnewline]
  | same ne rest => simp only [sigil?, rest.runLength_eq (Sigil.inner_later legacy s)]

/-- A variable is the same in both spellings. -/
theorem variableName?_respelled (before : Option UInt8) (b : UInt8) :
    variableName? before b tail' = variableName? before b tail := by
  have hp : Inner isLetter := by decide
  obtain ⟨htake, hdrop⟩ := h.take_drop_run hp
  simp only [variableName?, h.runLength_eq hp, htake, hdrop.head?_any (by decide : Inner isWord)]

/-- A number or a roll of dice is the same in both spellings. -/
theorem number?_respelled (b : UInt8) : number? b tail' = number? b tail := by
  have hp : Inner isDigit := by decide
  have hdrop := (h.take_drop_run hp).2
  simp only [number?, h.runLength_eq hp]
  generalize tail.drop (runLength isDigit tail) = r at hdrop ⊢
  generalize tail'.drop (runLength isDigit tail) = r' at hdrop ⊢
  -- behind the digits stands a line's end, or one byte before it, or two bytes
  cases hdrop with
  | nil => rfl
  | cut => rfl
  | @lineEnd s s' rest => cases s <;> rfl
  | same ne rest =>
    cases rest with
    | nil => rfl
    | cut => simp [hp.2]
    | lineEnd rest => simp [hp.1, hp.2]
    | same ne rest => simp only [rest.runLength_eq hp]

/-- A word is taken for the same in both spellings. -/
theorem word?_respelled (before : Option UInt8) (b : UInt8) :
    word? before b tail' = word? before b tail := by
  have hp : Inner isWord := by decide
  simp only [word?, modName?_respelled h, variableName?_respelled h, number?_respelled h,
    h.runLength_eq hp, (h.take_drop_run hp).1]

/-- An equals sign is taken for the same in both spellings. -/
theorem equals?_respelled (before : Option UInt8) : equals? before tail' = equals? before tail := by
  have hx : Inner (· == byte '=') := by decide
  cases h with
  | nil => rfl
  | cut => rfl
  | lineEnd rest => rfl
  | same ne rest =>
    simp only [equals?, List.head?_cons, List.drop_succ_cons, List.drop_zero, ne_eq,
      rest.head?_eq_iff hx]

/-- A mark is the same in both spellings. -/
theorem mark?_respelled (b : UInt8) : mark? b tail' = mark? b tail := by
  simp only [mark?, h.head?_eq_iff (by decide : Inner (· == byte '>')),
    h.head?_eq_iff (by decide : Inner (· == byte '-')),
    h.head?_eq_iff (by decide : Inner (· == byte '=')),
    h.head?_eq_iff (by decide : Inner (· == byte ';'))]

/-- Every leaf is the same in both spellings. -/
theorem leaf?_respelled (legacy : Bool) (before : Option UInt8) (b : UInt8) :
    leaf? legacy before b tail' = leaf? legacy before b tail := by
  simp only [leaf?, equals?_respelled h, word?_respelled h, sigil?_respelled h, mark?_respelled h]

/-- As many bytes are skipped without a rule in both spellings. -/
theorem junk_respelled (b : UInt8) : junk b tail' = junk b tail := by
  refine h.runLength_eq ?_
  split <;> decide

end Rule

-- ---------------------------------------------------------------------------
-- The insides of regions
-- ---------------------------------------------------------------------------

/-- What a region takes a place for does not depend on how lines end, and lies
in one line. -/
structure PieceBlind (pieceAt : Option UInt8 → UInt8 → Bytes → Piece) : Prop where
  respelled : ∀ {tail tail' : Bytes}, Respelled tail tail' → ∀ before b,
                pieceAt before b tail' = pieceAt before b tail
  inLine    : ∀ before b (tail : Bytes), newline ∉ tail.take (pieceAt before b tail).more
  fits      : ∀ before b (tail : Bytes), (pieceAt before b tail).more ≤ tail.length
  cut       : ∀ before, pieceAt before carriageReturn [] = .filler ∨
                pieceAt before carriageReturn [] = .junk 0

/-- No word and no inside of a character holds a newline. -/
theorem ne_newline_of_word_or_continuation :
    ∀ x : UInt8, isWord x = true ∨ isContinuation x = true → newline ≠ x := by
  decide +kernel

/-- What a region takes at a place is not longer than the text there. -/
theorem PieceSpec.fits {pieceAt : Option UInt8 → UInt8 → Bytes → Piece} {filler : UInt8 → Bool}
    {kinds : List Kind} {width : Nat} (hp : PieceSpec pieceAt filler kinds width)
    (before : Option UInt8) (b : UInt8) (tail : Bytes) :
    (pieceAt before b tail).more ≤ tail.length := by
  cases h : pieceAt before b tail with
  | close more => exact (hp.of_close h).2
  | filler => exact Nat.zero_le _
  | leaf m => exact (hp.of_leaf h).2
  | junk more => exact (hp.of_junk h).1

/-- Arguments are read alike in both spellings. -/
theorem argsPiece_blind (legacy : Bool) : PieceBlind (argsPiece legacy) := by
  refine ⟨?_, ?_, (argsPiece_spec legacy).fits, fun _ => Or.inl rfl⟩
  · intro tail tail' h before b
    simp only [argsPiece, Rule.sigil?_respelled h, Rule.number?_respelled h,
      Rule.variableName?_respelled h, Rule.junk_respelled h, h.head?_any (by decide : Inner isWord)]
  · intro before b tail hmem
    rcases argsPiece_isClose legacy before b tail with ⟨hclose, -⟩ | ⟨hopen, -⟩
    · -- a bracket alone
      simp [hclose, Piece.more] at hmem
    · -- in a leaf and in junk, all bytes but the first are of words or inside characters
      exact ne_newline_of_word_or_continuation newline
        (argsPiece_later legacy before b tail hopen newline hmem) rfl

/-- Templates are read alike in both spellings. -/
theorem templatePiece_blind : PieceBlind templatePiece := by
  refine ⟨?_, ?_, templatePiece_spec.fits, fun _ => Or.inr rfl⟩
  · intro tail tail' h before b
    simp only [templatePiece, Rule.variableName?_respelled h, Rule.junk_respelled h,
      h.head?_eq_iff (by decide : Inner (· == closeBrace))]
  · intro before b tail hmem
    rcases templatePiece_isClose before b tail with ⟨hclose, -, hhead⟩ | ⟨hopen, -⟩
    · -- the second closing brace
      rw [hclose] at hmem
      exact Rule.newline_notMem_take_one hhead (by decide) hmem
    · exact ne_newline_of_word_or_continuation newline
        (templatePiece_later before b tail hopen newline hmem) rfl

end StoryLex
