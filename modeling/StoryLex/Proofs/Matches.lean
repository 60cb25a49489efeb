import Mathlib.Data.FinEnum
import StoryLex.Region
import StoryLex.Proofs.Places

/-!
# StoryLex — what the rules can answer

A rule says the kind of a token and how many bytes it takes, and nothing in
its type keeps it from taking more than there is or from naming any kind it
likes. This module says once what each rule can answer, so that no later proof
opens a rule again.

* `Rule.leaf?_cases`, `Rule.word?_cases` — which rule gave the answer.
* `Rule.leaf?_fits`, `Rule.leaf?_inLine` — a match lies in the text, and in
  one line of it.
* `Rule.leaf?_kind` — its kind is no region's, is not the end of the input,
  and is none of the kinds that only an expectation lets through.
* `PieceSpec` — the same for what stands inside a region: what is filler, what
  is junk, which tokens there are and how long the closing mark is
  (`argsPiece_spec`, `templatePiece_spec`).
-/

namespace StoryLex

/-- The kinds of token that are only found where the token before expects them. -/
def Kind.isExpected : Kind → Bool
  | sceneName | modSep | sceneArgs => true
  | _ => false

theorem Sigil.first_newline (legacy : Bool) (s : Sigil) : s.first legacy newline = false := by
  cases legacy <;> cases s <;> decide

theorem Sigil.later_newline (legacy : Bool) (s : Sigil) : s.later legacy newline = false := by
  cases legacy <;> cases s <;> decide

namespace Rule

variable {legacy : Bool} {before : Option UInt8} {b : UInt8} {tail : Bytes} {m : Match}

-- ---------------------------------------------------------------------------
-- Names and numbers
-- ---------------------------------------------------------------------------

/-- A scene's name goes to the end of its word. -/
theorem sceneName?_eq_some_iff :
    sceneName? legacy b tail = some m ↔
      (if legacy then isWord b else isLower b) = true ∧
        m = ⟨.sceneName, runLength isWord tail⟩ := by
  rw [sceneName?, Option.ite_none_right_eq_some, Option.some.injEq, @eq_comm _ _ m]

theorem sceneName?_fits (h : sceneName? legacy b tail = some m) : m.more ≤ tail.length := by
  obtain ⟨-, rfl⟩ := sceneName?_eq_some_iff.mp h
  exact runLength_le _ _

/-- Whether the word that goes on with `tail` is directly followed by a colon
and another word. -/
def Qualifies (tail : Bytes) : Prop :=
  ∃ d rest, tail.drop (runLength isWord tail) = byte ':' :: d :: rest ∧ isWord d = true

/-- A module's name is a word with a colon and another word directly behind
it. -/
theorem modName?_eq_some_iff :
    modName? b tail = some m ↔
      isLetter b = true ∧ Qualifies tail ∧ m = ⟨.modName, runLength isWord tail⟩ := by
  unfold modName? Qualifies
  by_cases hb : isLetter b = true
  · rw [if_pos hb]
    simp only [hb, true_and]
    split
    · next c d rest hdrop =>
      rw [Option.ite_none_right_eq_some, Option.some.injEq, @eq_comm _ _ m]
      simp only [hdrop, List.cons.injEq, Bool.and_eq_true, beq_iff_eq]
      constructor
      · rintro ⟨⟨rfl, hd⟩, hm⟩
        exact ⟨⟨d, rest, ⟨rfl, rfl, rfl⟩, hd⟩, hm⟩
      · rintro ⟨⟨d', rest', ⟨rfl, rfl, rfl⟩, hd⟩, hm⟩
        exact ⟨⟨rfl, hd⟩, hm⟩
    · -- fewer than two bytes are behind the word
      next hdrop =>
      constructor
      · intro h
        simp at h
      · rintro ⟨⟨d, rest, hq, -⟩, -⟩
        exact absurd hq (hdrop _ _ _)
  · simp [hb]

theorem modName?_fits (h : modName? b tail = some m) : m.more ≤ tail.length := by
  obtain ⟨-, -, rfl⟩ := modName?_eq_some_iff.mp h
  exact runLength_le _ _

/-- A name behind a sigil is a byte of the sigil's first class and as many of
its later one as follow. -/
theorem sigil?_eq_some_iff {s : Sigil} :
    sigil? legacy s tail = some m ↔
      ∃ c rest, tail = c :: rest ∧ s.first legacy c = true ∧
        m = ⟨s.kind, runLength (s.later legacy) rest + 1⟩ := by
  unfold sigil?
  cases tail with
  | nil => simp
  | cons c rest =>
    rw [Option.ite_none_right_eq_some, Option.some.injEq, @eq_comm _ _ m]
    constructor
    · rintro ⟨hc, hm⟩
      exact ⟨c, rest, rfl, hc, hm⟩
    · rintro ⟨c', rest', htail, hc, hm⟩
      cases htail
      exact ⟨hc, hm⟩

/-- The whole word `Self` stands at a place: its letters, and no word byte on
either side. -/
def IsSelf (before : Option UInt8) (b : UInt8) (tail : Bytes) : Prop :=
  b :: tail.take (runLength isLetter tail) = ascii "Self" ∧ atWordStart before = true ∧
    (tail.drop (runLength isLetter tail)).head?.any isWord = false

/-- A capital letter starts a variable, which goes on with letters, unless they
are the whole word `Self`. -/
theorem variableName?_eq_some_iff :
    variableName? before b tail = some m ↔
      isUpper b = true ∧ m.more = runLength isLetter tail ∧
        (m.kind = .reserved ∧ IsSelf before b tail ∨
          m.kind = .variableName ∧ ¬ IsSelf before b tail) := by
  unfold variableName?
  by_cases hb : isUpper b = true
  · -- the test of the rule is that the whole word stands there
    have hself : (b :: tail.take (runLength isLetter tail) = ascii "Self" &&
        (atWordStart before && !(tail.drop (runLength isLetter tail)).head?.any isWord)) = true ↔
          IsSelf before b tail := by
      simp [IsSelf]
    obtain ⟨kind, more⟩ := m
    simp only [hb, if_true, Option.some.injEq, Match.mk.injEq, true_and]
    by_cases hs : IsSelf before b tail
    · rw [if_pos (hself.mpr hs)]
      simp [hs, eq_comm, and_comm]
    · rw [if_neg (mt hself.mp hs)]
      simp [hs, eq_comm, and_comm]
  · simp [hb]

/-- A variable, or `Self`, goes on as long as there are letters. -/
theorem variableName?_more (h : variableName? before b tail = some m) :
    m.more = runLength isLetter tail :=
  (variableName?_eq_some_iff.mp h).2.1

/-- What starts with a capital letter is a variable or the reserved word. -/
theorem variableName?_kind (h : variableName? before b tail = some m) :
    m.kind = .reserved ∨ m.kind = .variableName := by
  rcases (variableName?_eq_some_iff.mp h).2.2 with ⟨hk, -⟩ | ⟨hk, -⟩
  · exact Or.inl hk
  · exact Or.inr hk

/-- A `d` and a digit follow the digits that go on with `tail`. -/
def IsRoll (tail : Bytes) : Prop :=
  ∃ d rest, tail.drop (runLength isDigit tail) = byte 'd' :: d :: rest ∧ isDigit d = true

/-- A digit starts a number, which is a roll of dice if a `d` and a digit follow
its digits. -/
theorem number?_eq_some (h : number? b tail = some m) :
    isDigit b = true ∧
      ((∃ d rest, tail.drop (runLength isDigit tail) = byte 'd' :: d :: rest ∧ isDigit d = true ∧
          m = ⟨.random, runLength isDigit tail + 2 + runLength isDigit rest⟩) ∨
        ¬ IsRoll tail ∧ m = ⟨.number, runLength isDigit tail⟩) := by
  unfold number? at h
  split at h
  · next hb =>
    refine ⟨hb, ?_⟩
    dsimp only at h
    split at h
    · next c d rest hdrop =>
      split at h
      · -- a `d` and a digit
        next hcd =>
        simp only [Bool.and_eq_true, beq_iff_eq] at hcd
        obtain ⟨rfl, hd⟩ := hcd
        exact Or.inl ⟨d, rest, hdrop, hd, (Option.some.inj h).symm⟩
      · next hcd =>
        -- two bytes, but not a `d` and a digit
        refine Or.inr ⟨?_, (Option.some.inj h).symm⟩
        rintro ⟨d', rest', hroll, hd'⟩
        rw [hdrop] at hroll
        cases hroll
        simp [hd'] at hcd
    · next hdrop =>
      refine Or.inr ⟨?_, (Option.some.inj h).symm⟩
      rintro ⟨d, rest, hroll, -⟩
      exact hdrop _ _ _ hroll
  · simp at h

/-- A dice roll lies in the text: its second row of digits is what is left
after the `d` and the first digit behind it. -/
theorem number?_fits (h : number? b tail = some m) : m.more ≤ tail.length := by
  obtain ⟨-, ⟨d, rest, hdrop, -, rfl⟩ | ⟨-, rfl⟩⟩ := number?_eq_some h
  · have hlen := congrArg List.length hdrop
    have hrest := runLength_le isDigit rest
    simp only [List.length_drop, List.length_cons] at hlen
    dsimp only
    omega
  · exact runLength_le _ _

-- ---------------------------------------------------------------------------
-- Words
-- ---------------------------------------------------------------------------

/-- The words that stand for themselves, by their kinds. -/
theorem keyword?_eq_some {word : Bytes} {k : Kind} (h : keyword? word = some k) :
    (k = .reserved ∧ word = ascii "_") ∨ (k = .keywordFrom ∧ word = ascii "from") ∨
      (k = .keywordMatch ∧ word ∈ matchKeywords) ∨
      (k = .keywordCommand ∧ word ∈ commandKeywords) := by
  unfold keyword? at h
  repeat' split at h
  all_goals simp_all

/-- A word byte outside all regions starts a module's name; or else a variable,
a number or, at the start of a word, a word that stands for itself. -/
theorem word?_cases (h : word? before b tail = some m) :
    modName? b tail = some m ∨
      modName? b tail = none ∧
        (variableName? before b tail = some m ∨ number? b tail = some m ∨
          atWordStart before = true ∧
            ∃ k, keyword? (b :: tail.take (runLength isWord tail)) = some k ∧
              m = ⟨k, runLength isWord tail⟩) := by
  unfold word? at h
  simp only [Option.orElse_eq_orElse, Option.orElse_eq_or, Option.or_eq_some_iff] at h
  rcases h with h | ⟨hmod, h⟩
  · exact Or.inl h
  refine Or.inr ⟨hmod, ?_⟩
  rcases h with h | ⟨-, h⟩
  · exact Or.inl h
  rcases h with h | ⟨-, h⟩
  · exact Or.inr (Or.inl h)
  split at h
  · next hstart =>
    obtain ⟨k, hk, rfl⟩ := Option.map_eq_some_iff.mp h
    exact Or.inr (Or.inr ⟨hstart, k, hk, rfl⟩)
  · simp at h

/-- A word lies in the text, whatever it stands for. -/
theorem word?_fits (h : word? before b tail = some m) : m.more ≤ tail.length := by
  rcases word?_cases h with h | ⟨-, h | h | ⟨-, k, -, rfl⟩⟩
  · exact modName?_fits h
  · rw [variableName?_more h]
    exact runLength_le _ _
  · exact number?_fits h
  · exact runLength_le _ _

-- ---------------------------------------------------------------------------
-- Marks
-- ---------------------------------------------------------------------------

/-- A mark of two bytes is only found where its second byte stands. -/
theorem length_pos_of_head? {c : UInt8} (h : tail.head? = some c) : 1 ≤ tail.length := by
  cases tail with
  | nil => simp at h
  | cons c rest => simp

/-- One equals sign that stands alone, or two at the start of a line. -/
theorem equals?_eq_some (h : equals? before tail = some m) :
    before ≠ some (byte '=') ∧
      (tail.head? ≠ some (byte '=') ∧ m = ⟨.equals, 0⟩ ∨
        tail.head? = some (byte '=') ∧ (tail.drop 1).head? ≠ some (byte '=') ∧
          atLineStart before = true ∧ m = ⟨.sceneDef, 1⟩) := by
  unfold equals? at h
  split at h
  · simp at h
  · next hbefore =>
    refine ⟨hbefore, ?_⟩
    split at h
    · next hnext => exact Or.inl ⟨hnext, (Option.some.inj h).symm⟩
    · next hnext =>
      split at h
      · next hline =>
        rw [Bool.and_eq_true, decide_eq_true_eq] at hline
        exact Or.inr ⟨not_not.mp hnext, hline.1, hline.2, (Option.some.inj h).symm⟩
      · simp at h

/-- What each mark stands for, by the byte behind it. -/
theorem mark?_eq_some (h : mark? b tail = some m) :
    (b = byte '-' ∧ tail.head? = some (byte '>') ∧ m = ⟨.divert, 1⟩) ∨
      (b = byte '-' ∧ tail.head? ≠ some (byte '>') ∧ m = ⟨.arithmetic, 0⟩) ∨
      ((b = byte '+' ∨ b = byte '*') ∧ m = ⟨.arithmetic, 0⟩) ∨
      (b = byte '<' ∧ tail.head? = some (byte '-') ∧ m = ⟨.send, 1⟩) ∨
      (b = byte '<' ∧ tail.head? = some (byte '=') ∧ m = ⟨.arithmetic, 1⟩) ∨
      (b = byte '<' ∧ tail.head? ≠ some (byte '-') ∧ tail.head? ≠ some (byte '=') ∧
        m = ⟨.arithmetic, 0⟩) ∨
      (b = byte '|' ∧ m = ⟨.choice, 0⟩) ∨
      (b = byte ';' ∧ tail.head? = some (byte ';') ∧ m = ⟨.endMark, 1⟩) := by
  unfold mark? at h
  dsimp only at h
  repeat' split at h
  all_goals simp_all

theorem mark?_kind (h : mark? b tail = some m) :
    m.kind = .divert ∨ m.kind = .arithmetic ∨ m.kind = .send ∨ m.kind = .choice ∨
      m.kind = .endMark := by
  rcases mark?_eq_some h with ⟨-, -, rfl⟩ | ⟨-, -, rfl⟩ | ⟨-, rfl⟩ | ⟨-, -, rfl⟩ | ⟨-, -, rfl⟩ |
    ⟨-, -, -, rfl⟩ | ⟨-, rfl⟩ | ⟨-, -, rfl⟩ <;> simp

/-- A mark is one byte, or two of which the second is no newline. -/
theorem mark?_more (h : mark? b tail = some m) :
    m.more = 0 ∨ m.more = 1 ∧ ∃ c ≠ newline, tail.head? = some c := by
  rcases mark?_eq_some h with ⟨-, hc, rfl⟩ | ⟨-, -, rfl⟩ | ⟨-, rfl⟩ | ⟨-, hc, rfl⟩ |
    ⟨-, hc, rfl⟩ | ⟨-, -, -, rfl⟩ | ⟨-, rfl⟩ | ⟨-, hc, rfl⟩
  · exact Or.inr ⟨rfl, _, by decide, hc⟩
  · exact Or.inl rfl
  · exact Or.inl rfl
  · exact Or.inr ⟨rfl, _, by decide, hc⟩
  · exact Or.inr ⟨rfl, _, by decide, hc⟩
  · exact Or.inl rfl
  · exact Or.inl rfl
  · exact Or.inr ⟨rfl, _, by decide, hc⟩

-- ---------------------------------------------------------------------------
-- The general rules
-- ---------------------------------------------------------------------------

/-- Which of the general rules gave an answer. -/
theorem leaf?_cases (h : leaf? legacy before b tail = some m) :
    b = byte '=' ∧ equals? before tail = some m ∨
      isWord b = true ∧ word? before b tail = some m ∨
      (∃ s, Sigil.ofByte? b = some s ∧ sigil? legacy s tail = some m) ∨
      mark? b tail = some m := by
  unfold leaf? at h
  split at h
  · next hb => exact Or.inl ⟨beq_iff_eq.mp hb, h⟩
  · split at h
    · next hb => exact Or.inr (Or.inl ⟨hb, h⟩)
    · split at h
      · next s hs => exact Or.inr (Or.inr (Or.inl ⟨s, hs, h⟩))
      · exact Or.inr (Or.inr (Or.inr h))

theorem sigil?_fits {s : Sigil} (h : sigil? legacy s tail = some m) : m.more ≤ tail.length := by
  obtain ⟨c, rest, rfl, -, rfl⟩ := sigil?_eq_some_iff.mp h
  exact Nat.succ_le_succ (runLength_le _ _)

/-- A match lies in the text. -/
theorem leaf?_fits (h : leaf? legacy before b tail = some m) : m.more ≤ tail.length := by
  rcases leaf?_cases h with ⟨-, h⟩ | ⟨-, h⟩ | ⟨s, -, h⟩ | h
  · obtain ⟨-, ⟨-, rfl⟩ | ⟨hnext, -, -, rfl⟩⟩ := equals?_eq_some h
    · exact Nat.zero_le _
    · exact length_pos_of_head? hnext
  · exact word?_fits h
  · exact sigil?_fits h
  · obtain hm | ⟨hm, c, -, hc⟩ := mark?_more h
    · omega
    · have := length_pos_of_head? hc
      omega

/-- No general rule makes a region, the end of the input, or what only an
expectation lets through; and a module's name is one by its own rule. -/
theorem leaf?_kind (h : leaf? legacy before b tail = some m) :
    m.kind.isRegion = false ∧ m.kind.isExpected = false ∧ m.kind ≠ .eof ∧
      (m.kind = .modName → modName? b tail = some m) := by
  rcases leaf?_cases h with ⟨-, h⟩ | ⟨-, h⟩ | ⟨s, -, h⟩ | h
  · obtain ⟨-, ⟨-, rfl⟩ | ⟨-, -, -, rfl⟩⟩ := equals?_eq_some h <;>
      simp [Kind.isRegion, Kind.isExpected]
  · rcases word?_cases h with h | ⟨-, h | h | ⟨-, k, hk, rfl⟩⟩
    · obtain ⟨-, -, rfl⟩ := modName?_eq_some_iff.mp h
      exact ⟨rfl, rfl, by simp, fun _ => h⟩
    · rcases variableName?_kind h with hk | hk <;>
        simp [hk, Kind.isRegion, Kind.isExpected]
    · obtain ⟨-, ⟨-, -, -, -, rfl⟩ | ⟨-, rfl⟩⟩ := number?_eq_some h <;>
        simp [Kind.isRegion, Kind.isExpected]
    · rcases keyword?_eq_some hk with ⟨rfl, -⟩ | ⟨rfl, -⟩ | ⟨rfl, -⟩ | ⟨rfl, -⟩ <;>
        simp [Kind.isRegion, Kind.isExpected]
  · obtain ⟨-, -, -, -, rfl⟩ := sigil?_eq_some_iff.mp h
    cases s <;> simp [Sigil.kind, Kind.isRegion, Kind.isExpected]
  · rcases mark?_kind h with hk | hk | hk | hk | hk <;>
      simp [hk, Kind.isRegion, Kind.isExpected]

-- ---------------------------------------------------------------------------
-- Lines
-- ---------------------------------------------------------------------------

theorem isWord_of_isLetter {b : UInt8} (h : isLetter b = true) : isWord b = true := by
  simp [isWord, h]

/-- In either revision a scene's name starts with a byte of a word. -/
theorem isWord_of_sceneStart (h : (if legacy then isWord b else isLower b) = true) :
    isWord b = true := by
  cases legacy with
  | true => exact h
  | false =>
    have hb : isLower b = true := h
    simp [isWord, isLetter, hb]

/-- A whole word stays in its line. -/
theorem word_inLine (hb : isWord b = true) (tail : Bytes) :
    newline ∉ b :: tail.take (runLength isWord tail) := by
  rw [List.mem_cons, not_or]
  refine ⟨?_, newline_notMem_run (by decide) tail⟩
  rintro rfl
  exact absurd hb (by decide)

/-- No general rule matches a newline. -/
theorem leaf?_newline (legacy : Bool) (before : Option UInt8) (tail : Bytes) :
    leaf? legacy before newline tail = none := rfl

/-- A name behind a sigil stays in its line. -/
theorem sigil?_inLine {s : Sigil} (h : sigil? legacy s tail = some m) :
    newline ∉ tail.take m.more := by
  obtain ⟨c, rest, rfl, hc, rfl⟩ := sigil?_eq_some_iff.mp h
  rw [List.take_succ_cons, List.mem_cons, not_or]
  refine ⟨?_, newline_notMem_run (Sigil.later_newline legacy s) rest⟩
  rintro rfl
  rw [Sigil.first_newline] at hc
  simp at hc

/-- A number or a roll of dice stays in its line. -/
theorem number?_inLine (h : number? b tail = some m) : newline ∉ tail.take m.more := by
  obtain ⟨-, ⟨d, rest, hdrop, hd, rfl⟩ | ⟨-, rfl⟩⟩ := number?_eq_some h
  · -- the first digits, the `d` with a digit behind it, and the last digits
    rw [Nat.add_assoc, List.take_add, hdrop, Nat.add_comm 2, List.take_succ_cons,
      List.take_succ_cons, List.mem_append, List.mem_cons, List.mem_cons]
    rintro (h | h | rfl | h)
    · exact newline_notMem_run (by decide) tail h
    · exact absurd h (by decide)
    · exact absurd hd (by decide)
    · exact newline_notMem_run (by decide) rest h
  · exact newline_notMem_run (by decide) tail

/-- A word stays in its line, whatever it stands for. -/
theorem word?_inLine (h : word? before b tail = some m) : newline ∉ tail.take m.more := by
  rcases word?_cases h with h | ⟨-, h | h | ⟨-, k, -, rfl⟩⟩
  · obtain ⟨-, -, rfl⟩ := modName?_eq_some_iff.mp h
    exact newline_notMem_run (by decide) tail
  · rw [variableName?_more h]
    exact newline_notMem_run (by decide) tail
  · exact number?_inLine h
  · exact newline_notMem_run (by decide) tail

/-- A mark's second byte, if it takes one, is no newline. -/
theorem newline_notMem_take_one {c : UInt8} (h : tail.head? = some c) (hc : c ≠ newline) :
    newline ∉ tail.take 1 := by
  obtain ⟨rest, rfl⟩ := List.head?_eq_some_iff.mp h
  simpa using hc.symm

/-- A match lies in its line. -/
theorem leaf?_inLine (h : leaf? legacy before b tail = some m) :
    newline ∉ b :: tail.take m.more := by
  rw [List.mem_cons, not_or]
  refine ⟨?_, ?_⟩
  · -- the first byte is no newline, for no rule matches one
    rintro rfl
    rw [leaf?_newline] at h
    simp at h
  · rcases leaf?_cases h with ⟨-, h⟩ | ⟨-, h⟩ | ⟨s, -, h⟩ | h
    · obtain ⟨-, ⟨-, rfl⟩ | ⟨hnext, -, -, rfl⟩⟩ := equals?_eq_some h
      · simp
      · exact newline_notMem_take_one hnext (by decide)
    · exact word?_inLine h
    · exact sigil?_inLine h
    · obtain hm | ⟨hm, c, hne, hc⟩ := mark?_more h
      · simp [hm]
      · rw [hm]
        exact newline_notMem_take_one hc hne

-- ---------------------------------------------------------------------------
-- Junk
-- ---------------------------------------------------------------------------

theorem junk_le (b : UInt8) (tail : Bytes) : junk b tail ≤ tail.length := runLength_le _ _

/-- What is skipped behind the first byte goes on with a word or a character. -/
theorem of_mem_junk {x : UInt8} (h : x ∈ tail.take (junk b tail)) :
    isWord x = true ∨ isContinuation x = true := by
  unfold junk at h
  split at h
  · exact Or.inl (of_mem_take_runLength h)
  · exact Or.inr (of_mem_take_runLength h)

/-- Neither words nor the insides of characters hold white space or commas. -/
theorem not_space_of_word_or_continuation :
    ∀ x : UInt8, isWord x = true ∨ isContinuation x = true →
      isSpace x = false ∧ isBlank x = false ∧ (x == byte ',') = false := by
  decide +kernel

end Rule

-- ---------------------------------------------------------------------------
-- The insides of regions
-- ---------------------------------------------------------------------------

/-- What the inside of a region is made of, as the region takes it: bytes of
the class `filler`, tokens of the given `kinds`, junk that holds no filler,
and a closing mark of `width` bytes. -/
structure PieceSpec (pieceAt : Option UInt8 → UInt8 → Bytes → Piece) (filler : UInt8 → Bool)
    (kinds : List Kind) (width : Nat) : Prop where
  of_close  : ∀ {before b tail more}, pieceAt before b tail = .close more →
                more + 1 = width ∧ more ≤ tail.length
  of_filler : ∀ {before b tail}, pieceAt before b tail = .filler → filler b = true
  of_leaf   : ∀ {before b tail m}, pieceAt before b tail = .leaf m →
                m.kind ∈ kinds ∧ m.more ≤ tail.length
  of_junk   : ∀ {before b tail more}, pieceAt before b tail = .junk more →
                more ≤ tail.length ∧ ∀ x ∈ b :: tail.take more, filler x = false

/-- The bytes that an argument list takes for separators. -/
def isArgsFiller (b : UInt8) : Bool := b == byte ',' || isSpace b

/-- The kinds of token in an argument list. -/
def argKinds : List Kind := [.atom, .random, .number, .variableName, .reserved]

/-- The token of an argument list at a place, if there is one. -/
theorem argsPiece_leaf {legacy : Bool} {before : Option UInt8} {b : UInt8} {tail : Bytes}
    {m : Match} (h : argsPiece legacy before b tail = .leaf m) :
    (b = byte '#' ∧ Rule.sigil? legacy .atom tail = some m) ∨
      (b = byte '_' ∧ atWordStart before = true ∧ tail.head?.any isWord = false ∧
        m = ⟨.reserved, 0⟩) ∨
      Rule.number? b tail = some m ∨ Rule.variableName? before b tail = some m := by
  unfold argsPiece at h
  dsimp only at h
  split at h
  · simp at h
  split at h
  · simp at h
  split at h
  · next m' hm =>
    cases h
    split at hm
    · next hb => exact Or.inl ⟨beq_iff_eq.mp hb, hm⟩
    split at hm
    · next hb =>
      split at hm
      · next hwhole =>
        rw [Bool.and_eq_true, Bool.not_eq_true'] at hwhole
        exact Or.inr (Or.inl
          ⟨beq_iff_eq.mp hb, hwhole.1, hwhole.2, (Option.some.inj hm).symm⟩)
      · simp at hm
    · simp only [Option.orElse_eq_orElse, Option.orElse_eq_or, Option.or_eq_some_iff] at hm
      rcases hm with hm | ⟨-, hm⟩
      · exact Or.inr (Or.inr (Or.inl hm))
      · exact Or.inr (Or.inr (Or.inr hm))
  · simp at h

/-- What an argument list has no rule for. -/
theorem argsPiece_junk {legacy : Bool} {before : Option UInt8} {b : UInt8} {tail : Bytes}
    {more : Nat} (h : argsPiece legacy before b tail = .junk more) :
    more = Rule.junk b tail ∧ b ≠ byte ')' ∧ isArgsFiller b = false ∧
      (b = byte '#' → Rule.sigil? legacy .atom tail = none) ∧
      (b = byte '_' → atWordStart before = false ∨ tail.head?.any isWord = true) ∧
      (b ≠ byte '#' → b ≠ byte '_' →
        Rule.number? b tail = none ∧ Rule.variableName? before b tail = none) := by
  unfold argsPiece at h
  dsimp only at h
  split at h
  · simp at h
  next hclose =>
  split at h
  · simp at h
  next hfiller =>
  split at h
  · simp at h
  next hfound =>
  cases h
  refine ⟨rfl, by simpa using hclose, by simpa [isArgsFiller] using hfiller, ?_, ?_, ?_⟩
  · -- a hash with no name behind it
    rintro rfl
    simpa using hfound
  · -- an underscore within a word
    rintro rfl
    rw [if_neg (by decide), if_pos (by decide)] at hfound
    have hwhole : ¬ (atWordStart before && !tail.head?.any isWord) = true := by
      simpa using hfound
    simpa [imp_iff_not_or] using hwhole
  · -- a byte of neither kind, which the two other rules have turned down
    intro hhash hunder
    rw [if_neg (by simpa using hhash), if_neg (by simpa using hunder)] at hfound
    simpa [Option.orElse_eq_orElse, Option.orElse_eq_or] using hfound

/-- An argument list is made of separators, its tokens, junk and a closing
bracket. -/
theorem argsPiece_spec (legacy : Bool) :
    PieceSpec (argsPiece legacy) isArgsFiller argKinds 1 := by
  refine ⟨?_, ?_, ?_, ?_⟩
  · intro before b tail more h
    unfold argsPiece at h
    split at h
    · cases h
      exact ⟨rfl, Nat.zero_le _⟩
    · dsimp only at h
      repeat' split at h
      all_goals simp at h
  · intro before b tail h
    unfold argsPiece at h
    dsimp only at h
    repeat' split at h
    all_goals simp_all [isArgsFiller]
  · intro before b tail m h
    rcases argsPiece_leaf h with ⟨-, h⟩ | ⟨-, -, -, rfl⟩ | h | h
    · refine ⟨?_, Rule.sigil?_fits h⟩
      obtain ⟨-, -, -, -, rfl⟩ := Rule.sigil?_eq_some_iff.mp h
      simp [Sigil.kind, argKinds]
    · simp [argKinds]
    · refine ⟨?_, Rule.number?_fits h⟩
      obtain ⟨-, ⟨-, -, -, -, rfl⟩ | ⟨-, rfl⟩⟩ := Rule.number?_eq_some h <;> simp [argKinds]
    · refine ⟨?_, Rule.variableName?_more h ▸ runLength_le _ _⟩
      rcases Rule.variableName?_kind h with hk | hk <;> simp [hk, argKinds]
  · intro before b tail more h
    obtain ⟨rfl, -, hb, -⟩ := argsPiece_junk h
    refine ⟨Rule.junk_le b tail, ?_⟩
    intro x hx
    rcases List.mem_cons.mp hx with rfl | hx
    · exact hb
    · -- a word goes on with bytes of words, a character with its inside
      have := Rule.not_space_of_word_or_continuation x (Rule.of_mem_junk hx)
      simp [isArgsFiller, this]

/-- The token of a template at a place, if there is one. -/
theorem templatePiece_leaf {before : Option UInt8} {b : UInt8} {tail : Bytes} {m : Match}
    (h : templatePiece before b tail = .leaf m) :
    Rule.variableName? before b tail = some m ∧ m.kind = .variableName := by
  unfold templatePiece at h
  split at h
  · simp at h
  split at h
  · simp at h
  split at h
  · next more hv =>
    cases h
    exact ⟨hv, rfl⟩
  · simp at h

/-- What a template has no rule for. -/
theorem templatePiece_junk {before : Option UInt8} {b : UInt8} {tail : Bytes} {more : Nat}
    (h : templatePiece before b tail = .junk more) :
    more = Rule.junk b tail ∧ ¬ (b = closeBrace ∧ tail.head? = some closeBrace) ∧
      isBlank b = false ∧ (isUpper b = true → Rule.IsSelf before b tail) := by
  unfold templatePiece at h
  split at h
  · simp at h
  next hclose =>
  split at h
  · simp at h
  next hblank =>
  split at h
  · simp at h
  next hfound =>
  cases h
  refine ⟨rfl, by simpa using hclose, by simpa using hblank, ?_⟩
  intro hb
  -- were it not `Self` on its own, a variable would have been found
  by_contra hself
  exact hfound _ (Rule.variableName?_eq_some_iff.mpr ⟨hb, rfl, Or.inr ⟨rfl, hself⟩⟩)

/-- A template is made of blanks, variables, junk and two closing braces. -/
theorem templatePiece_spec : PieceSpec templatePiece isBlank [.variableName] 2 := by
  refine ⟨?_, ?_, ?_, ?_⟩
  · intro before b tail more h
    unfold templatePiece at h
    split at h
    · next hclose =>
      cases h
      rw [Bool.and_eq_true, decide_eq_true_eq] at hclose
      exact ⟨rfl, Rule.length_pos_of_head? hclose.2⟩
    · repeat' split at h
      all_goals simp at h
  · intro before b tail h
    unfold templatePiece at h
    repeat' split at h
    all_goals simp_all
  · intro before b tail m h
    obtain ⟨hv, hk⟩ := templatePiece_leaf h
    exact ⟨by simp [hk], Rule.variableName?_more hv ▸ runLength_le _ _⟩
  · intro before b tail more h
    obtain ⟨rfl, -, hb, -⟩ := templatePiece_junk h
    refine ⟨Rule.junk_le b tail, ?_⟩
    intro x hx
    rcases List.mem_cons.mp hx with rfl | hx
    · exact hb
    · exact (Rule.not_space_of_word_or_continuation x (Rule.of_mem_junk hx)).2.1

end StoryLex
