import StoryLex.Proofs.Spelling

/-!
# StoryLex — where no rule applies

The rules are asked in turn, and what none of them answers to is skipped. This
module says at which places that happens, for each of the three contexts in
which rules are asked: outside all tokens (`IdleOutside`), in an argument list
(`IdleInArgs`) and in a template (`IdleInTemplate`). The conditions are on the
byte at the place, the byte before it and the text behind it, and do not
mention the rules.

* `general?_idle` — what the general rules leave over.
* `argsPiece_idle`, `templatePiece_idle` — what the two regions leave over.
-/

namespace StoryLex

-- ---------------------------------------------------------------------------
-- Idle places
-- ---------------------------------------------------------------------------

/-- The words that stand for themselves. -/
def reservedWords : List Bytes := ascii "_" :: ascii "from" :: (matchKeywords ++ commandKeywords)

/-- No rule for tokens outside all regions applies to the byte `b`, between the
byte `before` it and the text `tail` behind it. -/
structure IdleOutside (legacy : Bool) (before : Option UInt8) (b : UInt8) (tail : Bytes) :
    Prop where
  space     : isSpace b = false
  mark      : b ∉ ascii "+*|<-"
  equals    : b = byte '=' → before = some (byte '=') ∨
                tail.head? = some (byte '=') ∧
                  (tail[1]? = some (byte '=') ∨ atLineStart before = false)
  lowerName : b = 0x27 ∨ b = byte '#' →
                tail.head?.any (if legacy then isWord else isLower) = false
  upperName : b = byte '?' → tail.head?.any (if legacy then isWord else isUpper) = false
  string    : b = byte '>' → tail.head? ≠ some (byte ' ')
  endMark   : b = byte ';' → tail.head? ≠ some (byte ';')
  wordStart : isWord b = true → isLower b = true ∨ b = byte '_'
  modName   : isLetter b = true → ¬ Rule.Qualifies tail
  keyword   : isWord b = true →
                before.any isWord = true ∨ b :: tail.takeWhile isWord ∉ reservedWords

/-- No rule of an argument list applies. -/
structure IdleInArgs (legacy : Bool) (before : Option UInt8) (b : UInt8) (tail : Bytes) :
    Prop where
  close      : b ≠ byte ')'
  comma      : b ≠ byte ','
  space      : isSpace b = false
  atom       : b = byte '#' → tail.head?.any (if legacy then isWord else isLower) = false
  number     : isDigit b = false
  varName    : isUpper b = false
  underscore : b = byte '_' → before.any isWord = true ∨ tail.head?.any isWord = true

/-- No rule of a template applies: what looks like a variable is the whole word
`Self`, which a template cannot name. -/
structure IdleInTemplate (before : Option UInt8) (b : UInt8) (tail : Bytes) : Prop where
  inLine   : b ≠ newline
  close    : b = closeBrace → tail.head? ≠ some closeBrace
  blank    : isBlank b = false
  varName  : isUpper b = true →
               before.any isWord = false ∧ b :: tail.takeWhile isWord = ascii "Self"

-- ---------------------------------------------------------------------------
-- Sigils
-- ---------------------------------------------------------------------------

namespace Sigil

/-- A label starts with a small letter, or in the older revision with any byte
of a word. -/
theorem first_label (legacy : Bool) :
    label.first legacy = if legacy then isWord else isLower := by
  cases legacy <;> rfl

theorem first_atom (legacy : Bool) : atom.first legacy = if legacy then isWord else isLower := by
  cases legacy <;> rfl

/-- A macro's name starts with a capital letter, or in the older revision with
any byte of a word. -/
theorem first_macroName (legacy : Bool) :
    macroName.first legacy = if legacy then isWord else isUpper := by
  cases legacy <;> rfl

end Sigil

namespace Rule

variable {legacy : Bool} {before : Option UInt8} {b : UInt8} {tail : Bytes}

-- ---------------------------------------------------------------------------
-- Names and numbers
-- ---------------------------------------------------------------------------

/-- A letter starts no module's name where its word has no colon and word behind
it. -/
theorem modName?_eq_none_iff : modName? b tail = none ↔ (isLetter b = true → ¬ Qualifies tail) := by
  rw [Option.eq_none_iff_forall_ne_some]
  constructor
  · intro h hb hqual
    exact h _ (modName?_eq_some_iff.mpr ⟨hb, hqual, rfl⟩)
  · intro h m hm
    obtain ⟨hb, hqual, -⟩ := modName?_eq_some_iff.mp hm
    exact h hb hqual

theorem variableName?_eq_none_iff : variableName? before b tail = none ↔ isUpper b = false := by
  simp [variableName?]

/-- All but digits start no number. -/
theorem number?_eq_none_iff : number? b tail = none ↔ isDigit b = false := by
  unfold number?
  split
  · next hb =>
    dsimp only
    split
    · split <;> simp [hb]
    · simp [hb]
  · next hb => simpa using hb

/-- A sigil is left over where no name can start behind it. -/
theorem sigil?_eq_none_iff {s : Sigil} :
    sigil? legacy s tail = none ↔ tail.head?.any (s.first legacy) = false := by
  cases tail <;> simp [sigil?]

-- ---------------------------------------------------------------------------
-- Words and marks
-- ---------------------------------------------------------------------------

theorem keyword?_eq_none_iff {word : Bytes} : keyword? word = none ↔ word ∉ reservedWords := by
  unfold keyword? reservedWords
  split_ifs <;> simp_all

/-- A word that is left over is none that any of the rules takes. -/
theorem word?_eq_none (h : word? before b tail = none) :
    modName? b tail = none ∧ variableName? before b tail = none ∧ number? b tail = none ∧
      (atWordStart before = true → keyword? (b :: tail.takeWhile isWord) = none) := by
  unfold word? at h
  simp only [Option.orElse_eq_orElse, Option.orElse_eq_or, Option.or_eq_none_iff] at h
  obtain ⟨hmod, hvar, hnum, hword⟩ := h
  refine ⟨hmod, hvar, hnum, ?_⟩
  intro hstart
  rw [if_pos hstart, take_runLength] at hword
  simpa using hword

/-- An equals sign is left over behind another one, or in front of one that
heads no scene. -/
theorem equals?_eq_none (h : equals? before tail = none) :
    before = some (byte '=') ∨
      tail.head? = some (byte '=') ∧
        (tail[1]? = some (byte '=') ∨ atLineStart before = false) := by
  unfold equals? at h
  split at h
  · next hbefore => exact Or.inl hbefore
  refine Or.inr ?_
  split at h
  · simp at h
  next hnext =>
  refine ⟨not_not.mp hnext, ?_⟩
  split at h
  · simp at h
  next hthird =>
  rw [Bool.and_eq_true, decide_eq_true_eq, not_and_or, not_not, Bool.not_eq_true,
    List.head?_drop] at hthird
  exact hthird

/-- The marks of one byte are never left over, and a semicolon is unless there
are two. -/
theorem mark?_eq_none (h : mark? b tail = none) :
    b ∉ ascii "+*|<-" ∧ (b = byte ';' → tail.head? ≠ some (byte ';')) := by
  unfold mark? at h
  dsimp only at h
  repeat' split at h
  all_goals simp_all [ascii]

/-- The rules share out the bytes, so each leaves over what is its own. -/
theorem leaf?_eq_none (h : leaf? legacy before b tail = none) :
    (b = byte '=' → equals? before tail = none) ∧
      (isWord b = true → word? before b tail = none) ∧
      (∀ s, Sigil.ofByte? b = some s → sigil? legacy s tail = none) ∧
      (b ≠ byte '=' → isWord b = false → Sigil.ofByte? b = none → mark? b tail = none) := by
  -- no byte has two rules
  have hword : isWord b = true → b ≠ byte '=' := by
    rintro hb rfl
    exact absurd hb (by decide)
  have hsigil : ∀ s, Sigil.ofByte? b = some s → b ≠ byte '=' ∧ isWord b = false := by
    intro s hs
    rcases Sigil.ofByte?_eq_some hs with ⟨rfl, -⟩ | ⟨rfl, -⟩ | ⟨rfl, -⟩ <;> decide
  unfold leaf? at h
  refine ⟨?_, ?_, ?_, ?_⟩
  · rintro rfl
    exact h
  · intro hb
    rwa [if_neg (by simpa using hword hb), if_pos hb] at h
  · intro s hs
    obtain ⟨hne, hb⟩ := hsigil s hs
    rwa [if_neg (by simpa using hne), if_neg (by simp [hb]), hs] at h
  · intro hne hb hs
    rwa [if_neg (by simpa using hne), if_neg (by simp [hb]), hs] at h

end Rule

-- ---------------------------------------------------------------------------
-- The three contexts
-- ---------------------------------------------------------------------------

variable {legacy : Bool} {before : Option UInt8} {b : UInt8} {tail : Bytes} {more : Nat}

/-- A byte of a word that is no capital and no digit is a small letter or an
underscore. -/
theorem isLower_or_underscore {b : UInt8} (hb : isWord b = true) (hupper : isUpper b = false)
    (hdigit : isDigit b = false) : isLower b = true ∨ b = byte '_' := by
  simpa [isWord, isLetter, hupper, hdigit] using hb

/-- What the general rules leave over. -/
theorem general?_idle {c : Cursor} (hrest : c.rest = b :: tail) (hspace : isSpace b = false)
    (h : general? legacy c = none) : IdleOutside legacy c.before b tail := by
  rw [general?_eq hrest] at h
  split at h
  · simp at h
  split at h
  · simp at h
  next hstring =>
  obtain ⟨hequals, hword, hsigil, hmark⟩ := Rule.leaf?_eq_none (Option.map_eq_none_iff.mp h)
  have hwords := fun hb => Rule.word?_eq_none (hword hb)
  refine
    { space := hspace
      mark := ?_
      equals := fun hb => Rule.equals?_eq_none (hequals hb)
      lowerName := ?_
      upperName := ?_
      string := ?_
      endMark := ?_
      wordStart := ?_
      modName := ?_
      keyword := ?_ }
  · intro hb
    -- these bytes belong to the rule for marks, and to no other
    have hguards : ∀ x ∈ ascii "+*|<-",
        x ≠ byte '=' ∧ isWord x = false ∧ Sigil.ofByte? x = none := by decide +kernel
    obtain ⟨hne, hb', hs⟩ := hguards b hb
    exact (Rule.mark?_eq_none (hmark hne hb' hs)).1 hb
  · rintro (rfl | rfl)
    · exact Sigil.first_label legacy ▸ Rule.sigil?_eq_none_iff.mp (hsigil .label rfl)
    · exact Sigil.first_atom legacy ▸ Rule.sigil?_eq_none_iff.mp (hsigil .atom rfl)
  · rintro rfl
    exact Sigil.first_macroName legacy ▸ Rule.sigil?_eq_none_iff.mp (hsigil .macroName rfl)
  · rintro rfl
    simpa using hstring
  · rintro rfl
    exact (Rule.mark?_eq_none (hmark (by decide) rfl rfl)).2 rfl
  · intro hb
    obtain ⟨-, hvar, hnum, -⟩ := hwords hb
    exact isLower_or_underscore hb (Rule.variableName?_eq_none_iff.mp hvar)
      (Rule.number?_eq_none_iff.mp hnum)
  · intro hb
    exact Rule.modName?_eq_none_iff.mp (hwords (Rule.isWord_of_isLetter hb)).1 hb
  · intro hb
    obtain ⟨-, -, -, hkey⟩ := hwords hb
    -- inside a word no keyword is asked for
    by_cases hbefore : c.before.any isWord = true
    · exact Or.inl hbefore
    · have hstart := atWordStart_iff.mpr (Bool.not_eq_true _ ▸ hbefore)
      exact Or.inr (Rule.keyword?_eq_none_iff.mp (hkey hstart))

/-- What an argument list leaves over. -/
theorem argsPiece_idle (h : argsPiece legacy before b tail = .junk more) :
    IdleInArgs legacy before b tail := by
  obtain ⟨-, hclose, hfiller, hatom, hunder, hother⟩ := argsPiece_junk h
  rw [isArgsFiller, Bool.or_eq_false_iff, beq_eq_false_iff_ne] at hfiller
  -- a hash and an underscore are in neither class, and all else was asked for both
  have hclasses : isDigit b = false ∧ isUpper b = false := by
    by_cases hhash : b = byte '#'
    · exact hhash ▸ ⟨rfl, rfl⟩
    by_cases hscore : b = byte '_'
    · exact hscore ▸ ⟨rfl, rfl⟩
    obtain ⟨hnum, hvar⟩ := hother hhash hscore
    exact ⟨Rule.number?_eq_none_iff.mp hnum, Rule.variableName?_eq_none_iff.mp hvar⟩
  refine ⟨hclose, hfiller.1, hfiller.2, ?_, hclasses.1, hclasses.2, ?_⟩
  · intro hb
    exact Sigil.first_atom legacy ▸ Rule.sigil?_eq_none_iff.mp (hatom hb)
  · intro hb
    simpa [atWordStart] using hunder hb

/-- What a template leaves over, in its line. -/
theorem templatePiece_idle (hb : b ≠ newline) (h : templatePiece before b tail = .junk more) :
    IdleInTemplate before b tail := by
  obtain ⟨-, hclose, hblank, hself⟩ := templatePiece_junk h
  refine ⟨hb, fun hb hnext => hclose ⟨hb, hnext⟩, hblank, ?_⟩
  intro hupper
  obtain ⟨hword, hstart, hnext⟩ := hself hupper
  -- the letters of a word that has no other bytes are the whole word
  rw [take_runLength, ← takeWhile_eq_of_stop (fun _ => Rule.isWord_of_isLetter) hnext] at hword
  exact ⟨atWordStart_iff.mp hstart, hword⟩

end StoryLex
