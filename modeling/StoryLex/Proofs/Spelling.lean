import StoryLex.Proofs.Expectations

/-!
# StoryLex — how tokens are spelled

The grammar of the tokens, written down apart from the rules that look for
them. `Spelled` takes a kind, the bytes of a token, the byte before them and
the text behind them, and says what they have to be: which bytes make the
token, that it could not have gone on, and that no rule with a better claim
was passed over.

* `Rule.leaf?_spelled`, `Rule.sceneName?_spelled`, `Rule.modName?_spelled` —
  what a rule matches is spelled as its kind wants it.
* `argsPiece_spelled`, `templatePiece_spelled` — the same inside regions.
-/

namespace StoryLex

-- ---------------------------------------------------------------------------
-- The grammar
-- ---------------------------------------------------------------------------

/-- The bytes of names in snake case after the first one. -/
def isSnake (b : UInt8) : Bool := isLower b || isDigit b || b == byte '_'

/-- The bytes of names in screaming case after the first one. -/
def isScreaming (b : UInt8) : Bool := isUpper b || isDigit b || b == byte '_'

/-- A byte of the class `first` and then any number of the class `later`. -/
def Named (first later : UInt8 → Bool) (word : Bytes) : Prop :=
  ∃ b w, word = b :: w ∧ first b = true ∧ ∀ x ∈ w, later x = true

/-- A mark and a name behind it that does not go on. -/
def Marked (mark : UInt8) (first later : UInt8 → Bool) (word after : Bytes) : Prop :=
  (∃ name, word = mark :: name ∧ Named first later name) ∧ after.head?.any later = false

/-- No word goes on over either end. -/
def WholeWord (before : Option UInt8) (after : Bytes) : Prop :=
  before.any isWord = false ∧ after.head?.any isWord = false

/-- A mark and the rest of its line. -/
def ToLineEnd (mark word after : Bytes) : Prop :=
  (∃ line, word = mark ++ line ∧ newline ∉ line) ∧ after.head?.all (· == newline) = true

/-- In the first `n` bytes of a text no mark begins. -/
def Unmarked (mark text : Bytes) (n : Nat) : Prop := ∀ i < n, ¬ mark <+: text.drop i

/-- An opening mark, and all up to the first closing mark, which is there
unless the region was cut off. -/
def Enclosed (opening closing : Bytes) (cut : Bool) (word : Bytes) : Prop :=
  ∃ inside, word = opening ++ (inside ++ if cut then [] else closing) ∧
    Unmarked closing (inside ++ if cut then [] else closing) inside.length

/-- How a token is spelled: `word` is a token of the given kind, and a longest
one, between the byte `before` it and the text `after` it. -/
def Spelled (legacy cut : Bool) (before : Option UInt8) (word after : Bytes) : Kind → Prop
  | .equals =>
    word = ascii "=" ∧ before ≠ some (byte '=') ∧ after.head? ≠ some (byte '=')
  | .sceneDef =>
    word = ascii "==" ∧ atLineStart before = true ∧ after.head? ≠ some (byte '=')
  | .sceneName => Named (isSceneStart legacy) isWord word ∧ after.head?.any isWord = false
  | .sceneArgs => Enclosed (ascii "(") (ascii ")") cut word ∧ (cut = true → after = [])
  | .modName =>
    Named isLetter isWord word ∧ after.head? = some (byte ':') ∧ after[1]?.any isWord = true
  | .modSep => word = ascii ":"
  | .divert => word = ascii "->"
  | .label =>
    Marked 0x27 (if legacy then isWord else isLower) (if legacy then isWord else isSnake) word after
  | .macroName =>
    Marked (byte '?') (if legacy then isWord else isUpper)
      (if legacy then isWord else isScreaming) word after
  | .atom =>
    Marked (byte '#') (if legacy then isWord else isLower) (if legacy then isWord else isSnake)
      word after
  | .variableName =>
    Named isUpper isLetter word ∧ after.head?.any isLetter = false ∧
      (word = ascii "Self" → before.any isWord = true ∨ after.head?.any isWord = true)
  | .random =>
    (∃ count sides, word = count ++ byte 'd' :: sides ∧ Named isDigit isDigit count ∧
      Named isDigit isDigit sides) ∧ after.head?.any isDigit = false
  | .number =>
    Named isDigit isDigit word ∧ after.head?.any isDigit = false ∧
      ¬ (after.head? = some (byte 'd') ∧ after[1]?.any isDigit = true)
  | .arithmetic =>
    word = ascii "+" ∨ word = ascii "*" ∨ word = ascii "<=" ∨
      (word = ascii "-" ∧ after.head? ≠ some (byte '>') ∧ after.head? ≠ some (byte '-')) ∨
      (word = ascii "<" ∧ after.head? ≠ some (byte '-') ∧ after.head? ≠ some (byte '='))
  | .comment => ToLineEnd (ascii "--") word after
  | .string => ToLineEnd (ascii "> ") word after
  | .template =>
    Enclosed [openBrace, openBrace] [closeBrace, closeBrace] cut word ∧ newline ∉ word ∧
      (cut = true → after.head?.all (· == newline) = true)
  | .keywordMatch => word ∈ matchKeywords ∧ WholeWord before after
  | .keywordCommand => word ∈ commandKeywords ∧ WholeWord before after
  | .keywordFrom => word = ascii "from" ∧ WholeWord before after
  | .reserved => (word = ascii "_" ∨ word = ascii "Self") ∧ WholeWord before after
  | .choice => word = ascii "|"
  | .send => word = ascii "<-"
  | .endMark => word = ascii ";;"
  | .eof => word = [] ∧ after = []

-- ---------------------------------------------------------------------------
-- Names and numbers
-- ---------------------------------------------------------------------------

/-- Past the longest run of a class, the text does not go on with a byte of
it. -/
theorem head?_drop_runLength (p : UInt8 → Bool) (text : Bytes) :
    (text.drop (runLength p text)).head?.any p = false := by
  rw [drop_runLength]
  exact head?_dropWhile p text

/-- A byte of the first class and the longest run behind it make a name. -/
theorem named_run {first later : UInt8 → Bool} {b : UInt8} (hb : first b = true) (tail : Bytes) :
    Named first later (b :: tail.take (runLength later tail)) :=
  ⟨b, _, rfl, hb, fun _ hx => of_mem_take_runLength hx⟩

theorem atWordStart_iff {before : Option UInt8} :
    atWordStart before = true ↔ before.any isWord = false := by
  simp [atWordStart]

/-- The three sigils and the bytes that open them. -/
theorem Sigil.ofByte?_eq_some {b : UInt8} {s : Sigil} (h : ofByte? b = some s) :
    (b = 0x27 ∧ s = .label) ∨ (b = byte '?' ∧ s = .macroName) ∨ (b = byte '#' ∧ s = .atom) := by
  unfold ofByte? at h
  repeat' split at h
  all_goals simp_all

namespace Rule

variable {legacy cut : Bool} {before : Option UInt8} {b : UInt8} {tail : Bytes} {m : Match}

/-- What is taken as a scene's name is spelled as one. -/
theorem sceneName?_spelled (h : sceneName? legacy b tail = some m) :
    Spelled legacy cut before (b :: tail.take m.more) (tail.drop m.more) m.kind := by
  obtain ⟨hb, rfl⟩ := sceneName?_eq_some_iff.mp h
  exact ⟨named_run hb tail, head?_drop_runLength isWord tail⟩

/-- What is taken as a module's name is spelled as one, with a mark and a word
behind it. -/
theorem modName?_spelled (h : modName? b tail = some m) :
    Spelled legacy cut before (b :: tail.take m.more) (tail.drop m.more) m.kind := by
  obtain ⟨hb, ⟨d, rest, hdrop, hd⟩, rfl⟩ := modName?_eq_some_iff.mp h
  refine ⟨named_run hb tail, ?_, ?_⟩
  · show (tail.drop (runLength isWord tail)).head? = _
    rw [hdrop]
    rfl
  · show (tail.drop (runLength isWord tail))[1]?.any isWord = true
    rw [hdrop]
    exact hd

/-- Behind a sigil stands a name in the classes of that sigil, and it does not
go on. -/
theorem sigil?_marked {s : Sigil} (h : sigil? legacy s tail = some m) (mark : UInt8) :
    m.kind = s.kind ∧
      Marked mark (s.first legacy) (s.later legacy) (mark :: tail.take m.more)
        (tail.drop m.more) := by
  obtain ⟨c, rest, rfl, hc, rfl⟩ := sigil?_eq_some_iff.mp h
  refine ⟨rfl, ⟨_, rfl, ?_⟩, ?_⟩
  · exact named_run hc rest
  · exact head?_drop_runLength (s.later legacy) rest

/-- A label, a macro's name and an atom are spelled as their kinds want them. -/
theorem sigil?_spelled {s : Sigil} (hs : Sigil.ofByte? b = some s)
    (h : sigil? legacy s tail = some m) :
    Spelled legacy cut before (b :: tail.take m.more) (tail.drop m.more) m.kind := by
  obtain ⟨hk, hmarked⟩ := sigil?_marked h b
  rw [hk]
  -- the classes of a sigil are those of the grammar, in either revision
  rcases Sigil.ofByte?_eq_some hs with ⟨rfl, rfl⟩ | ⟨rfl, rfl⟩ | ⟨rfl, rfl⟩
  all_goals cases legacy <;> exact hmarked

/-- What is read as a variable is spelled as one, or it is the word `Self`,
which is reserved. -/
theorem variableName?_spelled (h : variableName? before b tail = some m) :
    Spelled legacy cut before (b :: tail.take m.more) (tail.drop m.more) m.kind := by
  obtain ⟨hb, hmore, ⟨hk, hself⟩ | ⟨hk, hself⟩⟩ := variableName?_eq_some_iff.mp h
  · -- `Self` on its own
    rw [hk, hmore]
    exact ⟨Or.inr hself.1, atWordStart_iff.mp hself.2.1, hself.2.2⟩
  · -- a variable; were it `Self` on its own, it would be reserved
    rw [hk, hmore]
    refine ⟨named_run hb tail, head?_drop_runLength isLetter tail, ?_⟩
    intro hword
    by_contra hnot
    rw [not_or, Bool.not_eq_true, Bool.not_eq_true] at hnot
    exact hself ⟨hword, atWordStart_iff.mpr hnot.1, hnot.2⟩

/-- What is read from a digit on is spelled as a roll of dice or as a number. -/
theorem number?_spelled (h : number? b tail = some m) :
    Spelled legacy cut before (b :: tail.take m.more) (tail.drop m.more) m.kind := by
  obtain ⟨hb, ⟨d, rest, hdrop, hd, rfl⟩ | ⟨hroll, rfl⟩⟩ := number?_eq_some h
  · -- the first digits, the `d`, and the last digits
    have hword : tail.take (runLength isDigit tail + 2 + runLength isDigit rest) =
        tail.take (runLength isDigit tail) ++
          byte 'd' :: d :: rest.take (runLength isDigit rest) := by
      rw [Nat.add_assoc, List.take_add, hdrop, Nat.add_comm 2]
      rfl
    have hafter : tail.drop (runLength isDigit tail + 2 + runLength isDigit rest) =
        rest.drop (runLength isDigit rest) := by
      rw [Nat.add_assoc, ← List.drop_drop, hdrop, Nat.add_comm 2]
      rfl
    refine ⟨⟨_, _, ?_, named_run hb tail, named_run hd rest⟩, ?_⟩
    · rw [hword]
      rfl
    · rw [hafter]
      exact head?_drop_runLength isDigit rest
  · -- a number alone; a `d` and a digit behind it would make it a roll
    refine ⟨named_run hb tail, head?_drop_runLength isDigit tail, ?_⟩
    rintro ⟨hd, hdigit⟩
    apply hroll
    match hdrop : tail.drop (runLength isDigit tail), hd, hdigit with
    | x :: y :: rest, hd, hdigit =>
      obtain rfl : x = byte 'd' := by simpa using hd
      exact ⟨y, rest, hdrop, by simpa using hdigit⟩
    | [x], _, hdigit => simp at hdigit

-- ---------------------------------------------------------------------------
-- Words and marks
-- ---------------------------------------------------------------------------

/-- Whatever a word is taken for, it is spelled as that kind wants it. -/
theorem word?_spelled (h : word? before b tail = some m) :
    Spelled legacy cut before (b :: tail.take m.more) (tail.drop m.more) m.kind := by
  rcases word?_cases h with h | ⟨-, h | h | ⟨hstart, k, hk, rfl⟩⟩
  · exact modName?_spelled h
  · exact variableName?_spelled h
  · exact number?_spelled h
  · -- a keyword; it fills its run, so no word goes on over its end
    have hwhole : WholeWord before (tail.drop (runLength isWord tail)) :=
      ⟨atWordStart_iff.mp hstart, head?_drop_runLength isWord tail⟩
    rcases keyword?_eq_some hk with ⟨rfl, hw⟩ | ⟨rfl, hw⟩ | ⟨rfl, hw⟩ | ⟨rfl, hw⟩
    · exact ⟨Or.inl hw, hwhole⟩
    · exact ⟨hw, hwhole⟩
    · exact ⟨hw, hwhole⟩
    · exact ⟨hw, hwhole⟩

/-- One equals sign is spelled as an assignment, two as the head of a scene. -/
theorem equals?_spelled (h : equals? before tail = some m) :
    Spelled legacy cut before (byte '=' :: tail.take m.more) (tail.drop m.more) m.kind := by
  obtain ⟨hbefore, ⟨hnext, rfl⟩ | ⟨hnext, hthird, hline, rfl⟩⟩ := equals?_eq_some h
  · exact ⟨rfl, hbefore, hnext⟩
  · obtain ⟨rest, rfl⟩ := List.head?_eq_some_iff.mp hnext
    exact ⟨rfl, hline, hthird⟩

/-- A dash that opens a comment is no mark of its own. -/
theorem mark?_spelled (h : mark? b tail = some m)
    (hcomment : ¬ (b = byte '-' ∧ tail.head? = some (byte '-'))) :
    Spelled legacy cut before (b :: tail.take m.more) (tail.drop m.more) m.kind := by
  rcases mark?_eq_some h with ⟨rfl, hc, rfl⟩ | ⟨rfl, hc, rfl⟩ | ⟨rfl | rfl, rfl⟩ |
    ⟨rfl, hc, rfl⟩ | ⟨rfl, hc, rfl⟩ | ⟨rfl, hc, hc', rfl⟩ | ⟨rfl, rfl⟩ | ⟨rfl, hc, rfl⟩
  · obtain ⟨rest, rfl⟩ := List.head?_eq_some_iff.mp hc
    rfl
  · -- a minus; the dash that opens a comment is excluded, that of a divert was tried before
    have hdash : tail.head? ≠ some (byte '-') := fun hdash => hcomment ⟨rfl, hdash⟩
    exact Or.inr (Or.inr (Or.inr (Or.inl ⟨rfl, hc, hdash⟩)))
  · exact Or.inl rfl
  · exact Or.inr (Or.inl rfl)
  · obtain ⟨rest, rfl⟩ := List.head?_eq_some_iff.mp hc
    rfl
  · obtain ⟨rest, rfl⟩ := List.head?_eq_some_iff.mp hc
    exact Or.inr (Or.inr (Or.inl rfl))
  · exact Or.inr (Or.inr (Or.inr (Or.inr ⟨rfl, hc, hc'⟩)))
  · rfl
  · obtain ⟨rest, rfl⟩ := List.head?_eq_some_iff.mp hc
    rfl

/-- Any leaf the rules match is spelled as its kind wants it, unless the place
opens a comment. -/
theorem leaf?_spelled (h : leaf? legacy before b tail = some m)
    (hcomment : ¬ (b = byte '-' ∧ tail.head? = some (byte '-'))) :
    Spelled legacy cut before (b :: tail.take m.more) (tail.drop m.more) m.kind := by
  rcases leaf?_cases h with ⟨rfl, h⟩ | ⟨-, h⟩ | ⟨s, hs, h⟩ | h
  · exact equals?_spelled h
  · exact word?_spelled h
  · exact sigil?_spelled hs h
  · exact mark?_spelled h hcomment

end Rule

-- ---------------------------------------------------------------------------
-- Leaves of regions
-- ---------------------------------------------------------------------------

section Pieces

variable {legacy cut : Bool} {before : Option UInt8} {b : UInt8} {tail : Bytes} {m : Match}

/-- A leaf among arguments is spelled as its kind wants it. -/
theorem argsPiece_spelled (h : argsPiece legacy before b tail = .leaf m) :
    Spelled legacy cut before (b :: tail.take m.more) (tail.drop m.more) m.kind := by
  rcases argsPiece_leaf h with ⟨rfl, hm⟩ | ⟨rfl, hstart, hnext, rfl⟩ | hm | hm
  · exact Rule.sigil?_spelled rfl hm
  · exact ⟨Or.inl rfl, atWordStart_iff.mp hstart, hnext⟩
  · exact Rule.number?_spelled hm
  · exact Rule.variableName?_spelled hm

/-- A leaf in a template is a variable, and it is spelled as one. -/
theorem templatePiece_spelled (h : templatePiece before b tail = .leaf m) :
    Spelled legacy cut before (b :: tail.take m.more) (tail.drop m.more) m.kind :=
  Rule.variableName?_spelled (templatePiece_leaf h).1

end Pieces

end StoryLex
