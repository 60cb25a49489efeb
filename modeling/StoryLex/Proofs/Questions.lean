import StoryLex.Proofs.Idle
import StoryLex.Proofs.Machine
import StoryLex.Proofs.Pieces

/-!
# StoryLex — the machine's questions and the lexer's answers

The machine asks its questions of the whole text, at an offset. The lexer asks
its rules at a cursor, and those of strings and templates in the text that ends
with the line. The answers are the same.

* `Mode.Reads` — what a scan takes a place of a region for, put as answers to
  the machine's three questions (`reads_sceneArgs`, `reads_template`).
* `general?_eq_opening?`, `expected?_eq_opening?` — what starts at a place
  outside all regions.
-/

namespace StoryLex

-- ---------------------------------------------------------------------------
-- The bytes at a place
-- ---------------------------------------------------------------------------

section Bytes

variable {source : Bytes} {p n : Nat} {b : UInt8} {tail : Bytes} {c d : Cursor}

theorem byteAt_eq_head? (source : Bytes) (p : Nat) :
    byteAt source p = (source.drop p).head?.getD 0 := by
  rw [byteAt, List.getD_eq_getElem?_getD, List.head?_drop]

/-- Where the rest of the text has a first byte, that byte stands at the place
and the others behind it. -/
theorem byteAt_of_drop (h : source.drop p = b :: tail) :
    byteAt source p = b ∧ source.drop (p + 1) = tail ∧ p < source.length := by
  refine ⟨?_, ?_, ?_⟩
  · rw [byteAt_eq_head?, h]
    rfl
  · rw [← List.drop_drop, h]
    rfl
  · by_contra hp
    rw [List.drop_of_length_le (by omega)] at h
    cases h

/-- The byte behind the first one is a given one, zero apart. -/
theorem byteAt_succ_of_drop (h : source.drop p = b :: tail) {x : UInt8} (hx : x ≠ 0) :
    byteAt source (p + 1) = x ↔ tail.head? = some x := by
  rw [byteAt_eq_head?, (byteAt_of_drop h).2.1]
  cases tail.head? with
  | none => simpa using hx.symm
  | some y => simp

/-- The byte behind the first one is in a class that has not zero in it. -/
theorem class_byteAt_succ (h : source.drop p = b :: tail) {q : UInt8 → Bool} (hq : q 0 = false) :
    q (byteAt source (p + 1)) = tail.head?.any q := by
  rw [byteAt_eq_head?, (byteAt_of_drop h).2.1]
  cases tail.head? with
  | none => simpa using hq
  | some y => simp

/-- A run of a class and what goes on with it in a wider class. -/
theorem runLength_eq_add {q r : UInt8 → Bool} (hqr : ∀ b, q b = true → r b = true) (text : Bytes) :
    runLength r text = runLength q text + runLength r (text.drop (runLength q text)) := by
  have hrun : ∀ b ∈ text.take (runLength q text), r b = true :=
    fun b hb => hqr b (of_mem_take_runLength hb)
  have hle := runLength_le q text
  calc runLength r text
      = runLength r (text.take (runLength q text) ++ text.drop (runLength q text)) := by
        rw [List.take_append_drop]
    _ = runLength q text + runLength r (text.drop (runLength q text)) := by
        rw [runLength, List.takeWhile_append_of_pos hrun, List.length_append, List.length_take,
          Nat.min_eq_left hle]
        rfl

theorem Cursor.In.offset_le_take (hc : c.In (source.take n)) : c.offset ≤ n :=
  hc.offset_le.trans (List.length_take_le n source)

/-- A place in the front part of a text, seen from the whole text. -/
theorem Cursor.In.drop_offset (hc : c.In (source.take n)) (hrest : c.rest = b :: tail) :
    source.drop c.offset = b :: (tail ++ source.drop n) := by
  rw [drop_eq_drop_take_append source hc.offset_le_take, ← hc.rest_eq, hrest, List.cons_append]

theorem Cursor.In.byteBefore_eq (hc : c.In (source.take n)) :
    byteBefore source c.offset = c.before := by
  rw [hc.before_eq_byteBefore, byteBefore_take hc.offset_le_take]

/-- A token of the front part of a text is one of the whole text. -/
theorem Machine.tokenOf_eq (hc : c.In (source.take n)) (hd : d.offset ≤ n) (kind : Kind) :
    tokenOf source kind c.offset d.offset = c.tokenTo d kind := by
  have hlexeme := hc.lexeme_tokenTo (d := d) kind
  rw [Span.bytes_take (s := c.spanTo d) hd] at hlexeme
  rw [tokenOf, Cursor.tokenTo, Token.mk.injEq]
  exact ⟨rfl, rfl, hlexeme.symm, rfl, rfl⟩

end Bytes

-- ---------------------------------------------------------------------------
-- The questions of a region and the answers of its scan
-- ---------------------------------------------------------------------------

/-- What a scan takes a place for, put as answers to the machine's questions. -/
def Mode.Answers (legacy : Bool) (source : Bytes) (p : Nat) (mode : Mode) : Piece → Prop
  | .close more => mode.close? source p = some (true, more + 1)
  | .filler => mode.close? source p = none ∧ mode.IsText source p
  | .leaf m =>
    mode.close? source p = none ∧ ¬ mode.IsText source p ∧
      mode.inside? legacy source p = some (.leaf m)
  | .junk more =>
    mode.close? source p = none ∧ ¬ mode.IsText source p ∧
      mode.inside? legacy source p = none ∧
      more = Rule.junk (byteAt source p) (source.drop (p + 1))

/-- The scan that goes by `pieceAt` reads a region of this mode, from `lo` on, in
the front part of the text that has `n` bytes. -/
structure Mode.Reads (legacy : Bool) (source : Bytes) (lo n : Nat) (mode : Mode)
    (pieceAt : Option UInt8 → UInt8 → Bytes → Piece) : Prop where
  of_end   : ∀ {c : Cursor}, c.In (source.take n) → c.rest = [] →
               mode.close? source c.offset = some (false, 0)
  of_piece : ∀ {c : Cursor} {b tail}, c.In (source.take n) → lo ≤ c.offset → c.rest = b :: tail →
               mode.Answers legacy source c.offset (pieceAt c.before b tail)

section Answers

variable {legacy : Bool} {source : Bytes} {p n : Nat} {b : UInt8} {tail after : Bytes}

/-- What comes behind the line changes no variable of it. -/
theorem Rule.variableName?_append_of_line {before : Option UInt8}
    (hline : after.head?.all (· == newline) = true) :
    variableName? before b (tail ++ after) = variableName? before b tail := by
  have hrun : runLength isLetter (tail ++ after) = runLength isLetter tail := by
    rw [runLength, runLength, takeWhile_append_of_stop tail (head?_any_of_line (by decide) hline)]
  have hle := runLength_le isLetter tail
  have hnext : ((tail ++ after).drop (runLength isLetter tail)).head?.any isWord =
      (tail.drop (runLength isLetter tail)).head?.any isWord := by
    rw [List.drop_append_of_le_length hle]
    cases tail.drop (runLength isLetter tail) with
    | nil => exact head?_any_of_line (by decide) hline
    | cons x rest => rfl
  simp only [variableName?, hrun, hnext, List.take_append_of_le_length hle]

/-- What comes behind the line changes nothing in what is skipped there. -/
theorem Rule.junk_append_of_line (hline : after.head?.all (· == newline) = true) :
    junk b (tail ++ after) = junk b tail := by
  unfold junk
  split <;>
    rw [runLength, runLength, takeWhile_append_of_stop tail (head?_any_of_line (by decide) hline)]

/-- The byte behind the first one is a given one of the same line. -/
theorem byteAt_succ_of_line (h : source.drop p = b :: (tail ++ after))
    (hline : after.head?.all (· == newline) = true) {x : UInt8} (hx : x ≠ 0) (hne : x ≠ newline) :
    byteAt source (p + 1) = x ↔ tail.head? = some x := by
  rw [byteAt_succ_of_drop h hx]
  cases tail with
  | cons y rest => rfl
  | nil =>
    -- the line ends behind the first byte, so a newline or nothing comes next
    have hafter : after.head? ≠ some x := by
      intro hhead
      rw [hhead] at hline
      exact hne (by simpa using hline)
    simpa using hafter

/-- A template asks the same of the whole text as its scan does of the line. -/
theorem templatePiece_answers (h : source.drop p = b :: (tail ++ after)) (hb : b ≠ newline)
    (hline : after.head?.all (· == newline) = true) :
    Mode.template.Answers legacy source p (templatePiece (byteBefore source p) b tail) := by
  obtain ⟨rfl, htail, hlt⟩ := byteAt_of_drop h
  have hbrace : byteAt source (p + 1) = closeBrace ↔ tail.head? = some closeBrace :=
    byteAt_succ_of_line h hline (by decide) (by decide)
  have hvar : Rule.variableName? (byteBefore source p) (byteAt source p) (source.drop (p + 1)) =
      Rule.variableName? (byteBefore source p) (byteAt source p) tail := by
    rw [htail, Rule.variableName?_append_of_line hline]
  unfold templatePiece
  by_cases hclose : byteAt source p = closeBrace ∧ tail.head? = some closeBrace
  · rw [if_pos (by simpa using hclose)]
    exact if_pos ⟨hclose.1, hbrace.mpr hclose.2⟩
  rw [if_neg (by simpa using hclose)]
  -- no closing mark, no newline, and the text goes on, so the template is read on
  have hopen : Mode.template.close? source p = none := by
    have hlen := not_or.mpr ⟨Nat.not_le_of_lt hlt, hb⟩
    simp only [Mode.close?, hbrace, if_neg hclose, if_neg hlen]
  by_cases hblank : isBlank (byteAt source p) = true
  · rw [if_pos hblank]
    exact ⟨hopen, hblank⟩
  rw [if_neg hblank]
  split
  · next more hfound =>
    refine ⟨hopen, hblank, ?_⟩
    simp only [Mode.inside?, hvar, hfound]
    rfl
  · next hfound =>
    refine ⟨hopen, hblank, ?_, by rw [htail, Rule.junk_append_of_line hline]⟩
    simp only [Mode.inside?, hvar]
    cases hm : Rule.variableName? (byteBefore source p) (byteAt source p) tail with
    | none => rfl
    | some m =>
      -- the only other thing that a capital can start is the word `Self`
      rcases Rule.variableName?_kind hm with hkind | hkind
      · exact if_pos hkind
      · exact absurd (hm.trans (by rw [← hkind])) (hfound m.more)

/-- The order of the rules in an argument list does not matter, for no two of
them start with the same byte. -/
theorem inside?_sceneArgs (h : source.drop p = b :: tail) :
    Mode.sceneArgs.inside? legacy source p =
      (if b == byte '#' then Rule.sigil? legacy .atom tail
        else if b == byte '_' then
          if atWordStart (byteBefore source p) && !tail.head?.any isWord then some ⟨.reserved, 0⟩
          else none
        else
          Rule.number? b tail <|> Rule.variableName? (byteBefore source p) b tail).map .leaf := by
  obtain ⟨hbyte, htail, -⟩ := byteAt_of_drop h
  have hword := class_byteAt_succ h (q := isWord) (by decide)
  simp only [Mode.inside?, hbyte, htail, hword]
  by_cases hhash : b = byte '#'
  · simp [hhash]
  by_cases hunder : b = byte '_'
  · subst hunder
    simp only [show isDigit (byte '_') = false from rfl, show isUpper (byte '_') = false from rfl]
    cases atWordStart (byteBefore source p) <;> cases tail.head?.any isWord <;> rfl
  -- a digit starts a number, so no variable is asked for
  by_cases hdigit : isDigit b = true
  · have hfound : Rule.number? b tail ≠ none := by simp [Rule.number?_eq_none_iff, hdigit]
    obtain ⟨m, hm⟩ := Option.ne_none_iff_exists'.mp hfound
    simp [hhash, hunder, hdigit, hm]
  have hnumber : Rule.number? b tail = none := Rule.number?_eq_none_iff.mpr (by simpa using hdigit)
  by_cases hupper : isUpper b = true
  · simp [hhash, hunder, hdigit, hupper, hnumber]
  · have hvar : Rule.variableName? (byteBefore source p) b tail = none :=
      Rule.variableName?_eq_none_iff.mpr (by simpa using hupper)
    simp [hhash, hunder, hdigit, hupper, hnumber, hvar]

/-- An argument list asks the same of the whole text as its scan does. -/
theorem argsPiece_answers (h : source.drop p = b :: tail) :
    Mode.sceneArgs.Answers legacy source p (argsPiece legacy (byteBefore source p) b tail) := by
  obtain ⟨rfl, htail, hlt⟩ := byteAt_of_drop h
  unfold argsPiece
  by_cases hclose : byteAt source p = byte ')'
  · rw [if_pos (by simpa using hclose)]
    exact if_pos hclose
  rw [if_neg (by simpa using hclose)]
  have hopen : Mode.sceneArgs.close? source p = none := by
    simp only [Mode.close?, if_neg hclose, if_neg (Nat.not_le_of_lt hlt)]
  by_cases hfiller : byteAt source p = byte ',' ∨ isSpace (byteAt source p) = true
  · rw [if_pos (by simpa using hfiller)]
    exact ⟨hopen, hfiller⟩
  rw [if_neg (by simpa using hfiller)]
  dsimp only
  split
  · next m hfound =>
    refine ⟨hopen, hfiller, ?_⟩
    rw [inside?_sceneArgs h, hfound]
    rfl
  · next hfound =>
    refine ⟨hopen, hfiller, ?_, by rw [htail]⟩
    rw [inside?_sceneArgs h, hfound]
    rfl

/-- An argument list is read in the whole text, and is cut off where that
ends. -/
theorem reads_sceneArgs (legacy : Bool) (source : Bytes) :
    Mode.sceneArgs.Reads legacy source 0 source.length (argsPiece legacy) := by
  refine ⟨?_, ?_⟩
  · intro c hc hrest
    have hend : c.offset = source.length := by
      rw [hc.offset_eq_length hrest, List.take_length]
    -- behind the end there is no parenthesis, for the byte there reads as zero
    have hparen : byteAt source c.offset ≠ byte ')' := by
      intro hbyte
      have hlt : c.offset < source.length := lt_length_of_byteAt hbyte (by decide)
      omega
    simp only [Mode.close?, if_neg hparen, if_pos hend.ge]
  · intro c b tail hc _ hrest
    have hdrop := hc.drop_offset hrest
    rw [List.drop_length, List.append_nil] at hdrop
    rw [← hc.byteBefore_eq]
    exact argsPiece_answers hdrop

/-- Where the front part of a text ends that ends with a line, the whole text
ends or has a newline. -/
theorem Cursor.In.byteAt_lineEnd (hline : (source.drop n).head?.all (· == newline) = true)
    {c : Cursor} (hc : c.In (source.take n)) (hrest : c.rest = []) :
    source.length ≤ c.offset ∨ byteAt source c.offset = newline := by
  have hend : c.offset = min n source.length := by
    rw [hc.offset_eq_length hrest, List.length_take]
  -- the front part ends in front of a newline, or with the text
  by_cases hn : n < source.length
  · have hoffset : c.offset = n := by omega
    rw [hoffset, byteAt_eq_head?]
    rw [List.head?_drop, List.getElem?_eq_getElem hn] at hline ⊢
    exact Or.inr (by simpa using hline)
  · exact Or.inl (by omega)

/-- No newline stands inside a line. -/
theorem Cursor.In.ne_newline {lo : Nat} (hinside : newline ∉ (source.take n).drop lo) {c : Cursor}
    (hc : c.In (source.take n)) (hlo : lo ≤ c.offset) (hrest : c.rest = b :: tail) :
    b ≠ newline := by
  rintro rfl
  have hmem : newline ∈ c.rest := hrest ▸ List.mem_cons_self
  rw [hc.rest_eq] at hmem
  exact hinside (List.mem_of_mem_drop (i := c.offset - lo)
    (by rwa [List.drop_drop, Nat.add_sub_cancel' hlo]))

/-- In a line, a template is cut off where the line ends. -/
theorem reads_template {lo : Nat} (hline : (source.drop n).head?.all (· == newline) = true)
    (hinside : newline ∉ (source.take n).drop lo) :
    Mode.template.Reads legacy source lo n templatePiece := by
  refine ⟨?_, ?_⟩
  · intro c hc hrest
    have hcut := hc.byteAt_lineEnd hline hrest
    have hopen : ¬ (byteAt source c.offset = closeBrace ∧
        byteAt source (c.offset + 1) = closeBrace) := by
      -- where the line ends no brace stands
      rintro ⟨hbrace, -⟩
      have hlt : c.offset < source.length := lt_length_of_byteAt hbrace (by decide)
      rcases hcut with hcut | hcut
      · omega
      · exact absurd (hbrace.symm.trans hcut) (by decide)
    simp only [Mode.close?, if_neg hopen, if_pos hcut]
  · intro c b tail hc hlo hrest
    rw [← hc.byteBefore_eq]
    exact templatePiece_answers (hc.drop_offset hrest) (hc.ne_newline hinside hlo hrest) hline

end Answers

-- ---------------------------------------------------------------------------
-- Outside all regions
-- ---------------------------------------------------------------------------

/-- The token or region that starts at `c`, as its scan finds it. -/
def Opening.found (legacy : Bool) (c : Cursor) : Opening → Found
  | .leaf m => m.found c
  | .region .comment => comment c
  | .region .string => string c
  | .region .template => template c
  | .region .sceneArgs => sceneArgs legacy c

section Search

variable {legacy : Bool} {source : Bytes} {c : Cursor}

/-- The general rules find what the machine finds at the place. -/
theorem general?_eq_opening? (hc : c.In source) (hne : c.rest ≠ []) :
    general? legacy c = (opening? legacy source c.offset).map (·.found legacy c) := by
  obtain ⟨b, tail, hrest⟩ := List.exists_cons_of_ne_nil hne
  have hdrop := hc.rest_eq.symm.trans hrest
  obtain ⟨hbyte, htail, -⟩ := byteAt_of_drop hdrop
  have hdash := byteAt_succ_of_drop hdrop (x := byte '-') (by decide)
  have hblank := byteAt_succ_of_drop hdrop (x := byte ' ') (by decide)
  rw [general?_eq hrest]
  simp only [opening?, hbyte, htail, hdash, hblank, ← hc.before_eq_byteBefore, Bool.and_eq_true,
    beq_iff_eq, decide_eq_true_eq]
  split
  · rfl
  split
  · rfl
  · rw [Option.map_map]
    rfl

/-- An expected token is found where the machine looks for it, or nowhere. -/
theorem expected?_eq_opening? (legacy : Bool) (e : Expectation) (hc : c.In source) :
    expected? legacy e c =
      (if source.length ≤ (e.place c).offset then none
        else e.opening? legacy source (e.place c).offset).map (·.found legacy (e.place c)) := by
  have hplace := e.place_in hc
  cases hrest : (e.place c).rest with
  | nil =>
    rw [expected?_of_rest_eq_nil hrest, if_pos (hplace.offset_eq_length hrest).ge]
    rfl
  | cons b tail =>
    have hdrop := hplace.rest_eq.symm.trans hrest
    obtain ⟨hbyte, htail, hlt⟩ := byteAt_of_drop hdrop
    rw [expected?_eq hrest, if_neg (Nat.not_le_of_lt hlt)]
    cases e with
    | none => rfl
    | sceneName | sceneOrModule =>
      simp only [Expectation.meet?, Expectation.opening?, hbyte, htail, Option.map_map]
      rfl
    | modSep | sceneArgs =>
      simp only [Expectation.meet?, Expectation.opening?, hbyte, beq_iff_eq]
      split <;> rfl

end Search

end StoryLex
