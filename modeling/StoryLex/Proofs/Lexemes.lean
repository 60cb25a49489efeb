import StoryLex.Proofs.Coverage
import StoryLex.Proofs.CutOff
import StoryLex.Proofs.Idle
import StoryLex.Proofs.Shift

/-!
# StoryLex — lexemes are self-contained

The kind and the extent of a token are settled by more than its own bytes: a
rule looks at the byte before and at the bytes behind, and a string is read up
to the end of its line. Cut out of its surroundings, a token is still the same
token, moved to the start (`lex_lexeme`). What was seen around it only ever
kept a rule from matching, or a token from going on, and with nothing around it
neither happens. Four kinds are found by an expectation or by the colon behind
them, and a variable `Self` that was part of a longer word becomes reserved;
these are the exceptions.

* `Rule.leaf?_alone` — a rule matches the bytes of its match again.
* `Cursor.alone` — the place at which the cut-out text starts.
* `comment_alone`, `string_alone` — the regions that end with their line.
-/

namespace StoryLex

-- ---------------------------------------------------------------------------
-- Rules on the bytes of their match
-- ---------------------------------------------------------------------------

theorem runLength_of_forall {p : UInt8 → Bool} {text : Bytes} (h : ∀ x ∈ text, p x = true) :
    runLength p text = text.length := by
  rw [runLength, List.takeWhile_eq_self_iff.mpr h]

/-- A run that was cut out is as long as it was. -/
theorem runLength_take_run (p : UInt8 → Bool) (text : Bytes) :
    runLength p (text.take (runLength p text)) = runLength p text := by
  rw [runLength_of_forall fun _ hx => of_mem_take_runLength hx,
    List.length_take_of_le (runLength_le p text)]

/-- The words that stand for themselves start neither in upper case nor with a
digit. -/
theorem head?_reservedWords : ∀ word ∈ reservedWords,
    word.head?.any isUpper = false ∧ word.head?.any isDigit = false := by
  decide +kernel

namespace Rule

variable {legacy : Bool} {before : Option UInt8} {b : UInt8} {tail : Bytes} {m : Match}

/-- A word with nothing behind it names no module. -/
theorem modName?_word (h : ∀ x ∈ tail, isWord x = true) (b : UInt8) : modName? b tail = none := by
  refine modName?_eq_none_iff.mpr fun _ hqual => ?_
  obtain ⟨d, rest, hdrop, -⟩ := hqual
  -- the word takes all of the text, so there is no colon behind it
  rw [runLength_of_forall h, List.drop_length] at hdrop
  simp at hdrop

/-- A variable is one again, unless its bytes are `Self` and it was a part of a
longer word. -/
theorem variableName?_alone (h : variableName? before b tail = some m)
    (hself : m.kind = .variableName → b :: tail.take m.more ≠ ascii "Self") :
    variableName? none b (tail.take m.more) = some m := by
  obtain ⟨hb, hmore, hkind⟩ := variableName?_eq_some_iff.mp h
  have hrun : runLength isLetter (tail.take m.more) = m.more := by
    rw [hmore, runLength_take_run]
  -- with nothing around it, the word `Self` is a whole word
  have hwhole : IsSelf none b (tail.take m.more) ↔ b :: tail.take m.more = ascii "Self" := by
    simp [IsSelf, hrun, atWordStart, List.take_take]
  refine variableName?_eq_some_iff.mpr ⟨hb, hrun.symm, ?_⟩
  rcases hkind with ⟨hk, hs⟩ | ⟨hk, -⟩
  · exact Or.inl ⟨hk, hwhole.mpr (hmore ▸ hs.1)⟩
  · exact Or.inr ⟨hk, mt hwhole.mp (hself hk)⟩

/-- A number or a dice roll is the same again. -/
theorem number?_alone (h : number? b tail = some m) : number? b (tail.take m.more) = some m := by
  obtain ⟨hb, ⟨d, rest, hdrop, hd, rfl⟩ | ⟨-, rfl⟩⟩ := number?_eq_some h
  · -- the first digits, the `d`, and the last digits
    have hword : tail.take (runLength isDigit tail + 2 + runLength isDigit rest) =
        tail.take (runLength isDigit tail) ++
          byte 'd' :: d :: rest.take (runLength isDigit rest) := by
      rw [Nat.add_assoc, List.take_add, hdrop, Nat.add_comm 2]
      rfl
    have hrun : runLength isDigit (tail.take (runLength isDigit tail) ++
        byte 'd' :: d :: rest.take (runLength isDigit rest)) = runLength isDigit tail := by
      rw [runLength, takeWhile_append_of_stop _ (by rfl), ← runLength, runLength_take_run]
    have hlen := List.length_take_of_le (runLength_le isDigit tail)
    simp only [number?, if_pos hb, hword, hrun, List.drop_left' hlen, hd, beq_self_eq_true,
      Bool.and_self, if_true, runLength_take_run]
  · -- digits alone: with nothing behind them, there is no `d` either
    simp only [number?, if_pos hb, runLength_take_run, List.drop_take_self]

theorem sigil?_alone {s : Sigil} (h : sigil? legacy s tail = some m) :
    sigil? legacy s (tail.take m.more) = some m := by
  obtain ⟨c, rest, rfl, hc, rfl⟩ := sigil?_eq_some_iff.mp h
  refine sigil?_eq_some_iff.mpr ⟨c, _, List.take_succ_cons, hc, ?_⟩
  rw [runLength_take_run]

/-- A word is one again unless it named a module or was a part of a longer one. -/
theorem word?_alone (h : word? before b tail = some m) (hmod : m.kind ≠ .modName)
    (hself : m.kind = .variableName → b :: tail.take m.more ≠ ascii "Self") :
    word? none b (tail.take m.more) = some m := by
  have hunqualified : (∀ x ∈ tail.take m.more, isWord x = true) →
      modName? b (tail.take m.more) = none := fun hw => modName?_word hw b
  unfold word?
  simp only [Option.orElse_eq_orElse, Option.orElse_eq_or]
  rcases word?_cases h with h | ⟨-, h | h | ⟨-, k, hk, rfl⟩⟩
  · obtain ⟨-, -, rfl⟩ := modName?_eq_some_iff.mp h
    exact absurd rfl hmod
  · -- a variable's name is made of letters, so no colon was cut in
    have hletters : ∀ x ∈ tail.take m.more, isWord x = true := by
      rw [variableName?_more h]
      exact fun x hx => isWord_of_isLetter (of_mem_take_runLength hx)
    rw [hunqualified hletters, variableName?_alone h hself]
    rfl
  · have hdigit : isDigit b = true := (number?_eq_some h).1
    obtain ⟨hletter, hupper⟩ : isLetter b = false ∧ isUpper b = false :=
      (by decide +kernel : ∀ b, isDigit b = true → isLetter b = false ∧ isUpper b = false) b hdigit
    rw [modName?_eq_none_iff.mpr (by simp [hletter]), variableName?_eq_none_iff.mpr hupper,
      number?_alone h]
    rfl
  · -- one of the words that stand for themselves, which has neither a capital nor a digit in
    -- front
    have hw : ∀ x ∈ tail.take (runLength isWord tail), isWord x = true :=
      fun x hx => of_mem_take_runLength hx
    have hmem : b :: tail.take (runLength isWord tail) ∈ reservedWords := by
      by_contra hnot
      rw [keyword?_eq_none_iff.mpr hnot] at hk
      simp at hk
    obtain ⟨hupper, hdigit⟩ := head?_reservedWords _ hmem
    rw [hunqualified hw, variableName?_eq_none_iff.mpr hupper, number?_eq_none_iff.mpr hdigit,
      runLength_take_run, List.take_take, Nat.min_self, hk]
    rfl

theorem equals?_alone (h : equals? before tail = some m) :
    equals? none (tail.take m.more) = some m := by
  obtain ⟨-, ⟨-, rfl⟩ | ⟨hnext, -, -, rfl⟩⟩ := equals?_eq_some h
  · rfl
  · obtain ⟨rest, rfl⟩ := List.head?_eq_some_iff.mp hnext
    rfl

/-- A mark is the same again. -/
theorem mark?_alone (h : mark? b tail = some m) : mark? b (tail.take m.more) = some m := by
  rcases mark?_eq_some h with ⟨rfl, hc, rfl⟩ | ⟨rfl, -, rfl⟩ | ⟨rfl | rfl, rfl⟩ |
    ⟨rfl, hc, rfl⟩ | ⟨rfl, hc, rfl⟩ | ⟨rfl, -, -, rfl⟩ | ⟨rfl, rfl⟩ | ⟨rfl, hc, rfl⟩
  -- a mark of one byte has nothing behind it, one of two its second byte
  all_goals first
    | rfl
    | obtain ⟨rest, rfl⟩ := List.head?_eq_some_iff.mp hc
      rfl

/-- A general rule matches the bytes of its match again, with nothing around
them. -/
theorem leaf?_alone (h : leaf? legacy before b tail = some m) (hmod : m.kind ≠ .modName)
    (hself : m.kind = .variableName → b :: tail.take m.more ≠ ascii "Self") :
    leaf? legacy none b (tail.take m.more) = some m := by
  -- which rule is asked depends on the first byte alone
  unfold leaf? at h ⊢
  split at h
  · next hb =>
    rw [if_pos hb]
    exact equals?_alone h
  · next hb =>
    rw [if_neg hb]
    split at h
    · next hword =>
      rw [if_pos hword]
      exact word?_alone h hmod hself
    · next hword =>
      rw [if_neg hword]
      split at h
      · exact sigil?_alone h
      · exact mark?_alone h

/-- No general rule matches white space or the mark that opens a string. -/
theorem leaf?_first (h : leaf? legacy before b tail = some m) :
    isSpace b = false ∧ b ≠ byte '>' := by
  have hnone : ∀ x ∈ byte '>' :: byte ' ' :: [0x09, 0x0A, 0x0B, 0x0C, 0x0D],
      leaf? legacy before x tail = none := by
    intro x hx
    simp only [List.mem_cons, List.not_mem_nil, or_false] at hx
    rcases hx with rfl | rfl | rfl | rfl | rfl | rfl | rfl <;> rfl
  have hmem : isSpace b = true ∨ b = byte '>' →
      b ∈ byte '>' :: byte ' ' :: [0x09, 0x0A, 0x0B, 0x0C, 0x0D] :=
    (by decide +kernel : ∀ b, isSpace b = true ∨ b = byte '>' →
      b ∈ byte '>' :: byte ' ' :: [0x09, 0x0A, 0x0B, 0x0C, 0x0D]) b
  by_contra hnot
  have hb : isSpace b = true ∨ b = byte '>' := by
    by_contra hneither
    rw [not_or, Bool.not_eq_true] at hneither
    exact hnot hneither
  rw [hnone b (hmem hb)] at h
  simp at h

end Rule

-- ---------------------------------------------------------------------------
-- Places in the text that was cut out
-- ---------------------------------------------------------------------------

/-- The start of the text that holds the next `n` bytes and nothing else. -/
def Cursor.alone (c : Cursor) (n : Nat) : Cursor where
  offset := 0
  before := none
  rest := c.rest.take n

/-- A token that takes all of the text that was cut out is the one that was
there, moved. -/
theorem Cursor.tokenTo_alone {c d d' : Cursor} {n : Nat} (hd : d.offset = c.offset + n)
    (hd' : d'.offset = n) (kind : Kind) :
    ((c.alone n).tokenTo d' kind).shift c.offset = c.tokenTo d kind := by
  rw [Token.shift_eq]
  simp only [tokenTo, spanTo, alone, Span.shift, hd, hd', List.map_nil, Nat.zero_add, Nat.sub_zero,
    Nat.add_sub_cancel_left, Nat.add_comm n, List.take_take, Nat.min_self]

/-- The token `t` at `c` is found again in the `n` bytes that it covers, by
themselves: moved to the start, and with nothing behind it. -/
structure Found.Alone (legacy : Bool) (c : Cursor) (n : Nat) (t : Token) (found : Found) :
    Prop where
  general : general? legacy (c.alone n) = some found
  lexeme  : t.lexeme = c.rest.take n
  token   : found.token.shift c.offset = t
  rest    : found.stop.rest = []

variable {legacy : Bool} {c : Cursor} {b : UInt8} {tail : Bytes}

/-- What a general rule matched is found again in its own bytes. -/
theorem leaf_alone {m : Match} (hc : c.rest = b :: tail)
    (hcomment : ¬ (b = byte '-' ∧ tail.head? = some (byte '-')))
    (hm : Rule.leaf? legacy c.before b tail = some m) (hmod : m.kind ≠ .modName)
    (hself : m.kind = .variableName → b :: tail.take m.more ≠ ascii "Self") :
    (m.found (c.alone (m.more + 1))).Alone legacy c (m.more + 1) (m.found c).token := by
  have hrest : (c.alone (m.more + 1)).rest = b :: tail.take m.more := by
    simp [Cursor.alone, hc]
  have hfits := Cursor.succ_le_length_rest hc (Rule.leaf?_fits hm)
  have hlen : (c.alone (m.more + 1)).rest.length = m.more + 1 := List.length_take_of_le hfits
  have hstop : (c.advance (m.more + 1)).offset = c.offset + (m.more + 1) :=
    Cursor.offset_advance hfits
  refine ⟨?_, ?_, ?_, ?_⟩
  · -- a shorter text opens no region that the longer one did not
    have hdash : ¬ (b == byte '-' && (tail.take m.more).head? = some (byte '-')) = true := by
      rw [Bool.and_eq_true, beq_iff_eq, decide_eq_true_eq]
      rintro ⟨hb, hhead⟩
      refine hcomment ⟨hb, ?_⟩
      rw [List.head?_take] at hhead
      split at hhead
      · simp at hhead
      · exact hhead
    have hangle : ¬ (b == byte '>' && (tail.take m.more).head? = some (byte ' ')) = true := by
      simp [(Rule.leaf?_first hm).2]
    rw [general?_eq hrest, if_neg hdash, if_neg hangle]
    exact congrArg (Option.map _) (Rule.leaf?_alone hm hmod hself)
  · simp [Match.found, Cursor.tokenTo, hstop]
  · refine Cursor.tokenTo_alone hstop ?_ m.kind
    rw [Cursor.offset_advance (by rw [hlen]), Cursor.alone, Nat.zero_add]
  · -- the match takes all of the text that was cut out
    exact List.drop_eq_nil_of_le (Nat.le_of_eq hlen)

-- ---------------------------------------------------------------------------
-- Regions that end with their line
-- ---------------------------------------------------------------------------

section Lines

variable {x y : UInt8}

/-- How many bytes a mark of two bytes and the rest of its line take. -/
def lineLength (tail : Bytes) : Nat := runLength isInLine tail + 2

/-- Cut out with its line, a mark of two bytes is followed by that line
alone. -/
theorem rest_alone_line (hc : c.rest = x :: y :: tail) :
    (c.alone (lineLength tail)).rest = x :: y :: tail.takeWhile isInLine := by
  simp [Cursor.alone, lineLength, hc, take_runLength]

theorem takeWhile_inLine_line (tail : Bytes) :
    (tail.takeWhile isInLine).takeWhile isInLine = tail.takeWhile isInLine :=
  List.takeWhile_eq_self_iff.mpr fun _ hx => List.mem_takeWhile_imp hx

/-- The rest of the line is the same in the text that was cut out. -/
theorem inLine_alone (hc : c.rest = x :: y :: tail) :
    ((c.alone (lineLength tail)).advance 2).inLine.shift c.offset = (c.advance 2).inLine := by
  have hrest := rest_alone_line hc
  simp only [Cursor.inLine, Cursor.shift, Cursor.advance, hrest, hc, List.take_succ_cons,
    List.take_zero, List.drop_succ_cons, List.drop_zero, takeWhile_inLine_line]
  simp [Cursor.alone, Nat.add_comm]

/-- The end of the line is the end of the text that was cut out. -/
theorem lineEnd_alone (hc : c.rest = x :: y :: tail) :
    ((c.advance 2).skip isInLine).offset = c.offset + lineLength tail ∧
      (((c.alone (lineLength tail)).advance 2).skip isInLine).offset = lineLength tail ∧
      (((c.alone (lineLength tail)).advance 2).skip isInLine).rest = [] := by
  have hrest := rest_alone_line hc
  have hrun : runLength isInLine (tail.takeWhile isInLine) = runLength isInLine tail := by
    rw [runLength, takeWhile_inLine_line, runLength]
  refine ⟨?_, ?_, ?_⟩
  · rw [Cursor.offset_skip, Cursor.rest_advance, Cursor.offset_advance (by simp [hc]), hc]
    simp only [List.drop_succ_cons, List.drop_zero, lineLength]
    omega
  · rw [Cursor.offset_skip, Cursor.rest_advance, Cursor.offset_advance (by simp [hrest]), hrest]
    simp only [List.drop_succ_cons, List.drop_zero, lineLength, hrun, Cursor.alone]
    omega
  · -- what was cut out of the line is all of it in the line
    rw [Cursor.rest_skip, Cursor.rest_advance, hrest]
    simp only [List.drop_succ_cons, List.drop_zero, List.dropWhile_eq_nil_iff]
    exact fun z hz => List.mem_takeWhile_imp hz

/-- A comment is found again in its own bytes. -/
theorem comment_alone (legacy : Bool) (hc : c.rest = byte '-' :: byte '-' :: tail) :
    (comment (c.alone (lineLength tail))).Alone legacy c (lineLength tail) (comment c).token := by
  obtain ⟨hstop, hstop', hend⟩ := lineEnd_alone hc
  refine ⟨?_, ?_, Cursor.tokenTo_alone hstop hstop' .comment, hend⟩
  · rw [general?_eq (rest_alone_line hc)]
    rfl
  · simp [comment, Cursor.tokenTo, hstop]

/-- A string has the same templates in the text that was cut out, for it is read
in its line alone. -/
theorem string_alone {text : Bytes} (legacy : Bool) (hin : c.In text)
    (hc : c.rest = byte '>' :: byte ' ' :: tail) :
    (string (c.alone (lineLength tail))).Alone legacy c (lineLength tail) (string c).token := by
  obtain ⟨hstop, hstop', hend⟩ := lineEnd_alone hc
  set c' := c.alone (lineLength tail) with hc'
  have hbody : scanString (c.advance 2).inLine =
      (scanString (c'.advance 2).inLine).shift c.offset := by
    rw [← scanString_shift, inLine_alone hc]
  have hoffset : (scanString (c.advance 2).inLine).stop.offset = c.offset + lineLength tail := by
    rw [(scanString_inLine (hin.advance 2)).1, hstop]
  have hoffset' : (scanString (c'.advance 2).inLine).stop.offset = lineLength tail := by
    rw [hbody] at hoffset
    simp only [Body.shift, Cursor.shift] at hoffset
    omega
  refine ⟨?_, ?_, ?_, hend⟩
  · rw [general?_eq (rest_alone_line hc)]
    rfl
  · simp [string, Body.enclose, Cursor.tokenTo, hoffset]
  · -- the whole token is moved, with all its templates
    have htoken := Cursor.tokenTo_alone hoffset hoffset' .string
    rw [Token.shift_eq] at htoken ⊢
    simp only [string, Body.enclose, ← htoken]
    rw [hbody]
    rfl

end Lines

-- ---------------------------------------------------------------------------
-- Any token
-- ---------------------------------------------------------------------------

/-- What the general rules find is found again in its own bytes. -/
theorem general?_alone {text : Bytes} {found : Found} (hin : c.In text)
    (h : general? legacy c = some found) (hmod : found.token.kind ≠ .modName)
    (hself : ¬ (found.token.kind = .variableName ∧ found.token.lexeme = ascii "Self")) :
    ∃ n found', Found.Alone legacy c n found.token found' := by
  rcases general?_cases h with ⟨tail, hc, rfl⟩ | ⟨tail, hc, rfl⟩ | ⟨b, tail, m, hc, hne, hm, rfl⟩
  · exact ⟨_, _, comment_alone legacy hc⟩
  · exact ⟨_, _, string_alone legacy hin hc⟩
  · have hword : (m.found c).token.lexeme = b :: tail.take m.more := by
      have hfits := Cursor.succ_le_length_rest hc (Rule.leaf?_fits hm)
      simp [Match.found, Cursor.tokenTo, Cursor.offset_advance hfits, hc]
    exact ⟨_, _, leaf_alone hc hne hm hmod fun hk hs => hself ⟨hk, hword.trans hs⟩⟩

/-- A token that stands right here is the next one. -/
theorem scanGeneral_of_general? {found : Found} (h : general? legacy c = some found) :
    scanGeneral legacy c = found.step := by
  obtain ⟨b, tail, hc, hspace⟩ : ∃ b tail, c.rest = b :: tail ∧ isSpace b = false := by
    rcases general?_cases h with ⟨tail, hc, -⟩ | ⟨tail, hc, -⟩ | ⟨b, tail, m, hc, -, hm, -⟩
    · exact ⟨_, _, hc, by decide⟩
    · exact ⟨_, _, hc, by decide⟩
    · exact ⟨b, tail, hc, (Rule.leaf?_first hm).1⟩
  rw [scanGeneral_eq hc, if_neg (by simp [hspace]), h]

/-- A text in which a token was found that takes all of it. -/
theorem Found.Alone.lex_eq {n : Nat} {t : Token} {found : Found}
    (h : found.Alone legacy c n t) (report : Bool) :
    (lex t.lexeme ⟨0, legacy, report⟩).1 = [found.token, Token.eof t.lexeme.length] := by
  set l := Lexer.start (c.rest.take n) ⟨0, legacy, report⟩ with hl
  have hstep : scanToken l.options.legacyIdentifiers l.expectation l.cursor = found.step := by
    rw [show l.expectation = .none from rfl, scanToken_none]
    exact scanGeneral_of_general? h.general
  have hnext : l.next = (some found.token, l.next.2) := by
    simp [Lexer.next, hstep, Found.step]
  have hend : l.next.2.cursor.rest = [] := by
    simp [Lexer.next, hstep, Found.step, h.rest]
  rw [h.lexeme, lex_eq_tokens, ← hl, Lexer.tokens_of_next_some hnext,
    Lexer.tokens_of_rest_eq_nil hend]
  rfl

/-- An expectation finds the names of scenes and modules, the colon between
them, and argument lists. -/
theorem expected?_kind {e : Expectation} {found : Found} (h : expected? legacy e c = some found) :
    found.token.kind ∈ [Kind.sceneName, .sceneArgs, .modName, .modSep] := by
  obtain ⟨b, tail, -, ⟨-, -, rfl⟩ | ⟨m, rfl, hm⟩⟩ := expected?_cases h
  · simp [sceneArgs, Body.enclose, Cursor.tokenTo]
  · rcases hm with ⟨-, -, rfl⟩ | ⟨-, hm⟩ | ⟨-, hm⟩
    · simp [Match.found, Cursor.tokenTo]
    · obtain ⟨-, -, rfl⟩ := Rule.modName?_eq_some_iff.mp hm
      simp [Match.found, Cursor.tokenTo]
    · obtain ⟨-, rfl⟩ := Rule.sceneName?_eq_some_iff.mp hm
      simp [Match.found, Cursor.tokenTo]

/-- A token of a script that is of none of those kinds was found by the general
rules. -/
theorem lex_general {source : Bytes} {options : LexOptions} {t : Token}
    (ht : t ∈ (lex source options).1)
    (hkind : t.kind ∉ [Kind.sceneName, .sceneArgs, .modName, .modSep, .eof]) :
    ∃ d found, d.In source ∧ general? options.legacyIdentifiers d = some found ∧
      found.token = t := by
  have horigin : ∀ u ∈ (Lexer.start source options).tokens,
      u.kind ∈ [Kind.sceneName, .sceneArgs, .modName, .modSep] ∨
        ∃ d found, d.In source ∧ general? options.legacyIdentifiers d = some found ∧
          found.token = u :=
    Lexer.tokens_forall_origin (Lexer.start_in source options)
      (fun e d found hd hexp => Or.inl (expected?_kind hexp))
      (fun d found hd hgen => Or.inr ⟨d, found, hd, hgen, rfl⟩)
  rw [lex_eq_tokens, List.mem_append, List.mem_singleton] at ht
  rcases ht with ht | rfl
  · refine (horigin t ht).resolve_left fun hexpected => hkind ?_
    exact List.mem_append_left [Kind.eof] hexpected
  · simp [Token.eof] at hkind

/--
**Lexemes are self-contained.** Take any top-level token of a script that is
none of a scene's name or arguments, a module's name or the colon behind one,
and that is not a variable `Self` (which is always a part of a longer word).
Read by themselves, by the same revision of the grammar, its bytes are that
token and nothing else: the same kind, the same bytes, cut off or not as it
was, with the same tokens inside, all moved to where the text now starts.
-/
theorem lex_lexeme (source : Bytes) (options : LexOptions) (report : Bool) (t : Token)
    (ht : t ∈ (lex source options).1)
    (hkind : t.kind ∉ [Kind.sceneName, .sceneArgs, .modName, .modSep, .eof])
    (hself : ¬ (t.kind = .variableName ∧ t.lexeme = ascii "Self")) :
    ∃ u : Token,
      (lex t.lexeme ⟨0, options.legacyIdentifiers, report⟩).1 =
        [u, Token.eof t.lexeme.length] ∧
      u.shift t.span.start = t := by
  obtain ⟨d, found, hd, hgen, rfl⟩ := lex_general ht hkind
  have hmod : found.token.kind ≠ .modName := by
    intro hk
    simp [hk] at hkind
  obtain ⟨n, found', halone⟩ := general?_alone hd hgen hmod hself
  refine ⟨found'.token, halone.lex_eq report, ?_⟩
  rw [(general?_foundAt hgen).start_eq]
  exact halone.token

/-- A string behind a skipped word, with a template that its line cuts off. -/
theorem lex_lexeme_template :
    let t : Token := ⟨.string, ⟨2, 7⟩, ascii "> \x7b\x7bA",
      [⟨.template, ⟨4, 7⟩, ascii "\x7b\x7bA", [⟨.variableName, ⟨6, 7⟩, ascii "A", [], false⟩],
        true⟩], false⟩
    t ∈ (lex (ascii "x1> \x7b\x7bA\n|") {}).1 ∧
      ∃ u : Token, (lex (ascii "> \x7b\x7bA") {}).1 = [u, Token.eof 5] ∧ u.shift 2 = t := by
  intro t
  have ht : t ∈ (lex (ascii "x1> \x7b\x7bA\n|") {}).1 := by decide +kernel
  exact ⟨ht, lex_lexeme (ascii "x1> \x7b\x7bA\n|") {} true t ht (by decide) (by decide)⟩

end StoryLex
