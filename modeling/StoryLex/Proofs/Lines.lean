import StoryLex.Proofs.Layout

/-!
# StoryLex — rules stay in their line

Rules look ahead: a word may be directly followed by a colon and another word,
a number by a `d` and a digit, a mark by its second byte. None of them looks
past a newline, for a newline is in no class a rule asks for. So behind the
end of a line any text may follow without a change to what was found before.

* `Rule.leaf?_append`, `argsPiece_append` — the rules themselves.
* `general?_extend`, `expected?_extend` — the two ways to find a token. Only an
  argument list that was cut off could have gone on.
* `scanToken_extend` — the search for the next token. Where it came to the end
  of the text, it goes on in what follows (`Step.resume`).
-/

namespace StoryLex

-- ---------------------------------------------------------------------------
-- Texts that end with a line
-- ---------------------------------------------------------------------------

/-- The text ends with the end of a line. -/
def EndsLine (text : Bytes) : Prop := text.getLast? = some newline

variable {t : Bytes} {b : UInt8} {p : UInt8 → Bool}

namespace EndsLine

theorem ne_nil (h : EndsLine t) : t ≠ [] := by
  rintro rfl
  simp [EndsLine] at h

theorem newline_mem (h : EndsLine t) : newline ∈ t := List.mem_of_getLast? h

theorem drop (h : EndsLine t) {n : Nat} (hn : n < t.length) : EndsLine (t.drop n) := by
  rw [EndsLine, List.getLast?_drop, if_neg (by omega)]
  exact h

/-- However many bytes are dropped, nothing is left or the end of a line is. -/
theorem drop_or (h : EndsLine t) (n : Nat) : t.drop n = [] ∨ EndsLine (t.drop n) := by
  by_cases hn : n < t.length
  · exact Or.inr (h.drop hn)
  · exact Or.inl (List.drop_eq_nil_of_le (by omega))

/-- What is left after a byte that is no newline ends with a line as well. -/
theorem of_cons (h : EndsLine (b :: t)) (hb : b ≠ newline) : EndsLine t := by
  cases t with
  | nil => exact absurd (by simpa [EndsLine] using h) hb
  | cons c t => exact h.drop (n := 1) (by simp)

theorem cons (h : EndsLine t) (b : UInt8) : EndsLine (b :: t) := by
  rw [EndsLine, List.getLast?_cons, h]
  rfl

/-- Two bytes can be read, or the one that is left is the newline. -/
theorem eq_newline_or (h : EndsLine t) : t = [newline] ∨ ∃ c d rest, t = c :: d :: rest := by
  match t with
  | [] => exact absurd rfl h.ne_nil
  | [c] =>
    have hc : c = newline := by simpa [EndsLine] using h
    exact Or.inl (by rw [hc])
  | c :: d :: rest => exact Or.inr ⟨c, d, rest, rfl⟩

theorem head?_append (h : EndsLine t) (more : Bytes) : (t ++ more).head? = t.head? :=
  List.head?_append_of_ne_nil _ h.ne_nil

/-- A run of a class without newlines ends before the text does. -/
theorem runLength_lt (h : EndsLine t) (hp : p newline = false) : runLength p t < t.length := by
  refine Nat.lt_of_le_of_ne (runLength_le p t) ?_
  intro heq
  -- a run over the whole text would have the newline in it
  have hall : t.take (runLength p t) = t := by rw [heq, List.take_length]
  refine newline_notMem_run hp t ?_
  rw [hall]
  exact h.newline_mem

/-- The run of a class without newlines is the same when the text goes on. -/
theorem takeWhile_append (h : EndsLine t) (hp : p newline = false) (more : Bytes) :
    (t ++ more).takeWhile p = t.takeWhile p := by
  have hne : (t.takeWhile p).length ≠ t.length := Nat.ne_of_lt (h.runLength_lt hp)
  rw [List.takeWhile_append, if_neg hne]

theorem runLength_append (h : EndsLine t) (hp : p newline = false) (more : Bytes) :
    runLength p (t ++ more) = runLength p t := by
  rw [runLength, h.takeWhile_append hp, runLength]

theorem take_run_append (h : EndsLine t) (hp : p newline = false) (more : Bytes) :
    (t ++ more).take (runLength p t) = t.take (runLength p t) :=
  List.take_append_of_le_length (Nat.le_of_lt (h.runLength_lt hp))

theorem drop_run_append (h : EndsLine t) (hp : p newline = false) (more : Bytes) :
    (t ++ more).drop (runLength p t) = t.drop (runLength p t) ++ more :=
  List.drop_append_of_le_length (Nat.le_of_lt (h.runLength_lt hp))

end EndsLine

-- ---------------------------------------------------------------------------
-- The rules
-- ---------------------------------------------------------------------------

namespace Rule

variable {tail : Bytes}

/-- A scene's name ends before its line does, whatever follows. -/
theorem sceneName?_append (h : EndsLine tail) (legacy : Bool) (b : UInt8) (more : Bytes) :
    sceneName? legacy b (tail ++ more) = sceneName? legacy b tail := by
  rw [sceneName?, h.runLength_append (by decide), sceneName?]

/-- A module's name, its mark and the word behind stand in one line, whatever
follows. -/
theorem modName?_append (h : EndsLine tail) (b : UInt8) (more : Bytes) :
    modName? b (tail ++ more) = modName? b tail := by
  have hp : isWord newline = false := by decide
  simp only [modName?, h.runLength_append hp, h.drop_run_append hp]
  -- behind the word stands the newline, or two bytes at least
  rcases (h.drop (h.runLength_lt hp)).eq_newline_or with hrest | ⟨c, d, rest, hrest⟩
  · rw [hrest]
    cases more <;> rfl
  · rw [hrest]
    rfl

/-- A number and a roll of dice end before their line does, whatever follows. -/
theorem number?_append (h : EndsLine tail) (b : UInt8) (more : Bytes) :
    number? b (tail ++ more) = number? b tail := by
  have hp : isDigit newline = false := by decide
  have hdrop := h.drop (h.runLength_lt hp)
  simp only [number?, h.runLength_append hp, h.drop_run_append hp]
  -- behind the digits stands the newline, or two bytes at least
  rcases hdrop.eq_newline_or with hrest | ⟨c, d, rest, hrest⟩
  · rw [hrest]
    cases more <;> rfl
  · rw [hrest]
    simp only [List.cons_append]
    by_cases hroll : (c == byte 'd' && isDigit d) = true
    · -- neither the `d` nor the digit is the newline
      rw [Bool.and_eq_true, beq_iff_eq] at hroll
      obtain ⟨rfl, hd⟩ := hroll
      have hrest' : EndsLine rest := by
        rw [hrest] at hdrop
        refine (hdrop.of_cons (by decide)).of_cons ?_
        rintro rfl
        simp [hp] at hd
      rw [hrest'.runLength_append hp]
    · rw [if_neg hroll, if_neg hroll]

/-- A variable ends before its line does, and the byte behind it stands in that
line too. -/
theorem variableName?_append (h : EndsLine tail) (before : Option UInt8) (b : UInt8)
    (more : Bytes) : variableName? before b (tail ++ more) = variableName? before b tail := by
  have hp : isLetter newline = false := by decide
  simp only [variableName?, h.runLength_append hp, h.drop_run_append hp, h.take_run_append hp,
    (h.drop (h.runLength_lt hp)).head?_append]

/-- A word is taken for the same when the text goes on behind its line. -/
theorem word?_append (h : EndsLine tail) (before : Option UInt8) (b : UInt8) (more : Bytes) :
    word? before b (tail ++ more) = word? before b tail := by
  have hp : isWord newline = false := by decide
  simp only [word?, modName?_append h, variableName?_append h, number?_append h,
    h.runLength_append hp, h.take_run_append hp]

/-- A name behind a sigil ends before its line does, whatever follows. -/
theorem sigil?_append (h : EndsLine tail) (legacy : Bool) (s : Sigil) (more : Bytes) :
    sigil? legacy s (tail ++ more) = sigil? legacy s tail := by
  cases tail with
  | nil => exact absurd rfl h.ne_nil
  | cons c rest =>
    simp only [sigil?, List.cons_append]
    by_cases hc : s.first legacy c = true
    · have hrest : EndsLine rest := by
        refine h.of_cons ?_
        rintro rfl
        simp [Sigil.first_newline] at hc
      rw [hrest.runLength_append (Sigil.later_newline legacy s)]
    · rw [if_neg hc, if_neg hc]

/-- An equals sign looks at two bytes behind it, and not past a newline. -/
theorem equals?_append (h : EndsLine tail) (before : Option UInt8) (more : Bytes) :
    equals? before (tail ++ more) = equals? before tail := by
  rcases h.eq_newline_or with rfl | ⟨c, d, rest, rfl⟩
  · -- the newline is next, and it is no equals sign
    cases more <;> rfl
  · rfl

/-- A mark looks at one byte behind it, and not past a newline. -/
theorem mark?_append (h : EndsLine tail) (b : UInt8) (more : Bytes) :
    mark? b (tail ++ more) = mark? b tail := by
  rw [mark?, h.head?_append, mark?]

/-- Every leaf is the same when the text goes on behind its line. -/
theorem leaf?_append (h : EndsLine tail) (legacy : Bool) (before : Option UInt8) (b : UInt8)
    (more : Bytes) : leaf? legacy before b (tail ++ more) = leaf? legacy before b tail := by
  simp only [leaf?, equals?_append h, word?_append h, sigil?_append h, mark?_append h]

/-- As many bytes are skipped without a rule when the text goes on. -/
theorem junk_append (h : EndsLine tail) (b : UInt8) (more : Bytes) :
    junk b (tail ++ more) = junk b tail := by
  refine h.runLength_append ?_ more
  split <;> decide

end Rule

/-- In an argument list a newline is filler, so its rules may be asked at the
end of the line as well. -/
theorem argsPiece_append {tail : Bytes} (h : EndsLine (b :: tail)) (legacy : Bool)
    (before : Option UInt8) (more : Bytes) :
    argsPiece legacy before b (tail ++ more) = argsPiece legacy before b tail := by
  by_cases hb : b = newline
  · subst hb
    rfl
  · have htail := h.of_cons hb
    simp only [argsPiece, Rule.sigil?_append htail, htail.head?_append,
      Rule.number?_append htail, Rule.variableName?_append htail, Rule.junk_append htail]

-- ---------------------------------------------------------------------------
-- Places in a longer text
-- ---------------------------------------------------------------------------

/-- The same place in a text that goes on with `more`. -/
def Cursor.extend (more : Bytes) (c : Cursor) : Cursor := { c with rest := c.rest ++ more }

def Found.extend (more : Bytes) (found : Found) : Found :=
  { found with stop := found.stop.extend more }

def Body.extend (more : Bytes) (body : Body) : Body :=
  { body with stop := body.stop.extend more }

variable {text : Bytes} {c d : Cursor} {legacy : Bool}

namespace Cursor

@[simp] theorem offset_extend (more : Bytes) (c : Cursor) :
    (c.extend more).offset = c.offset := rfl

@[simp] theorem before_extend (more : Bytes) (c : Cursor) :
    (c.extend more).before = c.before := rfl

/-- A place in a longer text is followed by the same byte, and by more at the
end. -/
theorem rest_extend {tail : Bytes} (h : c.rest = b :: tail) (more : Bytes) :
    (c.extend more).rest = b :: (tail ++ more) := by
  rw [extend, h, List.cons_append]

theorem advance_extend {n : Nat} (h : n ≤ c.rest.length) (more : Bytes) :
    (c.extend more).advance n = (c.advance n).extend more := by
  simp only [advance, extend, List.take_append_of_le_length h, List.drop_append_of_le_length h]

/-- A run that ends with its line is skipped in a longer text as in the text
itself. -/
theorem skip_extend (h : EndsLine c.rest) (hp : p newline = false) (more : Bytes) :
    (c.extend more).skip p = (c.skip p).extend more := by
  have hlt := h.runLength_lt hp
  rw [skip, show (c.extend more).rest = c.rest ++ more from rfl, h.runLength_append hp,
    advance_extend (Nat.le_of_lt hlt), skip]

/-- The rest of a line is the same in a longer text. -/
theorem inLine_extend (h : EndsLine c.rest) (more : Bytes) :
    (c.extend more).inLine = c.inLine := by
  simp only [inLine, extend, h.takeWhile_append (p := isInLine) (by decide)]

/-- A place of a text is a place of any longer one. -/
theorem In.extend (hc : c.In text) (more : Bytes) : (c.extend more).In (text ++ more) := by
  have hle := hc.offset_le
  refine ⟨?_, ?_, ?_⟩
  · rw [List.length_append]
    exact Nat.le_add_right_of_le hle
  · rw [offset_extend, List.take_append_of_le_length hle]
    exact hc.before_eq
  · rw [offset_extend, List.drop_append_of_le_length hle,
      ← hc.rest_eq]
    rfl

/-- From every place in a text that ends with a line, the rest does so too. -/
theorem In.endsLine (hc : c.In text) (htext : text = [] ∨ EndsLine text) :
    c.rest = [] ∨ EndsLine c.rest := by
  rw [hc.rest_eq]
  rcases htext with rfl | htext
  · exact Or.inl List.drop_nil
  · exact htext.drop_or _

/-- A token that ends in the shorter text is the same in the longer one. -/
theorem In.tokenTo_extend (hc : c.In text) (hd : d.offset ≤ text.length) (more : Bytes)
    (kind : Kind) : (c.extend more).tokenTo d kind = c.tokenTo d kind := by
  have hlen := hc.length_rest
  simp only [tokenTo, spanTo, Cursor.extend]
  rw [List.take_append_of_le_length (by omega)]

end Cursor

-- ---------------------------------------------------------------------------
-- One token of a longer text
-- ---------------------------------------------------------------------------

theorem Match.found_extend {m : Match} (hc : c.In text) (h : m.more + 1 ≤ c.rest.length)
    (more : Bytes) : m.found (c.extend more) = (m.found c).extend more := by
  have htoken := hc.tokenTo_extend (hc.advance (m.more + 1)).offset_le more m.kind
  simp only [found, Found.extend, Cursor.advance_extend h]
  rw [← htoken]
  rfl

/-- A region that ends in the text is the same token in a longer one. -/
theorem Body.enclose_extend {body : Body} (hc : c.In text) (h : body.stop.offset ≤ text.length)
    (more : Bytes) (kind : Kind) :
    (body.extend more).enclose (c.extend more) kind = (body.enclose c kind).extend more := by
  have htoken := hc.tokenTo_extend h more kind
  simp only [enclose, extend, Found.extend]
  rw [← htoken]
  rfl

/-- A mark of two bytes leaves the end of its line to come. -/
theorem EndsLine.advance_two {x y : UInt8} {tail : Bytes} (h : EndsLine c.rest)
    (hrest : c.rest = x :: y :: tail) (hx : x ≠ newline) (hy : y ≠ newline) :
    EndsLine (c.advance 2).rest := by
  rw [hrest] at h
  rw [Cursor.rest_advance, hrest]
  exact (h.of_cons hx).of_cons hy

theorem advance_two_extend (h : EndsLine (c.advance 2).rest) (more : Bytes) :
    (c.extend more).advance 2 = (c.advance 2).extend more := by
  have hlen : 2 < c.rest.length := by
    simpa using h.ne_nil
  exact Cursor.advance_extend (Nat.le_of_lt hlen) more

/-- A comment is the same in a longer text. -/
theorem comment_extend (hc : c.In text) (h : EndsLine (c.advance 2).rest) (more : Bytes) :
    comment (c.extend more) = (comment c).extend more := by
  have hstop := Cursor.skip_extend h (p := isInLine) (by decide) more
  have htoken := hc.tokenTo_extend ((hc.advance 2).skip isInLine).offset_le more .comment
  simp only [comment, advance_two_extend h, hstop, Found.extend]
  rw [← htoken]
  rfl

/-- A string line and its templates are the same in a longer text. -/
theorem string_extend (hc : c.In text) (h : EndsLine (c.advance 2).rest) (more : Bytes) :
    string (c.extend more) = (string c).extend more := by
  have hstop := Cursor.skip_extend h (p := isInLine) (by decide) more
  -- the inside of a string is read in its line alone
  have hinside := Cursor.inLine_extend h more
  have hle : (scanString (c.advance 2).inLine).stop.offset ≤ text.length := by
    rw [(scanString_inLine (hc.advance 2)).1]
    exact ((hc.advance 2).skip isInLine).offset_le
  have htoken : ((scanString (c.advance 2).inLine).enclose (c.extend more) .string).token =
      ((scanString (c.advance 2).inLine).enclose c .string).token := by
    have henclose := Body.enclose_extend hc hle more .string
    exact congrArg (fun found => found.token) henclose
  simp only [string, advance_two_extend h, hstop, hinside, htoken, Found.extend]
  rfl

/-- An argument list that was closed ends before its line does, and nothing
that follows can change it. -/
theorem scanBody_args_extend (hc : c.In text) (hline : c.rest = [] ∨ EndsLine c.rest)
    (hclosed : (scanBody (argsPiece legacy) c).closed = true) (more : Bytes) :
    scanBody (argsPiece legacy) (c.extend more) = (scanBody (argsPiece legacy) c).extend more ∧
      EndsLine (scanBody (argsPiece legacy) c).stop.rest := by
  have hp := argsPiece_spec legacy
  -- one turn of the loop takes the same piece in the longer text
  have hturn : ∀ {c : Cursor} {b : UInt8} {tail : Bytes}, c.rest = b :: tail →
      (c.rest = [] ∨ EndsLine c.rest) → EndsLine c.rest ∧
        argsPiece legacy (c.extend more).before b (tail ++ more) =
          argsPiece legacy c.before b tail := by
    intro c b tail h hline
    have hend := hline.resolve_left (by simp [h])
    exact ⟨hend, argsPiece_append (h ▸ hend) legacy c.before more⟩
  fun_induction scanBody (argsPiece legacy) c with
  | case1 c h => simp at hclosed
  | case2 c b tail h n hpiece =>
    obtain ⟨hend, hpiece'⟩ := hturn h hline
    obtain ⟨hwidth, -⟩ := hp.of_close hpiece
    -- the newline is filler and closes nothing
    have hb : b ≠ newline := by
      rintro rfl
      cases hpiece
    rw [scanBody_eq (Cursor.rest_extend h more), hpiece', hpiece]
    simp only [hwidth]
    refine ⟨?_, ?_⟩
    · rw [Cursor.advance_extend (by simp [h])]
      rfl
    · rw [h] at hend
      rw [Cursor.rest_advance, h]
      exact hend.of_cons hb
  | case3 c b tail h hpiece ih =>
    obtain ⟨hend, hpiece'⟩ := hturn h hline
    rw [scanBody_eq (Cursor.rest_extend h more), hpiece', hpiece]
    simp only [Cursor.advance_extend (c := c) (n := 1) (by simp [h])]
    exact ih (hc.advance 1) (hend.drop_or 1) hclosed
  | case4 c b tail h m hpiece found body ih =>
    obtain ⟨hend, hpiece'⟩ := hturn h hline
    have hlen := Cursor.succ_le_length_rest h (hp.of_leaf hpiece).2
    obtain ⟨hbody, hstop⟩ := ih (hc.advance _) (hend.drop_or _) hclosed
    rw [scanBody_eq (Cursor.rest_extend h more), hpiece', hpiece]
    simp only [Match.found_extend hc hlen, Cursor.advance_extend hlen, hbody]
    exact ⟨rfl, hstop⟩
  | case5 c b tail h n hpiece next body ih =>
    obtain ⟨hend, hpiece'⟩ := hturn h hline
    have hlen := Cursor.succ_le_length_rest h (hp.of_junk hpiece).1
    obtain ⟨hbody, hstop⟩ := ih (hc.advance _) (hend.drop_or _) hclosed
    rw [scanBody_eq (Cursor.rest_extend h more), hpiece', hpiece]
    simp only [Cursor.advance_extend hlen]
    rw [show c.advance (n + 1) = next from rfl, hbody]
    exact ⟨rfl, hstop⟩

/-- So does every argument list that was closed. -/
theorem sceneArgs_extend {tail : Bytes} (hc : c.In text) (hrest : c.rest = byte '(' :: tail)
    (hline : EndsLine c.rest) (hclosed : (sceneArgs legacy c).token.unterminated = false)
    (more : Bytes) :
    sceneArgs legacy (c.extend more) = (sceneArgs legacy c).extend more ∧
      EndsLine (sceneArgs legacy c).stop.rest := by
  have hbody : (scanBody (argsPiece legacy) (c.advance 1)).closed = true := by
    simpa [sceneArgs, Body.enclose] using hclosed
  obtain ⟨hextend, hstop⟩ :=
    scanBody_args_extend (hc.advance 1) (hline.drop_or 1) hbody more
  refine ⟨?_, hstop⟩
  rw [sceneArgs, Cursor.advance_extend (by simp [hrest]), hextend]
  exact Body.enclose_extend hc
    (scanBody_laid (argsPiece_spec legacy) (hc.advance 1)).stop_in.offset_le more .sceneArgs

/-- The general rules find the same in a longer text. -/
theorem general?_extend {tail : Bytes} (hc : c.In text) (hrest : c.rest = b :: tail)
    (hline : EndsLine tail) (more : Bytes) :
    general? legacy (c.extend more) = (general? legacy c).map (·.extend more) := by
  rw [general?_eq (Cursor.rest_extend hrest more), general?_eq hrest, hline.head?_append,
    Cursor.before_extend, Rule.leaf?_append hline]
  -- the marks that open a comment and a string leave the end of their line to come
  have hmark : ∀ {x y : UInt8}, (b == x && tail.head? = some y) = true → x ≠ newline →
      y ≠ newline → EndsLine (c.advance 2).rest := by
    intro x y hxy hx hy
    obtain ⟨rfl, tail', rfl⟩ := front_of_mark hxy
    exact EndsLine.advance_two (hrest ▸ hline.cons b) hrest hx hy
  split_ifs with hcomment hstring
  · rw [comment_extend hc (hmark hcomment (by decide) (by decide)), Option.map_some]
  · rw [string_extend hc (hmark hstring (by decide) (by decide)), Option.map_some]
  · cases hm : Rule.leaf? legacy c.before b tail with
    | none => rfl
    | some m =>
      have hfits := Cursor.succ_le_length_rest hrest (Rule.leaf?_fits hm)
      rw [Option.map_some, Option.map_some, Option.map_some, Match.found_extend hc hfits]

/-- No expectation is met at the end of a line. -/
theorem Expectation.meet?_newline (e : Expectation) (d : Cursor) (tail : Bytes) :
    e.meet? legacy d newline tail = Option.none := by
  cases e <;> cases legacy <;> rfl

/-- An expectation is asked at the same place of a longer text, before the line
has ended. -/
theorem Expectation.place_extend (e : Expectation) (hline : EndsLine c.rest) (more : Bytes) :
    e.place (c.extend more) = (e.place c).extend more ∧ EndsLine (e.place c).rest := by
  unfold place
  split
  · exact ⟨rfl, hline⟩
  · have hp : isBlank newline = false := by decide
    exact ⟨Cursor.skip_extend hline hp more, hline.drop (hline.runLength_lt hp)⟩

/-- An expectation is met by the same in a longer text, unless it is an
argument list that was cut off. -/
theorem Expectation.meet?_extend {e : Expectation} {tail : Bytes} (hd : d.In text)
    (hrest : d.rest = b :: tail) (hline : EndsLine d.rest)
    (hterm : ∀ found, e.meet? legacy d b tail = some found → found.token.unterminated = false)
    (more : Bytes) :
    e.meet? legacy (d.extend more) b (tail ++ more) =
      (e.meet? legacy d b tail).map (·.extend more) := by
  by_cases hb : b = newline
  · rw [hb, meet?_newline, meet?_newline]
    rfl
  have htail : EndsLine tail := by
    rw [hrest] at hline
    exact hline.of_cons hb
  -- away from the newline, what is expected is a match that fits in the line
  have hfound : ∀ m : Match, m.more ≤ tail.length →
      m.found (d.extend more) = (m.found d).extend more :=
    fun m hm => Match.found_extend hd (Cursor.succ_le_length_rest hrest hm) more
  have hmap : ∀ o : Option Match, (∀ m, o = some m → m.more ≤ tail.length) →
      o.map (·.found (d.extend more)) = (o.map (·.found d)).map (·.extend more) := by
    intro o ho
    cases o with
    | none => rfl
    | some m => exact congrArg some (hfound m (ho m rfl))
  cases e with
  | none => rfl
  | sceneName =>
    simp only [meet?, Rule.sceneName?_append htail]
    exact hmap _ fun m hm => Rule.sceneName?_fits hm
  | sceneOrModule =>
    simp only [meet?, Rule.modName?_append htail, Rule.sceneName?_append htail]
    refine hmap _ ?_
    intro m hm
    rw [Option.orElse_eq_orElse, Option.orElse_eq_or, Option.or_eq_some_iff] at hm
    rcases hm with hm | ⟨-, hm⟩
    · exact Rule.modName?_fits hm
    · exact Rule.sceneName?_fits hm
  | modSep =>
    simp only [meet?, hfound ⟨.modSep, 0⟩ (Nat.zero_le _)]
    split <;> rfl
  | sceneArgs =>
    simp only [meet?] at hterm ⊢
    split
    · next hopen =>
      rw [if_pos hopen] at hterm
      obtain rfl := beq_iff_eq.mp hopen
      exact congrArg some (sceneArgs_extend hd hrest hline (hterm _ rfl) more).1
    · rfl

/-- What is expected is found in a longer text just when it is in the text
itself, unless it is an argument list that was cut off. -/
theorem expected?_extend {e : Expectation} (hc : c.In text) (hline : EndsLine c.rest)
    (hterm : ∀ found, expected? legacy e c = some found → found.token.unterminated = false)
    (more : Bytes) :
    expected? legacy e (c.extend more) = (expected? legacy e c).map (·.extend more) := by
  obtain ⟨hplace, hend⟩ := e.place_extend hline more
  obtain ⟨b, tail, hrest⟩ := List.exists_cons_of_ne_nil hend.ne_nil
  have hrest' : (e.place (c.extend more)).rest = b :: (tail ++ more) := by
    rw [hplace]
    exact Cursor.rest_extend hrest more
  rw [expected?_eq hrest', hplace]
  rw [expected?_eq hrest] at hterm ⊢
  exact Expectation.meet?_extend (e.place_in hc) hrest hend hterm more

/-- A token that was not cut off ends before its line does. -/
theorem FoundAt.endsLine {found : Found} (hc : c.In text) (hline : EndsLine c.rest)
    (h : FoundAt legacy c found) (hterm : found.token.unterminated = false) :
    EndsLine found.stop.rest := by
  have hskip : EndsLine (c.advance 2).rest → EndsLine ((c.advance 2).skip isInLine).rest :=
    fun hend => hend.drop (hend.runLength_lt (by decide))
  cases h with
  | @leaf b tail m rest fits inLine =>
    refine hline.drop ?_
    rw [rest, List.length_cons]
    by_contra hlen
    rw [List.take_of_length_le (by omega), ← rest] at inLine
    exact inLine hline.newline_mem
  | comment rest => exact hskip (hline.advance_two rest (by decide) (by decide))
  | string rest => exact hskip (hline.advance_two rest (by decide) (by decide))
  | sceneArgs rest => exact (sceneArgs_extend hc rest hline hterm []).2

-- ---------------------------------------------------------------------------
-- The search for the next token in a longer text
-- ---------------------------------------------------------------------------

/-- What the search comes to in a text that goes on with `more`, given what it
came to before: a token stays, and where there was none, the search goes on. -/
def Step.resume (legacy : Bool) (more : Bytes) (step : Step) : Step :=
  match step.token with
  | some t => { step with token := some t, stop := step.stop.extend more }
  | none =>
    let later := scanGeneral legacy (step.stop.extend more)
    { later with faults := step.faults ++ later.faults }

/-- The search by the general rules goes on in what follows where it had come to
the end of the text. -/
theorem scanGeneral_extend (hc : c.In text) (hline : c.rest = [] ∨ EndsLine c.rest)
    (more : Bytes) :
    scanGeneral legacy (c.extend more) = (scanGeneral legacy c).resume legacy more := by
  -- only white space stands at the end of a line
  have hrun : ∀ {c : Cursor} {b : UInt8} {tail : Bytes}, c.rest = b :: tail →
      (c.rest = [] ∨ EndsLine c.rest) → ¬ isSpace b = true → EndsLine tail := by
    intro c b tail h hline hspace
    rw [h] at hline
    refine (hline.resolve_left (by simp)).of_cons ?_
    rintro rfl
    exact hspace (by decide)
  fun_induction scanGeneral legacy c with
  | case1 c h => rfl
  | case2 c b tail h hspace ih =>
    have hend := hline.resolve_left (by simp [h])
    rw [scanGeneral_eq (Cursor.rest_extend h more), if_pos hspace,
      Cursor.advance_extend (by simp [h])]
    exact ih (hc.advance 1) (hend.drop_or 1)
  | case3 c b tail h hspace found hgen =>
    have hend := hrun h hline hspace
    rw [scanGeneral_eq (Cursor.rest_extend h more), if_neg hspace, general?_extend hc h hend,
      hgen]
    rfl
  | case4 c b tail h hspace hgen next step ih =>
    have hend := hrun h hline hspace
    have hlen := Cursor.succ_le_length_rest h (Rule.junk_le b tail)
    rw [scanGeneral_eq (Cursor.rest_extend h more), if_neg hspace, general?_extend hc h hend,
      hgen, Rule.junk_append hend]
    simp only [Option.map_none, Cursor.advance_extend hlen]
    rw [show c.advance (Rule.junk b tail + 1) = next from rfl,
      ih (hc.advance _) ((hline.resolve_left (by simp [h])).drop_or _)]
    -- what was skipped before stays in front, token or not
    show _ = Step.resume legacy more ⟨step.token, _, step.stop⟩
    unfold Step.resume
    cases (scanGeneral legacy next).token <;> rfl

/-- The search for the next token in a longer text. -/
theorem scanToken_extend {e : Expectation} (hc : c.In text)
    (hline : c.rest = [] ∧ e = .none ∨ EndsLine c.rest)
    (hterm : ∀ t, (scanToken legacy e c).token = some t → t.unterminated = false)
    (more : Bytes) :
    scanToken legacy e (c.extend more) = (scanToken legacy e c).resume legacy more := by
  rcases hline with ⟨hrest, rfl⟩ | hline
  · rw [scanToken_none, scanToken_none]
    exact scanGeneral_extend hc (Or.inl hrest) more
  · unfold scanToken at hterm ⊢
    rw [expected?_extend hc hline ?_ more]
    · cases hexp : expected? legacy e c with
      | none => exact scanGeneral_extend hc (Or.inr hline) more
      | some found => rfl
    · -- what was expected and found is the token handed out
      intro found hfound
      rw [hfound] at hterm
      exact hterm _ rfl

end StoryLex
