import StoryLex.Proofs.Session

/-!
# StoryLex — the protocol of expectations

Three kinds of token are found only where the token before lets them: the
colon after a module's name, a scene's name and its arguments. This module
says exactly when each of them comes next, in both directions, from the two
neighbours and the text between them (`Follows`).

* `expected?_prompted`, `prompted_of_expected?_eq_none` — one step: what the
  expectation before it and the text make of a token (`Prompted`).
* `Lexer.run_follows` — a whole run: each token is what its neighbour on the
  left prompts.
* `lex_follows` — the protocol of a stream, and the expectation that every
  call of `next` leaves.
-/

namespace StoryLex

-- ---------------------------------------------------------------------------
-- What the text has to offer
-- ---------------------------------------------------------------------------

/-- The first offset from `n` on whose byte is not in the class `p`, or the end
of the text. -/
def runEnd (p : UInt8 → Bool) (text : Bytes) (n : Nat) : Nat := n + runLength p (text.drop n)

/-- The bytes with which a scene's name starts. -/
def isSceneStart (legacy : Bool) (b : UInt8) : Bool := if legacy then isWord b else isLower b

/-- A letter stands at `n` whose word is directly followed by a colon and a
word byte. -/
def ModNameAt (text : Bytes) (n : Nat) : Prop :=
  (text[n]?).any isLetter = true ∧ text[runEnd isWord text n]? = some (byte ':') ∧
    (text[runEnd isWord text n + 1]?).any isWord = true

variable {text : Bytes} {legacy : Bool} {e : Expectation} {c : Cursor} {found : Found}
  {b : UInt8} {tail : Bytes}

/-- The rule for module names sees what the text has. -/
theorem Cursor.In.modNameAt_iff (hc : c.In text) (hrest : c.rest = b :: tail) :
    ModNameAt text c.offset ↔ isLetter b = true ∧ Rule.Qualifies tail := by
  unfold ModNameAt
  rw [hc.getElem?_offset hrest, Option.any_some]
  refine and_congr_right fun hb => ?_
  -- the word goes on from its first letter as the tail says
  have hend : runEnd isWord text c.offset = c.offset + (runLength isWord tail + 1) := by
    rw [runEnd, ← hc.rest_eq, hrest, runLength,
      List.takeWhile_cons_of_pos (Rule.isWord_of_isLetter hb)]
    rfl
  have hdrop : ∀ k, text[c.offset + (runLength isWord tail + 1) + k]? =
      (tail.drop (runLength isWord tail))[k]? := by
    intro k
    rw [Nat.add_assoc, ← hc.getElem?_rest, hrest, List.getElem?_drop,
      show runLength isWord tail + 1 + k = (runLength isWord tail + k) + 1 by omega]
    rfl
  rw [hend, hdrop 1, ← Nat.add_zero (c.offset + (runLength isWord tail + 1)), hdrop 0]
  unfold Rule.Qualifies
  constructor
  · rintro ⟨hcolon, hword⟩
    match hlist : tail.drop (runLength isWord tail), hcolon, hword with
    | [], hcolon, _ => simp at hcolon
    | [x], _, hword => simp at hword
    | x :: d :: rest, hcolon, hword =>
      simp only [List.getElem?_cons_zero, Option.some.injEq] at hcolon
      exact ⟨d, rest, by rw [hcolon], by simpa using hword⟩
  · rintro ⟨d, rest, hlist, hd⟩
    rw [hlist]
    exact ⟨rfl, by simpa using hd⟩

-- ---------------------------------------------------------------------------
-- One step
-- ---------------------------------------------------------------------------

/-- What comes of an expectation at the offset `n`: the next token is one of
the three kinds exactly if the expectation and the text say so, and then it
stands where the text has it. -/
structure Prompted (text : Bytes) (legacy : Bool) (e : Expectation) (n : Nat) (t : Token) :
    Prop where
  modSep          : t.kind = .modSep ↔ e = .modSep ∧ text[n]? = some (byte ':')
  modSep_span     : t.kind = .modSep → t.span = ⟨n, n + 1⟩
  sceneArgs       : t.kind = .sceneArgs ↔
                      e = .sceneArgs ∧ text[runEnd isBlank text n]? = some (byte '(')
  sceneArgs_start : t.kind = .sceneArgs → t.span.start = runEnd isBlank text n
  sceneName       : t.kind = .sceneName ↔
                      (text[runEnd isBlank text n]?).any (isSceneStart legacy) = true ∧
                        (e = .sceneName ∨
                          e = .sceneOrModule ∧ ¬ ModNameAt text (runEnd isBlank text n))
  sceneName_start : t.kind = .sceneName → t.span.start = runEnd isBlank text n

/-- The place of an expectation that blanks may set off is behind them. -/
theorem Expectation.offset_place (hc : c.In text) (he : e ≠ .modSep) :
    (e.place c).offset = runEnd isBlank text c.offset := by
  rw [Expectation.place, if_neg he, Cursor.offset_skip, runEnd, hc.rest_eq]

/-- What is found because it was expected is what the expectation prompts. -/
theorem expected?_prompted (hc : c.In text) (h : expected? legacy e c = some found) :
    Prompted text legacy e c.offset found.token := by
  have hplace := e.place_in hc
  obtain ⟨b, tail, hrest, ⟨rfl, rfl, rfl⟩ | ⟨m, rfl, ⟨rfl, rfl, rfl⟩ | ⟨rfl, hm⟩ | ⟨he, hm⟩⟩⟩ :=
    expected?_cases h
  · -- an argument list
    have hq := Expectation.offset_place hc (e := .sceneArgs) (by simp)
    have hbyte := hplace.getElem?_offset hrest
    rw [hq] at hbyte
    have hk : (sceneArgs legacy (Expectation.place .sceneArgs c)).token.kind = .sceneArgs := rfl
    refine ⟨?_, ?_, ?_, fun _ => hq, ?_, ?_⟩
    all_goals simp [hk, hbyte]
  · -- the colon after a module's name
    have hbyte := hc.getElem?_offset hrest
    have hlen : 1 ≤ c.rest.length := by
      have : c.rest = byte ':' :: tail := hrest
      simp [this]
    have hspan : (Match.found ⟨.modSep, 0⟩ c).token.span = ⟨c.offset, c.offset + 1⟩ := by
      show Span.mk c.offset (c.advance 1).offset = _
      rw [Cursor.offset_advance hlen]
    have hk : (Match.found ⟨.modSep, 0⟩ c).token.kind = .modSep := rfl
    show Prompted text legacy .modSep c.offset (Match.found ⟨.modSep, 0⟩ c).token
    refine ⟨?_, fun _ => hspan, ?_, ?_, ?_, ?_⟩
    all_goals simp [hk, hbyte]
  · -- a module's name, which keeps a scene's name away
    have hq := Expectation.offset_place hc (e := .sceneOrModule) (by simp)
    obtain ⟨hb, hqual, rfl⟩ := Rule.modName?_eq_some_iff.mp hm
    have hmod : ModNameAt text (runEnd isBlank text c.offset) := by
      rw [← hq]
      exact (hplace.modNameAt_iff hrest).mpr ⟨hb, hqual⟩
    have hk : (Match.found ⟨.modName, runLength isWord tail⟩
        (Expectation.place .sceneOrModule c)).token.kind = .modName := rfl
    refine ⟨?_, ?_, ?_, ?_, ?_, ?_⟩
    all_goals simp [hk, hmod]
  · -- a scene's name
    have hne : e ≠ .modSep := by
      rcases he with rfl | ⟨rfl, -⟩ <;> simp
    have hq := Expectation.offset_place hc hne
    have hbyte := hplace.getElem?_offset hrest
    rw [hq] at hbyte
    obtain ⟨hstart, rfl⟩ := Rule.sceneName?_eq_some_iff.mp hm
    have hprompt : e = .sceneName ∨
        e = .sceneOrModule ∧ ¬ ModNameAt text (runEnd isBlank text c.offset) := by
      rcases he with he | ⟨he, hnone⟩
      · exact Or.inl he
      · refine Or.inr ⟨he, ?_⟩
        rw [← hq, hplace.modNameAt_iff hrest]
        rintro ⟨hb, hqual⟩
        rw [Rule.modName?_eq_some_iff.mpr ⟨hb, hqual, rfl⟩] at hnone
        simp at hnone
    have hk : (Match.found ⟨.sceneName, runLength isWord tail⟩ (e.place c)).token.kind =
        .sceneName := rfl
    refine ⟨?_, ?_, ?_, ?_, ?_, fun _ => hq⟩
    · simp [hk, hne]
    · simp [hk]
    · rcases he with rfl | ⟨rfl, -⟩ <;> simp [hk]
    · simp [hk]
    · simp only [hk, true_iff]
      exact ⟨by simpa [hbyte, isSceneStart] using hstart, hprompt⟩

/-- An expectation that is not met leaves none of the three kinds to come. -/
theorem prompted_of_expected?_eq_none (hc : c.In text) (h : expected? legacy e c = none)
    {t : Token} (ht : t.kind.isExpected = false) : Prompted text legacy e c.offset t := by
  have hplace := e.place_in hc
  have hother : ∀ k : Kind, k.isExpected = true → t.kind ≠ k := by
    rintro k hk rfl
    rw [ht] at hk
    cases hk
  have hmodSep := hother .modSep rfl
  have hsceneArgs := hother .sceneArgs rfl
  have hsceneName := hother .sceneName rfl
  refine ⟨iff_of_false hmodSep ?_, fun hk => absurd hk hmodSep, iff_of_false hsceneArgs ?_,
    fun hk => absurd hk hsceneArgs, iff_of_false hsceneName ?_, fun hk => absurd hk hsceneName⟩
  · -- a colon would have met the expectation
    rintro ⟨rfl, hbyte⟩
    obtain ⟨tail, hrest⟩ := hc.rest_eq_cons hbyte
    rw [expected?_eq (e := .modSep) hrest] at h
    simp [Expectation.meet?] at h
  · -- so would an opening bracket
    rintro ⟨rfl, hbyte⟩
    rw [← Expectation.offset_place hc (e := .sceneArgs) (by simp)] at hbyte
    obtain ⟨tail, hrest⟩ := hplace.rest_eq_cons hbyte
    rw [expected?_eq hrest] at h
    simp [Expectation.meet?] at h
  · -- and a byte that a scene's name starts with, whether or not a module's name stands there
    rintro ⟨hstart, he⟩
    have hne : e ≠ .modSep := by
      rcases he with rfl | ⟨rfl, -⟩ <;> simp
    rw [← Expectation.offset_place hc hne] at hstart he
    obtain ⟨b, hbyte, hb⟩ := (Option.any_eq_true _ _).mp hstart
    obtain ⟨tail, hrest⟩ := hplace.rest_eq_cons hbyte
    have hm : Rule.sceneName? legacy b tail = some ⟨.sceneName, runLength isWord tail⟩ :=
      Rule.sceneName?_eq_some_iff.mpr ⟨hb, rfl⟩
    rw [expected?_eq hrest] at h
    rcases he with rfl | ⟨rfl, -⟩
    · simp [Expectation.meet?, hm] at h
    · simp [Expectation.meet?, hm] at h

/-- The general rules find none of the three kinds. -/
theorem general?_kind (h : general? legacy c = some found) :
    found.token.kind.isExpected = false := by
  rcases general?_cases h with ⟨tail, -, rfl⟩ | ⟨tail, -, rfl⟩ | ⟨b, tail, m, -, -, hm, rfl⟩
  · rfl
  · rfl
  · exact (Rule.leaf?_kind hm).2.1

/-- The search by them finds none of the three kinds, however far it goes. -/
theorem scanGeneral_kind {t : Token} (h : (scanGeneral legacy c).token = some t) :
    t.kind.isExpected = false := by
  fun_induction scanGeneral legacy c with
  | case1 c hrest => simp at h
  | case2 c b tail hrest hspace ih => exact ih h
  | case3 c b tail hrest hspace found hgen =>
    rw [← Option.some.inj h]
    exact general?_kind hgen
  | case4 c b tail hrest hspace hgen next step ih => exact ih h

/-- One step: the next token, or the end of the input, is what the expectation
prompts. -/
theorem scanToken_prompted (hc : c.In text) (n : Nat) :
    Prompted text legacy e c.offset ((scanToken legacy e c).token.getD (Token.eof n)) := by
  unfold scanToken
  split
  · next found hexp => exact expected?_prompted hc hexp
  · next hexp =>
    refine prompted_of_expected?_eq_none hc hexp ?_
    cases h : (scanGeneral legacy c).token with
    | none => rfl
    | some t => exact scanGeneral_kind h

-- ---------------------------------------------------------------------------
-- Runs
-- ---------------------------------------------------------------------------

/-- A module's name is directly followed by its colon. -/
theorem FoundAt.colon_of_modName (hc : c.In text) (h : FoundAt legacy c found)
    (hk : found.token.kind = .modName) : text[found.token.span.stop]? = some (byte ':') := by
  have hlaid := h.laid hc
  rw [hlaid.stop_eq]
  cases h with
  | @leaf b tail m rest fits inLine region eof modName =>
    obtain ⟨-, ⟨d, rest', hdrop, -⟩, rfl⟩ := Rule.modName?_eq_some_iff.mp (modName hk)
    have hstop : (c.advance (runLength isWord tail + 1)).rest = byte ':' :: d :: rest' := by
      rw [Cursor.rest_advance, rest]
      exact hdrop
    exact hlaid.stop_in.getElem?_offset hstop
  | comment rest => exact Kind.noConfusion hk
  | string rest => exact Kind.noConfusion hk
  | sceneArgs rest => exact Kind.noConfusion hk

/-- The protocol between two neighbours of a stream: when the second is one of
the three kinds, and where it then stands. Here `q` is the first offset behind
the first token whose byte is no blank. -/
structure Follows (source : Bytes) (legacy : Bool) (a b : Token) : Prop where
  modSep          : b.kind = .modSep ↔ a.kind = .modName
  modSep_span     : b.kind = .modSep → b.span = ⟨a.span.stop, a.span.stop + 1⟩
  sceneArgs       : let q := runEnd isBlank source a.span.stop
                    b.kind = .sceneArgs ↔ a.kind = .sceneName ∧ source[q]? = some (byte '(')
  sceneArgs_start : b.kind = .sceneArgs → b.span.start = runEnd isBlank source a.span.stop
  sceneName       : let q := runEnd isBlank source a.span.stop
                    b.kind = .sceneName ↔ (source[q]?).any (isSceneStart legacy) = true ∧
                      (a.kind = .sceneDef ∨ a.kind = .modSep ∨
                        a.kind = .divert ∧ ¬ ModNameAt source q)
  sceneName_start : b.kind = .sceneName → b.span.start = runEnd isBlank source a.span.stop

/-- Which kinds call for which expectation. -/
theorem Expectation.after_cases (k : Kind) :
    (after k = .sceneName ↔ k = .sceneDef ∨ k = .modSep) ∧
      (after k = .sceneOrModule ↔ k = .divert) ∧ (after k = .modSep ↔ k = .modName) ∧
      (after k = .sceneArgs ↔ k = .sceneName) := by
  cases k <;> decide

/-- What a token's expectation prompts at its end follows it. -/
theorem Prompted.follows {source : Bytes} {s t : Token}
    (hcolon : s.kind = .modName → source[s.span.stop]? = some (byte ':'))
    (h : Prompted source legacy (.after s.kind) s.span.stop t) : Follows source legacy s t := by
  -- a module's name has its colon behind it, so there the text need not be asked
  obtain ⟨hname, hdivert, hmod, hargs⟩ := Expectation.after_cases s.kind
  refine ⟨?_, h.modSep_span, ?_, h.sceneArgs_start, ?_, h.sceneName_start⟩
  · rw [h.modSep, hmod]
    exact ⟨fun hk => hk.1, fun hk => ⟨hk, hcolon hk⟩⟩
  · show t.kind = .sceneArgs ↔ _
    rw [h.sceneArgs, hargs]
  · show t.kind = .sceneName ↔ _
    rw [h.sceneName, hname, hdivert, or_assoc]

namespace Lexer

variable {l l' : Lexer}

/-- The next token, or the end of the input, is what the lexer's expectation
prompts. -/
theorem next_prompted (hl : l.cursor.In text) (n : Nat) :
    Prompted text l.options.legacyIdentifiers l.expectation l.position
      (l.next.1.getD (Token.eof n)) :=
  scanToken_prompted hl n

/-- The first token of a run is what the lexer's expectation prompts, and each
other one what its neighbour does. -/
theorem run_follows (hl : l.cursor.In text) :
    (∀ t ∈ l.run.1.head?,
      Prompted text l.options.legacyIdentifiers l.expectation l.position t) ∧
    l.run.1.IsChain (Follows text l.options.legacyIdentifiers) := by
  induction l using run.induct with
  | case1 l l' hn =>
    have hfirst := next_prompted hl l'.position
    rw [hn] at hfirst
    rw [run_of_next_none hn]
    exact ⟨by simpa using hfirst, .singleton _⟩
  | case2 l t l' hn ts l'' hrun ih =>
    have hfirst := next_prompted hl 0
    rw [hn] at hfirst
    obtain ⟨d, found, hd, -, hfound, rfl, hstop⟩ := next_found hl hn
    have hlaid := hfound.laid hd
    obtain ⟨hhead, hchain⟩ := ih (hstop ▸ hlaid.stop_in)
    -- the lexer stands at the token's end, with the token's expectation
    have hstate : l'.options = l.options ∧ l'.expectation = .after found.token.kind ∧
        l'.position = found.token.span.stop := by
      refine ⟨next_options hn, ?_, by rw [position, hstop, hlaid.stop_eq]⟩
      · rw [← (Prod.mk.inj hn).2, (Prod.mk.inj hn).1]
        rfl
    rw [hstate.1, hstate.2.1, hstate.2.2] at hhead
    rw [hstate.1] at hchain
    rw [run_of_next_some hn]
    refine ⟨by simpa using hfirst, List.isChain_cons.mpr ⟨?_, hchain⟩⟩
    intro t ht
    exact (hhead t ht).follows (hfound.colon_of_modName hd)

end Lexer

/--
**The protocol of a stream.** Each token and its neighbour on the right keep to
the protocol (`Follows`); the first token is of none of the three kinds; and
every call of `next`, whatever calls came before it, leaves the expectation
that its token calls for, and none where it hands out no token or one that
calls for none.
-/
theorem lex_follows (source : Bytes) (options : LexOptions) :
    (lex source options).1.IsChain (Follows source options.legacyIdentifiers) ∧
    (∀ t ∈ (lex source options).1.head?,
      t.kind ≠ .modSep ∧ t.kind ≠ .sceneArgs ∧ t.kind ≠ .sceneName) ∧
    ∀ calls, let l := (Lexer.start source options).after calls
      l.next.2.expectation =
        match l.next.1.map Token.kind with
        | some .sceneDef | some .modSep => .sceneName
        | some .divert => .sceneOrModule
        | some .modName => .modSep
        | some .sceneName => .sceneArgs
        | _ => .none := by
  have hin := Lexer.start_in source options
  obtain ⟨hhead, hchain⟩ := Lexer.run_follows hin
  refine ⟨hchain, ?_, ?_⟩
  · intro t ht
    have hfirst := hhead t ht
    -- nothing is expected at the start
    have he : (Lexer.start source options).expectation = .none := rfl
    rw [he] at hfirst
    refine ⟨?_, ?_, ?_⟩
    · rw [Ne, hfirst.modSep]
      simp
    · rw [Ne, hfirst.sceneArgs]
      simp
    · rw [Ne, hfirst.sceneName]
      simp
  · intro calls l
    show l.next.1.elim .none (Expectation.after ·.kind) = _
    cases l.next.1 with
    | none => rfl
    | some t =>
      show Expectation.after t.kind = _
      rw [Option.map_some]
      cases t.kind <;> rfl

end StoryLex
