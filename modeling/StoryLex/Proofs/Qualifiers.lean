import StoryLex.Proofs.Coverage
import StoryLex.Proofs.Grammar

/-!
# StoryLex — module names inside words

Keywords, `Self` and the lone underscore are whole words: their rules look at
the byte before them. The rule for module names does not, and it is asked before
all of these. So what looks like the name of a module may be the tail of a word
whose front went to another token, as in `3let:x`. This module says exactly when
that happens (`lex_qualifier_cut`).

* `Lexer.tokens_insideWord` — a token starts inside a word only where another
  one stops, or where reading begins. What is passed over on the way is white
  space, whole words and whole characters.
* `Spelled.cutsWord` — few tokens stop in a word before a letter: the numbers,
  and in the newer revision the names behind a sigil. A variable takes all the
  letters it can, and the others end with no word byte, or with their word or
  their line.
-/

namespace StoryLex

/-- A word goes on at an offset: there are word bytes on either side. -/
def InsideWord (text : Bytes) (n : Nat) : Prop :=
  (byteBefore text n).any isWord = true ∧ (text[n]?).any isWord = true

/-- The kinds of token that may stop within a word, with a letter behind them. -/
def Kind.cutsWord (legacy : Bool) : Kind → Bool
  | number | random => true
  | label | macroName | atom => !legacy
  | _ => false

variable {legacy cut : Bool} {e : Expectation} {text word after : Bytes} {c : Cursor}
  {before : Option UInt8} {b : UInt8} {tail : Bytes} {n : Nat} {t : Token} {k : Kind}

-- ---------------------------------------------------------------------------
-- What is passed over
-- ---------------------------------------------------------------------------

/-- White space and the insides of characters are no bytes of words. -/
theorem not_isWord_of_gap :
    ∀ x : UInt8, isSpace x = true ∨ isContinuation x = true → isWord x = false := by
  decide +kernel

namespace Cursor.In

/-- Behind bytes that are no word bytes, no word goes on. -/
theorem not_insideWord_advance (hc : c.In text) (hrest : c.rest = b :: tail)
    (h : ∀ x ∈ b :: tail.take n, isWord x = false) :
    ¬ InsideWord text (c.advance (n + 1)).offset := by
  rintro ⟨hbefore, -⟩
  have hlast : (c.advance (n + 1)).before = (b :: tail.take n).getLast? := by
    show (c.rest.take (n + 1)).getLast?.or c.before = _
    rw [hrest, List.take_succ_cons, List.getLast?_cons, Option.some_or]
  rw [← (hc.advance (n + 1)).before_eq_byteBefore, hlast] at hbefore
  obtain ⟨x, hx, hword⟩ := (Option.any_eq_true _ _).mp hbefore
  rw [h x (List.mem_of_getLast? hx)] at hword
  cases hword

/-- Words are skipped as a whole, and characters of several bytes too. -/
theorem not_insideWord_junk (hc : c.In text) (hrest : c.rest = b :: tail) :
    ¬ InsideWord text (c.advance (Rule.junk b tail + 1)).offset := by
  by_cases hb : isWord b = true
  · -- a word goes on to its end
    rintro ⟨-, hnext⟩
    have hstop : (c.advance (Rule.junk b tail + 1)).rest = tail.drop (runLength isWord tail) := by
      rw [rest_advance, hrest, Rule.junk, if_pos hb, List.drop_succ_cons]
    rw [← List.head?_drop, ← (hc.advance _).rest_eq, hstop, head?_drop_runLength] at hnext
    cases hnext
  · -- a character holds no byte of a word
    rw [Bool.not_eq_true] at hb
    refine hc.not_insideWord_advance hrest ?_
    intro x hx
    rcases List.mem_cons.mp hx with rfl | hx
    · exact hb
    · rw [Rule.junk, if_neg (by simp [hb])] at hx
      exact not_isWord_of_gap x (Or.inr (of_mem_take_runLength hx))

/-- Blanks part words. -/
theorem eq_place_of_insideWord (hc : c.In text) (h : InsideWord text (e.place c).offset) :
    (e.place c).offset = c.offset := by
  unfold Expectation.place at h ⊢
  split
  · rfl
  · next he =>
    rw [if_neg he, Cursor.skip] at h
    -- no blank is passed, or the last one stands before the place
    cases hn : runLength isBlank c.rest with
    | zero => rw [offset_skip, hn, Nat.add_zero]
    | succ n =>
      obtain ⟨b, tail, hrest⟩ : ∃ b tail, c.rest = b :: tail := by
        refine List.exists_cons_of_ne_nil ?_
        intro hnil
        simp [hnil, runLength] at hn
      rw [hn] at h
      refine absurd h (hc.not_insideWord_advance hrest ?_)
      intro x hx
      have hblank : x ∈ c.rest.take (runLength isBlank c.rest) := by
        rwa [hn, hrest, List.take_succ_cons]
      exact not_isWord_of_gap x (Or.inl (isSpace_of_isBlank x (of_mem_take_runLength hblank)))

end Cursor.In

/-- The search comes upon no token inside a word, unless it begins there. -/
theorem scanGeneral_insideWord (hc : c.In text) (h : (scanGeneral legacy c).token = some t)
    (hinside : InsideWord text t.span.start) : t.span.start = c.offset := by
  fun_induction scanGeneral legacy c with
  | case1 c hrest => simp at h
  | case2 c b tail hrest hspace ih =>
    have hstart := ih (hc.advance 1) h
    rw [hstart] at hinside
    refine absurd hinside (hc.not_insideWord_advance (n := 0) hrest ?_)
    rw [List.take_zero, List.forall_mem_singleton]
    exact not_isWord_of_gap b (Or.inl hspace)
  | case3 c b tail hrest hspace found hgen =>
    obtain rfl := Option.some.inj h
    exact (general?_foundAt hgen).start_eq
  | case4 c b tail hrest hspace hgen next step ih =>
    have hstart := ih (hc.advance _) h
    rw [hstart] at hinside
    exact absurd hinside (hc.not_insideWord_junk hrest)

/-- The next token starts inside a word only where the search begins. -/
theorem scanToken_insideWord (hc : c.In text) (h : (scanToken legacy e c).token = some t)
    (hinside : InsideWord text t.span.start) : t.span.start = c.offset := by
  unfold scanToken at h
  split at h
  · next found hexp =>
    obtain rfl := Option.some.inj h
    have hstart := (expected?_foundAt hexp).start_eq
    rw [hstart] at hinside ⊢
    exact hc.eq_place_of_insideWord hinside
  · exact scanGeneral_insideWord hc h hinside

/-- A token starts inside a word only where the run begins, or where another token
of it stops. -/
theorem Lexer.tokens_insideWord {l : Lexer} (hl : l.cursor.In text) :
    ∀ t ∈ l.tokens, InsideWord text t.span.start →
      t.span.start = l.position ∨ ∃ s ∈ l.tokens, s.span.stop = t.span.start := by
  induction l using run.induct with
  | case1 l l' hn => simp [tokens_of_next_none hn]
  | case2 l t l' hn ts l'' hrun ih =>
    obtain ⟨d, found, hd, -, hfound, rfl, hstop⟩ := next_found hl hn
    have hposition : l'.position = found.token.span.stop := by
      rw [position, hstop, (hfound.laid hd).stop_eq]
    rw [tokens_of_next_some hn]
    intro u hu hinside
    rcases List.mem_cons.mp hu with rfl | hu
    · exact Or.inl (scanToken_insideWord hl (Prod.mk.inj hn).1 hinside)
    · rcases ih (next_in hl hn) u hu hinside with hfirst | ⟨s, hs, hend⟩
      · exact Or.inr ⟨found.token, List.mem_cons_self, hposition.symm.trans hfirst.symm⟩
      · exact Or.inr ⟨s, List.mem_cons_of_mem _ hs, hend⟩

-- ---------------------------------------------------------------------------
-- Where tokens stop
-- ---------------------------------------------------------------------------

/-- A name ends with a byte of its classes. -/
theorem Named.getLast?_any {first later p : UInt8 → Bool} (h : Named first later word)
    (hfirst : ∀ x, first x = true → p x = true) (hlater : ∀ x, later x = true → p x = true)
    (front : Bytes) : (front ++ word).getLast?.any p = true := by
  have hne : word ≠ [] := by
    obtain ⟨b, w, rfl, -⟩ := h
    exact List.cons_ne_nil b w
  rw [List.getLast?_append_of_ne_nil front hne, List.getLast?_eq_some_getLast hne, Option.any_some]
  exact h.forall_mem hfirst hlater _ (List.getLast_mem hne)

/-- A region that was closed ends with its closing mark. -/
theorem Enclosed.getLast?_eq {opening closing : Bytes} (h : Enclosed opening closing false word)
    (hne : closing ≠ []) : word.getLast? = closing.getLast? := by
  obtain ⟨inside, rfl, -⟩ := h
  show (opening ++ (inside ++ closing)).getLast? = closing.getLast?
  rw [← List.append_assoc, List.getLast?_append_of_ne_nil _ hne]

/-- A token that can cut a word ends with one of its bytes. -/
theorem Spelled.getLast?_isWord (h : Spelled legacy cut before word after k)
    (hk : k.cutsWord legacy = true) : word.getLast?.any isWord = true := by
  cases k with
  | number => exact h.1.getLast?_any isWord_of_isDigit isWord_of_isDigit []
  | random =>
    obtain ⟨⟨count, sides, rfl, -, hsides⟩, -⟩ := h
    rw [List.append_cons]
    exact hsides.getLast?_any isWord_of_isDigit isWord_of_isDigit _
  | label | atom =>
    obtain rfl : legacy = false := by simpa [Kind.cutsWord] using hk
    obtain ⟨⟨name, rfl, hname⟩, -⟩ := h
    exact hname.getLast?_any isWord_of_isLower isWord_of_isSnake [_]
  | macroName =>
    obtain rfl : legacy = false := by simpa [Kind.cutsWord] using hk
    obtain ⟨⟨name, rfl, hname⟩, -⟩ := h
    exact hname.getLast?_any isWord_of_isUpper isWord_of_isScreaming [_]
  | _ => exact Bool.noConfusion hk

/-- No other token has a word byte at its end and a letter behind it. -/
theorem Spelled.cutsWord (h : Spelled legacy cut before word after k)
    (hlast : word.getLast?.any isWord = true) (hnext : after.head?.any isLetter = true) :
    k.cutsWord legacy = true := by
  obtain ⟨x, hx, hletter⟩ := (Option.any_eq_true _ _).mp hnext
  have hword : after.head?.any isWord = true := by
    rw [hx]
    exact Rule.isWord_of_isLetter hletter
  have hline : after.head?.all (· == newline) = false := by
    rw [hx, Option.all_some, beq_eq_false_iff_ne]
    rintro rfl
    exact absurd hletter (by decide)
  cases k with
  | number | random => rfl
  | label | macroName | atom =>
    cases legacy with
    | false => rfl
    | true =>
      have hend : after.head?.any isWord = false := h.2
      rw [hend] at hword
      cases hword
  | sceneName => simp [h.2] at hword
  | keywordMatch | keywordCommand | keywordFrom | reserved => simp [h.2.2] at hword
  | variableName => simp [h.2.1] at hnext
  | modName =>
    rw [h.2.1] at hnext
    exact absurd hnext (by decide)
  | comment | string => simp [h.2] at hline
  | equals | sceneDef =>
    rw [h.1] at hlast
    exact absurd hlast (by decide)
  | modSep | divert | choice | send | endMark =>
    rw [show word = _ from h] at hlast
    exact absurd hlast (by decide)
  | arithmetic =>
    rcases h with rfl | rfl | rfl | ⟨rfl, -⟩ | ⟨rfl, -⟩ <;> exact absurd hlast (by decide)
  | eof => simp [h.2] at hnext
  | sceneArgs =>
    obtain ⟨henclosed, hcut⟩ := h
    cases cut with
    | false =>
      rw [henclosed.getLast?_eq (by decide)] at hlast
      exact absurd hlast (by decide)
    | true => simp [hcut rfl] at hnext
  | template =>
    obtain ⟨henclosed, -, hcut⟩ := h
    cases cut with
    | false =>
      rw [henclosed.getLast?_eq (by decide)] at hlast
      exact absurd hlast (by decide)
    | true => simp [hcut rfl] at hline

/-- The byte before the place where a token stops is its last one. -/
theorem Token.WellPlaced.byteBefore_stop (h : t.WellPlaced text) :
    byteBefore text t.span.stop = t.lexeme.getLast? := by
  have hlt := h.nonempty
  have hin := h.inText
  obtain ⟨k, hk⟩ : ∃ k, t.span.stop = k + 1 := Nat.exists_eq_succ_of_ne_zero (by omega)
  rw [h.lexeme_eq, Span.bytes, List.getLast?_take, if_neg (by omega), hk, List.getElem?_drop,
    show t.span.start + (k + 1 - t.span.start - 1) = k by omega,
    List.getElem?_eq_getElem (by omega : k < text.length), Option.some_or]
  exact List.getElem?_eq_getElem (by omega)

namespace Lexer

variable {l : Lexer} {s : Token}

/-- A token that starts with a letter inside a word has its word cut by another
one, unless the run begins there. -/
theorem cut_of_letter (hl : l.cursor.In text) (ht : t ∈ l.tokens)
    (hletter : (text.drop t.span.start).head?.any isLetter = true)
    (hbefore : (byteBefore text t.span.start).any isWord = true) :
    t.span.start = l.position ∨ ∃ s ∈ l.tokens, s.span.stop = t.span.start ∧
      s.kind.cutsWord l.options.legacyIdentifiers = true := by
  have hinside : InsideWord text t.span.start := by
    refine ⟨hbefore, ?_⟩
    obtain ⟨b, hb, hb'⟩ := (Option.any_eq_true _ _).mp hletter
    rw [← List.head?_drop, hb]
    exact Rule.isWord_of_isLetter hb'
  -- what stops there has a letter behind it and a word byte at its end
  rcases tokens_insideWord hl t ht hinside with hstart | ⟨s, hs, hstop⟩
  · exact Or.inl hstart
  · have hs' := Token.mem_forest_of_mem hs
    have hplaced := (tokens_laid hl).wellPlaced s hs'
    refine Or.inr ⟨s, hs, hstop, (tokens_wellSpelled hl s hs').2.cutsWord ?_ (hstop ▸ hletter)⟩
    rw [← hplaced.byteBefore_stop, hstop]
    exact hbefore

/-- What cuts a word leaves a byte of it before the place where it stops. -/
theorem byteBefore_of_cutsWord (hl : l.cursor.In text) (hs : s ∈ l.tokens)
    (hcuts : s.kind.cutsWord l.options.legacyIdentifiers = true) :
    (byteBefore text s.span.stop).any isWord = true := by
  have hs' := Token.mem_forest_of_mem hs
  rw [((tokens_laid hl).wellPlaced s hs').byteBefore_stop]
  exact (tokens_wellSpelled hl s hs').2.getLast?_isWord hcuts

end Lexer

-- ---------------------------------------------------------------------------
-- Module names
-- ---------------------------------------------------------------------------

/--
**A module's name is the rest of its word, and the whole of it unless the word
was cut.** The bytes of the name are word bytes, and no other follows them. One
stands before them exactly if a token that can cut a word stops there, or if
reading begins there, within a word of the script.
-/
theorem lex_qualifier_cut (source : Bytes) (options : LexOptions) :
    ∀ t ∈ (lex source options).1, t.kind = .modName →
      t.lexeme = t.span.bytes source ∧ (∀ b ∈ t.lexeme, isWord b = true) ∧
        (source.drop t.span.stop).head?.any isWord = false ∧
        ((byteBefore source t.span.start).any isWord = true ↔
          (∃ s ∈ (lex source options).1, s.span.stop = t.span.start ∧
            s.kind.cutsWord options.legacyIdentifiers = true) ∨
          (t.span.start = options.startOffset ∧
            (byteBefore source options.startOffset).any isWord = true)) := by
  have hin := Lexer.start_in source options
  -- the end of the input is neither a name nor does it cut a word
  have htokens : ∀ s ∈ (lex source options).1, s.kind ≠ .eof →
      s ∈ (Lexer.start source options).tokens := by
    intro s hs hne
    rw [lex_eq_tokens, List.mem_append, List.mem_singleton] at hs
    refine hs.resolve_right ?_
    rintro rfl
    exact hne rfl
  intro t ht hk
  have ht := htokens t ht (by simp [hk])
  have hplaced := (Lexer.tokens_laid hin).wellPlaced t (Token.mem_forest_of_mem ht)
  obtain ⟨hbytes, hspelled⟩ := Lexer.tokens_wellSpelled hin t (Token.mem_forest_of_mem ht)
  rw [hk] at hspelled
  obtain ⟨hname, hcolon, -⟩ := hspelled
  have hletter : (source.drop t.span.start).head?.any isLetter = true := by
    obtain ⟨b, w, hword, hb, -⟩ := hname
    rw [← t.span.bytes_append_drop source hplaced.nonempty.le, ← hbytes, hword]
    exact hb
  refine ⟨hbytes, hname.forall_mem (fun _ => Rule.isWord_of_isLetter) fun _ hb => hb,
    by rw [hcolon]; rfl, ?_⟩
  constructor
  · intro hbefore
    rcases Lexer.cut_of_letter hin ht hletter hbefore with hstart | ⟨s, hs, hcut⟩
    · rw [Lexer.position_start] at hstart
      have hlt := hplaced.nonempty.trans_le hplaced.inText
      have hfirst : t.span.start = options.startOffset := by omega
      exact Or.inr ⟨hfirst, hfirst ▸ hbefore⟩
    · refine Or.inl ⟨s, ?_, hcut⟩
      rw [lex_eq_tokens]
      exact List.mem_append_left _ hs
  · rintro (⟨s, hs, hstop, hcuts⟩ | ⟨hstart, hbefore⟩)
    · have hne : s.kind ≠ .eof := by
        intro hk'
        simp [hk', Kind.cutsWord] at hcuts
      exact hstop ▸ Lexer.byteBefore_of_cutsWord hin (htokens s hs hne) hcuts
    · exact hstart ▸ hbefore

/-- A number in front of a word, whose tail is taken for a module's name. -/
theorem lex_qualifier_cut_number :
    let source := ascii "3let:x"
    let t : Token := { kind := .modName, span := ⟨1, 4⟩, lexeme := ascii "let" }
    (t ∈ (lex source {}).1 ∧ t.kind = .modName ∧ (byteBefore source 1).any isWord = true) ∧
      ∃ s ∈ (lex source {}).1, s.span.stop = 1 ∧ s.kind.cutsWord false = true := by
  intro source t
  have ht : t ∈ (lex source {}).1 := by decide +kernel
  have hbefore : (byteBefore source 1).any isWord = true := by decide
  obtain ⟨-, -, -, hiff⟩ := lex_qualifier_cut source {} t ht rfl
  refine ⟨⟨ht, rfl, hbefore⟩, (hiff.mp hbefore).resolve_right ?_⟩
  rintro ⟨hstart, -⟩
  exact absurd hstart (by decide)

/-- A module's name that is no whole word. -/
theorem lex_qualifier_insideWord :
    let source := ascii "3let:x"
    ∃ t ∈ (lex source {}).1, t.kind = .modName ∧
      ¬ WholeWord (byteBefore source t.span.start) (source.drop t.span.stop) := by
  simp only [WholeWord]
  decide +kernel

end StoryLex
