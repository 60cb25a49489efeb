import StoryLex.Proofs.Session

/-!
# StoryLex — texts that are moved

No rule knows where in the text it is asked. So what is found at a place does
not change when the text is moved along: only the offsets in spans do
(`scanToken_shift`). The same holds of a whole run, and of the diagnostics that
were there before it: they stay in front (`Lexer.run_moved`).

At the start of a line it makes no difference whether a newline stands before
or nothing does (`Lexer.run_bare`).
-/

namespace StoryLex

-- ---------------------------------------------------------------------------
-- Moving places, tokens and diagnostics
-- ---------------------------------------------------------------------------

/-- The span `k` bytes further on. -/
def Span.shift (k : Nat) (s : Span) : Span := ⟨s.start + k, s.stop + k⟩

/-- The same place in a text with `k` more bytes in front. -/
def Cursor.shift (k : Nat) (c : Cursor) : Cursor := { c with offset := c.offset + k }

def Diagnostic.shift (k : Nat) (d : Diagnostic) : Diagnostic := { d with span := d.span.shift k }

namespace Token

mutual

/-- The token `k` bytes further on, with all tokens inside it. -/
def shift (k : Nat) : Token → Token
  | ⟨kind, span, lexeme, nested, unterminated⟩ =>
    ⟨kind, span.shift k, lexeme, shiftAll k nested, unterminated⟩

def shiftAll (k : Nat) : List Token → List Token
  | [] => []
  | t :: ts => shift k t :: shiftAll k ts

end

theorem shiftAll_eq_map (k : Nat) (ts : List Token) : shiftAll k ts = ts.map (shift k) := by
  induction ts with
  | nil => rfl
  | cons t ts ih => rw [shiftAll, ih, List.map_cons]

theorem shift_eq (k : Nat) (t : Token) :
    t.shift k = { t with span := t.span.shift k, nested := t.nested.map (shift k) } := by
  cases t
  rw [shift, shiftAll_eq_map]

@[simp] theorem kind_shift (k : Nat) (t : Token) : (t.shift k).kind = t.kind := by
  rw [shift_eq]

end Token

def Found.shift (k : Nat) (found : Found) : Found where
  token := found.token.shift k
  faults := found.faults.map (Diagnostic.shift k)
  stop := found.stop.shift k

def Body.shift (k : Nat) (body : Body) : Body where
  tokens := body.tokens.map (Token.shift k)
  faults := body.faults.map (Diagnostic.shift k)
  stop := body.stop.shift k
  closed := body.closed

def Step.shift (k : Nat) (step : Step) : Step where
  token := step.token.map (Token.shift k)
  faults := step.faults.map (Diagnostic.shift k)
  stop := step.stop.shift k

namespace Cursor

variable (k : Nat) (c d : Cursor)

@[simp] theorem rest_shift : (c.shift k).rest = c.rest := rfl

@[simp] theorem before_shift : (c.shift k).before = c.before := rfl

theorem advance_shift (n : Nat) : (c.shift k).advance n = (c.advance n).shift k := by
  simp only [advance, shift, Nat.add_right_comm]

theorem skip_shift (p : UInt8 → Bool) : (c.shift k).skip p = (c.skip p).shift k :=
  c.advance_shift k _

theorem spanTo_shift : (c.shift k).spanTo (d.shift k) = (c.spanTo d).shift k := rfl

theorem tokenTo_shift (kind : Kind) :
    (c.shift k).tokenTo (d.shift k) kind = (c.tokenTo d kind).shift k := by
  rw [Token.shift_eq]
  simp only [tokenTo, spanTo_shift, List.map_nil, rest_shift]
  simp only [shift, Nat.add_sub_add_right]

end Cursor

-- ---------------------------------------------------------------------------
-- One token of a moved text
-- ---------------------------------------------------------------------------

section Tokens

variable (k : Nat) (legacy : Bool) (c : Cursor)

/-- A match gives, at a moved place, the moved token. -/
theorem Match.found_shift (m : Match) : m.found (c.shift k) = (m.found c).shift k := by
  simp only [found, Found.shift, c.advance_shift, Cursor.tokenTo_shift, List.map_nil]

/-- The inside of a region is read in a moved text as in the text itself. -/
theorem scanBody_shift (pieceAt : Option UInt8 → UInt8 → Bytes → Piece) :
    scanBody pieceAt (c.shift k) = (scanBody pieceAt c).shift k := by
  fun_induction scanBody pieceAt c with
  | case1 c h =>
    rw [scanBody_of_rest_eq_nil (c := c.shift k) h]
    rfl
  | case2 c b tail h more hpiece =>
    rw [scanBody_eq (c := c.shift k) h, c.before_shift, hpiece]
    simp only [c.advance_shift]
    rfl
  | case3 c b tail h hpiece ih =>
    rw [scanBody_eq (c := c.shift k) h, c.before_shift, hpiece]
    simp only [c.advance_shift, ih]
  | case4 c b tail h m hpiece found body ih =>
    rw [scanBody_eq (c := c.shift k) h, c.before_shift, hpiece]
    simp only [c.advance_shift, ih, m.found_shift]
    rfl
  | case5 c b tail h more hpiece next body ih =>
    rw [scanBody_eq (c := c.shift k) h, c.before_shift, hpiece]
    simp only [c.advance_shift]
    -- junk goes on where the same bytes end in the other text
    rw [show c.advance (more + 1) = next from rfl, ih]
    rfl

/-- A moved region is the token of the region, moved, and so are its faults. -/
theorem Body.enclose_shift (body : Body) (kind : Kind) :
    (body.shift k).enclose (c.shift k) kind = (body.enclose c kind).shift k := by
  obtain ⟨tokens, faults, stop, closed⟩ := body
  have htoken := c.tokenTo_shift k stop kind
  rw [Token.shift_eq] at htoken
  cases closed with
  | false => simp [enclose, shift, Found.shift, htoken, Token.shift_eq, Cursor.spanTo_shift,
      Diagnostic.unterminated, Diagnostic.shift]
  | true => simp [enclose, shift, Found.shift, htoken, Token.shift_eq]

/-- A template is read in a moved text as in the text itself. -/
theorem template_shift : template (c.shift k) = (template c).shift k := by
  rw [template, c.advance_shift, scanBody_shift, Body.enclose_shift, template]

/-- Arguments are read in a moved text as in the text itself. -/
theorem sceneArgs_shift : sceneArgs legacy (c.shift k) = (sceneArgs legacy c).shift k := by
  rw [sceneArgs, c.advance_shift, scanBody_shift, Body.enclose_shift, sceneArgs]

/-- The templates of a string are read in a moved text as in the text itself. -/
theorem scanString_shift : scanString (c.shift k) = (scanString c).shift k := by
  fun_induction scanString c with
  | case1 c h =>
    rw [scanString_of_rest_eq_nil (c := c.shift k) h]
    rfl
  | case2 c b tail h hopen found body ih =>
    rw [scanString_eq (c := c.shift k) h, if_pos hopen, template_shift]
    simp only [show ((template c).shift k).stop = found.stop.shift k from rfl, ih]
    simp only [Body.shift, List.map_append]
    rfl
  | case3 c b tail h hopen ih =>
    rw [scanString_eq (c := c.shift k) h, if_neg hopen, c.advance_shift, ih]

/-- A string line is read in a moved text as in the text itself. -/
theorem string_shift : string (c.shift k) = (string c).shift k := by
  have hbody : scanString ((c.shift k).advance 2).inLine =
      (scanString (c.advance 2).inLine).shift k := by
    rw [c.advance_shift, ← scanString_shift]
    rfl
  rw [string, hbody, Body.enclose_shift, c.advance_shift, Cursor.skip_shift]
  rfl

/-- A comment is read in a moved text as in the text itself. -/
theorem comment_shift : comment (c.shift k) = (comment c).shift k := by
  simp only [comment, c.advance_shift, Cursor.skip_shift, Cursor.tokenTo_shift]
  rfl

/-- The general rules find in a moved text what they find in the text itself. -/
theorem general?_shift : general? legacy (c.shift k) = (general? legacy c).map (·.shift k) := by
  simp only [general?, c.rest_shift, c.before_shift]
  split
  · rfl
  · split_ifs
    · rw [comment_shift, Option.map_some]
    · rw [string_shift, Option.map_some]
    · rw [Option.map_map]
      congr 1
      funext m
      exact m.found_shift k c

/-- An expectation is asked at the same place of a moved text. -/
theorem Expectation.place_shift (e : Expectation) : e.place (c.shift k) = (e.place c).shift k := by
  unfold place
  split
  · rfl
  · exact c.skip_shift k _

/-- What is expected is found in a moved text just when it is in the text
itself. -/
theorem expected?_shift (e : Expectation) :
    expected? legacy e (c.shift k) = (expected? legacy e c).map (·.shift k) := by
  have hplace := e.place_shift k c
  have hfound : ∀ m : Match, m.found ((e.place c).shift k) = (m.found (e.place c)).shift k :=
    fun m => m.found_shift k _
  cases hc : (e.place c).rest with
  | nil =>
    rw [expected?_of_rest_eq_nil (by rw [hplace]; exact hc), expected?_of_rest_eq_nil hc]
    rfl
  -- each expectation asks for one thing, at the moved place
  | cons b tail =>
    rw [expected?_eq (by rw [hplace]; exact hc), expected?_eq hc, hplace]
    cases e with
    | none => rfl
    | sceneName => simp only [Expectation.meet?, hfound, Option.map_map, Function.comp_def]
    | sceneOrModule => simp only [Expectation.meet?, hfound, Option.map_map, Function.comp_def]
    | modSep =>
      simp only [Expectation.meet?, hfound]
      split <;> rfl
    | sceneArgs =>
      simp only [Expectation.meet?, sceneArgs_shift]
      split <;> rfl

/-- The search by the general rules goes over the same bytes of a moved text. -/
theorem scanGeneral_shift : scanGeneral legacy (c.shift k) = (scanGeneral legacy c).shift k := by
  fun_induction scanGeneral legacy c with
  | case1 c h =>
    rw [scanGeneral_of_rest_eq_nil (c := c.shift k) h]
    rfl
  | case2 c b tail h hspace ih =>
    rw [scanGeneral_eq (c := c.shift k) h, if_pos hspace, c.advance_shift, ih]
  | case3 c b tail h hspace found hgen =>
    rw [scanGeneral_eq (c := c.shift k) h, if_neg hspace, general?_shift, hgen]
    rfl
  | case4 c b tail h hspace hgen next step ih =>
    rw [scanGeneral_eq (c := c.shift k) h, if_neg hspace, general?_shift, hgen]
    simp only [Option.map_none, c.advance_shift]
    rw [show c.advance (Rule.junk b tail + 1) = next from rfl, ih]
    rfl

/-- What is found at a place moves with the text. -/
theorem scanToken_shift (e : Expectation) :
    scanToken legacy e (c.shift k) = (scanToken legacy e c).shift k := by
  unfold scanToken
  rw [expected?_shift]
  cases expected? legacy e c with
  | none => exact scanGeneral_shift k legacy c
  | some found => rfl

end Tokens

-- ---------------------------------------------------------------------------
-- The run over a moved text
-- ---------------------------------------------------------------------------

namespace Diagnostic

variable (k : Nat)

/-- Two diagnostics touch when they do so after both were moved. -/
theorem continues_shift_iff (d e : Diagnostic) :
    Continues (d.shift k) (e.shift k) ↔ Continues d e := by
  simp [Continues, shift, Span.shift]

/-- A diagnostic is merged with the next one alike after all were moved. -/
theorem join_shift (d : Diagnostic) (ds : List Diagnostic) :
    join (d.shift k) (ds.map (shift k)) = (join d ds).map (shift k) := by
  cases ds with
  | nil => rfl
  | cons e es =>
    simp only [join, List.map_cons, continues_shift_iff]
    split <;> rfl

/-- Diagnostics may be merged before they are moved or after. -/
theorem coalesce_shift (ds : List Diagnostic) :
    coalesce (ds.map (shift k)) = (coalesce ds).map (shift k) := by
  induction ds with
  | nil => rfl
  | cons d ds ih =>
    show join (d.shift k) (coalesce (ds.map (shift k))) = _
    rw [ih, join_shift]
    rfl

end Diagnostic

/-- What is reported of moved diagnostics is what is reported of them, moved. -/
theorem LexOptions.report_shift (k : Nat) (options : LexOptions) (ds : List Diagnostic) :
    options.report (ds.map (Diagnostic.shift k)) =
      (options.report ds).map (Diagnostic.shift k) := by
  rw [report, List.filter_map, Diagnostic.coalesce_shift]
  rfl

namespace Lexer

/-- What commutes with `next` commutes with `run`. -/
theorem run_map {f : Lexer → Lexer} {g : Token → Token}
    (hnext : ∀ l, (f l).next = (l.next.1.map g, f l.next.2))
    (heof : ∀ l, Token.eof (f l).position = g (Token.eof l.position)) (l : Lexer) :
    (f l).run = (l.run.1.map g, f l.run.2) := by
  induction l using run.induct with
  | case1 l l' hn =>
    have hf := hnext l
    rw [hn] at hf
    rw [run_of_next_none hf, run_of_next_none hn, heof]
    rfl
  | case2 l t l' hn ts l'' hrun ih =>
    have hf := hnext l
    rw [hn] at hf
    rw [run_of_next_some hf, run_of_next_some hn, ih]
    rfl

/-- The lexer `k` bytes further on in a text that was read from `s`, with what
was reported there in front. -/
def moved (k s : Nat) (earlier : List Diagnostic) (l : Lexer) : Lexer where
  options := { l.options with startOffset := s }
  cursor := l.cursor.shift k
  expectation := l.expectation
  diagnostics := earlier ++ l.diagnostics.map (Diagnostic.shift k)

/-- A moved lexer hands out the next token moved, and stays a moved lexer. -/
theorem next_moved (k s : Nat) (earlier : List Diagnostic) (l : Lexer) :
    (l.moved k s earlier).next =
      (l.next.1.map (Token.shift k), l.next.2.moved k s earlier) := by
  have hstep := scanToken_shift k l.options.legacyIdentifiers l.cursor l.expectation
  have hreport := l.options.report_shift k
    (scanToken l.options.legacyIdentifiers l.expectation l.cursor).faults
  unfold next moved
  simp only [hstep, Step.shift, List.map_append, List.append_assoc]
  -- the place where reading began has no part in reports
  change (_, Lexer.mk _ _ _ (_ ++ (_ ++ l.options.report _))) = _
  rw [hreport]
  cases (scanToken l.options.legacyIdentifiers l.expectation l.cursor).token with
  | none => rfl
  | some t => simp

/-- A moved lexer hands out the same tokens, moved, and its reports come after
the earlier ones. -/
theorem run_moved (k s : Nat) (earlier : List Diagnostic) (l : Lexer) :
    (l.moved k s earlier).run =
      (l.run.1.map (Token.shift k), l.run.2.moved k s earlier) :=
  run_map (next_moved k s earlier) (fun _ => rfl) l

end Lexer

-- ---------------------------------------------------------------------------
-- The start of a line
-- ---------------------------------------------------------------------------

/-- The same place, with nothing before it. -/
def Cursor.bare (c : Cursor) : Cursor := { c with before := none }

section LineStart

variable {legacy : Bool} {c : Cursor}

/-- To the rules a newline before is as good as nothing. -/
theorem Rule.leaf?_of_atLineStart {before : Option UInt8} (h : atLineStart before = true)
    (legacy : Bool) (b : UInt8) (tail : Bytes) :
    leaf? legacy before b tail = leaf? legacy none b tail := by
  cases before with
  | none => rfl
  | some x =>
    obtain rfl : x = newline := by simpa [atLineStart] using h
    rfl

/-- One byte on, it is forgotten what stood before. -/
theorem Cursor.advance_bare (h : c.rest ≠ []) (n : Nat) :
    c.bare.advance (n + 1) = c.advance (n + 1) := by
  obtain ⟨b, tail, hc⟩ := List.exists_cons_of_ne_nil h
  simp [advance, bare, hc, List.getLast?_cons]

/-- At the start of a line the general rules do not ask what stands before. -/
theorem general?_bare (hline : atLineStart c.before = true) (hne : c.rest ≠ []) :
    general? legacy c.bare = general? legacy c := by
  obtain ⟨b, tail, hc⟩ := List.exists_cons_of_ne_nil hne
  have hadv := Cursor.advance_bare hne
  -- a comment and a string go on two bytes, a leaf at least one, so none sees what was before
  have hcomment : comment c.bare = comment c := by
    simp only [comment, hadv 1]
    rfl
  have hstring : string c.bare = string c := by
    simp only [string, hadv 1]
    rfl
  have hfound : ∀ m : Match, m.found c.bare = m.found c := by
    intro m
    simp only [Match.found, hadv]
    rfl
  rw [general?_eq (c := c.bare) hc, general?_eq hc, Rule.leaf?_of_atLineStart hline]
  simp only [hcomment, hstring, hfound]
  rfl

/-- The search by the general rules does not ask that at the start of a line,
and later it has read on. -/
theorem scanGeneral_bare (hline : atLineStart c.before = true) (hne : c.rest ≠ []) :
    scanGeneral legacy c.bare = scanGeneral legacy c := by
  obtain ⟨b, tail, hc⟩ := List.exists_cons_of_ne_nil hne
  have hadv := Cursor.advance_bare hne
  rw [scanGeneral_eq (c := c.bare) hc, scanGeneral_eq hc, general?_bare hline hne, hadv 0]
  simp only [hadv]
  rfl

end LineStart

namespace Lexer

/-- The same lexer, with nothing before the place where it stands. -/
def bare (l : Lexer) : Lexer := { l with cursor := l.cursor.bare }

/-- At the start of a line, with nothing to expect, a run does not depend on
what stands before. -/
theorem run_bare {l : Lexer} (hline : atLineStart l.cursor.before = true)
    (hexp : l.expectation = .none) :
    l.bare.run.1 = l.run.1 ∧ l.bare.run.2.diagnostics = l.run.2.diagnostics := by
  have hscan : ∀ c, scanToken l.options.legacyIdentifiers l.expectation c =
      scanGeneral l.options.legacyIdentifiers c := by
    intro c
    rw [hexp, scanToken_none]
  by_cases hrest : l.cursor.rest = []
  · -- nothing is left to read
    have hnext : l.next = (none, l.next.2) := by
      simp [next, hscan, scanGeneral_of_rest_eq_nil hrest]
    have hbare : l.bare.next = (none, l.bare.next.2) := by
      simp [next, bare, hscan, scanGeneral_of_rest_eq_nil (c := l.cursor.bare) hrest]
    rw [run_of_next_none hnext, run_of_next_none hbare]
    simp only [next, bare, position, hscan, scanGeneral_of_rest_eq_nil hrest,
      scanGeneral_of_rest_eq_nil (c := l.cursor.bare) hrest]
    exact ⟨rfl, trivial⟩
  · -- something is read, and from there on the two lexers are one
    have hnext : l.bare.next = l.next := by
      simp only [next, bare, hscan, scanGeneral_bare hline hrest]
    rw [run_congr hnext]
    exact ⟨rfl, rfl⟩

end Lexer

end StoryLex
