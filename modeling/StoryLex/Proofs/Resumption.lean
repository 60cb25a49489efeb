import StoryLex.Proofs.Coverage
import StoryLex.Proofs.Shift
import StoryLex.Proofs.Spans

/-!
# StoryLex — taking up the reading where it was left

Between two calls a lexer that expects nothing is its position and nothing
more: a fresh lexer that starts there reads on exactly as it does
(`lex_resumed`). Its place in the text is all there is to know about it
(`Cursor.In.eq_ofOffset`), and what it has told is never touched again.

The second half of that is the delicate one, for skipped pieces that touch are
told as one. `Lexer.Behind` says that what was told ends before the place where
the lexer stands, or at the end of a line; `Lexer.run_told_from` says that
nothing told later starts before that place, nor at the end of a line. So no
two pieces touch across a cut.
-/

namespace StoryLex

/-- A cursor in a text is known by its offset. -/
theorem Cursor.In.eq_ofOffset {c : Cursor} {text : Bytes} (h : c.In text) :
    c = .ofOffset text c.offset := by
  have hlen : (text.take c.offset).length = c.offset :=
    List.length_take_of_le h.offset_le
  obtain ⟨offset, before, rest⟩ := c
  rw [Cursor.ofOffset, hlen, Cursor.mk.injEq]
  exact ⟨rfl, h.before_eq, h.rest_eq⟩

-- ---------------------------------------------------------------------------
-- Moving by nothing
-- ---------------------------------------------------------------------------

namespace Token

mutual

theorem shift_zero : (t : Token) → t.shift 0 = t
  | ⟨kind, span, lexeme, nested, unterminated⟩ => by
    rw [shift, shiftAll_zero nested]
    rfl

theorem shiftAll_zero : (ts : List Token) → shiftAll 0 ts = ts
  | [] => rfl
  | t :: ts => by rw [shiftAll, shift_zero t, shiftAll_zero ts]

end

end Token

/-- A lexer that expects nothing is the fresh one at its place, after what was
told so far. -/
theorem Lexer.eq_moved {l : Lexer} {source : Bytes} (hl : l.cursor.In source)
    (hexp : l.expectation = .none) :
    l = (start source { l.options with startOffset := l.position }).moved 0
      l.options.startOffset l.diagnostics := by
  obtain ⟨options, cursor, expectation, diagnostics⟩ := l
  obtain rfl : expectation = .none := hexp
  simp only [moved, start, List.map_nil, List.append_nil, Lexer.mk.injEq, true_and, and_true]
  exact hl.eq_ofOffset

-- ---------------------------------------------------------------------------
-- What a report is made of
-- ---------------------------------------------------------------------------

namespace Diagnostic

variable {d e : Diagnostic} {ds : List Diagnostic}

/-- A joined piece starts where one of its parts does and ends where one does. -/
theorem mem_join (h : e ∈ join d ds) :
    (∃ a ∈ d :: ds, a.fault = e.fault ∧ a.span.start = e.span.start) ∧
      ∃ z ∈ d :: ds, z.fault = e.fault ∧ z.span.stop = e.span.stop := by
  have hself : ∀ a ∈ d :: ds, (∃ a' ∈ d :: ds, a'.fault = a.fault ∧ a'.span.start = a.span.start) ∧
      ∃ z ∈ d :: ds, z.fault = a.fault ∧ z.span.stop = a.span.stop :=
    fun a ha => ⟨⟨a, ha, rfl, rfl⟩, ⟨a, ha, rfl, rfl⟩⟩
  cases ds with
  | nil => exact hself e h
  | cons f fs =>
    rw [join] at h
    split at h
    · next hc =>
      -- the joined piece starts where the first part does and ends where the second does
      rcases List.mem_cons.mp h with rfl | h
      · exact ⟨⟨d, by simp, rfl, rfl⟩, ⟨f, by simp, hc.2.1.trans hc.1.symm, rfl⟩⟩
      · exact hself e (by simp [h])
    · exact hself e h

/-- An entry of a joined list starts where a piece does and ends where a piece
does. -/
theorem mem_coalesce (h : e ∈ coalesce ds) :
    (∃ a ∈ ds, a.fault = e.fault ∧ a.span.start = e.span.start) ∧
      ∃ z ∈ ds, z.fault = e.fault ∧ z.span.stop = e.span.stop := by
  induction ds generalizing e with
  | nil => simp [coalesce] at h
  | cons d ds ih =>
    obtain ⟨⟨a, ha, hfa, hstart⟩, z, hz, hfz, hstop⟩ :=
      mem_join (show e ∈ join d (coalesce ds) from h)
    refine ⟨?_, ?_⟩
    · rcases List.mem_cons.mp ha with rfl | ha
      · exact ⟨a, by simp, hfa, hstart⟩
      · obtain ⟨a', ha', hf', hs'⟩ := (ih ha).1
        exact ⟨a', by simp [ha'], hf'.trans hfa, hs'.trans hstart⟩
    · rcases List.mem_cons.mp hz with rfl | hz
      · exact ⟨z, by simp, hfz, hstop⟩
      · obtain ⟨z', hz', hf', hs'⟩ := (ih hz).2
        exact ⟨z', by simp [hz'], hf'.trans hfz, hs'.trans hstop⟩

end Diagnostic

/-- An entry that is reported starts where a fault does and ends where a fault
does. -/
theorem LexOptions.mem_report {options : LexOptions} {faults : List Diagnostic} {e : Diagnostic}
    (h : e ∈ options.report faults) :
    (∃ a ∈ faults, a.fault = e.fault ∧ a.span.start = e.span.start) ∧
      ∃ z ∈ faults, z.fault = e.fault ∧ z.span.stop = e.span.stop := by
  obtain ⟨⟨a, ha, hstart⟩, z, hz, hstop⟩ := Diagnostic.mem_coalesce h
  exact ⟨⟨a, List.mem_of_mem_filter ha, hstart⟩, z, List.mem_of_mem_filter hz, hstop⟩

-- ---------------------------------------------------------------------------
-- What was skipped lies behind
-- ---------------------------------------------------------------------------

/-- The line ends here, or the text does. -/
def Cursor.AtLineEnd (c : Cursor) : Prop := c.rest.head?.all (· == newline) = true

variable {text : Bytes} {legacy : Bool} {e : Expectation} {c : Cursor} {found : Found}
  {d : Diagnostic}

theorem Cursor.atLineEnd_of_rest_eq_nil (h : c.rest = []) : c.AtLineEnd := by
  rw [Cursor.AtLineEnd, h]
  rfl

/-- Where a line ends and the text does not, a newline comes next. -/
theorem Cursor.AtLineEnd.eq_newline {b : UInt8} {tail : Bytes} (h : c.AtLineEnd)
    (hrest : c.rest = b :: tail) : b = newline := by
  rw [Cursor.AtLineEnd, hrest] at h
  simpa using h

/-- What is skipped inside a token ends before the token does, unless the token
was cut off by the end of a line. -/
theorem FoundAt.skipped_lt (hc : c.In text) (h : FoundAt legacy c found) (hd : d ∈ found.faults)
    (hfault : d.fault = .unrecognized) :
    d.span.stop < found.stop.offset ∨ found.stop.AtLineEnd := by
  cases h with
  | leaf rest fits inLine region eof => simp [Match.found] at hd
  | comment rest => simp [StoryLex.comment] at hd
  -- a string ends with its line, whatever was skipped in it
  | string rest => exact Or.inr ((c.advance 2).head?_rest_skip_inLine)
  | sceneArgs rest =>
    have hspec := argsPiece_spec legacy
    have hlaid := scanBody_laid hspec (hc.advance 1)
    cases hclosed : (scanBody (argsPiece legacy) (c.advance 1)).closed with
    | false => exact Or.inr (Cursor.atLineEnd_of_rest_eq_nil (hlaid.cut_off hclosed))
    | true =>
      -- the closing parenthesis comes after all that was skipped
      have hfaults : d ∈ (scanBody (argsPiece legacy) (c.advance 1)).faults := by
        simpa [StoryLex.sceneArgs, Body.enclose, hclosed] using hd
      have hbound := ((scanBody_accounts hspec (hc.advance 1)).fault_bounds hfaults hfault).2
      have hstop := hlaid.stop_eq
      rw [hclosed, if_pos rfl] at hstop
      exact Or.inl (by show _ < (scanBody _ _).stop.offset; omega)

/-- What the general search skips ends in front of where it stops, unless that
is the end of a line. -/
theorem scanGeneral_skipped_lt (hc : c.In text) (hd : d ∈ (scanGeneral legacy c).faults)
    (hfault : d.fault = .unrecognized) :
    d.span.stop < (scanGeneral legacy c).stop.offset ∨ (scanGeneral legacy c).stop.AtLineEnd := by
  fun_induction scanGeneral legacy c with
  | case1 c h => simp at hd
  | case2 c b tail h hspace ih => exact ih (hc.advance 1) hd
  | case3 c b tail h hspace found hgen => exact (general?_foundAt hgen).skipped_lt hc hd hfault
  | case4 c b tail h hspace hgen next step ih =>
    have hnext : next.In text := hc.advance _
    rcases List.mem_cons.mp hd with rfl | hd
    · -- a token further on ends behind the piece, or else the text is exhausted
      cases htoken : step.token with
      | none =>
        exact Or.inr (Cursor.atLineEnd_of_rest_eq_nil (scanGeneral_exhausted hnext htoken).2)
      | some t =>
        have hshorter : step.stop.rest.length < next.rest.length :=
          length_rest_scanGeneral_lt htoken
        obtain ⟨d, found, hd, -, hgen, -, hstop⟩ := scanGeneral_origin hnext htoken
        have hin : step.stop.In text := by
          rw [hstop]
          exact ((general?_foundAt hgen).laid hd).stop_in
        have hlen := hnext.length_rest
        have hlen' := hin.length_rest
        exact Or.inl (by show next.offset < step.stop.offset; omega)
    · exact ih hnext hd

/-- What the search for the next token skips ends in front of where it stops,
unless that is the end of a line. -/
theorem scanToken_skipped_lt (hc : c.In text) (hd : d ∈ (scanToken legacy e c).faults)
    (hfault : d.fault = .unrecognized) :
    d.span.stop < (scanToken legacy e c).stop.offset ∨ (scanToken legacy e c).stop.AtLineEnd := by
  unfold scanToken at hd ⊢
  split at hd
  · next found hexp => exact (expected?_foundAt hexp).skipped_lt (e.place_in hc) hd hfault
  · exact scanGeneral_skipped_lt hc hd hfault

namespace Lexer

variable {l l' : Lexer}

/-- All skipped input that was told lies behind the lexer: it ends before the
place where the lexer stands, or there and at the end of a line. -/
def Behind (l : Lexer) : Prop :=
  ∀ d ∈ l.diagnostics, d.fault = .unrecognized →
    d.span.stop < l.position ∨ d.span.stop ≤ l.position ∧ l.cursor.AtLineEnd

/-- What a call tells starts where the lexer stood or later, and lies behind it
afterwards. -/
theorem next_told {token : Option Token} (hl : l.cursor.In text) (hn : l.next = (token, l'))
    (hd : d ∈ l'.diagnostics) (hfault : d.fault = .unrecognized) :
    d ∈ l.diagnostics ∨ l.position ≤ d.span.start ∧
      (d.span.stop < l'.position ∨ d.span.stop ≤ l'.position ∧ l'.cursor.AtLineEnd) := by
  simp only [next, Prod.mk.injEq] at hn
  obtain ⟨-, rfl⟩ := hn
  rcases List.mem_append.mp hd with hd | hd
  · exact Or.inl hd
  · obtain ⟨⟨a, ha, hfa, hstart⟩, z, hz, hfz, hstop⟩ := LexOptions.mem_report hd
    have hacc := scanToken_accounts l.options.legacyIdentifiers l.expectation hl
    have hlo := (hacc.fault_bounds ha (hfa.trans hfault)).1
    have hhi := (hacc.fault_bounds hz (hfz.trans hfault)).2
    rw [hstart] at hlo
    rw [hstop] at hhi
    refine Or.inr ⟨hlo, ?_⟩
    rcases scanToken_skipped_lt hl hz (hfz.trans hfault) with hlt | hend
    · rw [hstop] at hlt
      exact Or.inl hlt
    · exact Or.inr ⟨hhi, hend⟩

/-- One call keeps what was told behind the lexer. -/
theorem Behind.next (hl : l.cursor.In text) (h : l.Behind) : l.next.2.Behind := by
  intro d hd hfault
  rcases next_told hl rfl hd hfault with hold | ⟨-, hnew⟩
  · have hle : d.span.stop ≤ l.position := by
      rcases h d hold hfault with hlt | ⟨hle, -⟩
      · exact Nat.le_of_lt hlt
      · exact hle
    -- what was told before lies behind the lexer as it moves on
    cases hn : l.next with
    | mk token l' =>
      have hposition := next_position hl
      rw [hn] at hposition
      cases token with
      | some t => exact Or.inl (lt_of_le_of_lt hle hposition.2)
      | none =>
        have hend := (next_exhausted hl hn).2.1
        have hmoved : l.position ≤ l'.position := by
          rw [hposition.1]
          exact hl.offset_le
        exact Or.inr ⟨hle.trans hmoved, Cursor.atLineEnd_of_rest_eq_nil hend⟩
  · exact hnew

/-- Whatever calls were made, what was told lies behind the lexer. -/
theorem after_behind (source : Bytes) (options : LexOptions) (calls : List Call) :
    ((start source options).after calls).Behind := by
  have hkept := after_preserves (P := fun l => l.cursor.In source ∧ l.Behind)
    (fun l hl => ⟨next_in hl.1 rfl, hl.2.next hl.1⟩)
    ⟨start_in source options, fun d hd => by simp [start] at hd⟩ calls
  exact hkept.2

/-- A run tells nothing that starts before the place where the lexer stands. -/
theorem run_told_from (hl : l.cursor.In text) (hd : d ∈ l.run.2.diagnostics)
    (hfault : d.fault = .unrecognized) : d ∈ l.diagnostics ∨ l.position ≤ d.span.start := by
  induction l using run.induct with
  | case1 l l' hn =>
    rw [run_of_next_none hn] at hd
    exact (next_told hl hn hd hfault).imp_right And.left
  | case2 l t l' hn ts l'' hrun ih =>
    rw [run_of_next_some hn] at hd
    rcases ih (next_in hl hn) hd with hd | hlater
    · exact (next_told hl hn hd hfault).imp_right And.left
    · have hposition := next_position hl
      rw [hn] at hposition
      exact Or.inr ((Nat.le_of_lt hposition.2).trans hlater)

/-- At the end of a line, with nothing to expect, it tells nothing that starts
there either. -/
theorem run_told_after (hl : l.cursor.In text) (hexp : l.expectation = .none)
    (hend : l.cursor.AtLineEnd) (hd : d ∈ l.run.2.diagnostics)
    (hfault : d.fault = .unrecognized) : d ∈ l.diagnostics ∨ l.position < d.span.start := by
  cases hrest : l.cursor.rest with
  | nil =>
    -- nothing is left to tell
    have hnone : l.next = (none, { l with expectation := .none }) := by
      simp [next, hexp, scanToken_none, scanGeneral_of_rest_eq_nil hrest, LexOptions.report,
        Diagnostic.coalesce]
    rw [run_of_next_none hnone] at hd
    exact Or.inl hd
  | cons b tail =>
    obtain rfl := hend.eq_newline hrest
    -- the newline is passed over before anything is looked for
    have hpass : l.next = Lexer.next { l with cursor := l.cursor.advance 1 } := by
      simp only [next, hexp, scanToken_none, scanGeneral_eq hrest]
      rfl
    rw [run_congr hpass] at hd
    have hlt := l.cursor.offset_lt_advance (by simp [hrest]) 0
    exact (run_told_from (hl.advance 1) hd hfault).imp_right (lt_of_lt_of_le hlt)

end Lexer

/--
**Reading can be taken up at any position.** Call `next` on a lexer any number
of times, such that nothing in particular is expected next. A fresh lexer with
the same options that starts at its position hands out the same tokens, at the
same offsets, as the first one does from there; and the first one ends with the
diagnostics it had and then those of the fresh one. No entry on one side of the
cut goes on with one on the other, so none of them would be told as one.
-/
theorem lex_resumed (source : Bytes) (options : LexOptions) (k : Nat)
    (hexp : ((Lexer.start source options).after (List.replicate k .next)).expectation = .none) :
    let l := (Lexer.start source options).after (List.replicate k .next)
    let fresh := lex source { options with startOffset := l.position }
    l.run.1 = fresh.1 ∧ l.run.2.diagnostics = l.diagnostics ++ fresh.2 ∧
      ∀ d ∈ l.diagnostics, ∀ e ∈ fresh.2, ¬ Diagnostic.Continues d e := by
  intro l fresh
  have hin : l.cursor.In source := Lexer.after_in (Lexer.start_in source options) _
  have hoptions : l.options = options :=
    Lexer.after_preserves (P := fun l => l.options = options) (fun _ h => h) rfl _
  set l₀ := Lexer.start source { options with startOffset := l.position } with hl₀
  have hmoved := Lexer.eq_moved hin hexp
  rw [hoptions, ← hl₀] at hmoved
  have hrun := Lexer.run_moved 0 options.startOffset l.diagnostics l₀
  rw [← hmoved] at hrun
  refine ⟨?_, ?_, ?_⟩
  · rw [hrun, show Token.shift 0 = id from funext Token.shift_zero, List.map_id]
    rfl
  · rw [hrun]
    show l.diagnostics ++ l₀.run.2.diagnostics.map (Diagnostic.shift 0) = _
    rw [show Diagnostic.shift 0 = id from rfl, List.map_id]
    rfl
  · rintro d hd e he ⟨hfault, hfault', htouch⟩
    have hcursor : l₀.cursor = l.cursor := (hin.eq_ofOffset).symm
    have hin₀ : l₀.cursor.In source := hcursor ▸ hin
    have hposition : l₀.position = l.position := congrArg Cursor.offset hcursor
    have hbehind : l.Behind := Lexer.after_behind source options _
    rcases hbehind d hd hfault with hlt | ⟨hle, hend⟩
    · -- it ended in front of the cut, and nothing starts in front of that
      have hge := (Lexer.run_told_from hin₀ he hfault').resolve_left (by simp [hl₀, Lexer.start])
      omega
    · -- it ended at the cut and at the end of a line, where nothing starts
      have hgt := (Lexer.run_told_after hin₀ rfl (hcursor ▸ hend) he hfault').resolve_left
        (by simp [hl₀, Lexer.start])
      omega

/-- A template that the end of its line cuts off right behind skipped input,
with more to be skipped on the next line. -/
theorem lex_resumed_cutOff :
    let source := ascii "> \x7b\x7b$\n$ X"
    let l := (Lexer.start source {}).after [.next]
    l.expectation = .none ∧
      l.diagnostics = [.unrecognized ⟨4, 5⟩, .unterminated .template ⟨2, 5⟩] ∧
      l.run.2.diagnostics = l.diagnostics ++ [.unrecognized ⟨6, 7⟩] := by
  intro source l
  have hexp : l.expectation = .none := by decide +kernel
  have hfresh : (lex source { startOffset := l.position }).2 = [.unrecognized ⟨6, 7⟩] := by
    decide +kernel
  refine ⟨hexp, by decide +kernel, ?_⟩
  exact (lex_resumed source {} 1 hexp).2.1.trans (congrArg _ hfresh)

end StoryLex
