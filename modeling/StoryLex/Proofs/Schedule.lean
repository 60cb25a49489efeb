import StoryLex.Proofs.Composition
import StoryLex.Proofs.Reporting
import StoryLex.Proofs.Resumption

/-!
# StoryLex — one stream, whatever the calls

A lexer can be asked for one token at a time, for all that are left, or for a
mixture of both, and it may be asked on when nothing is left. The stream is the
same (`session_stream`).

**Tokens.** What was handed out and what is left make up the stream, after
every call (`Lexer.tokens_eq_handedOut`). A lexer that has nothing left stays
as it is for good (`Lexer.call_of_exhausted`).

**Diagnostics.** Skipped pieces that touch are one entry, so the last entry
that was told could have to be amended when more is skipped. `Diagnostic.tell`
adds to a list in that way, entry by entry. Between two calls the amendment
never happens: all that was told lies behind the lexer (`Lexer.Behind`), and
what a call meets lies ahead of it (`scanToken_ahead`), so nothing touches and
entries are only ever added (`Lexer.next_diagnostics_eq_tell`,
`Lexer.after_told`).
-/

namespace StoryLex

namespace Diagnostic

variable {d e : Diagnostic} {told ds : List Diagnostic}

-- ---------------------------------------------------------------------------
-- Telling in place
-- ---------------------------------------------------------------------------

/-- Adds an entry to what was told. Skipped input that goes on with the last
entry is not told anew: that entry is made longer. -/
def tell (told : List Diagnostic) (d : Diagnostic) : List Diagnostic :=
  match told.getLast? with
  | none => [d]
  | some last =>
    if Continues last d then
      told.dropLast ++ [{ last with span := ⟨last.span.start, d.span.stop⟩ }]
    else
      told ++ [d]

/-- Telling amends the last entry, or adds one behind it. -/
theorem tell_concat (told : List Diagnostic) (last d : Diagnostic) :
    tell (told ++ [last]) d =
      told ++ if Continues last d then [{ last with span := ⟨last.span.start, d.span.stop⟩ }]
        else [last, d] := by
  simp only [tell, List.getLast?_concat, List.dropLast_concat]
  split
  · rfl
  · rw [List.append_assoc]
    rfl

/-- A piece is as good as the two that it is made of. -/
theorem join_join (h : Continues d e) (ds : List Diagnostic) :
    join d (join e ds) = join { d with span := ⟨d.span.start, e.span.stop⟩ } ds := by
  cases ds with
  | nil => exact if_pos h
  | cons f fs =>
    -- what comes next goes on with the two as one exactly if it goes on with the second
    have hcontinues : Continues { d with span := ⟨d.span.start, e.span.stop⟩ } f ↔
        Continues e f := by
      simp [Continues, h.1, h.2.1]
    by_cases hf : Continues e f
    · rw [join, join, if_pos hf, if_pos (hcontinues.mpr hf)]
      exact if_pos h
    · rw [join, join, if_neg hf, if_neg (mt hcontinues.mp hf)]
      exact if_pos h

/-- Telling entry by entry joins what touches, the last entry included. -/
theorem foldl_tell_concat (told : List Diagnostic) (last : Diagnostic) (ds : List Diagnostic) :
    ds.foldl tell (told ++ [last]) = told ++ join last (coalesce ds) := by
  induction ds generalizing told last with
  | nil => rfl
  | cons d ds ih =>
    rw [List.foldl_cons, tell_concat]
    show _ = told ++ join last (join d (coalesce ds))
    by_cases h : Continues last d
    · rw [if_pos h, ih, join_join h]
    · -- what starts where `d` does goes on with nothing that `d` does not
      obtain ⟨stop, rest, hjoin⟩ := join_eq_cons d (coalesce ds)
      have hapart : join last (join d (coalesce ds)) = last :: join d (coalesce ds) := by
        rw [hjoin]
        exact if_neg h
      rw [if_neg h, hapart, show told ++ [last, d] = told ++ [last] ++ [d] by simp, ih]
      simp

/-- Where nothing goes on with what was told, telling only adds to it. -/
theorem foldl_tell (h : ∀ d ∈ told, ∀ e ∈ ds, ¬ Continues d e) :
    ds.foldl tell told = told ++ coalesce ds := by
  rcases List.eq_nil_or_concat told with rfl | ⟨init, last, rfl⟩
  · cases ds with
    | nil => rfl
    | cons d ds => exact foldl_tell_concat [] d ds
  · rw [List.concat_eq_append] at h ⊢
    rw [foldl_tell_concat, join_coalesce (h last (by simp)), List.append_assoc]
    rfl

end Diagnostic

-- ---------------------------------------------------------------------------
-- What a call meets lies ahead
-- ---------------------------------------------------------------------------

section Ahead

variable {text : Bytes} {legacy : Bool} {e : Expectation} {c : Cursor} {d : Diagnostic}

/-- The end of a line meets no expectation. -/
theorem expected?_of_atLineEnd (h : c.AtLineEnd) : expected? legacy e c = none := by
  cases hrest : c.rest with
  | nil =>
    refine expected?_of_rest_eq_nil ?_
    unfold Expectation.place
    split
    · exact hrest
    · simp [hrest]
  | cons b tail =>
    obtain rfl := h.eq_newline hrest
    have hplace : (e.place c).rest = newline :: tail := by
      unfold Expectation.place
      split
      · exact hrest
      · rw [Cursor.rest_skip, hrest]
        rfl
    rw [expected?_eq hplace, Expectation.meet?_newline]

/-- What is skipped in search of a token starts where the search does or later,
and later if that is the end of a line. -/
theorem scanToken_ahead (hc : c.In text) (hd : d ∈ (scanToken legacy e c).faults)
    (hfault : d.fault = .unrecognized) :
    c.offset ≤ d.span.start ∧ (c.AtLineEnd → c.offset < d.span.start) := by
  refine ⟨((scanToken_accounts legacy e hc).fault_bounds hd hfault).1, ?_⟩
  intro hend
  rw [scanToken, expected?_of_atLineEnd hend] at hd
  cases hrest : c.rest with
  | nil => simp [scanGeneral_of_rest_eq_nil hrest] at hd
  | cons b tail =>
    obtain rfl := hend.eq_newline hrest
    -- the newline is passed over before anything is looked for
    have hpass : scanGeneral legacy c = scanGeneral legacy (c.advance 1) := scanGeneral_eq hrest
    simp only [hpass] at hd
    have hstart := ((scanGeneral_accounts legacy (hc.advance 1)).fault_bounds hd hfault).1
    exact lt_of_lt_of_le (c.offset_lt_advance (by simp [hrest]) 0) hstart

end Ahead

namespace Lexer

variable {l l' : Lexer} {t : Token} {text : Bytes}

/-- Of what a call meets, the part that is reported. -/
def met (l : Lexer) : List Diagnostic :=
  (scanToken l.options.legacyIdentifiers l.expectation l.cursor).faults.filter fun d =>
    l.options.reportUnrecognized || d.fault = .unterminated

/-- A call adds to what was told, joined, what it met. -/
theorem next_diagnostics (l : Lexer) :
    l.next.2.diagnostics = l.diagnostics ++ Diagnostic.coalesce l.met := rfl

/-- Nothing that lies ahead goes on with what was told. -/
theorem Behind.not_continues (h : l.Behind) {d e : Diagnostic} (hd : d ∈ l.diagnostics)
    (hahead : e.fault = .unrecognized →
      l.position ≤ e.span.start ∧ (l.cursor.AtLineEnd → l.position < e.span.start)) :
    ¬ Diagnostic.Continues d e := by
  rintro ⟨hfault, hfault', htouch⟩
  obtain ⟨hle, hlt⟩ := hahead hfault'
  rcases h d hd hfault with hbefore | ⟨hbefore, hend⟩
  · omega
  · have := hlt hend
    omega

/-- A call that tells in place what it meets, amending the last entry where it
can be, comes to the same as one that only adds entries. -/
theorem next_diagnostics_eq_tell (hl : l.cursor.In text) (hbehind : l.Behind) :
    l.next.2.diagnostics = l.met.foldl Diagnostic.tell l.diagnostics := by
  have hapart : ∀ d ∈ l.diagnostics, ∀ e ∈ l.met, ¬ Diagnostic.Continues d e := by
    intro d hd e he
    exact hbehind.not_continues hd (scanToken_ahead hl (List.mem_of_mem_filter he))
  rw [Diagnostic.foldl_tell hapart, next_diagnostics]

-- ---------------------------------------------------------------------------
-- Entries are only added
-- ---------------------------------------------------------------------------

/-- A lexer that was used on: it stands further on, unless it had nothing left
to pass, and has told what it had and then what lay ahead. -/
structure Continued (l l' : Lexer) : Prop where
  moved : l.position < l'.position ∨ l'.cursor = l.cursor
  told  : ∃ more, l'.diagnostics = l.diagnostics ++ more ∧ ∀ e ∈ more, e.fault = .unrecognized →
            l.position ≤ e.span.start ∧ (l.cursor.AtLineEnd → l.position < e.span.start)

theorem Continued.refl (l : Lexer) : Continued l l :=
  ⟨Or.inr rfl, [], (List.append_nil _).symm, by simp⟩

/-- A call moves the lexer on, unless nothing is left to pass. -/
theorem next_moved_on (hl : l.cursor.In text) :
    l.position < l.next.2.position ∨ l.next.2.cursor = l.cursor := by
  cases hn : l.next with
  | mk token l' =>
    have hposition := next_position hl
    rw [hn] at hposition
    cases token with
    | some t => exact Or.inl hposition.2
    | none =>
      rcases Nat.lt_or_ge l.position l'.position with hlt | hge
      · exact Or.inl hlt
      · -- the lexer stood at the end of the text already
        have hend : l'.position = l.position := by
          have : l.position ≤ text.length := hl.offset_le
          omega
        refine Or.inr ?_
        rw [(next_in hl hn).eq_ofOffset, hl.eq_ofOffset]
        exact congrArg _ hend

/-- A lexer that was used on is so after one more call. -/
theorem Continued.next (hl' : l'.cursor.In text) (h : Continued l l') : Continued l l'.next.2 := by
  obtain ⟨hmoved, more, hmore, hahead⟩ := h
  refine ⟨?_, more ++ Diagnostic.coalesce l'.met, ?_, ?_⟩
  · -- the lexer moves on from where it was, or stays there because nothing is left
    rcases next_moved_on hl' with hlt | hsame
    · rcases hmoved with hmoved | hmoved
      · exact Or.inl (hmoved.trans hlt)
      · exact Or.inl (by rwa [position, ← hmoved])
    · have hposition : l'.next.2.position = l'.position := congrArg Cursor.offset hsame
      rwa [hposition, hsame]
  · rw [next_diagnostics, hmore, List.append_assoc]
  · intro e he hfault
    rcases List.mem_append.mp he with he | he
    · exact hahead e he hfault
    · obtain ⟨⟨a, ha, hfa, hstart⟩, -⟩ := Diagnostic.mem_coalesce he
      obtain ⟨hle, hlt⟩ := scanToken_ahead hl' (List.mem_of_mem_filter ha) (hfa.trans hfault)
      rw [hstart] at hle hlt
      rcases hmoved with hmoved | hmoved
      · -- the lexer has moved, so all that it meets from here on is ahead
        have hfar : l.position < e.span.start := lt_of_lt_of_le hmoved hle
        exact ⟨hfar.le, fun _ => hfar⟩
      · rw [hmoved] at hle hlt
        exact ⟨hle, hlt⟩

/-- Whatever calls are made, what was told stays as it is and at its place, and
nothing told later goes on with it. -/
theorem after_told (hl : l.cursor.In text) (hbehind : l.Behind) (calls : List Call) :
    ∃ more, (l.after calls).diagnostics = l.diagnostics ++ more ∧
      ∀ d ∈ l.diagnostics, ∀ e ∈ more, ¬ Diagnostic.Continues d e := by
  have hkept := after_preserves (P := fun l' => l'.cursor.In text ∧ Continued l l')
    (fun l' h => ⟨next_in h.1 rfl, h.2.next h.1⟩) ⟨hl, .refl l⟩ calls
  obtain ⟨more, hmore, hahead⟩ := hkept.2.told
  exact ⟨more, hmore, fun d hd e he => hbehind.not_continues hd (hahead e he)⟩

-- ---------------------------------------------------------------------------
-- Lexers with nothing left
-- ---------------------------------------------------------------------------

/-- A lexer that has nothing left to read and nothing to expect. -/
structure Exhausted (l : Lexer) : Prop where
  rest        : l.cursor.rest = []
  expectation : l.expectation = .none

theorem exhausted_of_next_none (hl : l.cursor.In text) (hn : l.next = (none, l')) :
    l'.Exhausted :=
  ⟨(next_exhausted hl hn).2.1, (next_exhausted hl hn).2.2⟩

theorem exhausted_run (hl : l.cursor.In text) : l.run.2.Exhausted :=
  ⟨(run_exhausted hl).2.1, (run_exhausted hl).2.2⟩

/-- A lexer with nothing left hands out nothing, and stays as it is. -/
theorem next_of_exhausted (h : l.Exhausted) : l.next = (none, l) := by
  obtain ⟨options, cursor, expectation, diagnostics⟩ := l
  obtain ⟨hrest, hexp⟩ := h
  obtain rfl : expectation = .none := hexp
  simp [next, scanToken_none, scanGeneral_of_rest_eq_nil hrest, LexOptions.report,
    Diagnostic.coalesce]

theorem tokens_of_exhausted (h : l.Exhausted) : l.tokens = [] :=
  tokens_of_next_none (next_of_exhausted h)

/-- The reply of a lexer that has nothing left, at the end of a text of `n` bytes. -/
def Reply.idle (n : Nat) : Call → Reply
  | .next => .token none
  | .run => .stream [Token.eof n]

/-- Nothing comes of a lexer that has nothing left, and it stays as it is. -/
theorem call_of_exhausted (hl : l.cursor.In text) (h : l.Exhausted) (k : Call) :
    l.call k = (.idle text.length k, l) := by
  have hnext := next_of_exhausted h
  cases k with
  | next => rw [call, hnext, Reply.idle]
  | run =>
    have hposition : l.position = text.length := hl.offset_eq_length h.rest
    rw [call, run_of_next_none hnext, hposition, Reply.idle]

/-- No calls change a lexer that has nothing left. -/
theorem after_of_exhausted (hl : l.cursor.In text) (h : l.Exhausted) (calls : List Call) :
    l.after calls = l := by
  induction calls with
  | nil => rfl
  | cons k calls ih =>
    show (l.call k).2.after calls = l
    rw [call_of_exhausted hl h]
    exact ih

theorem session_of_exhausted (hl : l.cursor.In text) (h : l.Exhausted) (calls : List Call) :
    l.session calls = calls.map fun k => (.idle text.length k, l) := by
  induction calls with
  | nil => rfl
  | cons k calls ih => rw [session, call_of_exhausted hl h, ih, List.map_cons]

theorem run_of_exhausted (h : l.Exhausted) : l.run.2 = l := by
  rw [run_of_next_none (next_of_exhausted h)]

-- ---------------------------------------------------------------------------
-- What was handed out, and what is left
-- ---------------------------------------------------------------------------

/-- The tokens of a reply. -/
def Reply.tokens : Reply → List Token
  | .token t => t.toList
  | .stream ts => ts

/-- Whether a reply shows that nothing is left: it is a stream, or no token. -/
def Reply.isLast : Reply → Bool
  | .token t => t.isNone
  | .stream _ => true

/-- The tokens of a list, less the ends of the input. -/
def proper (ts : List Token) : List Token := ts.filter (·.kind ≠ .eof)

/-- The tokens that a list of calls hands out, less the ends of the input. -/
def handedOut (l : Lexer) (calls : List Call) : List Token :=
  proper ((l.session calls).flatMap (·.1.tokens))

theorem proper_tokens (hl : l.cursor.In text) : proper l.tokens = l.tokens := by
  refine List.filter_eq_self.mpr ?_
  intro t ht
  have hkind : t.kind ≠ .eof :=
    Token.Shaped.kind_ne_eof (tokens_shaped hl) (Token.mem_forest_of_mem ht)
  simpa using hkind

/-- Less the end of the input, a run hands out the tokens ahead. -/
theorem proper_run (hl : l.cursor.In text) : proper l.run.1 = l.tokens := by
  have hend : proper [Token.eof text.length] = [] := rfl
  rw [run_eq_tokens hl, proper, List.filter_append]
  show proper l.tokens ++ proper [Token.eof text.length] = l.tokens
  rw [hend, proper_tokens hl, List.append_nil]

theorem call_in (hl : l.cursor.In text) (k : Call) : (l.call k).2.cursor.In text := by
  cases k with
  | next => exact next_in hl rfl
  | run => exact (run_exhausted hl).1

/-- A last reply is given by a lexer that has nothing left afterwards. -/
theorem call_exhausted (hl : l.cursor.In text) {k : Call} (h : (l.call k).1.isLast = true) :
    (l.call k).2.Exhausted := by
  cases k with
  | next =>
    have hnone : l.next = (none, l.next.2) := by
      rw [← Option.isNone_iff_eq_none.mp (show l.next.1.isNone = true from h)]
    exact exhausted_of_next_none hl hnone
  | run => exact exhausted_run hl

/-- One call: what it hands out, and what is then left. -/
theorem tokens_eq_call (hl : l.cursor.In text) (k : Call) :
    l.tokens = proper (l.call k).1.tokens ++ (l.call k).2.tokens := by
  cases k with
  | next =>
    cases hn : l.next with
    | mk token l' =>
      rw [call, hn]
      cases token with
      | none =>
        rw [tokens_of_next_none hn, tokens_of_exhausted (exhausted_of_next_none hl hn)]
        rfl
      | some t =>
        have hproper := proper_tokens hl
        rw [tokens_of_next_some hn] at hproper ⊢
        -- the token that was handed out is one of those ahead, so it is proper
        have hkind : proper [t] = [t] := by
          rw [proper, List.filter_eq_self] at hproper ⊢
          intro u hu
          exact hproper u (by simp [List.mem_singleton.mp hu])
        show t :: l'.tokens = proper [t] ++ l'.tokens
        rw [hkind]
        rfl
  | run =>
    show l.tokens = proper l.run.1 ++ l.run.2.tokens
    rw [proper_run hl, tokens_of_exhausted (exhausted_run hl), List.append_nil]

/-- A list of calls: what was handed out and what is left make up the stream. -/
theorem tokens_eq_handedOut (hl : l.cursor.In text) (calls : List Call) :
    l.tokens = l.handedOut calls ++ (l.after calls).tokens := by
  induction calls generalizing l with
  | nil => rfl
  | cons k calls ih =>
    have hsplit : l.handedOut (k :: calls) =
        proper (l.call k).1.tokens ++ (l.call k).2.handedOut calls := by
      simp only [handedOut, proper, session, List.flatMap_cons, List.filter_append]
    rw [hsplit, List.append_assoc, tokens_eq_call hl k, ih (call_in hl k)]
    rfl

/-- A lexer that gave a last reply has nothing left, however it was used since. -/
theorem after_exhausted (hl : l.cursor.In text) {calls : List Call}
    (h : ∃ step ∈ l.session calls, step.1.isLast = true) : (l.after calls).Exhausted := by
  induction calls generalizing l with
  | nil => simp [session] at h
  | cons k calls ih =>
    obtain ⟨step, hstep, hlast⟩ := h
    rcases List.mem_cons.mp hstep with rfl | hstep
    · -- the last reply came first, and no later call changes the lexer
      have hexhausted := call_exhausted hl hlast
      show ((l.call k).2.after calls).Exhausted
      rwa [after_of_exhausted (call_in hl k) hexhausted]
    · exact ih (call_in hl k) ⟨step, hstep, hlast⟩

/-- Running a lexer to its end leaves it the same, whatever calls came before. -/
theorem run_after (hl : l.cursor.In text) (calls : List Call) :
    (l.after calls).run.2 = l.run.2 := by
  induction calls generalizing l with
  | nil => rfl
  | cons k calls ih =>
    -- one call, and then a run, ends where the run alone does
    have hcall : (l.call k).2.run.2 = l.run.2 := by
      cases k with
      | next =>
        cases hn : l.next with
        | mk token l' =>
          rw [call, hn]
          cases token with
          | none =>
            rw [run_of_next_none hn, run_of_exhausted (exhausted_of_next_none hl hn)]
          | some t => rw [run_of_next_some hn]
      | run => exact run_of_exhausted (exhausted_run hl)
    exact (ih (call_in hl k)).trans hcall

end Lexer

/--
**Every schedule of calls sees the same stream.** Use a lexer by any `calls`,
and then by any `later` ones.

* What was handed out is a front part of the stream of a fresh run, and what
  was told is a front part of its diagnostics, which a run takes up to the end.
* What was told is never altered: later entries come behind it, and none of
  them goes on with one that was told, so that a lexer which amends its last
  entry in place would not find one to amend.
* Once a run was made, or a call handed out nothing, the whole stream was
  handed out and all was told. From then on no call hands out anything but the
  end of the input, and the lexer stays as it is.
-/
theorem session_stream (source : Bytes) (options : LexOptions) (calls later : List Lexer.Call) :
    let fresh := lex source options
    let l := (Lexer.start source options).after calls
    let handedOut := (Lexer.start source options).handedOut calls
    (handedOut <+: Lexer.proper fresh.1 ∧ l.run.2.diagnostics = fresh.2) ∧
    ((∃ more, (l.after later).diagnostics = l.diagnostics ++ more ∧
        ∀ d ∈ l.diagnostics, ∀ e ∈ more, ¬ Diagnostic.Continues d e) ∧
      l.next.2.diagnostics = l.met.foldl Diagnostic.tell l.diagnostics) ∧
    ((∃ step ∈ (Lexer.start source options).session calls, step.1.isLast = true) →
      handedOut = Lexer.proper fresh.1 ∧ l.diagnostics = fresh.2 ∧
        l.session later = later.map fun k => (.idle source.length k, l)) := by
  intro fresh l handedOut
  have hstart := Lexer.start_in source options
  have hin : l.cursor.In source := Lexer.after_in hstart calls
  have hbehind : l.Behind := Lexer.after_behind source options calls
  have hstream : Lexer.proper fresh.1 = handedOut ++ l.tokens :=
    (Lexer.proper_run hstart).trans (Lexer.tokens_eq_handedOut hstart calls)
  have hdrained : l.run.2.diagnostics = fresh.2 :=
    congrArg Lexer.diagnostics (Lexer.run_after hstart calls)
  refine ⟨⟨⟨_, hstream.symm⟩, hdrained⟩,
    ⟨Lexer.after_told hin hbehind later, Lexer.next_diagnostics_eq_tell hin hbehind⟩, ?_⟩
  intro hlast
  have hexhausted := Lexer.after_exhausted hstart hlast
  refine ⟨?_, ?_, Lexer.session_of_exhausted hin hexhausted later⟩
  · rw [hstream, Lexer.tokens_of_exhausted hexhausted, List.append_nil]
  · rw [← hdrained, Lexer.run_of_exhausted hexhausted]

/-- A run after a call that handed out the first token: the rest of the stream
follows, with the skipped dollars at either side of the newline told as two. -/
theorem session_stream_mixed :
    let source := ascii "X $\n$ Y"
    let l := (Lexer.start source {}).after [.next, .run]
    l.diagnostics = [.unrecognized ⟨2, 3⟩, .unrecognized ⟨4, 5⟩] ∧
      (Lexer.start source {}).handedOut [.next, .run] = Lexer.proper (lex source {}).1 ∧
      l.session [.next, .run] = [(.token none, l), (.stream [Token.eof 7], l)] := by
  intro source l
  have hlast : ∃ step ∈ (Lexer.start source {}).session [.next, .run], step.1.isLast = true :=
    ⟨_, List.mem_cons_of_mem _ (List.mem_cons_self ..), rfl⟩
  obtain ⟨hstream, hdiagnostics, hidle⟩ :=
    (session_stream source {} [.next, .run] [.next, .run]).2.2 hlast
  exact ⟨hdiagnostics.trans (by decide +kernel), hstream, hidle⟩

end StoryLex
