import StoryLex.Proofs.Coverage
import StoryLex.Proofs.Lines
import StoryLex.Proofs.Shift

/-!
# StoryLex — scripts are read line by line

A script that ends with a line can be read on its own: what follows it changes
nothing in its tokens and diagnostics, and what follows is read as if it stood
alone (`lex_append`). The one exception is an argument list that was still open
where the script ended.

Three runs are held against each other: the one over the front, the one over
the rest, and the one over both. The last follows the first call by call until
the front is exhausted (`Lexer.run_extend`), and from there on it is the second,
moved along (`Lexer.run_moved`, `Lexer.run_bare`).
-/

namespace StoryLex

-- ---------------------------------------------------------------------------
-- Reports of two stretches
-- ---------------------------------------------------------------------------

namespace Diagnostic

variable {d : Diagnostic} {ds es : List Diagnostic}

/-- A diagnostic is merged with the first of those behind it, whatever comes
after these. -/
theorem join_append (h : ds ≠ []) : join d (ds ++ es) = join d ds ++ es := by
  cases ds with
  | nil => exact absurd rfl h
  | cons e ds =>
    simp only [List.cons_append, join]
    split <;> rfl

/-- A diagnostic that touches none of those behind it stays apart when they have
been merged. -/
theorem join_coalesce (h : ∀ e ∈ es, ¬ Continues d e) :
    join d (coalesce es) = d :: coalesce es := by
  cases es with
  | nil => rfl
  | cons e es =>
    obtain ⟨stop, rest, hjoin⟩ := join_eq_cons e (coalesce es)
    -- merging moves the end of the first diagnostic and not its start
    rw [show coalesce (e :: es) = join e (coalesce es) from rfl, hjoin, join]
    exact if_neg (h e (List.mem_cons_self ..))

/-- Diagnostics of two stretches that do not touch are coalesced apart. -/
theorem coalesce_append (h : ∀ d ∈ ds, ∀ e ∈ es, ¬ Continues d e) :
    coalesce (ds ++ es) = coalesce ds ++ coalesce es := by
  induction ds with
  | nil => rfl
  | cons d ds ih =>
    rw [List.forall_mem_cons] at h
    show join d (coalesce (ds ++ es)) = join d (coalesce ds) ++ coalesce es
    rw [ih h.2]
    cases ds with
    -- the last of the first stretch meets the second one
    | nil => exact join_coalesce h.1
    | cons d' ds =>
      exact join_append (by simp [coalesce_eq_nil_iff])

end Diagnostic

/-- Two stretches that do not touch are reported apart. -/
theorem LexOptions.report_append (options : LexOptions) {ds es : List Diagnostic}
    (h : ∀ d ∈ ds, ∀ e ∈ es, ¬ Diagnostic.Continues d e) :
    options.report (ds ++ es) = options.report ds ++ options.report es := by
  rw [report, List.filter_append]
  refine Diagnostic.coalesce_append ?_
  intro d hd e he
  exact h d (List.mem_of_mem_filter hd) e (List.mem_of_mem_filter he)

-- ---------------------------------------------------------------------------
-- Skipped pieces do not cross the end of the line
-- ---------------------------------------------------------------------------

variable {text more : Bytes} {legacy : Bool} {e : Expectation} {c : Cursor}

/-- Where the search came to the end of a text of whole lines, the last byte
of the text was not skipped. -/
theorem scanToken_exhausted_stop_lt (hc : c.In text) (htext : text = [] ∨ EndsLine text)
    (h : (scanToken legacy e c).token = none) {d : Diagnostic}
    (hd : d ∈ (scanToken legacy e c).faults) (hfault : d.fault = .unrecognized) :
    d.span.stop < text.length := by
  have hacc := scanToken_accounts legacy e hc
  obtain ⟨hin, hrest⟩ := scanToken_exhausted hc h
  rw [h, hin.offset_eq_length hrest] at hacc
  have hlt := hacc.spans d hd
  have hbounds := hacc.fault_bounds hd hfault
  rcases htext with rfl | htext
  · simp at hbounds
    omega
  · -- the newline is white space, and so no part of a skipped piece
    have hlast : (text[text.length - 1]?).all isSpace = true := by
      rw [← List.getLast?_eq_getElem?, htext]
      decide
    have hnot := hacc.not_covers_filler hd hfault hlast
    unfold Span.Covers at hnot
    omega

/-- What was skipped before the end of the front does not touch what is skipped
behind it. -/
theorem not_continues_of_exhausted (hc : c.In text) (htext : text = [] ∨ EndsLine text)
    (h : (scanToken legacy e c).token = none) (more : Bytes) :
    ∀ d ∈ (scanToken legacy e c).faults,
      ∀ d' ∈ (scanGeneral legacy ((scanToken legacy e c).stop.extend more)).faults,
        ¬ Diagnostic.Continues d d' := by
  rintro d hd d' hd' ⟨hfault, hfault', htouch⟩
  have hlt := scanToken_exhausted_stop_lt hc htext h hd hfault
  obtain ⟨hin, hrest⟩ := scanToken_exhausted hc h
  have hge := ((scanGeneral_accounts legacy (hin.extend more)).fault_bounds hd' hfault').1
  rw [Cursor.offset_extend, hin.offset_eq_length hrest] at hge
  omega

-- ---------------------------------------------------------------------------
-- The run over a longer text
-- ---------------------------------------------------------------------------

namespace Lexer

variable {l l' : Lexer} {t : Token}

/-- The same lexer over a text that goes on with `more`. -/
def extend (more : Bytes) (l : Lexer) : Lexer := { l with cursor := l.cursor.extend more }

/-- The lexer stands in a text of whole lines, and expects nothing at its end. -/
structure Ready (text : Bytes) (l : Lexer) : Prop where
  place : l.cursor.In text
  line  : l.cursor.rest = [] ∧ l.expectation = .none ∨ EndsLine l.cursor.rest

/-- While there are tokens in the front, `next` hands out the same over the
longer text. -/
theorem next_extend_some (hl : l.Ready text) (hn : l.next = (some t, l'))
    (hterm : t.unterminated = false) (more : Bytes) :
    (l.extend more).next = (some t, l'.extend more) := by
  simp only [next, Prod.mk.injEq] at hn
  obtain ⟨ht, rfl⟩ := hn
  have hscan : scanToken l.options.legacyIdentifiers l.expectation (l.cursor.extend more) = _ :=
    scanToken_extend hl.place hl.line (by simpa [ht] using hterm) more
  simp only [next, extend, hscan, Step.resume, ht]

/-- At the end of the front, `next` goes on over the longer text as it would
from there. -/
theorem next_extend_none (hl : l.Ready text) (htext : text = [] ∨ EndsLine text)
    (hn : l.next = (none, l')) (more : Bytes) :
    (l.extend more).next = (l'.extend more).next := by
  simp only [next, Prod.mk.injEq] at hn
  obtain ⟨ht, rfl⟩ := hn
  have hscan : scanToken l.options.legacyIdentifiers l.expectation (l.cursor.extend more) = _ :=
    scanToken_extend hl.place hl.line (by simp [ht]) more
  -- what is skipped behind the end is reported apart from what was skipped before
  have hreport := l.options.report_append
    (not_continues_of_exhausted hl.place htext ht more)
  simp only [next, extend, hscan, Step.resume, ht, Option.elim_none, scanToken_none, hreport,
    List.append_assoc]

/-- A call that hands out a token which was not cut off leaves the lexer ready. -/
theorem Ready.next (hl : l.Ready text) (htext : text = [] ∨ EndsLine text)
    (hn : l.next = (some t, l')) (hterm : t.unterminated = false) : l'.Ready text := by
  obtain ⟨d, found, hd, -, hfound, rfl, hstop⟩ := next_found hl.place hn
  -- a token is found where there is text, and so its line has an end
  have hne : d.rest ≠ [] := by
    cases hfound <;> simp [*]
  have hline := (hd.endsLine htext).resolve_left hne
  refine ⟨?_, Or.inr ?_⟩
  · rw [hstop]
    exact (hfound.laid hd).stop_in
  · rw [hstop]
    exact hfound.endsLine hd hline hterm

/-- The run over a longer text follows the run over the shorter one to its
end, and goes on from there. -/
theorem run_extend (htext : text = [] ∨ EndsLine text) (hl : l.Ready text)
    (hterm : ∀ t ∈ l.tokens, t.unterminated = false) (more : Bytes) :
    (l.extend more).run =
      (l.tokens ++ (l.run.2.extend more).run.1, (l.run.2.extend more).run.2) := by
  induction l using run.induct with
  | case1 l l' hn =>
    rw [run_congr (next_extend_none hl htext hn more), run_of_next_none hn,
      tokens_of_next_none hn]
    rfl
  | case2 l t l' hn ts l'' hrun ih =>
    rw [tokens_of_next_some hn, List.forall_mem_cons] at hterm
    have hnext := next_extend_some hl hn hterm.1 more
    rw [run_of_next_some hnext, ih (hl.next htext hn hterm.1) hterm.2, run_of_next_some hn,
      tokens_of_next_some hn]
    rfl

theorem start_extend {source : Bytes} {options : LexOptions}
    (h : options.startOffset ≤ source.length) (more : Bytes) :
    start (source ++ more) options = (start source options).extend more := by
  simp only [start, extend, Cursor.ofOffset, Cursor.extend, List.take_append_of_le_length h,
    List.drop_append_of_le_length h]

/-- Behind the end of its text, a lexer reads on as one that starts there. -/
theorem bare_extend_run {source : Bytes} (hl : l.cursor.In source) (more : Bytes) :
    (l.run.2.extend more).bare =
      (start more { l.options with startOffset := 0 }).moved source.length
        l.options.startOffset l.run.2.diagnostics := by
  obtain ⟨hin, hrest, hexp⟩ := run_exhausted hl
  have hoptions : l.run.2.options = l.options :=
    run_preserves (P := fun l' => l'.options = l.options) (fun _ h => h) rfl
  have hoffset := hin.offset_eq_length hrest
  simp [bare, extend, Cursor.bare, Cursor.extend, moved, start, Cursor.ofOffset, Cursor.shift,
    hrest, hexp, hoptions, hoffset]

end Lexer

/-- **Line-wise compositionality.** A script `A` of whole lines, none of whose
top-level tokens was cut off, can be read apart from the text `B` that follows
it: the tokens of both are those of `A` and then those of `B`, moved along, and
so are the diagnostics. -/
theorem lex_append (A B : Bytes) (options : LexOptions)
    (hA : A = [] ∨ A.getLast? = some newline) (hstart : options.startOffset ≤ A.length)
    (hterm : ∀ t ∈ (lex A options).1, t.unterminated = false) :
    (lex (A ++ B) options).1 =
        (lex A options).1.dropLast ++
          (lex B { options with startOffset := 0 }).1.map (Token.shift A.length) ∧
      (lex (A ++ B) options).2 =
        (lex A options).2 ++
          (lex B { options with startOffset := 0 }).2.map (Diagnostic.shift A.length) := by
  have hin := Lexer.start_in A options
  set l := Lexer.start A options with hl
  have hready : l.Ready A := by
    refine ⟨hin, ?_⟩
    rcases hin.endsLine hA with hrest | hline
    · exact Or.inl ⟨hrest, rfl⟩
    · exact Or.inr hline
  have htokens : ∀ t ∈ l.tokens, t.unterminated = false := fun t ht =>
    hterm t (List.dropLast_subset _ ht)
  have hrun := Lexer.run_extend hA hready htokens B
  obtain ⟨hend, hrest, hexp⟩ := Lexer.run_exhausted hin
  -- what stands before `B` is nothing, or the newline that ends `A`
  have hline : atLineStart (l.run.2.extend B).cursor.before = true := by
    show atLineStart l.run.2.cursor.before = true
    rw [hend.before_eq, hend.offset_eq_length hrest, List.take_length]
    rcases hA with rfl | hA
    · rfl
    · rw [hA]
      rfl
  obtain ⟨hstream, hdiagnostics⟩ := Lexer.run_bare hline hexp
  rw [Lexer.bare_extend_run hin B, Lexer.run_moved] at hstream hdiagnostics
  refine ⟨?_, ?_⟩
  · show (Lexer.start (A ++ B) options).run.1 = _
    rw [Lexer.start_extend hstart, hrun, ← hstream]
    rfl
  · show (Lexer.start (A ++ B) options).run.2.diagnostics = _
    rw [Lexer.start_extend hstart, hrun, ← hdiagnostics]
    rfl

/-- A list of arguments over two lines, with something skipped on either side
of the place where the next line begins. -/
theorem lex_append_skipped :
    ((ascii "-> camp (#a,\n3d6) $\n").getLast? = some newline ∧
      ∀ t ∈ (lex (ascii "-> camp (#a,\n3d6) $\n") {}).1, t.unterminated = false) ∧
    (lex (ascii "-> camp (#a,\n3d6) $\n" ++ ascii "$ X") {}).2 =
      [.unrecognized ⟨18, 19⟩, .unrecognized ⟨20, 21⟩] := by
  have hterm : ∀ t ∈ (lex (ascii "-> camp (#a,\n3d6) $\n") {}).1, t.unterminated = false := by
    decide +kernel
  refine ⟨⟨by decide, hterm⟩, ?_⟩
  have happend := (lex_append (ascii "-> camp (#a,\n3d6) $\n") (ascii "$ X") {}
    (Or.inr (by decide)) (Nat.zero_le _) hterm).2
  exact happend.trans (by decide +kernel)

end StoryLex
