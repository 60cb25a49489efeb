import StoryLex.Proofs.Shift

/-!
# StoryLex — what reporting can change

Whether unrecognised input is reported is an option of the lexer. This module
says that the option touches the list of diagnostics and nothing else: two
lexers that differ in it alone, used by the same calls, hand out the same
tokens and stand at the same places with the same expectations, step by step.

The lexer that keeps silent is not compared with the other one call by call.
It *is* the other one, seen through `Lexer.hushed`, which forgets what was
unrecognised; and that view commutes with `next`, hence with `run` and with
every session.

* `Diagnostic.filter_coalesce` — joining skipped pieces leaves the regions
  that were cut off as they are, in order.
* `Lexer.next_hushed`, `Lexer.session_hushed` — the view commutes with a call,
  and with a list of calls.
* `session_reportUnrecognized` — the two runs, side by side.
-/

namespace StoryLex

namespace Diagnostic

/-- Whether a diagnostic is about a region that was cut off. -/
def isCutOff (d : Diagnostic) : Bool := d.fault = .unterminated

theorem isCutOff_eq_false_of_unrecognized {d : Diagnostic} (h : d.fault = .unrecognized) :
    d.isCutOff = false := by
  simp [isCutOff, h]

variable {d : Diagnostic} {ds : List Diagnostic}

-- ---------------------------------------------------------------------------
-- Joining and forgetting
-- ---------------------------------------------------------------------------

/-- Joining a piece to its neighbour leaves the regions that were cut off. -/
theorem filter_join (d : Diagnostic) (ds : List Diagnostic) :
    (join d ds).filter isCutOff = (d :: ds).filter isCutOff := by
  cases ds with
  | nil => rfl
  | cons e es =>
    rw [join]
    split
    · next hc =>
      -- the two that became one were both skipped input
      have hd := isCutOff_eq_false_of_unrecognized hc.1
      have he := isCutOff_eq_false_of_unrecognized hc.2.1
      have hjoined : isCutOff { d with span := ⟨d.span.start, e.span.stop⟩ } = false := hd
      simp [hd, he, hjoined]
    · rfl

/-- Joining skipped pieces leaves the regions that were cut off as they are. -/
theorem filter_coalesce (ds : List Diagnostic) :
    (coalesce ds).filter isCutOff = ds.filter isCutOff := by
  induction ds with
  | nil => rfl
  | cons d ds ih =>
    show (join d (coalesce ds)).filter isCutOff = _
    rw [filter_join, List.filter_cons, List.filter_cons, ih]

/-- A region that was cut off is joined to nothing. -/
theorem join_of_isCutOff (h : d.isCutOff = true) (ds : List Diagnostic) :
    join d ds = d :: ds := by
  cases ds with
  | nil => rfl
  | cons e es =>
    refine if_neg ?_
    intro hc
    rw [isCutOff_eq_false_of_unrecognized hc.1] at h
    simp at h

/-- Where only regions were cut off, there is nothing to join. -/
theorem coalesce_of_isCutOff (h : ∀ d ∈ ds, d.isCutOff = true) : coalesce ds = ds := by
  induction ds with
  | nil => rfl
  | cons d ds ih =>
    rw [List.forall_mem_cons] at h
    show join d (coalesce ds) = _
    rw [ih h.2, join_of_isCutOff h.1]

end Diagnostic

namespace LexOptions

/-- The same options, with unrecognised input kept silent about. -/
def hushed (options : LexOptions) : LexOptions := { options with reportUnrecognized := false }

/-- Of what is reported, the regions that were cut off are those met. -/
theorem filter_report (options : LexOptions) (faults : List Diagnostic) :
    (options.report faults).filter Diagnostic.isCutOff = faults.filter Diagnostic.isCutOff := by
  rw [report, Diagnostic.filter_coalesce, List.filter_filter]
  apply List.filter_congr
  intro d _
  by_cases hd : d.fault = .unterminated
  · simp [Diagnostic.isCutOff, hd]
  · simp [Diagnostic.isCutOff, hd]

/-- With unrecognised input kept silent about, the regions that were cut off are
reported. -/
theorem report_hushed (options : LexOptions) (faults : List Diagnostic) :
    options.hushed.report faults = (options.report faults).filter Diagnostic.isCutOff := by
  have hkept : (faults.filter fun d =>
      options.hushed.reportUnrecognized || decide (d.fault = .unterminated)) =
        faults.filter Diagnostic.isCutOff := rfl
  rw [filter_report, report, hkept]
  -- only regions that were cut off are left
  apply Diagnostic.coalesce_of_isCutOff
  intro d hd
  exact (List.mem_filter.mp hd).2

end LexOptions

namespace Lexer

-- ---------------------------------------------------------------------------
-- Sessions
-- ---------------------------------------------------------------------------

/-- What a list of calls hands out, one reply after the other, each with the
lexer it leaves. -/
def session (l : Lexer) : List Call → List (Reply × Lexer)
  | [] => []
  | k :: calls => l.call k :: (l.call k).2.session calls

/-- The same lexer, as if it had kept silent about unrecognised input. -/
def hushed (l : Lexer) : Lexer :=
  { l with
    options := l.options.hushed
    diagnostics := l.diagnostics.filter Diagnostic.isCutOff }

/-- One call of `next`: no rule asks whether unrecognised input is reported. -/
theorem next_hushed (l : Lexer) : l.hushed.next = (l.next.1, l.next.2.hushed) := by
  have hreport := l.options.report_hushed
    (scanToken l.options.legacyIdentifiers l.expectation l.cursor).faults
  simp only [next, hushed, List.filter_append]
  rw [← hreport]
  rfl

/-- A run commutes with the view. -/
theorem run_hushed (l : Lexer) : l.hushed.run = (l.run.1, l.run.2.hushed) := by
  have hnext : ∀ l : Lexer, l.hushed.next = (l.next.1.map id, l.next.2.hushed) := by
    intro l
    rw [Option.map_id]
    exact l.next_hushed
  have hrun := run_map (f := hushed) (g := id) hnext (fun _ => rfl) l
  rwa [List.map_id] at hrun

/-- A call commutes with the view. -/
theorem call_hushed (l : Lexer) (k : Call) :
    l.hushed.call k = ((l.call k).1, (l.call k).2.hushed) := by
  cases k with
  | next =>
    simp only [call]
    rw [l.next_hushed]
  | run =>
    simp only [call]
    rw [l.run_hushed]

/-- A list of calls commutes with the view, reply by reply. -/
theorem session_hushed (l : Lexer) (calls : List Call) :
    l.hushed.session calls = (l.session calls).map (Prod.map id hushed) := by
  induction calls generalizing l with
  | nil => rfl
  | cons k calls ih =>
    simp only [session, List.map_cons, call_hushed, ih]
    rfl

end Lexer

/-- A script that is read without reports has the same tokens, and of its
diagnostics those that are no reports. -/
theorem lex_hushed (source : Bytes) (options : LexOptions) :
    lex source options.hushed =
      ((lex source options).1, (lex source options).2.filter Diagnostic.isCutOff) := by
  have hrun := (Lexer.start source options).run_hushed
  show ((Lexer.start source options).hushed.run.1,
    (Lexer.start source options).hushed.run.2.diagnostics) = _
  rw [hrun]
  rfl

/--
**Reporting never influences reading.** Use two lexers over the same source by
the same calls, one of which reports unrecognised input and one of which does
not. After every call they have handed out the same, stand at the same place
and expect the same; and what the silent one has reported is what the other
one has, less the unrecognised input.
-/
theorem session_reportUnrecognized (source : Bytes) (startOffset : Nat) (legacy : Bool)
    (calls : List Lexer.Call) :
    List.Forall₂
      (fun telling silent : Lexer.Reply × Lexer =>
        silent.1 = telling.1 ∧
        silent.2.position = telling.2.position ∧
        silent.2.expectation = telling.2.expectation ∧
        silent.2.diagnostics = telling.2.diagnostics.filter fun d => d.fault = .unterminated)
      ((Lexer.start source ⟨startOffset, legacy, true⟩).session calls)
      ((Lexer.start source ⟨startOffset, legacy, false⟩).session calls) := by
  have hsilent : (Lexer.start source ⟨startOffset, legacy, false⟩).session calls =
      ((Lexer.start source ⟨startOffset, legacy, true⟩).session calls).map
        (Prod.map id Lexer.hushed) :=
    Lexer.session_hushed (Lexer.start source ⟨startOffset, legacy, true⟩) calls
  -- so the two sessions are one, seen directly and through the view
  rw [hsilent, List.forall₂_map_right_iff, List.forall₂_same]
  intro telling _
  exact ⟨rfl, rfl, rfl, rfl⟩

end StoryLex
