import StoryLex.Token.Basic

/-!
# StoryLex — diagnostics

Scanning never fails. What it skipped, and the regions it had to cut off, are
told in diagnostics beside the token stream. Skipped pieces that touch are
told as one (`Diagnostic.coalesce`).
-/

namespace StoryLex

/-- What a diagnostic is about. -/
inductive Fault where
  /-- Input that no rule matches, skipped. -/
  | unrecognized
  /-- A region without its closing mark. -/
  | unterminated
deriving DecidableEq, Repr

/-- The stable name of a fault. -/
def Fault.name : Fault → String
  | unrecognized => "unrecognized"
  | unterminated => "unterminated"

/-- A fault, where it lies and how it is put in words. -/
structure Diagnostic where
  /-- What the diagnostic is about. -/
  fault : Fault
  /-- The bytes concerned. -/
  span : Span
  /-- The wording. -/
  message : Bytes
deriving DecidableEq, Repr

namespace Diagnostic

/-- Skipped input. -/
def unrecognized (span : Span) : Diagnostic where
  fault := .unrecognized
  span := span
  message := ascii "unrecognized input"

/-- A region of the given kind that was cut off. Only templates and argument
lists can be: the other regions end with their line. -/
def unterminated (kind : Kind) (span : Span) : Diagnostic where
  fault := .unterminated
  span := span
  message :=
    if kind = .template then ascii "unterminated template, expected '\x7d\x7d'"
    else ascii "unterminated scene argument list, expected ')'"

/-- Whether `e`, which comes right after `d`, goes on with the same skipped run. -/
def Continues (d e : Diagnostic) : Prop :=
  d.fault = .unrecognized ∧ e.fault = .unrecognized ∧ d.span.stop = e.span.start

instance (d e : Diagnostic) : Decidable (Continues d e) :=
  inferInstanceAs (Decidable (_ ∧ _ ∧ _))

/-- Puts a diagnostic in front of others, as one with the first of them where
that goes on with the same skipped run. -/
def join (d : Diagnostic) : List Diagnostic → List Diagnostic
  | [] => [d]
  | e :: es =>
    if Continues d e then { d with span := ⟨d.span.start, e.span.stop⟩ } :: es else d :: e :: es

/-- What is put in front may reach further than it did, but starts where it did. -/
theorem join_eq_cons (d : Diagnostic) (ds : List Diagnostic) :
    ∃ stop rest, join d ds = { d with span := ⟨d.span.start, stop⟩ } :: rest := by
  cases ds with
  | nil => exact ⟨d.span.stop, [], rfl⟩
  | cons e es =>
    rw [join]
    split
    · exact ⟨e.span.stop, es, rfl⟩
    · exact ⟨d.span.stop, e :: es, rfl⟩

/-- Makes every run of touching skipped pieces one diagnostic. -/
def coalesce (ds : List Diagnostic) : List Diagnostic := ds.foldr join []

/-- Making runs one loses no diagnostic and invents none. -/
theorem coalesce_eq_nil_iff {ds : List Diagnostic} : coalesce ds = [] ↔ ds = [] := by
  cases ds with
  | nil => simp [coalesce]
  | cons d ds =>
    -- what is put in front of others stays in front
    obtain ⟨stop, rest, hjoin⟩ := join_eq_cons d (coalesce ds)
    have hne : coalesce (d :: ds) ≠ [] := by
      rw [show coalesce (d :: ds) = join d (coalesce ds) from rfl, hjoin]
      simp
    simp [hne]

end Diagnostic

end StoryLex
