import StoryLex.Proofs.Expectations

/-!
# StoryLex — skipped input, piece by piece

What no rule matches is skipped a **piece** at a time: the rest of a word, or
one character. Pieces that touch are told as one diagnostic, which hides where
they meet; but a piece ends where the text says it does (`pieceEnd`), so a
diagnostic can be cut into its pieces again. `Pieced` says that this comes out
even, and that each piece starts at an offset with a given property.

* `Cursor.In.pieceEnd_eq` — what is skipped at a place is a piece.
* `Pieced.trans` — two spans that touch are cut as one.
* `ToldInPieces.report` — so diagnostics are cut as the faults they report.
-/

namespace StoryLex

/-- Where the piece that starts at `p` ends: behind the word, or behind the
bytes that go on with the character. -/
def pieceEnd (text : Bytes) (p : Nat) : Nat :=
  if (text[p]?).any isWord then runEnd isWord text p else runEnd isContinuation text (p + 1)

/-- From `lo` on, the text is cut into one or more pieces, of which the last
ends at `hi` and each starts where `P` holds. -/
inductive Pieced (text : Bytes) (P : Nat → Prop) : Nat → Nat → Prop where
  | last {p : Nat} (here : P p) : Pieced text P p (pieceEnd text p)
  | more {p hi : Nat} (here : P p) (rest : Pieced text P (pieceEnd text p) hi) :
      Pieced text P p hi

variable {text : Bytes} {P Q : Nat → Prop} {lo mid hi n p : Nat}

-- ---------------------------------------------------------------------------
-- Pieces of a text
-- ---------------------------------------------------------------------------

/-- What is skipped at a place is the piece that starts there. -/
theorem Cursor.In.pieceEnd_eq {c : Cursor} {b : UInt8} {tail : Bytes} (hc : c.In text)
    (hrest : c.rest = b :: tail) :
    pieceEnd text c.offset = (c.advance (Rule.junk b tail + 1)).offset := by
  have hfits := Cursor.succ_le_length_rest hrest (Rule.junk_le b tail)
  rw [Cursor.offset_advance hfits, pieceEnd, hc.getElem?_offset hrest, Option.any_some, Rule.junk]
  split
  · next hb =>
    -- the rest of a word
    rw [runEnd, ← hc.rest_eq, hrest, runLength, List.takeWhile_cons_of_pos hb]
    rfl
  · next hb =>
    -- one character, with the bytes that go on with it
    have hdrop : text.drop (c.offset + 1) = tail := by
      rw [← List.drop_drop, ← hc.rest_eq, hrest]
      rfl
    rw [runEnd, hdrop]
    omega

/-- A run ends at the same offset in a text that is cut off where the class
ends. -/
theorem runEnd_take {q : UInt8 → Bool} {k : Nat} (hk : k ≤ n)
    (hstop : (text.drop n).head?.any q = false) :
    runEnd q (text.take n) k = runEnd q text k := by
  rw [runEnd, runEnd, drop_eq_drop_take_append text hk, runLength, runLength,
    takeWhile_append_of_stop _ hstop]

/-- A newline goes on with no word and no character. -/
theorem head?_any_of_line {rest : Bytes} {q : UInt8 → Bool} (hq : q newline = false)
    (hline : rest.head?.all (· == newline) = true) : rest.head?.any q = false := by
  cases hd : rest.head? with
  | none => rfl
  | some x =>
    rw [hd] at hline
    obtain rfl : x = newline := by simpa using hline
    exact hq

/-- A piece of a line is one of the whole text. -/
theorem pieceEnd_take (hp : p < n) (hline : (text.drop n).head?.all (· == newline) = true) :
    pieceEnd (text.take n) p = pieceEnd text p := by
  rw [pieceEnd, pieceEnd, List.getElem?_take_of_lt hp,
    runEnd_take (Nat.le_of_lt hp) (head?_any_of_line (by decide) hline),
    runEnd_take hp (head?_any_of_line (by decide) hline)]

namespace Pieced

theorem mono (h : Pieced text P lo hi) (hPQ : ∀ p, P p → Q p) : Pieced text Q lo hi := by
  induction h with
  | last here => exact .last (hPQ _ here)
  | more here rest ih => exact .more (hPQ _ here) ih

/-- Two stretches that touch are cut into pieces as one. -/
theorem trans (h : Pieced text P lo mid) (h' : Pieced text P mid hi) : Pieced text P lo hi := by
  induction h with
  | last here => exact .more here h'
  | more here rest ih => exact .more here (ih h')

/-- A stretch of a line is cut into the same pieces in the whole text. -/
theorem of_take (h : Pieced (text.take n) P lo hi) (hP : ∀ p, P p → p < n)
    (hline : (text.drop n).head?.all (· == newline) = true) : Pieced text P lo hi := by
  induction h with
  | @last p here =>
    rw [pieceEnd_take (hP p here) hline]
    exact .last here
  | @more p hi here rest ih =>
    rw [pieceEnd_take (hP p here) hline] at ih
    exact .more here ih

end Pieced

-- ---------------------------------------------------------------------------
-- Diagnostics
-- ---------------------------------------------------------------------------

/-- The skipped input that is told falls into pieces that start where `P` holds. -/
def ToldInPieces (text : Bytes) (P : Nat → Prop) (ds : List Diagnostic) : Prop :=
  ∀ d ∈ ds, d.fault = .unrecognized → Pieced text P d.span.start d.span.stop

namespace ToldInPieces

variable {ds es : List Diagnostic} {d : Diagnostic}

theorem nil : ToldInPieces text P [] := by
  intro d hd
  simp at hd

theorem mono (h : ToldInPieces text P ds) (hPQ : ∀ p, P p → Q p) : ToldInPieces text Q ds :=
  fun d hd hfault => (h d hd hfault).mono hPQ

theorem append (h : ToldInPieces text P ds) (h' : ToldInPieces text P es) :
    ToldInPieces text P (ds ++ es) := by
  intro d hd
  rcases List.mem_append.mp hd with hd | hd
  · exact h d hd
  · exact h' d hd

/-- Two pieces that touch are told as one, and cut at the same offset again. -/
theorem join (hd : d.fault = .unrecognized → Pieced text P d.span.start d.span.stop)
    (h : ToldInPieces text P ds) : ToldInPieces text P (Diagnostic.join d ds) := by
  cases ds with
  | nil => exact List.forall_mem_singleton.mpr hd
  | cons e es =>
    obtain ⟨he, hes⟩ := List.forall_mem_cons.mp h
    by_cases hc : Diagnostic.Continues d e
    · -- where the two touch, the one ends and the other starts, so the cut is there
      rw [Diagnostic.join, if_pos hc]
      obtain ⟨hdf, hef, htouch⟩ := hc
      have hleft := hd hdf
      rw [htouch] at hleft
      exact List.forall_mem_cons.mpr ⟨fun _ => hleft.trans (he hef), hes⟩
    · rw [Diagnostic.join, if_neg hc]
      exact List.forall_mem_cons.mpr ⟨hd, h⟩

/-- Joining neighbours leaves diagnostics that fall into pieces. -/
theorem coalesce (h : ToldInPieces text P ds) : ToldInPieces text P (Diagnostic.coalesce ds) := by
  induction ds with
  | nil => exact nil
  | cons d ds ih =>
    obtain ⟨hd, hds⟩ := List.forall_mem_cons.mp h
    exact join hd (ih hds)

/-- What is reported falls into pieces if what was met does. -/
theorem report (h : ToldInPieces text P ds) (options : LexOptions) :
    ToldInPieces text P (options.report ds) :=
  coalesce fun d hd => h d (List.mem_filter.mp hd).1

end ToldInPieces

end StoryLex
