import StoryLex.Cursor
import Mathlib.Data.List.TakeWhile

/-!
# StoryLex — places in a text

A cursor carries an offset, a byte and a rest of text that could be anything.
The cursors the lexer makes are better than that: each is a **place in** one
text (`Cursor.In`), so that its rest and the byte before it are what the text
has there. This module says that no move leaves the text, and reads spans,
lexemes and single bytes at a place off the text itself.

* `Cursor.In.advance`, `Cursor.In.skip` — moving on stays in the text.
* `Cursor.In.inLine` — cutting a place off at the end of its line gives a
  place in the text that ends there.
* `Cursor.In.lexeme_tokenTo` — a token's bytes are those of its span.
-/

namespace StoryLex

-- ---------------------------------------------------------------------------
-- Runs of a class
-- ---------------------------------------------------------------------------

theorem runLength_le (p : UInt8 → Bool) (text : Bytes) : runLength p text ≤ text.length :=
  (List.takeWhile_sublist p).length_le

theorem take_runLength (p : UInt8 → Bool) (text : Bytes) :
    text.take (runLength p text) = text.takeWhile p :=
  (List.prefix_iff_eq_take.mp (List.takeWhile_prefix p)).symm

theorem drop_runLength (p : UInt8 → Bool) (text : Bytes) :
    text.drop (runLength p text) = text.dropWhile p := by
  have h := List.takeWhile_append_dropWhile (p := p) (l := text)
  rw [← take_runLength] at h
  exact List.append_cancel_left ((List.take_append_drop _ _).trans h.symm)

/-- A run takes all it can. -/
theorem head?_dropWhile (p : UInt8 → Bool) (text : Bytes) :
    (text.dropWhile p).head?.any p = false := by
  have h := List.head?_dropWhile_not p text
  cases hd : (text.dropWhile p).head? with
  | none => rfl
  | some b =>
    rw [hd] at h
    simpa using h

/-- Every byte of a run is in its class. -/
theorem of_mem_take_runLength {p : UInt8 → Bool} {text : Bytes} {b : UInt8}
    (h : b ∈ text.take (runLength p text)) : p b = true := by
  rw [take_runLength] at h
  exact List.mem_takeWhile_imp h

/-- A run of a class without newlines stays in its line. -/
theorem newline_notMem_run {p : UInt8 → Bool} (hp : p newline = false) (text : Bytes) :
    newline ∉ text.take (runLength p text) := by
  intro h
  rw [of_mem_take_runLength h] at hp
  simp at hp

theorem takeWhile_eq_nil {p : UInt8 → Bool} {text : Bytes} (h : text.head?.any p = false) :
    text.takeWhile p = [] := by
  cases text with
  | nil => rfl
  | cons b text => exact List.takeWhile_cons_of_neg (by simpa using h)

/-- A run ends where a text begins that does not go on with it. -/
theorem takeWhile_append_of_stop {p : UInt8 → Bool} (text : Bytes) {rest : Bytes}
    (h : rest.head?.any p = false) : (text ++ rest).takeWhile p = text.takeWhile p := by
  induction text with
  -- the text ends, and what follows does not go on with it
  | nil => exact takeWhile_eq_nil h
  | cons b text ih => rw [List.cons_append, List.takeWhile_cons, List.takeWhile_cons, ih]

/-- The run of a class is that of a wider one, if no byte of the wider class
follows it. -/
theorem takeWhile_eq_of_stop {p q : UInt8 → Bool} {text : Bytes}
    (hpq : ∀ b, p b = true → q b = true)
    (h : (text.drop (runLength p text)).head?.any q = false) :
    text.takeWhile q = text.takeWhile p := by
  rw [drop_runLength] at h
  -- the narrow run is all of the wide class
  have hrun : ∀ x ∈ text.takeWhile p, q x = true := by
    intro x hx
    exact hpq x (List.mem_takeWhile_imp hx)
  calc text.takeWhile q
      = (text.takeWhile p ++ text.dropWhile p).takeWhile q := by
        rw [List.takeWhile_append_dropWhile]
    _ = text.takeWhile p ++ (text.dropWhile p).takeWhile q :=
        List.takeWhile_append_of_pos hrun
    _ = text.takeWhile p := by rw [takeWhile_eq_nil h, List.append_nil]

-- ---------------------------------------------------------------------------
-- Spans of a text
-- ---------------------------------------------------------------------------

/-- The bytes of a text that a span covers. -/
def Span.bytes (s : Span) (text : Bytes) : Bytes := (text.drop s.start).take (s.stop - s.start)

/-- Whether a span covers the byte at an offset. -/
def Span.Covers (s : Span) (i : Nat) : Prop := s.start ≤ i ∧ i < s.stop

instance (s : Span) (i : Nat) : Decidable (s.Covers i) :=
  inferInstanceAs (Decidable (_ ∧ _))

/-- A span that lies in the front part of a text covers the same bytes there. -/
theorem Span.bytes_take {s : Span} {text : Bytes} {n : Nat} (h : s.stop ≤ n) :
    s.bytes (text.take n) = s.bytes text := by
  rw [Span.bytes, Span.bytes, List.drop_take, List.take_take]
  congr 1
  omega

/-- The bytes of a span and what comes after it. -/
theorem Span.bytes_append_drop {s : Span} (text : Bytes) (h : s.start ≤ s.stop) :
    s.bytes text ++ text.drop s.stop = text.drop s.start := by
  have := List.take_append_drop (s.stop - s.start) (text.drop s.start)
  rwa [List.drop_drop, Nat.add_sub_cancel' h] at this

-- ---------------------------------------------------------------------------
-- The front part of a text
-- ---------------------------------------------------------------------------

/-- The byte of a text right before an offset. -/
def byteBefore (text : Bytes) : Nat → Option UInt8
  | 0 => none
  | n + 1 => text[n]?

section Front

variable {text : Bytes} {n k : Nat}

/-- The byte before an offset is the same in a front part that reaches it. -/
theorem byteBefore_take (h : k ≤ n) : byteBefore (text.take n) k = byteBefore text k := by
  cases k with
  | zero => rfl
  | succ k => exact List.getElem?_take_of_lt (by omega)

/-- What comes from an offset on, cut in two at a later one. -/
theorem drop_eq_drop_take_append (text : Bytes) (h : k ≤ n) :
    text.drop k = (text.take n).drop k ++ text.drop n := by
  rcases Nat.le_total n text.length with hn | hn
  · rw [← List.drop_append_of_le_length (by simp; omega), List.take_append_drop]
  · rw [List.take_of_length_le hn, List.drop_of_length_le hn, List.append_nil]

/-- What follows in the text that ends with the line goes on as the whole text
does, as far as classes without the newline can see. -/
theorem head?_drop_take (hk : k ≤ n) (hline : (text.drop n).head?.all (· == newline) = true) :
    (text.drop k).head? = ((text.take n).drop k).head? ∨
      ((text.take n).drop k).head? = none ∧ (text.drop k).head? = some newline := by
  rw [drop_eq_drop_take_append text hk]
  cases hcut : (text.take n).drop k with
  | cons x rest => exact Or.inl rfl
  -- the front part ends here, so what follows is behind its line
  | nil =>
    cases hend : (text.drop n).head? with
    | none => exact Or.inl hend
    | some x =>
      rw [hend] at hline
      obtain rfl : x = newline := by simpa using hline
      exact Or.inr ⟨rfl, hend⟩

end Front

namespace Cursor

-- ---------------------------------------------------------------------------
-- Moving on
-- ---------------------------------------------------------------------------

theorem offset_advance {c : Cursor} {n : Nat} (h : n ≤ c.rest.length) :
    (c.advance n).offset = c.offset + n := by
  simp [advance, h]

theorem offset_le_advance (c : Cursor) (n : Nat) : c.offset ≤ (c.advance n).offset :=
  Nat.le_add_right _ _

/-- Moving on by a byte gets further, unless nothing is left. -/
theorem offset_lt_advance {c : Cursor} (h : c.rest ≠ []) (n : Nat) :
    c.offset < (c.advance (n + 1)).offset := by
  have := List.length_pos_iff.mpr h
  simp only [advance, List.length_take]
  omega

/-- What fits behind the first byte leaves room for that byte too. -/
theorem succ_le_length_rest {c : Cursor} {b : UInt8} {tail : Bytes} (h : c.rest = b :: tail)
    {n : Nat} (hn : n ≤ tail.length) : n + 1 ≤ c.rest.length := by
  rw [h, List.length_cons]
  omega

theorem offset_skip (p : UInt8 → Bool) (c : Cursor) :
    (c.skip p).offset = c.offset + runLength p c.rest :=
  offset_advance (runLength_le p c.rest)

@[simp] theorem rest_skip (p : UInt8 → Bool) (c : Cursor) :
    (c.skip p).rest = c.rest.dropWhile p :=
  drop_runLength p c.rest

/-- Cut off at the end of its line, the text to come has no newline. -/
theorem newline_notMem_rest_inLine (c : Cursor) : newline ∉ c.inLine.rest := by
  rw [inLine, ← take_runLength]
  exact newline_notMem_run (by decide) c.rest

/-- A line ends with a newline or with the text. -/
theorem head?_rest_skip_inLine (c : Cursor) :
    (c.skip isInLine).rest.head?.all (· == newline) = true := by
  rw [rest_skip]
  have hhead := List.head?_dropWhile_not isInLine c.rest
  cases hd : (c.rest.dropWhile isInLine).head? with
  | none => rfl
  | some z =>
    rw [hd] at hhead
    simpa [isInLine] using hhead

-- ---------------------------------------------------------------------------
-- Places in a text
-- ---------------------------------------------------------------------------

/-- What a cursor holds is what the text has at its offset. -/
structure In (c : Cursor) (text : Bytes) : Prop where
  offset_le : c.offset ≤ text.length
  before_eq : c.before = (text.take c.offset).getLast?
  rest_eq   : c.rest = text.drop c.offset

/-- The cursor at an offset is a place in the text, however far the offset
lies. -/
theorem ofOffset_in (text : Bytes) (n : Nat) : (ofOffset text n).In text := by
  refine ⟨?_, ?_, ?_⟩
  · exact (List.take_sublist n text).length_le
  · simp [ofOffset, List.take_eq_take_min (i := n)]
  · simp only [ofOffset, List.length_take]
    -- an offset behind the end counts as the end
    rcases Nat.le_total n text.length with h | h
    · rw [Nat.min_eq_left h]
    · rw [Nat.min_eq_right h, List.drop_of_length_le h, List.drop_length]

namespace In

variable {c d : Cursor} {text : Bytes}

/-- What is passed and what is to come are the whole text. -/
theorem length_rest (h : c.In text) : c.offset + c.rest.length = text.length := by
  have := h.offset_le
  rw [h.rest_eq, List.length_drop]
  omega

/-- Moving on stays in the text. -/
theorem advance (h : c.In text) (n : Nat) : (c.advance n).In text := by
  have hlen := h.length_rest
  have hsum : c.offset + min n c.rest.length ≤ text.length := by omega
  refine ⟨?_, ?_, ?_⟩
  · simpa [Cursor.advance] using hsum
  · -- the front part grows by what was passed
    have htake : text.take (c.offset + min n c.rest.length) =
        text.take c.offset ++ c.rest.take n := by
      rw [List.take_add, ← h.rest_eq, ← List.take_eq_take_min]
    simp only [Cursor.advance, List.length_take]
    rw [htake, List.getLast?_append, ← h.before_eq]
  · simp only [Cursor.advance, List.length_take]
    rw [← List.drop_drop, ← h.rest_eq]
    rcases Nat.le_total n c.rest.length with hn | hn
    · rw [Nat.min_eq_left hn]
    · rw [Nat.min_eq_right hn, List.drop_of_length_le hn, List.drop_length]

theorem skip (h : c.In text) (p : UInt8 → Bool) : (c.skip p).In text := h.advance _

/-- Where nothing is to come, the whole text is passed. -/
theorem offset_eq_length (h : c.In text) (hrest : c.rest = []) : c.offset = text.length := by
  have := h.length_rest
  simpa [hrest] using this

theorem getElem?_rest (h : c.In text) (i : Nat) : c.rest[i]? = text[c.offset + i]? := by
  rw [h.rest_eq, List.getElem?_drop]

/-- A cursor remembers the byte that the text has before it. -/
theorem before_eq_byteBefore (h : c.In text) : c.before = byteBefore text c.offset := by
  have hle := h.offset_le
  rw [h.before_eq]
  cases hn : c.offset with
  | zero => rfl
  | succ n =>
    rw [List.getLast?_take, if_neg (by omega), byteBefore, Nat.add_sub_cancel]
    rw [List.getElem?_eq_getElem (by omega), Option.some_or]

/-- The byte at a place that is not the end. -/
theorem getElem?_offset (h : c.In text) {b : UInt8} {tail : Bytes} (hrest : c.rest = b :: tail) :
    text[c.offset]? = some b := by
  have := h.getElem?_rest 0
  rw [hrest] at this
  simpa using this.symm

/-- A place is the end unless the text has a byte there. -/
theorem rest_eq_cons (h : c.In text) {b : UInt8} (hb : text[c.offset]? = some b) :
    ∃ tail, c.rest = b :: tail := by
  have := h.getElem?_rest 0
  rw [Nat.add_zero, hb, ← List.head?_eq_getElem?] at this
  exact List.head?_eq_some_iff.mp this

/-- The bytes that a move passes. -/
theorem getElem?_of_lt_advance (h : c.In text) {n i : Nat} (hlo : c.offset ≤ i)
    (hhi : i < (c.advance n).offset) : ∃ x ∈ c.rest.take n, text[i]? = some x := by
  obtain ⟨k, rfl⟩ := Nat.exists_eq_add_of_le hlo
  -- the byte is one of those that the move passes
  have hk : k < (c.rest.take n).length := by
    simp only [Cursor.advance] at hhi
    omega
  refine ⟨(c.rest.take n)[k], List.getElem_mem hk, ?_⟩
  rw [← h.getElem?_rest, List.getElem_take]
  rw [List.length_take] at hk
  exact List.getElem?_eq_getElem (by omega)

/-- A token's bytes are those of its span. -/
theorem lexeme_tokenTo (h : c.In text) (kind : Kind) :
    (c.tokenTo d kind).lexeme = (c.spanTo d).bytes text := by
  rw [tokenTo, Span.bytes, h.rest_eq]
  rfl

/-- Cut off at the end of its line, a place is one in the text that ends there. -/
theorem inLine (h : c.In text) : c.inLine.In (text.take (c.skip isInLine).offset) := by
  have hlen := h.length_rest
  have hrun := runLength_le isInLine c.rest
  rw [offset_skip]
  refine ⟨?_, ?_, ?_⟩
  · simp only [Cursor.inLine, List.length_take]
    omega
  · simp only [Cursor.inLine, List.take_take]
    rw [Nat.min_eq_left (Nat.le_add_right _ _)]
    exact h.before_eq
  · simp only [Cursor.inLine]
    -- what is left of the line is its run of bytes that are no newline
    rw [List.drop_take, ← h.rest_eq, Nat.add_sub_cancel_left, take_runLength]

/-- Behind a line comes a newline or nothing. -/
theorem lineEnd (h : c.In text) :
    (text.drop (c.skip isInLine).offset).head?.all (· == newline) = true := by
  rw [← (h.skip isInLine).rest_eq]
  exact c.head?_rest_skip_inLine

end In

end Cursor

end StoryLex
