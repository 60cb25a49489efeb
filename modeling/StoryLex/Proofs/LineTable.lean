import Mathlib.Data.FinEnum
import Mathlib.Data.Prod.Lex
import StoryLex.LineIndex
import StoryLex.Proofs.Places

/-!
# StoryLex — the table of lines

The index of a text answers from a table of line starts. This module says that
the answers are those one reads off the text itself, cut at its newlines
(`lineIndex_split`), and that locations tell offsets apart just as far as
characters go (`locate_order`).

**The table.** It is built in one pass over the text. A line cuts it in two:
the starts up to that of the line, and those below (`Around.starts`). So what is
searched for is the last entry of the first part, and the table is never left.

**Around a line.** All else is read off a text that is taken apart around one
line (`Around`): where an offset in the line lies (`Around.locate`), and what
the text of the line is (`Around.lineText`). Every offset has such a line
(`around_offset`), and so has every number of a line (`around_line`).

**Steps.** From one offset to a later one the line goes up if there is a newline
between them (`locate_line_lt`); else the column goes up by the characters
between them (`locate_add`).
-/

namespace StoryLex

-- ---------------------------------------------------------------------------
-- Characters and lines
-- ---------------------------------------------------------------------------

/-- How many characters a text has: the bytes that begin one, all but those
from 0x80 to 0xBF. -/
def characters (text : Bytes) : Nat := text.countP fun b => b < 0x80 || 0xBF < b

/-- The line around a place, without the newline at its end. -/
def lineAround (text : Bytes) (offset : Nat) : Span where
  start := offset - runLength isInLine (text.take offset).reverse
  stop := offset + runLength isInLine (text.drop offset)

/-- A line without the carriage return at its end, if there is one. -/
def withoutReturn (line : Bytes) : Bytes :=
  if line.getLast? = some carriageReturn then line.dropLast else line

theorem withoutReturn_sublist (line : Bytes) : (withoutReturn line).Sublist line := by
  unfold withoutReturn
  split
  · exact List.dropLast_sublist line
  · exact List.Sublist.refl line

theorem not_isContinuation : ∀ b : UInt8, (!isContinuation b) = (b < 0x80 || 0xBF < b) := by
  decide +kernel

theorem countP_not_isContinuation (text : Bytes) :
    text.countP (!isContinuation ·) = characters text :=
  List.countP_congr fun b _ => by rw [not_isContinuation]

@[simp] theorem characters_append (text more : Bytes) :
    characters (text ++ more) = characters text + characters more :=
  List.countP_append

/-- No characters are begun by bytes that all go on with one. -/
theorem characters_eq_zero_iff {text : Bytes} :
    characters text = 0 ↔ ∀ b ∈ text, 0x80 ≤ b ∧ b ≤ 0xBF := by
  simp [characters, List.countP_eq_zero]

theorem newline_notMem_takeWhile (text : Bytes) : newline ∉ text.takeWhile isInLine := by
  rw [← take_runLength]
  exact newline_notMem_run (by decide) text

/-- Behind the first line there is a newline or nothing. -/
theorem head?_dropWhile_isInLine (text : Bytes) :
    (text.dropWhile isInLine).head?.all (· == newline) = true := by
  have hhead := List.head?_dropWhile_not isInLine text
  cases hd : (text.dropWhile isInLine).head? with
  | none => rfl
  | some b =>
    rw [hd] at hhead
    simpa [isInLine] using hhead

theorem take_append_bytes (text : Bytes) {o p : Nat} (h : o ≤ p) :
    text.take o ++ Span.bytes ⟨o, p⟩ text = text.take p := by
  rw [Span.bytes, ← List.take_add, Nat.add_sub_cancel' h]

/-- A span without newlines that starts in a line ends in it. -/
theorem Span.stop_le_of_lineEnd {s : Span} {text : Bytes} {n : Nat} (hline : newline ∉ s.bytes text)
    (hstart : s.start ≤ n) (hstop : s.stop ≤ text.length)
    (hend : (text.drop n).head?.all (· == newline) = true) : s.stop ≤ n := by
  by_contra hlt
  have hn : n < text.length := by omega
  rw [List.head?_drop, List.getElem?_eq_getElem hn, Option.all_some, beq_iff_eq] at hend
  refine hline (List.mem_of_getElem? (i := n - s.start) ?_)
  rw [Span.bytes, List.getElem?_take_of_lt (by omega), List.getElem?_drop,
    Nat.add_sub_cancel' hstart, List.getElem?_eq_getElem hn, hend]

-- ---------------------------------------------------------------------------
-- A text around a line
-- ---------------------------------------------------------------------------

/-- Whole lines: none at all, or a text that ends with a newline. -/
def IsLines (text : Bytes) : Prop := text.getLast?.all (· == newline) = true

/-- A text around one of its lines: whole lines `above`, the `line`, and what is
`below`, from the newline of the line on. -/
structure Around (text above line below : Bytes) : Prop where
  text_eq : text = above ++ (line ++ below)
  above   : IsLines above
  line    : newline ∉ line
  below   : below.head?.all (· == newline) = true

variable {text above line below : Bytes} {n o p k s : Nat} {b : UInt8}

theorem IsLines.eq_nil_or_append (h : IsLines above) :
    above = [] ∨ ∃ front, above = front ++ [newline] := by
  rcases List.eq_nil_or_concat' above with rfl | ⟨front, b, rfl⟩
  · exact Or.inl rfl
  · rw [IsLines, List.getLast?_concat, Option.all_some, beq_iff_eq] at h
    exact Or.inr ⟨front, by rw [h]⟩

/-- A byte in front of whole lines leaves whole lines, and so does a newline by
itself. -/
theorem IsLines.cons (h : IsLines above) (hb : above ≠ [] ∨ b = newline) :
    IsLines (b :: above) := by
  rcases h.eq_nil_or_append with rfl | ⟨front, rfl⟩
  · simp [IsLines, hb.resolve_left (by simp)]
  · rw [IsLines, ← List.cons_append, List.getLast?_concat]
    rfl

/-- What stands below whole lines is one more line and the rest. -/
theorem around_append (h : IsLines above) (rest : Bytes) :
    Around (above ++ rest) above (rest.takeWhile isInLine) (rest.dropWhile isInLine) where
  text_eq := by rw [List.takeWhile_append_dropWhile]
  above := h
  line := newline_notMem_takeWhile rest
  below := head?_dropWhile_isInLine rest

/-- As many lines as the text has newlines can be above a line. -/
theorem around_line (hk : k ≤ text.count newline) :
    ∃ above line below, Around text above line below ∧ above.count newline = k := by
  suffices h : ∃ above rest, text = above ++ rest ∧ IsLines above ∧ above.count newline = k by
    obtain ⟨above, rest, rfl, habove, hcount⟩ := h
    exact ⟨_, _, _, around_append habove rest, hcount⟩
  induction text generalizing k with
  | nil => exact ⟨[], [], rfl, rfl, (Nat.le_zero.mp hk).symm⟩
  | cons b text ih =>
    rcases k with _ | k
    · exact ⟨[], _, rfl, rfl, rfl⟩
    -- a newline ends the first line, so one fewer is to be found in the rest
    by_cases hb : b = newline
    · rw [hb, List.count_cons_self] at hk
      obtain ⟨above, rest, rfl, habove, hcount⟩ := ih (Nat.le_of_succ_le_succ hk)
      exact ⟨b :: above, rest, rfl, habove.cons (Or.inr hb), by
        rw [hb, List.count_cons_self, hcount]⟩
    · rw [List.count_cons_of_ne hb] at hk
      obtain ⟨above, rest, rfl, habove, hcount⟩ := ih hk
      -- there is a line above, so the byte goes in front of it
      have hne : above ≠ [] := by
        rintro rfl
        simp at hcount
      exact ⟨b :: above, rest, rfl, habove.cons (Or.inl hne), by
        rw [List.count_cons_of_ne hb, hcount]⟩

/-- Every offset lies in a line, which is the one that `lineAround` finds. -/
theorem around_offset (ho : o ≤ text.length) :
    ∃ above line below, Around text above line below ∧
      lineAround text o = ⟨above.length, above.length + line.length⟩ ∧
      above.length ≤ o ∧ o ≤ above.length + line.length := by
  -- the lines above, the front of the line, and its back
  set above := ((text.take o).reverse.dropWhile isInLine).reverse with habove
  set left := ((text.take o).reverse.takeWhile isInLine).reverse with hleft
  set right := (text.drop o).takeWhile isInLine with hright
  have hfront : above ++ left = text.take o := by
    rw [habove, hleft, ← List.reverse_append, List.takeWhile_append_dropWhile,
      List.reverse_reverse]
  have hlen : above.length + left.length = o := by
    rw [← List.length_append, hfront, List.length_take, Nat.min_eq_left ho]
  have hrun : runLength isInLine (text.take o).reverse = left.length := by
    rw [hleft, List.length_reverse, runLength]
  have hline : (left ++ right).length = left.length + right.length := List.length_append
  refine ⟨above, left ++ right, (text.drop o).dropWhile isInLine, ⟨?_, ?_, ?_, ?_⟩, ?_, ?_, ?_⟩
  · rw [List.append_assoc, ← List.append_assoc above, hfront, List.takeWhile_append_dropWhile,
      List.take_append_drop]
  · rw [IsLines, habove, List.getLast?_reverse]
    exact head?_dropWhile_isInLine _
  · rw [List.mem_append, not_or, hleft, List.mem_reverse]
    exact ⟨newline_notMem_takeWhile _, newline_notMem_takeWhile _⟩
  · exact head?_dropWhile_isInLine _
  · rw [lineAround, hrun, hline, runLength, ← hright, Span.mk.injEq]
    omega
  · omega
  · omega

-- ---------------------------------------------------------------------------
-- The table
-- ---------------------------------------------------------------------------

namespace LineIndex

/-- The table of a text is built piece by piece. -/
theorem startsFrom_append (n : Nat) (text more : Bytes) :
    startsFrom n (text ++ more) = startsFrom n text ++ startsFrom (n + text.length) more := by
  induction text generalizing n with
  | nil => rfl
  | cons b text ih =>
    rw [List.cons_append, startsFrom, startsFrom, ih, List.length_cons,
      show n + 1 + text.length = n + (text.length + 1) by omega]
    split <;> rfl

theorem startsFrom_eq_nil (h : newline ∉ text) (n : Nat) : startsFrom n text = [] := by
  induction text generalizing n with
  | nil => rfl
  | cons b text ih =>
    rw [List.mem_cons, not_or] at h
    rw [startsFrom, if_neg (by simpa using Ne.symm h.1), ih h.2]

/-- Behind every newline a line starts. -/
theorem length_startsFrom (n : Nat) (text : Bytes) :
    (startsFrom n text).length = text.count newline := by
  induction text generalizing n with
  | nil => rfl
  | cons b text ih =>
    rw [startsFrom, List.count_cons]
    split
    · rw [List.length_cons, ih]
    · rw [ih]
      rfl

/-- The starts behind newlines lie behind the first byte, and in the text. -/
theorem startsFrom_bounds (h : s ∈ startsFrom n text) : n < s ∧ s ≤ n + text.length := by
  induction text generalizing n with
  | nil => simp [startsFrom] at h
  | cons b text ih =>
    rw [startsFrom] at h
    rw [List.length_cons]
    split at h
    · rcases List.mem_cons.mp h with rfl | h
      · omega
      · have := ih h
        omega
    · have := ih h
      omega

/-- Line starts come in the order of the text. -/
theorem startsFrom_increasing (n : Nat) (text : Bytes) :
    (n :: startsFrom n text).Pairwise (· < ·) := by
  refine .cons (fun s hs => (startsFrom_bounds hs).1) ?_
  induction text generalizing n with
  | nil => exact .nil
  | cons b text ih =>
    rw [startsFrom]
    split
    · exact .cons (fun s hs => (startsFrom_bounds hs).1) (ih (n + 1))
    · exact ih (n + 1)

/-- Behind whole lines the next line starts. -/
theorem getElem?_startsFrom (h : IsLines above) :
    (0 :: startsFrom 0 above)[above.count newline]? = some above.length := by
  rcases h.eq_nil_or_append with rfl | ⟨front, rfl⟩
  · rfl
  · -- the last newline is where the next line starts
    rw [startsFrom_append, ← List.cons_append, List.count_append, List.getElem?_append_right]
    · simp [length_startsFrom, startsFrom]
    · simp [length_startsFrom]

end LineIndex

/-- A text has one piece more than newlines. -/
theorem length_splitOn (text : Bytes) : (text.splitOn newline).length = 1 + text.count newline := by
  induction text with
  | nil => rfl
  | cons b text ih =>
    rw [List.splitOn_cons_eq_if_modifyHead, List.count_cons]
    split
    · rw [List.length_cons, ih]
      rfl
    · rw [List.length_modifyHead, ih]
      rfl

-- ---------------------------------------------------------------------------
-- Answers around a line
-- ---------------------------------------------------------------------------

namespace Around

open LineIndex

/-- The table up to the start of a line, and below it. -/
theorem starts (h : Around text above line below) :
    (ofText text).starts =
      (0 :: startsFrom 0 above) ++ startsFrom (above.length + line.length) below := by
  show 0 :: startsFrom 0 text = _
  rw [h.text_eq, startsFrom_append, startsFrom_append, startsFrom_eq_nil h.line, Nat.zero_add]
  rfl

theorem length_text (h : Around text above line below) :
    text.length = above.length + (line.length + below.length) := by
  rw [h.text_eq, List.length_append, List.length_append]

/-- The text up to an offset in the line is what is above and the front of the
line. -/
theorem take (h : Around text above line below) (hlo : above.length ≤ o)
    (hhi : o ≤ above.length + line.length) :
    text.take o = above ++ line.take (o - above.length) := by
  rw [h.text_eq, List.take_append, List.take_of_length_le hlo,
    List.take_append_of_le_length (by omega)]

/-- An offset in the line has as many newlines in front of it as there are lines
above. -/
theorem count_take (h : Around text above line below) (hlo : above.length ≤ o)
    (hhi : o ≤ above.length + line.length) :
    (text.take o).count newline = above.count newline := by
  have hline : newline ∉ line.take (o - above.length) :=
    fun hmem => h.line (List.mem_of_mem_take hmem)
  rw [h.take hlo hhi, List.count_append, List.count_eq_zero.mpr hline, Nat.add_zero]

/-- Of the table, the lines up to that of an offset start at or in front of it,
and those below it behind it. -/
theorem cut (below : Bytes) (hlo : above.length ≤ o) (hhi : o ≤ above.length + line.length) :
    (∀ s ∈ 0 :: startsFrom 0 above, s ≤ o) ∧
      ∀ s ∈ startsFrom (above.length + line.length) below, o < s := by
  refine ⟨?_, fun s hs => hhi.trans_lt (startsFrom_bounds hs).1⟩
  intro s hs
  rcases List.mem_cons.mp hs with rfl | hs
  · exact Nat.zero_le o
  · have := (startsFrom_bounds hs).2
    omega

/-- The starts not behind an offset in the line are those up to the line's
own. -/
theorem takeWhile_starts (h : Around text above line below) (hlo : above.length ≤ o)
    (hhi : o ≤ above.length + line.length) :
    (ofText text).starts.takeWhile (· ≤ o) = 0 :: startsFrom 0 above := by
  obtain ⟨hup, hbelow⟩ := cut below hlo hhi
  rw [h.starts, List.takeWhile_append_of_pos (fun s hs => decide_eq_true (hup s hs))]
  cases hrest : startsFrom (above.length + line.length) below with
  | nil => simp
  | cons s rest =>
    rw [hrest] at hbelow
    have hs := hbelow s (List.mem_cons_self ..)
    rw [List.takeWhile_cons_of_neg (by simpa using hs), List.append_nil]

/-- The entry of the table for a line. -/
theorem getElem?_starts (h : Around text above line below) :
    (ofText text).starts[above.count newline]? = some above.length := by
  rw [h.starts, List.getElem?_append_left (by simp [length_startsFrom])]
  exact getElem?_startsFrom h.above

/-- Where an offset in a line lies. -/
theorem locate (h : Around text above line below) (hlo : above.length ≤ o)
    (hhi : o ≤ above.length + line.length) :
    (ofText text).locate o =
      ⟨1 + above.count newline, 1 + characters (line.take (o - above.length))⟩ := by
  have hlen := h.length_text
  have hclamp : min o (ofText text).text.length = o := Nat.min_eq_left (by
    show o ≤ text.length
    omega)
  have hline : ((ofText text).starts.takeWhile (· ≤ o)).length = 1 + above.count newline := by
    rw [h.takeWhile_starts hlo hhi, List.length_cons, length_startsFrom, Nat.add_comm]
  have hbefore : ((ofText text).text.take o).drop above.length = line.take (o - above.length) := by
    show (text.take o).drop above.length = _
    rw [h.take hlo hhi, List.drop_left]
  simp only [LineIndex.locate, hclamp, hline, Nat.add_sub_cancel_left,
    List.getD_eq_getElem?_getD, h.getElem?_starts, Option.getD_some, hbefore,
    countP_not_isContinuation]

/-- The text of a line. -/
theorem lineText (h : Around text above line below) :
    (ofText text).lineText (1 + above.count newline) = withoutReturn line := by
  -- the line ends in front of the next start, or with the text
  have hstop : ((ofText text).starts[1 + above.count newline]?).elim (ofText text).text.length
      (· - 1) = above.length + line.length := by
    rw [h.starts, Nat.add_comm 1, List.getElem?_append_right (by simp [length_startsFrom]),
      List.length_cons, length_startsFrom, Nat.sub_self]
    -- it is the last line, or a newline follows it
    cases hbelow : below with
    | nil =>
      have hlen := h.length_text
      rw [hbelow] at hlen
      exact hlen
    | cons b rest =>
      have hb := h.below
      rw [hbelow, List.head?_cons, Option.all_some] at hb
      rw [startsFrom, if_pos hb]
      rfl
  have hline : ((ofText text).text.take (above.length + line.length)).drop above.length = line := by
    show (text.take _).drop _ = _
    rw [h.take (Nat.le_add_right _ _) le_rfl, List.drop_left, Nat.add_sub_cancel_left,
      List.take_length]
  rw [LineIndex.lineText, if_neg (by omega), Nat.add_sub_cancel_left, h.getElem?_starts]
  simp only [hstop, hline, withoutReturn]

/-- Cut at its newlines, the text has the line in its place. -/
theorem getElem?_splitOn (h : Around text above line below) :
    (text.splitOn newline)[above.count newline]? = some line := by
  have hhead : ((line ++ below).splitOn newline)[0]? = some line := by
    cases hbelow : below with
    | nil => rw [List.append_nil, List.splitOn_eq_singleton h.line, List.getElem?_cons_zero]
    | cons b rest =>
      have hb := h.below
      rw [hbelow, List.head?_cons, Option.all_some] at hb
      rw [List.splitOn_append_cons_of_beq _ _ hb, List.splitOn_eq_singleton h.line]
      rfl
  rw [h.text_eq]
  -- the pieces in front of the line's are those of the lines above
  rcases h.above.eq_nil_or_append with rfl | ⟨front, rfl⟩
  · exact hhead
  · have hcount : (front ++ [newline]).count newline = (front.splitOn newline).length := by
      rw [length_splitOn, List.count_append, List.count_singleton_self, Nat.add_comm]
    rw [hcount, List.append_assoc, List.singleton_append,
      List.splitOn_append_cons_of_beq _ _ (beq_self_eq_true _),
      List.getElem?_append_right le_rfl, Nat.sub_self]
    exact hhead

/-- What lies between two offsets in a line. -/
theorem bytes (h : Around text above line below) (hlo : above.length ≤ o) (hop : o ≤ p)
    (hhi : p ≤ above.length + line.length) :
    Span.bytes ⟨o, p⟩ text = (line.drop (o - above.length)).take (p - o) := by
  have hin : p - o ≤ (line.drop (o - above.length)).length := by
    rw [List.length_drop]
    omega
  show (text.drop o).take (p - o) = _
  rw [h.text_eq, List.drop_append, List.drop_of_length_le hlo, List.nil_append,
    List.drop_append_of_le_length (by omega), List.take_append_of_le_length hin]

theorem bytes_line (h : Around text above line below) :
    Span.bytes ⟨above.length, above.length + line.length⟩ text = line := by
  rw [h.bytes le_rfl (Nat.le_add_right _ _) le_rfl, Nat.sub_self, List.drop_zero,
    Nat.add_sub_cancel_left, List.take_length]

theorem lineEnd (h : Around text above line below) :
    (text.drop (above.length + line.length)).head?.all (· == newline) = true := by
  rw [h.text_eq, ← List.append_assoc, ← List.length_append, List.drop_left]
  exact h.below

/-- From an offset in a line, what holds no newline does not go on behind it. -/
theorem le_of_newline_notMem (h : Around text above line below)
    (hhi : o ≤ above.length + line.length) (hp : p ≤ text.length)
    (hline : newline ∉ Span.bytes ⟨o, p⟩ text) : p ≤ above.length + line.length :=
  Span.stop_le_of_lineEnd hline hhi hp h.lineEnd

end Around

-- ---------------------------------------------------------------------------
-- The index and the text
-- ---------------------------------------------------------------------------

section Steps

open LineIndex

/-- Past the end of the text, an offset is located at the end. -/
theorem locate_min (text : Bytes) (o : Nat) :
    (ofText text).locate (min o text.length) = (ofText text).locate o := by
  show LineIndex.locate ⟨text, _⟩ _ = LineIndex.locate ⟨text, _⟩ _
  simp only [LineIndex.locate, Nat.min_assoc, Nat.min_self]

/-- The line of an offset is told by the newlines in front of it. -/
theorem locate_line (ho : o ≤ text.length) :
    ((ofText text).locate o).line = 1 + (text.take o).count newline := by
  obtain ⟨above, line, below, h, -, hlo, hhi⟩ := around_offset ho
  rw [h.locate hlo hhi, h.count_take hlo hhi]

/-- The column of an offset is told by the characters between it and the start
of its line. -/
theorem locate_column (ho : o ≤ text.length) :
    ((ofText text).locate o).column =
      1 + characters (Span.bytes ⟨(lineAround text o).start, o⟩ text) := by
  obtain ⟨above, line, below, h, haround, hlo, hhi⟩ := around_offset ho
  rw [haround, h.locate hlo hhi, h.bytes le_rfl hlo hhi, Nat.sub_self, List.drop_zero]

/-- The text of the line in which an offset lies is the one around it. -/
theorem lineText_locate (ho : o ≤ text.length) :
    (ofText text).lineText ((ofText text).locate o).line =
      withoutReturn ((lineAround text o).bytes text) := by
  obtain ⟨above, line, below, h, haround, hlo, hhi⟩ := around_offset ho
  rw [haround, h.locate hlo hhi, h.lineText, h.bytes_line]

theorem newline_notMem_lineAround (ho : o ≤ text.length) :
    newline ∉ (lineAround text o).bytes text := by
  obtain ⟨above, line, below, h, haround, -, -⟩ := around_offset ho
  rw [haround, h.bytes_line]
  exact h.line

/-- The text of a line is made of bytes of the whole. -/
theorem mem_of_mem_lineText (h : b ∈ (ofText text).lineText k) : b ∈ text := by
  unfold lineText at h
  split at h
  · exact absurd h List.not_mem_nil
  split at h
  · exact absurd h List.not_mem_nil
  · next start _ =>
    have hin : ∀ stop, b ∈ (text.take stop).drop start → b ∈ text := fun stop hb =>
      List.mem_of_mem_take (List.mem_of_mem_drop hb)
    dsimp only at h
    split at h
    · exact hin _ (List.mem_of_mem_dropLast h)
    · exact hin _ h

/-- In one line, the column goes up by the characters passed. -/
theorem locate_add (hop : o ≤ p) (hp : p ≤ text.length)
    (hline : newline ∉ Span.bytes ⟨o, p⟩ text) :
    (ofText text).locate p =
      ⟨((ofText text).locate o).line,
        ((ofText text).locate o).column + characters (Span.bytes ⟨o, p⟩ text)⟩ := by
  obtain ⟨above, line, below, h, -, hlo, hhi⟩ := around_offset (hop.trans hp)
  have hhi' := h.le_of_newline_notMem hhi hp hline
  -- both offsets are in one line, so the later column counts on from the earlier one
  have hsplit : line.take (p - above.length) =
      line.take (o - above.length) ++ Span.bytes ⟨o, p⟩ text := by
    rw [h.bytes hlo hop hhi', ← List.take_add]
    congr 1
    omega
  rw [h.locate hlo hhi, h.locate (hlo.trans hop) hhi', hsplit, characters_append, Nat.add_assoc]

/-- Over a newline, the line goes up. -/
theorem locate_line_lt (hop : o ≤ p) (hp : p ≤ text.length)
    (hline : newline ∈ Span.bytes ⟨o, p⟩ text) :
    ((ofText text).locate o).line < ((ofText text).locate p).line := by
  have hpos := List.count_pos_iff.mpr hline
  rw [locate_line (hop.trans hp), locate_line hp, ← take_append_bytes text hop, List.count_append]
  omega

end Steps

/--
**The index and the text.** Cut a text at its newlines. The index counts as many
lines as there are pieces, and the text of a line is that piece, without a
carriage return at its end; there is none for the number 0 or one past the last.

The table of starts increases. An offset, or the end of the text if that comes
first, lies in the line that has as many lines above as there are newlines in
front of the offset, at the column of the characters from the start of the line
on. That is a line of the text, its start is found in the table, and it is the
last that is not behind the offset.
-/
theorem lineIndex_split (text : Bytes) :
    let index := LineIndex.ofText text
    let pieces := text.splitOn newline
    (1 ≤ pieces.length ∧ index.lineCount = pieces.length) ∧
    (∀ k, index.lineText k = if k = 0 then [] else pieces[k - 1]?.elim [] withoutReturn) ∧
    index.starts.Pairwise (· < ·) ∧
    ∀ offset,
      let o := min offset text.length
      let start := (lineAround text o).start
      let place := index.locate offset
      place.line = 1 + (text.take o).count newline ∧
      place.column = 1 + characters (Span.bytes ⟨start, o⟩ text) ∧
      1 ≤ place.line ∧ place.line ≤ index.lineCount ∧
      index.starts[place.line - 1]? = some start ∧
      (∀ s ∈ index.starts.take place.line, s ≤ o) ∧
      ∀ s ∈ index.starts.drop place.line, o < s := by
  intro index pieces
  have hcount : index.lineCount = 1 + text.count newline := by
    show (0 :: LineIndex.startsFrom 0 text).length = _
    rw [List.length_cons, LineIndex.length_startsFrom, Nat.add_comm]
  have hpieces : pieces.length = 1 + text.count newline := length_splitOn text
  refine ⟨⟨by omega, hcount.trans hpieces.symm⟩, ?_, LineIndex.startsFrom_increasing 0 text, ?_⟩
  · intro k
    rcases k with _ | k
    · rfl
    rw [if_neg (Nat.succ_ne_zero k), Nat.add_sub_cancel]
    rcases Nat.lt_or_ge (text.count newline) k with hk | hk
    · -- there is no such line
      have hstart : index.starts[k]? = none :=
        List.getElem?_eq_none (show index.lineCount ≤ k by omega)
      rw [List.getElem?_eq_none (by omega), LineIndex.lineText, if_neg (Nat.succ_ne_zero k),
        Nat.add_sub_cancel, hstart]
      rfl
    · obtain ⟨above, line, below, h, rfl⟩ := around_line hk
      rw [Nat.add_comm, h.lineText, h.getElem?_splitOn]
      rfl
  · intro offset o start place
    have ho : o ≤ text.length := Nat.min_le_right _ _
    have hplace : place = index.locate o := (locate_min text offset).symm
    obtain ⟨above, line, below, h, haround, hlo, hhi⟩ := around_offset ho
    have hstart : start = above.length := congrArg Span.start haround
    have hline : place.line = 1 + above.count newline := by
      rw [hplace, h.locate hlo hhi]
    -- the table is cut behind the start of the line
    have htable : index.starts.take place.line = 0 :: LineIndex.startsFrom 0 above ∧
        index.starts.drop place.line =
          LineIndex.startsFrom (above.length + line.length) below := by
      have hlen : place.line = (0 :: LineIndex.startsFrom 0 above).length := by
        rw [hline, List.length_cons, LineIndex.length_startsFrom, Nat.add_comm]
      rw [hlen, h.starts]
      exact ⟨List.take_left, List.drop_left⟩
    obtain ⟨hup, hbelow⟩ := Around.cut below hlo hhi
    have hle : above.count newline ≤ text.count newline := by
      rw [h.text_eq, List.count_append]
      exact Nat.le_add_right _ _
    refine ⟨?_, ?_, by omega, by omega, ?_, ?_, ?_⟩
    · rw [hplace]
      exact locate_line ho
    · rw [hplace]
      exact locate_column ho
    · rw [hline, Nat.add_sub_cancel_left, h.getElem?_starts, hstart]
    · rw [htable.1]
      exact hup
    · rw [htable.2]
      exact hbelow

/--
**Locations follow characters.** Of two offsets of a text the later one never
has the earlier location, in the order of lines and then columns. Both have the
same location exactly if all bytes between them go on with a character.
-/
theorem locate_order (text : Bytes) (o p : Nat) (hop : o ≤ p) (hp : p ≤ text.length) :
    let first := (LineIndex.ofText text).locate o
    let last := (LineIndex.ofText text).locate p
    toLex (first.line, first.column) ≤ toLex (last.line, last.column) ∧
      (first = last ↔ ∀ b ∈ Span.bytes ⟨o, p⟩ text, 0x80 ≤ b ∧ b ≤ 0xBF) := by
  intro first last
  rw [Prod.Lex.toLex_le_toLex, ← characters_eq_zero_iff]
  by_cases hline : newline ∈ Span.bytes ⟨o, p⟩ text
  · -- over a newline the line goes up, and a newline is a character
    have hlt : first.line < last.line := locate_line_lt hop hp hline
    have hpos : 0 < characters (Span.bytes ⟨o, p⟩ text) :=
      List.countP_pos_iff.mpr ⟨newline, hline, by decide⟩
    refine ⟨Or.inl hlt, ?_⟩
    constructor
    · intro heq
      rw [heq] at hlt
      exact absurd hlt (lt_irrefl _)
    · omega
  · -- in one line the column goes up by the characters passed
    have hlast : last = ⟨first.line, first.column + _⟩ := locate_add hop hp hline
    rw [hlast]
    refine ⟨Or.inr ⟨rfl, Nat.le_add_right _ _⟩, ?_⟩
    constructor
    · intro heq
      have hcolumn : first.column = first.column + _ := congrArg Location.column heq
      omega
    · intro hzero
      rw [hzero]
      rfl

/-- Inside an `é` and behind it: the same location. -/
theorem locate_order_insideCharacter :
    let text := [0xC3, 0xA9, newline]
    (1 ≤ 2 ∧ 2 ≤ text.length) ∧
      (LineIndex.ofText text).locate 1 = (LineIndex.ofText text).locate 2 := by
  intro text
  refine ⟨by decide, ?_⟩
  exact (locate_order text 1 2 (by decide) (by decide)).2.mpr (by decide +kernel)

end StoryLex
