import StoryLex.Token.Dump
import StoryLex.Proofs.Forest

/-!
# StoryLex — the dump tells everything

No two forests have the same dump, however their tokens came about, and every
token has exactly one line in it (`dump_faithful`).

The argument goes by **rows**. A row is what one line of a dump says: how deep
a token stands, and the token less what is inside it. A dump is the lines of
its rows, one after the other (`Token.dumpForest_eq`), and then two things
have to be read back:

* `Row.line_append_inj` — the row from its line, whatever text comes after it.
  Each field ends where a byte stands that it cannot hold: blanks end at the
  kind, the kind and the offsets at a mark, and the lexeme at the one quote
  that is not escaped (`flatMap_escapeByte_inj`).
* `Token.rows_append_inj` — the forest from its rows, whatever shallower rows
  come after it. What stands deeper than a token, right behind it, is inside
  it.
-/

namespace StoryLex

-- ---------------------------------------------------------------------------
-- Fields that end where their class does
-- ---------------------------------------------------------------------------

/-- Two texts of one class are the same if they go on as the same text with
something that is not of the class. -/
theorem append_inj_of_stop {p : UInt8 → Bool} {u v x y : Bytes}
    (hu : ∀ b ∈ u, p b = true) (hv : ∀ b ∈ v, p b = true)
    (hx : x.head?.any p = false) (hy : y.head?.any p = false) (h : u ++ x = v ++ y) :
    u = v ∧ x = y := by
  have huv : u = v := by
    calc u = u.takeWhile p := (List.takeWhile_eq_self_iff.mpr hu).symm
      _ = (u ++ x).takeWhile p := (takeWhile_append_of_stop u hx).symm
      _ = (v ++ y).takeWhile p := by rw [h]
      _ = v.takeWhile p := takeWhile_append_of_stop v hy
      _ = v := List.takeWhile_eq_self_iff.mpr hv
  subst huv
  exact ⟨rfl, List.append_cancel_left h⟩

theorem spaces_injective : Function.Injective spaces := by
  intro m n h
  simpa [spaces] using congrArg List.length h

theorem Kind.isLetter_of_mem_name (k : Kind) : ∀ b ∈ ascii k.name, isLetter b = true := by
  cases k <;> decide +kernel

theorem Kind.name_injective {k k' : Kind} (h : ascii k.name = ascii k'.name) : k = k' := by
  have := ofName?_name k
  rw [h, ofName?_name] at this
  exact (Option.some.inj this).symm

-- ---------------------------------------------------------------------------
-- Numbers
-- ---------------------------------------------------------------------------

/-- The digits stand in order behind the zero. -/
theorem toNat_digit {d : Nat} (h : d < 10) : (digit d).toNat = 48 + d := by
  have hd : d.toUInt8.toNat = d := by
    rw [Nat.toUInt8, UInt8.toNat_ofNat']
    omega
  rw [digit, UInt8.toNat_add, hd]
  show (48 + d) % 256 = 48 + d
  omega

/-- The digit of a number below ten is a digit. -/
theorem isDigit_digit {d : Nat} (h : d < 10) : isDigit (digit d) = true := by
  have hd := toNat_digit h
  simp only [isDigit, Bool.and_eq_true, decide_eq_true_eq, UInt8.le_iff_toNat_le]
  rw [hd]
  refine ⟨?_, ?_⟩
  · show 48 ≤ 48 + d
    omega
  · show 48 + d ≤ 57
    omega

/-- A number is written in digits. -/
theorem isDigit_of_mem_decimal {n : Nat} {b : UInt8} (h : b ∈ decimal n) : isDigit b = true := by
  fun_induction decimal n with
  | case1 n hn =>
    obtain rfl := List.mem_singleton.mp h
    exact isDigit_digit hn
  | case2 n hn ih =>
    rcases List.mem_append.mp h with h | h
    · exact ih h
    · obtain rfl := List.mem_singleton.mp h
      exact isDigit_digit (Nat.mod_lt n (by omega))

theorem decimal_ne_nil (n : Nat) : decimal n ≠ [] := by
  rw [decimal]
  split <;> simp

/-- A number that was written is read back. -/
theorem decimal?_decimal (n : Nat) : decimal? (decimal n) = some n := by
  have hdigits : (!(decimal n).isEmpty && (decimal n).all isDigit) = true := by
    simp only [Bool.and_eq_true, List.all_eq_true, Bool.not_eq_true', List.isEmpty_eq_false_iff]
    exact ⟨decimal_ne_nil n, fun b hb => isDigit_of_mem_decimal hb⟩
  rw [decimal?, if_pos hdigits, Option.some.injEq]
  clear hdigits
  fun_induction decimal n with
  | case1 n hn =>
    rw [List.foldl_cons, List.foldl_nil, toNat_digit hn]
    show 10 * 0 + (48 + n - 48) = n
    omega
  | case2 n hn ih =>
    -- the last digit is read behind the number that the others write
    have hlast := toNat_digit (Nat.mod_lt n (show 10 > 0 by omega))
    rw [List.foldl_append, ih, List.foldl_cons, List.foldl_nil, hlast]
    show 10 * (n / 10) + (48 + n % 10 - 48) = n
    omega

theorem decimal_injective : Function.Injective decimal := by
  intro m n h
  have := decimal?_decimal m
  rw [h, decimal?_decimal] at this
  exact (Option.some.inj this).symm

-- ---------------------------------------------------------------------------
-- Quoted texts
-- ---------------------------------------------------------------------------

/-- The byte that stands for itself behind a backslash, or for white space. -/
def unescape (b : UInt8) : UInt8 :=
  if b == byte 'n' then newline
  else if b == byte 'r' then carriageReturn
  else if b == byte 't' then 0x09
  else b

/-- A byte is written as it is, or as a backslash and a byte that it is known by. -/
theorem escapeByte_cases (b : UInt8) :
    (∃ c, escapeByte b = [0x5C, c] ∧ c ≠ newline ∧ unescape c = b) ∨
      escapeByte b = [b] ∧ b ≠ 0x22 ∧ b ≠ 0x5C ∧ b ≠ newline := by
  unfold escapeByte
  split
  · next h => exact Or.inl ⟨0x22, by decide, by decide, (beq_iff_eq.mp h).symm⟩
  next hquote =>
  split
  · next h => exact Or.inl ⟨0x5C, by decide, by decide, (beq_iff_eq.mp h).symm⟩
  next hslash =>
  split
  · next h => exact Or.inl ⟨byte 'n', by decide, by decide, (beq_iff_eq.mp h).symm⟩
  next hnewline =>
  split
  · next h => exact Or.inl ⟨byte 'r', by decide, by decide, (beq_iff_eq.mp h).symm⟩
  split
  · next h => exact Or.inl ⟨byte 't', by decide, by decide, (beq_iff_eq.mp h).symm⟩
  · exact Or.inr ⟨rfl, by simpa using hquote, by simpa using hslash, by simpa using hnewline⟩

theorem newline_notMem_escapeByte (b : UInt8) : newline ∉ escapeByte b := by
  rcases escapeByte_cases b with ⟨c, hb, hc, -⟩ | ⟨hb, -, -, hne⟩ <;> rw [hb]
  · simpa using ⟨by decide, hc.symm⟩
  · simpa using hne.symm

/-- A byte is read back from what is written for it, whatever comes after
that. -/
theorem escapeByte_append_inj {a b : UInt8} {x y : Bytes}
    (h : escapeByte a ++ x = escapeByte b ++ y) : a = b ∧ x = y := by
  rcases escapeByte_cases a with ⟨c, ha, -, rfl⟩ | ⟨ha, -, hslash, -⟩ <;>
    rcases escapeByte_cases b with ⟨c', hb, -, rfl⟩ | ⟨hb, -, hslash', -⟩ <;>
    rw [ha, hb] at h
  · -- behind a backslash stands the byte that tells which was meant
    simp only [List.cons_append, List.nil_append, List.cons.injEq, true_and] at h
    exact ⟨congrArg unescape h.1, h.2⟩
  · exact absurd (List.cons.inj h).1.symm hslash'
  · exact absurd (List.cons.inj h).1 hslash
  · exact List.cons.inj h

/-- What is escaped never looks like the end of the quoted text. -/
theorem escapeByte_append_ne {b : UInt8} {x y : Bytes} : escapeByte b ++ x ≠ 0x22 :: y := by
  intro h
  rcases escapeByte_cases b with ⟨c, hb, -, -⟩ | ⟨hb, hquote, -, -⟩ <;> rw [hb] at h
  · exact absurd (List.cons.inj h).1 (by decide)
  · exact hquote (List.cons.inj h).1

/-- Escaped bytes are read back up to the quote that ends them. -/
theorem flatMap_escapeByte_inj {s t x y : Bytes}
    (h : s.flatMap escapeByte ++ 0x22 :: x = t.flatMap escapeByte ++ 0x22 :: y) :
    s = t ∧ x = y := by
  induction s generalizing t with
  | nil =>
    cases t with
    | nil => exact ⟨rfl, (List.cons.inj h).2⟩
    | cons b t =>
      rw [List.flatMap_cons, List.append_assoc] at h
      exact absurd h.symm escapeByte_append_ne
  | cons a s ih =>
    cases t with
    | nil =>
      rw [List.flatMap_cons, List.append_assoc] at h
      exact absurd h escapeByte_append_ne
    | cons b t =>
      rw [List.flatMap_cons, List.flatMap_cons, List.append_assoc, List.append_assoc] at h
      obtain ⟨rfl, hrest⟩ := escapeByte_append_inj h
      obtain ⟨rfl, hxy⟩ := ih hrest
      exact ⟨rfl, hxy⟩

/-- A quoted text is read back, whatever comes after it. -/
theorem quoted_append_inj {s t x y : Bytes} (h : quoted s ++ x = quoted t ++ y) :
    s = t ∧ x = y := by
  have hquote : ascii "\"" = [0x22] := by decide
  simp only [quoted, hquote, List.append_assoc, List.cons_append, List.nil_append,
    List.cons.injEq, true_and] at h
  exact flatMap_escapeByte_inj h

/-- A quoted text is on one line, whatever its bytes. -/
theorem newline_notMem_quoted (text : Bytes) : newline ∉ quoted text := by
  have hquote : ascii "\"" = [0x22] := by decide
  have hne : newline ≠ 0x22 := by decide
  rw [quoted, hquote]
  simp [newline_notMem_escapeByte, hne]

-- ---------------------------------------------------------------------------
-- Rows
-- ---------------------------------------------------------------------------

/-- What one line of a dump says: how deep a token stands, and the token less
the tokens inside it. -/
structure Row where
  depth : Nat
  kind : Kind
  span : Span
  lexeme : Bytes
  unterminated : Bool

namespace Row

/-- The row of a token. -/
def ofToken (depth : Nat) (t : Token) : Row := ⟨depth, t.kind, t.span, t.lexeme, t.unterminated⟩

/-- The line of a row. -/
def line (r : Row) : Bytes := Token.line r.depth ⟨r.kind, r.span, r.lexeme, [], r.unterminated⟩

/-- What stands on a line behind the lexeme. -/
def tail (unterminated : Bool) : Bytes :=
  (if unterminated then ascii " (unterminated)" else []) ++ [newline]

/-- The flag is read back from the end of the line. -/
theorem tail_append_inj {u v : Bool} {x y : Bytes} (h : tail u ++ x = tail v ++ y) :
    u = v ∧ x = y := by
  have hmark : ascii " (unterminated)" = byte ' ' :: ascii "(unterminated)" := by decide
  cases u <;> cases v
  · exact ⟨rfl, List.append_cancel_left h⟩
  · rw [tail, tail, if_pos rfl, hmark] at h
    exact absurd (List.cons.inj h).1 (by decide)
  · rw [tail, tail, if_pos rfl, hmark] at h
    exact absurd (List.cons.inj h).1 (by decide)
  · exact ⟨rfl, List.append_cancel_left h⟩

theorem line_eq (r : Row) :
    r.line = spaces (2 * r.depth) ++ (ascii r.kind.name ++ (ascii " " ++ (decimal r.span.start ++
      (ascii ".." ++ (decimal r.span.stop ++ (ascii " " ++ (quoted r.lexeme ++
        tail r.unterminated))))))) := by
  simp only [line, Token.line, tail, List.append_assoc]

/-- A row is read back from its line, whatever comes after it. -/
theorem line_append_inj {r s : Row} {x y : Bytes} (h : r.line ++ x = s.line ++ y) :
    r = s ∧ x = y := by
  have hblank : ∀ n, ∀ b ∈ spaces n, (b == byte ' ') = true := by
    intro n b hb
    rw [List.eq_of_mem_replicate hb]
    rfl
  -- the blanks of the indentation end at the capital of a kind's name
  have hcapital : ∀ (k : Kind) (z : Bytes),
      (ascii k.name ++ z).head?.any (· == byte ' ') = false := by
    intro k z
    cases k <;> rfl
  rw [line_eq, line_eq] at h
  simp only [List.append_assoc] at h
  -- field by field, each one up to where it stops
  obtain ⟨hdepth, h⟩ := append_inj_of_stop (hblank _) (hblank _) (hcapital _ _) (hcapital _ _) h
  obtain ⟨hkind, h⟩ := append_inj_of_stop r.kind.isLetter_of_mem_name
    s.kind.isLetter_of_mem_name rfl rfl h
  obtain ⟨hstart, h⟩ := append_inj_of_stop (fun _ => isDigit_of_mem_decimal)
    (fun _ => isDigit_of_mem_decimal) rfl rfl (List.append_cancel_left h)
  obtain ⟨hstop, h⟩ := append_inj_of_stop (fun _ => isDigit_of_mem_decimal)
    (fun _ => isDigit_of_mem_decimal) rfl rfl (List.append_cancel_left h)
  obtain ⟨hlexeme, h⟩ := quoted_append_inj (List.append_cancel_left h)
  obtain ⟨hunterminated, hxy⟩ := tail_append_inj h
  obtain ⟨depth, kind, ⟨start, stop⟩, lexeme, unterminated⟩ := r
  obtain ⟨depth', kind', ⟨start', stop'⟩, lexeme', unterminated'⟩ := s
  have hdepth := spaces_injective hdepth
  obtain rfl : depth = depth' := by
    dsimp only at hdepth
    omega
  obtain rfl : kind = kind' := Kind.name_injective hkind
  obtain rfl : start = start' := decimal_injective hstart
  obtain rfl : stop = stop' := decimal_injective hstop
  obtain rfl : lexeme = lexeme' := hlexeme
  obtain rfl : unterminated = unterminated' := hunterminated
  exact ⟨rfl, hxy⟩

/-- Rows are read back from their lines. -/
theorem flatMap_line_injective : Function.Injective (List.flatMap line) := by
  intro rs ss h
  -- no line is empty
  have hne : ∀ (r : Row) (x : Bytes), r.line ++ x ≠ [] := by
    intro r x
    simp [line, Token.line]
  induction rs generalizing ss with
  | nil =>
    cases ss with
    | nil => rfl
    | cons s ss => exact absurd h.symm (hne s _)
  | cons r rs ih =>
    cases ss with
    | nil => exact absurd h (hne r _)
    | cons s ss =>
      obtain ⟨rfl, hrest⟩ := line_append_inj h
      rw [ih hrest]

/-- A line ends with its only newline. -/
theorem count_newline_line (r : Row) : r.line.count newline = 1 := by
  have hspaces : newline ∉ spaces (2 * r.depth) := by
    intro hb
    exact absurd (List.eq_of_mem_replicate hb) (by decide)
  have hname : newline ∉ ascii r.kind.name := by
    intro hb
    exact absurd (r.kind.isLetter_of_mem_name _ hb) (by decide)
  have hnumber : ∀ n, newline ∉ decimal n := by
    intro n hb
    exact absurd (isDigit_of_mem_decimal hb) (by decide)
  -- none of the fields holds a newline, and one ends the line
  have htail : (tail r.unterminated).count newline = 1 := by
    cases r.unterminated <;> decide
  simp only [line_eq, List.count_append, List.count_eq_zero.mpr hspaces,
    List.count_eq_zero.mpr hname, List.count_eq_zero.mpr (hnumber _),
    List.count_eq_zero.mpr (newline_notMem_quoted _), htail]
  decide

end Row

namespace Token

-- ---------------------------------------------------------------------------
-- The rows of a forest
-- ---------------------------------------------------------------------------

mutual

/-- The rows of a token and of all tokens inside it. -/
def rowsTree (depth : Nat) : Token → List Row
  | ⟨kind, span, lexeme, nested, unterminated⟩ =>
    ⟨depth, kind, span, lexeme, unterminated⟩ :: rows (depth + 1) nested

/-- The rows of neighbouring tokens, in order. -/
def rows (depth : Nat) : List Token → List Row
  | [] => []
  | t :: ts => rowsTree depth t ++ rows depth ts

end

/-- First comes the row of the token, then those of what is inside it, then
those of what is right of it. -/
@[simp] theorem rows_cons (depth : Nat) (t : Token) (ts : List Token) :
    rows depth (t :: ts) = .ofToken depth t :: (rows (depth + 1) t.nested ++ rows depth ts) := by
  cases t
  rfl

/-- A dump has the line of the first token, then those inside it, then the other
ones. -/
theorem dumpForest_cons (depth : Nat) (t : Token) (ts : List Token) :
    dumpForest depth (t :: ts) =
      (Row.ofToken depth t).line ++ (dumpForest (depth + 1) t.nested ++ dumpForest depth ts) := by
  cases t
  rw [dumpForest, dumpTree, List.append_assoc]
  rfl

/-- A dump is the lines of its rows. -/
theorem dumpForest_eq (depth : Nat) (ts : List Token) :
    dumpForest depth ts = (rows depth ts).flatMap Row.line := by
  induction ts using forest_induction generalizing depth with
  | nil => rfl
  | cons t ts ihNested ihRest =>
    rw [dumpForest_cons, ihNested, ihRest, rows_cons, List.flatMap_cons, List.flatMap_append]

theorem length_rows (depth : Nat) (ts : List Token) :
    (rows depth ts).length = (forest ts).length := by
  induction ts using forest_induction generalizing depth with
  | nil => rfl
  | cons t ts ihNested ihRest => simp [ihNested, ihRest]

/-- Rows that come after a forest at some depth: the first of them is shallower. -/
def Shallower (depth : Nat) (rs : List Row) : Prop := ∀ r ∈ rs.head?, r.depth < depth

/-- What comes after the inside of a token is shallower than that inside. -/
theorem Shallower.rows_append {depth : Nat} {rs : List Row} (h : Shallower depth rs)
    (ts : List Token) : Shallower (depth + 1) (rows depth ts ++ rs) := by
  cases ts with
  | nil =>
    intro r hr
    exact Nat.lt_succ_of_lt (h r hr)
  | cons t ts =>
    intro r hr
    obtain rfl : Row.ofToken depth t = r := by simpa using hr
    exact Nat.lt_succ_self depth

theorem Shallower.ne_rows_cons {depth : Nat} {rs ss : List Row} (h : Shallower depth rs) (t : Token)
    (ts : List Token) : rs ≠ rows depth (t :: ts) ++ ss := by
  rintro rfl
  exact absurd (h (.ofToken depth t) (by simp)) (Nat.lt_irrefl depth)

/-- A forest is read back from its rows, whatever shallower rows come after it. -/
theorem rows_append_inj {depth : Nat} {ts us : List Token} {rs ss : List Row}
    (hrs : Shallower depth rs) (hss : Shallower depth ss)
    (h : rows depth ts ++ rs = rows depth us ++ ss) : ts = us ∧ rs = ss := by
  induction ts using forest_induction generalizing depth us rs ss with
  | nil =>
    cases us with
    | nil => exact ⟨rfl, h⟩
    | cons u us => exact absurd h (hrs.ne_rows_cons u us)
  | cons t ts ihNested ihRest =>
    cases us with
    | nil => exact absurd h.symm (hss.ne_rows_cons t ts)
    | cons u us =>
      simp only [rows_cons, List.cons_append, List.append_assoc, List.cons.injEq] at h
      obtain ⟨hrow, h⟩ := h
      -- what is inside the first token ends where the rows are no deeper than it
      obtain ⟨hnested, h⟩ := ihNested (hrs.rows_append ts) (hss.rows_append us) h
      obtain ⟨rfl, hrest⟩ := ihRest hrs hss h
      obtain ⟨kind, span, lexeme, nested, unterminated⟩ := t
      obtain ⟨kind', span', lexeme', nested', unterminated'⟩ := u
      simp only [Row.ofToken, Row.mk.injEq, true_and] at hrow
      obtain ⟨rfl, rfl, rfl, rfl⟩ := hrow
      obtain rfl : nested = nested' := hnested
      exact ⟨rfl, hrest⟩

/-- A forest is read back from its rows. -/
theorem rows_injective (depth : Nat) : Function.Injective (rows depth) := by
  intro ts us h
  have hnil : Shallower depth [] := by simp [Shallower]
  exact (rows_append_inj hnil hnil (congrArg (· ++ []) h)).1

end Token

/--
**The dump tells everything.** Two streams have the same dump exactly if they
are equal, with all kinds, spans, lexemes, flags and nested tokens, whatever
those are; and a dump has one newline for each token of the forest, whatever
bytes the lexemes hold.
-/
theorem dump_faithful (a b : List Token) :
    (Token.dump a = Token.dump b ↔ a = b) ∧
      (Token.dump a).count newline = (Token.forest a).length := by
  have hdump : ∀ ts, Token.dump ts = (Token.rows 0 ts).flatMap Row.line := Token.dumpForest_eq 0
  refine ⟨⟨?_, congrArg Token.dump⟩, ?_⟩
  · intro h
    rw [hdump, hdump] at h
    exact Token.rows_injective 0 (Row.flatMap_line_injective h)
  · have hlines : ∀ rs : List Row, (rs.flatMap Row.line).count newline = rs.length := by
      intro rs
      induction rs with
      | nil => rfl
      | cons r rs ih =>
        rw [List.flatMap_cons, List.count_append, Row.count_newline_line, ih, List.length_cons,
          Nat.add_comm]
    rw [hdump, hlines, Token.length_rows]

end StoryLex
