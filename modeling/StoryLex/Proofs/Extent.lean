import StoryLex.Proofs.Layout
import StoryLex.Proofs.Spelling

/-!
# StoryLex — how far regions reach

A region is read piece by piece, and nothing that is met inside can hide its
closing mark: filler and junk do not begin with it, and what goes on with a
token or with junk is a word or a character, never part of a mark. So a region
ends where a plain search for the mark would have ended it.

* `PieceMarks` — what a region takes a place for, seen against its closing mark
  (`argsPiece_marks`, `templatePiece_marks`).
* `scanBody_extent` — the inside of a region, up to its first closing mark.
* `template_extent`, `sceneArgs_extent`, `lineEnd_extent` — the text of a region,
  and the text behind it.
-/

namespace StoryLex

-- ---------------------------------------------------------------------------
-- Stretches without a mark
-- ---------------------------------------------------------------------------

namespace Unmarked

variable {mark text : Bytes} {b : UInt8} {tail : Bytes} {m n : Nat}

theorem zero (mark text : Bytes) : Unmarked mark text 0 := by
  intro i hi
  omega

/-- Two stretches without a mark make one. -/
theorem add (h : Unmarked mark text m) (h' : Unmarked mark (text.drop m) n) :
    Unmarked mark text (m + n) := by
  intro i hi
  -- a mark begins in the one stretch or in the other
  rcases Nat.lt_or_ge i m with him | him
  · exact h i him
  · have := h' (i - m) (by omega)
    rwa [List.drop_drop, Nat.add_sub_cancel' him] at this

/-- A piece that begins with no mark, and goes on with bytes that begin none. -/
theorem piece (hfirst : ¬ mark <+: b :: tail)
    (hlater : ∀ x ∈ tail.take m, mark.head? ≠ some x) : Unmarked mark (b :: tail) (m + 1) := by
  intro i hi hmark
  cases i with
  | zero => exact hfirst hmark
  | succ i =>
    obtain ⟨rest, hrest⟩ := hmark
    rw [List.drop_succ_cons] at hrest
    cases mark with
    | nil => exact hfirst (List.nil_prefix)
    | cons x mark =>
      -- the byte at which the mark would begin is one of the piece
      have hx : tail[i]? = some x := by
        have := congrArg List.head? hrest
        simpa using this.symm
      have hmem : x ∈ tail.take m := by
        rw [List.mem_iff_getElem?]
        exact ⟨i, by rw [List.getElem?_take_of_lt (by omega), hx]⟩
      exact hlater x hmem rfl

/-- A stretch without a mark has none in the front part of the text either. -/
theorem of_prefix {text' : Bytes} (h : Unmarked mark text n) (hp : text' <+: text) :
    Unmarked mark text' n := by
  intro i hi hmark
  exact h i hi (hmark.trans (hp.drop i))

end Unmarked

-- ---------------------------------------------------------------------------
-- Pieces and the closing mark
-- ---------------------------------------------------------------------------

namespace Piece

/-- How many bytes a piece has after its first one. -/
def more : Piece → Nat
  | close more => more
  | filler => 0
  | leaf m => m.more
  | junk more => more

def isClose : Piece → Bool
  | close _ => true
  | _ => false

end Piece

/-- A region is closed exactly where its mark stands, and no other piece has
the beginning of a mark behind its first byte. -/
structure PieceMarks (pieceAt : Option UInt8 → UInt8 → Bytes → Piece) (mark : Bytes) : Prop where
  of_close : ∀ {before b tail piece}, pieceAt before b tail = piece → piece.isClose = true →
               mark <+: b :: tail ∧ piece.more + 1 = mark.length
  of_open  : ∀ {before b tail piece}, pieceAt before b tail = piece → piece.isClose = false →
               ¬ mark <+: b :: tail ∧ ∀ x ∈ tail.take piece.more, mark.head? ≠ some x

theorem isWord_of_isDigit : ∀ x : UInt8, isDigit x = true → isWord x = true := by
  decide +kernel

theorem isWord_of_isUpper : ∀ x : UInt8, isUpper x = true → isWord x = true := by
  decide +kernel

theorem isWord_of_isLower : ∀ x : UInt8, isLower x = true → isWord x = true := by
  decide +kernel

theorem isWord_of_isSnake : ∀ x : UInt8, isSnake x = true → isWord x = true := by
  decide +kernel

theorem isWord_of_isScreaming : ∀ x : UInt8, isScreaming x = true → isWord x = true := by
  decide +kernel

/-- What holds of both classes of a name holds of all its bytes. -/
theorem Named.forall_mem {first later p : UInt8 → Bool} {word : Bytes} (h : Named first later word)
    (hfirst : ∀ x, first x = true → p x = true) (hlater : ∀ x, later x = true → p x = true) :
    ∀ x ∈ word, p x = true := by
  obtain ⟨b, w, rfl, hb, hw⟩ := h
  intro x hx
  rcases List.mem_cons.mp hx with rfl | hx
  · exact hfirst x hb
  · exact hlater x (hw x hx)

/-- Behind its first byte, a token of an argument list is made of word bytes. -/
theorem Spelled.tail_isWord {legacy cut : Bool} {before : Option UInt8} {b : UInt8}
    {w after : Bytes} {k : Kind} (h : Spelled legacy cut before (b :: w) after k)
    (hk : k ∈ argKinds) : ∀ x ∈ w, isWord x = true := by
  simp only [argKinds, List.mem_cons, List.not_mem_nil, or_false] at hk
  rcases hk with rfl | rfl | rfl | rfl | rfl
  · -- a label
    obtain ⟨⟨name, hword, hname⟩, -⟩ := h
    obtain ⟨-, rfl⟩ := List.cons.inj hword
    cases legacy with
    | true => exact hname.forall_mem (fun _ hx => hx) (fun _ hx => hx)
    | false => exact hname.forall_mem isWord_of_isLower isWord_of_isSnake
  · -- a roll of dice, whose `d` is a byte of a word as well
    obtain ⟨⟨count, sides, hword, hcount, hsides⟩, -⟩ := h
    intro x hx
    have hmem : x ∈ count ++ byte 'd' :: sides := hword ▸ List.mem_cons_of_mem b hx
    rcases List.mem_append.mp hmem with hx | hx
    · exact hcount.forall_mem isWord_of_isDigit isWord_of_isDigit x hx
    rcases List.mem_cons.mp hx with rfl | hx
    · decide
    · exact hsides.forall_mem isWord_of_isDigit isWord_of_isDigit x hx
  · -- a number, then a variable
    intro x hx
    exact h.1.forall_mem isWord_of_isDigit isWord_of_isDigit x (List.mem_cons_of_mem b hx)
  · intro x hx
    exact h.1.forall_mem isWord_of_isUpper (fun _ => Rule.isWord_of_isLetter) x
      (List.mem_cons_of_mem b hx)
  · -- the reserved words
    rcases h.1 with hword | hword
    · have hw : w = [] := (List.cons.inj hword).2
      simp [hw]
    · have hw : w = ascii "elf" := (List.cons.inj hword).2
      rw [hw]
      decide +kernel

/-- Words and the insides of characters hold no closing mark. -/
theorem not_mark_of_word_or_continuation :
    ∀ x : UInt8, isWord x = true ∨ isContinuation x = true → byte ')' ≠ x ∧ closeBrace ≠ x := by
  decide +kernel

/-- Behind its first byte, a piece of an argument list is a word or the inside
of a character. -/
theorem argsPiece_later (legacy : Bool) (before : Option UInt8) (b : UInt8) (tail : Bytes)
    (h : (argsPiece legacy before b tail).isClose = false) :
    ∀ x ∈ tail.take (argsPiece legacy before b tail).more,
      isWord x = true ∨ isContinuation x = true := by
  cases hp : argsPiece legacy before b tail with
  | close more => simp [hp, Piece.isClose] at h
  | filler => simp [Piece.more]
  | leaf m =>
    have hspelled : Spelled legacy false before (b :: tail.take m.more) (tail.drop m.more) m.kind :=
      argsPiece_spelled hp
    intro x hx
    exact Or.inl (hspelled.tail_isWord ((argsPiece_spec legacy).of_leaf hp).1 x hx)
  | junk more =>
    intro x hx
    obtain ⟨rfl, -⟩ := argsPiece_junk hp
    exact Rule.of_mem_junk hx

/-- Behind its first byte, a piece of a template is a word or the inside of a
character. -/
theorem templatePiece_later (before : Option UInt8) (b : UInt8) (tail : Bytes)
    (h : (templatePiece before b tail).isClose = false) :
    ∀ x ∈ tail.take (templatePiece before b tail).more,
      isWord x = true ∨ isContinuation x = true := by
  cases hp : templatePiece before b tail with
  | close more => simp [hp, Piece.isClose] at h
  | filler => simp [Piece.more]
  | leaf m =>
    have hspelled : Spelled false false before (b :: tail.take m.more) (tail.drop m.more) m.kind :=
      templatePiece_spelled hp
    have hkind : m.kind ∈ argKinds := by
      rw [(templatePiece_leaf hp).2]
      simp [argKinds]
    intro x hx
    exact Or.inl (hspelled.tail_isWord hkind x hx)
  | junk more =>
    intro x hx
    obtain ⟨rfl, -⟩ := templatePiece_junk hp
    exact Rule.of_mem_junk hx

/-- An argument list is closed by a bracket, and by nothing else. -/
theorem argsPiece_isClose (legacy : Bool) (before : Option UInt8) (b : UInt8) (tail : Bytes) :
    argsPiece legacy before b tail = .close 0 ∧ b = byte ')' ∨
      (argsPiece legacy before b tail).isClose = false ∧ b ≠ byte ')' := by
  unfold argsPiece
  split
  · next hb => exact Or.inl ⟨rfl, beq_iff_eq.mp hb⟩
  · next hb =>
    refine Or.inr ⟨?_, by simpa using hb⟩
    split
    · rfl
    · dsimp only
      split <;> rfl

/-- A template is closed by two braces, and by nothing else. -/
theorem templatePiece_isClose (before : Option UInt8) (b : UInt8) (tail : Bytes) :
    templatePiece before b tail = .close 1 ∧ b = closeBrace ∧ tail.head? = some closeBrace ∨
      (templatePiece before b tail).isClose = false ∧
        ¬ (b = closeBrace ∧ tail.head? = some closeBrace) := by
  unfold templatePiece
  split
  · next hb => exact Or.inl ⟨rfl, by simpa using hb⟩
  · next hb =>
    refine Or.inr ⟨?_, by simpa using hb⟩
    split
    · rfl
    · split <;> rfl

/-- The pieces of an argument list never hide its bracket. -/
theorem argsPiece_marks (legacy : Bool) : PieceMarks (argsPiece legacy) (ascii ")") := by
  refine ⟨?_, ?_⟩
  · rintro before b tail _ rfl h
    rcases argsPiece_isClose legacy before b tail with ⟨hp, rfl⟩ | ⟨hp, -⟩
    · rw [hp]
      exact ⟨⟨tail, rfl⟩, rfl⟩
    · simp [hp] at h
  · rintro before b tail _ rfl h
    refine ⟨?_, ?_⟩
    · rcases argsPiece_isClose legacy before b tail with ⟨hp, -⟩ | ⟨-, hb⟩
      · simp [hp, Piece.isClose] at h
      · rintro ⟨rest, hrest⟩
        exact hb (List.cons.inj hrest).1.symm
    · -- behind the first byte of a piece no bracket stands
      intro x hx hmark
      have hne := not_mark_of_word_or_continuation x (argsPiece_later legacy before b tail h x hx)
      exact hne.1 (Option.some.inj hmark)

/-- The pieces of a template never hide its two braces. -/
theorem templatePiece_marks : PieceMarks templatePiece [closeBrace, closeBrace] := by
  refine ⟨?_, ?_⟩
  · rintro before b tail _ rfl h
    rcases templatePiece_isClose before b tail with ⟨hp, rfl, hnext⟩ | ⟨hp, -⟩
    · obtain ⟨rest, rfl⟩ := List.head?_eq_some_iff.mp hnext
      rw [hp]
      exact ⟨⟨rest, rfl⟩, rfl⟩
    · simp [hp] at h
  · rintro before b tail _ rfl h
    refine ⟨?_, ?_⟩
    · rcases templatePiece_isClose before b tail with ⟨hp, -⟩ | ⟨-, hb⟩
      · simp [hp, Piece.isClose] at h
      · rintro ⟨rest, hrest⟩
        obtain ⟨rfl, rfl⟩ := List.cons.inj hrest
        exact hb ⟨rfl, rfl⟩
    · -- behind the first byte of a piece no brace stands
      intro x hx hmark
      have hne := not_mark_of_word_or_continuation x (templatePiece_later before b tail h x hx)
      exact hne.2 (Option.some.inj hmark)

-- ---------------------------------------------------------------------------
-- The inside of a region
-- ---------------------------------------------------------------------------

variable {pieceAt : Option UInt8 → UInt8 → Bytes → Piece} {filler : UInt8 → Bool}
  {kinds : List Kind} {width : Nat} {mark : Bytes} {c : Cursor}

/-- The closing mark of a region that is not cut off. -/
def Body.closing (mark : Bytes) (body : Body) : Bytes := if body.closed then mark else []

/-- One piece in front of an inside that is read already. -/
theorem extent_cons {b : UInt8} {tail inside rest : Bytes} {more : Nat} (hc : c.rest = b :: tail)
    (hfits : more ≤ tail.length) (hfirst : ¬ mark <+: b :: tail)
    (hlater : ∀ x ∈ tail.take more, mark.head? ≠ some x)
    (hrest : (c.advance (more + 1)).rest = inside ++ rest)
    (hinside : Unmarked mark (c.advance (more + 1)).rest inside.length) :
    ∃ inside', c.rest = inside' ++ rest ∧ Unmarked mark c.rest inside'.length := by
  rw [Cursor.rest_advance, hc, List.drop_succ_cons] at hrest hinside
  refine ⟨b :: tail.take more ++ inside, ?_, ?_⟩
  · rw [hc, List.append_assoc, ← hrest, List.cons_append, List.take_append_drop]
  · have hlen : (b :: tail.take more ++ inside).length = more + 1 + inside.length := by
      simp only [List.length_append, List.length_cons, List.length_take]
      omega
    rw [hc, hlen]
    exact (Unmarked.piece hfirst hlater).add hinside

/-- The inside of a region reaches to its first closing mark, or to the end of
the text it is read in. -/
theorem scanBody_extent (hp : PieceSpec pieceAt filler kinds width) (hm : PieceMarks pieceAt mark)
    (c : Cursor) :
    ∃ inside,
      c.rest = inside ++ ((scanBody pieceAt c).closing mark ++ (scanBody pieceAt c).stop.rest) ∧
        Unmarked mark c.rest inside.length := by
  fun_induction scanBody pieceAt c with
  | case1 c h => exact ⟨[], by simp [Body.closing], .zero _ _⟩
  | case2 c b tail h more hpiece =>
    obtain ⟨⟨rest, hrest⟩, hlen⟩ := hm.of_close hpiece rfl
    refine ⟨[], ?_, .zero _ _⟩
    have hdrop : (c.advance (more + 1)).rest = rest := by
      rw [Cursor.rest_advance, h, ← hrest, show more + 1 = mark.length from hlen, List.drop_left]
    simp only [Body.closing, if_true, List.nil_append, hdrop]
    rw [h, hrest]
  | case3 c b tail h hpiece ih =>
    obtain ⟨inside, hrest, hinside⟩ := ih
    obtain ⟨hfirst, hlater⟩ := hm.of_open hpiece rfl
    exact extent_cons h (Nat.zero_le _) hfirst hlater hrest hinside
  | case4 c b tail h m hpiece found body ih =>
    obtain ⟨inside, hrest, hinside⟩ := ih
    obtain ⟨hfirst, hlater⟩ := hm.of_open hpiece rfl
    exact extent_cons h (hp.of_leaf hpiece).2 hfirst hlater hrest hinside
  | case5 c b tail h more hpiece next body ih =>
    obtain ⟨inside, hrest, hinside⟩ := ih
    obtain ⟨hfirst, hlater⟩ := hm.of_open hpiece rfl
    exact extent_cons h (hp.of_junk hpiece).1 hfirst hlater hrest hinside

-- ---------------------------------------------------------------------------
-- Whole regions
-- ---------------------------------------------------------------------------

/-- A region of pieces, from its opening mark on. -/
theorem enclose_extent (hp : PieceSpec pieceAt filler kinds width) (hm : PieceMarks pieceAt mark)
    {opening : Bytes} {n : Nat} (hc : c.rest = opening ++ (c.advance n).rest) :
    ∃ word, c.rest = word ++ (scanBody pieceAt (c.advance n)).stop.rest ∧
      Enclosed opening mark (!(scanBody pieceAt (c.advance n)).closed) word := by
  obtain ⟨inside, hrest, hinside⟩ := scanBody_extent hp hm (c.advance n)
  have hclosing : (scanBody pieceAt (c.advance n)).closing mark =
      if !(scanBody pieceAt (c.advance n)).closed then [] else mark := by
    unfold Body.closing
    cases (scanBody pieceAt (c.advance n)).closed <;> rfl
  rw [hclosing] at hrest
  refine ⟨_, ?_, inside, rfl, hinside.of_prefix ?_⟩
  · rw [hc, hrest]
    simp only [List.append_assoc]
  · rw [hrest, ← List.append_assoc]
    exact List.prefix_append _ _

/-- A template reaches to its first two closing braces, or was cut off. -/
theorem template_extent {tail : Bytes} (hc : c.rest = openBrace :: openBrace :: tail) :
    ∃ word, c.rest = word ++ (template c).stop.rest ∧
      Enclosed [openBrace, openBrace] [closeBrace, closeBrace] (template c).token.unterminated
        word :=
  enclose_extent templatePiece_spec templatePiece_marks (n := 2) (by simp [hc])

/-- An argument list reaches to its first closing bracket, or was cut off. -/
theorem sceneArgs_extent (legacy : Bool) {tail : Bytes} (hc : c.rest = byte '(' :: tail) :
    ∃ word, c.rest = word ++ (sceneArgs legacy c).stop.rest ∧
      Enclosed (ascii "(") (ascii ")") (sceneArgs legacy c).token.unterminated word :=
  enclose_extent (argsPiece_spec legacy) (argsPiece_marks legacy) (n := 1) (by simp [hc]; rfl)

/-- Comments and strings: a mark of two bytes and the rest of the line. -/
theorem lineEnd_extent {x y : UInt8} {tail : Bytes} (hc : c.rest = x :: y :: tail) :
    c.rest = (x :: y :: tail.takeWhile isInLine) ++ ((c.advance 2).skip isInLine).rest ∧
      ToLineEnd [x, y] (x :: y :: tail.takeWhile isInLine)
        ((c.advance 2).skip isInLine).rest := by
  have hadvance : (c.advance 2).rest = tail := by
    rw [Cursor.rest_advance, hc]
    rfl
  have hline := (c.advance 2).newline_notMem_rest_inLine
  rw [Cursor.inLine, hadvance] at hline
  refine ⟨?_, ⟨tail.takeWhile isInLine, rfl, hline⟩, (c.advance 2).head?_rest_skip_inLine⟩
  rw [Cursor.rest_skip, hadvance, hc, List.cons_append, List.cons_append,
    List.takeWhile_append_dropWhile]

end StoryLex
