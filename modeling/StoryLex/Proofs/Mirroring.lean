import StoryLex.Proofs.CutOff
import StoryLex.Proofs.Respelling

/-!
# StoryLex — corresponding places and regions

Two readings side by side, of a text and of the same text with its line ends
respelled. Two places correspond if the bytes behind the one are the bytes
behind the other, respelled (`Cursor.Mirrors`), and two lists of tokens if they
differ in offsets only, apart from the bytes of regions (`Token.Mirrored`).

The readings leave step in one way: a comment or a string ends with its line,
and a template may be cut off there, so that in the respelled text they take the
carriage return in. Nothing in particular is expected after these, so the
carriage return would have been passed over anyway (`Cursor.Resumes`).

* `scanBody_mirrored` — the inside of a template or an argument list. A
  template skips the carriage return of the line that cuts it off; that is one
  more piece of junk, but then the cut is told in both readings.
* `scanString_mirrored` — the inside of a string.
-/

namespace StoryLex

-- ---------------------------------------------------------------------------
-- Offsets
-- ---------------------------------------------------------------------------

/-- Where the byte at `i` comes to lie when the line ends are respelled: every
newline before it has moved it on. -/
def crlfOffset (text : Bytes) (i : Nat) : Nat := i + (text.take i).count newline

/-- A place moves on by the bytes before it and by the newlines among them. -/
theorem crlfOffset_add {text inside : Bytes} {i : Nat} (h : inside <+: text.drop i) :
    crlfOffset text (i + inside.length) =
      crlfOffset text i + (inside.length + inside.count newline) := by
  have htake : text.take (i + inside.length) = text.take i ++ inside := by
    rw [List.take_add, ← List.prefix_iff_eq_take.mp h]
  rw [crlfOffset, htake, List.count_append, crlfOffset]
  omega

/-- The end of the text moves as every place does. -/
theorem length_crlf (text : Bytes) : (crlf text).length = crlfOffset text text.length := by
  rw [crlfOffset, List.take_length]
  induction text with
  | nil => rfl
  | cons b text ih =>
    rw [crlf, List.flatMap_cons, List.length_append, ← crlf, ih, List.count_cons, List.length_cons]
    -- a newline counts for two bytes
    by_cases hb : b = newline
    · simp only [hb, if_true, List.length_cons, List.length_nil, beq_self_eq_true]
      omega
    · simp only [hb, if_false, List.length_cons, List.length_nil, beq_iff_eq]
      omega

namespace Respelled

variable {t t' : Bytes}

/-- The rest of a line ends with the carriage return that was put in. -/
theorem inLine (h : Respelled t t') : Respelled (t.takeWhile isInLine) (t'.takeWhile isInLine) := by
  induction h with
  | nil => exact .nil
  | cut => exact .cut
  | lineEnd rest _ => exact .cut
  | same ne rest ih =>
    have hline : isInLine _ = true := bne_iff_ne.mpr ne
    rw [List.takeWhile_cons_of_pos hline, List.takeWhile_cons_of_pos hline]
    exact .same ne ih

/-- A line takes in the carriage return before its newline, and no byte more. -/
theorem runLength_inLine (h : Respelled t t') :
    runLength isInLine t' = runLength isInLine t ∨
      runLength isInLine t' = runLength isInLine t + 1 ∧
        (t'.drop (runLength isInLine t)).head? = some carriageReturn := by
  induction h with
  | nil => exact Or.inl rfl
  | cut => exact Or.inr ⟨rfl, rfl⟩
  | lineEnd rest _ => exact Or.inr ⟨rfl, rfl⟩
  | same ne rest ih =>
    have hline : isInLine _ = true := bne_iff_ne.mpr ne
    simp only [runLength, List.takeWhile_cons_of_pos hline, List.length_cons,
      List.drop_succ_cons, Nat.add_right_cancel_iff]
    exact ih

end Respelled

-- ---------------------------------------------------------------------------
-- Places
-- ---------------------------------------------------------------------------

namespace Cursor

variable {text : Bytes} {c c' : Cursor}

theorem advance_advance (c : Cursor) (m n : Nat) :
    (c.advance m).advance n = c.advance (m + n) := by
  simp only [advance, List.take_add, List.length_append, List.getLast?_append, List.drop_drop,
    Nat.add_assoc, Option.or_assoc]

theorem rest_advance_one {b : UInt8} {tail : Bytes} (h : c.rest = b :: tail) :
    (c.advance 1).rest = tail := by
  rw [rest_advance, h]
  rfl

/-- The second place corresponds to the first, whose bytes are bytes of `text`. -/
structure Mirrors (text : Bytes) (c c' : Cursor) : Prop where
  lies   : c.rest <+: text.drop c.offset
  offset : c'.offset = crlfOffset text c.offset
  before : c'.before = c.before
  rest   : Respelled c.rest c'.rest

theorem mirrors_start (text : Bytes) : Mirrors text (ofOffset text 0) (ofOffset (crlf text) 0) where
  lies := List.prefix_refl _
  offset := rfl
  before := rfl
  rest := respelled_crlf text

/-- What is left at a later place is bytes of the text there, too. -/
theorem lies_advance (h : c.rest <+: text.drop c.offset) (n : Nat) :
    (c.advance n).rest <+: text.drop (c.advance n).offset := by
  obtain ⟨more, hmore⟩ := h
  have hsplit : text.drop c.offset = c.rest.take n ++ (c.rest.drop n ++ more) := by
    rw [← List.append_assoc, List.take_append_drop, hmore]
  rw [advance, ← List.drop_drop, hsplit, List.drop_left]
  exact List.prefix_append _ _

namespace Mirrors

/-- At the end of the one text, at most a carriage return is left of the
other. -/
theorem of_nil (h : Mirrors text c c') (hc : c.rest = []) :
    c'.rest = [] ∨ c'.rest = [carriageReturn] := by
  have hrest := h.rest
  rw [hc] at hrest
  generalize c'.rest = t' at hrest ⊢
  cases hrest with
  | nil => exact Or.inl rfl
  | cut => exact Or.inr rfl

/-- Both go on with the same byte, or a newline stands here and a carriage
return before it there. -/
theorem of_cons (h : Mirrors text c c') {b : UInt8} {tail : Bytes} (hc : c.rest = b :: tail) :
    ∃ tail', Respelled tail tail' ∧
      (b = newline ∧ c'.rest = carriageReturn :: newline :: tail' ∨
        b ≠ newline ∧ c'.rest = b :: tail') := by
  have hrest := h.rest
  rw [hc] at hrest
  generalize c'.rest = t' at hrest ⊢
  cases hrest with
  | lineEnd rest => exact ⟨_, rest, Or.inl ⟨rfl, rfl⟩⟩
  | same ne rest => exact ⟨_, rest, Or.inr ⟨ne, rfl⟩⟩

/-- Within a line the two places move on together. -/
theorem advance (h : Mirrors text c c') {n : Nat} (hn : n ≤ c.rest.length)
    (hline : newline ∉ c.rest.take n) : Mirrors text (c.advance n) (c'.advance n) := by
  obtain ⟨htake, hdrop⟩ := h.rest.take_drop hn hline
  refine ⟨lies_advance h.lies n, ?_, ?_, hdrop⟩
  · have hmoved := crlfOffset_add ((List.take_prefix n c.rest).trans h.lies)
    rw [List.count_eq_zero.mpr hline, Nat.add_zero, ← h.offset] at hmoved
    rw [Cursor.advance, Cursor.advance, htake, hmoved]
  · rw [Cursor.advance, Cursor.advance, htake, h.before]

/-- Past the first byte and what a rule takes behind it. -/
theorem piece (h : Mirrors text c c') {b : UInt8} {tail : Bytes} (hc : c.rest = b :: tail)
    {more : Nat} (hfits : more ≤ tail.length) (hline : newline ∉ b :: tail.take more) :
    Mirrors text (c.advance (more + 1)) (c'.advance (more + 1)) := by
  refine h.advance (succ_le_length_rest hc hfits) ?_
  rw [hc, List.take_succ_cons]
  exact hline

/-- Past the end of a line. -/
theorem lineEnd (h : Mirrors text c c') {tail tail' : Bytes} (hc : c.rest = newline :: tail)
    (hc' : c'.rest = carriageReturn :: newline :: tail') (htail : Respelled tail tail') :
    Mirrors text (c.advance 1) ((c'.advance 1).advance 1) := by
  rw [advance_advance]
  have hmoved := crlfOffset_add (show [newline] <+: text.drop c.offset from
    (hc ▸ ⟨tail, rfl⟩ : [newline] <+: c.rest).trans h.lies)
  rw [← h.offset] at hmoved
  refine ⟨lies_advance h.lies 1, ?_, ?_, ?_⟩
  · rw [Cursor.advance, Cursor.advance, hc, hc']
    exact hmoved.symm
  · rw [Cursor.advance, Cursor.advance, hc, hc']
    rfl
  · rw [rest_advance, rest_advance, hc, hc']
    exact htail

/-- Both places skip the same run. -/
theorem skip (h : Mirrors text c c') {p : UInt8 → Bool} (hp : Inner p) :
    Mirrors text (c.skip p) (c'.skip p) := by
  rw [Cursor.skip, Cursor.skip, h.rest.runLength_eq hp]
  exact h.advance (runLength_le p c.rest) (newline_notMem_run hp.1 c.rest)

/-- The places correspond in the texts that end with their lines, too. -/
theorem inLine (h : Mirrors text c c') : Mirrors text c.inLine c'.inLine where
  lies := (List.takeWhile_prefix _).trans h.lies
  offset := h.offset
  before := h.before
  rest := h.rest.inLine

end Mirrors

/-- Reading goes on alike from two places, as far as the given expectation is
concerned: they correspond, or else the second reading has passed the carriage
return of a line's end already. -/
inductive Resumes (text : Bytes) : Expectation → Cursor → Cursor → Prop where
  | level {e : Expectation} {c c' : Cursor} (mirrors : Mirrors text c c') : Resumes text e c c'
  | ahead {c d : Cursor} (mirrors : Mirrors text c d)
      (passed : d.rest.head? = some carriageReturn) : Resumes text .none c (d.advance 1)

/-- At the end of its line the second place may have passed a carriage
return. -/
theorem Mirrors.skipLine (h : Mirrors text c c') :
    Resumes text .none (c.skip isInLine) (c'.skip isInLine) := by
  -- the place before the carriage return, should there be one
  have hlevel : Mirrors text (c.skip isInLine) (c'.advance (runLength isInLine c.rest)) :=
    h.advance (runLength_le _ _) (newline_notMem_run (by decide) c.rest)
  have hskip : c'.skip isInLine = c'.advance (runLength isInLine c'.rest) := rfl
  rcases h.rest.runLength_inLine with hrun | ⟨hrun, hhead⟩
  · rw [hskip, hrun]
    exact .level hlevel
  · rw [hskip, hrun, ← advance_advance]
    exact .ahead hlevel hhead

end Cursor

-- ---------------------------------------------------------------------------
-- Tokens
-- ---------------------------------------------------------------------------

namespace Token

/-- The tokens correspond one by one, nested tokens included: the same kinds
and flags, starts that `place` takes to each other and, but for regions, the
same bytes. -/
inductive Mirrored (place : Nat → Nat) : List Token → List Token → Prop where
  | nil : Mirrored place [] []
  | cons {t t' : Token} {ts ts' : List Token}
      (kind : t'.kind = t.kind)
      (unterminated : t'.unterminated = t.unterminated)
      (start : t'.span.start = place t.span.start)
      (lexeme : t.kind.isRegion = false → t'.lexeme = t.lexeme)
      (nested : Mirrored place t.nested t'.nested)
      (rest : Mirrored place ts ts') : Mirrored place (t :: ts) (t' :: ts')

namespace Mirrored

variable {place : Nat → Nat} {ts ts' us us' : List Token}

/-- Two regions correspond when their starts and all tokens inside them do. -/
theorem region {t t' : Token} (hregion : t.kind.isRegion = true) (kind : t'.kind = t.kind)
    (unterminated : t'.unterminated = t.unterminated) (start : t'.span.start = place t.span.start)
    (nested : Mirrored place t.nested t'.nested) : Mirrored place [t] [t'] := by
  refine .cons kind unterminated start ?_ nested .nil
  intro hleaf
  rw [hregion] at hleaf
  cases hleaf

theorem append (h : Mirrored place ts ts') (h' : Mirrored place us us') :
    Mirrored place (ts ++ us) (ts' ++ us') := by
  induction h with
  | nil => exact h'
  | cons kind unterminated start lexeme nested _ _ ih =>
    exact .cons kind unterminated start lexeme nested ih

/-- Behind corresponding tokens the same is expected. -/
theorem elim_after {o o' : Option Token} (h : Mirrored place o.toList o'.toList) :
    o'.elim .none (Expectation.after ·.kind) = o.elim .none (Expectation.after ·.kind) := by
  cases o with
  | none => cases o' with
    | none => rfl
    | some t' => cases h
  | some t => cases o' with
    | none => cases h
    | some t' =>
      cases h with
      | cons kind => exact congrArg Expectation.after kind

/-- As many of the tokens were cut off in both readings. -/
theorem length_cutOffs (h : Mirrored place ts ts') :
    (cutOffs ts').length = (cutOffs ts).length := by
  induction h with
  | nil => rfl
  | cons kind unterminated start lexeme nested rest ihNested ih =>
    rw [cutOffs_cons, cutOffs_cons, unterminated]
    simp only [List.length_append, ihNested, ih]
    split <;> rfl

end Mirrored

end Token

/-- Two tokens that were found correspond, with a fault in the one exactly if
there is a fault in the other, and reading goes on alike behind them. -/
structure Found.Mirrored (text : Bytes) (found found' : Found) : Prop where
  token  : Token.Mirrored (crlfOffset text) [found.token] [found'.token]
  faults : found.faults = [] ↔ found'.faults = []
  stop   : Cursor.Resumes text (.after found.token.kind) found.stop found'.stop

/-- Two insides of regions correspond. Faults are compared only if the region
is closed: one that is cut off has a fault in any case. -/
structure Body.Mirrored (text : Bytes) (body body' : Body) : Prop where
  tokens : Token.Mirrored (crlfOffset text) body.tokens body'.tokens
  closed : body'.closed = body.closed
  faults : body.closed = true → (body.faults = [] ↔ body'.faults = [])
  stop   : Cursor.Resumes text .none body.stop body'.stop

-- ---------------------------------------------------------------------------
-- Tokens and regions at corresponding places
-- ---------------------------------------------------------------------------

section Regions

variable {text : Bytes} {legacy : Bool} {c c' : Cursor} {b : UInt8} {tail tail' : Bytes}
  {pieceAt : Option UInt8 → UInt8 → Bytes → Piece}

open Cursor (Mirrors Resumes)

/-- A match within a line gives corresponding tokens. -/
theorem Match.found_mirrored {m : Match} (h : Mirrors text c c') (hc : c.rest = b :: tail)
    (hfits : m.more ≤ tail.length) (hline : newline ∉ b :: tail.take m.more) :
    Found.Mirrored text (m.found c) (m.found c') := by
  have hstop := h.piece hc hfits hline
  have hle : m.more + 1 ≤ c.rest.length := Cursor.succ_le_length_rest hc hfits
  have hline' : newline ∉ c.rest.take (m.more + 1) := by
    rw [hc, List.take_succ_cons]
    exact hline
  -- within the line the bytes are the same
  have htake := (h.rest.take_drop hle hline').1
  refine ⟨.cons rfl rfl h.offset (fun _ => ?_) .nil .nil, Iff.rfl, .level hstop⟩
  show c'.rest.take ((c'.advance (m.more + 1)).offset - c'.offset) =
    c.rest.take ((c.advance (m.more + 1)).offset - c.offset)
  rw [Cursor.offset_advance hle, Cursor.advance, htake, List.length_take_of_le hle]
  simpa using htake

/-- Away from line ends a region takes no newline in one piece. -/
theorem PieceBlind.newline_notMem (hp : PieceBlind pieceAt) (hb : b ≠ newline)
    (before : Option UInt8) (tail : Bytes) :
    newline ∉ b :: tail.take (pieceAt before b tail).more := by
  rw [List.mem_cons, not_or]
  exact ⟨hb.symm, hp.inLine before b tail⟩

/-- Away from line ends a region takes corresponding places for the same. -/
theorem PieceBlind.same (hp : PieceBlind pieceAt) (h : Mirrors text c c') (hc : c.rest = b :: tail)
    (hb : b ≠ newline) :
    ∃ tail', c'.rest = b :: tail' ∧ pieceAt c'.before b tail' = pieceAt c.before b tail ∧
      Mirrors text (c.advance ((pieceAt c.before b tail).more + 1))
        (c'.advance ((pieceAt c.before b tail).more + 1)) := by
  obtain ⟨tail', htail, ⟨hnewline, -⟩ | ⟨-, hrest⟩⟩ := h.of_cons hc
  · exact absurd hnewline hb
  · refine ⟨tail', hrest, ?_, h.piece hc (hp.fits _ _ _) (hp.newline_notMem hb _ _)⟩
    rw [hp.respelled htail, h.before]

/-- The carriage return that is left over at the end of a line is in no token
and closes nothing. -/
theorem scanBody_cut (hp : PieceBlind pieceAt) (hc : c.rest = [carriageReturn]) :
    (scanBody pieceAt c).tokens = [] ∧ (scanBody pieceAt c).closed = false ∧
      (scanBody pieceAt c).stop = c.advance 1 := by
  have hend : (c.advance 1).rest = [] := Cursor.rest_advance_one hc
  rw [scanBody_eq hc]
  rcases hp.cut c.before with hpiece | hpiece
  · rw [hpiece]
    simp only [scanBody_of_rest_eq_nil hend, and_self]
  · rw [hpiece]
    simp only [Nat.zero_add, scanBody_of_rest_eq_nil hend, and_self]

/-- Line ends are filler. -/
def FillsLineEnds (pieceAt : Option UInt8 → UInt8 → Bytes → Piece) : Prop :=
  ∀ before tail, pieceAt before newline tail = .filler ∧
    pieceAt before carriageReturn tail = .filler

/-- The inside of a region in which line ends are filler or do not occur. -/
theorem scanBody_mirrored (hp : PieceBlind pieceAt) (c c' : Cursor) (h : Mirrors text c c')
    (hends : newline ∈ c.rest → FillsLineEnds pieceAt) :
    Body.Mirrored text (scanBody pieceAt c) (scanBody pieceAt c') := by
  -- no piece but filler starts with a newline, so the case is split on newlines there alone
  have hne : ∀ {c : Cursor} {b : UInt8} {tail : Bytes},
      (newline ∈ c.rest → FillsLineEnds pieceAt) → c.rest = b :: tail →
        pieceAt c.before b tail ≠ .filler → b ≠ newline := by
    rintro c b tail hends hc hpiece rfl
    exact hpiece (hends (by simp [hc]) _ _).1
  have hlater : ∀ {c : Cursor} (n : Nat), (newline ∈ c.rest → FillsLineEnds pieceAt) →
      newline ∈ (c.advance n).rest → FillsLineEnds pieceAt :=
    fun n hends hmem => hends (List.mem_of_mem_drop hmem)
  fun_induction scanBody pieceAt c generalizing c' with
  | case1 c hc =>
    rcases h.of_nil hc with hrest | hrest
    · rw [scanBody_of_rest_eq_nil hrest]
      exact ⟨.nil, rfl, fun _ => Iff.rfl, .level h⟩
    · -- the first reading is at its end, the other one before a carriage return
      obtain ⟨htokens, hclosed, hstop⟩ := scanBody_cut hp hrest
      refine ⟨?_, hclosed, by simp, ?_⟩
      · rw [htokens]
        exact .nil
      · rw [hstop]
        exact .ahead h (by rw [hrest]; rfl)
  | case2 c b tail hc more hpiece =>
    obtain ⟨tail', hrest, hpiece', hnext⟩ := hp.same h hc (hne hends hc (by simp [hpiece]))
    rw [hpiece] at hpiece' hnext
    rw [scanBody_eq hrest, hpiece']
    exact ⟨.nil, rfl, fun _ => Iff.rfl, .level hnext⟩
  | case3 c b tail hc hpiece ih =>
    by_cases hb : b = newline
    · -- the carriage return is filler, and then the newline is
      subst hb
      obtain ⟨tail', htail, ⟨-, hrest⟩ | ⟨hb, -⟩⟩ := h.of_cons hc
      · have hfills := hends (by simp [hc])
        rw [scanBody_eq hrest, (hfills _ _).2, scanBody_eq (Cursor.rest_advance_one hrest),
          (hfills _ _).1]
        exact ih _ (h.lineEnd hc hrest htail) (hlater 1 hends)
      · exact absurd rfl hb
    · obtain ⟨tail', hrest, hpiece', hnext⟩ := hp.same h hc hb
      rw [hpiece] at hpiece' hnext
      rw [scanBody_eq hrest, hpiece']
      exact ih _ hnext (hlater 1 hends)
  | case4 c b tail hc m hpiece found body ih =>
    have hb := hne hends hc (by simp [hpiece])
    obtain ⟨tail', hrest, hpiece', hnext⟩ := hp.same h hc hb
    have hfits := hp.fits c.before b tail
    have hline := hp.newline_notMem hb c.before tail
    rw [hpiece] at hpiece' hnext hfits hline
    obtain ⟨htokens, hclosed, hfaults, hstop⟩ := ih _ hnext (hlater _ hends)
    have hfound := Match.found_mirrored h hc hfits hline
    rw [scanBody_eq hrest, hpiece']
    exact ⟨hfound.token.append htokens, hclosed, hfaults, hstop⟩
  | case5 c b tail hc more hpiece next body ih =>
    obtain ⟨tail', hrest, hpiece', hnext⟩ := hp.same h hc (hne hends hc (by simp [hpiece]))
    rw [hpiece] at hpiece' hnext
    obtain ⟨htokens, hclosed, -, hstop⟩ := ih _ hnext (hlater _ hends)
    rw [scanBody_eq hrest, hpiece']
    exact ⟨htokens, hclosed, fun _ => by simp, hstop⟩

/-- Corresponding insides make corresponding regions. -/
theorem Body.Mirrored.enclose {body body' : Body} (hbody : Body.Mirrored text body body')
    (h : Mirrors text c c') {kind : Kind} (hregion : kind.isRegion = true)
    (hafter : Expectation.after kind = .none) :
    Found.Mirrored text (body.enclose c kind) (body'.enclose c' kind) := by
  refine ⟨.region hregion rfl ?_ h.offset hbody.tokens, ?_, ?_⟩
  · show (!body'.closed) = !body.closed
    rw [hbody.closed]
  · -- cut off, both have a fault; closed, the faults are those inside
    simp only [Body.enclose, hbody.closed]
    cases hclosed : body.closed with
    | true => simpa using hbody.faults hclosed
    | false => simp
  · show Resumes text (.after kind) _ _
    rw [hafter]
    exact hbody.stop

/-- Argument lists are read alike, and line ends inside them are filler. -/
theorem sceneArgs_mirrored (legacy : Bool) (h : Mirrors text c c')
    (hc : c.rest = byte '(' :: tail) :
    Found.Mirrored text (sceneArgs legacy c) (sceneArgs legacy c') := by
  have hinside : Mirrors text (c.advance 1) (c'.advance 1) :=
    h.piece hc (Nat.zero_le _) (by rw [List.take_zero]; decide)
  have hfills : FillsLineEnds (argsPiece legacy) := fun _ _ => ⟨rfl, rfl⟩
  have hbody := scanBody_mirrored (argsPiece_blind legacy) _ _ hinside fun _ => hfills
  exact hbody.enclose h rfl rfl

/-- Two bytes that are no line's end open a region at both places. -/
theorem Cursor.Mirrors.advance_two {x y : UInt8} (h : Mirrors text c c')
    (hc : c.rest = x :: y :: tail) (hx : newline ≠ x) (hy : newline ≠ y) :
    Mirrors text (c.advance 2) (c'.advance 2) := by
  refine h.advance (by simp [hc]) ?_
  simp [hc, hx, hy]

/-- Templates are read alike, in a text without newlines. -/
theorem template_mirrored (h : Mirrors text c c') (hc : c.rest = openBrace :: openBrace :: tail)
    (hline : newline ∉ c.rest) : Found.Mirrored text (template c) (template c') := by
  have hinside := h.advance_two hc (by decide) (by decide)
  have hbody := scanBody_mirrored templatePiece_blind _ _ hinside fun hmem =>
    absurd (List.mem_of_mem_drop hmem) hline
  exact hbody.enclose h rfl rfl

/-- A string passes a carriage return over. -/
theorem Cursor.Resumes.scanString_eq (h : Resumes text .none c c') :
    ∃ d, Mirrors text c d ∧ scanString c' = scanString d := by
  cases h with
  | level mirrors => exact ⟨c', mirrors, rfl⟩
  | @ahead c d mirrors passed =>
    obtain ⟨tail, hd⟩ := List.head?_eq_some_iff.mp passed
    exact ⟨d, mirrors, by rw [StoryLex.scanString_eq hd]; rfl⟩

/-- The inside of a string, in the text that ends with its line. -/
theorem scanString_mirrored (c c' : Cursor) (h : Resumes text .none c c')
    (hline : newline ∉ c.rest) :
    Token.Mirrored (crlfOffset text) (scanString c).tokens (scanString c').tokens ∧
      ((scanString c).faults = [] ↔ (scanString c').faults = []) := by
  fun_induction scanString c generalizing c' with
  | case1 c hc =>
    obtain ⟨d, hd, hskip⟩ := h.scanString_eq
    rw [hskip]
    rcases hd.of_nil hc with hrest | hrest
    · rw [scanString_of_rest_eq_nil hrest]
      exact ⟨.nil, Iff.rfl⟩
    · rw [scanString_eq hrest, if_neg (by decide),
        scanString_of_rest_eq_nil (Cursor.rest_advance_one hrest)]
      exact ⟨.nil, Iff.rfl⟩
  | case2 c b tail hc hopen found body ih =>
    obtain ⟨d, hd, hskip⟩ := h.scanString_eq
    obtain ⟨rfl, rest, rfl⟩ := front_of_mark hopen
    obtain ⟨tail', htail, ⟨hb, -⟩ | ⟨-, hrest⟩⟩ := hd.of_cons hc
    · cases hb
    have hfound := template_mirrored hd hc hline
    obtain ⟨word, hword, -⟩ := template_extent hc
    -- behind the template the line goes on
    have hbehind : newline ∉ (template c).stop.rest := by
      rw [hword, List.mem_append, not_or] at hline
      exact hline.2
    obtain ⟨htokens, hfaults⟩ := ih _ hfound.stop hbehind
    rw [hskip, scanString_eq hrest]
    simp only [htail.head?_eq_iff (by decide : Inner (· == openBrace))]
    rw [if_pos hopen]
    refine ⟨hfound.token.append htokens, ?_⟩
    rw [List.append_eq_nil_iff, List.append_eq_nil_iff, hfound.faults, hfaults]
  | case3 c b tail hc hopen ih =>
    obtain ⟨d, hd, hskip⟩ := h.scanString_eq
    obtain ⟨tail', htail, ⟨hb, -⟩ | ⟨hb, hrest⟩⟩ := hd.of_cons hc
    · exact absurd (hb ▸ hc ▸ List.mem_cons_self) hline
    have hnext := hd.piece hc (Nat.zero_le _) (by simpa using hb.symm)
    rw [hskip, scanString_eq hrest]
    simp only [htail.head?_eq_iff (by decide : Inner (· == openBrace))]
    rw [if_neg hopen]
    exact ih _ (.level hnext) fun hmem => hline (List.mem_of_mem_drop hmem)

/-- String lines are read alike, and both end with their line. -/
theorem string_mirrored (h : Mirrors text c c') (hc : c.rest = byte '>' :: byte ' ' :: tail) :
    Found.Mirrored text (string c) (string c') := by
  have hinside := h.advance_two hc (by decide) (by decide)
  obtain ⟨htokens, hfaults⟩ := scanString_mirrored _ _ (.level hinside.inLine)
    (c.advance 2).newline_notMem_rest_inLine
  refine ⟨.region rfl rfl ?_ h.offset htokens, ?_, hinside.skipLine⟩
  · -- a string line is never cut off
    show (!(scanString _).closed) = !(scanString _).closed
    rw [scanString_closed, scanString_closed]
  · rw [string_faults, string_faults]
    exact hfaults

/-- Comments are read alike, and both end with their line. -/
theorem comment_mirrored (h : Mirrors text c c') (hc : c.rest = byte '-' :: byte '-' :: tail) :
    Found.Mirrored text (comment c) (comment c') :=
  ⟨.region rfl rfl rfl h.offset .nil, Iff.rfl,
    (h.advance_two hc (by decide) (by decide)).skipLine⟩

end Regions

end StoryLex
