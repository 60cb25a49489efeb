import StoryLex.Proofs.Display
import StoryLex.Proofs.Recognition
import StoryLex.Proofs.Schedule

/-!
# StoryLex — the order of diagnostics

Diagnostics come in the order in which reading meets what they tell: none ends
before the one in front of it, and no two stretches of skipped input overlap or
even touch, whatever is told between them (`session_diagnostics`).

**One call.** What a call meets is a row (`Diagnostic.Row`): pieces of skipped
input, one behind the other, and at the very end perhaps a region that was cut
off where the call stops (`scanToken_row`). So nothing is ever told between two
pieces that touch, and joining neighbours joins all of them
(`Diagnostic.Row.coalesce`).

**All calls.** What was told before ends behind the lexer and what a call tells
starts ahead of it, so rows are put one behind the other (`Lexer.InOrder.next`).

**Where.** That a diagnostic shares no byte with most tokens is read off the
account of skipped bytes, and that it holds no newline off its pieces.
-/

namespace StoryLex

namespace Diagnostic

-- ---------------------------------------------------------------------------
-- Rows
-- ---------------------------------------------------------------------------

/-- What is met from `lo` on and up to `hi`: skipped pieces with a gap of at
least `gap` bytes between them, and perhaps, last of all, a region that was cut
off at `hi`. -/
inductive Row (gap hi : Nat) : Nat → List Diagnostic → Prop where
  | nil {lo : Nat} : Row gap hi lo []
  | cutOff {lo start : Nat} {kind : Kind} (start_lt : start < hi) :
      Row gap hi lo [.unterminated kind ⟨start, hi⟩]
  | skipped {lo : Nat} {span : Span} {ds : List Diagnostic}
      (start : lo ≤ span.start)
      (nonempty : span.start < span.stop)
      (stop : span.stop ≤ hi)
      (rest : Row gap hi (span.stop + gap) ds) : Row gap hi lo (.unrecognized span :: ds)

namespace Row

variable {gap lo hi : Nat} {ds : List Diagnostic}

theorem mono (h : Row gap hi lo ds) {lo' : Nat} (hle : lo' ≤ lo) : Row gap hi lo' ds := by
  cases h with
  | nil => exact .nil
  | cutOff start_lt => exact .cutOff start_lt
  | skipped start nonempty stop rest => exact .skipped (hle.trans start) nonempty stop rest

/-- Leaving some of it out leaves a row. -/
theorem filter (h : Row 0 hi lo ds) (p : Diagnostic → Bool) : Row 0 hi lo (ds.filter p) := by
  induction h with
  | nil => exact .nil
  | @cutOff lo start kind start_lt =>
    rw [List.filter_cons]
    split
    · exact .cutOff start_lt
    · exact .nil
  | @skipped lo span ds start nonempty stop rest ih =>
    rw [List.filter_cons]
    split
    · exact .skipped start nonempty stop ih
    · exact ih.mono (by omega)

/-- Joined where they touch, the pieces of a row are apart. -/
theorem coalesce (h : Row 0 hi lo ds) : Row 1 hi lo (coalesce ds) := by
  induction h with
  | nil => exact .nil
  | cutOff start_lt => exact .cutOff start_lt
  | @skipped lo span ds start nonempty stop rest ih =>
    show Row 1 hi lo (join (unrecognized span) (Diagnostic.coalesce ds))
    generalize Diagnostic.coalesce ds = es at ih
    cases ih with
    | nil => exact .skipped start nonempty stop .nil
    | cutOff start_lt =>
      -- skipped input never goes on with a region that was cut off
      have hapart : ∀ {kind : Kind} {s : Span},
          ¬ Continues (unrecognized span) (unterminated kind s) := fun hc => nomatch hc.2.1
      rw [join, if_neg hapart]
      exact .skipped start nonempty stop (.cutOff start_lt)
    | @skipped _ span' es start' nonempty' stop' rest' =>
      rw [join]
      split
      · next hc =>
        -- two pieces that touch become one, which ends where the second did
        have htouch : span.stop = span'.start := hc.2.2
        have hstart : lo ≤ (Span.mk span.start span'.stop).start := start
        refine .skipped hstart ?_ stop' rest'
        show span.start < span'.stop
        omega
      · next hc =>
        have hne : span.stop ≠ span'.start := fun htouch => hc ⟨rfl, rfl, htouch⟩
        exact .skipped start nonempty stop (.skipped (by omega) nonempty' stop' rest')

-- ---------------------------------------------------------------------------
-- Reading a row
-- ---------------------------------------------------------------------------

variable {d : Diagnostic}

/-- Every diagnostic of a row covers bytes in front of the row's end. -/
theorem span_lt (h : Row gap hi lo ds) (hd : d ∈ ds) :
    d.span.start < d.span.stop ∧ d.span.stop ≤ hi := by
  induction h with
  | nil => simp at hd
  | cutOff start_lt =>
    rw [List.mem_singleton.mp hd]
    exact ⟨start_lt, le_rfl⟩
  | skipped start nonempty stop rest ih =>
    rcases List.mem_cons.mp hd with rfl | hd
    · exact ⟨nonempty, stop⟩
    · exact ih hd

/-- Skipped input in a row starts behind the row's beginning. -/
theorem le_start (h : Row gap hi lo ds) (hd : d ∈ ds) (hfault : d.fault = .unrecognized) :
    lo ≤ d.span.start := by
  induction h with
  | nil => simp at hd
  | cutOff start_lt =>
    rw [List.mem_singleton.mp hd] at hfault
    cases hfault
  | skipped start nonempty stop rest ih =>
    rcases List.mem_cons.mp hd with rfl | hd
    · exact start
    · have := ih hd
      omega

/-- Nothing in a row ends before its beginning. -/
theorem le_stop (h : Row gap hi lo ds) {n : Nat} (hlo : n ≤ lo) (hhi : n ≤ hi) (hd : d ∈ ds) :
    n ≤ d.span.stop := by
  induction h with
  | nil => simp at hd
  | cutOff start_lt =>
    rw [List.mem_singleton.mp hd]
    exact hhi
  | @skipped lo span ds start nonempty stop rest ih =>
    rcases List.mem_cons.mp hd with rfl | hd
    · show n ≤ span.stop
      omega
    · exact ih (by omega) hd

/-- The diagnostics of a row end one after the other. -/
theorem ends (h : Row gap hi lo ds) : ds.Pairwise fun d e => d.span.stop ≤ e.span.stop := by
  induction h with
  | nil => exact .nil
  | cutOff start_lt => exact List.pairwise_singleton _ _
  | skipped start nonempty stop rest ih =>
    refine .cons ?_ ih
    intro e he
    exact rest.le_stop (Nat.le_add_right _ _) stop he

/-- In a joined row no two stretches of skipped input touch. -/
theorem apart (h : Row 1 hi lo ds) :
    ds.Pairwise fun d e => d.fault = .unrecognized → e.fault = .unrecognized →
      d.span.stop < e.span.start := by
  induction h with
  | nil => exact .nil
  | cutOff start_lt => exact List.pairwise_singleton _ _
  | skipped start nonempty stop rest ih =>
    refine .cons ?_ ih
    intro e he _ hfault
    exact rest.le_start he hfault

end Row

end Diagnostic

open Diagnostic (Row)

-- ---------------------------------------------------------------------------
-- Regions
-- ---------------------------------------------------------------------------

variable {text : Bytes} {legacy : Bool} {e : Expectation} {c : Cursor} {found : Found}
  {pieceAt : Option UInt8 → UInt8 → Bytes → Piece} {filler : UInt8 → Bool} {kinds : List Kind}
  {width hi : Nat} {ds : List Diagnostic}

/-- The inside of a region, with a row behind it. -/
theorem scanBody_row (hp : PieceSpec pieceAt filler kinds width) (hc : c.In text)
    (hhi : (scanBody pieceAt c).innerStop width ≤ hi)
    (hrest : Row 0 hi ((scanBody pieceAt c).innerStop width) ds) :
    Row 0 hi c.offset ((scanBody pieceAt c).faults ++ ds) := by
  have hle := (scanBody_accounts hp hc).le
  fun_induction scanBody pieceAt c with
  | case1 c h => exact hrest
  | case2 c b tail h more hpiece => exact hrest.mono hle
  | case3 c b tail h hpiece ih =>
    have hnext := hc.advance 1
    exact (ih hnext hhi hrest (scanBody_accounts hp hnext).le).mono (c.offset_le_advance 1)
  | case4 c b tail h m hpiece found body ih =>
    have hnext := hc.advance (m.more + 1)
    exact (ih hnext hhi hrest (scanBody_accounts hp hnext).le).mono (c.offset_le_advance _)
  | case5 c b tail h more hpiece next body ih =>
    -- the skipped piece goes in front of the row of the rest
    have hnext : next.In text := hc.advance (more + 1)
    have hinner := (scanBody_accounts hp hnext).le
    have hstart : c.offset ≤ (c.spanTo next).start := le_rfl
    exact .skipped hstart (c.offset_lt_advance (by simp [h]) more)
      (hinner.trans hhi) (ih hnext hhi hrest hinner)

/-- A region that is closed leaves room for a row behind it; one that was cut
off is the last that is met. -/
theorem enclose_row (hp : PieceSpec pieceAt filler kinds width) {n : Nat} (hc : c.In text)
    (hne : c.rest ≠ []) (kind : Kind)
    (hhi : (scanBody pieceAt (c.advance (n + 1))).stop.offset ≤ hi)
    (hrest : if (scanBody pieceAt (c.advance (n + 1))).closed then
        Row 0 hi (scanBody pieceAt (c.advance (n + 1))).stop.offset ds
      else ds = [] ∧ hi = (scanBody pieceAt (c.advance (n + 1))).stop.offset) :
    Row 0 hi c.offset
      (((scanBody pieceAt (c.advance (n + 1))).enclose c kind).faults ++ ds) := by
  have hnext := hc.advance (n + 1)
  have hlaid := scanBody_laid hp hnext
  have hstart := c.offset_lt_advance hne n
  have hinner : (scanBody pieceAt (c.advance (n + 1))).innerStop width ≤
      (scanBody pieceAt (c.advance (n + 1))).stop.offset := Nat.sub_le _ _
  show Row 0 hi c.offset ((_ ++ if _ then [] else _) ++ ds)
  rw [List.append_assoc]
  refine (scanBody_row hp hnext (hinner.trans hhi) ?_).mono hstart.le
  cases hclosed : (scanBody pieceAt (c.advance (n + 1))).closed with
  | true =>
    rw [hclosed, if_pos rfl] at hrest
    exact hrest.mono hinner
  | false =>
    rw [hclosed, if_neg (by simp)] at hrest
    -- the region itself is told last, and ends the row
    obtain ⟨rfl, rfl⟩ := hrest
    exact .cutOff (lt_of_lt_of_le hstart hlaid.le)

/-- What is met inside a string is a row, for a template is only cut off where
the line ends. -/
theorem scanString_row (hc : c.In text) :
    Row 0 (scanString c).stop.offset c.offset (scanString c).faults := by
  fun_induction scanString c with
  | case1 c h => exact .nil
  | case2 c b tail h hopen found body ih =>
    have hlaid := scanBody_laid templatePiece_spec (hc.advance 2)
    have hstop := hlaid.stop_in
    refine enclose_row templatePiece_spec (n := 1) hc (by simp [h]) .template
      (scanString_accounts hstop).le ?_
    cases hclosed : (scanBody templatePiece (c.advance 2)).closed with
    | true => exact ih hstop
    | false =>
      -- nothing is left of the line
      have hend : body =
          { tokens := [], faults := [], stop := (template c).stop, closed := true } :=
        scanString_of_rest_eq_nil (hlaid.cut_off hclosed)
      show body.faults = [] ∧ body.stop.offset = (template c).stop.offset
      rw [hend]
      exact ⟨rfl, rfl⟩
  | case3 c b tail h hopen ih => exact (ih (hc.advance 1)).mono (c.offset_le_advance 1)

/-- What is met inside a token is a row that ends with the token. -/
theorem FoundAt.row (hc : c.In text) (h : FoundAt legacy c found) :
    Row 0 found.stop.offset c.offset found.faults := by
  cases h with
  | leaf rest => exact .nil
  | comment rest => exact .nil
  | string rest =>
    -- a string is read in its line, and ends where that does
    have hrow := scanString_row (hc.advance 2).inLine
    rw [(scanString_inLine (hc.advance 2)).1] at hrow
    rw [string_faults]
    exact hrow.mono (c.offset_le_advance 2)
  | sceneArgs rest =>
    have hrow : Row 0 (StoryLex.sceneArgs legacy c).stop.offset c.offset
        ((StoryLex.sceneArgs legacy c).faults ++ []) := by
      refine enclose_row (argsPiece_spec legacy) (n := 0) hc (by simp [rest]) .sceneArgs le_rfl ?_
      split
      · exact .nil
      · exact ⟨rfl, rfl⟩
    rwa [List.append_nil] at hrow

-- ---------------------------------------------------------------------------
-- One call
-- ---------------------------------------------------------------------------

/-- What the general search meets is a row up to where it stops. -/
theorem scanGeneral_row (legacy : Bool) (hc : c.In text) :
    Row 0 (scanGeneral legacy c).stop.offset c.offset (scanGeneral legacy c).faults := by
  fun_induction scanGeneral legacy c with
  | case1 c h => exact .nil
  | case2 c b tail h hspace ih => exact (ih (hc.advance 1)).mono (c.offset_le_advance 1)
  | case3 c b tail h hspace found hgen => exact (general?_foundAt hgen).row hc
  | case4 c b tail h hspace hgen next step ih =>
    have hnext : next.In text := hc.advance _
    have hstart : c.offset ≤ (c.spanTo next).start := le_rfl
    exact .skipped hstart (c.offset_lt_advance (by simp [h]) _)
      (scanGeneral_accounts legacy hnext).le (ih hnext)

/-- What the search for the next token meets is a row up to where it stops. -/
theorem scanToken_row (legacy : Bool) (e : Expectation) (hc : c.In text) :
    Row 0 (scanToken legacy e c).stop.offset c.offset (scanToken legacy e c).faults := by
  unfold scanToken
  split
  · next found hexp =>
    exact ((expected?_foundAt hexp).row (e.place_in hc)).mono (e.offset_le_place c)
  · exact scanGeneral_row legacy hc

namespace Lexer

variable {l : Lexer}

/-- What one call meets is a row from where the lexer stood to where it comes to
stand. -/
theorem met_row (hl : l.cursor.In text) : Row 0 l.next.2.position l.position l.met :=
  (scanToken_row l.options.legacyIdentifiers l.expectation hl).filter _

theorem position_le_next (hl : l.cursor.In text) : l.position ≤ l.next.2.position :=
  (scanToken_accounts l.options.legacyIdentifiers l.expectation hl).le

-- ---------------------------------------------------------------------------
-- All calls
-- ---------------------------------------------------------------------------

/-- What a lexer has told lies behind it, in order, with skipped input apart. -/
structure InOrder (l : Lexer) : Prop where
  spans : ∀ d ∈ l.diagnostics, d.span.start < d.span.stop ∧ d.span.stop ≤ l.position
  ends  : l.diagnostics.Pairwise fun d e => d.span.stop ≤ e.span.stop
  apart : l.diagnostics.Pairwise fun d e =>
            d.fault = .unrecognized → e.fault = .unrecognized → d.span.stop < e.span.start

/-- One call keeps what was told in order. -/
theorem InOrder.next (hl : l.cursor.In text) (hbehind : l.Behind) (h : l.InOrder) :
    l.next.2.InOrder := by
  have hrow := (met_row hl).coalesce
  have hmoved := position_le_next hl
  -- no new entry goes on with an old one
  have hnew : ∀ d ∈ l.diagnostics, ∀ e ∈ Diagnostic.coalesce l.met,
      ¬ Diagnostic.Continues d e := by
    obtain ⟨more, hmore, hnew⟩ := after_told hl hbehind [.next]
    obtain rfl : Diagnostic.coalesce l.met = more := List.append_cancel_left hmore
    exact hnew
  refine ⟨?_, ?_, ?_⟩ <;> rw [next_diagnostics]
  · intro d hd
    rcases List.mem_append.mp hd with hd | hd
    · exact ⟨(h.spans d hd).1, (h.spans d hd).2.trans hmoved⟩
    · exact hrow.span_lt hd
  · refine List.pairwise_append.mpr ⟨h.ends, hrow.ends, ?_⟩
    intro d hd e he
    exact (h.spans d hd).2.trans (hrow.le_stop le_rfl hmoved he)
  · refine List.pairwise_append.mpr ⟨h.apart, hrow.apart, ?_⟩
    intro d hd e he hfault hfault'
    -- all that was told ends behind the lexer, and the new skipped input starts ahead of it
    have hle : d.span.stop ≤ e.span.start :=
      (h.spans d hd).2.trans (hrow.le_start he hfault')
    have hne : d.span.stop ≠ e.span.start := fun htouch => hnew d hd e he ⟨hfault, hfault', htouch⟩
    omega

/-- What was told is in order after any calls. -/
theorem after_inOrder (source : Bytes) (options : LexOptions) (calls : List Call) :
    ((start source options).after calls).InOrder := by
  have hkept := after_preserves
    (P := fun l => l.cursor.In source ∧ l.Behind ∧ l.InOrder)
    (fun l h => ⟨next_in h.1 rfl, h.2.1.next h.1, h.2.2.next h.1 h.2.1⟩)
    ⟨start_in source options, after_behind source options [], by simp [start], .nil, .nil⟩ calls
  exact hkept.2.2

/-- Whatever calls were made, what was told is told by a whole run. -/
theorem after_prefix_lex (source : Bytes) (options : LexOptions) (calls : List Call) :
    ((start source options).after calls).diagnostics <+: (lex source options).2 := by
  have hrun := ((start source options).after calls).diagnostics_prefix_run
  rwa [run_after (start_in source options) calls] at hrun

end Lexer

-- ---------------------------------------------------------------------------
-- Where skipped input lies
-- ---------------------------------------------------------------------------

/-- A token that may lie around skipped input: an argument list, a template, or
a string that has a template there. -/
inductive Token.Encloses (i : Nat) (t : Token) : Prop where
  | sceneArgs (kind : t.kind = .sceneArgs)
  | template (kind : t.kind = .template)
  | string {u : Token} (kind : t.kind = .string) (mem : u ∈ t.nested)
      (template : u.kind = .template) (covers : u.span.Covers i)

section Streams

variable {lo opening closing : Nat} {ts : List Token} {t : Token} {i : Nat} {x : Option UInt8}

/-- A byte that is told in a region is in none of the tokens there. -/
theorem exposes_of_insideBody_ne_zero (h : insideBody filler opening closing t i x ≠ 0) :
    t.Exposes opening closing i := by
  by_contra hexp
  exact h (insideBody_of_not_exposes hexp)

/-- Of the tokens around a byte that is told, each may lie around it. -/
theorem encloses_of_owed_ne_zero (hts : Token.Laid text lo hi ts)
    (hshaped : ∀ s ∈ ts, s.Shaped) (howed : owed isSpace insideTop ts i x ≠ 0)
    (ht : t ∈ Token.forest ts) (hcov : t.span.Covers i) : t.Encloses i := by
  obtain ⟨s, hs, htree⟩ := Token.mem_forest.mp ht
  have hnested := hts.nested_of_mem hs
  -- the top-level token around the byte
  have hsi : s.span.Covers i := by
    rcases htree with rfl | hin
    · exact hcov
    · have hbounds := hnested.ordered.forest_bounds t hin
      exact ⟨hbounds.1.trans hcov.1, hcov.2.trans_le hbounds.2⟩
  rw [owed_of_mem hts hs hsi] at howed
  cases hshaped s hs with
  | leaf region => exact absurd (insideTop_of_isRegion_eq_false region i x) howed
  | comment kind =>
    rw [insideTop, kind] at howed
    exact absurd rfl howed
  | sceneArgs kind nested =>
    rw [insideTop, kind] at howed
    have hexp := exposes_of_insideBody_ne_zero howed
    rcases htree with rfl | hin
    · exact .sceneArgs kind
    · obtain ⟨v, hv, rfl | hin⟩ := Token.mem_forest.mp hin
      · exact absurd hcov (hexp.2 t hv)
      · exact absurd hin (nested v hv).2.mem_forest
  | string kind closed nested =>
    rw [insideTop, kind] at howed
    have hinner : owed (fun _ => true) (insideBody isBlank 2 2) s.nested i x ≠ 0 := howed
    -- text of the string is never told, so the byte lies in a template
    obtain ⟨u, hu, hui⟩ : ∃ u ∈ s.nested, u.span.Covers i := by
      by_contra hnone
      push Not at hnone
      rw [owed_of_not_covers hnone] at hinner
      exact hinner (if_pos (by cases x <;> rfl))
    rw [owed_of_mem hnested hu hui] at hinner
    have hexp := exposes_of_insideBody_ne_zero hinner
    rcases htree with rfl | hin
    · exact .string kind hu (nested u hu).kind hui
    · obtain ⟨v, hv, rfl | hin⟩ := Token.mem_forest.mp hin
      · exact .template (nested t hv).kind
      · -- a variable of that template would hide the byte
        have hbounds := (hnested.nested_of_mem hv).ordered.forest_bounds t hin
        have hvi : v.span.Covers i := ⟨hbounds.1.trans hcov.1, hcov.2.trans_le hbounds.2⟩
        obtain rfl : v = u := hnested.eq_of_covers hv hu hvi hui
        obtain ⟨w, hw, rfl | hin⟩ := Token.mem_forest.mp hin
        · exact absurd hcov (hexp.2 t hw)
        · exact absurd hin ((nested v hv).nested w hw).2.mem_forest

end Streams

/-- Every byte of a run is in its class. -/
theorem of_lt_runEnd {q : UInt8 → Bool} {k i : Nat} (hk : k ≤ i) (hi : i < runEnd q text k) :
    ∃ x, text[i]? = some x ∧ q x = true := by
  obtain ⟨j, rfl⟩ := Nat.exists_eq_add_of_le hk
  have hj : j < runLength q (text.drop k) := Nat.lt_of_add_lt_add_left hi
  have hlen := runLength_le q (text.drop k)
  have hx : ((text.drop k).take (runLength q (text.drop k)))[j]? = some (text.drop k)[j] := by
    rw [List.getElem?_take_of_lt hj, List.getElem?_eq_getElem]
  refine ⟨_, ?_, of_mem_take_runLength (List.mem_of_getElem? hx)⟩
  rw [← List.getElem?_drop, List.getElem?_eq_getElem]

/-- Behind the first byte of a piece there are word bytes, or bytes that go on
with a character. -/
theorem eq_of_lt_pieceEnd {p i : Nat} {x : UInt8} (hx : text[i]? = some x)
    (hword : isWord x = false) (hcontinuation : isContinuation x = false) (hle : p ≤ i)
    (hi : i < pieceEnd text p) : p = i := by
  rcases hle.eq_or_lt with rfl | hlt
  · rfl
  · unfold pieceEnd at hi
    split at hi
    · obtain ⟨y, hy, hyword⟩ := of_lt_runEnd hle hi
      obtain rfl : y = x := Option.some.inj (hy.symm.trans hx)
      exact absurd hyword (by simp [hword])
    · obtain ⟨y, hy, hycontinuation⟩ := of_lt_runEnd hlt hi
      obtain rfl : y = x := Option.some.inj (hy.symm.trans hx)
      exact absurd hycontinuation (by simp [hcontinuation])

/-- A piece that does not start with a newline holds none. -/
theorem ne_newline_of_lt_pieceEnd {p i : Nat} (hp : text[p]? ≠ some newline) (hle : p ≤ i)
    (hi : i < pieceEnd text p) : text[i]? ≠ some newline := by
  intro hnewline
  obtain rfl := eq_of_lt_pieceEnd hnewline (by decide) (by decide) hle hi
  exact hp hnewline

/-- A stretch holds no newline if none of its pieces starts with one. -/
theorem Pieced.ne_newline {P : Nat → Prop} {lo hi : Nat} (h : Pieced text P lo hi)
    (hP : ∀ p, P p → text[p]? ≠ some newline) :
    ∀ i, lo ≤ i → i < hi → text[i]? ≠ some newline := by
  induction h with
  | last here =>
    intro i hlo hhi
    exact ne_newline_of_lt_pieceEnd (hP _ here) hlo hhi
  | @more p hi here rest ih =>
    intro i hlo hhi
    -- the byte lies in the first piece or in those behind it
    rcases Nat.lt_or_ge i (pieceEnd text p) with hlt | hge
    · exact ne_newline_of_lt_pieceEnd (hP _ here) hlo hlt
    · exact ih i hge hhi

/-- What holds at a place holds of the byte that stands there. -/
theorem HoldsAt.at_byte {Q : Option UInt8 → UInt8 → Bytes → Prop} {p : Nat} {x : UInt8}
    (h : HoldsAt text Q p) (hx : text[p]? = some x) : ∃ tail, Q (byteBefore text p) x tail := by
  obtain ⟨b, tail, hdrop, hb⟩ := h
  have hhead : text[p]? = some b := by
    rw [← List.head?_drop, hdrop]
    rfl
  obtain rfl : b = x := Option.some.inj (hhead.symm.trans hx)
  exact ⟨tail, hb⟩

theorem HoldsAt.ne_newline {Q : Option UInt8 → UInt8 → Bytes → Prop} {p : Nat}
    (h : HoldsAt text Q p) (hQ : ∀ before tail, ¬ Q before newline tail) :
    text[p]? ≠ some newline := by
  intro hnewline
  obtain ⟨tail, hb⟩ := h.at_byte hnewline
  exact hQ _ _ hb

/-- No diagnostic of skipped input holds a newline. -/
theorem Lexer.run_skips_no_newline {l : Lexer} (hl : l.cursor.In text) :
    ∃ ds, l.run.2.diagnostics = l.diagnostics ++ ds ∧
      ∀ d ∈ ds, d.fault = .unrecognized → newline ∉ d.span.bytes text := by
  obtain ⟨ds, hds, hstretch⟩ := Lexer.run_unclaimed hl
  refine ⟨ds, hds, ?_⟩
  intro d hd hfault hmem
  have hnone := (hstretch.pieces d hd hfault).ne_newline ?_
  · obtain ⟨k, hk⟩ := List.mem_iff_getElem?.mp hmem
    rw [Span.bytes, List.getElem?_take, List.getElem?_drop] at hk
    split at hk
    · next hlt => exact hnone (d.span.start + k) (Nat.le_add_right _ _) (by omega) hk
    · simp at hk
  · rintro p ⟨-, ⟨-, hidle⟩ | ⟨t, -, hregion⟩⟩
    · exact hidle.ne_newline fun before tail h => absurd h.space (by decide)
    · cases hregion with
      | args kind exposed idle =>
        exact idle.ne_newline fun before tail h => absurd h.space (by decide)
      | template mem here => exact here.2.2.ne_newline fun before tail h => h.inLine rfl

/-- Skipped input is only told by a lexer that reports it. -/
theorem reportUnrecognized_of_mem {source : Bytes} {options : LexOptions} {d : Diagnostic}
    (hd : d ∈ (lex source options).2) (hfault : d.fault = .unrecognized) :
    options.reportUnrecognized = true := by
  by_contra hsilent
  have hoptions : options.hushed = options := by
    rw [Bool.not_eq_true] at hsilent
    rw [LexOptions.hushed, ← hsilent]
  -- a lexer that reports none tells the same as one with the rest filtered out
  have htold := congrArg Prod.snd (lex_hushed source options)
  rw [hoptions] at htold
  rw [htold] at hd
  have hcut := (List.mem_filter.mp hd).2
  rw [Diagnostic.isCutOff_eq_false_of_unrecognized hfault] at hcut
  exact Bool.noConfusion hcut

/-- A token around a byte that is told may lie around it. -/
theorem encloses_of_mem {source : Bytes} {options : LexOptions} {d : Diagnostic} {t : Token}
    {i : Nat} (hd : d ∈ (lex source options).2) (hfault : d.fault = .unrecognized)
    (hdi : d.span.Covers i) (ht : t ∈ Token.forest (lex source options).1)
    (hti : t.span.Covers i) : t.Encloses i := by
  have hstart := Lexer.start_in source options
  obtain ⟨ds, hds, hacc⟩ := Lexer.run_accounts hstart (reportUnrecognized_of_mem hd hfault)
  have hlex : (lex source options).2 = ds := hds
  have htold : skipCount ds i ≠ 0 := by
    intro hzero
    have hmem : d ∈ ds := hlex ▸ hd
    exact not_covers_of_skipCount_eq_zero hzero hmem hfault hdi
  rw [lex_eq_tokens, Token.mem_forest_append_eof] at ht
  rcases ht with ht | rfl
  · rw [hacc.count i] at htold
    have howed := (ite_ne_right_iff.mp htold).2
    exact encloses_of_owed_ne_zero (Lexer.tokens_laid hstart) (Lexer.tokens_shaped hstart) howed
      ht hti
  · -- the end of the input covers nothing
    exact absurd (hti.1.trans_lt hti.2) (lt_irrefl _)

/--
**Diagnostics are in order and as few as can be.** Use a lexer by any calls.
Every diagnostic it has told covers bytes of the source, and none ends before
one that was told earlier. Any two stretches of skipped input, whatever was
told between them, are in order and do not even touch. No such stretch holds a
newline, and of the tokens of the script only argument lists, templates and the
strings around those templates share a byte with it.
-/
theorem session_diagnostics (source : Bytes) (options : LexOptions) (calls : List Lexer.Call) :
    let told := ((Lexer.start source options).after calls).diagnostics
    (∀ d ∈ told, d.span.start < d.span.stop ∧ d.span.stop ≤ source.length) ∧
    (told.Pairwise fun d e => d.span.stop ≤ e.span.stop) ∧
    (told.Pairwise fun d e => d.fault = .unrecognized → e.fault = .unrecognized →
      d.span.stop < e.span.start) ∧
    ∀ d ∈ told, d.fault = .unrecognized →
      newline ∉ d.span.bytes source ∧
      ∀ t ∈ Token.forest (lex source options).1, ∀ i, d.span.Covers i → t.span.Covers i →
        t.kind = .sceneArgs ∨ t.kind = .template ∨
          t.kind = .string ∧ ∃ u ∈ t.nested, u.kind = .template ∧ u.span.Covers i := by
  intro told
  have hstart := Lexer.start_in source options
  have hin := Lexer.after_in hstart calls
  have horder := Lexer.after_inOrder source options calls
  refine ⟨?_, horder.ends, horder.apart, ?_⟩
  · intro d hd
    exact ⟨(horder.spans d hd).1, (horder.spans d hd).2.trans hin.offset_le⟩
  · intro d hd hfault
    have hmem : d ∈ (Lexer.start source options).run.2.diagnostics :=
      (Lexer.after_prefix_lex source options calls).subset hd
    refine ⟨?_, ?_⟩
    · obtain ⟨ds, hds, hline⟩ := Lexer.run_skips_no_newline hstart
      rw [hds] at hmem
      exact hline d hmem hfault
    · intro t ht i hdi hti
      cases encloses_of_mem hmem hfault hdi ht hti with
      | sceneArgs kind => exact Or.inl kind
      | template kind => exact Or.inr (Or.inl kind)
      | string kind mem template covers => exact Or.inr (Or.inr ⟨kind, _, mem, template, covers⟩)

end StoryLex
