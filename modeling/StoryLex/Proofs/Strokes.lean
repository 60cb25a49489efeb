import StoryLex.Highlight.Render
import StoryLex.Proofs.Spans

/-!
# StoryLex — rendering, stroke by stroke

A source is written out in **strokes**: stretches of it, one after the other,
each in the style of one kind or in none. This module says that whatever tokens
a source is rendered with, the strokes tile it, provided only that every token
tree hangs together (`Token.Sane`); top-level tokens may come in any order,
overlap, and reach past the end.

* `Token.Ordered` — tokens in order between two offsets, at every depth.
* `Token.innermost?` — the innermost token around a byte.
* `Palette.renderInside_strokes`, `Palette.renderFrom_strokes` — a region and
  a stream as strokes. Where the stream is in order as well, the kind of each
  stroke is that of the innermost token around its bytes.
* `render_plain` — without colours, rendering gives the source back.
-/

namespace StoryLex

namespace Token

-- ---------------------------------------------------------------------------
-- Tokens in order
-- ---------------------------------------------------------------------------

/-- The tokens lie in order between two offsets and do not overlap, each around
its own nested tokens, which are so ordered between its ends. -/
inductive Ordered : Nat → Nat → List Token → Prop where
  | nil {lo hi : Nat} (le : lo ≤ hi) : Ordered lo hi []
  | cons {lo hi : Nat} {t : Token} {ts : List Token}
      (start : lo ≤ t.span.start)
      (nested : Ordered t.span.start t.span.stop t.nested)
      (rest : Ordered t.span.stop hi ts) : Ordered lo hi (t :: ts)

/-- A token tree that hangs together: no token ends before it starts, and
nested tokens are in order, apart, and inside their parent. -/
def Sane (t : Token) : Prop := Ordered t.span.start t.span.stop t.nested

namespace Ordered

variable {lo mid hi : Nat} {ts us : List Token}

theorem le (h : Ordered lo hi ts) : lo ≤ hi := by
  induction h with
  | nil le => exact le
  | cons start _ _ ihNested ihRest => omega

theorem mono_left (h : Ordered lo hi ts) {lo' : Nat} (hlo : lo' ≤ lo) : Ordered lo' hi ts := by
  cases h with
  | nil le => exact .nil (hlo.trans le)
  | cons start nested rest => exact .cons (hlo.trans start) nested rest

theorem append (h : Ordered lo mid ts) (h' : Ordered mid hi us) : Ordered lo hi (ts ++ us) := by
  induction h with
  | nil le => exact h'.mono_left le
  | cons start nested _ _ ih => exact .cons start nested (ih h')

theorem sane (h : Ordered lo hi ts) : ∀ t ∈ ts, t.Sane := by
  induction h with
  | nil => simp
  | cons _ nested _ _ ih => exact List.forall_mem_cons.mpr ⟨nested, ih⟩

end Ordered

/-- Tokens that are laid out in a text are in order. -/
theorem Laid.ordered {text : Bytes} {lo hi : Nat} {ts : List Token} (h : Laid text lo hi ts) :
    Ordered lo hi ts := by
  induction h with
  | nil le => exact .nil le
  | cons start _ _ _ _ _ ihNested ihRest => exact .cons start ihNested ihRest

-- ---------------------------------------------------------------------------
-- The innermost token around a byte
-- ---------------------------------------------------------------------------

mutual

/-- The innermost token of a tree that covers the byte at `i`. -/
def innermostIn? (i : Nat) : Token → Option Token
  | ⟨kind, span, lexeme, nested, unterminated⟩ =>
    if span.Covers i then
      (innermost? i nested).or (some ⟨kind, span, lexeme, nested, unterminated⟩)
    else
      none

/-- The innermost token of a forest that covers the byte at `i`. -/
def innermost? (i : Nat) : List Token → Option Token
  | [] => none
  | t :: ts => (innermostIn? i t).or (innermost? i ts)

end

variable {i lo hi : Nat} {t : Token} {ts : List Token}

/-- Around a byte of the first token, that token or one inside it is the
innermost. -/
theorem innermost?_cons_of_covers (h : t.span.Covers i) :
    innermost? i (t :: ts) = (innermost? i t.nested).or (some t) := by
  cases t
  rw [innermost?, innermostIn?, if_pos h]
  cases innermost? i _ <;> rfl

/-- A byte that the first token does not cover is left to the others. -/
theorem innermost?_cons_of_not_covers (h : ¬ t.span.Covers i) :
    innermost? i (t :: ts) = innermost? i ts := by
  cases t
  rw [innermost?, innermostIn?, if_neg h]
  rfl

/-- In front of tokens in order there is none around a byte. -/
theorem Ordered.innermost?_of_lt (h : Ordered lo hi ts) (hi : i < lo) :
    innermost? i ts = none := by
  induction h with
  | nil => rfl
  | cons start nested _ _ ih =>
    have := nested.le
    -- the first token starts behind the byte, and the others behind the first
    rw [innermost?_cons_of_not_covers (fun hcov => by have := hcov.1; omega)]
    exact ih (by omega)

end Token

-- ---------------------------------------------------------------------------
-- Strokes
-- ---------------------------------------------------------------------------

/-- A stretch of the source that is written in one style, if in any. -/
structure Stroke where
  kind : Option Kind
  span : Span

/-- The strokes cover the bytes from one offset to another, each going on where
the one before ends. -/
inductive Stroke.Tile : Nat → Nat → List Stroke → Prop where
  | nil (lo : Nat) : Tile lo lo []
  | cons {lo mid hi : Nat} {strokes : List Stroke} (kind : Option Kind) (le : lo ≤ mid)
      (rest : Tile mid hi strokes) : Tile lo hi (⟨kind, ⟨lo, mid⟩⟩ :: strokes)

/-- Each stroke is in the style of the innermost of the tokens around its
bytes, and where there is none in the style `outer`. -/
def Stroke.Follow (outer : Option Kind) (ts : List Token) (strokes : List Stroke) : Prop :=
  ∀ s ∈ strokes, ∀ i, s.span.Covers i →
    s.kind = ((Token.innermost? i ts).map (·.kind)).or outer

/-- The text of a stroke as it is written out. -/
def Palette.stroke (p : Palette) (source : Bytes) (s : Stroke) : Bytes :=
  match s.kind with
  | none => s.span.bytes source
  | some kind => p.paint kind (s.span.bytes source)

namespace Stroke

variable {lo mid hi : Nat} {strokes more : List Stroke} {outer : Option Kind} {ts : List Token}

theorem Tile.single (kind : Option Kind) (h : lo ≤ hi) : Tile lo hi [⟨kind, ⟨lo, hi⟩⟩] :=
  .cons kind h (.nil hi)

theorem Tile.append (h : Tile lo mid strokes) (h' : Tile mid hi more) :
    Tile lo hi (strokes ++ more) := by
  induction h with
  | nil => exact h'
  | cons kind le _ ih => exact .cons kind le (ih h')

theorem Tile.le (h : Tile lo hi strokes) : lo ≤ hi := by
  induction h with
  | nil => exact le_rfl
  | cons _ le _ ih => exact le.trans ih

/-- Every stroke lies in the stretch that is tiled. -/
theorem Tile.bounds (h : Tile lo hi strokes) :
    ∀ s ∈ strokes, lo ≤ s.span.start ∧ s.span.stop ≤ hi := by
  induction h with
  | nil => simp
  | cons kind le rest ih =>
    refine List.forall_mem_cons.mpr ⟨⟨le_rfl, rest.le⟩, ?_⟩
    intro s hs
    exact ⟨le.trans (ih s hs).1, (ih s hs).2⟩

/-- The strokes around and in a token, and those behind it, follow the token
and its later siblings. -/
theorem Follow.cons {t : Token} {inner rest : List Stroke} {cur : Nat}
    (hle : t.span.start ≤ t.span.stop) (hts : Token.Ordered t.span.stop hi ts)
    (hinner : Tile t.span.start t.span.stop inner) (hrest : Tile t.span.stop hi rest)
    (finner : Follow (some t.kind) t.nested inner) (frest : Follow outer ts rest) :
    Follow outer (t :: ts) (⟨outer, ⟨cur, t.span.start⟩⟩ :: (inner ++ rest)) := by
  intro s hs i hcov
  rcases List.mem_cons.mp hs with rfl | hs
  · -- in front of the token there is none of the later ones either
    have hlt : i < t.span.start := hcov.2
    rw [Token.innermost?_cons_of_not_covers (fun h => by have := h.1; omega),
      hts.innermost?_of_lt (by omega)]
    rfl
  · rcases List.mem_append.mp hs with hs | hs
    · have hbounds := hinner.bounds s hs
      have hin : t.span.Covers i := ⟨hbounds.1.trans hcov.1, hcov.2.trans_le hbounds.2⟩
      rw [Token.innermost?_cons_of_covers hin, finner s hs i hcov]
      cases Token.innermost? i t.nested <;> rfl
    · have hbounds := hrest.bounds s hs
      rw [Token.innermost?_cons_of_not_covers
        (fun h => by have := h.2; have := hcov.1; omega)]
      exact frest s hs i hcov

end Stroke

-- ---------------------------------------------------------------------------
-- What rendering writes
-- ---------------------------------------------------------------------------

/-- A slice between offsets of the source succeeds, and has the bytes between
them. -/
theorem slice_eq_bytes {source : Bytes} {lo hi : Nat} (h : lo ≤ hi) (hhi : hi ≤ source.length) :
    slice source lo hi = .ok (Span.bytes ⟨lo, hi⟩ source) := by
  rw [slice, if_pos (h.trans hhi)]
  show Except.ok (if lo ≤ hi then _ else _) = _
  rw [if_pos h]
  rfl

namespace Palette

variable (p : Palette) {source : Bytes} {ts : List Token}

theorem renderToken_eq (source : Bytes) (t : Token) :
    p.renderToken source t =
      p.renderInside source t.kind t.span.stop t.span.start t.nested := by
  cases t
  rfl

/-- The text of a region and the tokens in it, as strokes. -/
theorem renderInside_strokes {cur stop : Nat} (h : Token.Ordered cur stop ts)
    (hstop : stop ≤ source.length) (kind : Kind) :
    ∃ strokes, p.renderInside source kind stop cur ts =
        .ok (strokes.flatMap (p.stroke source)) ∧
      Stroke.Tile cur stop strokes ∧ Stroke.Follow (some kind) ts strokes := by
  induction h generalizing kind with
  | @nil lo hi le =>
    -- no token is left: the rest of the region is one stroke
    refine ⟨[⟨some kind, ⟨lo, hi⟩⟩], ?_, .single _ le, ?_⟩
    · rw [renderInside, slice_eq_bytes le hstop]
      simp [stroke, pure, bind, Except.pure, Except.bind]
    · intro s hs i _
      rw [List.mem_singleton.mp hs]
      rfl
  | @cons lo hi t ts start nested rest ihNested ihRest =>
    have hle := nested.le
    have hle' := rest.le
    -- the text in front of the token, the token, and what is behind it
    obtain ⟨inner, hinner, tinner, finner⟩ := ihNested (by omega) t.kind
    obtain ⟨later, hlater, tlater, flater⟩ := ihRest hstop kind
    refine ⟨⟨some kind, ⟨lo, t.span.start⟩⟩ :: (inner ++ later), ?_,
      .cons _ start (tinner.append tlater), .cons hle rest tinner tlater finner flater⟩
    rw [renderInside, slice_eq_bytes start (by omega), renderToken_eq, hinner, hlater]
    simp [stroke, pure, bind, Except.pure, Except.bind]

/-- A token that hangs together and lies in the source is rendered in strokes
that tile it. -/
theorem renderToken_strokes {t : Token} (h : t.Sane) (hstop : t.span.stop ≤ source.length) :
    ∃ strokes, p.renderToken source t = .ok (strokes.flatMap (p.stroke source)) ∧
      Stroke.Tile t.span.start t.span.stop strokes ∧
      Stroke.Follow (some t.kind) t.nested strokes := by
  rw [renderToken_eq]
  exact p.renderInside_strokes h hstop t.kind

/-- The source from `cur` on, as strokes. Tokens that are left out do no harm
to the tiling; where the stream is in order, none is left out. -/
theorem renderFrom_strokes (hsane : ∀ t ∈ ts, t.Sane) {cur : Nat} (hcur : cur ≤ source.length) :
    ∃ strokes, p.renderFrom source cur ts = .ok (strokes.flatMap (p.stroke source)) ∧
      Stroke.Tile cur source.length strokes ∧
      (Token.Ordered cur source.length ts → Stroke.Follow none ts strokes) := by
  induction ts generalizing cur with
  | nil =>
    refine ⟨[⟨none, ⟨cur, source.length⟩⟩], ?_, .single _ hcur, ?_⟩
    · have hrest : Span.bytes ⟨cur, source.length⟩ source = source.drop cur :=
        List.take_of_length_le (List.length_drop ▸ le_rfl)
      simp [renderFrom, stroke, hrest]
    · intro _ s hs i _
      rw [List.mem_singleton.mp hs]
      rfl
  | cons t ts ih =>
    rw [List.forall_mem_cons] at hsane
    obtain ⟨ht, hts⟩ := hsane
    rw [renderFrom]
    by_cases hacc : Accepts source cur t
    · -- the token is accepted: the gap in front of it, its strokes, and the rest
      obtain ⟨inner, hinner, tinner, finner⟩ := p.renderToken_strokes ht hacc.2
      obtain ⟨later, hlater, tlater, flater⟩ := ih hts hacc.2
      refine ⟨⟨none, ⟨cur, t.span.start⟩⟩ :: (inner ++ later), ?_,
        .cons _ hacc.1 (tinner.append tlater), ?_⟩
      · rw [if_pos hacc, slice_eq_bytes hacc.1 (tinner.le.trans hacc.2), hinner, hlater]
        simp [stroke, pure, bind, Except.pure, Except.bind]
      · rintro (_ | ⟨-, -, rest⟩)
        exact .cons tinner.le rest tinner tlater finner (flater rest)
    · -- it is left out, which no token of an ordered stream is
      obtain ⟨later, hlater, tlater, -⟩ := ih hts hcur
      refine ⟨later, by rw [if_neg hacc, hlater], tlater, ?_⟩
      rintro (_ | ⟨start, -, rest⟩)
      exact absurd ⟨start, rest.le⟩ hacc

end Palette

-- ---------------------------------------------------------------------------
-- Without colours
-- ---------------------------------------------------------------------------

theorem Palette.stroke_plain (table : HighlightTable) (source : Bytes) (s : Stroke) :
    stroke ⟨table, false⟩ source s = s.span.bytes source := by
  unfold stroke
  split <;> rfl

/-- Written without colours, strokes give the stretch that they tile. -/
theorem Stroke.Tile.flatMap_plain {lo hi : Nat} {strokes : List Stroke}
    (h : Tile lo hi strokes) (table : HighlightTable) (source : Bytes) :
    strokes.flatMap (Palette.stroke ⟨table, false⟩ source) ++ source.drop hi =
      source.drop lo := by
  induction h with
  | nil => rfl
  | @cons lo mid hi strokes kind le rest ih =>
    rw [List.flatMap_cons, List.append_assoc, ih, Palette.stroke_plain]
    exact Span.bytes_append_drop source le

/-- The stream of a script is in order, the end of the input included. -/
theorem lex_ordered (source : Bytes) (options : LexOptions) :
    Token.Ordered 0 source.length (lex source options).1 := by
  have hlaid := Lexer.tokens_laid (Lexer.start_in source options)
  have heof : Token.Ordered source.length source.length [Token.eof source.length] :=
    .cons le_rfl (.nil le_rfl) (.nil le_rfl)
  rw [lex_eq_tokens]
  exact (hlaid.ordered.mono_left (Nat.zero_le _)).append heof

/--
**Rendering without colours is the identity.** Whatever tokens a source is
rendered with, as long as each token tree hangs together, rendering without
colours succeeds and gives the source back; tokens may be out of order, overlap,
or reach past the end. The stream of a script is of this kind.
-/
theorem render_plain (source : Bytes) (table : HighlightTable) (stream : List Token)
    (hsane : ∀ t ∈ stream, t.Sane) :
    Palette.render ⟨table, false⟩ source stream = .ok source ∧
      ∀ options, ∀ t ∈ (lex source options).1, t.Sane := by
  refine ⟨?_, fun options => (lex_ordered source options).sane⟩
  obtain ⟨strokes, hrender, htile, -⟩ :=
    Palette.renderFrom_strokes ⟨table, false⟩ hsane (Nat.zero_le source.length)
  -- the strokes tile the whole source, so their text is the source
  have hplain := htile.flatMap_plain table source
  rw [List.drop_length, List.append_nil, List.drop_zero] at hplain
  rw [Palette.render, hrender, hplain]

/-- A region with two nested tokens that touch, a token that overlaps it, one
that comes too late, and one that reaches past the end. -/
theorem render_plain_overlapping :
    let stream : List Token :=
      [⟨.sceneArgs, ⟨1, 4⟩, [], [⟨.number, ⟨1, 2⟩, [], [], false⟩,
          ⟨.atom, ⟨2, 4⟩, [], [], false⟩], true⟩,
        ⟨.number, ⟨3, 5⟩, [], [], false⟩, ⟨.choice, ⟨0, 1⟩, [], [], false⟩,
        ⟨.string, ⟨4, 9⟩, [], [⟨.template, ⟨7, 9⟩, [], [], false⟩], false⟩]
    (∀ t ∈ stream, t.Sane) ∧
      Palette.render ⟨.standard, false⟩ (ascii "|(1#a") stream = .ok (ascii "|(1#a") := by
  intro stream
  have hleaf : ∀ {t : Token}, t.nested = [] → t.span.start ≤ t.span.stop → t.Sane := by
    intro t hnested hle
    rw [Token.Sane, hnested]
    exact .nil hle
  have hsane : ∀ t ∈ stream, t.Sane := by
    simp only [stream, List.forall_mem_cons]
    refine ⟨?_, hleaf rfl (by decide), hleaf rfl (by decide), ?_, by simp⟩
    · exact .cons (by decide) (.nil (by decide)) (.cons (by decide) (.nil (by decide))
        (.nil (by decide)))
    · exact .cons (by decide) (.nil (by decide)) (.nil (by decide))
  exact ⟨hsane, (render_plain (ascii "|(1#a") .standard stream hsane).1⟩

end StoryLex
