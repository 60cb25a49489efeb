import StoryLex.Proofs.Coverage
import StoryLex.Proofs.Idle
import StoryLex.Proofs.Pieces

/-!
# StoryLex — nothing that matches is skipped

Every piece of input that is told as unrecognised starts at a place where no
rule of its context applies (`lex_noRule`): outside all tokens no general rule,
in an argument list no rule of the list, in a template no rule of the template.

The loops are read a stretch at a time, as for the count of skipped bytes. Here
a stretch says of the pieces told in it where they start (`Unclaimed`), and
`Unclaimed.append` joins two that meet.

A template is read in the text that ends with its line. What is idle there is
so in the whole text (`IdleInTemplate.holdsAt_of_take`), for a newline goes on
with no word.
-/

namespace StoryLex

/-- The byte at `p`, the byte before it and the text behind it are as `Q` says. -/
def HoldsAt (text : Bytes) (Q : Option UInt8 → UInt8 → Bytes → Prop) (p : Nat) : Prop :=
  ∃ b tail, text.drop p = b :: tail ∧ Q (byteBefore text p) b tail

/-- No rule of the context around `p` applies there: outside all tokens of a
stream, or between the marks of a region and in none of the tokens inside it. -/
inductive NoRuleAt (legacy : Bool) (text : Bytes) (stream : List Token) (p : Nat) : Prop where
  | outside (free : ∀ t ∈ stream, ¬ t.span.Covers p) (idle : HoldsAt text (IdleOutside legacy) p)
  | inArgs {t : Token} (mem : t ∈ stream) (kind : t.kind = .sceneArgs)
      (exposed : t.Exposes 1 1 p) (idle : HoldsAt text (IdleInArgs legacy) p)
  | inTemplate {t : Token} (mem : t ∈ Token.forest stream) (kind : t.kind = .template)
      (exposed : t.Exposes 2 2 p) (idle : HoldsAt text IdleInTemplate p)

-- ---------------------------------------------------------------------------
-- Stretches
-- ---------------------------------------------------------------------------

/-- What is told in the stretch from `lo` to `hi` falls into pieces that start
there: in none of the tokens and where `idle` holds, or in a token as `inside`
allows it. -/
structure Unclaimed (text : Bytes) (idle : Nat → Prop) (inside : Token → Nat → Prop) (lo hi : Nat)
    (tokens : List Token) (faults : List Diagnostic) : Prop where
  le     : lo ≤ hi
  bounds : ∀ t ∈ tokens, lo ≤ t.span.start ∧ t.span.stop ≤ hi
  pieces : ToldInPieces text (fun p => (lo ≤ p ∧ p < hi) ∧
             ((∀ t ∈ tokens, ¬ t.span.Covers p) ∧ idle p ∨ ∃ t ∈ tokens, inside t p)) faults

variable {text : Bytes} {idle : Nat → Prop} {inside : Token → Nat → Prop} {lo mid hi : Nat}
  {ts us : List Token} {fs gs : List Diagnostic} {c : Cursor}

namespace Unclaimed

/-- Two stretches that meet make one of both. -/
theorem append (h : Unclaimed text idle inside lo mid ts fs)
    (h' : Unclaimed text idle inside mid hi us gs) :
    Unclaimed text idle inside lo hi (ts ++ us) (fs ++ gs) := by
  have hle := h.le
  have hle' := h'.le
  refine ⟨hle.trans hle', ?_, .append (h.pieces.mono ?_) (h'.pieces.mono ?_)⟩
  · intro t ht
    rcases List.mem_append.mp ht with ht | ht
    · have := h.bounds t ht
      omega
    · have := h'.bounds t ht
      omega
  · -- a piece before the meeting point lies in no token behind it
    rintro p ⟨hp, ⟨hfree, hidle⟩ | ⟨t, ht, hin⟩⟩
    · refine ⟨by omega, Or.inl ⟨?_, hidle⟩⟩
      intro t ht hcov
      rcases List.mem_append.mp ht with ht | ht
      · exact hfree t ht hcov
      · have := (h'.bounds t ht).1
        have := hcov.1
        omega
    · exact ⟨by omega, Or.inr ⟨t, List.mem_append_left _ ht, hin⟩⟩
  · rintro p ⟨hp, ⟨hfree, hidle⟩ | ⟨t, ht, hin⟩⟩
    · refine ⟨by omega, Or.inl ⟨?_, hidle⟩⟩
      intro t ht hcov
      rcases List.mem_append.mp ht with ht | ht
      · have := (h.bounds t ht).2
        have := hcov.2
        omega
      · exact hfree t ht hcov
    · exact ⟨by omega, Or.inr ⟨t, List.mem_append_right _ ht, hin⟩⟩

/-- A stretch in which nothing is told. -/
theorem ofNone (hle : lo ≤ hi) : Unclaimed text idle inside lo hi [] [] :=
  ⟨hle, by simp, .nil⟩

/-- A stretch that is one token, whose inside is as it should be. -/
theorem ofToken {t : Token} (hle : t.span.start ≤ t.span.stop)
    (hcov : ∀ p, inside t p → t.span.Covers p) (h : ToldInPieces text (inside t) fs) :
    Unclaimed text idle inside t.span.start t.span.stop [t] fs := by
  refine ⟨hle, by simp, h.mono ?_⟩
  intro p hp
  exact ⟨hcov p hp, Or.inr ⟨t, List.mem_singleton_self t, hp⟩⟩

/-- Told as diagnostics, the pieces stay what they are. -/
theorem report (h : Unclaimed text idle inside lo hi ts fs) (options : LexOptions) :
    Unclaimed text idle inside lo hi ts (options.report fs) :=
  ⟨h.le, h.bounds, h.pieces.report options⟩

end Unclaimed

/-- What is skipped at a place is one piece. -/
theorem Cursor.In.unclaimed_junk {b : UInt8} {tail : Bytes} (hc : c.In text)
    (hrest : c.rest = b :: tail) (hidle : idle c.offset) :
    Unclaimed text idle inside c.offset (c.advance (Rule.junk b tail + 1)).offset []
      [.unrecognized (c.spanTo (c.advance (Rule.junk b tail + 1)))] := by
  have hlt := c.offset_lt_advance (by simp [hrest]) (Rule.junk b tail)
  refine ⟨Nat.le_of_lt hlt, by simp, ?_⟩
  intro d hd _
  rw [List.mem_singleton.mp hd]
  show Pieced text _ c.offset (c.advance (Rule.junk b tail + 1)).offset
  rw [← hc.pieceEnd_eq hrest] at hlt ⊢
  exact .last ⟨⟨le_rfl, hlt⟩, Or.inl ⟨by simp, hidle⟩⟩

theorem Cursor.In.holdsAt {Q : Option UInt8 → UInt8 → Bytes → Prop} {b : UInt8} {tail : Bytes}
    (hc : c.In text) (hrest : c.rest = b :: tail) (h : Q c.before b tail) :
    HoldsAt text Q c.offset :=
  ⟨b, tail, hc.rest_eq ▸ hrest, hc.before_eq_byteBefore ▸ h⟩

-- ---------------------------------------------------------------------------
-- The insides of regions
-- ---------------------------------------------------------------------------

variable {pieceAt : Option UInt8 → UInt8 → Bytes → Piece} {filler : UInt8 → Bool}
  {kinds : List Kind} {width : Nat}

/-- From `lo` on, what a region has no rule for is one piece, at an idle place. -/
def LeavesIdle (pieceAt : Option UInt8 → UInt8 → Bytes → Piece) (text : Bytes) (lo : Nat)
    (idle : Nat → Prop) : Prop :=
  ∀ (d : Cursor) b tail more, d.In text → lo ≤ d.offset → d.rest = b :: tail →
    pieceAt d.before b tail = .junk more → more = Rule.junk b tail ∧ idle d.offset

/-- What an argument list skips is a piece that no rule of the list takes. -/
theorem argsPiece_leavesIdle (legacy : Bool) (text : Bytes) :
    LeavesIdle (argsPiece legacy) text 0 (HoldsAt text (IdleInArgs legacy)) := by
  intro d b tail more hd _ hrest hpiece
  exact ⟨(argsPiece_junk hpiece).1, hd.holdsAt hrest (argsPiece_idle hpiece)⟩

/-- In a text that is one line from `lo` on. -/
theorem templatePiece_leavesIdle (hline : newline ∉ text.drop lo) :
    LeavesIdle templatePiece text lo (HoldsAt text IdleInTemplate) := by
  intro d b tail more hd hlo hrest hpiece
  have hb : b ≠ newline := by
    -- the text is one line here, so what is skipped is no newline
    rintro rfl
    apply hline
    have hmem : newline ∈ text.drop d.offset := by
      rw [← hd.rest_eq, hrest]
      exact List.mem_cons_self
    obtain ⟨k, hk⟩ := Nat.exists_eq_add_of_le hlo
    rw [hk, ← List.drop_drop] at hmem
    exact List.mem_of_mem_drop hmem
  exact ⟨(templatePiece_junk hpiece).1, hd.holdsAt hrest (templatePiece_idle hb hpiece)⟩

/-- The inside of a region is a stretch in which only idle places are told. -/
theorem scanBody_unclaimed (hp : PieceSpec pieceAt filler kinds width)
    (hidle : LeavesIdle pieceAt text lo idle) (hc : c.In text) (hlo : lo ≤ c.offset) :
    Unclaimed text idle (fun _ _ => False) c.offset ((scanBody pieceAt c).innerStop width)
      (scanBody pieceAt c).tokens (scanBody pieceAt c).faults := by
  fun_induction scanBody pieceAt c with
  | case1 c h => exact .ofNone le_rfl
  | case2 c b tail h more hpiece =>
    obtain ⟨hwidth, hfits⟩ := hp.of_close hpiece
    have hstop := Cursor.offset_advance (Cursor.succ_le_length_rest h hfits)
    refine .ofNone ?_
    simp only [Body.innerStop, if_true, hstop]
    omega
  | case3 c b tail h hpiece ih =>
    have hnext := c.offset_le_advance 1
    exact (Unclaimed.ofNone hnext).append (ih (hc.advance 1) (hlo.trans hnext))
  | case4 c b tail h m hpiece found body ih =>
    have hnext := c.offset_le_advance (m.more + 1)
    -- the leaf is a stretch of its own, with nothing told in it
    have hleaf : Unclaimed text idle (fun _ _ => False) c.offset (c.advance (m.more + 1)).offset
        [(m.found c).token] [] :=
      .ofToken (t := (m.found c).token) hnext (fun _ h => h.elim) .nil
    exact hleaf.append (ih (hc.advance _) (hlo.trans hnext))
  | case5 c b tail h more hpiece next body ih =>
    obtain ⟨rfl, hhere⟩ := hidle c b tail more hc hlo h hpiece
    exact (hc.unclaimed_junk h hhere).append
      (ih (hc.advance _) (hlo.trans (c.offset_le_advance _)))

/-- What is told in a region starts between its marks and in no token there. -/
theorem Body.enclose_told {body : Body} {opening closing : Nat} (kind : Kind)
    (hopen : opening ≤ c.rest.length)
    (hbody : Unclaimed text idle (fun _ _ => False) (c.advance opening).offset
      (body.innerStop closing) body.tokens body.faults) :
    ToldInPieces text (fun p => (body.enclose c kind).token.Exposes opening closing p ∧ idle p)
      (body.enclose c kind).faults := by
  rw [Cursor.offset_advance hopen] at hbody
  refine .append (hbody.pieces.mono ?_) ?_
  · rintro p ⟨hp, ⟨hfree, hidle⟩ | ⟨t, -, hfalse⟩⟩
    · refine ⟨⟨?_, hfree⟩, hidle⟩
      rw [body.inner_enclose]
      exact hp
    · exact hfalse.elim
  · intro d hd hfault
    split at hd
    · simp at hd
    · rw [List.mem_singleton.mp hd] at hfault
      simp [Diagnostic.unterminated] at hfault

/-- What is told in an argument list starts between its parentheses, in no
argument, where no rule of the list applies. -/
theorem sceneArgs_told (legacy : Bool) (hc : c.In text) (hopen : 1 ≤ c.rest.length) :
    ToldInPieces text (fun p => (sceneArgs legacy c).token.Exposes 1 1 p ∧
      HoldsAt text (IdleInArgs legacy) p) (sceneArgs legacy c).faults := by
  have hbody := scanBody_unclaimed (argsPiece_spec legacy) (argsPiece_leavesIdle legacy text)
    (hc.advance 1) (Nat.zero_le _)
  exact Body.enclose_told .sceneArgs hopen hbody

/-- A place of a template's inside at which no rule applies. -/
def InTemplate (text : Bytes) (t : Token) (p : Nat) : Prop :=
  t.kind = .template ∧ t.Exposes 2 2 p ∧ HoldsAt text IdleInTemplate p

/-- What is told in a template starts between its braces, in no variable, where
no rule of the template applies. -/
theorem template_told (hline : newline ∉ text.drop lo) (hc : c.In text) (hlo : lo ≤ c.offset)
    (hopen : 2 ≤ c.rest.length) :
    ToldInPieces text (InTemplate text (template c).token) (template c).faults := by
  have hbody := scanBody_unclaimed templatePiece_spec (templatePiece_leavesIdle hline)
    (hc.advance 2) (hlo.trans (c.offset_le_advance 2))
  refine (Body.enclose_told .template hopen hbody).mono ?_
  rintro p ⟨hexposed, hidle⟩
  exact ⟨rfl, hexposed, hidle⟩

/-- The inside of a string is a stretch in which only places of its templates
are told. -/
theorem scanString_unclaimed (hline : newline ∉ text.drop lo) (hc : c.In text)
    (hlo : lo ≤ c.offset) :
    Unclaimed text (fun _ => False) (InTemplate text) c.offset (scanString c).stop.offset
      (scanString c).tokens (scanString c).faults := by
  fun_induction scanString c with
  | case1 c h => exact .ofNone le_rfl
  | case2 c b tail h hopen found body ih =>
    rw [Bool.and_eq_true, decide_eq_true_eq] at hopen
    have hlen := Cursor.succ_le_length_rest h (Rule.length_pos_of_head? hopen.2)
    -- the template is a stretch of its own, and the rest of the line another
    have hlaid := template_laid hc (by simp [h])
    have hle : c.offset ≤ (template c).stop.offset := hlaid.token.le
    have htemplate : Unclaimed text (fun _ => False) (InTemplate text) c.offset
        (template c).stop.offset [(template c).token] (template c).faults :=
      .ofToken (t := (template c).token) hle (fun _ hp => hp.2.1.covers)
        (template_told hline hc hlo hlen)
    exact htemplate.append (ih hlaid.stop_in (hlo.trans hle))
  | case3 c b tail h hopen ih =>
    have hnext := c.offset_le_advance 1
    exact (Unclaimed.ofNone hnext).append (ih (hc.advance 1) (hlo.trans hnext))

-- ---------------------------------------------------------------------------
-- From the line to the whole text
-- ---------------------------------------------------------------------------

section Line

variable {n p : Nat} (hline : (text.drop n).head?.all (· == newline) = true)

include hline

/-- What is idle in a template of the line is idle in the whole text. -/
theorem IdleInTemplate.holdsAt_of_take (hp : p < n)
    (h : HoldsAt (text.take n) IdleInTemplate p) : HoldsAt text IdleInTemplate p := by
  obtain ⟨b, tail, hdrop, hidle⟩ := h
  rw [byteBefore_take (Nat.le_of_lt hp)] at hidle
  have hwhole : text.drop p = b :: (tail ++ text.drop n) := by
    rw [drop_eq_drop_take_append text (Nat.le_of_lt hp), hdrop, List.cons_append]
  refine ⟨b, tail ++ text.drop n, hwhole, hidle.inLine, ?_, hidle.blank, ?_⟩
  · intro hb hnext
    have hclose := hidle.close hb
    -- what stands behind the line is no brace
    cases tail with
    | cons x tail => exact hclose hnext
    | nil =>
      rw [List.nil_append] at hnext
      rw [hnext] at hline
      exact absurd hline (by decide)
  · rw [takeWhile_append_of_stop tail (head?_any_of_line (by decide) hline)]
    exact hidle.varName

theorem InTemplate.of_take {t : Token} (hp : p < n) (h : InTemplate (text.take n) t p) :
    InTemplate text t p :=
  ⟨h.1, h.2.1, IdleInTemplate.holdsAt_of_take hline hp h.2.2⟩

end Line

/-- What is told in a string starts in its templates. -/
theorem string_told (hc : c.In text) :
    ToldInPieces text (fun p => ∃ u ∈ (string c).token.nested, InTemplate text u p)
      (string c).faults := by
  have hin := (hc.advance 2).inLine
  obtain ⟨hstop, -⟩ := scanString_inLine (hc.advance 2)
  have hline := (hc.advance 2).lineEnd
  have hbody := scanString_unclaimed (hin.rest_eq ▸ (c.advance 2).newline_notMem_rest_inLine) hin
    le_rfl
  rw [hstop] at hbody
  rw [string_faults]
  intro d hd hfault
  -- the pieces are the same in the whole text, and so is what holds where they start
  refine ((hbody.pieces d hd hfault).of_take (fun p hp => hp.1.2) hline).mono ?_
  rintro p ⟨⟨-, hp⟩, ⟨-, hfalse⟩ | ⟨u, hu, htemplate⟩⟩
  · exact hfalse.elim
  · exact ⟨u, hu, htemplate.of_take hline hp⟩

-- ---------------------------------------------------------------------------
-- Top-level tokens
-- ---------------------------------------------------------------------------

/-- A place inside a top-level token at which no rule of its context applies. -/
inductive InRegion (legacy : Bool) (text : Bytes) (t : Token) (p : Nat) : Prop where
  | args (kind : t.kind = .sceneArgs) (exposed : t.Exposes 1 1 p)
      (idle : HoldsAt text (IdleInArgs legacy) p)
  | template {u : Token} (mem : u ∈ t.nested) (here : InTemplate text u p)

variable {legacy : Bool} {found : Found}

/-- What is told in a top-level token starts at a place inside it where no rule
applies. -/
theorem FoundAt.told (hc : c.In text) (h : FoundAt legacy c found) :
    ToldInPieces text (InRegion legacy text found.token) found.faults := by
  cases h with
  | leaf rest fits inLine region eof => exact .nil
  | comment rest => exact .nil
  | string rest =>
    refine (string_told hc).mono ?_
    rintro p ⟨u, hu, htemplate⟩
    exact .template hu htemplate
  | sceneArgs rest =>
    refine (sceneArgs_told legacy hc (by simp [rest])).mono ?_
    rintro p ⟨hexposed, hidle⟩
    exact .args rfl hexposed hidle

/-- Both kinds of place lie in the token, for nested tokens do. -/
theorem InRegion.covers {t : Token} {p : Nat} (ht : Token.Laid text lo hi [t])
    (h : InRegion legacy text t p) : t.span.Covers p := by
  cases h with
  | args kind exposed idle => exact exposed.covers
  | template mem here =>
    have hb := (ht.nested_of_mem (List.mem_singleton_self t)).bounds mem
    have hcov := here.2.1.covers
    exact ⟨hb.1.trans hcov.1, hcov.2.trans_le hb.2⟩

/-- A top-level token is a stretch, with what is told inside it. -/
theorem FoundAt.unclaimed (hc : c.In text) (h : FoundAt legacy c found) :
    Unclaimed text (HoldsAt text (IdleOutside legacy)) (InRegion legacy text) c.offset
      found.stop.offset [found.token] found.faults := by
  have hlaid := h.laid hc
  have hle := hlaid.token.le
  rw [← h.start_eq, ← hlaid.stop_eq] at hle ⊢
  exact .ofToken hle (fun p hp => hp.covers hlaid.token) (h.told hc)

-- ---------------------------------------------------------------------------
-- The search for the next token
-- ---------------------------------------------------------------------------

/-- The general search is a stretch in which only idle places are told. -/
theorem scanGeneral_unclaimed (legacy : Bool) (hc : c.In text) :
    Unclaimed text (HoldsAt text (IdleOutside legacy)) (InRegion legacy text) c.offset
      (scanGeneral legacy c).stop.offset (scanGeneral legacy c).token.toList
      (scanGeneral legacy c).faults := by
  fun_induction scanGeneral legacy c with
  | case1 c h => exact .ofNone le_rfl
  | case2 c b tail h hspace ih =>
    exact (Unclaimed.ofNone (c.offset_le_advance 1)).append (ih (hc.advance 1))
  | case3 c b tail h hspace found hgen => exact (general?_foundAt hgen).unclaimed hc
  | case4 c b tail h hspace hgen next step ih =>
    -- what the general rules leave over is idle
    have hidle := general?_idle h (by simpa using hspace) hgen
    exact (hc.unclaimed_junk h (hc.holdsAt h hidle)).append (ih (hc.advance _))

/-- The search for the next token is a stretch in which only idle places are
told. -/
theorem scanToken_unclaimed (legacy : Bool) (e : Expectation) (hc : c.In text) :
    Unclaimed text (HoldsAt text (IdleOutside legacy)) (InRegion legacy text) c.offset
      (scanToken legacy e c).stop.offset (scanToken legacy e c).token.toList
      (scanToken legacy e c).faults := by
  unfold scanToken
  split
  · next found hexp =>
    have hfound := (expected?_foundAt hexp).unclaimed (e.place_in hc)
    exact (Unclaimed.ofNone (e.offset_le_place c)).append hfound
  · exact scanGeneral_unclaimed legacy hc

namespace Lexer

/-- What one call adds to the diagnostics tells only what it left over. -/
theorem next_unclaimed {l l' : Lexer} {token : Option Token} (hl : l.cursor.In text)
    (hn : l.next = (token, l')) :
    ∃ ds, l'.diagnostics = l.diagnostics ++ ds ∧
      Unclaimed text (HoldsAt text (IdleOutside l.options.legacyIdentifiers))
        (InRegion l.options.legacyIdentifiers text) l.position l'.position token.toList ds := by
  simp only [next, Prod.mk.injEq] at hn
  obtain ⟨rfl, rfl⟩ := hn
  exact ⟨_, rfl, (scanToken_unclaimed _ _ hl).report l.options⟩

/-- What a run tells starts at idle places, outside its tokens or inside
them. -/
theorem run_unclaimed {l : Lexer} (hl : l.cursor.In text) :
    ∃ ds, l.run.2.diagnostics = l.diagnostics ++ ds ∧
      Unclaimed text (HoldsAt text (IdleOutside l.options.legacyIdentifiers))
        (InRegion l.options.legacyIdentifiers text) l.position text.length l.tokens ds := by
  induction l using run.induct with
  | case1 l l' hn =>
    obtain ⟨hin, hrest, -⟩ := next_exhausted hl hn
    obtain ⟨ds, hds, hstretch⟩ := next_unclaimed hl hn
    rw [run_of_next_none hn, tokens_of_next_none hn, ← hin.offset_eq_length hrest]
    exact ⟨ds, hds, hstretch⟩
  | case2 l t l' hn ts l'' hrun ih =>
    obtain ⟨ds, hds, hstretch⟩ := next_unclaimed hl hn
    obtain ⟨es, hes, hrest⟩ := ih (next_in hl hn)
    rw [next_options hn] at hrest
    rw [run_of_next_some hn, tokens_of_next_some hn]
    refine ⟨ds ++ es, ?_, hstretch.append hrest⟩
    rw [hes, hds, List.append_assoc]

end Lexer

/--
**Nothing that matches a rule is skipped.** Every diagnostic of unrecognised
input is cut from its left end into whole pieces, and no rule of the context
applies where one of them starts.
-/
theorem lex_noRule (source : Bytes) (options : LexOptions) :
    ∀ d ∈ (lex source options).2, d.fault = .unrecognized →
      Pieced source (NoRuleAt options.legacyIdentifiers source (lex source options).1)
        d.span.start d.span.stop := by
  obtain ⟨ds, hds, hstretch⟩ := Lexer.run_unclaimed (Lexer.start_in source options)
  have hdiag : (lex source options).2 = ds := hds
  have hmem : ∀ t ∈ (Lexer.start source options).tokens, t ∈ (lex source options).1 := by
    intro t ht
    rw [lex_eq_tokens]
    exact List.mem_append_left _ ht
  rw [hdiag]
  refine hstretch.pieces.mono ?_
  rintro p ⟨-, ⟨hfree, hidle⟩ | ⟨t, ht, hregion⟩⟩
  · -- outside the tokens of the run is outside those of the stream
    refine .outside ?_ hidle
    intro t ht hcov
    rw [lex_eq_tokens, List.mem_append, List.mem_singleton] at ht
    rcases ht with ht | rfl
    · exact hfree t ht hcov
    · -- the end of the input covers nothing
      exact absurd (hcov.1.trans_lt hcov.2) (lt_irrefl _)
  · cases hregion with
    | args kind exposed idle => exact .inArgs (hmem t ht) kind exposed idle
    | @template u mem here =>
      have hforest : u ∈ Token.forest (lex source options).1 :=
        Token.mem_forest.mpr
          ⟨t, hmem t ht, Or.inr (Token.mem_forest.mpr ⟨u, mem, Or.inl rfl⟩)⟩
      exact .inTemplate hforest here.1 here.2.1 here.2.2

/-- An argument list that tells the tail of a word and an `é` behind it as one. -/
theorem lex_noRule_wordTail :
    let source := ascii "== a(B_x" ++ [0xC3, 0xA9] ++ ascii ")"
    (.unrecognized ⟨6, 10⟩ ∈ (lex source {}).2 ∧ pieceEnd source 6 = 8 ∧ pieceEnd source 8 = 10) ∧
      Pieced source (NoRuleAt false source (lex source {}).1) 6 10 := by
  intro source
  have htold : .unrecognized ⟨6, 10⟩ ∈ (lex source {}).2 := by decide +kernel
  refine ⟨⟨htold, by decide +kernel, by decide +kernel⟩, ?_⟩
  exact lex_noRule source {} _ htold rfl

end StoryLex
