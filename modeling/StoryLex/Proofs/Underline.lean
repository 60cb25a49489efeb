import StoryLex.Proofs.Carets
import StoryLex.Proofs.Characters
import StoryLex.Proofs.CutOff

/-!
# StoryLex — underlines and the shown line

A report shows a line without its end, but its carets count the characters of
the text. So carets can only leave the shown line if the diagnostic takes in the
end of its line. No caret is drawn for a newline; for a carriage return in front
of it there may be one. This module says when that happens, and that nothing
else leads past the line (`lex_underline`).

**Geometry.** Carets end in front of a place in the line
(`Diagnostic.exists_caretsEnd`). Up to that place the line is shown, unless it
is the end of the line, behind a carriage return (`characters_take_le`).

**Who gets there.** A region that was cut off ends where its line or the script
does. In skipped input a carriage return is a piece of its own
(`Pieced.ends_at`), and it is white space everywhere but in a template. A
template around it that holds the end of its line was cut off there
(`InTemplate.cutOff`).
-/

namespace StoryLex

variable {text line : Bytes} {n o p : Nat}

-- ---------------------------------------------------------------------------
-- The front of a line
-- ---------------------------------------------------------------------------

/-- The front of a line is shown, but for a carriage return at the end of it all. -/
theorem characters_take_le (hn : n ≤ line.length) :
    (characters (line.take n) ≤ characters (withoutReturn line) ↔
        ¬ (n = line.length ∧ line.getLast? = some carriageReturn)) ∧
      characters (line.take n) ≤ characters (withoutReturn line) + 1 := by
  by_cases hreturn : line.getLast? = some carriageReturn
  · obtain ⟨front, rfl⟩ := List.getLast?_eq_some_iff.mp hreturn
    have hshown : withoutReturn (front ++ [carriageReturn]) = front := by
      rw [withoutReturn, if_pos hreturn, List.dropLast_concat]
    rw [hshown]
    rcases hn.eq_or_lt with rfl | hlt
    · have hone : characters [carriageReturn] = 1 := by decide
      -- the whole line: the carriage return is one character that is not shown
      rw [List.take_length, characters_append, hone]
      simp [hreturn]
    · have hfront : n ≤ front.length := by
        rw [List.length_append, List.length_singleton] at hlt
        omega
      have hle : characters (front.take n) ≤ characters front := (front.take_sublist n).countP_le
      rw [List.take_append_of_le_length hfront]
      exact ⟨⟨fun _ h => hlt.ne h.1, fun _ => hle⟩, Nat.le_succ_of_le hle⟩
  · have hle : characters (line.take n) ≤ characters line := (line.take_sublist n).countP_le
    rw [withoutReturn, if_neg hreturn]
    exact ⟨⟨fun _ h => hreturn h.2, fun _ => hle⟩, Nat.le_succ_of_le hle⟩

theorem bytes_succ (ho : o < text.length) : Span.bytes ⟨o, o + 1⟩ text = [text[o]] := by
  rw [Span.bytes, Nat.add_sub_cancel_left, List.drop_eq_getElem_cons ho]
  rfl

/-- What begins with a character has one at least. -/
theorem characters_bytes_pos (hchar : CharAt text o) (hop : o < p) (ho : o < text.length) :
    0 < characters (Span.bytes ⟨o, p⟩ text) := by
  rw [CharAt, List.head?_drop, List.getElem?_eq_getElem ho, Option.any_some] at hchar
  refine List.countP_pos_iff.mpr ⟨text[o], ?_, ?_⟩
  · refine List.mem_of_getElem? (i := 0) ?_
    show ((text.drop o).take (p - o))[0]? = _
    rw [List.getElem?_take_of_lt (by omega), List.getElem?_drop, Nat.add_zero,
      List.getElem?_eq_getElem ho]
  · rw [← not_isContinuation, hchar]
    rfl

theorem Around.getElem? {above row below : Bytes} (h : Around text above row below)
    (hlo : above.length ≤ o) (hhi : o < above.length + row.length) :
    text[o]? = row[o - above.length]? := by
  rw [h.text_eq, List.getElem?_append_right hlo, List.getElem?_append_left (by omega)]

namespace Diagnostic

variable {d : Diagnostic}

/-- A diagnostic that goes on to the end of the line in which it starts, over a
carriage return. -/
def ReachesReturn (text : Bytes) (d : Diagnostic) : Prop :=
  d.span.stop = (lineAround text d.span.start).stop ∧
    ((lineAround text d.span.start).bytes text).getLast? = some carriageReturn

instance (text : Bytes) (d : Diagnostic) : Decidable (d.ReachesReturn text) :=
  inferInstanceAs (Decidable (_ ∧ _))

/-- Carets end in front of a place in the line: where the diagnostic ends, or
behind its first byte if it goes on behind its line. -/
theorem exists_caretsEnd {above below : Bytes} (h : Around text above line below)
    (haround : lineAround text d.span.start = ⟨above.length, above.length + line.length⟩)
    (hlo : above.length ≤ d.span.start) (hhi : d.span.start ≤ above.length + line.length)
    (hspan : d.span.start < d.span.stop) (hstop : d.span.stop ≤ text.length)
    (hchar : CharAt text d.span.start)
    (hfirst : newline ∈ d.span.bytes text →
      text[d.span.start]? ≠ some newline ∧ text[d.span.start]? ≠ some carriageReturn) :
    ∃ p, d.span.start ≤ p ∧ p ≤ above.length + line.length ∧
      d.carets text = characters (Span.bytes ⟨d.span.start, p⟩ text) ∧
      (d.ReachesReturn text ↔
        p = above.length + line.length ∧ line.getLast? = some carriageReturn) := by
  have hstart : d.span.start < text.length := hspan.trans_le hstop
  have hline : (lineAround text d.span.start).bytes text = line := by
    rw [haround, h.bytes_line]
  by_cases hlines : newline ∈ d.span.bytes text
  · -- one caret, below a byte that is no part of the end of a line
    obtain ⟨hnewline, hreturn⟩ := hfirst hlines
    have hbyte := bytes_succ hstart
    have hsucc : d.span.start + 1 ≤ above.length + line.length := by
      refine h.le_of_newline_notMem hhi hstart ?_
      rw [hbyte, List.mem_singleton]
      intro heq
      exact hnewline (by rw [List.getElem?_eq_getElem hstart, heq])
    refine ⟨d.span.start + 1, Nat.le_succ _, hsucc, ?_, ?_⟩
    · have hpos := characters_bytes_pos hchar (Nat.lt_succ_self _) hstart
      have hle : characters [text[d.span.start]] ≤ 1 := List.countP_le_length
      rw [carets, if_pos hlines]
      rw [hbyte] at hpos ⊢
      omega
    · constructor
      · rintro ⟨hend, -⟩
        rw [haround] at hend
        rw [show d.span.bytes text = _ from h.bytes hlo hspan.le (Nat.le_of_eq hend)] at hlines
        exact absurd (List.mem_of_mem_drop (List.mem_of_mem_take hlines)) h.line
      · rintro ⟨hend, hlast⟩
        have hindex : line.length - 1 = d.span.start - above.length := by omega
        rw [List.getLast?_eq_getElem?, hindex, ← h.getElem? hlo hsucc] at hlast
        exact absurd hlast hreturn
  · have hend := h.le_of_newline_notMem hhi hstop hlines
    -- the diagnostic stays in its line, and the carets with it
    refine ⟨d.span.stop, hspan.le, hend, ?_, ?_⟩
    · rw [carets, if_neg hlines]
      exact max_eq_right (characters_bytes_pos hchar hspan hstart)
    · rw [ReachesReturn, hline, haround]

/-- How far the carets of a diagnostic go: to the last character of the shown
line at most, or one further if it reaches a carriage return. -/
theorem underline_le (hspan : d.span.start < d.span.stop) (hstop : d.span.stop ≤ text.length)
    (hchar : CharAt text d.span.start)
    (hfirst : newline ∈ d.span.bytes text →
      text[d.span.start]? ≠ some newline ∧ text[d.span.start]? ≠ some carriageReturn) :
    let shown := withoutReturn ((lineAround text d.span.start).bytes text)
    (d.indent text + d.carets text ≤ characters shown ↔ ¬ d.ReachesReturn text) ∧
      d.indent text + d.carets text ≤ characters shown + 1 := by
  intro shown
  obtain ⟨above, line, below, h, haround, hlo, hhi⟩ := around_offset (hspan.le.trans hstop)
  obtain ⟨p, hp, hend, hcarets, hreaches⟩ :=
    exists_caretsEnd h haround hlo hhi hspan hstop hchar hfirst
  have hshown : shown = withoutReturn line := by
    rw [← h.bytes_line, ← haround]
  -- up to that place, the line is indented or marked
  have hfront : d.indent text + d.carets text = characters (line.take (p - above.length)) := by
    have hsplit : p - above.length = d.span.start - above.length + (p - d.span.start) := by omega
    rw [indent, hcarets, haround, h.bytes le_rfl hlo hhi, h.bytes hlo hp hend, Nat.sub_self,
      List.drop_zero, ← characters_append, ← List.take_add, ← hsplit]
  have hwhole : p - above.length = line.length ↔ p = above.length + line.length := by omega
  rw [hfront, hshown, hreaches, ← hwhole]
  exact characters_take_le (by omega)

/-- A diagnostic that reaches a carriage return ends behind it, and there its
line ends. -/
theorem ReachesReturn.lineEnd (h : d.ReachesReturn text) (hspan : d.span.start < d.span.stop)
    (hstop : d.span.stop ≤ text.length) :
    text[d.span.stop - 1]? = some carriageReturn ∧
      (text.drop d.span.stop).head?.all (· == newline) = true := by
  obtain ⟨above, line, below, haround, heq, hlo, hhi⟩ := around_offset (hspan.le.trans hstop)
  obtain ⟨hend, hlast⟩ := h
  rw [heq] at hend hlast
  rw [haround.bytes_line] at hlast
  have hend' : d.span.stop = above.length + line.length := hend
  refine ⟨?_, ?_⟩
  · have hindex : line.length - 1 = d.span.stop - 1 - above.length := by omega
    rw [List.getLast?_eq_getElem?, hindex, ← haround.getElem? (by omega) (by omega)] at hlast
    exact hlast
  · rw [hend']
    exact haround.lineEnd

end Diagnostic

-- ---------------------------------------------------------------------------
-- Who reaches a carriage return
-- ---------------------------------------------------------------------------

/-- A piece has a byte at least. -/
theorem lt_pieceEnd (text : Bytes) (p : Nat) : p < pieceEnd text p := by
  unfold pieceEnd
  split
  · next hany =>
    obtain ⟨x, hx, hword⟩ := (Option.any_eq_true _ _).mp hany
    obtain ⟨hp, rfl⟩ := List.getElem?_eq_some_iff.mp hx
    rw [runEnd, runLength, List.drop_eq_getElem_cons hp, List.takeWhile_cons_of_pos hword,
      List.length_cons]
    omega
  · exact Nat.lt_of_lt_of_le (Nat.lt_succ_self p) (Nat.le_add_right _ _)

/-- A byte that goes on with no word and no character is a piece of its own. -/
theorem Pieced.ends_at {P : Nat → Prop} {lo hi : Nat} {x : UInt8} (h : Pieced text P lo hi)
    (hx : text[hi - 1]? = some x) (hword : isWord x = false)
    (hcontinuation : isContinuation x = false) : P (hi - 1) := by
  induction h with
  | @last p here =>
    have hlt := lt_pieceEnd text p
    have hp := eq_of_lt_pieceEnd hx hword hcontinuation (Nat.le_sub_one_of_lt hlt) (by omega)
    exact hp ▸ here
  | more here rest ih => exact ih hx

variable {legacy : Bool} {t : Token} {d : Diagnostic} {source : Bytes} {options : LexOptions}

/-- A template around the last byte of a line was cut off behind it. -/
theorem InTemplate.cutOff (h : InTemplate text t p) (hspelled : t.WellSpelled legacy text)
    (hplaced : t.WellPlaced text)
    (hend : (text.drop (p + 1)).head?.all (· == newline) = true) :
    t.unterminated = true ∧ t.span.stop = p + 1 := by
  obtain ⟨hkind, ⟨hinner, -⟩, -⟩ := h
  obtain ⟨hbytes, hword⟩ := hspelled
  rw [hkind] at hword
  have hline : newline ∉ t.span.bytes text := hbytes ▸ hword.2.1
  simp only [Span.Covers, Token.inner] at hinner
  have hstop := Span.stop_le_of_lineEnd hline (by omega) hplaced.inText hend
  cases hopen : t.unterminated with
  | true =>
    rw [hopen, if_pos rfl] at hinner
    exact ⟨rfl, by omega⟩
  | false =>
    -- a closing mark would have to stand between the last byte of the line and its end
    rw [hopen, if_neg Bool.false_ne_true] at hinner
    omega

/-- Skipped input goes over a carriage return at the end of a line only with a
template that is cut off there. -/
theorem cutOff_of_unrecognized (hd : d ∈ (lex source options).2) (hfault : d.fault = .unrecognized)
    (hspan : d.span.start < d.span.stop) (hstop : d.span.stop ≤ source.length)
    (hreturn : d.ReachesReturn source) :
    ∃ t ∈ Token.forest (Lexer.start source options).tokens,
      t.unterminated = true ∧ t.span.stop = d.span.stop := by
  have hin := Lexer.start_in source options
  obtain ⟨hbyte, hend⟩ := hreturn.lineEnd hspan hstop
  obtain ⟨ds, hds, hstretch⟩ := Lexer.run_unclaimed hin
  have htold : (lex source options).2 = ds := hds
  rw [htold] at hd
  obtain ⟨-, hcontext⟩ :=
    (hstretch.pieces d hd hfault).ends_at hbyte (by decide) (by decide)
  -- outside all tokens, and in an argument list, it is white space
  rcases hcontext with ⟨-, hidle⟩ | ⟨s, hs, hregion⟩
  · obtain ⟨tail, hidle⟩ := hidle.at_byte hbyte
    exact absurd hidle.space (by decide)
  · cases hregion with
    | args kind exposed idle =>
      obtain ⟨tail, hidle⟩ := idle.at_byte hbyte
      exact absurd hidle.space (by decide)
    | @template t mem here =>
      have ht := Token.mem_forest_of_nested hs mem
      have hsucc : d.span.stop - 1 + 1 = d.span.stop := by omega
      have hcut := here.cutOff (Lexer.tokens_wellSpelled hin t ht)
        ((Lexer.tokens_laid hin).wellPlaced t ht) (hsucc ▸ hend)
      exact ⟨t, ht, hcut.1, hcut.2.trans hsucc⟩

/-- What is told to be cut off is a token flagged so, at the same place. -/
theorem token_of_unterminated (hd : d ∈ (lex source options).2)
    (hfault : d.fault = .unterminated) :
    ∃ t ∈ Token.forest (Lexer.start source options).tokens,
      t.unterminated = true ∧ t.span = d.span := by
  have hcut : d ∈ (lex source options).2.filter Diagnostic.isCutOff :=
    List.mem_filter.mpr ⟨hd, decide_eq_true hfault⟩
  have htold : (lex source options).2.filter Diagnostic.isCutOff =
      Token.cutOffs (Lexer.start source options).tokens :=
    (Lexer.start source options).run_cutOffs
  rw [htold, Token.cutOffs] at hcut
  obtain ⟨t, ht, rfl⟩ := List.mem_map.mp hcut
  obtain ⟨ht, hopen⟩ := List.mem_filter.mp ht
  exact ⟨t, ht, hopen, rfl⟩

/-- The regions that can be cut off open with a mark. -/
theorem Token.WellSpelled.opening (h : t.WellSpelled legacy text) (hle : t.span.start ≤ t.span.stop)
    (hk : t.kind = .template ∨ t.kind = .sceneArgs) :
    text[t.span.start]? = some openBrace ∨ text[t.span.start]? = some (byte '(') := by
  obtain ⟨hbytes, hword⟩ := h
  rw [← List.head?_drop, ← t.span.bytes_append_drop text hle, ← hbytes]
  rcases hk with hk | hk <;> rw [hk] at hword
  · obtain ⟨⟨inside, heq, -⟩, -⟩ := hword
    rw [heq]
    exact Or.inl rfl
  · obtain ⟨⟨inside, heq, -⟩, -⟩ := hword
    rw [heq]
    exact Or.inr rfl

/-- A diagnostic that goes on behind its line starts with the mark of a region. -/
theorem opening_of_newline (hd : d ∈ (lex source options).2)
    (hspan : d.span.start < d.span.stop) (hlines : newline ∈ d.span.bytes source) :
    source[d.span.start]? = some openBrace ∨ source[d.span.start]? = some (byte '(') := by
  have hin := Lexer.start_in source options
  cases hfault : d.fault with
  | unrecognized =>
    obtain ⟨ds, hds, hline⟩ := Lexer.run_skips_no_newline hin
    have htold : (lex source options).2 = ds := hds
    rw [htold] at hd
    exact absurd hlines (hline d hd hfault)
  | unterminated =>
    obtain ⟨t, ht, hopen, heq⟩ := token_of_unterminated hd hfault
    -- it is the region that was cut off, and starts where its mark does
    have hkind := Token.Shaped.kind_of_unterminated (Lexer.tokens_shaped hin) ht hopen
    rw [← heq] at hspan ⊢
    exact (Lexer.tokens_wellSpelled hin t ht).opening hspan.le hkind

/--
**Underlines stay below the shown line, up to a carriage return.** Read a text
that is valid UTF-8 from the boundary of a character on, and report on what was
told. The carets end below the last character of the shown line at most, unless
the diagnostic reaches a carriage return at the end of its line. Then there is
just one more, below no character; and a region was cut off behind that return.
-/
theorem lex_underline (name source : Bytes) (options : LexOptions) (hsource : IsUtf8 source)
    (hstart : IsBoundary source (min options.startOffset source.length)) :
    ∀ d ∈ (lex source options).2,
      let shown := withoutReturn ((lineAround source d.span.start).bytes source)
      d.report name (.ofText source) false =
          d.heading name source ++ newline :: ((spaces 2 ++ shown) ++ newline ::
            ((spaces (2 + d.indent source) ++ List.replicate (d.carets source) (byte '^')) ++
              [newline])) ∧
        (d.indent source + d.carets source ≤ characters shown ↔ ¬ d.ReachesReturn source) ∧
        d.indent source + d.carets source ≤ characters shown + 1 ∧
        (d.ReachesReturn source → ∃ t ∈ Token.forest (lex source options).1,
          t.unterminated = true ∧ t.span.stop = d.span.stop) := by
  intro d hd shown
  have hin := Lexer.start_in source options
  have horder := (Lexer.after_inOrder source options [.run]).spans d hd
  have hspan : d.span.start < d.span.stop := horder.1
  have hstop : d.span.stop ≤ source.length := horder.2.trans (Lexer.after_in hin [.run]).offset_le
  have hchars := (Lexer.run_onChars hsource.whole (Lexer.start_onChars hsource hstart)).told d hd
  -- a diagnostic that goes on behind its line starts with a mark, so not with its end
  obtain ⟨hiff, hle⟩ := Diagnostic.underline_le hspan hstop hchars.start (by
    intro hlines
    rcases opening_of_newline hd hspan hlines with hbyte | hbyte <;> rw [hbyte] <;> decide)
  refine ⟨Diagnostic.report_plain name hspan.le hstop, hiff, hle, ?_⟩
  intro hreturn
  obtain ⟨t, ht, hcut⟩ : ∃ t ∈ Token.forest (Lexer.start source options).tokens,
      t.unterminated = true ∧ t.span.stop = d.span.stop := by
    cases hfault : d.fault with
    | unrecognized => exact cutOff_of_unrecognized hd hfault hspan hstop hreturn
    | unterminated =>
      obtain ⟨t, ht, hopen, heq⟩ := token_of_unterminated hd hfault
      exact ⟨t, ht, hopen, congrArg Span.stop heq⟩
  refine ⟨t, ?_, hcut⟩
  rw [lex_eq_tokens, Token.mem_forest_append_eof]
  exact Or.inl ht

/-- A carriage return that is skipped in a template: its caret stands below no
character, and the template was cut off behind it. -/
theorem lex_underline_skippedReturn :
    let source := ascii "> \x7b\x7bName\r\n"
    let d := Diagnostic.unrecognized ⟨8, 9⟩
    (IsUtf8 source ∧ IsBoundary source 0 ∧ d ∈ (lex source {}).2) ∧
      ¬ d.indent source + d.carets source ≤ characters (ascii "> \x7b\x7bName") ∧
      ∃ t ∈ Token.forest (lex source {}).1, t.unterminated = true ∧ t.span.stop = 9 := by
  intro source d
  have hsource : IsUtf8 source := by decide +kernel
  have hstart : IsBoundary source 0 := by decide +kernel
  have htold : d ∈ (lex source {}).2 := by decide +kernel
  have hreturn : d.ReachesReturn source := by decide +kernel
  have hshown : withoutReturn ((lineAround source d.span.start).bytes source) =
      ascii "> \x7b\x7bName" := by
    decide +kernel
  obtain ⟨-, hiff, -, hcut⟩ := lex_underline (ascii "t.svr") source {} hsource hstart d htold
  rw [hshown] at hiff
  exact ⟨⟨hsource, hstart, htold⟩, fun hle => hiff.mp hle hreturn, hcut hreturn⟩

/-- A template that is cut off in a line with a carriage return: seven carets
behind two blanks, below a line of eight characters. -/
theorem lex_underline_carriageReturn :
    let source := ascii "> \x7b\x7bName\r\n"
    let d := Diagnostic.unterminated .template ⟨2, 9⟩
    (IsUtf8 source ∧ IsBoundary source 0 ∧ (lex source ⟨0, false, false⟩).2 = [d]) ∧
      d.report (ascii "t.svr") (.ofText source) false =
        ascii "t.svr:1:3: unterminated: unterminated template, expected '\x7d\x7d'\n" ++
          ascii "  > \x7b\x7bName\n" ++ ascii "    ^^^^^^^\n" ∧
      ¬ d.indent source + d.carets source ≤
        characters (withoutReturn ((lineAround source d.span.start).bytes source)) := by
  decide +kernel

end StoryLex
