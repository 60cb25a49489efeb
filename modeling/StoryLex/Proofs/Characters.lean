import StoryLex.Proofs.Grammar
import StoryLex.Proofs.Order
import StoryLex.Proofs.Utf8

/-!
# StoryLex — characters stay whole

Texts are read byte by byte, and the rules are written over ASCII; yet in a
text that is valid UTF-8 no token and no diagnostic begins or ends inside a
character (`lex_boundaries`). All that the proof asks of the text is that no
character goes on behind an ASCII byte (`Whole`).

**Tokens.** A token begins with an ASCII byte. It ends with one too, or else at the
end of a line or of the text. Both are read off its spelling (`Spelled.charAt`).

**Skipped input.** What is skipped begins where something else has ended, and
whatever stands at a place, a character never goes on behind it: what is skipped
ends behind a word or behind all continuation bytes (`Rule.junk_charAt`), and all
else ends in ASCII. This is kept in a region from piece to piece
(`scanBody_onChars`), in the search for a token (`scanGeneral_onChars`) and from
call to call (`Lexer.OnChars.next`).
-/

namespace StoryLex

-- ---------------------------------------------------------------------------
-- Places between characters
-- ---------------------------------------------------------------------------

theorem not_isContinuation_of_isAscii :
    ∀ x : UInt8, isAscii x = true → isContinuation x = false := by
  decide +kernel

theorem isAscii_of_isWord : ∀ x : UInt8, isWord x = true → isAscii x = true := by
  decide +kernel

variable {text word after : Bytes} {c : Cursor}

namespace Whole

theorem drop (h : Whole text) (n : Nat) : Whole (text.drop n) := List.IsChain.drop h n

theorem take (h : Whole text) (n : Nat) : Whole (text.take n) := List.IsChain.take h n

/-- No character goes on behind a word that ends in ASCII. -/
theorem of_getLast? (h : Whole (word ++ after)) (hlast : word.getLast?.any isAscii = true) :
    after.head?.any isContinuation = false := by
  obtain ⟨-, -, hmeet⟩ := List.isChain_append.mp h
  obtain ⟨x, hx, hascii⟩ := (Option.any_eq_true _ _).mp hlast
  rw [Option.any_eq_false]
  exact fun y hy => hmeet x hx y hy hascii

end Whole

/-- Some bytes, all of them ASCII. -/
structure IsAsciiWord (word : Bytes) : Prop where
  nonempty : word ≠ []
  ascii    : ∀ x ∈ word, isAscii x = true

namespace IsAsciiWord

theorem head? (h : IsAsciiWord word) : (word ++ after).head?.any isContinuation = false := by
  obtain ⟨x, w, rfl⟩ := List.exists_cons_of_ne_nil h.nonempty
  exact not_isContinuation_of_isAscii x (h.ascii x (List.mem_cons_self ..))

theorem getLast? (h : IsAsciiWord word) : word.getLast?.any isAscii = true := by
  rw [List.getLast?_eq_some_getLast h.nonempty, Option.any_some]
  exact h.ascii _ (List.getLast_mem h.nonempty)

end IsAsciiWord

/-- A span that begins and ends at places inside no character. -/
structure Span.OnChars (text : Bytes) (s : Span) : Prop where
  start : CharAt text s.start
  stop  : CharAt text s.stop

namespace CharAt

variable {n i : Nat}

/-- Between the line that goes on and the whole text there is no difference. -/
theorem of_take (h : CharAt (text.take n) i) (hi : i ≤ n)
    (hline : (text.drop n).head?.all (· == newline) = true) : CharAt text i := by
  rcases head?_drop_take hi hline with heq | ⟨-, hnewline⟩
  · rw [CharAt, heq]
    exact h
  · rw [CharAt, hnewline]
    rfl

end CharAt

namespace Cursor.In

/-- A place is inside no character if no character goes on there. -/
theorem charAt_iff (hc : c.In text) :
    CharAt text c.offset ↔ c.rest.head?.any isContinuation = false := by
  rw [CharAt, ← hc.rest_eq]

theorem whole_rest (hc : c.In text) (hw : Whole text) : Whole c.rest := by
  rw [hc.rest_eq]
  exact hw.drop _

/-- An ASCII word lies between characters. -/
theorem charAt_of_word (hc : c.In text) (hw : Whole text) (hrest : c.rest = word ++ after)
    (hword : IsAsciiWord word) :
    CharAt text c.offset ∧ CharAt text (c.advance word.length).offset := by
  have hafter : (c.advance word.length).rest = after := by
    rw [rest_advance, hrest, List.drop_left]
  have hwhole : Whole (word ++ after) := hrest ▸ hc.whole_rest hw
  rw [hc.charAt_iff, (hc.advance _).charAt_iff, hafter, hrest]
  exact ⟨hword.head?, hwhole.of_getLast? hword.getLast?⟩

end Cursor.In

-- ---------------------------------------------------------------------------
-- Tokens
-- ---------------------------------------------------------------------------

theorem isWord_of_isSceneStart (legacy : Bool) :
    ∀ x : UInt8, isSceneStart legacy x = true → isWord x = true := by
  cases legacy <;> decide +kernel

/-- A name whose classes are classes of word bytes is ASCII. -/
theorem Named.isAsciiWord {first later : UInt8 → Bool} (h : Named first later word)
    (hfirst : ∀ x, first x = true → isWord x = true)
    (hlater : ∀ x, later x = true → isWord x = true) : IsAsciiWord word := by
  refine ⟨?_, fun x hx => isAscii_of_isWord x (h.forall_mem hfirst hlater x hx)⟩
  obtain ⟨b, w, rfl, -⟩ := h
  exact List.cons_ne_nil b w

/-- A mark in ASCII with such a name behind it is ASCII. -/
theorem Marked.isAsciiWord {mark : UInt8} {first later : UInt8 → Bool}
    (h : Marked mark first later word after) (hmark : isAscii mark = true)
    (hfirst : ∀ x, first x = true → isWord x = true)
    (hlater : ∀ x, later x = true → isWord x = true) : IsAsciiWord word := by
  obtain ⟨⟨name, rfl, hname⟩, -⟩ := h
  exact ⟨List.cons_ne_nil _ _,
    List.forall_mem_cons.mpr ⟨hmark, (hname.isAsciiWord hfirst hlater).ascii⟩⟩

instance : Decidable (IsAsciiWord word) :=
  decidable_of_iff (word ≠ [] ∧ word.all isAscii = true)
    ⟨fun h => ⟨h.1, List.all_eq_true.mp h.2⟩, fun h => ⟨h.nonempty, List.all_eq_true.mpr h.ascii⟩⟩

variable {legacy cut : Bool} {before : Option UInt8} {k : Kind}

/-- All tokens but regions are written in ASCII. -/
theorem Spelled.isAsciiWord (h : Spelled legacy cut before word after k)
    (hregion : k.isRegion = false) (heof : k ≠ .eof) : IsAsciiWord word := by
  have hself : ∀ x : UInt8, isWord x = true → isWord x = true := fun _ hx => hx
  cases k with
  | comment | string | template | sceneArgs => exact Bool.noConfusion hregion
  | eof => exact absurd rfl heof
  | equals | sceneDef =>
    rw [h.1]
    decide +kernel
  | modSep | divert | choice | send | endMark =>
    rw [show word = _ from h]
    decide +kernel
  | sceneName => exact h.1.isAsciiWord (isWord_of_isSceneStart legacy) hself
  | modName => exact h.1.isAsciiWord (fun _ => Rule.isWord_of_isLetter) hself
  | label | atom =>
    cases legacy with
    | true => exact Marked.isAsciiWord h (by decide) hself hself
    | false => exact Marked.isAsciiWord h (by decide) isWord_of_isLower isWord_of_isSnake
  | macroName =>
    cases legacy with
    | true => exact Marked.isAsciiWord h (by decide) hself hself
    | false => exact Marked.isAsciiWord h (by decide) isWord_of_isUpper isWord_of_isScreaming
  | variableName => exact h.1.isAsciiWord isWord_of_isUpper (fun _ => Rule.isWord_of_isLetter)
  | number => exact h.1.isAsciiWord isWord_of_isDigit isWord_of_isDigit
  | random =>
    obtain ⟨⟨count, sides, rfl, hcount, hsides⟩, -⟩ := h
    have hcount' := hcount.isAsciiWord isWord_of_isDigit isWord_of_isDigit
    have hsides' := hsides.isAsciiWord isWord_of_isDigit isWord_of_isDigit
    exact ⟨List.append_ne_nil_of_left_ne_nil hcount'.nonempty _,
      List.forall_mem_append.mpr
        ⟨hcount'.ascii, List.forall_mem_cons.mpr ⟨by decide, hsides'.ascii⟩⟩⟩
  | arithmetic =>
    rcases h with rfl | rfl | rfl | ⟨rfl, -⟩ | ⟨rfl, -⟩ <;> decide +kernel
  | keywordMatch =>
    have hall : ∀ w ∈ matchKeywords, IsAsciiWord w := by decide +kernel
    exact hall word h.1
  | keywordCommand =>
    have hall : ∀ w ∈ commandKeywords, IsAsciiWord w := by decide +kernel
    exact hall word h.1
  | keywordFrom =>
    rw [h.1]
    decide +kernel
  | reserved =>
    rcases h.1 with rfl | rfl <;> decide +kernel

/-- A region begins with its opening mark and ends with its closing one, or
where it was cut off. -/
theorem Enclosed.charAt {opening closing : Bytes} (h : Enclosed opening closing cut word)
    (hopening : IsAsciiWord opening) (hclosing : IsAsciiWord closing) :
    (word ++ after).head?.any isContinuation = false ∧
      ((cut = true → after.head?.any isContinuation = false) → Whole (word ++ after) →
        after.head?.any isContinuation = false) := by
  obtain ⟨inside, rfl, -⟩ := h
  refine ⟨?_, ?_⟩
  · rw [List.append_assoc]
    exact hopening.head?
  · intro hcut hw
    cases cut with
    | true => exact hcut rfl
    | false =>
      refine hw.of_getLast? ?_
      rw [if_neg Bool.false_ne_true, ← List.append_assoc,
        List.getLast?_append_of_ne_nil _ hclosing.nonempty]
      exact hclosing.getLast?

/-- A comment or a string begins with its mark and ends with its line. -/
theorem ToLineEnd.charAt {mark : Bytes} (h : ToLineEnd mark word after) (hmark : IsAsciiWord mark) :
    (word ++ after).head?.any isContinuation = false ∧
      after.head?.any isContinuation = false := by
  obtain ⟨⟨line, rfl, -⟩, hend⟩ := h
  refine ⟨?_, head?_any_of_line (by decide) hend⟩
  rw [List.append_assoc]
  exact hmark.head?

/-- A token begins and ends at places inside no character. -/
theorem Spelled.charAt (h : Spelled legacy cut before word after k) (hw : Whole (word ++ after)) :
    (word ++ after).head?.any isContinuation = false ∧ after.head?.any isContinuation = false := by
  by_cases hregion : k.isRegion = false ∧ k ≠ .eof
  · -- not a region: ASCII on both sides
    have hword := h.isAsciiWord hregion.1 hregion.2
    exact ⟨hword.head?, hw.of_getLast? hword.getLast?⟩
  · cases k with
    | comment | string => exact ToLineEnd.charAt h (by decide +kernel)
    | sceneArgs =>
      obtain ⟨hhead, hlast⟩ := h.1.charAt (by decide +kernel) (by decide +kernel)
      refine ⟨hhead, hlast ?_ hw⟩
      intro hcut
      rw [h.2 hcut]
      rfl
    | template =>
      obtain ⟨hhead, hlast⟩ := h.1.charAt (by decide +kernel) (by decide +kernel)
      refine ⟨hhead, hlast ?_ hw⟩
      exact fun hcut => head?_any_of_line (by decide) (h.2.2 hcut)
    | eof =>
      obtain ⟨rfl, rfl⟩ := h
      exact ⟨rfl, rfl⟩
    | _ => exact absurd ⟨rfl, by decide⟩ hregion

/-- A token that is well spelled in a text cuts no character of it. -/
theorem Token.WellSpelled.onChars {t : Token} (h : t.WellSpelled legacy text) (hw : Whole text)
    (hle : t.span.start ≤ t.span.stop) : t.span.OnChars text := by
  have hsplit : t.lexeme ++ text.drop t.span.stop = text.drop t.span.start := by
    rw [h.1]
    exact t.span.bytes_append_drop text hle
  have hchars := h.2.charAt (hsplit ▸ hw.drop _)
  rw [hsplit] at hchars
  exact ⟨hchars.1, hchars.2⟩

-- ---------------------------------------------------------------------------
-- Pieces
-- ---------------------------------------------------------------------------

variable {b : UInt8} {tail : Bytes} {pieceAt : Option UInt8 → UInt8 → Bytes → Piece}
  {filler : UInt8 → Bool} {kinds : List Kind} {width : Nat} {mark : Bytes}

/-- What is skipped ends behind a word, or behind all that goes on with a
character. -/
theorem Rule.junk_charAt (hw : Whole (b :: tail)) :
    (tail.drop (junk b tail)).head?.any isContinuation = false := by
  unfold junk
  split
  · next hb =>
    have hnamed : Named isWord isWord (b :: tail.take (runLength isWord tail)) := named_run hb tail
    -- a word has an ASCII byte at its end
    have hword := hnamed.isAsciiWord (fun _ h => h) (fun _ h => h)
    rw [← List.take_append_drop (runLength isWord tail) tail, ← List.cons_append] at hw
    exact hw.of_getLast? hword.getLast?
  · exact head?_drop_runLength isContinuation tail

/-- Whatever a region has at a place, no character goes on behind it. -/
def EndsOnChar (pieceAt : Option UInt8 → UInt8 → Bytes → Piece) : Prop :=
  ∀ before b tail, Whole (b :: tail) →
    (tail.drop (pieceAt before b tail).more).head?.any isContinuation = false

/-- No character goes on behind filler, a leaf, junk or a closing mark. -/
theorem endsOnChar (legacy : Bool) (hp : PieceSpec pieceAt filler kinds width)
    (hm : PieceMarks pieceAt mark) (hmark : IsAsciiWord mark)
    (hfiller : ∀ x, filler x = true → isAscii x = true)
    (hleaf : ∀ {before b tail m}, pieceAt before b tail = .leaf m →
      Spelled legacy false before (b :: tail.take m.more) (tail.drop m.more) m.kind)
    (hjunk : ∀ {before b tail more}, pieceAt before b tail = .junk more →
      more = Rule.junk b tail) : EndsOnChar pieceAt := by
  intro before b tail hw
  cases hpiece : pieceAt before b tail with
  | close more =>
    obtain ⟨⟨rest, hrest⟩, hlen⟩ := hm.of_close hpiece rfl
    -- what is behind the piece is what is behind the mark
    have hdrop : tail.drop more = rest := by
      have := congrArg (List.drop (more + 1)) hrest
      rw [show more + 1 = mark.length from hlen, List.drop_left, ← hlen] at this
      exact this.symm
    show (tail.drop more).head?.any isContinuation = false
    rw [hdrop]
    rw [← hrest] at hw
    exact hw.of_getLast? hmark.getLast?
  | filler =>
    have hwhole : Whole ([b] ++ tail) := hw
    exact hwhole.of_getLast? (hfiller b (hp.of_filler hpiece))
  | leaf m =>
    rw [← List.take_append_drop m.more tail, ← List.cons_append] at hw
    exact ((hleaf hpiece).charAt hw).2
  | junk more =>
    rw [hjunk hpiece]
    exact Rule.junk_charAt hw

/-- No character goes on behind a piece of an argument list. -/
theorem argsPiece_endsOnChar (legacy : Bool) : EndsOnChar (argsPiece legacy) :=
  endsOnChar legacy (argsPiece_spec legacy) (argsPiece_marks legacy) (by decide +kernel)
    (by decide +kernel) argsPiece_spelled (fun h => (argsPiece_junk h).1)

/-- No character goes on behind a piece of a template. -/
theorem templatePiece_endsOnChar : EndsOnChar templatePiece :=
  endsOnChar false templatePiece_spec templatePiece_marks (by decide +kernel)
    (by decide +kernel) templatePiece_spelled (fun h => (templatePiece_junk h).1)

-- ---------------------------------------------------------------------------
-- Regions
-- ---------------------------------------------------------------------------

/-- Behind each of its pieces a region is inside no character. -/
theorem EndsOnChar.charAt_advance (hends : EndsOnChar pieceAt) (hw : Whole text) (hc : c.In text)
    (hrest : c.rest = b :: tail) {piece : Piece} (hpiece : pieceAt c.before b tail = piece) :
    CharAt text (c.advance (piece.more + 1)).offset := by
  have hwhole : Whole (b :: tail) := hrest ▸ hc.whole_rest hw
  rw [(hc.advance _).charAt_iff, Cursor.rest_advance, hrest, List.drop_succ_cons, ← hpiece]
  exact hends c.before b tail hwhole

/-- A region that is read from a place inside no character comes to such a
place, and cuts none in what it skips. -/
theorem scanBody_onChars (hends : EndsOnChar pieceAt) (hw : Whole text) (hc : c.In text)
    (hhere : CharAt text c.offset) :
    CharAt text (scanBody pieceAt c).stop.offset ∧
      ∀ d ∈ (scanBody pieceAt c).faults, d.span.OnChars text := by
  fun_induction scanBody pieceAt c with
  | case1 c h => exact ⟨hhere, by simp⟩
  | case2 c b tail h more hpiece => exact ⟨hends.charAt_advance hw hc h hpiece, by simp⟩
  | case3 c b tail h hpiece ih => exact ih (hc.advance 1) (hends.charAt_advance hw hc h hpiece)
  | case4 c b tail h m hpiece found body ih =>
    exact ih (hc.advance _) (hends.charAt_advance hw hc h hpiece)
  | case5 c b tail h more hpiece next body ih =>
    -- junk begins where the piece before has ended
    have hnext : CharAt text next.offset := hends.charAt_advance hw hc h hpiece
    obtain ⟨hstop, hfaults⟩ := ih (hc.advance _) hnext
    exact ⟨hstop, List.forall_mem_cons.mpr ⟨⟨hhere, hnext⟩, hfaults⟩⟩

/-- A region behind an opening mark. -/
theorem enclose_onChars (hends : EndsOnChar pieceAt) (hw : Whole text) (hc : c.In text)
    {opening : Bytes} (hrest : c.rest = opening ++ after) (hopening : IsAsciiWord opening)
    (kind : Kind) :
    ∀ d ∈ ((scanBody pieceAt (c.advance opening.length)).enclose c kind).faults,
      d.span.OnChars text := by
  obtain ⟨hhere, hinside⟩ := hc.charAt_of_word hw hrest hopening
  obtain ⟨hstop, hfaults⟩ := scanBody_onChars hends hw (hc.advance opening.length) hinside
  refine List.forall_mem_append.mpr ⟨hfaults, ?_⟩
  split
  · simp
  · exact List.forall_mem_singleton.mpr ⟨hhere, hstop⟩

/-- The templates of a string cut no character in what they skip. -/
theorem scanString_onChars (hw : Whole text) (hc : c.In text) :
    ∀ d ∈ (scanString c).faults, d.span.OnChars text := by
  fun_induction scanString c with
  | case1 c h => simp
  | case2 c b tail h hopen found body ih =>
    obtain ⟨rfl, tail, rfl⟩ := front_of_mark hopen
    have hrest : c.rest = [openBrace, openBrace] ++ tail := h
    have htemplate := enclose_onChars templatePiece_endsOnChar hw hc hrest (by decide +kernel)
      .template
    exact List.forall_mem_append.mpr
      ⟨htemplate, ih (template_laid hc (by simp [h])).stop_in⟩
  | case3 c b tail h hopen ih => exact ih (hc.advance 1)

/-- A string line cuts no character in what is skipped inside it. -/
theorem string_onChars (hw : Whole text) (hc : c.In text) :
    ∀ d ∈ (string c).faults, d.span.OnChars text := by
  have hin := (hc.advance 2).inLine
  have hline := (hc.advance 2).lineEnd
  have hstop := (scanString_inLine (hc.advance 2)).1
  intro d hd
  rw [string_faults] at hd
  -- in the text that ends with the line first, and then in the whole of it
  have hchars := scanString_onChars (hw.take _) hin d hd
  have hbounds := (scanString_row hin).span_lt hd
  rw [hstop] at hbounds
  exact ⟨hchars.start.of_take (hbounds.1.le.trans hbounds.2) hline,
    hchars.stop.of_take hbounds.2 hline⟩

/-- No token that is found cuts a character in what is skipped inside it. -/
theorem FoundAt.onChars {found : Found} (hw : Whole text) (hc : c.In text)
    (h : FoundAt legacy c found) : ∀ d ∈ found.faults, d.span.OnChars text := by
  cases h with
  | leaf rest => exact fun d hd => absurd hd List.not_mem_nil
  | comment rest => exact fun d hd => absurd hd List.not_mem_nil
  | string rest => exact string_onChars hw hc
  | @sceneArgs tail rest =>
    have hrest : c.rest = [byte '('] ++ tail := rest
    exact enclose_onChars (argsPiece_endsOnChar legacy) hw hc hrest (by decide +kernel) .sceneArgs

-- ---------------------------------------------------------------------------
-- The search for the next token
-- ---------------------------------------------------------------------------

variable {found : Found}

/-- The search goes on at a place inside no character. -/
theorem FoundAt.charAt_stop (hw : Whole text) (hc : c.In text) (h : FoundAt legacy c found)
    (hspelled : ∀ u ∈ Token.forest [found.token], u.WellSpelled legacy text) :
    CharAt text found.stop.offset := by
  have hlaid := h.laid hc
  have hle : found.token.span.start ≤ found.token.span.stop := by
    rw [h.start_eq, hlaid.stop_eq]
    exact hlaid.token.le
  have hself : found.token ∈ Token.forest [found.token] := by
    rw [Token.forest_cons]
    exact List.mem_cons_self ..
  rw [← hlaid.stop_eq]
  exact ((hspelled _ hself).onChars hw hle).stop

/-- A search that starts at a place inside no character comes to such a place,
and cuts none in what it skips. -/
theorem scanGeneral_onChars (legacy : Bool) (hw : Whole text) (hc : c.In text)
    (hhere : CharAt text c.offset) :
    CharAt text (scanGeneral legacy c).stop.offset ∧
      ∀ d ∈ (scanGeneral legacy c).faults, d.span.OnChars text := by
  have hspace : ∀ x : UInt8, isSpace x = true → isAscii x = true := by decide +kernel
  fun_induction scanGeneral legacy c with
  | case1 c h => exact ⟨hhere, by simp⟩
  | case2 c b tail h hb ih =>
    -- white space is ASCII
    have hword : IsAsciiWord [b] :=
      ⟨List.cons_ne_nil _ _, List.forall_mem_singleton.mpr (hspace b hb)⟩
    have hrest : c.rest = [b] ++ tail := h
    exact ih (hc.advance 1) (hc.charAt_of_word hw hrest hword).2
  | case3 c b tail h hb found hgen =>
    have hfound := general?_foundAt hgen
    exact ⟨hfound.charAt_stop hw hc (general?_wellSpelled hc hgen), hfound.onChars hw hc⟩
  | case4 c b tail h hb hgen next step ih =>
    have hnext : CharAt text next.offset := by
      rw [(hc.advance _).charAt_iff, Cursor.rest_advance, h, List.drop_succ_cons]
      exact Rule.junk_charAt (h ▸ hc.whole_rest hw)
    obtain ⟨hstop, hfaults⟩ := ih (hc.advance _) hnext
    exact ⟨hstop, List.forall_mem_cons.mpr ⟨⟨hhere, hnext⟩, hfaults⟩⟩

/-- The search for the next token keeps to places inside no character. -/
theorem scanToken_onChars (legacy : Bool) (e : Expectation) (hw : Whole text) (hc : c.In text)
    (hhere : CharAt text c.offset) :
    CharAt text (scanToken legacy e c).stop.offset ∧
      ∀ d ∈ (scanToken legacy e c).faults, d.span.OnChars text := by
  unfold scanToken
  split
  · next found hexp =>
    have hfound := expected?_foundAt hexp
    have hplace := e.place_in hc
    exact ⟨hfound.charAt_stop hw hplace (expected?_wellSpelled hc hexp), hfound.onChars hw hplace⟩
  · exact scanGeneral_onChars legacy hw hc hhere

-- ---------------------------------------------------------------------------
-- Streams
-- ---------------------------------------------------------------------------

namespace Lexer

variable {l : Lexer}

/-- A lexer that stands in no character and has cut none in what it told. -/
structure OnChars (text : Bytes) (l : Lexer) : Prop where
  place : l.cursor.In text
  here  : CharAt text l.position
  told  : ∀ d ∈ l.diagnostics, d.span.OnChars text

/-- A call of `next` leaves the lexer inside no character, with none cut. -/
theorem OnChars.next (hw : Whole text) (h : l.OnChars text) : l.next.2.OnChars text := by
  obtain ⟨hstop, hfaults⟩ :=
    scanToken_onChars l.options.legacyIdentifiers l.expectation hw h.place h.here
  refine ⟨next_in h.place rfl, hstop, ?_⟩
  refine List.forall_mem_append.mpr ⟨h.told, ?_⟩
  intro d hd
  -- a joined piece begins with one that was met and ends with one
  obtain ⟨⟨a, ha, -, hstart⟩, z, hz, -, hend⟩ := LexOptions.mem_report hd
  exact ⟨hstart ▸ (hfaults a ha).start, hend ▸ (hfaults z hz).stop⟩

/-- A run leaves the lexer inside no character, with none cut. -/
theorem run_onChars (hw : Whole text) (h : l.OnChars text) : l.run.2.OnChars text :=
  run_preserves (P := OnChars text) (fun _ h => h.next hw) h

/-- No token of a run cuts a character. -/
theorem tokens_onChars (hw : Whole text) (hl : l.cursor.In text) :
    ∀ t ∈ Token.forest l.tokens, t.span.OnChars text := by
  intro t ht
  have hplaced := (tokens_laid hl).wellPlaced t ht
  exact (tokens_wellSpelled hl t ht).onChars hw hplaced.nonempty.le

/-- A lexer that starts at a boundary starts inside no character. -/
theorem start_onChars {source : Bytes} {options : LexOptions} (hsource : IsUtf8 source)
    (hstart : IsBoundary source (min options.startOffset source.length)) :
    (start source options).OnChars source := by
  have hhere := (hsource.isBoundary_iff.mp hstart).2
  rw [← position_start] at hhere
  exact ⟨start_in source options, hhere, fun d hd => absurd hd List.not_mem_nil⟩

end Lexer

/--
**Characters stay whole.** Read a text that is valid UTF-8 from the boundary of a
character on. All tokens, nested ones included, and all diagnostics begin and end
at boundaries; so the bytes of every token are valid UTF-8 again.
-/
theorem lex_boundaries (source : Bytes) (options : LexOptions) (hsource : IsUtf8 source)
    (hstart : IsBoundary source (min options.startOffset source.length)) :
    (∀ t ∈ Token.forest (lex source options).1,
      IsBoundary source t.span.start ∧ IsBoundary source t.span.stop ∧ IsUtf8 t.lexeme) ∧
    ∀ d ∈ (lex source options).2,
      IsBoundary source d.span.start ∧ IsBoundary source d.span.stop := by
  have hw := hsource.whole
  have hin := Lexer.start_in source options
  -- a span in the text that cuts no character lies between boundaries
  have hspan : ∀ s : Span, s.start ≤ s.stop → s.stop ≤ source.length → s.OnChars source →
      IsBoundary source s.start ∧ IsBoundary source s.stop := by
    intro s hle hlen hchars
    rw [hsource.isBoundary_iff, hsource.isBoundary_iff]
    exact ⟨⟨hle.trans hlen, hchars.start⟩, hlen, hchars.stop⟩
  refine ⟨?_, ?_⟩
  · intro t ht
    rw [lex_eq_tokens, Token.mem_forest_append_eof] at ht
    rcases ht with ht | rfl
    · have hplaced := (Lexer.tokens_laid hin).wellPlaced t ht
      have hle := hplaced.nonempty.le
      obtain ⟨hbegin, hend⟩ := hspan t.span hle hplaced.inText (Lexer.tokens_onChars hw hin t ht)
      refine ⟨hbegin, hend, ?_⟩
      rw [hplaced.lexeme_eq]
      exact hsource.bytes hle hbegin hend
    · -- the end of the input, where the text ends
      have hend : IsBoundary source source.length :=
        ⟨le_rfl, by rwa [List.take_length]⟩
      exact ⟨hend, hend, ByteArray.isValidUTF8_empty⟩
  · intro d hd
    have hchars := Lexer.start_onChars hsource hstart
    have horder := (Lexer.after_inOrder source options [.run]).spans d hd
    have hlen := (Lexer.after_in hin [.run]).offset_le
    exact hspan d.span horder.1.le (horder.2.trans hlen) ((Lexer.run_onChars hw hchars).told d hd)

/-- From the second character on: an `é` that is skipped in a template, and one
that is text of the string around it. -/
theorem lex_boundaries_template :
    let source := [0xC3, 0xA9] ++ ascii "> " ++ [0xC3, 0xA9] ++ ascii "\x7b\x7b" ++ [0xC3, 0xA9]
    (IsUtf8 source ∧ IsBoundary source 2 ∧ (lex source ⟨2, false, true⟩).2 =
        [.unrecognized ⟨8, 10⟩, .unterminated .template ⟨6, 10⟩]) ∧
      IsBoundary source 8 ∧ IsBoundary source 10 := by
  intro source
  have hsource : IsUtf8 source := by decide +kernel
  have hstart : IsBoundary source 2 := by decide +kernel
  have htold : (lex source ⟨2, false, true⟩).2 =
      [.unrecognized ⟨8, 10⟩, .unterminated .template ⟨6, 10⟩] := by decide +kernel
  refine ⟨⟨hsource, hstart, htold⟩, ?_⟩
  exact (lex_boundaries source ⟨2, false, true⟩ hsource hstart).2 (.unrecognized ⟨8, 10⟩)
    (by rw [htold]; simp)

end StoryLex
