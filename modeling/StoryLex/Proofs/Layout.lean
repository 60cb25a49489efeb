import StoryLex.Proofs.Forest
import StoryLex.Proofs.Found

/-!
# StoryLex — where tokens lie

Every token that is found covers at least one byte of the text and carries
exactly the bytes it covers; its nested tokens follow one another inside it;
and the search goes on where it ends.

The proof goes the way the scan goes: the inside of a region (`scanBody_laid`,
`scanString_laid`), then the four forms of a token (`FoundAt.laid`).
-/

namespace StoryLex

-- ---------------------------------------------------------------------------
-- The insides of regions
-- ---------------------------------------------------------------------------

/-- Where the inside of a region ends: before the closing mark, of `width`
bytes, if there is one. -/
def Body.innerStop (width : Nat) (body : Body) : Nat :=
  body.stop.offset - if body.closed then width else 0

/-- The inside of a region lies in the text from `lo` on, with its tokens in
front of the closing mark; only the end of the text cuts it off. -/
structure Body.LaidIn (text : Bytes) (lo width : Nat) (body : Body) : Prop where
  stop_in : body.stop.In text
  stop_eq : body.stop.offset = body.innerStop width + if body.closed then width else 0
  tokens  : Token.Laid text lo (body.innerStop width) body.tokens
  cut_off : body.closed = false → body.stop.rest = []

/-- A found token lies in the text from `lo` on, and the search stops where it
ends. -/
structure Found.LaidIn (text : Bytes) (lo : Nat) (found : Found) : Prop where
  stop_in : found.stop.In text
  stop_eq : found.token.span.stop = found.stop.offset
  token   : Token.Laid text lo found.stop.offset [found.token]

variable {text : Bytes} {c : Cursor} {pieceAt : Option UInt8 → UInt8 → Bytes → Piece}
  {filler : UInt8 → Bool} {kinds : List Kind} {width : Nat}

/-- The inside of a region does not end in front of where it starts. -/
theorem Body.LaidIn.le {lo : Nat} {body : Body} (h : body.LaidIn text lo width) :
    lo ≤ body.stop.offset := by
  have := h.tokens.le
  have := h.stop_eq
  omega

/-- What a rule matches lies where it was matched, if the text goes on that
far. -/
theorem Match.found_laid {m : Match} {b : UInt8} {tail : Bytes} (hc : c.In text)
    (hrest : c.rest = b :: tail) (hfits : m.more ≤ tail.length) :
    (m.found c).LaidIn text c.offset := by
  have hlen := Cursor.succ_le_length_rest hrest hfits
  have hstop : (c.advance (m.more + 1)).offset = c.offset + (m.more + 1) :=
    Cursor.offset_advance hlen
  have hin := hc.length_rest
  refine ⟨hc.advance _, rfl, .cons le_rfl ?_ ?_ (hc.lexeme_tokenTo _) (.nil ?_) (.nil le_rfl)⟩
  all_goals
    simp only [found, Cursor.tokenTo, Cursor.spanTo, hstop]
    omega

/-- The inside of a region lies in the text, token by token. -/
theorem scanBody_laid (hp : PieceSpec pieceAt filler kinds width) (hc : c.In text) :
    (scanBody pieceAt c).LaidIn text c.offset width := by
  fun_induction scanBody pieceAt c with
  | case1 c h => exact ⟨hc, by simp [Body.innerStop], .nil (by simp [Body.innerStop]), fun _ => h⟩
  | case2 c b tail h more hpiece =>
    -- the closing mark is all that is left of the region
    obtain ⟨hwidth, hfits⟩ := hp.of_close hpiece
    have hstop : (c.advance (more + 1)).offset = c.offset + width := by
      rw [Cursor.offset_advance (Cursor.succ_le_length_rest h hfits), hwidth]
    refine ⟨hc.advance _, ?_, .nil ?_, by simp⟩
    · simp only [Body.innerStop, hstop, if_true]
      omega
    · simp only [Body.innerStop, hstop, if_true]
      omega
  | case3 c b tail h hpiece ih =>
    obtain ⟨hin, hstop, htokens, hcut⟩ := ih (hc.advance 1)
    -- filler holds no token, so the inside may as well start in front of it
    exact ⟨hin, hstop, htokens.mono (c.offset_le_advance 1) le_rfl, hcut⟩
  | case4 c b tail h m hpiece found body ih =>
    obtain ⟨hin, hstop, htokens, hcut⟩ := ih (hc.advance _)
    have hfound := Match.found_laid hc h (hp.of_leaf hpiece).2
    -- the leaf ends where the rest of the inside begins
    exact ⟨hin, hstop, hfound.token.append htokens, hcut⟩
  | case5 c b tail h more hpiece next body ih =>
    obtain ⟨hin, hstop, htokens, hcut⟩ := ih (hc.advance _)
    exact ⟨hin, hstop, htokens.mono (c.offset_le_advance _) le_rfl, hcut⟩

/-- A region lies in the text if its inside does, behind an opening mark. -/
theorem Body.enclose_laid {body : Body} {n : Nat} (hc : c.In text) (hne : c.rest ≠ [])
    (hbody : body.LaidIn text (c.advance (n + 1)).offset width) (kind : Kind) :
    (body.enclose c kind).LaidIn text c.offset := by
  have hlt := c.offset_lt_advance hne n
  have hle := hbody.le
  have hin := hbody.stop_in.offset_le
  have hinner : body.innerStop width ≤ body.stop.offset := by
    have := hbody.stop_eq
    omega
  refine ⟨hbody.stop_in, rfl, .cons le_rfl ?_ hin (hc.lexeme_tokenTo kind) ?_ (.nil le_rfl)⟩
  · show c.offset < body.stop.offset
    omega
  · exact hbody.tokens.mono (Nat.le_of_lt hlt) hinner

/-- A template lies in the text, with its variables between the braces. -/
theorem template_laid (hc : c.In text) (hne : c.rest ≠ []) :
    (template c).LaidIn text c.offset :=
  Body.enclose_laid hc hne (scanBody_laid templatePiece_spec (hc.advance 2)) .template

/-- The inside of a string reaches to the end of the text it is read in, and
nothing cuts it off. -/
theorem scanString_laid (hc : c.In text) :
    (scanString c).LaidIn text c.offset 0 ∧ (scanString c).closed = true ∧
      (scanString c).stop.rest = [] := by
  fun_induction scanString c with
  | case1 c h =>
    exact ⟨⟨hc, by simp [Body.innerStop], .nil (by simp [Body.innerStop]), by simp⟩, rfl, h⟩
  | case2 c b tail h hopen found body ih =>
    -- the template is a sibling of what the rest of the line holds
    have hfound : (template c).LaidIn text c.offset := template_laid hc (by simp [h])
    obtain ⟨⟨hin, hstop, htokens, hcut⟩, hclosed, hrest⟩ := ih hfound.stop_in
    exact ⟨⟨hin, hstop, hfound.token.append htokens, hcut⟩, hclosed, hrest⟩
  | case3 c b tail h hopen ih =>
    obtain ⟨⟨hin, hstop, htokens, hcut⟩, hclosed, hrest⟩ := ih (hc.advance 1)
    exact ⟨⟨hin, hstop, htokens.mono (c.offset_le_advance 1) le_rfl, hcut⟩, hclosed, hrest⟩

-- ---------------------------------------------------------------------------
-- The four forms of a token
-- ---------------------------------------------------------------------------

/-- A token that runs from `c` to the end of the line, behind an opening mark
of two bytes. -/
theorem lineEnd_bounds (hc : c.In text) (hne : c.rest ≠ []) :
    c.offset < ((c.advance 2).skip isInLine).offset ∧
      ((c.advance 2).skip isInLine).In text := by
  have hadv := c.offset_lt_advance hne 1
  have hskip := (c.advance 2).offset_le_advance (runLength isInLine (c.advance 2).rest)
  exact ⟨lt_of_lt_of_le hadv hskip, (hc.advance 2).skip isInLine⟩

/-- A comment lies in the text, up to the end of its line. -/
theorem comment_laid (hc : c.In text) (hne : c.rest ≠ []) :
    (comment c).LaidIn text c.offset := by
  obtain ⟨hlt, hin⟩ := lineEnd_bounds hc hne
  exact ⟨hin, rfl, .cons le_rfl hlt hin.offset_le (hc.lexeme_tokenTo _)
    (.nil (Nat.le_of_lt hlt)) (.nil le_rfl)⟩

/-- Read in the text that ends with its line, the inside of a string ends
with the line. -/
theorem scanString_inLine (hc : c.In text) :
    (scanString c.inLine).stop.offset = (c.skip isInLine).offset ∧
      Token.Laid text c.offset (c.skip isInLine).offset (scanString c.inLine).tokens := by
  obtain ⟨hbody, hclosed, hrest⟩ := scanString_laid hc.inLine
  have hstop : (scanString c.inLine).stop.offset = (c.skip isInLine).offset := by
    rw [hbody.stop_in.offset_eq_length hrest, List.length_take]
    exact Nat.min_eq_left (hc.skip isInLine).offset_le
  have htokens := hbody.tokens.of_take
  rw [Body.innerStop, hstop] at htokens
  exact ⟨hstop, htokens.mono le_rfl (Nat.sub_le _ _)⟩

/-- A string lies in the text, with its templates behind the mark that opens
it. -/
theorem string_laid (hc : c.In text) (hne : c.rest ≠ []) :
    (string c).LaidIn text c.offset := by
  obtain ⟨hlt, hin⟩ := lineEnd_bounds hc hne
  obtain ⟨hstop, htokens⟩ := scanString_inLine (hc.advance 2)
  have hspan : (string c).token.span = c.spanTo ((c.advance 2).skip isInLine) := by
    show Span.mk c.offset (scanString (c.advance 2).inLine).stop.offset = _
    rw [hstop]
    rfl
  refine ⟨hin, by rw [hspan]; rfl, .cons ?_ ?_ ?_ ?_ ?_ (.nil ?_)⟩
  all_goals rw [hspan]
  · exact le_rfl
  · exact hlt
  · exact hin.offset_le
  · -- the lexeme is cut off where the line ends, and so is the token
    show c.rest.take ((scanString (c.advance 2).inLine).stop.offset - c.offset) = _
    rw [hstop]
    exact hc.lexeme_tokenTo .string
  · exact htokens.mono (c.offset_le_advance 2) le_rfl
  · exact le_rfl

/-- An argument list lies in the text, with the arguments between its
parentheses. -/
theorem sceneArgs_laid (legacy : Bool) (hc : c.In text) (hne : c.rest ≠ []) :
    (sceneArgs legacy c).LaidIn text c.offset :=
  Body.enclose_laid hc hne (scanBody_laid (argsPiece_spec legacy) (hc.advance 1)) _

/-- Whatever is found at a place lies in the text from that place on. -/
theorem FoundAt.laid {legacy : Bool} {found : Found} (hc : c.In text)
    (h : FoundAt legacy c found) : found.LaidIn text c.offset := by
  cases h with
  | leaf rest fits => exact Match.found_laid hc rest fits
  | comment rest => exact comment_laid hc (by simp [rest])
  | string rest => exact string_laid hc (by simp [rest])
  | sceneArgs rest => exact sceneArgs_laid legacy hc (by simp [rest])

end StoryLex
