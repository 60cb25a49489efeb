import StoryLex.Proofs.Extent
import StoryLex.Proofs.Spans

/-!
# StoryLex — every token is a longest match

Each token of a stream, at every depth, is spelled as its kind wants it, between
the byte that stands before it in the source and the text that follows it there
(`lex_wellSpelled`). So no token stops short of its end, and none is taken where
a rule with a better claim should have had the place.

A template is read in the text that ends with its line. What is spelled there
is so in the whole text (`Token.WellSpelled.of_take`), for a newline goes on
with nothing.
-/

namespace StoryLex

/-- The token carries the bytes it covers, and they are spelled as its kind
wants them, where they stand in the text. -/
def Token.WellSpelled (legacy : Bool) (text : Bytes) (t : Token) : Prop :=
  t.lexeme = t.span.bytes text ∧
    Spelled legacy t.unterminated (byteBefore text t.span.start) t.lexeme
      (text.drop t.span.stop) t.kind

variable {legacy : Bool} {e : Expectation} {text : Bytes} {c d : Cursor} {found : Found}
  {t : Token}

-- ---------------------------------------------------------------------------
-- Tokens at a place
-- ---------------------------------------------------------------------------

namespace Cursor.In

/-- What a place still has before it and a later one has behind it is the text
between them. -/
theorem take_rest (hc : c.In text) (hd : d.In text) {word : Bytes}
    (hrest : c.rest = word ++ d.rest) : c.rest.take (d.offset - c.offset) = word := by
  have hlen := congrArg List.length hrest
  have hc' := hc.length_rest
  have hd' := hd.length_rest
  rw [List.length_append] at hlen
  have hword : d.offset - c.offset = word.length := by omega
  rw [hrest, hword, List.take_left]

/-- A token between two places is well spelled in the text when its word is,
between the byte before the one and the rest of the other. -/
theorem wellSpelled (hc : c.In text) (hd : d.In text) {word : Bytes}
    (hrest : c.rest = word ++ d.rest) (hspan : t.span = c.spanTo d)
    (hlexeme : t.lexeme = c.rest.take (d.offset - c.offset))
    (h : Spelled legacy t.unterminated c.before word d.rest t.kind) :
    t.WellSpelled legacy text := by
  have hbytes : t.lexeme = t.span.bytes text := by
    rw [hlexeme, hspan]
    exact hc.lexeme_tokenTo t.kind
  refine ⟨hbytes, ?_⟩
  rw [hspan, hlexeme, hc.take_rest hd hrest]
  show Spelled legacy t.unterminated (byteBefore text c.offset) word (text.drop d.offset) t.kind
  rw [← hc.before_eq_byteBefore, ← hd.rest_eq]
  exact h

/-- A match found at a place gives a token that is well spelled in the text. -/
theorem found_wellSpelled (hc : c.In text) {b : UInt8} {tail : Bytes} {m : Match}
    (hrest : c.rest = b :: tail)
    (h : Spelled legacy false c.before (b :: tail.take m.more) (tail.drop m.more) m.kind) :
    (m.found c).token.WellSpelled legacy text := by
  have hstop : (c.advance (m.more + 1)).rest = tail.drop m.more := by
    rw [rest_advance, hrest]
    rfl
  refine hc.wellSpelled (hc.advance (m.more + 1)) ?_ rfl rfl (hstop ▸ h)
  rw [hstop, hrest, List.cons_append, List.take_append_drop]

end Cursor.In

-- ---------------------------------------------------------------------------
-- The front part of a text
-- ---------------------------------------------------------------------------

/-- A template or a variable that is well spelled in a text ending with a line
is well spelled in the text with the lines behind it. -/
theorem Token.WellSpelled.of_take {n : Nat} (h : t.WellSpelled legacy (text.take n))
    (hspan : t.span.start ≤ t.span.stop) (hstop : t.span.stop ≤ n)
    (hline : (text.drop n).head?.all (· == newline) = true)
    (hk : t.kind = .template ∨ t.kind = .variableName) : t.WellSpelled legacy text := by
  obtain ⟨hlexeme, hspelled⟩ := h
  rw [byteBefore_take (by omega)] at hspelled
  have hafter := head?_drop_take hstop hline
  -- what follows is as before, or nothing before and a newline now; no class has newlines
  have hany : ∀ p : UInt8 → Bool, p newline = false →
      (text.drop t.span.stop).head?.any p = ((text.take n).drop t.span.stop).head?.any p := by
    intro p hp
    rcases hafter with heq | ⟨hnone, hsome⟩
    · rw [heq]
    · rw [hnone, hsome]
      exact hp
  refine ⟨hlexeme.trans (Span.bytes_take hstop), ?_⟩
  rcases hk with hk | hk
  · rw [hk] at hspelled ⊢
    obtain ⟨henclosed, hword, hcut⟩ := hspelled
    refine ⟨henclosed, hword, ?_⟩
    intro hopen
    rcases hafter with heq | ⟨-, hsome⟩
    · rw [heq]
      exact hcut hopen
    · rw [hsome]
      rfl
  · rw [hk] at hspelled ⊢
    obtain ⟨hnamed, hnext, hself⟩ := hspelled
    refine ⟨hnamed, ?_, ?_⟩
    · rw [hany isLetter (by decide)]
      exact hnext
    · rw [hany isWord (by decide)]
      exact hself

-- ---------------------------------------------------------------------------
-- Regions
-- ---------------------------------------------------------------------------

/-- All tokens read in a region are well spelled when the region's leaves
are. -/
theorem scanBody_wellSpelled {pieceAt : Option UInt8 → UInt8 → Bytes → Piece}
    (hleaf : ∀ {before b tail m}, pieceAt before b tail = .leaf m →
      Spelled legacy false before (b :: tail.take m.more) (tail.drop m.more) m.kind)
    (hc : c.In text) : ∀ u ∈ (scanBody pieceAt c).tokens, u.WellSpelled legacy text := by
  fun_induction scanBody pieceAt c with
  | case1 c h => simp
  | case2 c b tail h more hpiece => simp
  | case3 c b tail h hpiece ih => exact ih (hc.advance 1)
  | case4 c b tail h m hpiece found body ih =>
    intro u hu
    rcases List.mem_cons.mp hu with rfl | hu
    · exact hc.found_wellSpelled h (hleaf hpiece)
    · exact ih (hc.advance _) u hu
  | case5 c b tail h more hpiece next body ih => exact ih (hc.advance _)

/-- Tokens without tokens inside them are the whole of their forest. -/
theorem Token.mem_of_mem_forest_plain {ts : List Token} (h : ∀ t ∈ ts, t.IsPlain)
    (ht : t ∈ forest ts) : t ∈ ts := by
  obtain ⟨s, hs, rfl | hin⟩ := mem_forest.mp ht
  · exact hs
  · exact absurd hin (h s hs).mem_forest

/-- A template and the variables in it are well spelled, in a text without
newlines. -/
theorem template_wellSpelled {tail : Bytes} (hc : c.In text)
    (hrest : c.rest = openBrace :: openBrace :: tail) (hline : newline ∉ c.rest) :
    ∀ u ∈ Token.forest [(template c).token], u.WellSpelled legacy text := by
  have hbody := scanBody_laid templatePiece_spec (hc.advance 2)
  intro u hu
  rw [Token.forest_cons, Token.forest_nil, List.append_nil, List.mem_cons] at hu
  rcases hu with rfl | hu
  · -- the template itself; cut off, it reaches the end of the text
    obtain ⟨word, hword, henclosed⟩ := template_extent hrest
    refine hc.wellSpelled hbody.stop_in hword rfl rfl ⟨henclosed, ?_, ?_⟩
    · intro hmem
      exact hline (hword ▸ List.mem_append_left _ hmem)
    · intro hopen
      have hclosed : (scanBody templatePiece (c.advance 2)).closed = false := by
        simpa [template, Body.enclose] using hopen
      rw [hbody.cut_off hclosed]
      rfl
  · -- the variables in it
    have hplain := fun v hv => (scanBody_kinds templatePiece_spec (c.advance 2) v hv).2
    exact scanBody_wellSpelled templatePiece_spelled (hc.advance 2) u
      (Token.mem_of_mem_forest_plain hplain hu)

/-- The templates of a string and their variables are well spelled, in a text
without newlines. -/
theorem scanString_wellSpelled (hc : c.In text) (hline : newline ∉ c.rest) :
    ∀ u ∈ Token.forest (scanString c).tokens, u.WellSpelled legacy text := by
  fun_induction scanString c with
  | case1 c h => simp
  | case2 c b tail h hopen found body ih =>
    obtain ⟨rfl, tail, rfl⟩ := front_of_mark hopen
    obtain ⟨word, hword, -⟩ := template_extent h
    have hrest : newline ∉ (template c).stop.rest := by
      intro hmem
      exact hline (hword ▸ List.mem_append_right _ hmem)
    intro u hu
    have hsplit : Token.forest ((template c).token :: body.tokens) =
        Token.forest [(template c).token] ++ Token.forest body.tokens :=
      Token.forest_append [(template c).token] body.tokens
    rw [show Token.forest (found.token :: body.tokens) = _ from hsplit, List.mem_append] at hu
    rcases hu with hu | hu
    · exact template_wellSpelled hc h hline u hu
    · exact ih (template_laid hc (by simp [h])).stop_in hrest u hu
  | case3 c b tail h hopen ih =>
    refine ih (hc.advance 1) ?_
    intro hmem
    exact hline (List.mem_of_mem_drop hmem)

/-- A string line, its templates and their variables are well spelled. -/
theorem string_wellSpelled {tail : Bytes} (hc : c.In text)
    (hrest : c.rest = byte '>' :: byte ' ' :: tail) :
    ∀ u ∈ Token.forest [(string c).token], u.WellSpelled legacy text := by
  obtain ⟨hword, htoEnd⟩ := lineEnd_extent hrest
  obtain ⟨hstop, -⟩ := scanString_inLine (hc.advance 2)
  have hend := (hc.advance 2).skip isInLine
  have hin := (hc.advance 2).inLine
  intro u hu
  rw [Token.forest_cons, Token.forest_nil, List.append_nil, List.mem_cons] at hu
  rcases hu with rfl | hu
  · -- the line itself, which ends where its templates leave off
    refine hc.wellSpelled hend hword ?_ ?_ htoEnd
    · show Span.mk c.offset (scanString (c.advance 2).inLine).stop.offset = _
      rw [hstop]
      rfl
    · show c.rest.take ((scanString (c.advance 2).inLine).stop.offset - c.offset) = _
      rw [hstop]
  · -- read on in the line, a template or a variable
    have hline := (c.advance 2).newline_notMem_rest_inLine
    have hplaced := (scanString_laid hin).1.tokens.wellPlaced u hu
    have hkind : u.kind = .template ∨ u.kind = .variableName := by
      obtain ⟨s, hs, rfl | hs'⟩ := Token.mem_forest.mp hu
      · exact Or.inl (scanString_templates _ u hs).kind
      · have hnested := (scanString_templates _ s hs).nested
        exact Or.inr (hnested u
          (Token.mem_of_mem_forest_plain (fun v hv => (hnested v hv).2) hs')).1
    have hstop : u.span.stop ≤ ((c.advance 2).skip isInLine).offset := by
      have := hplaced.inText
      rw [List.length_take] at this
      omega
    exact (scanString_wellSpelled hin hline u hu).of_take (Nat.le_of_lt hplaced.nonempty) hstop
      (hc.advance 2).lineEnd hkind

/-- A list of arguments and all in it are well spelled. -/
theorem sceneArgs_wellSpelled {tail : Bytes} (hc : c.In text) (hrest : c.rest = byte '(' :: tail) :
    ∀ u ∈ Token.forest [(sceneArgs legacy c).token], u.WellSpelled legacy text := by
  have hbody := scanBody_laid (argsPiece_spec legacy) (hc.advance 1)
  intro u hu
  rw [Token.forest_cons, Token.forest_nil, List.append_nil, List.mem_cons] at hu
  rcases hu with rfl | hu
  · -- the list itself; cut off, it reaches the end of the text
    obtain ⟨word, hword, henclosed⟩ := sceneArgs_extent legacy hrest
    refine hc.wellSpelled hbody.stop_in hword rfl rfl ⟨henclosed, ?_⟩
    intro hopen
    exact hbody.cut_off (by simpa [sceneArgs, Body.enclose] using hopen)
  · -- the arguments
    have hplain := fun v hv => (scanBody_kinds (argsPiece_spec legacy) (c.advance 1) v hv).2
    exact scanBody_wellSpelled argsPiece_spelled (hc.advance 1) u
      (Token.mem_of_mem_forest_plain hplain hu)

-- ---------------------------------------------------------------------------
-- The two ways to find a token
-- ---------------------------------------------------------------------------

/-- A leaf has no other token in its tree. -/
theorem Cursor.In.forest_found_wellSpelled (hc : c.In text) {b : UInt8} {tail : Bytes} {m : Match}
    (hrest : c.rest = b :: tail)
    (h : Spelled legacy false c.before (b :: tail.take m.more) (tail.drop m.more) m.kind) :
    ∀ u ∈ Token.forest [(m.found c).token], u.WellSpelled legacy text := by
  intro u hu
  have hu' : u ∈ [(m.found c).token] := hu
  rw [List.mem_singleton.mp hu']
  exact hc.found_wellSpelled hrest h

/-- What the general rules find is well spelled at every depth. -/
theorem general?_wellSpelled (hc : c.In text) (h : general? legacy c = some found) :
    ∀ u ∈ Token.forest [found.token], u.WellSpelled legacy text := by
  rcases general?_cases h with ⟨tail, hrest, rfl⟩ | ⟨tail, hrest, rfl⟩ |
    ⟨b, tail, m, hrest, hcomment, hm, rfl⟩
  · obtain ⟨hword, htoEnd⟩ := lineEnd_extent hrest
    intro u hu
    have hu' : u ∈ [(comment c).token] := hu
    rw [List.mem_singleton.mp hu']
    exact hc.wellSpelled ((hc.advance 2).skip isInLine) hword rfl rfl htoEnd
  · exact string_wellSpelled hc hrest
  · exact hc.forest_found_wellSpelled hrest (Rule.leaf?_spelled hm hcomment)

/-- What is found because it was expected is well spelled at every depth. -/
theorem expected?_wellSpelled (hc : c.In text) (h : expected? legacy e c = some found) :
    ∀ u ∈ Token.forest [found.token], u.WellSpelled legacy text := by
  have hplace := e.place_in hc
  obtain ⟨b, tail, hrest, ⟨-, rfl, rfl⟩ | ⟨m, rfl, hm⟩⟩ := expected?_cases h
  · exact sceneArgs_wellSpelled hplace hrest
  · refine hplace.forest_found_wellSpelled hrest ?_
    rcases hm with ⟨-, rfl, rfl⟩ | ⟨-, hm⟩ | ⟨-, hm⟩
    · rfl
    · exact Rule.modName?_spelled hm
    · exact Rule.sceneName?_spelled hm

/-- The kinds of token that a module's name takes the place of. -/
def Kind.yieldsToModName : Kind → Bool
  | variableName | reserved | keywordMatch | keywordCommand | keywordFrom => true
  | _ => false

/-- Where a module's name stands, the general rules take no token of a kind that
yields to it. -/
theorem general?_yieldsToModName (hc : c.In text) (h : general? legacy c = some found)
    (hk : found.token.kind.yieldsToModName = true) : ¬ ModNameAt text found.token.span.start := by
  rcases general?_cases h with ⟨tail, hrest, rfl⟩ | ⟨tail, hrest, rfl⟩ |
    ⟨b, tail, m, hrest, -, hm, rfl⟩
  · exact Bool.noConfusion hk
  · exact Bool.noConfusion hk
  · have hkind : m.kind.yieldsToModName = true := hk
    show ¬ ModNameAt text c.offset
    rw [hc.modNameAt_iff hrest]
    rintro ⟨hb, hqual⟩
    have hmod := Rule.modName?_eq_some_iff.mpr ⟨hb, hqual, rfl⟩
    -- a letter is asked for a module's name before all else
    rcases Rule.leaf?_cases hm with ⟨rfl, -⟩ | ⟨-, hword⟩ | ⟨s, hs, hsigil⟩ | hmark
    · exact absurd hb (by decide)
    · rcases Rule.word?_cases hword with hmod' | ⟨hnone, -⟩
      · obtain ⟨-, -, rfl⟩ := Rule.modName?_eq_some_iff.mp hmod'
        exact Bool.noConfusion hkind
      · rw [hmod] at hnone
        simp at hnone
    · have hk' := (Rule.sigil?_marked hsigil b).1
      have hsigilKind : s.kind.yieldsToModName = false := by cases s <;> rfl
      rw [hk', hsigilKind] at hkind
      exact Bool.noConfusion hkind
    · rcases Rule.mark?_kind hmark with hk' | hk' | hk' | hk' | hk' <;>
        simp [hk', Kind.yieldsToModName] at hkind

/-- No expectation asks for a token that yields to a module's name. -/
theorem expected?_yieldsToModName (h : expected? legacy e c = some found) :
    found.token.kind.yieldsToModName = false := by
  obtain ⟨b, tail, -, ⟨-, -, rfl⟩ | ⟨m, rfl, ⟨-, -, rfl⟩ | ⟨-, hm⟩ | ⟨-, hm⟩⟩⟩ := expected?_cases h
  · rfl
  · rfl
  · obtain ⟨-, -, rfl⟩ := Rule.modName?_eq_some_iff.mp hm
    rfl
  · obtain ⟨-, rfl⟩ := Rule.sceneName?_eq_some_iff.mp hm
    rfl

-- ---------------------------------------------------------------------------
-- Streams
-- ---------------------------------------------------------------------------

/-- All tokens a lexer still has to hand out are well spelled, at every
depth. -/
theorem Lexer.tokens_wellSpelled {l : Lexer} (hl : l.cursor.In text) :
    ∀ t ∈ Token.forest l.tokens, t.WellSpelled l.options.legacyIdentifiers text := by
  have htrees : ∀ s ∈ l.tokens,
      ∀ t ∈ Token.forest [s], t.WellSpelled l.options.legacyIdentifiers text :=
    Lexer.tokens_forall_origin hl (fun _ _ _ hd hexp => expected?_wellSpelled hd hexp)
      (fun _ _ hd hgen => general?_wellSpelled hd hgen)
  intro t ht
  obtain ⟨s, hs, hts⟩ := Token.mem_forest.mp ht
  exact htrees s hs t (Token.mem_forest.mpr ⟨s, List.mem_singleton_self s, hts⟩)

/--
**Every token is a longest match of its kind.** Each token of a stream, nested
ones included, carries the bytes it covers, and these are spelled as its kind
wants them between the byte before and the text behind (`Spelled`). On the top
level, no variable, keyword or reserved word stands where a module's name does.
-/
theorem lex_wellSpelled (source : Bytes) (options : LexOptions) :
    (∀ t ∈ Token.forest (lex source options).1,
      t.lexeme = t.span.bytes source ∧
        Spelled options.legacyIdentifiers t.unterminated (byteBefore source t.span.start) t.lexeme
          (source.drop t.span.stop) t.kind) ∧
    ∀ t ∈ (lex source options).1,
      t.kind ∈ [.variableName, .reserved, .keywordMatch, .keywordCommand, .keywordFrom] →
        ¬ ModNameAt source t.span.start := by
  have hin := Lexer.start_in source options
  have hrun := lex_eq_tokens source options
  refine ⟨?_, ?_⟩
  · intro t ht
    rw [hrun, Token.mem_forest_append_eof] at ht
    rcases ht with ht | rfl
    · exact Lexer.tokens_wellSpelled hin t ht
    · -- the end of the stream, at the end of the text
      have hempty : source.drop source.length = [] := List.drop_length
      refine ⟨?_, rfl, hempty⟩
      show [] = (source.drop source.length).take (source.length - source.length)
      rw [hempty, List.take_nil]
  · have htop : ∀ t ∈ (Lexer.start source options).tokens, t.kind.yieldsToModName = true →
        ¬ ModNameAt source t.span.start := by
      refine Lexer.tokens_forall_origin hin ?_ ?_
      · intro e d found hd hexp hk
        rw [expected?_yieldsToModName hexp] at hk
        exact Bool.noConfusion hk
      · intro d found hd hgen
        exact general?_yieldsToModName hd hgen
    intro t ht hk
    rw [hrun, List.mem_append, List.mem_singleton] at ht
    rcases ht with ht | rfl
    · refine htop t ht ?_
      simp only [List.mem_cons, List.not_mem_nil, or_false] at hk
      rcases hk with hk | hk | hk | hk | hk <;> rw [hk] <;> rfl
    · simp [Token.eof] at hk

end StoryLex
