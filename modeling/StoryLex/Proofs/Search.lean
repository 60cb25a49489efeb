import StoryLex.Proofs.Extent
import StoryLex.Proofs.Nesting

/-!
# StoryLex — regions and plain text search

A region is read piece by piece, with rules of its own for what stands inside.
Where it ends, and which templates a string holds, can be said without any of
them: by searching the text for marks (`find?`).

* `lineEnd` — comments and strings end at the next newline.
* `regionEnd` — argument lists and templates end behind their first closing
  mark, or are cut off with the text they are read in.
* `templates` — the templates of a line: search for an opening mark, then for
  the end of that template, and go on from there.

`Token.Delimited` says of a token that these searches give its ends and, for a
string, the templates in it. The two scans are equal to the searches
(`scanBody_regionEnd`, `scanString_templates_eq`), so every region of a stream
is delimited (`lex_delimited`).
-/

namespace StoryLex

-- ---------------------------------------------------------------------------
-- Searching
-- ---------------------------------------------------------------------------

/-- The first place of a text, from `start` on, at which a mark stands. -/
def find? (mark text : Bytes) (start : Nat) : Option Nat :=
  (List.range' start (text.length - start)).find? fun i => mark.isPrefixOf (text.drop i)

/-- Where the line that goes on at `start` ends. -/
def lineEnd (text : Bytes) (start : Nat) : Nat := (find? [newline] text start).getD text.length

/-- Where a region with its inside from `start` on ends, and whether it is cut
off there: behind its first closing mark, or else at the end of the text. -/
def regionEnd (mark text : Bytes) (start : Nat) : Nat × Bool :=
  match find? mark text start with
  | some i => (i + mark.length, false)
  | none => (text.length, true)

section Search

variable {mark text : Bytes} {start i : Nat}

/-- What a search finds is the first place ahead at which the mark stands. -/
theorem find?_eq_some_iff :
    find? mark text start = some i ↔
      (start ≤ i ∧ i < text.length ∧ mark <+: text.drop i) ∧
        ∀ j, start ≤ j → j < i → ¬ mark <+: text.drop j := by
  rw [find?, List.find?_range'_eq_some]
  simp only [List.isPrefixOf_iff_prefix, List.mem_range'_1, Bool.not_eq_eq_eq_not, Bool.not_true,
    Bool.eq_false_iff, ne_eq]
  constructor
  · rintro ⟨hmark, ⟨hle, hlt⟩, hfirst⟩
    exact ⟨⟨hle, by omega, hmark⟩, hfirst⟩
  · rintro ⟨⟨hle, hlt, hmark⟩, hfirst⟩
    exact ⟨hmark, ⟨hle, by omega⟩, hfirst⟩

/-- A search finds nothing exactly if the mark stands nowhere ahead. -/
theorem find?_eq_none_iff :
    find? mark text start = none ↔ ∀ j, start ≤ j → j < text.length → ¬ mark <+: text.drop j := by
  rw [find?, List.find?_eq_none]
  simp only [List.isPrefixOf_iff_prefix, List.mem_range'_1]
  constructor
  · intro h j hle hlt
    exact h j ⟨hle, by omega⟩
  · rintro h j ⟨hle, hlt⟩
    exact h j hle (by omega)

/-- A search may begin at any place that passes over no mark. -/
theorem find?_eq_of_le (hle : start ≤ i) (h : ∀ j, start ≤ j → j < i → ¬ mark <+: text.drop j) :
    find? mark text start = find? mark text i := by
  cases hi : find? mark text i with
  | none =>
    rw [find?_eq_none_iff] at hi ⊢
    intro j hj hlt
    -- the mark stands in front of the later place, which was ruled out, or behind it
    rcases Nat.lt_or_ge j i with hji | hij
    · exact h j hj hji
    · exact hi j hij hlt
  | some k =>
    obtain ⟨⟨hik, hk⟩, hfirst⟩ := find?_eq_some_iff.mp hi
    refine find?_eq_some_iff.mpr ⟨⟨hle.trans hik, hk⟩, ?_⟩
    intro j hj hlt
    rcases Nat.lt_or_ge j i with hji | hij
    · exact h j hj hji
    · exact hfirst j hij hlt

/-- All places of a line have the end of that line ahead. -/
theorem lineEnd_eq_of_le (hle : start ≤ i) (hi : i ≤ lineEnd text start) :
    lineEnd text i = lineEnd text start := by
  have hfind : find? [newline] text start = find? [newline] text i := by
    refine find?_eq_of_le hle ?_
    intro j hj hji hmark
    unfold lineEnd at hi
    cases hfind : find? [newline] text start with
    | none =>
      rw [hfind, Option.getD_none] at hi
      exact find?_eq_none_iff.mp hfind j hj (by omega) hmark
    | some k =>
      rw [hfind, Option.getD_some] at hi
      exact (find?_eq_some_iff.mp hfind).2 j hj (by omega) hmark
  rw [lineEnd, lineEnd, hfind]

/-- A region ends behind its first byte. -/
theorem lt_regionEnd (hmark : mark ≠ []) (hi : i < text.length) (n : Nat) :
    i < (regionEnd mark text (i + n)).1 := by
  unfold regionEnd
  split
  · next k hfind =>
    have hle := (find?_eq_some_iff.mp hfind).1.1
    have hpos := List.length_pos_iff.mpr hmark
    show i < k + mark.length
    omega
  · exact hi

end Search

/-- The templates of a text from `start` on, and which of them are cut off. -/
def templates (text : Bytes) (start : Nat) : List (Span × Bool) :=
  match _h : find? [openBrace, openBrace] text start with
  | none => []
  | some i =>
    let stop := regionEnd [closeBrace, closeBrace] text (i + 2)
    (⟨i, stop.1⟩, stop.2) :: templates text stop.1
termination_by text.length - start
decreasing_by
  obtain ⟨⟨hle, hlt, -⟩, -⟩ := find?_eq_some_iff.mp _h
  have hstop : i < (regionEnd [closeBrace, closeBrace] text (i + 2)).1 :=
    lt_regionEnd (List.cons_ne_nil _ _) hlt 2
  omega

section Templates

variable {text : Bytes} {start i : Nat}

theorem templates_of_none (h : find? [openBrace, openBrace] text start = none) :
    templates text start = [] := by
  rw [templates]
  split
  · rfl
  · next h' => simp [h] at h'

/-- The first template starts at the first opening mark, and the others are
found behind it. -/
theorem templates_of_some (h : find? [openBrace, openBrace] text start = some i) :
    templates text start =
      (⟨i, (regionEnd [closeBrace, closeBrace] text (i + 2)).1⟩,
          (regionEnd [closeBrace, closeBrace] text (i + 2)).2) ::
        templates text (regionEnd [closeBrace, closeBrace] text (i + 2)).1 := by
  rw [templates]
  split
  · next h' => simp [h] at h'
  · next i' h' =>
    obtain rfl : i = i' := Option.some.inj (h.symm.trans h')
    rfl

/-- Templates are found from any place with the same first opening mark
ahead. -/
theorem templates_congr {start' : Nat}
    (h : find? [openBrace, openBrace] text start = find? [openBrace, openBrace] text start') :
    templates text start = templates text start' := by
  cases hfind : find? [openBrace, openBrace] text start' with
  | none => rw [templates_of_none hfind, templates_of_none (h.trans hfind)]
  | some i => rw [templates_of_some hfind, templates_of_some (h.trans hfind)]

/-- Every template found starts with its opening mark, and ends where a search
from there says. -/
theorem mem_templates {s : Span} {cut : Bool} (h : (s, cut) ∈ templates text start) :
    start ≤ s.start ∧ [openBrace, openBrace] <+: text.drop s.start ∧
      (s.stop, cut) = regionEnd [closeBrace, closeBrace] text (s.start + 2) := by
  fun_induction templates text start with
  | case1 start hfind => simp at h
  | case2 start i hfind stop ih =>
    obtain ⟨⟨hle, hlt, hmark⟩, -⟩ := find?_eq_some_iff.mp hfind
    rcases List.mem_cons.mp h with heq | h
    · cases heq
      exact ⟨hle, hmark, rfl⟩
    · obtain ⟨hstop, hrest⟩ := ih h
      have hlater : i < stop.1 := lt_regionEnd (List.cons_ne_nil _ _) hlt 2
      exact ⟨by omega, hrest⟩

end Templates

-- ---------------------------------------------------------------------------
-- Scans and searches
-- ---------------------------------------------------------------------------

variable {text : Bytes} {c : Cursor} {pieceAt : Option UInt8 → UInt8 → Bytes → Piece}
  {filler : UInt8 → Bool} {kinds : List Kind} {width : Nat} {mark : Bytes}

namespace Cursor.In

/-- Where the text from a place on is known up to its first mark. -/
theorem find?_eq_some (hc : c.In text) (hmark : mark ≠ []) {inside rest : Bytes}
    (hrest : c.rest = inside ++ (mark ++ rest)) (hinside : Unmarked mark c.rest inside.length) :
    find? mark text c.offset = some (c.offset + inside.length) := by
  have hlen := hc.length_rest
  have hpos := List.length_pos_iff.mpr hmark
  rw [hrest, List.length_append, List.length_append] at hlen
  refine find?_eq_some_iff.mpr ⟨⟨Nat.le_add_right _ _, by omega, ?_⟩, ?_⟩
  · rw [← List.drop_drop, ← hc.rest_eq, hrest, List.drop_left]
    exact List.prefix_append mark rest
  · intro j hj hlt
    have hnone := hinside (j - c.offset) (by omega)
    rwa [hc.rest_eq, List.drop_drop, Nat.add_sub_cancel' hj] at hnone

/-- Where the text from a place on has no mark, a search finds none. -/
theorem find?_eq_none (hc : c.In text) (hrest : Unmarked mark c.rest c.rest.length) :
    find? mark text c.offset = none := by
  have hlen := hc.length_rest
  refine find?_eq_none_iff.mpr ?_
  intro j hj hlt
  have hnone := hrest (j - c.offset) (by omega)
  rwa [hc.rest_eq, List.drop_drop, Nat.add_sub_cancel' hj] at hnone

end Cursor.In

/-- No newline stands in the line that goes on at a place. -/
theorem Cursor.unmarked_inLine (c : Cursor) :
    Unmarked [newline] c.rest (runLength isInLine c.rest) := by
  rintro i hi ⟨rest, hrest⟩
  have hhead := congrArg List.head? hrest
  have hmem : newline ∈ c.inLine.rest := by
    rw [List.mem_iff_getElem?, inLine, ← take_runLength]
    exact ⟨i, by rw [List.getElem?_take_of_lt hi]; simpa using hhead.symm⟩
  exact c.newline_notMem_rest_inLine hmem

/-- A line goes on up to the end that a search finds for it. -/
theorem lineEnd_eq_skip (hc : c.In text) : lineEnd text c.offset = (c.skip isInLine).offset := by
  have hline := c.unmarked_inLine
  have hsplit : c.rest = c.rest.takeWhile isInLine ++ (c.skip isInLine).rest := by
    rw [Cursor.rest_skip, List.takeWhile_append_dropWhile]
  have hhead := c.head?_rest_skip_inLine
  rw [lineEnd, Cursor.offset_skip]
  cases hend : (c.skip isInLine).rest with
  | nil =>
    rw [hend, List.append_nil] at hsplit
    rw [runLength, ← hsplit] at hline ⊢
    rw [hc.find?_eq_none hline, Option.getD_none, hc.length_rest]
  | cons x rest =>
    rw [hend] at hhead hsplit
    -- a newline ends the line, and is the first ahead
    obtain rfl : x = newline := by simpa using hhead
    rw [hc.find?_eq_some (List.cons_ne_nil _ _) hsplit hline, Option.getD_some, runLength]

/-- The inside of a region ends where a search for its closing mark says. -/
theorem scanBody_regionEnd (hp : PieceSpec pieceAt filler kinds width)
    (hm : PieceMarks pieceAt mark) (hmark : mark ≠ []) (hc : c.In text) :
    regionEnd mark text c.offset =
      ((scanBody pieceAt c).stop.offset, !(scanBody pieceAt c).closed) := by
  obtain ⟨inside, hrest, hinside⟩ := scanBody_extent hp hm c
  have hlaid := scanBody_laid hp hc
  have hlen := hc.length_rest
  have hstop := hlaid.stop_in.length_rest
  cases hclosed : (scanBody pieceAt c).closed with
  | true =>
    -- the closing mark that ends the region is the first that stands ahead
    rw [Body.closing, hclosed, if_pos rfl] at hrest
    rw [hrest, List.length_append, List.length_append] at hlen
    rw [regionEnd, hc.find?_eq_some hmark hrest hinside]
    exact Prod.ext (by simp only; omega) rfl
  | false =>
    -- the region was cut off, so no mark stands ahead
    rw [Body.closing, hclosed, if_neg (by simp), hlaid.cut_off hclosed, List.append_nil,
      List.append_nil] at hrest
    rw [← hrest] at hinside
    rw [regionEnd, hc.find?_eq_none hinside]
    rw [hlaid.cut_off hclosed] at hstop
    exact Prod.ext hstop.symm rfl

/-- A string holds the templates that a search finds in it. -/
theorem scanString_templates_eq (hc : c.In text) :
    (scanString c).tokens.map (fun u => (u.span, u.unterminated)) = templates text c.offset := by
  fun_induction scanString c with
  | case1 c h =>
    have hnone : find? [openBrace, openBrace] text c.offset = none :=
      hc.find?_eq_none (by rw [h]; exact .zero _ _)
    rw [templates_of_none hnone]
    rfl
  | case2 c b tail h hopen found body ih =>
    obtain ⟨rfl, tail, rfl⟩ := front_of_mark hopen
    have hsplit : c.rest = [] ++ ([openBrace, openBrace] ++ tail) := h
    -- an opening mark stands right here
    have hhere : find? [openBrace, openBrace] text c.offset = some c.offset :=
      hc.find?_eq_some (List.cons_ne_nil _ _) hsplit (.zero _ _)
    have hoffset : (c.advance 2).offset = c.offset + 2 := Cursor.offset_advance (by simp [h])
    have hend : regionEnd [closeBrace, closeBrace] text (c.offset + 2) =
        ((template c).stop.offset, (template c).token.unterminated) := by
      rw [← hoffset]
      exact scanBody_regionEnd templatePiece_spec templatePiece_marks (List.cons_ne_nil _ _)
        (hc.advance 2)
    rw [templates_of_some hhere, hend, List.map_cons,
      ih (template_laid hc (by simp [h])).stop_in]
    rfl
  | case3 c b tail h hopen ih =>
    rw [ih (hc.advance 1), Cursor.offset_advance (by simp [h])]
    -- no mark stands here, so the search may as well begin one byte further on
    refine (templates_congr (find?_eq_of_le (Nat.le_succ _) ?_)).symm
    intro j hj hlt hmark
    obtain rfl : j = c.offset := by omega
    rw [← hc.rest_eq, h] at hmark
    obtain ⟨rest, hrest⟩ := hmark
    obtain ⟨rfl, rfl⟩ := List.cons.inj hrest
    exact hopen (by simp)

-- ---------------------------------------------------------------------------
-- Delimited tokens
-- ---------------------------------------------------------------------------

/-- A region that begins with its opening mark and ends where a search says,
and a string that holds the templates which a search finds in it. -/
def Token.Delimited (text : Bytes) (t : Token) : Prop :=
  match t.kind with
  | .comment =>
    ascii "--" <+: text.drop t.span.start ∧ t.span.stop = lineEnd text (t.span.start + 2)
  | .string =>
    ascii "> " <+: text.drop t.span.start ∧ t.span.stop = lineEnd text (t.span.start + 2) ∧
      (∀ u ∈ t.nested, u.kind = .template) ∧
      t.nested.map (fun u => (u.span, u.unterminated)) =
        templates (text.take t.span.stop) (t.span.start + 2)
  | .sceneArgs =>
    ascii "(" <+: text.drop t.span.start ∧
      (t.span.stop, t.unterminated) = regionEnd (ascii ")") text (t.span.start + 1)
  | .template =>
    -- read in the text that ends with the line
    [openBrace, openBrace] <+: text.drop t.span.start ∧
      (t.span.stop, t.unterminated) =
        regionEnd [closeBrace, closeBrace] (text.take (lineEnd text (t.span.start + 2)))
          (t.span.start + 2)
  | _ => True

variable {legacy : Bool} {found : Found} {t : Token}

theorem Token.delimited_of_not_isRegion (h : t.kind.isRegion = false) : t.Delimited text := by
  unfold Delimited
  cases hk : t.kind <;> simp_all [Kind.isRegion]

theorem Cursor.In.prefix_drop (hc : c.In text) {opening tail : Bytes}
    (hrest : c.rest = opening ++ tail) : opening <+: text.drop c.offset := by
  rw [← hc.rest_eq, hrest]
  exact List.prefix_append opening tail

/-- Comments and strings end with their line. -/
theorem lineEnd_of_mark (hc : c.In text) {x y : UInt8} {tail : Bytes}
    (hrest : c.rest = x :: y :: tail) :
    lineEnd text (c.offset + 2) = ((c.advance 2).skip isInLine).offset := by
  have hoffset : (c.advance 2).offset = c.offset + 2 := Cursor.offset_advance (by simp [hrest])
  rw [← hoffset, lineEnd_eq_skip (hc.advance 2)]

/-- A string ends with its line and holds the templates that a search finds in
it. -/
theorem string_delimited (hc : c.In text) {tail : Bytes}
    (hrest : c.rest = byte '>' :: byte ' ' :: tail) : (string c).token.Delimited text := by
  have hoffset : (c.advance 2).offset = c.offset + 2 := Cursor.offset_advance (by simp [hrest])
  have hin := (hc.advance 2).inLine
  have hstop := (scanString_inLine (hc.advance 2)).1
  have hnested := scanString_templates_eq hin
  rw [← hstop] at hnested
  refine ⟨hc.prefix_drop hrest, ?_, ?_, ?_⟩
  · exact hstop.trans (lineEnd_of_mark hc hrest).symm
  · exact fun u hu => (scanString_templates _ u hu).kind
  · exact hnested.trans (congrArg _ hoffset)

/-- Whatever is found at a place is delimited. -/
theorem FoundAt.delimited (hc : c.In text) (h : FoundAt legacy c found) :
    found.token.Delimited text := by
  cases h with
  | leaf rest fits inLine region => exact Token.delimited_of_not_isRegion region
  | comment rest => exact ⟨hc.prefix_drop rest, (lineEnd_of_mark hc rest).symm⟩
  | string rest => exact string_delimited hc rest
  | sceneArgs rest =>
    have hoffset : (c.advance 1).offset = c.offset + 1 := Cursor.offset_advance (by simp [rest])
    refine ⟨hc.prefix_drop rest, ?_⟩
    have hend := scanBody_regionEnd (argsPiece_spec legacy) (argsPiece_marks legacy)
      (List.cons_ne_nil _ _) (hc.advance 1)
    rw [hoffset] at hend
    exact hend.symm

/-- The templates of a string are delimited by the same line. -/
theorem Token.Delimited.of_mem_string (h : t.Delimited text) (hk : t.kind = .string) {u : Token}
    (hu : u ∈ t.nested) : u.Delimited text := by
  rw [Delimited, hk] at h
  obtain ⟨-, hstop, hkind, hnested⟩ := h
  have hmem : (u.span, u.unterminated) ∈ templates (text.take t.span.stop) (t.span.start + 2) := by
    rw [← hnested]
    exact List.mem_map_of_mem hu
  obtain ⟨hle, hmark, hend⟩ := mem_templates hmem
  -- the opening mark lies in the line
  have hlen := hmark.length_le
  rw [List.length_drop, List.length_take] at hlen
  have hline : lineEnd text (u.span.start + 2) = t.span.stop := by
    rw [hstop]
    refine lineEnd_eq_of_le (by omega) ?_
    rw [← hstop]
    simp only [List.length_cons, List.length_nil] at hlen
    omega
  rw [Delimited, hkind u hu]
  refine ⟨hmark.trans ((List.take_prefix _ _).drop _), ?_⟩
  rw [hline]
  exact hend

/-- What stands in a delimited token is delimited. -/
theorem Token.Delimited.of_mem_nested (h : t.Delimited text) (hshaped : t.Shaped) {u : Token}
    (hu : u ∈ Token.forest t.nested) : u.Delimited text := by
  rcases hshaped.mem_nested hu with ⟨-, -, hk⟩ | ⟨hk, hu, -⟩ | ⟨-, hk⟩
  · -- an argument is no region
    simp only [argKinds, List.mem_cons, List.not_mem_nil, or_false] at hk
    refine delimited_of_not_isRegion ?_
    rcases hk with hk | hk | hk | hk | hk <;> rw [hk] <;> rfl
  · exact h.of_mem_string hk hu
  · exact delimited_of_not_isRegion (by rw [hk]; rfl)

/--
**Regions end where a plain search ends them.** Whatever stands inside, every
region of a stream, nested ones included, begins with its opening mark. A
comment or a string ends at the next newline; an argument list ends behind the
next closing parenthesis, or is cut off with the text; a template ends behind
the next closing mark of its line, or is cut off with the line. The templates of
a string are those which a repeated search finds in it.
-/
theorem lex_delimited (source : Bytes) (options : LexOptions) :
    ∀ t ∈ Token.forest (lex source options).1, t.Delimited source := by
  have hin := Lexer.start_in source options
  have hshaped := Lexer.tokens_shaped hin
  have htop : ∀ t ∈ (Lexer.start source options).tokens, t.Delimited source :=
    Lexer.tokens_forall hin fun _ _ hd hfound => hfound.delimited hd
  intro t ht
  rw [lex_eq_tokens, Token.mem_forest_append_eof] at ht
  rcases ht with ht | rfl
  · obtain ⟨s, hs, rfl | hts⟩ := Token.mem_forest.mp ht
    · exact htop t hs
    · exact (htop s hs).of_mem_nested (hshaped s hs) hts
  · exact Token.delimited_of_not_isRegion rfl

/-- A third closing brace is text behind its template, and a single one closes
nothing. -/
theorem lex_delimited_braces :
    let source := ascii "> \x7b\x7b\x7bA\x7d\x7d\x7d \x7b\x7bB\x7d\n\x7d\x7d"
    ∃ t ∈ Token.forest (lex source {}).1,
      (t.kind = .string ∧ t.span = ⟨0, 14⟩ ∧
        t.nested.map (fun u => (u.span, u.unterminated)) = [(⟨2, 8⟩, false), (⟨10, 14⟩, true)]) ∧
      t.Delimited source := by
  intro source
  have hmem : ∃ t ∈ Token.forest (lex source {}).1, t.kind = .string ∧ t.span = ⟨0, 14⟩ ∧
      t.nested.map (fun u => (u.span, u.unterminated)) = [(⟨2, 8⟩, false), (⟨10, 14⟩, true)] := by
    decide +kernel
  obtain ⟨t, ht, hform⟩ := hmem
  exact ⟨t, ht, hform, lex_delimited source {} t ht⟩

end StoryLex
