import StoryLex.Proofs.Strokes

/-!
# StoryLex — what a terminal shows

Highlighted text is written for a terminal, so what it says is what a terminal
makes of it. `Terminal.display` is that second machine: it takes up a style at
each style sequence and shows every other byte in the style it is in.

* `Terminal.display_paint` — a painted text shows its bytes in its own style
  and leaves the terminal as it was.
* `Stroke.Tile.display` — strokes that tile a stretch show that stretch.
* `Token.innermost?_eq_some_iff` — the innermost token around a byte is the one
  that covers it while no token inside does.
* `render_colored` — a highlighted script shows the script, each byte in the
  style of the innermost token around it.
-/

namespace StoryLex

namespace Terminal

-- ---------------------------------------------------------------------------
-- The machine
-- ---------------------------------------------------------------------------

/-- The bytes in which the codes of a style are written. -/
def isCode (b : UInt8) : Bool := isDigit b || b == byte ';'

/-- The style sequence at the front of a text, if one stands there: its codes,
and the text behind it. -/
def sequence? : Bytes → Option (Bytes × Bytes)
  | a :: b :: rest =>
    if a == escape && b == byte '[' then
      match rest.dropWhile isCode with
      | c :: after => if c == byte 'm' then some (rest.takeWhile isCode, after) else none
      | [] => none
    else
      none
  | _ => none

/-- A style sequence takes up some of the text. -/
theorem length_sequence?_lt {text codes after : Bytes} (h : sequence? text = some (codes, after)) :
    after.length < text.length := by
  unfold sequence? at h
  split at h
  · next a b rest =>
    split at h
    · split at h
      · next c after' hdrop =>
        obtain ⟨-, hafter⟩ := Option.ite_none_right_eq_some.mp h
        cases hafter
        have hle := (List.dropWhile_sublist (l := rest) isCode).length_le
        simp only [hdrop, List.length_cons] at hle ⊢
        omega
      · simp at h
    · simp at h
  · simp at h

/-- The style that a terminal takes up. Its own has no codes. -/
def takeUp (codes : Bytes) : Bytes := if codes = ascii "0" then [] else codes

/-- What a terminal shows of a text, given the codes of the style it is in:
each byte with the codes of its style. The codes it is left in come second. -/
def display (style : Bytes) (text : Bytes) : List (UInt8 × Bytes) × Bytes :=
  match text with
  | [] => ([], style)
  | b :: rest =>
    match _h : sequence? (b :: rest) with
    | some (codes, after) => display (takeUp codes) after
    | none => ((b, style) :: (display style rest).1, (display style rest).2)
termination_by text.length
decreasing_by
  · exact length_sequence?_lt _h
  all_goals simp

/-- The same, with `shown` in front. -/
def showing (shown : List (UInt8 × Bytes)) (later : List (UInt8 × Bytes) × Bytes) :
    List (UInt8 × Bytes) × Bytes :=
  (shown ++ later.1, later.2)

-- ---------------------------------------------------------------------------
-- Plain bytes, style sequences, painted text
-- ---------------------------------------------------------------------------

variable {style text codes after : Bytes}

/-- At a style sequence the terminal takes up its style and shows nothing. -/
theorem display_of_sequence? (h : sequence? text = some (codes, after)) :
    display style text = display (takeUp codes) after := by
  cases text with
  | nil => simp [sequence?] at h
  | cons b rest =>
    rw [display]
    split
    · next h' =>
      cases h.symm.trans h'
      rfl
    · next h' => simp [h] at h'

/-- A style sequence starts with the escape byte. -/
theorem sequence?_eq_none {b : UInt8} (h : b ≠ escape) (rest : Bytes) :
    sequence? (b :: rest) = none := by
  cases rest with
  | nil => rfl
  | cons c rest => simp [sequence?, h]

/-- Text without the escape byte is shown as it is. -/
theorem display_append (h : escape ∉ text) (rest : Bytes) :
    display style (text ++ rest) = showing (text.map (·, style)) (display style rest) := by
  induction text with
  | nil => rfl
  | cons b text ih =>
    rw [List.mem_cons, not_or] at h
    -- no sequence starts at a byte that is not the escape byte
    have hnone := sequence?_eq_none (Ne.symm h.1) (text ++ rest)
    rw [List.cons_append, display]
    split
    · next h' => simp [hnone] at h'
    · rw [ih h.2]
      rfl

/-- A sequence that was written is read, whatever comes after it. -/
theorem sequence?_styleSequence {codes : String} (h : ∀ b ∈ ascii codes, isCode b = true)
    (rest : Bytes) : sequence? (styleSequence codes ++ rest) = some (ascii codes, rest) := by
  have hm : isCode (byte 'm') = false := by decide
  -- the codes end at the letter, which is no code
  have htake : (ascii codes ++ byte 'm' :: rest).takeWhile isCode = ascii codes := by
    rw [List.takeWhile_append_of_pos h, List.takeWhile_cons_of_neg (by simp [hm]),
      List.append_nil]
  have hdrop : (ascii codes ++ byte 'm' :: rest).dropWhile isCode = byte 'm' :: rest := by
    rw [List.dropWhile_append_of_pos h, List.dropWhile_cons_of_neg (by simp [hm])]
  have hshape : styleSequence codes ++ rest =
      escape :: byte '[' :: (ascii codes ++ byte 'm' :: rest) := by
    simp [styleSequence]
  rw [hshape, sequence?, if_pos (by decide), hdrop, htake]
  rfl

/-- The codes of every group are ones a terminal reads, and none of them is
the code of its own style. -/
theorem codes_isCode (g : Group) :
    (∀ b ∈ ascii g.codes, isCode b = true) ∧ takeUp (ascii g.codes) = ascii g.codes := by
  cases g <;> decide +kernel

/-- Behind the sequence of a group the text is shown in its style. -/
theorem display_styleSequence (g : Group) (rest : Bytes) :
    display style (styleSequence g.codes ++ rest) = display (ascii g.codes) rest := by
  obtain ⟨hcodes, htake⟩ := codes_isCode g
  rw [display_of_sequence? (sequence?_styleSequence hcodes rest), htake]

/-- Behind the sequence that ends a style the text is shown in the terminal's
own. -/
theorem display_reset (rest : Bytes) :
    display style (styleSequence "0" ++ rest) = display [] rest :=
  display_of_sequence? (sequence?_styleSequence (by decide +kernel) rest)

/-- A painted text shows its bytes in its own style, and the terminal goes on
as before. -/
theorem display_paint (g : Group) (h : escape ∉ text) (rest : Bytes) :
    display [] (paint true g.codes text ++ rest) =
      showing (text.map (·, ascii g.codes)) (display [] rest) := by
  unfold paint
  split
  · next hbare =>
    rw [display_append h]
    -- the text is empty, or its style is the terminal's own
    have hcases : g.codes = "" ∨ text = [] := by simpa using hbare
    rcases hcases with hcodes | rfl
    · rw [hcodes]
      rfl
    · rfl
  · rw [List.append_assoc, List.append_assoc, display_styleSequence, display_append h,
      display_reset]

end Terminal

-- ---------------------------------------------------------------------------
-- Strokes
-- ---------------------------------------------------------------------------

/-- The codes in which bytes of a kind are shown, or of no kind at all. -/
def HighlightTable.codes (table : HighlightTable) (kind : Option Kind) : Bytes :=
  kind.elim [] fun k => ascii (table.group k).codes

/-- The codes in which the byte at `i` is shown, among the tokens `ts`. -/
def HighlightTable.codesAt (table : HighlightTable) (ts : List Token) (i : Nat) : Bytes :=
  table.codes ((Token.innermost? i ts).map (·.kind))

/-- A stroke shows its bytes in the style of its kind and leaves the terminal as
it was. -/
theorem Palette.display_stroke (table : HighlightTable) {source : Bytes} (h : escape ∉ source)
    (s : Stroke) (rest : Bytes) :
    Terminal.display [] (stroke ⟨table, true⟩ source s ++ rest) =
      Terminal.showing ((s.span.bytes source).map (·, table.codes s.kind))
        (Terminal.display [] rest) := by
  have htext : escape ∉ s.span.bytes source := fun hmem =>
    h (List.mem_of_mem_drop (List.mem_of_mem_take hmem))
  unfold stroke
  split
  · next hk =>
    rw [hk]
    exact Terminal.display_append htext rest
  · next k hk =>
    rw [hk]
    exact Terminal.display_paint (table.group k) htext rest

/-- The bytes of a stretch in one style are those of the source, each in its own. -/
theorem map_bytes_eq {style : Nat → Bytes} {codes : Bytes} {lo hi : Nat} (source : Bytes)
    (h : ∀ i, lo ≤ i → i < hi → style i = codes) :
    (Span.bytes ⟨lo, hi⟩ source).map (·, codes) =
      ((source.mapIdx fun i b => (b, style i)).drop lo).take (hi - lo) := by
  apply List.ext_getElem?
  intro j
  simp only [Span.bytes, List.getElem?_map, List.getElem?_take, List.getElem?_drop,
    List.getElem?_mapIdx]
  by_cases hj : j < hi - lo
  · rw [if_pos hj, if_pos hj, h (lo + j) (by omega) (by omega)]
  · rw [if_neg hj, if_neg hj]
    rfl

/-- Strokes that tile a stretch show that stretch, each byte in the style of
its stroke. -/
theorem Stroke.Tile.display {table : HighlightTable} {source : Bytes} {style : Nat → Bytes}
    {lo hi : Nat} {strokes : List Stroke} (h : Tile lo hi strokes) (hescape : escape ∉ source)
    (hstyle : ∀ s ∈ strokes, ∀ i, s.span.Covers i → style i = table.codes s.kind)
    (rest : Bytes) :
    Terminal.display [] (strokes.flatMap (Palette.stroke ⟨table, true⟩ source) ++ rest) =
      Terminal.showing (((source.mapIdx fun i b => (b, style i)).drop lo).take (hi - lo))
        (Terminal.display [] rest) := by
  induction h with
  | nil lo => simp [Terminal.showing]
  | @cons lo mid hi strokes kind le tile ih =>
    rw [List.forall_mem_cons] at hstyle
    -- the first stroke shows the first part of the stretch, and the others tile the rest
    have hfirst := map_bytes_eq source fun i hlo hhi => hstyle.1 i ⟨hlo, hhi⟩
    have hsplit : hi - lo = (mid - lo) + (hi - mid) := by
      have := tile.le
      omega
    rw [List.flatMap_cons, List.append_assoc, Palette.display_stroke table hescape,
      ih hstyle.2, hfirst, hsplit, List.take_add, List.drop_drop, Nat.add_sub_cancel' le]
    simp [Terminal.showing]

-- ---------------------------------------------------------------------------
-- The innermost token, apart from its search
-- ---------------------------------------------------------------------------

namespace Token

variable {i lo hi : Nat} {t : Token} {ts : List Token}

/-- In order at every depth, all tokens of a forest lie between its bounds. -/
theorem Ordered.forest_bounds (h : Ordered lo hi ts) :
    ∀ u ∈ forest ts, lo ≤ u.span.start ∧ u.span.stop ≤ hi := by
  induction h with
  | nil => simp
  | cons start nested rest ihNested ihRest =>
    have hle := nested.le
    have hle' := rest.le
    intro u hu
    rw [forest_cons, List.mem_cons, List.mem_append] at hu
    rcases hu with rfl | hu | hu
    · exact ⟨start, hle'⟩
    · have := ihNested u hu
      omega
    · have := ihRest u hu
      omega

theorem Ordered.not_covers_of_lt (h : Ordered lo hi ts) (hi : i < lo) :
    ∀ u ∈ forest ts, ¬ u.span.Covers i := by
  intro u hu hcov
  have := (h.forest_bounds u hu).1
  have := hcov.1
  omega

/-- There is no innermost token exactly where no token covers the byte. -/
theorem innermost?_eq_none_iff (h : Ordered lo hi ts) :
    innermost? i ts = none ↔ ∀ u ∈ forest ts, ¬ u.span.Covers i := by
  induction h with
  | nil => simp [innermost?]
  | @cons lo hi t ts start nested rest ihNested ihRest =>
    rw [forest_cons, List.forall_mem_cons, List.forall_mem_append]
    by_cases hcov : t.span.Covers i
    · simp [innermost?_cons_of_covers hcov, hcov]
    · -- what lies inside the token does not cover the byte either
      have hinside : ∀ u ∈ forest t.nested, ¬ u.span.Covers i := by
        intro u hu hin
        have hbounds := nested.forest_bounds u hu
        exact hcov ⟨hbounds.1.trans hin.1, hin.2.trans_le hbounds.2⟩
      rw [innermost?_cons_of_not_covers hcov, ihRest]
      exact ⟨fun hrest => ⟨hcov, hinside, hrest⟩, fun hall => hall.2.2⟩

/-- The innermost token around a byte covers it, and no token inside does. -/
theorem innermost?_eq_some_iff (h : Ordered lo hi ts) :
    innermost? i ts = some t ↔
      t ∈ forest ts ∧ t.span.Covers i ∧ ∀ u ∈ forest t.nested, ¬ u.span.Covers i := by
  induction h with
  | nil => simp [innermost?]
  | @cons lo hi s ts start nested rest ihNested ihRest =>
    rw [forest_cons, List.mem_cons, List.mem_append]
    by_cases hcov : s.span.Covers i
    · -- the tokens behind this one start later than the byte
      have hlater := rest.not_covers_of_lt hcov.2
      rw [innermost?_cons_of_covers hcov, Option.or_eq_some_iff, ihNested,
        innermost?_eq_none_iff nested, Option.some.injEq]
      constructor
      · rintro (⟨hmem, hin⟩ | ⟨hnone, rfl⟩)
        · exact ⟨Or.inr (Or.inl hmem), hin⟩
        · exact ⟨Or.inl rfl, hcov, hnone⟩
      · rintro ⟨rfl | hmem | hmem, hin⟩
        · exact Or.inr ⟨hin.2, rfl⟩
        · exact Or.inl ⟨hmem, hin⟩
        · exact absurd hin.1 (hlater t hmem)
    · rw [innermost?_cons_of_not_covers hcov, ihRest]
      constructor
      · rintro ⟨hmem, hin⟩
        exact ⟨Or.inr (Or.inr hmem), hin⟩
      · rintro ⟨rfl | hmem | hmem, hin⟩
        · exact absurd hin.1 hcov
        · have hbounds := nested.forest_bounds t hmem
          exact absurd ⟨hbounds.1.trans hin.1.1, hin.1.2.trans_le hbounds.2⟩ hcov
        · exact ⟨hmem, hin⟩

end Token

/--
**Colours follow the innermost token.** Highlight a script that holds no escape
byte, with any table, and read the result as a terminal does. It shows exactly
the bytes of the script, in order, and is left in its own style. A byte whose
innermost token is `t` is shown in the style of `t`'s kind; a byte in no token
is shown in the terminal's own style, and so is one whose style has no codes.
-/
theorem render_colored (source : Bytes) (options : LexOptions) (table : HighlightTable)
    (hescape : escape ∉ source) :
    let stream := (lex source options).1
    ∃ (out : Bytes) (style : Nat → Bytes),
      Palette.render ⟨table, true⟩ source stream = .ok out ∧
      Terminal.display [] out = (source.mapIdx fun i b => (b, style i), []) ∧
      ∀ i,
        (∀ t ∈ Token.forest stream, t.span.Covers i →
          (∀ u ∈ Token.forest t.nested, ¬ u.span.Covers i) →
          style i = ascii (table.group t.kind).codes) ∧
        ((∀ t ∈ Token.forest stream, ¬ t.span.Covers i) → style i = []) := by
  intro stream
  have hordered : Token.Ordered 0 source.length stream := lex_ordered source options
  obtain ⟨strokes, hrender, htile, hfollow⟩ :=
    Palette.renderFrom_strokes ⟨table, true⟩ hordered.sane (Nat.zero_le source.length)
  refine ⟨_, table.codesAt stream, hrender, ?_, ?_⟩
  · -- a byte of a stroke has the stroke's kind for that of its innermost token
    have hstyle : ∀ s ∈ strokes, ∀ i, s.span.Covers i →
        table.codesAt stream i = table.codes s.kind := by
      intro s hs i hi
      rw [hfollow hordered s hs i hi, Option.or_none]
      rfl
    have hshown := htile.display hescape hstyle []
    rw [List.append_nil] at hshown
    rw [hshown]
    simp [Terminal.showing, Terminal.display]
  · intro i
    refine ⟨?_, ?_⟩
    · intro t ht hcov hinside
      rw [HighlightTable.codesAt, (Token.innermost?_eq_some_iff hordered).mpr ⟨ht, hcov, hinside⟩]
      rfl
    · intro hnone
      rw [HighlightTable.codesAt, (Token.innermost?_eq_none_iff hordered).mpr hnone]
      rfl

/-- A variable in a template in a string: three styles, one inside the other. -/
theorem render_colored_template :
    escape ∉ ascii "> \x7b\x7bX\x7d\x7d" ∧
      ∃ out, Palette.render ⟨.standard, true⟩ (ascii "> \x7b\x7bX\x7d\x7d")
          (lex (ascii "> \x7b\x7bX\x7d\x7d") {}).1 = .ok out ∧
        (Terminal.display [] out).1[4]? = some (byte 'X', ascii "36") := by
  have hescape : escape ∉ ascii "> \x7b\x7bX\x7d\x7d" := by decide
  have hinner : ∃ t ∈ Token.forest (lex (ascii "> \x7b\x7bX\x7d\x7d") {}).1, t.span.Covers 4 ∧
      (∀ u ∈ Token.forest t.nested, ¬ u.span.Covers 4) ∧ t.kind = .variableName := by
    decide +kernel
  refine ⟨hescape, ?_⟩
  obtain ⟨out, style, hrender, hshown, hstyle⟩ :=
    render_colored (ascii "> \x7b\x7bX\x7d\x7d") {} .standard hescape
  obtain ⟨t, ht, hcov, hinside, hk⟩ := hinner
  refine ⟨out, hrender, ?_⟩
  rw [hshown, List.getElem?_mapIdx, (hstyle 4).1 t ht hcov hinside, hk]
  rfl

end StoryLex
