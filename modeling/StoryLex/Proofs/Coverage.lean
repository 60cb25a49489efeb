import StoryLex.Proofs.Account
import StoryLex.Proofs.Nesting

/-!
# StoryLex — exact accounting of skipped bytes

With reporting on, the diagnostics of a script tell every skipped byte once
and no other byte at all. Which bytes count as skipped depends on where they
stand: outside all tokens all but white space, in an argument list all but
white space and commas, in a template all but blanks, and nowhere else any
(`lex_skipCount`).

Each loop of the lexer is read as a row of stretches (`Accounts.append`), so
that what remains to show of a step is the account of one stretch:
`scanBody_accounts`, `scanString_accounts`, `scanToken_accounts`.
-/

namespace StoryLex

-- ---------------------------------------------------------------------------
-- What the inside of a token calls for
-- ---------------------------------------------------------------------------

/-- What lies between the marks of a region, of `opening` and `closing` bytes. -/
def Token.inner (opening closing : Nat) (t : Token) : Span :=
  ⟨t.span.start + opening, t.span.stop - if t.unterminated then 0 else closing⟩

/-- How often a byte of a region without further regions in it is told. -/
def insideBody (filler : UInt8 → Bool) (opening closing : Nat) (t : Token) (i : Nat)
    (x : Option UInt8) : Nat :=
  if (t.inner opening closing).Covers i then owed filler (fun _ _ _ => 0) t.nested i x else 0

/-- How often a byte of a top-level token is told. -/
def insideTop (t : Token) (i : Nat) (x : Option UInt8) : Nat :=
  match t.kind with
  | .sceneArgs => insideBody isArgsFiller 1 1 t i x
  | .string => owed (fun _ => true) (insideBody isBlank 2 2) t.nested i x
  | _ => 0

/-- The faults met in a found token are those that its inside calls for. -/
structure Found.Accounted (text : Bytes) (inside : Token → Nat → Option UInt8 → Nat)
    (found : Found) : Prop where
  spans : ∀ d ∈ found.faults, d.span.start < d.span.stop
  count : ∀ i, skipCount found.faults i =
            if found.token.span.Covers i then inside found.token i text[i]? else 0

variable {text : Bytes} {c : Cursor} {pieceAt : Option UInt8 → UInt8 → Bytes → Piece}
  {filler : UInt8 → Bool} {kinds : List Kind} {width : Nat}
  {inside : Token → Nat → Option UInt8 → Nat}

-- ---------------------------------------------------------------------------
-- Stretches at a place
-- ---------------------------------------------------------------------------

/-- Filler makes a stretch of which nothing is told. -/
theorem Cursor.In.accounts_filler (hc : c.In text) {n : Nat}
    (h : ∀ x ∈ c.rest.take n, filler x = true) :
    Accounts text filler inside c.offset (c.advance n).offset [] [] := by
  refine .ofFiller (c.offset_le_advance n) ?_
  intro i hlo hhi
  obtain ⟨x, hx, hi⟩ := hc.getElem?_of_lt_advance hlo hhi
  simpa [hi] using h x hx

/-- Junk makes a stretch of which every byte is told once. -/
theorem Cursor.In.accounts_junk (hc : c.In text) (hne : c.rest ≠ []) {n : Nat}
    (h : ∀ x ∈ c.rest.take (n + 1), filler x = false) :
    Accounts text filler inside c.offset (c.advance (n + 1)).offset []
      [.unrecognized (c.spanTo (c.advance (n + 1)))] := by
  refine .ofJunk (c.offset_lt_advance hne n) ?_
  intro i hlo hhi
  obtain ⟨x, hx, hi⟩ := hc.getElem?_of_lt_advance hlo hhi
  simpa [hi] using h x hx

/-- A leaf has no inside to account for. -/
theorem Match.accounts_found (m : Match) (c : Cursor) :
    Accounts text filler (fun _ _ _ => 0) c.offset (c.advance (m.more + 1)).offset
      [(m.found c).token] [] :=
  .ofToken (t := (m.found c).token) (c.offset_le_advance _) (by simp) (by simp)

-- ---------------------------------------------------------------------------
-- The insides of regions
-- ---------------------------------------------------------------------------

/-- The inside of a region is accounted for up to its closing mark. -/
theorem scanBody_accounts (hp : PieceSpec pieceAt filler kinds width) (hc : c.In text) :
    Accounts text filler (fun _ _ _ => 0) c.offset ((scanBody pieceAt c).innerStop width)
      (scanBody pieceAt c).tokens (scanBody pieceAt c).faults := by
  fun_induction scanBody pieceAt c with
  | case1 c h => exact .nil _
  | case2 c b tail h more hpiece =>
    obtain ⟨hwidth, hfits⟩ := hp.of_close hpiece
    -- the closing mark is not part of the inside
    have hstop : (c.advance (more + 1)).offset - width = c.offset := by
      rw [Cursor.offset_advance (Cursor.succ_le_length_rest h hfits)]
      omega
    simp only [Body.innerStop, if_true, hstop]
    exact .nil _
  | case3 c b tail h hpiece ih =>
    have hbyte : ∀ x ∈ c.rest.take 1, filler x = true := by
      simpa [h] using hp.of_filler hpiece
    exact (hc.accounts_filler hbyte).append (ih (hc.advance 1))
  | case4 c b tail h m hpiece found body ih =>
    exact (m.accounts_found c).append (ih (hc.advance _))
  | case5 c b tail h more hpiece next body ih =>
    have hbytes : ∀ x ∈ c.rest.take (more + 1), filler x = false := by
      rw [h]
      exact (hp.of_junk hpiece).2
    exact (hc.accounts_junk (by simp [h]) hbytes).append (ih (hc.advance _))

/-- Between the marks of a region lies its inside. -/
theorem Body.inner_enclose (body : Body) (c : Cursor) (kind : Kind) (opening closing : Nat) :
    (body.enclose c kind).token.inner opening closing =
      ⟨c.offset + opening, body.innerStop closing⟩ := by
  simp only [Body.enclose, Token.inner, Cursor.tokenTo, Cursor.spanTo, Body.innerStop]
  by_cases hclosed : body.closed = true <;> simp [hclosed]

/-- A region is accounted for if its inside is: its marks call for nothing,
and neither does the fault that it was cut off. -/
theorem Body.enclose_accounted {body : Body} {opening closing : Nat} (kind : Kind)
    (hopening : 0 < opening) (hopen : opening ≤ c.rest.length)
    (hstop : body.stop.offset = body.innerStop closing + if body.closed then closing else 0)
    (hbody : Accounts text filler (fun _ _ _ => 0) (c.advance opening).offset
      (body.innerStop closing) body.tokens body.faults) :
    (body.enclose c kind).Accounted text (insideBody filler opening closing) := by
  -- that the region was cut off skips no byte
  have hcut : ∀ i, skipCount (if body.closed then []
      else [Diagnostic.unterminated kind (c.spanTo body.stop)]) i = 0 := by
    intro i
    split
    · rfl
    · simp [skipCount_cons, Diagnostic.Skips, Diagnostic.unterminated]
  have hle := hbody.le
  rw [Cursor.offset_advance hopen] at hbody hle
  refine ⟨?_, ?_⟩
  · intro d hd
    rcases List.mem_append.mp hd with hd | hd
    · exact hbody.spans d hd
    · split at hd
      · simp at hd
      · rw [List.mem_singleton.mp hd]
        show c.offset < body.stop.offset
        omega
  · intro i
    show skipCount (body.faults ++ _) i = _
    rw [skipCount_append, hcut, Nat.add_zero, hbody.count i, insideBody, body.inner_enclose]
    show _ = if c.offset ≤ i ∧ i < body.stop.offset then
      if c.offset + opening ≤ i ∧ i < body.innerStop closing then
        owed filler (fun _ _ _ => 0) body.tokens i text[i]? else 0 else 0
    -- between the marks is inside the token
    by_cases hi : c.offset + opening ≤ i ∧ i < body.innerStop closing
    · rw [if_pos hi, if_pos (by omega)]
    · rw [if_neg hi, ite_self]

/-- A template tells what is inside it but blanks and variables. -/
theorem template_accounted (hc : c.In text) (hopen : 2 ≤ c.rest.length) :
    (template c).Accounted text (insideBody isBlank 2 2) :=
  Body.enclose_accounted .template Nat.two_pos hopen
    (scanBody_laid templatePiece_spec (hc.advance 2)).stop_eq
    (scanBody_accounts templatePiece_spec (hc.advance 2))

/-- An argument list tells what is inside it but separators and its tokens. -/
theorem sceneArgs_accounted (legacy : Bool) (hc : c.In text) (hopen : 1 ≤ c.rest.length) :
    (sceneArgs legacy c).Accounted text (insideBody isArgsFiller 1 1) :=
  Body.enclose_accounted .sceneArgs Nat.one_pos hopen
    (scanBody_laid (argsPiece_spec legacy) (hc.advance 1)).stop_eq
    (scanBody_accounts (argsPiece_spec legacy) (hc.advance 1))

/-- Text of a string outside its templates is filler, whatever it is. -/
theorem scanString_accounts (hc : c.In text) :
    Accounts text (fun _ => true) (insideBody isBlank 2 2) c.offset (scanString c).stop.offset
      (scanString c).tokens (scanString c).faults := by
  fun_induction scanString c with
  | case1 c h => exact .nil _
  | case2 c b tail h hopen found body ih =>
    rw [Bool.and_eq_true, decide_eq_true_eq] at hopen
    have hlen := Cursor.succ_le_length_rest h (Rule.length_pos_of_head? hopen.2)
    have hlaid := template_laid hc (by simp [h])
    -- a template is one stretch, with what is told inside it
    have hacc := template_accounted hc hlen
    have hle : c.offset ≤ (template c).stop.offset := hlaid.token.le
    exact (Accounts.ofToken (t := (template c).token) hle hacc.spans hacc.count).append
      (ih hlaid.stop_in)
  | case3 c b tail h hopen ih =>
    exact (hc.accounts_filler fun _ _ => rfl).append (ih (hc.advance 1))

-- ---------------------------------------------------------------------------
-- The four forms of a token
-- ---------------------------------------------------------------------------

/-- In a token that is no region nothing is told. -/
theorem insideTop_of_isRegion_eq_false {t : Token} (h : t.kind.isRegion = false) (i : Nat)
    (x : Option UInt8) : insideTop t i x = 0 := by
  unfold insideTop
  split
  · next hk => simp [hk, Kind.isRegion] at h
  · next hk => simp [hk, Kind.isRegion] at h
  · rfl

/-- A string tells what its templates tell. -/
theorem string_accounted (hc : c.In text) : (string c).Accounted text insideTop := by
  have hd := hc.advance 2
  obtain ⟨hstop, -⟩ := scanString_inLine hd
  have hbody := scanString_accounts hd.inLine
  rw [hstop] at hbody
  -- the opening mark is one more stretch of filler
  have hacc := (hc.accounts_filler (n := 2) fun _ _ => rfl).append (hbody.of_take le_rfl)
  refine ⟨by rw [string_faults]; exact hacc.spans, ?_⟩
  intro i
  rw [string_faults]
  show _ = if c.offset ≤ i ∧ i < (scanString (c.advance 2).inLine).stop.offset then
    owed (fun _ => true) (insideBody isBlank 2 2) (scanString (c.advance 2).inLine).tokens i
      text[i]? else 0
  rw [hstop]
  exact hacc.count i

/-- The faults of a token that is found are those that its inside calls for. -/
theorem FoundAt.accounted {legacy : Bool} {found : Found} (hc : c.In text)
    (h : FoundAt legacy c found) : found.Accounted text insideTop := by
  cases h with
  | leaf rest fits inLine region eof =>
    refine ⟨by simp [Match.found], ?_⟩
    intro i
    rw [insideTop_of_isRegion_eq_false region, ite_self]
    rfl
  | comment rest =>
    refine ⟨by simp [StoryLex.comment], ?_⟩
    intro i
    show 0 = if _ then 0 else 0
    rw [ite_self]
  | string rest => exact string_accounted hc
  | sceneArgs rest =>
    have hacc := sceneArgs_accounted legacy hc (by simp [rest])
    exact ⟨hacc.spans, hacc.count⟩

theorem FoundAt.start_eq {legacy : Bool} {found : Found} (h : FoundAt legacy c found) :
    found.token.span.start = c.offset := by
  cases h <;> rfl

/-- A token that is found makes a stretch with its faults. -/
theorem FoundAt.accounts {legacy : Bool} {found : Found} (hc : c.In text)
    (h : FoundAt legacy c found) :
    Accounts text isSpace insideTop c.offset found.stop.offset [found.token] found.faults := by
  have hlaid := h.laid hc
  have hacc := h.accounted hc
  have hle := hlaid.token.le
  rw [← h.start_eq, ← hlaid.stop_eq] at hle ⊢
  exact .ofToken hle hacc.spans hacc.count

-- ---------------------------------------------------------------------------
-- The search for the next token
-- ---------------------------------------------------------------------------

theorem isSpace_of_isBlank : ∀ x : UInt8, isBlank x = true → isSpace x = true := by
  decide +kernel

/-- A search by the general rules accounts for the text that it passes. -/
theorem scanGeneral_accounts (legacy : Bool) (hc : c.In text) :
    Accounts text isSpace insideTop c.offset (scanGeneral legacy c).stop.offset
      (scanGeneral legacy c).token.toList (scanGeneral legacy c).faults := by
  fun_induction scanGeneral legacy c with
  | case1 c h => exact .nil _
  | case2 c b tail h hspace ih =>
    have hbyte : ∀ x ∈ c.rest.take 1, isSpace x = true := by
      simpa [h] using hspace
    exact (hc.accounts_filler hbyte).append (ih (hc.advance 1))
  | case3 c b tail h hspace found hgen => exact (general?_foundAt hgen).accounts hc
  | case4 c b tail h hspace hgen next step ih =>
    -- junk starts with no white space, and goes on with none
    have hbytes : ∀ x ∈ c.rest.take (Rule.junk b tail + 1), isSpace x = false := by
      intro x hx
      rw [h, List.take_succ_cons] at hx
      rcases List.mem_cons.mp hx with rfl | hx
      · simpa using hspace
      · exact (Rule.not_space_of_word_or_continuation x (Rule.of_mem_junk hx)).1
    exact (hc.accounts_junk (by simp [h]) hbytes).append (ih (hc.advance _))

/-- The blanks that set an expected token off are filler. -/
theorem Expectation.accounts_place (e : Expectation) (hc : c.In text) :
    Accounts text isSpace insideTop c.offset (e.place c).offset [] [] := by
  unfold Expectation.place
  split
  · exact .nil _
  · refine hc.accounts_filler ?_
    intro x hx
    exact isSpace_of_isBlank x (of_mem_take_runLength hx)

/-- The search for the next token accounts for the text that it passes. -/
theorem scanToken_accounts (legacy : Bool) (e : Expectation) (hc : c.In text) :
    Accounts text isSpace insideTop c.offset (scanToken legacy e c).stop.offset
      (scanToken legacy e c).token.toList (scanToken legacy e c).faults := by
  unfold scanToken
  split
  · next found hexp =>
    exact (e.accounts_place hc).append ((expected?_foundAt hexp).accounts (e.place_in hc))
  · exact scanGeneral_accounts legacy hc

-- ---------------------------------------------------------------------------
-- Runs
-- ---------------------------------------------------------------------------

/-- With reporting on, all faults are reported. -/
theorem LexOptions.report_of_reportUnrecognized {options : LexOptions}
    (h : options.reportUnrecognized = true) (faults : List Diagnostic) :
    options.report faults = Diagnostic.coalesce faults := by
  simp [report, h]

/-- What one call adds to the diagnostics accounts for the text it passes. -/
theorem Lexer.next_accounts {l l' : Lexer} {token : Option Token} (hl : l.cursor.In text)
    (hreport : l.options.reportUnrecognized = true) (hn : l.next = (token, l')) :
    ∃ ds, l'.diagnostics = l.diagnostics ++ ds ∧
      Accounts text isSpace insideTop l.position l'.position token.toList ds := by
  simp only [next, Prod.mk.injEq] at hn
  obtain ⟨rfl, rfl⟩ := hn
  refine ⟨_, rfl, ?_⟩
  rw [LexOptions.report_of_reportUnrecognized hreport]
  exact (scanToken_accounts _ _ hl).coalesce

/-- What a run adds to the diagnostics accounts for the rest of the text. -/
theorem Lexer.run_accounts {l : Lexer} (hl : l.cursor.In text)
    (hreport : l.options.reportUnrecognized = true) :
    ∃ ds, l.run.2.diagnostics = l.diagnostics ++ ds ∧
      Accounts text isSpace insideTop l.position text.length l.tokens ds := by
  induction l using run.induct with
  | case1 l l' hn =>
    obtain ⟨hin, hrest, -⟩ := next_exhausted hl hn
    obtain ⟨ds, hds, hacc⟩ := next_accounts hl hreport hn
    rw [run_of_next_none hn, tokens_of_next_none hn, ← hin.offset_eq_length hrest]
    exact ⟨ds, hds, hacc⟩
  | case2 l t l' hn ts l'' hrun ih =>
    obtain ⟨ds, hds, hacc⟩ := next_accounts hl hreport hn
    -- the stretch of the first call, and that of the run behind it
    obtain ⟨es, hes, hrest⟩ := ih (next_in hl hn) (next_options hn ▸ hreport)
    rw [run_of_next_some hn, tokens_of_next_some hn]
    refine ⟨ds ++ es, ?_, hacc.append hrest⟩
    rw [hes, hds, List.append_assoc]

-- ---------------------------------------------------------------------------
-- Reading the account
-- ---------------------------------------------------------------------------

/-- The byte at `i` stands between the marks of a region and in none of the
tokens there. -/
def Token.Exposes (opening closing : Nat) (t : Token) (i : Nat) : Prop :=
  (t.inner opening closing).Covers i ∧ ∀ u ∈ t.nested, ¬ u.span.Covers i

instance (opening closing : Nat) (t : Token) (i : Nat) : Decidable (t.Exposes opening closing i) :=
  inferInstanceAs (Decidable (_ ∧ _))

variable {i : Nat} {x : Option UInt8} {t : Token} {ts : List Token} {opening closing : Nat}

/-- What stands between the marks of a region stands in the region. -/
theorem Token.Exposes.covers (h : t.Exposes opening closing i) : t.span.Covers i := by
  obtain ⟨⟨hlo, hhi⟩, -⟩ := h
  simp only [Token.inner] at hlo hhi
  exact ⟨by omega, by omega⟩

/-- Between the marks of a region, and in none of its tokens, all but filler is
told once. -/
theorem insideBody_of_exposes (h : t.Exposes opening closing i) :
    insideBody filler opening closing t i x = if x.all filler then 0 else 1 := by
  rw [insideBody, if_pos h.1, owed_of_not_covers h.2]

/-- In the marks of a region, and in the leaves inside it, nothing is told. -/
theorem insideBody_of_not_exposes (h : ¬ t.Exposes opening closing i) :
    insideBody filler opening closing t i x = 0 := by
  unfold insideBody
  split
  · next hinner =>
    rw [owed]
    split
    · rfl
    · next hnone =>
      refine absurd ⟨hinner, ?_⟩ h
      simpa [List.find?_eq_none] using hnone
  · rfl

/-- A byte in a token is told as the inside of that token calls for. -/
theorem owed_of_mem {lo hi : Nat} (hts : Token.Laid text lo hi ts) (ht : t ∈ ts)
    (hcov : t.span.Covers i) : owed filler inside ts i x = inside t i x := by
  cases hfind : ts.find? (fun t => t.span.Covers i) with
  | none =>
    rw [List.find?_eq_none] at hfind
    exact absurd (decide_eq_true hcov) (hfind t ht)
  | some u =>
    have hu : u.span.Covers i := by simpa using List.find?_some hfind
    have : u = t := hts.eq_of_covers (List.mem_of_find?_eq_some hfind) ht hu hcov
    rw [owed, hfind, this]

/-- A template stands in a string of the level above. -/
theorem Token.Shaped.string_of_template (hshaped : ∀ s ∈ ts, s.Shaped) (ht : t ∈ Token.forest ts)
    (hk : t.kind = .template) : ∃ s ∈ ts, s.kind = .string ∧ t ∈ s.nested := by
  obtain ⟨s, hs, rfl | hin⟩ := Token.mem_forest.mp ht
  · rcases hshaped t hs with ⟨hregion, -, -⟩ | ⟨hk', -⟩ | ⟨hk', -, -⟩ | ⟨hk', -⟩
    · simp [hk, Kind.isRegion] at hregion
    all_goals simp [hk] at hk'
  · rcases (hshaped s hs).mem_nested hin with ⟨-, -, hk'⟩ | ⟨hks, hin, -⟩ | ⟨-, hk'⟩
    · simp [hk, argKinds] at hk'
    · exact ⟨s, hs, hks, hin⟩
    · simp [hk] at hk'

section Streams

variable {lo hi : Nat} (hts : Token.Laid text lo hi ts) (hshaped : ∀ s ∈ ts, s.Shaped)

include hts hshaped

/-- Between the marks of an argument list all but separators is told once. -/
theorem owed_of_sceneArgs (ht : t ∈ Token.forest ts) (hk : t.kind = .sceneArgs)
    (hexp : t.Exposes 1 1 i) :
    owed isSpace insideTop ts i x = if x.all isArgsFiller then 0 else 1 := by
  rw [owed_of_mem hts (Token.Shaped.mem_of_kind hshaped ht (Or.inr hk)) hexp.covers, insideTop, hk]
  exact insideBody_of_exposes hexp

/-- Between the marks of a template all but blanks is told once, though the
template is inside a string. -/
theorem owed_of_template (ht : t ∈ Token.forest ts) (hk : t.kind = .template)
    (hexp : t.Exposes 2 2 i) :
    owed isSpace insideTop ts i x = if x.all isBlank then 0 else 1 := by
  obtain ⟨s, hs, hks, hin⟩ := Token.Shaped.string_of_template hshaped ht hk
  have hnested := hts.nested_of_mem hs
  -- the string around it covers the byte too
  have hcov : s.span.Covers i := by
    have hb := hnested.bounds hin
    have hc := hexp.covers
    exact ⟨hb.1.trans hc.1, hc.2.trans_le hb.2⟩
  rw [owed_of_mem hts hs hcov, insideTop, hks]
  show owed _ _ s.nested i x = _
  rw [owed_of_mem hnested hin hexp.covers, insideBody_of_exposes hexp]

/-- Nothing else that lies in a token is told. -/
theorem owed_eq_zero (hcov : ∃ s ∈ ts, s.span.Covers i)
    (hargs : ∀ u ∈ Token.forest ts, u.kind = .sceneArgs → ¬ u.Exposes 1 1 i)
    (htemplate : ∀ u ∈ Token.forest ts, u.kind = .template → ¬ u.Exposes 2 2 i) :
    owed isSpace insideTop ts i x = 0 := by
  obtain ⟨s, hs, hsi⟩ := hcov
  have hroot : s ∈ Token.forest ts := Token.mem_forest_of_mem hs
  rw [owed_of_mem hts hs hsi]
  cases hshaped s hs with
  | leaf region eof plain => exact insideTop_of_isRegion_eq_false region i x
  | comment kind plain => rw [insideTop, kind]
  | sceneArgs kind nested =>
    rw [insideTop, kind]
    exact insideBody_of_not_exposes (hargs s hroot kind)
  | string kind closed nested =>
    rw [insideTop, kind]
    show owed _ _ s.nested i x = 0
    -- the byte is text of the string, or lies in one of its templates
    by_cases hin : ∃ u ∈ s.nested, u.span.Covers i
    · obtain ⟨u, hu, hui⟩ := hin
      have hmem := Token.mem_forest_of_nested hs hu
      rw [owed_of_mem (hts.nested_of_mem hs) hu hui]
      exact insideBody_of_not_exposes (htemplate u hmem (nested u hu).kind)
    · push Not at hin
      rw [owed_of_not_covers hin]
      exact if_pos (by cases x <;> rfl)

end Streams

/--
**Exact accounting of skipped bytes.** With reporting on, take any byte at or
after the place at which reading begins.

* In no token, it is told once, unless it is white space.
* Between the marks of an argument list and in none of its tokens, it is told
  once, unless it is white space or a comma.
* Between the marks of a template and in none of its tokens, it is told once,
  unless it is a blank.
* Anywhere else in a token it is never told.
-/
theorem lex_skipCount (source : Bytes) (options : LexOptions)
    (hreport : options.reportUnrecognized = true) (i : Nat)
    (hstart : min options.startOffset source.length ≤ i) (hi : i < source.length) :
    let stream := (lex source options).1
    let told := skipCount (lex source options).2 i
    ((∀ t ∈ stream, ¬ t.span.Covers i) → told = if isSpace source[i] then 0 else 1) ∧
    (∀ t ∈ Token.forest stream, t.kind = .sceneArgs → t.Exposes 1 1 i →
      told = if source[i] == byte ',' || isSpace source[i] then 0 else 1) ∧
    (∀ t ∈ Token.forest stream, t.kind = .template → t.Exposes 2 2 i →
      told = if isBlank source[i] then 0 else 1) ∧
    ((∃ t ∈ stream, t.span.Covers i) →
      (∀ t ∈ Token.forest stream, t.kind = .sceneArgs → ¬ t.Exposes 1 1 i) →
      (∀ t ∈ Token.forest stream, t.kind = .template → ¬ t.Exposes 2 2 i) → told = 0) := by
  have hin := Lexer.start_in source options
  have hlaid := Lexer.tokens_laid hin
  have hshaped := Lexer.tokens_shaped hin
  obtain ⟨ds, hds, hacc⟩ := Lexer.run_accounts hin hreport
  rw [← Lexer.position_start source options] at hstart
  have htold : skipCount (lex source options).2 i =
      owed isSpace insideTop (Lexer.start source options).tokens i (some source[i]) := by
    have hdiag : (lex source options).2 = ds := hds
    rw [hdiag, hacc.count i, if_pos ⟨hstart, hi⟩, List.getElem?_eq_getElem hi]
  -- the end of the input covers nothing and is no region
  have hroot : ∀ t ∈ (lex source options).1, t.span.Covers i →
      t ∈ (Lexer.start source options).tokens := by
    intro t ht hcov
    rw [lex_eq_tokens, List.mem_append, List.mem_singleton] at ht
    rcases ht with ht | rfl
    · exact ht
    · exact absurd (hcov.1.trans_lt hcov.2) (lt_irrefl _)
  have hforest : ∀ t ∈ Token.forest (lex source options).1, t.kind.isRegion = true →
      t ∈ Token.forest (Lexer.start source options).tokens := by
    intro t ht hregion
    rw [lex_eq_tokens, Token.mem_forest_append_eof] at ht
    rcases ht with ht | rfl
    · exact ht
    · simp [Token.eof, Kind.isRegion] at hregion
  have hmem : ∀ t ∈ Token.forest (Lexer.start source options).tokens,
      t ∈ Token.forest (lex source options).1 := by
    intro t ht
    rw [lex_eq_tokens, Token.mem_forest_append_eof]
    exact Or.inl ht
  refine ⟨?_, ?_, ?_, ?_⟩
  · intro hnone
    refine htold.trans (owed_of_not_covers ?_)
    intro t ht
    refine hnone t ?_
    rw [lex_eq_tokens]
    exact List.mem_append_left _ ht
  · intro t ht hk hexp
    exact htold.trans (owed_of_sceneArgs hlaid hshaped (hforest t ht (by rw [hk]; rfl)) hk hexp)
  · intro t ht hk hexp
    exact htold.trans (owed_of_template hlaid hshaped (hforest t ht (by rw [hk]; rfl)) hk hexp)
  · rintro ⟨t, ht, hcov⟩ hargs htemplate
    exact htold.trans (owed_eq_zero hlaid hshaped ⟨t, hroot t ht hcov, hcov⟩
      (fun u hu => hargs u (hmem u hu)) (fun u hu => htemplate u (hmem u hu)))

/-- A carriage return is no blank, so a template tells it. -/
theorem lex_skipCount_carriageReturn :
    (4 < (ascii "> \x7b\x7b\r X\x7d\x7d").length ∧
      ∃ t ∈ Token.forest (lex (ascii "> \x7b\x7b\r X\x7d\x7d") {}).1,
        t.kind = .template ∧ t.Exposes 2 2 4) ∧
    skipCount (lex (ascii "> \x7b\x7b\r X\x7d\x7d") {}).2 4 = 1 := by
  have hexp : ∃ t ∈ Token.forest (lex (ascii "> \x7b\x7b\r X\x7d\x7d") {}).1,
      t.kind = .template ∧ t.Exposes 2 2 4 := by decide +kernel
  refine ⟨⟨by decide, hexp⟩, ?_⟩
  obtain ⟨t, ht, hk, hexp⟩ := hexp
  have htold := (lex_skipCount (ascii "> \x7b\x7b\r X\x7d\x7d") {} rfl 4 (by decide)
    (by decide)).2.2.1 t ht hk hexp
  exact htold.trans (by decide +kernel)

end StoryLex
