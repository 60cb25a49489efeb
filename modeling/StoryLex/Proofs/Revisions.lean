import StoryLex.Proofs.Coverage
import StoryLex.Proofs.Expectations
import StoryLex.Proofs.Spans

/-!
# StoryLex — the two revisions of the grammar

The older revision of the grammar takes more words for names than the present
one: any word for a scene, and any word behind a sigil. On a script that the
present revision reads without a fault, the two can differ in two ways only. A
name behind a sigil may go on with word bytes that only the older revision
takes in, or a word may stand where a scene is expected that only the older
revision takes for a scene's name. Where neither is the case, both revisions
read the script alike (`lex_legacy`).

The two lexers are run side by side, from the rules up. Each `_legacy` lemma
says that one function of the scan answers the same in both revisions, given
that the present one met no fault, that the names behind sigils end with their
words (`Token.SigilsEnd`), and that nothing in doubt is expected
(`Expectation.Settled`).
-/

namespace StoryLex

-- ---------------------------------------------------------------------------
-- Where the revisions part
-- ---------------------------------------------------------------------------

/-- The kinds of token that a sigil opens. -/
def Kind.isSigil : Kind → Bool
  | label | macroName | atom => true
  | _ => false

theorem Kind.isSigil_iff {k : Kind} :
    k.isSigil = true ↔ k = .label ∨ k = .macroName ∨ k = .atom := by
  cases k <;> decide

/-- The bytes that only the older revision takes for the start of a scene's name. -/
def isLegacyStart (b : UInt8) : Bool := isUpper b || isDigit b || b == byte '_'

theorem isWord_eq_isLower : ∀ b : UInt8, isLegacyStart b = false → isWord b = isLower b := by
  decide +kernel

/-- No name behind a sigil, at any depth, is directly followed by a word byte. -/
def Token.SigilsEnd (text : Bytes) (ts : List Token) : Prop :=
  ∀ t ∈ forest ts, t.kind.isSigil = true → (text[t.span.stop]?).any isWord = false

/-- If all names behind sigils end with their words, so do those of the first
token, of those inside it and of those behind it. -/
theorem Token.SigilsEnd.of_cons {text : Bytes} {t : Token} {ts : List Token}
    (h : SigilsEnd text (t :: ts)) :
    (t.kind.isSigil = true → (text[t.span.stop]?).any isWord = false) ∧
      SigilsEnd text t.nested ∧ SigilsEnd text ts := by
  refine ⟨h t (by simp), ?_, ?_⟩
  · intro u hu
    exact h u (by simp [hu])
  · intro u hu
    exact h u (by simp [hu])

/-- Behind the offset `n`, no word stands where a scene is expected that only
the older revision takes for a scene's name. A module's name comes first. -/
def Expectation.Settled (text : Bytes) (e : Expectation) (n : Nat) : Prop :=
  e = .sceneName ∨ e = .sceneOrModule →
    (text[runEnd isBlank text n]?).any isLegacyStart = true →
      e = .sceneOrModule ∧ ModNameAt text (runEnd isBlank text n)

-- ---------------------------------------------------------------------------
-- The rules
-- ---------------------------------------------------------------------------

namespace Sigil

theorem isWord_of_first (s : Sigil) : ∀ b, s.first false b = true → isWord b = true := by
  cases s <;> decide +kernel

theorem isWord_of_later (s : Sigil) : ∀ b, s.later false b = true → isWord b = true := by
  cases s <;> decide +kernel

theorem isSigil_kind (s : Sigil) : s.kind.isSigil = true := by
  cases s <;> rfl

end Sigil

namespace Rule

variable {before : Option UInt8} {b : UInt8} {tail : Bytes} {m : Match}

/-- What a sigil opens is a label, a macro or an atom. -/
theorem sigil?_isSigil {legacy : Bool} {s : Sigil} (h : sigil? legacy s tail = some m) :
    m.kind.isSigil = true := by
  obtain ⟨c, rest, -, -, rfl⟩ := sigil?_eq_some_iff.mp h
  exact s.isSigil_kind

/-- A name behind a sigil that ends with its word is the whole word. -/
theorem sigil?_legacy {s : Sigil} (h : sigil? false s tail = some m)
    (hend : (tail.drop m.more).head?.any isWord = false) : sigil? true s tail = some m := by
  obtain ⟨c, rest, rfl, hfirst, rfl⟩ := sigil?_eq_some_iff.mp h
  refine sigil?_eq_some_iff.mpr ⟨c, rest, rfl, s.isWord_of_first c hfirst, ?_⟩
  -- the name stops where its word does, so the wider class stops there too
  have hrun : rest.takeWhile isWord = rest.takeWhile (s.later false) :=
    takeWhile_eq_of_stop s.isWord_of_later hend
  show Match.mk s.kind (runLength (s.later false) rest + 1) =
    Match.mk s.kind (runLength isWord rest + 1)
  rw [runLength, runLength, hrun]

/-- A general rule that matches a name to the end of its word matches the same
in the older revision. -/
theorem leaf?_legacy (h : leaf? false before b tail = some m)
    (hend : m.kind.isSigil = true → (tail.drop m.more).head?.any isWord = false) :
    leaf? true before b tail = some m := by
  unfold leaf? at h ⊢
  split at h
  · next hb => rwa [if_pos hb]
  next hb =>
  rw [if_neg hb]
  split at h
  · next hword => rwa [if_pos hword]
  next hword =>
  rw [if_neg hword]
  -- only behind a sigil do the revisions take different names
  cases hs : Sigil.ofByte? b with
  | none => rwa [hs] at h
  | some s =>
    rw [hs] at h
    exact sigil?_legacy h (hend (sigil?_isSigil h))

/-- A byte that both revisions take alike starts the same scene's name in
both. -/
theorem sceneName?_legacy (h : isLegacyStart b = false) (tail : Bytes) :
    sceneName? true b tail = sceneName? false b tail := by
  have hb := isWord_eq_isLower b h
  simp [sceneName?, hb]

end Rule

-- ---------------------------------------------------------------------------
-- Argument lists
-- ---------------------------------------------------------------------------

section Regions

variable {text : Bytes} {c : Cursor} {b : UInt8} {tail : Bytes}

/-- Behind a hash an argument list looks for an atom, and for nothing else. -/
theorem argsPiece_hash (legacy : Bool) (before : Option UInt8) (tail : Bytes) :
    argsPiece legacy before (byte '#') tail =
      match Rule.sigil? legacy .atom tail with
      | some m => .leaf m
      | none => .junk (Rule.junk (byte '#') tail) := rfl

/-- A piece of an argument list that is no skipped input is the same in the
older revision. -/
theorem argsPiece_legacy {before : Option UInt8} {piece : Piece}
    (h : argsPiece false before b tail = piece) (hjunk : ∀ more, piece ≠ .junk more)
    (hend : ∀ m, piece = .leaf m → m.kind.isSigil = true →
      (tail.drop m.more).head?.any isWord = false) :
    argsPiece true before b tail = piece := by
  by_cases hb : b = byte '#'
  · subst hb
    rw [argsPiece_hash] at h ⊢
    cases hatom : Rule.sigil? false .atom tail with
    | none =>
      rw [hatom] at h
      exact absurd h.symm (hjunk _)
    | some m =>
      rw [hatom] at h
      rw [Rule.sigil?_legacy hatom (hend m h.symm (Rule.sigil?_isSigil hatom))]
      exact h
  · -- the revision is asked for atoms alone
    have hne : ¬ (b == byte '#') = true := by simpa using hb
    rw [← h]
    simp only [argsPiece, if_neg hne]

/-- The byte behind a match. -/
theorem Match.getElem?_stop (hc : c.In text) (hrest : c.rest = b :: tail) (m : Match) :
    text[(m.found c).token.span.stop]? = (tail.drop m.more).head? := by
  have hnext := (hc.advance (m.more + 1)).getElem?_rest 0
  rw [Nat.add_zero, Cursor.rest_advance, hrest, List.drop_succ_cons, ← List.head?_eq_getElem?]
    at hnext
  exact hnext.symm

/-- The inside of an argument list in which nothing was skipped is the same in
the older revision. -/
theorem scanBody_legacy (hc : c.In text) (hfaults : (scanBody (argsPiece false) c).faults = [])
    (hends : Token.SigilsEnd text (scanBody (argsPiece false) c).tokens) :
    scanBody (argsPiece true) c = scanBody (argsPiece false) c := by
  fun_induction scanBody (argsPiece false) c with
  | case1 c h => rw [scanBody_of_rest_eq_nil h]
  | case2 c b tail h more hpiece =>
    rw [scanBody_eq h, argsPiece_legacy hpiece (by simp) (by simp)]
  | case3 c b tail h hpiece ih =>
    rw [scanBody_eq h, argsPiece_legacy hpiece (by simp) (by simp)]
    exact ih (hc.advance 1) hfaults hends
  | case4 c b tail h m hpiece found body ih =>
    obtain ⟨hend, -, hends⟩ := hends.of_cons
    rw [m.getElem?_stop hc h] at hend
    -- the leaf is the one that the older revision finds, by what follows it
    have hsame : argsPiece true c.before b tail = .leaf m := by
      refine argsPiece_legacy hpiece (by simp) ?_
      intro m' hm'
      rwa [← Piece.leaf.inj hm']
    rw [scanBody_eq h, hsame]
    simp only [ih (hc.advance _) hfaults hends]
    rfl
  | case5 c b tail h more hpiece next body ih => simp at hfaults

/-- An argument list in which nothing was skipped is the same in the older
revision. -/
theorem sceneArgs_legacy (hc : c.In text) (hfaults : (sceneArgs false c).faults = [])
    (hends : Token.SigilsEnd text [(sceneArgs false c).token]) :
    sceneArgs true c = sceneArgs false c := by
  have hbody : (scanBody (argsPiece false) (c.advance 1)).faults = [] :=
    (List.append_eq_nil_iff.mp hfaults).1
  rw [sceneArgs, sceneArgs, scanBody_legacy (hc.advance 1) hbody hends.of_cons.2.1]

end Regions

-- ---------------------------------------------------------------------------
-- One token
-- ---------------------------------------------------------------------------

section Steps

variable {text : Bytes} {e : Expectation} {c : Cursor} {found : Found}

/-- A token that the general rules find is the one that the older revision
finds. -/
theorem general?_legacy (hc : c.In text) (h : general? false c = some found)
    (hends : Token.SigilsEnd text [found.token]) : general? true c = some found := by
  cases hrest : c.rest with
  | nil => simp [general?, hrest] at h
  | cons b tail =>
    rw [general?_eq hrest] at h ⊢
    split at h
    · next hcomment => rwa [if_pos hcomment]
    next hcomment =>
    rw [if_neg hcomment]
    split at h
    · next hstring => rwa [if_pos hstring]
    next hstring =>
    rw [if_neg hstring]
    obtain ⟨m, hm, rfl⟩ := Option.map_eq_some_iff.mp h
    have hend := hends.of_cons.1
    rw [m.getElem?_stop hc hrest] at hend
    rw [Rule.leaf?_legacy hm hend]
    rfl

/-- Where nothing in doubt is expected, the older revision finds the same
expected token. -/
theorem expected?_legacy (hc : c.In text) (hsettled : e.Settled text c.offset)
    (hfound : ∀ found, expected? false e c = some found →
      found.faults = [] ∧ Token.SigilsEnd text [found.token]) :
    expected? true e c = expected? false e c := by
  have hplace := e.place_in hc
  cases hrest : (e.place c).rest with
  | nil => rw [expected?_of_rest_eq_nil hrest, expected?_of_rest_eq_nil hrest]
  | cons b tail =>
    have hbyte := hplace.getElem?_offset hrest
    rw [expected?_eq hrest] at hfound ⊢
    rw [expected?_eq hrest]
    cases e with
    | none => rfl
    | modSep => rfl
    | sceneName =>
      rw [Expectation.offset_place hc (by simp)] at hbyte
      -- a scene's name that only the older revision takes would stand here unsettled
      have hstart : isLegacyStart b = false := by
        by_contra hstart
        obtain ⟨he, -⟩ := hsettled (Or.inl rfl) (by simpa [hbyte] using hstart)
        simp at he
      simp only [Expectation.meet?, Rule.sceneName?_legacy hstart]
    | sceneOrModule =>
      rw [Expectation.offset_place hc (by simp)] at hbyte
      cases hstart : isLegacyStart b with
      | false => simp only [Expectation.meet?, Rule.sceneName?_legacy hstart]
      | true =>
        -- the module's name keeps the scene's name away in both revisions
        obtain ⟨-, hmod⟩ := hsettled (Or.inr rfl) (by simpa [hbyte] using hstart)
        rw [← Expectation.offset_place hc (e := .sceneOrModule) (by simp),
          hplace.modNameAt_iff hrest] at hmod
        have hm := Rule.modName?_eq_some_iff.mpr ⟨hmod.1, hmod.2, rfl⟩
        simp [Expectation.meet?, hm]
    | sceneArgs =>
      simp only [Expectation.meet?] at hfound ⊢
      split
      · next hb =>
        obtain ⟨hfaults, hends⟩ := hfound _ (if_pos hb)
        rw [sceneArgs_legacy hplace hfaults hends]
      · rfl

/-- A general search that skips nothing comes to the same in the older
revision. -/
theorem scanGeneral_legacy (hc : c.In text) (hfaults : (scanGeneral false c).faults = [])
    (hends : Token.SigilsEnd text (scanGeneral false c).token.toList) :
    scanGeneral true c = scanGeneral false c := by
  fun_induction scanGeneral false c with
  | case1 c h => rw [scanGeneral_of_rest_eq_nil h]
  | case2 c b tail h hspace ih =>
    rw [scanGeneral_eq h, if_pos hspace]
    exact ih (hc.advance 1) hfaults hends
  | case3 c b tail h hspace found hgen =>
    rw [scanGeneral_eq h, if_neg hspace, general?_legacy hc hgen hends]
  | case4 c b tail h hspace hgen next step ih => simp at hfaults

/-- One step: both revisions find the same. -/
theorem scanToken_legacy (hc : c.In text) (hsettled : e.Settled text c.offset)
    (hfaults : (scanToken false e c).faults = [])
    (hends : Token.SigilsEnd text (scanToken false e c).token.toList) :
    scanToken true e c = scanToken false e c := by
  have hexpected : expected? true e c = expected? false e c := by
    refine expected?_legacy hc hsettled ?_
    intro found hfound
    rw [scanToken, hfound] at hfaults hends
    exact ⟨hfaults, hends⟩
  cases hfound : expected? false e c with
  | some found => rw [scanToken, scanToken, hexpected, hfound]
  | none =>
    rw [scanToken, hfound] at hfaults hends
    rw [scanToken, scanToken, hexpected, hfound]
    exact scanGeneral_legacy hc hfaults hends

end Steps

-- ---------------------------------------------------------------------------
-- Calls and runs
-- ---------------------------------------------------------------------------

namespace Lexer

variable {text : Bytes} {l l' : Lexer} {t : Token}

/-- The same lexer, under the older revision of the grammar. -/
def dated (l : Lexer) : Lexer := { l with options := { l.options with legacyIdentifiers := true } }

/-- A lexer that tells everything and has told nothing has met nothing. -/
theorem faults_eq_nil (hreport : l.options.reportUnrecognized = true)
    (h : l.next.2.diagnostics = []) :
    (scanToken l.options.legacyIdentifiers l.expectation l.cursor).faults = [] := by
  have htold : l.options.report
      (scanToken l.options.legacyIdentifiers l.expectation l.cursor).faults = [] :=
    (List.append_eq_nil_iff.mp h).2
  rwa [LexOptions.report_of_reportUnrecognized hreport, Diagnostic.coalesce_eq_nil_iff] at htold

/-- A lexer of the present revision that the older one will follow: it tells
everything and will have told nothing, and neither what it expects nor what
comes of a token in its stream is read otherwise by the older revision. -/
structure Followed (text : Bytes) (l : Lexer) : Prop where
  place    : l.cursor.In text
  present  : l.options.legacyIdentifiers = false
  telling  : l.options.reportUnrecognized = true
  clean    : l.run.2.diagnostics = []
  sigils   : Token.SigilsEnd text l.tokens
  expected : l.expectation.Settled text l.position
  scenes   : ∀ t ∈ l.tokens, (Expectation.after t.kind).Settled text t.span.stop

/-- A followed lexer hands out what the older revision does, and is left
alike. -/
theorem Followed.next_dated (h : l.Followed text) :
    l.dated.next = (l.next.1, l.next.2.dated) := by
  -- what one call tells, the run would have told
  have hclean : l.next.2.diagnostics = [] := by
    cases hn : l.next with
    | mk token l' =>
      have hrun := h.clean
      cases token with
      | none => rwa [run_of_next_none hn] at hrun
      | some t =>
        rw [run_of_next_some hn] at hrun
        exact List.prefix_nil.mp (hrun ▸ l'.diagnostics_prefix_run)
  have hends : Token.SigilsEnd text l.next.1.toList := by
    cases hn : l.next with
    | mk token l' =>
      intro u hu
      cases token with
      | none => simp at hu
      | some t =>
        refine h.sigils u ?_
        rw [tokens_of_next_some hn, Token.forest_cons]
        simpa using Or.imp_right Or.inl (by simpa using hu)
  have hfaults := faults_eq_nil h.telling hclean
  rw [h.present] at hfaults
  have hscan : scanToken true l.expectation l.cursor = scanToken false l.expectation l.cursor := by
    refine scanToken_legacy h.place h.expected hfaults ?_
    rw [← h.present]
    exact hends
  simp only [next, dated, hscan, h.present]
  rfl

/-- One call: the lexer it leaves is followed as well. -/
theorem Followed.next (h : l.Followed text) (hn : l.next = (some t, l')) : l'.Followed text := by
  obtain ⟨hplace, hpresent, htelling, hclean, hsigils, -, hscenes⟩ := h
  have hposition := next_position hplace
  rw [hn] at hposition
  have hexp : l'.expectation = .after t.kind := by
    rw [← (Prod.mk.inj hn).2, (Prod.mk.inj hn).1]
    rfl
  rw [tokens_of_next_some hn] at hsigils hscenes
  rw [run_of_next_some hn] at hclean
  refine ⟨next_in hplace hn, ?_, ?_, hclean, hsigils.of_cons.2.2, ?_, ?_⟩
  · rw [next_options hn, hpresent]
  · rw [next_options hn, htelling]
  · rw [hexp, hposition.1]
    exact hscenes t (by simp)
  · intro u hu
    exact hscenes u (by simp [hu])

/-- A run: the older revision hands out the same and ends in the same way. -/
theorem Followed.run_dated (h : l.Followed text) : l.dated.run = (l.run.1, l.run.2.dated) := by
  induction l using run.induct with
  | case1 l l' hn =>
    have hnext := h.next_dated
    rw [hn] at hnext
    rw [run_of_next_none hn, run_of_next_none hnext]
    rfl
  | case2 l t l' hn ts l'' hrun ih =>
    have hnext := h.next_dated
    rw [hn] at hnext
    rw [run_of_next_some hn, run_of_next_some hnext, ih (h.next hn)]

/-- A module's name in a stream is one by the text. -/
theorem modNameAt_of_mem (hl : l.cursor.In text) (ht : t ∈ l.tokens) (hk : t.kind = .modName) :
    ModNameAt text t.span.start := by
  refine tokens_forall (P := fun t => t.kind = .modName → ModNameAt text t.span.start) hl ?_ t ht hk
  intro d found hd hfound hk
  rw [hfound.start_eq]
  cases hfound with
  | leaf rest fits inLine region eof modName =>
    obtain ⟨hb, hqual, -⟩ := Rule.modName?_eq_some_iff.mp (modName hk)
    exact (hd.modNameAt_iff rest).mpr ⟨hb, hqual⟩
  | comment rest => exact Kind.noConfusion hk
  | string rest => exact Kind.noConfusion hk
  | sceneArgs rest => exact Kind.noConfusion hk

end Lexer

/--
**The older revision extends the present one.** Suppose that a script is read
without a fault, that no label, macro or atom at any depth is directly followed
by a word byte, and that the first byte behind a scene's mark, a divert or a
module's colon, blanks left out, is no upper-case letter, digit or underscore,
unless it stands behind a divert and starts a module's name of the stream. Then
the older revision gives the same stream, and no diagnostics either.
-/
theorem lex_legacy (source : Bytes) (startOffset : Nat) {stream : List Token}
    (hpresent : lex source ⟨startOffset, false, true⟩ = (stream, []))
    (hsigils : ∀ t ∈ Token.forest stream,
      t.kind = .label ∨ t.kind = .macroName ∨ t.kind = .atom →
        (source[t.span.stop]?).any isWord = false)
    (hscenes : ∀ t ∈ stream, t.kind = .sceneDef ∨ t.kind = .divert ∨ t.kind = .modSep →
      (source[runEnd isBlank source t.span.stop]?).any
          (fun b => isUpper b || isDigit b || b == byte '_') = true →
        t.kind = .divert ∧
          ∃ u ∈ stream, u.kind = .modName ∧ u.span.start = runEnd isBlank source t.span.stop) :
    lex source ⟨startOffset, true, true⟩ = (stream, []) := by
  have hin := Lexer.start_in source ⟨startOffset, false, true⟩
  have hstream : stream = (Lexer.start source ⟨startOffset, false, true⟩).tokens ++
      [Token.eof source.length] := by
    rw [← lex_eq_tokens, hpresent]
  have hfollowed : (Lexer.start source ⟨startOffset, false, true⟩).Followed source := by
    refine ⟨hin, rfl, rfl, congrArg Prod.snd hpresent, ?_, ?_, ?_⟩
    · intro t ht hk
      refine hsigils t (by simp [hstream, Token.mem_forest_append_eof, ht]) ?_
      exact Kind.isSigil_iff.mp hk
    · rintro (he | he) <;> cases he
    · intro t ht hexp hbyte
      obtain ⟨hname, hdivert, -⟩ := Expectation.after_cases t.kind
      rw [hname, hdivert] at hexp
      obtain ⟨hk, u, hu, hku, hstart⟩ := hscenes t (by simp [hstream, ht]) (by tauto) hbyte
      -- the module's name is a token of the run, not the end of the input
      have hmem : u ∈ (Lexer.start source ⟨startOffset, false, true⟩).tokens := by
        rcases List.mem_append.mp (hstream ▸ hu) with hu | hu
        · exact hu
        · rw [List.mem_singleton.mp hu] at hku
          exact Kind.noConfusion hku
      exact ⟨hdivert.mpr hk, hstart ▸ Lexer.modNameAt_of_mem hin hmem hku⟩
  have hrun := hfollowed.run_dated
  have hboth : (lex source ⟨startOffset, true, true⟩) = lex source ⟨startOffset, false, true⟩ :=
    congrArg (fun r => (r.1, r.2.diagnostics)) hrun
  rw [hboth, hpresent]

/-- A module's name may start as only the older revision's scenes do. -/
theorem lex_legacy_modName :
    let source := ascii "== a (#b_1, _)\n-> M:c 'd"
    (lex source ⟨0, false, true⟩).2 = [] ∧
      lex source ⟨0, true, true⟩ = ((lex source ⟨0, false, true⟩).1, []) := by
  intro source
  have hclean : (lex source ⟨0, false, true⟩).2 = [] := by decide +kernel
  exact ⟨hclean, lex_legacy source 0 (Prod.ext rfl hclean) (by decide +kernel) (by decide +kernel)⟩

end StoryLex
