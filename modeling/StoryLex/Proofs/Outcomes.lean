import StoryLex.CommandLine.Run
import StoryLex.Proofs.Reporting
import StoryLex.Proofs.Strokes

/-!
# StoryLex — what the outcome of a run depends on

A run on a script has many options, and each of its outputs should listen to
few of them. What it writes on the standard output is made from the tokens and
the way they are shown; how it ends is settled by whether there are
diagnostics and whether the run is strict (`run_dependence`).

* `lex_tokens_of_hushed_eq` — whether unrecognised input is reported does not
  change a token, so the standard output cannot tell.
* `written_ok`, `run_of_written` — neither way of writing the tokens fails, so
  every run has an outcome, with a status and a standard output that are
  functions of what they are made from.
-/

namespace StoryLex

open Diagnostic (isCutOff)

-- ---------------------------------------------------------------------------
-- Reading with and without reports
-- ---------------------------------------------------------------------------

/-- Two ways of reading that differ in what they report, if at all, give the
same tokens. -/
theorem lex_tokens_of_hushed_eq {options options' : LexOptions}
    (h : options.hushed = options'.hushed) (source : Bytes) :
    (lex source options).1 = (lex source options').1 := by
  have hleft := congrArg Prod.fst (lex_hushed source options)
  have hright := congrArg Prod.fst (lex_hushed source options')
  rw [← hleft, ← hright, h]

-- ---------------------------------------------------------------------------
-- The two outputs
-- ---------------------------------------------------------------------------

/-- What is written of the tokens of a script: the highlighted text or the dump. -/
def written (highlight : Bool) (palette : Palette) (source : Bytes) (stream : List Token) :
    Except RenderError Bytes :=
  if highlight then palette.render source stream else pure (Token.dump stream)

/-- How a run ends, given what there is to tell. -/
def verdict (strict : Bool) (told : List Diagnostic) : Status :=
  if strict && !told.isEmpty then .diagnostics else .success

/-- A run that has less to tell ends as it did, or well where it did not. -/
theorem verdict_filter (strict : Bool) (p : Diagnostic → Bool) (told : List Diagnostic) :
    verdict strict (told.filter p) = verdict strict told ∨
      verdict strict told = .diagnostics ∧ verdict strict (told.filter p) = .success := by
  cases strict with
  | false => exact Or.inl rfl
  | true =>
    cases told with
    | nil => exact Or.inl rfl
    | cons d ds =>
      cases hkept : (d :: ds).filter p with
      | nil => exact Or.inr ⟨rfl, rfl⟩
      | cons e es => exact Or.inl rfl

/-- Neither way of writing the tokens of a script fails. -/
theorem written_ok (highlight : Bool) (palette : Palette) (source : Bytes) (options : LexOptions) :
    ∃ out, written highlight palette source (lex source options).1 = .ok out := by
  cases highlight with
  | false => exact ⟨_, rfl⟩
  | true =>
    obtain ⟨strokes, hrender, -⟩ :=
      palette.renderFrom_strokes (lex_ordered source options).sane (Nat.zero_le source.length)
    exact ⟨_, hrender⟩

/-- Once its tokens are written, a run is over. -/
theorem run_of_written {options : RunOptions} {settings : Settings} {source out : Bytes}
    (h : written options.highlight ⟨settings.highlightTable, settings.color⟩ source
      (lex source (options.lexOptions settings)).1 = .ok out) :
    ∃ err, run options settings source = .ok {
      status := verdict options.strict (lex source (options.lexOptions settings)).2
      out := out
      err := err } := by
  unfold written at h
  unfold run
  cases hhighlight : options.highlight with
  | false =>
    rw [hhighlight] at h
    cases h
    exact ⟨_, rfl⟩
  | true =>
    rw [hhighlight, if_pos rfl] at h
    simp only [h]
    exact ⟨_, rfl⟩

/-- A run on a script that was read does not fail, and its status is settled by
whether there are diagnostics. -/
theorem run_status (options : RunOptions) (settings : Settings) (source : Bytes) :
    ∃ outcome, run options settings source = .ok outcome ∧
      outcome.status =
        if options.strict && !(lex source (options.lexOptions settings)).2.isEmpty then
          .diagnostics
        else
          .success := by
  obtain ⟨out, hout⟩ := written_ok options.highlight ⟨settings.highlightTable, settings.color⟩
    source (options.lexOptions settings)
  obtain ⟨err, hrun⟩ := run_of_written hout
  exact ⟨_, hrun, rfl⟩

/--
**What a run's outcome depends on.** Run the program on one script under any
two sets of options and settings. Both runs come to an outcome.

* If they agree on where reading begins, on the revision of the grammar, and on
  how tokens are shown, they write the same on the standard output.
* If they agree on where reading begins, on the revision, on whether
  unrecognised input is reported and on whether they are strict, they end with
  the same status.
* If they differ only in that the second one no longer reports unrecognised
  input, they end with the same status, or the first one ends with 2 and the
  second one with 0.
-/
theorem run_dependence (source : Bytes) (options options' : RunOptions)
    (settings settings' : Settings) :
    ∃ outcome outcome',
      run options settings source = .ok outcome ∧ run options' settings' source = .ok outcome' ∧
      (options.offset = options'.offset →
        settings.legacyIdentifiers = settings'.legacyIdentifiers →
        options.highlight = options'.highlight → settings.color = settings'.color →
        settings.links = settings'.links → outcome.out = outcome'.out) ∧
      (options.offset = options'.offset →
        settings.legacyIdentifiers = settings'.legacyIdentifiers →
        settings.reportUnrecognized = settings'.reportUnrecognized →
        options.strict = options'.strict → outcome.status = outcome'.status) ∧
      (options' = options → settings.reportUnrecognized = true →
        settings' = { settings with reportUnrecognized := false } →
        outcome'.status = outcome.status ∨
          outcome.status.code = 2 ∧ outcome'.status.code = 0) := by
  obtain ⟨out, hout⟩ := written_ok options.highlight ⟨settings.highlightTable, settings.color⟩
    source (options.lexOptions settings)
  obtain ⟨out', hout'⟩ := written_ok options'.highlight
    ⟨settings'.highlightTable, settings'.color⟩ source (options'.lexOptions settings')
  obtain ⟨err, hrun⟩ := run_of_written hout
  obtain ⟨err', hrun'⟩ := run_of_written hout'
  refine ⟨_, _, hrun, hrun', ?_, ?_, ?_⟩
  · intro hoffset hlegacy hhighlight hcolor hlinks
    have hhushed : (options.lexOptions settings).hushed =
        (options'.lexOptions settings').hushed := by
      simp [RunOptions.lexOptions, Settings.lexOptions, LexOptions.hushed, hoffset, hlegacy]
    have htable : settings.highlightTable = settings'.highlightTable :=
      congrArg HighlightTable.standard.setAll hlinks
    rw [lex_tokens_of_hushed_eq hhushed source, hhighlight, htable, hcolor, hout'] at hout
    exact (Except.ok.inj hout).symm
  · intro hoffset hlegacy hreport hstrict
    have hoptions : options.lexOptions settings = options'.lexOptions settings' := by
      simp [RunOptions.lexOptions, Settings.lexOptions, hoffset, hlegacy, hreport]
    show verdict _ _ = verdict _ _
    rw [hoptions, hstrict]
  · rintro rfl - rfl
    -- what the second run has to tell is part of what the first one has
    have htold : (lex source (options'.lexOptions { settings with reportUnrecognized := false })).2
        = (lex source (options'.lexOptions settings)).2.filter isCutOff :=
      congrArg Prod.snd (lex_hushed source (options'.lexOptions settings))
    show verdict _ _ = verdict _ _ ∨ (verdict _ _).code = 2 ∧ (verdict _ _).code = 0
    rw [htold]
    rcases verdict_filter options'.strict isCutOff
      (lex source (options'.lexOptions settings)).2 with hsame | ⟨hfirst, hsecond⟩
    · exact Or.inl hsame
    · exact Or.inr ⟨by rw [hfirst]; rfl, by rw [hsecond]; rfl⟩

end StoryLex
