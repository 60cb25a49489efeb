import StoryLex.Proofs.Lines
import StoryLex.Proofs.Mirroring
import StoryLex.Proofs.Outcomes

/-!
# StoryLex — how lines end does not matter

A script and the same script with its line ends respelled (`crlf`) are read
alike: the same tokens at the corresponding offsets, and a complaint about the
one exactly if there is one about the other (`lex_crlf`).

This is a simulation between two lexers. `scanToken_mirrored` says that they
stay in step over one token, `Lexer.Mirrors.next` over one call, and
`Lexer.Mirrors.run` to the end.
-/

namespace StoryLex

open Diagnostic (isCutOff)

-- ---------------------------------------------------------------------------
-- One token
-- ---------------------------------------------------------------------------

section Steps

variable {text : Bytes} {legacy : Bool} {e : Expectation} {c c' : Cursor} {b : UInt8}
  {tail tail' : Bytes}

open Cursor (Mirrors Resumes)

/-- A rule that matches alike at two corresponding places gives corresponding
tokens. -/
theorem Match.map_found_mirrored {o : Option Match} (h : Mirrors text c c')
    (hc : c.rest = b :: tail)
    (ho : ∀ m, o = some m → m.more ≤ tail.length ∧ newline ∉ b :: tail.take m.more) :
    Option.Rel (Found.Mirrored text) (o.map (·.found c)) (o.map (·.found c')) := by
  cases o with
  | none => exact .none
  | some m => exact .some (Match.found_mirrored h hc (ho m rfl).1 (ho m rfl).2)

/-- The general rules find the same at corresponding places. -/
theorem general?_mirrored (legacy : Bool) (h : Mirrors text c c') (hc : c.rest = b :: tail)
    (hc' : c'.rest = b :: tail') (htail : Respelled tail tail') :
    Option.Rel (Found.Mirrored text) (general? legacy c) (general? legacy c') := by
  rw [general?_eq hc, general?_eq hc', h.before, Rule.leaf?_respelled htail]
  simp only [htail.head?_eq_iff (by decide : Inner (· == byte '-')),
    htail.head?_eq_iff (by decide : Inner (· == byte ' '))]
  split_ifs with hcomment hstring
  · obtain ⟨rfl, rest, rfl⟩ := front_of_mark hcomment
    exact .some (comment_mirrored h hc)
  · obtain ⟨rfl, rest, rfl⟩ := front_of_mark hstring
    exact .some (string_mirrored h hc)
  · exact Match.map_found_mirrored h hc fun m hm => ⟨Rule.leaf?_fits hm, Rule.leaf?_inLine hm⟩

/-- An expectation is met by the same at corresponding places. -/
theorem Expectation.meet?_mirrored (e : Expectation) (h : Mirrors text c c')
    (hc : c.rest = b :: tail) (htail : Respelled tail tail') :
    Option.Rel (Found.Mirrored text) (e.meet? legacy c b tail) (e.meet? legacy c' b tail') := by
  have hscene : ∀ m, Rule.sceneName? legacy b tail = some m →
      m.more ≤ tail.length ∧ newline ∉ b :: tail.take m.more := by
    intro m hm
    obtain ⟨hb, rfl⟩ := Rule.sceneName?_eq_some_iff.mp hm
    exact ⟨runLength_le _ _, Rule.word_inLine (Rule.isWord_of_sceneStart hb) tail⟩
  have hmod : ∀ m, Rule.modName? b tail = some m →
      m.more ≤ tail.length ∧ newline ∉ b :: tail.take m.more := by
    intro m hm
    obtain ⟨hb, -, rfl⟩ := Rule.modName?_eq_some_iff.mp hm
    exact ⟨runLength_le _ _, Rule.word_inLine (Rule.isWord_of_isLetter hb) tail⟩
  cases e with
  | none => exact .none
  | sceneName =>
    simp only [meet?, Rule.sceneName?_respelled htail]
    exact Match.map_found_mirrored h hc hscene
  | sceneOrModule =>
    simp only [meet?, Rule.sceneName?_respelled htail, Rule.modName?_respelled htail]
    refine Match.map_found_mirrored h hc fun m hm => ?_
    rw [Option.orElse_eq_orElse, Option.orElse_eq_or, Option.or_eq_some_iff] at hm
    exact hm.elim (hmod m) fun hm => hscene m hm.2
  | modSep =>
    simp only [meet?]
    split_ifs with hb
    · obtain rfl := beq_iff_eq.mp hb
      exact .some (Match.found_mirrored h hc (Nat.zero_le _) (by rw [List.take_zero]; decide))
    · exact .none
  | sceneArgs =>
    simp only [meet?]
    split_ifs with hb
    · obtain rfl := beq_iff_eq.mp hb
      exact .some (sceneArgs_mirrored legacy h hc)
    · exact .none

theorem Expectation.meet?_carriageReturn (e : Expectation) (d : Cursor) (tail : Bytes) :
    e.meet? legacy d carriageReturn tail = Option.none := by
  cases e <;> cases legacy <;> rfl

/-- An expected token is found in both scripts or in neither. -/
theorem expected?_mirrored (legacy : Bool) (e : Expectation) (h : Mirrors text c c') :
    Option.Rel (Found.Mirrored text) (expected? legacy e c) (expected? legacy e c') := by
  have hplace : Mirrors text (e.place c) (e.place c') := by
    unfold Expectation.place
    split
    · exact h
    · exact h.skip (by decide)
  cases hc : (e.place c).rest with
  | nil =>
    rw [expected?_of_rest_eq_nil hc]
    -- the one script is at its end, and the other may still have a carriage return ahead
    rcases hplace.of_nil hc with hc' | hc'
    · rw [expected?_of_rest_eq_nil hc']
      exact .none
    · rw [expected?_eq hc', e.meet?_carriageReturn]
      exact .none
  | cons b tail =>
    rw [expected?_eq hc]
    obtain ⟨tail', htail, ⟨rfl, hc'⟩ | ⟨-, hc'⟩⟩ := hplace.of_cons hc
    · -- a newline in the one stands against a carriage return in the other: neither is
      -- expected
      rw [expected?_eq hc', e.meet?_newline, e.meet?_carriageReturn]
      exact .none
    · rw [expected?_eq hc']
      exact e.meet?_mirrored hplace hc htail

/-- Two searches for the next token come to corresponding ends. -/
structure Step.Mirrored (text : Bytes) (step step' : Step) : Prop where
  token  : Token.Mirrored (crlfOffset text) step.token.toList step'.token.toList
  faults : step.faults = [] ↔ step'.faults = []
  stop   : Resumes text (step.token.elim .none (Expectation.after ·.kind)) step.stop step'.stop

theorem Found.Mirrored.step {found found' : Found} (h : Found.Mirrored text found found') :
    Step.Mirrored text found.step found'.step :=
  ⟨h.token, h.faults, h.stop⟩

/-- The general rules pass a carriage return over. -/
theorem scanGeneral_carriageReturn (hc : c.rest = carriageReturn :: tail) :
    scanGeneral legacy c = scanGeneral legacy (c.advance 1) := by
  rw [scanGeneral_eq hc, if_pos (by decide)]

/-- The general search comes to corresponding ends in both scripts. -/
theorem scanGeneral_mirrored (legacy : Bool) (c c' : Cursor) (h : Mirrors text c c') :
    Step.Mirrored text (scanGeneral legacy c) (scanGeneral legacy c') := by
  fun_induction scanGeneral legacy c generalizing c' with
  | case1 c hc =>
    rcases h.of_nil hc with hrest | hrest
    · rw [scanGeneral_of_rest_eq_nil hrest]
      exact ⟨.nil, Iff.rfl, .level h⟩
    · rw [scanGeneral_carriageReturn hrest,
        scanGeneral_of_rest_eq_nil (Cursor.rest_advance_one hrest)]
      exact ⟨.nil, Iff.rfl, .ahead h (by rw [hrest]; rfl)⟩
  | case2 c b tail hc hspace ih =>
    obtain ⟨tail', htail, ⟨rfl, hrest⟩ | ⟨hb, hrest⟩⟩ := h.of_cons hc
    · -- the other lexer takes one more round, for the carriage return
      rw [scanGeneral_carriageReturn hrest, scanGeneral_eq (Cursor.rest_advance_one hrest),
        if_pos hspace]
      exact ih _ (h.lineEnd hc hrest htail)
    · rw [scanGeneral_eq hrest, if_pos hspace]
      exact ih _ (h.piece hc (Nat.zero_le _) (by simpa using hb.symm))
  | case3 c b tail hc hspace found hgen =>
    obtain ⟨tail', htail, ⟨rfl, -⟩ | ⟨-, hrest⟩⟩ := h.of_cons hc
    · exact absurd rfl hspace
    have hrel := general?_mirrored legacy h hc hrest htail
    rw [hgen] at hrel
    rw [scanGeneral_eq hrest, if_neg hspace]
    generalize general? legacy c' = o at hrel ⊢
    cases hrel with
    | some hfound => exact hfound.step
  | case4 c b tail hc hspace hgen next step ih =>
    obtain ⟨tail', htail, ⟨rfl, -⟩ | ⟨hb, hrest⟩⟩ := h.of_cons hc
    · exact absurd rfl hspace
    have hrel := general?_mirrored legacy h hc hrest htail
    rw [hgen] at hrel
    -- what is skipped has no newline in it, so it is as long in both scripts
    have hline : newline ∉ b :: tail.take (Rule.junk b tail) := by
      rw [List.mem_cons, not_or]
      refine ⟨hb.symm, fun hmem => ?_⟩
      exact ne_newline_of_word_or_continuation newline (Rule.of_mem_junk hmem) rfl
    obtain ⟨htoken, -, hstop⟩ := ih _ (h.piece hc (Rule.junk_le b tail) hline)
    rw [scanGeneral_eq hrest, if_neg hspace, Rule.junk_respelled htail]
    generalize general? legacy c' = o at hrel ⊢
    cases hrel with
    | none => exact ⟨htoken, by simp, hstop⟩

/-- Two lexers that read on alike look for the next token with the same
success. -/
theorem scanToken_mirrored (legacy : Bool) (h : Resumes text e c c') :
    Step.Mirrored text (scanToken legacy e c) (scanToken legacy e c') := by
  cases h with
  | level h =>
    have hrel := expected?_mirrored legacy e h
    unfold scanToken
    generalize expected? legacy e c = o at hrel ⊢
    generalize expected? legacy e c' = o' at hrel ⊢
    cases hrel with
    | some hfound => exact hfound.step
    | none => exact scanGeneral_mirrored legacy c c' h
  | @ahead c d h passed =>
    -- one lexer is ahead of a carriage return that the other still passes over
    obtain ⟨tail, hd⟩ := List.head?_eq_some_iff.mp passed
    rw [scanToken_none, scanToken_none, ← scanGeneral_carriageReturn hd]
    exact scanGeneral_mirrored legacy c d h

end Steps

-- ---------------------------------------------------------------------------
-- Reports
-- ---------------------------------------------------------------------------

/-- Something is reported about the one search exactly if something is about
the other, also if unrecognised input is passed over in silence. -/
theorem LexOptions.report_mirrored (options : LexOptions) {text : Bytes} {e : Expectation}
    {c c' : Cursor} (legacy : Bool) (h : Cursor.Resumes text e c c') :
    options.report (scanToken legacy e c).faults = [] ↔
      options.report (scanToken legacy e c').faults = [] := by
  obtain ⟨htoken, hfaults, -⟩ := scanToken_mirrored legacy h
  rw [report, report, Diagnostic.coalesce_eq_nil_iff, Diagnostic.coalesce_eq_nil_iff]
  cases options.reportUnrecognized with
  | true => simpa using hfaults
  | false =>
    -- what is told of regions cut off is told of tokens flagged so, and those correspond
    have hcut := scanToken_cutOffs legacy e c
    have hcut' := scanToken_cutOffs legacy e c'
    show (scanToken legacy e c).faults.filter isCutOff = [] ↔
      (scanToken legacy e c').faults.filter isCutOff = []
    rw [hcut, hcut', ← List.length_eq_zero_iff, ← List.length_eq_zero_iff, htoken.length_cutOffs]

-- ---------------------------------------------------------------------------
-- Calls and runs
-- ---------------------------------------------------------------------------

namespace Lexer

variable {text : Bytes} {l l' : Lexer}

/-- Two lexers read on alike. -/
structure Mirrors (text : Bytes) (l l' : Lexer) : Prop where
  options     : l'.options = l.options
  expectation : l'.expectation = l.expectation
  cursor      : Cursor.Resumes text l.expectation l.cursor l'.cursor
  diagnostics : l.diagnostics = [] ↔ l'.diagnostics = []

/-- At the start of the two scripts the lexers are in step. -/
theorem mirrors_start (source : Bytes) {options : LexOptions} (h : options.startOffset = 0) :
    Mirrors source (start source options) (start (crlf source) options) := by
  refine ⟨rfl, rfl, .level ?_, Iff.rfl⟩
  simp only [start, h]
  exact Cursor.mirrors_start source

/-- One call of `next` keeps two lexers in step. -/
theorem Mirrors.next (h : Mirrors text l l') :
    Token.Mirrored (crlfOffset text) l.next.1.toList l'.next.1.toList ∧
      Mirrors text l.next.2 l'.next.2 := by
  obtain ⟨hoptions, hexp, hcursor, hdiagnostics⟩ := h
  obtain ⟨htoken, -, hstop⟩ := scanToken_mirrored l.options.legacyIdentifiers hcursor
  have hreport := l.options.report_mirrored l.options.legacyIdentifiers hcursor
  simp only [Lexer.next, hoptions, hexp]
  refine ⟨htoken, rfl, htoken.elim_after, hstop, ?_⟩
  rw [List.append_eq_nil_iff, List.append_eq_nil_iff, hdiagnostics, hreport]

/-- Lexers that are in step stay so to the end. -/
theorem Mirrors.run (h : Mirrors text l l') :
    Token.Mirrored (crlfOffset text) l.tokens l'.tokens ∧
      (l.run.2.diagnostics = [] ↔ l'.run.2.diagnostics = []) := by
  induction l using run.induct generalizing l' with
  | case1 l m hn =>
    obtain ⟨htoken, hnext⟩ := h.next
    cases hn' : l'.next with
    | mk token m' =>
      rw [hn, hn'] at htoken hnext
      cases token with
      | some t => cases htoken
      | none =>
        rw [run_of_next_none hn, run_of_next_none hn', tokens_of_next_none hn,
          tokens_of_next_none hn']
        exact ⟨.nil, hnext.diagnostics⟩
  | case2 l t m hn ts m' hrun ih =>
    obtain ⟨htoken, hnext⟩ := h.next
    cases hn' : l'.next with
    | mk token m' =>
      rw [hn, hn'] at htoken hnext
      cases token with
      | none => cases htoken
      | some t' =>
        obtain ⟨htokens, hdiagnostics⟩ := ih hnext
        rw [run_of_next_some hn, run_of_next_some hn', tokens_of_next_some hn,
          tokens_of_next_some hn']
        exact ⟨htoken.append htokens, hdiagnostics⟩

end Lexer

/-- A script and the same script with its line ends respelled give corresponding
tokens, and something is told about both or about neither. -/
theorem lex_mirrored (source : Bytes) {options : LexOptions} (h : options.startOffset = 0) :
    Token.Mirrored (crlfOffset source) (lex source options).1 (lex (crlf source) options).1 ∧
      ((lex (crlf source) options).2 = [] ↔ (lex source options).2 = []) := by
  obtain ⟨htokens, hdiagnostics⟩ := (Lexer.mirrors_start source h).run
  refine ⟨?_, hdiagnostics.symm⟩
  rw [lex_eq_tokens, lex_eq_tokens, length_crlf]
  exact htokens.append (.cons rfl rfl rfl (fun _ => rfl) .nil .nil)

/-- The regions told to be cut off are those flagged so. -/
theorem lex_filter_isCutOff (source : Bytes) (options : LexOptions) :
    (lex source options).2.filter isCutOff = Token.cutOffs (lex source options).1 := by
  have heof : Token.cutOffs [Token.eof source.length] = [] := rfl
  rw [lex_eq_tokens, Token.cutOffs_append, heof, List.append_nil]
  exact (Lexer.start source options).run_cutOffs

/--
**How lines end does not matter.** Put a carriage return in front of every
newline of a script, and it is read to the same tokens: as many, of the same
kinds and with the same flags, each where the bytes before it have moved it,
and so for the tokens inside them; all but the regions have the same bytes. As
many regions are told to be cut off. There are diagnostics for the one script
exactly if there are for the other, so a strict run ends with the same status.
-/
theorem lex_crlf (source : Bytes) (legacy report : Bool) :
    let plain := lex source ⟨0, legacy, report⟩
    let marked := lex (crlf source) ⟨0, legacy, report⟩
    Token.Mirrored (crlfOffset source) plain.1 marked.1 ∧
      marked.2.countP (·.fault = .unterminated) = plain.2.countP (·.fault = .unterminated) ∧
      (marked.2 = [] ↔ plain.2 = []) ∧
      ∀ (options : RunOptions) (settings : Settings),
        ∃ o o', run { options with offset := 0 } settings source = .ok o ∧
          run { options with offset := 0 } settings (crlf source) = .ok o' ∧
          o'.status = o.status := by
  intro plain marked
  obtain ⟨htokens, hdiagnostics⟩ : Token.Mirrored (crlfOffset source) plain.1 marked.1 ∧
      (marked.2 = [] ↔ plain.2 = []) :=
    lex_mirrored source rfl
  refine ⟨htokens, ?_, hdiagnostics, ?_⟩
  · -- as many tokens are flagged, so as many diagnostics tell of it
    have hcount := htokens.length_cutOffs
    rw [← lex_filter_isCutOff, ← lex_filter_isCutOff] at hcount
    rw [List.countP_eq_length_filter, List.countP_eq_length_filter]
    exact hcount
  · intro options settings
    obtain ⟨o, ho, hstatus⟩ := run_status { options with offset := 0 } settings source
    obtain ⟨o', ho', hstatus'⟩ := run_status { options with offset := 0 } settings (crlf source)
    refine ⟨o, o', ho, ho', ?_⟩
    set options' := RunOptions.lexOptions { options with offset := 0 } settings
    -- the status only depends on whether anything was told
    have hiff := (lex_mirrored source (show options'.startOffset = 0 from rfl)).2
    have hempty : (lex (crlf source) options').2.isEmpty = (lex source options').2.isEmpty := by
      rw [Bool.eq_iff_iff, List.isEmpty_iff, List.isEmpty_iff, hiff]
    rw [hstatus, hstatus', hempty]

-- how many diagnostics there are is another matter: a template that is cut off
-- skips the carriage return
example : (lex (ascii "> \x7b\x7b\n") {}).2.length = 1 ∧
    (lex (crlf (ascii "> \x7b\x7b\n")) {}).2.length = 2 := by
  decide +kernel

end StoryLex
