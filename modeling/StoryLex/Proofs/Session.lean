import StoryLex.Proofs.Layout

/-!
# StoryLex — the lexer, call by call

A lexer is used by calls of `next` and `run`, in any order. What a call of
`next` keeps is kept by every session (`Lexer.after_preserves`), and what holds
of the four forms of a token holds of every token that a run hands out
(`Lexer.tokens_forall`; `Lexer.tokens_forall_origin` where it matters how the
token was found).
-/

namespace StoryLex

namespace Lexer

variable {l l' : Lexer} {t : Token} {text : Bytes}

/-- The lexer after a list of calls. -/
def after (l : Lexer) (calls : List Call) : Lexer := calls.foldl (fun l k => (l.call k).2) l

-- ---------------------------------------------------------------------------
-- Runs, one call of `next` at a time
-- ---------------------------------------------------------------------------

theorem run_of_next_none (h : l.next = (none, l')) : l.run = ([Token.eof l'.position], l') := by
  rw [run]
  split
  · next l'' h' => rw [(Prod.mk.inj (h.symm.trans h')).2]
  · next t l'' h' => simp [h] at h'

/-- A run that finds a token hands it out and goes on behind it. -/
theorem run_of_next_some (h : l.next = (some t, l')) : l.run = (t :: l'.run.1, l'.run.2) := by
  rw [run]
  split
  · next l'' h' => simp [h] at h'
  · next t' l'' h' =>
    rw [h, Prod.mk.injEq, Option.some.injEq] at h'
    obtain ⟨rfl, rfl⟩ := h'
    rfl

/-- A run is settled by its first call. -/
theorem run_congr (h : l.next = l'.next) : l.run = l'.run := by
  cases hn : l'.next with
  | mk token l'' =>
    rw [hn] at h
    cases token with
    | none => rw [run_of_next_none h, run_of_next_none hn]
    | some t => rw [run_of_next_some h, run_of_next_some hn]

theorem next_options {token : Option Token} (h : l.next = (token, l')) :
    l'.options = l.options := by
  rw [← (Prod.mk.inj h).2]

/-- What `next` keeps, a run keeps. -/
theorem run_preserves {P : Lexer → Prop} (hnext : ∀ l, P l → P l.next.2) (h : P l) :
    P l.run.2 := by
  induction l using run.induct with
  | case1 l l' hn =>
    rw [run_of_next_none hn]
    have := hnext l h
    rwa [hn] at this
  | case2 l t l' hn ts l'' hrun ih =>
    rw [run_of_next_some hn]
    have := hnext l h
    rw [hn] at this
    exact ih this

/-- What `next` keeps, every session keeps. -/
theorem after_preserves {P : Lexer → Prop} (hnext : ∀ l, P l → P l.next.2) (h : P l)
    (calls : List Call) : P (l.after calls) := by
  induction calls generalizing l with
  | nil => exact h
  | cons k calls ih =>
    cases k with
    | next => exact ih (hnext l h)
    | run => exact ih (run_preserves hnext h)

/-- What was told is never taken back. -/
theorem diagnostics_prefix_run (l : Lexer) : l.diagnostics <+: l.run.2.diagnostics :=
  run_preserves (P := fun l' => l.diagnostics <+: l'.diagnostics)
    (fun _ h => h.trans (List.prefix_append _ _)) (List.prefix_refl _)

-- ---------------------------------------------------------------------------
-- Places
-- ---------------------------------------------------------------------------

theorem start_in (source : Bytes) (options : LexOptions) :
    (start source options).cursor.In source :=
  Cursor.ofOffset_in source options.startOffset

/-- The offset where reading starts is held to the length of the text. -/
theorem position_start (source : Bytes) (options : LexOptions) :
    (start source options).position = min options.startOffset source.length :=
  List.length_take

/-- A token that `next` hands out has one of the four forms, at a place further
on, and the lexer is left where that token ends. -/
theorem next_found (hl : l.cursor.In text) (h : l.next = (some t, l')) :
    ∃ d found, d.In text ∧ l.position ≤ d.offset ∧
      FoundAt l.options.legacyIdentifiers d found ∧ found.token = t ∧ l'.cursor = found.stop := by
  simp only [next, Prod.mk.injEq] at h
  obtain ⟨ht, rfl⟩ := h
  exact scanToken_found hl ht

/-- A call of `next` that hands out nothing leaves the lexer at the end of the
text, with nothing to expect. -/
theorem next_exhausted (hl : l.cursor.In text) (h : l.next = (none, l')) :
    l'.cursor.In text ∧ l'.cursor.rest = [] ∧ l'.expectation = .none := by
  simp only [next, Prod.mk.injEq] at h
  obtain ⟨ht, rfl⟩ := h
  obtain ⟨hin, hrest⟩ := scanToken_exhausted hl ht
  exact ⟨hin, hrest, by simp [ht]⟩

/-- A call of `next` leaves the lexer at a place of its text. -/
theorem next_in {token : Option Token} (hl : l.cursor.In text) (h : l.next = (token, l')) :
    l'.cursor.In text := by
  cases token with
  | none => exact (next_exhausted hl h).1
  | some t =>
    obtain ⟨d, found, hd, -, hfound, -, hstop⟩ := next_found hl h
    rw [hstop]
    exact (hfound.laid hd).stop_in

/-- Whatever calls were made, a lexer stands at a place of its text. -/
theorem after_in (hl : l.cursor.In text) (calls : List Call) : (l.after calls).cursor.In text :=
  after_preserves (P := fun l => l.cursor.In text) (fun _ hl => next_in hl rfl) hl calls

/-- A run leaves the lexer at the end of the text, with nothing to expect. -/
theorem run_exhausted (hl : l.cursor.In text) :
    l.run.2.cursor.In text ∧ l.run.2.cursor.rest = [] ∧ l.run.2.expectation = .none := by
  induction l using run.induct with
  | case1 l l' hn =>
    rw [run_of_next_none hn]
    exact next_exhausted hl hn
  | case2 l t l' hn ts l'' hrun ih =>
    rw [run_of_next_some hn]
    exact ih (next_in hl hn)

-- ---------------------------------------------------------------------------
-- The tokens of a run
-- ---------------------------------------------------------------------------

/-- The tokens that a run hands out before the end of the input. -/
def tokens (l : Lexer) : List Token := l.run.1.dropLast

theorem run_ne_nil (l : Lexer) : l.run.1 ≠ [] := by
  cases h : l.next with
  | mk token l' =>
    cases token with
    | none => simp [run_of_next_none h]
    | some t => simp [run_of_next_some h]

/-- No token is left when `next` finds none. -/
theorem tokens_of_next_none (h : l.next = (none, l')) : l.tokens = [] := by
  rw [tokens, run_of_next_none h]
  rfl

/-- The tokens of a run are the next one and those of the run behind it. -/
theorem tokens_of_next_some (h : l.next = (some t, l')) : l.tokens = t :: l'.tokens := by
  rw [tokens, run_of_next_some h]
  exact List.dropLast_cons_of_ne_nil l'.run_ne_nil

/-- A run ends with the end of the text. -/
theorem run_eq_tokens (hl : l.cursor.In text) :
    l.run.1 = l.tokens ++ [Token.eof text.length] := by
  induction l using run.induct with
  | case1 l l' hn =>
    obtain ⟨hin, hrest, -⟩ := next_exhausted hl hn
    rw [run_of_next_none hn, tokens_of_next_none hn, position, hin.offset_eq_length hrest]
    rfl
  | case2 l t l' hn ts l'' hrun ih =>
    rw [run_of_next_some hn, tokens_of_next_some hn, ih (next_in hl hn)]
    rfl

/-- The tokens of a run lie in order from where the lexer stands. -/
theorem tokens_laid (hl : l.cursor.In text) :
    Token.Laid text l.position text.length l.tokens := by
  induction l using run.induct with
  | case1 l l' hn =>
    rw [tokens_of_next_none hn]
    exact .nil hl.offset_le
  | case2 l t l' hn ts l'' hrun ih =>
    obtain ⟨d, found, hd, hle, hfound, rfl, hstop⟩ := next_found hl hn
    -- behind the first token, the run goes on from where that ends
    have hlaid := hfound.laid hd
    have hrest := ih (hstop ▸ hlaid.stop_in)
    rw [position, hstop] at hrest
    rw [tokens_of_next_some hn]
    exact (hlaid.token.mono hle le_rfl).append hrest

/-- What holds of every token that an expectation or the general rules can
find holds of every token of a run. -/
theorem tokens_forall_origin {P : Token → Prop} (hl : l.cursor.In text)
    (hexp : ∀ e d found, d.In text →
      expected? l.options.legacyIdentifiers e d = some found → P found.token)
    (hgen : ∀ d found, d.In text →
      general? l.options.legacyIdentifiers d = some found → P found.token) :
    ∀ t ∈ l.tokens, P t := by
  induction l using run.induct with
  | case1 l l' hn => simp [tokens_of_next_none hn]
  | case2 l t l' hn ts l'' hrun ih =>
    have hoptions := next_options hn
    have hin := next_in hl hn
    intro u hu
    rw [tokens_of_next_some hn] at hu
    rcases List.mem_cons.mp hu with rfl | hu
    · -- the first token, either way it was found
      obtain ⟨d, found, hd, -, ⟨hfound, -⟩ | hfound, rfl, -⟩ :=
        scanToken_origin hl (Prod.mk.inj hn).1
      · exact hexp _ _ found hl hfound
      · exact hgen d found hd hfound
    · exact ih hin (hoptions ▸ hexp) (hoptions ▸ hgen) u hu

/-- What holds of the four forms of a token holds of every token of a run. -/
theorem tokens_forall {P : Token → Prop} (hl : l.cursor.In text)
    (hP : ∀ d found, d.In text → FoundAt l.options.legacyIdentifiers d found → P found.token) :
    ∀ t ∈ l.tokens, P t :=
  tokens_forall_origin hl
    (fun e d found hd hexp => hP (e.place d) found (e.place_in hd) (expected?_foundAt hexp))
    (fun d found hd hgen => hP d found hd (general?_foundAt hgen))

end Lexer

/-- The stream of a script is its tokens and the end of the input. -/
theorem lex_eq_tokens (source : Bytes) (options : LexOptions) :
    (lex source options).1 =
      (Lexer.start source options).tokens ++ [Token.eof source.length] :=
  Lexer.run_eq_tokens (Lexer.start_in source options)

end StoryLex
