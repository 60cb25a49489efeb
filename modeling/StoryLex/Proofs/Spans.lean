import StoryLex.Proofs.Nesting

/-!
# StoryLex — spans and lexemes

Every token of a stream, at every depth, covers at least one byte of the text
and carries exactly the bytes it covers; siblings follow one another, nested
tokens stay inside their region, and the end of the input comes once and last
(`lex_spans`). So the gaps between the top-level tokens, put back between
their lexemes, give the text again (`Token.rebuild_eq_drop`).

Between calls, the lexer stands where the token it handed out last ends.
-/

namespace StoryLex

namespace Token

variable {text : Bytes} {lo hi : Nat} {ts : List Token}

/-- A token over bytes of the text, with its nested tokens in order inside it. -/
structure WellPlaced (text : Bytes) (t : Token) : Prop where
  nonempty  : t.span.start < t.span.stop
  inText    : t.span.stop ≤ text.length
  lexeme_eq : t.lexeme = t.span.bytes text
  siblings  : t.nested.IsChain fun a b => a.span.stop ≤ b.span.start
  within    : ∀ u ∈ t.nested, t.span.start ≤ u.span.start ∧ u.span.stop ≤ t.span.stop

/-- What is laid out is well placed at every depth. -/
theorem Laid.wellPlaced (h : Laid text lo hi ts) : ∀ t ∈ forest ts, t.WellPlaced text := by
  induction h with
  | nil => simp
  | cons start nonempty inText lexeme nested rest ihNested ihRest =>
    intro u hu
    rw [forest_cons, List.mem_cons, List.mem_append] at hu
    -- the token itself, one inside it, or one behind it
    rcases hu with rfl | hu | hu
    · exact ⟨nonempty, inText, lexeme, nested.isChain, fun v hv => nested.bounds hv⟩
    · exact ihNested u hu
    · exact ihRest u hu

-- ---------------------------------------------------------------------------
-- Putting a text together again
-- ---------------------------------------------------------------------------

/-- The lexemes of a stream, with the text between the tokens put back. -/
def rebuild (text : Bytes) (cur : Nat) : List Token → Bytes
  | [] => text.drop cur
  | t :: ts => Span.bytes ⟨cur, t.span.start⟩ text ++ t.lexeme ++ rebuild text t.span.stop ts

/-- Lexemes and the gaps between them give the text back, from where the tokens
start. -/
theorem rebuild_eq_drop (h : Laid text lo hi ts) : rebuild text lo ts = text.drop lo := by
  induction h with
  | nil => rfl
  | @cons lo hi t ts start nonempty inText lexeme _ _ _ ih =>
    -- the gap, the lexeme and the rest are neighbouring stretches of the text
    rw [rebuild, ih, lexeme, List.append_assoc,
      Span.bytes_append_drop text (Nat.le_of_lt nonempty)]
    exact Span.bytes_append_drop (s := ⟨lo, t.span.start⟩) text start

/-- The end of the input adds nothing. -/
theorem rebuild_append_eof (cur : Nat) (ts : List Token) :
    rebuild text cur (ts ++ [eof text.length]) = rebuild text cur ts := by
  induction ts generalizing cur with
  | nil =>
    show Span.bytes ⟨cur, text.length⟩ text ++ [] ++ text.drop text.length = text.drop cur
    rw [List.append_nil, List.drop_length, List.append_nil]
    exact List.take_of_length_le (List.length_drop ▸ le_rfl)
  | cons t ts ih => rw [List.cons_append, rebuild, rebuild, ih]

end Token

-- ---------------------------------------------------------------------------
-- Streams
-- ---------------------------------------------------------------------------

variable {source : Bytes}

/-- Each token of a run, the end of the input included, starts where the one
before has ended or later. -/
theorem Lexer.run_isChain {l : Lexer} (hl : l.cursor.In source) :
    l.run.1.IsChain fun a b => a.span.stop ≤ b.span.start := by
  have hlaid := Lexer.tokens_laid hl
  rw [Lexer.run_eq_tokens hl]
  refine hlaid.isChain.append (.singleton _) ?_
  intro a ha b hb
  cases hb
  exact (hlaid.bounds (List.mem_of_getLast? ha)).2

/-- One call: where it leaves the lexer. -/
theorem Lexer.next_position {l : Lexer} (hl : l.cursor.In source) :
    match l.next with
    | (some t, l') => l'.position = t.span.stop ∧ l.position < l'.position
    | (none, l') => l'.position = source.length ∧ l'.expectation = .none := by
  split
  · next t l' hn =>
    obtain ⟨d, found, hd, hle, hfound, rfl, hstop⟩ := Lexer.next_found hl hn
    -- the token was found where the lexer looked, and it covers a byte
    have hlaid := hfound.laid hd
    cases hlaid.token with
    | cons start nonempty _ _ _ _ =>
      have hpos : l'.position = found.token.span.stop := by
        rw [hlaid.stop_eq, Lexer.position, hstop]
      exact ⟨hpos, by omega⟩
  · next l' hn =>
    obtain ⟨hin, hrest, hexp⟩ := Lexer.next_exhausted hl hn
    exact ⟨hin.offset_eq_length hrest, hexp⟩

/--
**Spans and lexemes of a stream.** The stream is a list of tokens and, once
and last, the end of the input. Every token, at every depth, covers bytes of
the source and carries them as its lexeme, with its nested tokens in order
inside it; the top-level tokens come in order from the place at which reading
begins; and the gaps put back between the lexemes give the source.

After any calls, one more call of `next` leaves the lexer at the end of the
token it hands out, further on than before, or at the end of the source with
nothing to expect.
-/
theorem lex_spans (source : Bytes) (options : LexOptions) :
    (∃ ts, (lex source options).1 = ts ++ [Token.eof source.length] ∧
      ∀ t ∈ Token.forest ts, t.kind ≠ .eof ∧ t.WellPlaced source) ∧
    ((lex source options).1.IsChain fun a b => a.span.stop ≤ b.span.start) ∧
    (∀ t ∈ (lex source options).1.head?, min options.startOffset source.length ≤ t.span.start) ∧
    Token.rebuild source 0 (lex source options).1 = source ∧
    ∀ calls, let l := (Lexer.start source options).after calls
      match l.next with
      | (some t, l') => l'.position = t.span.stop ∧ l.position < l'.position
      | (none, l') => l'.position = source.length ∧ l'.expectation = .none := by
  have hin := Lexer.start_in source options
  have hrun := lex_eq_tokens source options
  have hlaid := Lexer.tokens_laid hin
  refine ⟨⟨_, hrun, ?_⟩, Lexer.run_isChain hin, ?_, ?_, ?_⟩
  · intro t ht
    exact ⟨Token.Shaped.kind_ne_eof (Lexer.tokens_shaped hin) ht, hlaid.wellPlaced t ht⟩
  · -- the first token is one of those laid out, or the end of the input
    rw [← Lexer.position_start, hrun]
    intro t ht
    rcases List.mem_append.mp (List.mem_of_mem_head? ht) with ht | ht
    · exact (hlaid.bounds ht).1
    · rw [List.mem_singleton.mp ht]
      exact hin.offset_le
  · rw [hrun, Token.rebuild_append_eof, Token.rebuild_eq_drop (hlaid.mono (Nat.zero_le _) le_rfl)]
    exact List.drop_zero
  · intro calls
    exact Lexer.next_position (Lexer.after_in hin calls)

end StoryLex
