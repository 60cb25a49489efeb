import StoryLex.Proofs.Nesting
import StoryLex.Proofs.Reporting

/-!
# StoryLex — regions that were cut off

A template and a list of arguments want a closing mark. Where it does not come,
the token is flagged and a diagnostic tells it. This module says that flags and
diagnostics are the same list, in the same order (`lex_cutOff`), and that a
region is only cut off where its text ends: a template with the line of its
string, an argument list with the whole script.

* `Token.cutOffs` — the diagnostics that the flags of a forest call for.
* `scanToken_cutOffs`, `Lexer.run_cutOffs` — one step, and a run.
* `Token.OpenLast` — only the last token of a level is open, and it reaches to
  the end of the level (`scanString_openLast`, `Lexer.tokens_openLast`).
-/

namespace StoryLex

open Diagnostic (isCutOff)

-- ---------------------------------------------------------------------------
-- What the flags call for
-- ---------------------------------------------------------------------------

namespace Token

/-- One diagnostic for each token of a forest that was cut off, in order. -/
def cutOffs (ts : List Token) : List Diagnostic :=
  ((forest ts).filter (·.unterminated)).map fun t => .unterminated t.kind t.span

theorem cutOffs_append (ts us : List Token) : cutOffs (ts ++ us) = cutOffs ts ++ cutOffs us := by
  simp [cutOffs, forest_append]

/-- First the token calls for its diagnostic, then what is inside it, then what
is right of it. -/
theorem cutOffs_cons (t : Token) (ts : List Token) :
    cutOffs (t :: ts) =
      (if t.unterminated then [.unterminated t.kind t.span] else []) ++
        (cutOffs t.nested ++ cutOffs ts) := by
  cases ht : t.unterminated <;> simp [cutOffs, ht]

/-- Tokens with nothing inside them were not cut off. -/
theorem cutOffs_of_plain {ts : List Token} (h : ∀ t ∈ ts, t.IsPlain) : cutOffs ts = [] := by
  induction ts with
  | nil => rfl
  | cons t ts ih =>
    rw [List.forall_mem_cons] at h
    rw [cutOffs_cons, ih h.2, h.1.nested, h.1.unterminated]
    rfl

-- ---------------------------------------------------------------------------
-- Open tokens at the end of a level
-- ---------------------------------------------------------------------------

/-- Of these tokens none is open but the last, and that one ends at `stop`. -/
inductive OpenLast (stop : Nat) : List Token → Prop where
  | nil : OpenLast stop []
  | last {t : Token} (ends : t.span.stop = stop) : OpenLast stop [t]
  | cons {t : Token} {ts : List Token} (closed : t.unterminated = false)
      (rest : OpenLast stop ts) : OpenLast stop (t :: ts)

namespace OpenLast

variable {stop : Nat} {ts : List Token} {t : Token}

/-- The token that is open is the last one, and it reaches to the end. -/
theorem of_mem (h : OpenLast stop ts) (ht : t ∈ ts) (hopen : t.unterminated = true) :
    ts.getLast? = some t ∧ t.span.stop = stop := by
  induction h with
  | nil => simp at ht
  | last ends =>
    rw [List.mem_singleton.mp ht]
    exact ⟨rfl, ends⟩
  | cons closed rest ih =>
    rcases List.mem_cons.mp ht with rfl | ht
    · simp [closed] at hopen
    · obtain ⟨hlast, hstop⟩ := ih ht
      exact ⟨by rw [List.getLast?_cons, hlast]; rfl, hstop⟩

/-- One token at most is open. -/
theorem countP_le_one (h : OpenLast stop ts) : ts.countP (·.unterminated) ≤ 1 := by
  induction h with
  | nil => simp
  | last ends => exact List.countP_le_length
  | cons closed rest ih =>
    rw [List.countP_cons_of_neg (by simp [closed])]
    exact ih

end OpenLast

-- ---------------------------------------------------------------------------
-- Shaped tokens
-- ---------------------------------------------------------------------------

variable {t : Token} {ts : List Token}

/-- Only templates and argument lists are ever cut off. -/
theorem Shaped.kind_of_unterminated (h : ∀ s ∈ ts, s.Shaped) (ht : t ∈ forest ts)
    (hopen : t.unterminated = true) : t.kind = .template ∨ t.kind = .sceneArgs := by
  -- a plain token is never open, so the open one is a region or lies in a string
  have hplain : ∀ {s : Token}, s.IsPlain → s.unterminated ≠ true := by
    intro s hs
    simp [hs.unterminated]
  obtain ⟨s, hs, rfl | hin⟩ := Token.mem_forest.mp ht
  · rcases h t hs with ⟨-, -, plain⟩ | ⟨-, plain⟩ | ⟨-, closed, -⟩ | ⟨kind, -⟩
    · exact absurd hopen (hplain plain)
    · exact absurd hopen (hplain plain)
    · simp [closed] at hopen
    · exact Or.inr kind
  · rcases h s hs with ⟨-, -, plain⟩ | ⟨-, plain⟩ | ⟨-, -, nested⟩ | ⟨-, nested⟩
    · exact absurd hin plain.mem_forest
    · exact absurd hin plain.mem_forest
    · obtain ⟨u, hu, rfl | hin⟩ := Token.mem_forest.mp hin
      · exact Or.inl (nested t hu).kind
      · obtain ⟨v, hv, rfl | hin⟩ := Token.mem_forest.mp hin
        · exact absurd hopen (hplain ((nested u hu).nested t hv).2)
        · exact absurd hin ((nested u hu).nested v hv).2.mem_forest
    · obtain ⟨u, hu, rfl | hin⟩ := Token.mem_forest.mp hin
      · exact absurd hopen (hplain (nested t hu).2)
      · exact absurd hin (nested u hu).2.mem_forest

/-- Argument lists can be counted on the top level alone. -/
theorem Shaped.countP_sceneArgs (h : ∀ s ∈ ts, s.Shaped) :
    (forest ts).countP (fun t => t.kind = .sceneArgs ∧ t.unterminated) =
      ts.countP fun t => t.kind = .sceneArgs ∧ t.unterminated := by
  induction ts with
  | nil => rfl
  | cons s ts ih =>
    rw [List.forall_mem_cons] at h
    -- no token holds an argument list
    have hinside : (forest s.nested).countP
        (fun t => t.kind = .sceneArgs ∧ t.unterminated) = 0 := by
      rw [List.countP_eq_zero]
      intro u hu hopen
      have hk : u.kind = .sceneArgs := (of_decide_eq_true hopen).1
      rcases h.1.mem_nested hu with ⟨-, -, hk'⟩ | ⟨-, -, hk'⟩ | ⟨-, hk'⟩
      all_goals simp [hk, argKinds] at hk'
    rw [forest_cons, List.countP_cons, List.countP_append, hinside, ih h.2, List.countP_cons]
    omega

end Token

-- ---------------------------------------------------------------------------
-- Regions
-- ---------------------------------------------------------------------------

variable {legacy : Bool} {e : Expectation} {text : Bytes} {c : Cursor} {found : Found}
  {pieceAt : Option UInt8 → UInt8 → Bytes → Piece}

/-- Inside a template or a list only junk is told. -/
theorem scanBody_cutOffs (pieceAt : Option UInt8 → UInt8 → Bytes → Piece) (c : Cursor) :
    (scanBody pieceAt c).faults.filter isCutOff = [] := by
  fun_induction scanBody pieceAt c with
  | case1 c h => rfl
  | case2 c b tail h more hpiece => rfl
  | case3 c b tail h hpiece ih => exact ih
  | case4 c b tail h m hpiece found body ih => exact ih
  | case5 c b tail h more hpiece next body ih => exact ih

/-- A region tells that it was cut off after all that is told inside it; there
is then no second such diagnostic to put in order with it. -/
theorem Body.enclose_cutOffs {body : Body} (kind : Kind)
    (hbody : body.faults.filter isCutOff = Token.cutOffs body.tokens)
    (hone : body.closed = true ∨ Token.cutOffs body.tokens = []) :
    (body.enclose c kind).faults.filter isCutOff =
      Token.cutOffs [(body.enclose c kind).token] := by
  have htoken : Token.cutOffs [(body.enclose c kind).token] =
      (if !body.closed then [.unterminated kind (c.spanTo body.stop)] else []) ++
        (Token.cutOffs body.tokens ++ []) :=
    Token.cutOffs_cons _ _
  show (body.faults ++ _).filter isCutOff = _
  rw [htoken, List.filter_append, hbody, List.append_nil]
  cases hclosed : body.closed with
  | true => simp
  | false =>
    have hnone : Token.cutOffs body.tokens = [] := hone.resolve_left (by simp [hclosed])
    rw [hnone]
    rfl

/-- A region whose inside is made of filler, leaves and junk. -/
theorem scanBody_enclose_cutOffs {filler : UInt8 → Bool} {kinds : List Kind} {width : Nat}
    (hp : PieceSpec pieceAt filler kinds width) (c d : Cursor) (kind : Kind) :
    ((scanBody pieceAt d).enclose c kind).faults.filter isCutOff =
      Token.cutOffs [((scanBody pieceAt d).enclose c kind).token] := by
  have hplain : Token.cutOffs (scanBody pieceAt d).tokens = [] :=
    Token.cutOffs_of_plain fun t ht => (scanBody_kinds hp d t ht).2
  refine Body.enclose_cutOffs kind ?_ (Or.inr hplain)
  rw [hplain, scanBody_cutOffs]

/-- The templates of a string that were cut off are told one by one. -/
theorem scanString_cutOffs (c : Cursor) :
    (scanString c).faults.filter isCutOff = Token.cutOffs (scanString c).tokens := by
  fun_induction scanString c with
  | case1 c h => rfl
  | case2 c b tail h hopen found body ih =>
    have htemplate : (template c).faults.filter isCutOff = Token.cutOffs [(template c).token] :=
      scanBody_enclose_cutOffs templatePiece_spec c _ .template
    show ((template c).faults ++ body.faults).filter isCutOff =
      Token.cutOffs ([(template c).token] ++ body.tokens)
    rw [List.filter_append, Token.cutOffs_append, htemplate, ih]
  | case3 c b tail h hopen ih => exact ih

/-- A token that is found tells of those in its tree that were cut off. -/
theorem FoundAt.cutOffs (h : FoundAt legacy c found) :
    found.faults.filter isCutOff = Token.cutOffs [found.token] := by
  cases h with
  | leaf rest fits inLine region eof => rfl
  | comment rest => rfl
  | string rest =>
    exact Body.enclose_cutOffs .string (scanString_cutOffs _) (Or.inl (scanString_closed _))
  | sceneArgs rest => exact scanBody_enclose_cutOffs (argsPiece_spec legacy) c _ .sceneArgs

-- ---------------------------------------------------------------------------
-- Steps and runs
-- ---------------------------------------------------------------------------

/-- A search by the general rules tells of cut-off tokens in the one it finds,
and of no others. -/
theorem scanGeneral_cutOffs (legacy : Bool) (c : Cursor) :
    (scanGeneral legacy c).faults.filter isCutOff =
      Token.cutOffs (scanGeneral legacy c).token.toList := by
  fun_induction scanGeneral legacy c with
  | case1 c h => rfl
  | case2 c b tail h hspace ih => exact ih
  | case3 c b tail h hspace found hgen => exact (general?_foundAt hgen).cutOffs
  | case4 c b tail h hspace hgen next step ih => exact ih

/-- The search for the next token tells of the cut-off ones in it, and of no
others. -/
theorem scanToken_cutOffs (legacy : Bool) (e : Expectation) (c : Cursor) :
    (scanToken legacy e c).faults.filter isCutOff =
      Token.cutOffs (scanToken legacy e c).token.toList := by
  unfold scanToken
  split
  · next found hexp => exact (expected?_foundAt hexp).cutOffs
  · exact scanGeneral_cutOffs legacy c

namespace Lexer

variable {l l' : Lexer}

/-- A call of `next` adds what the flags of its token call for. -/
theorem next_cutOffs {token : Option Token} (hn : l.next = (token, l')) :
    l'.diagnostics.filter isCutOff =
      l.diagnostics.filter isCutOff ++ Token.cutOffs token.toList := by
  simp only [next, Prod.mk.injEq] at hn
  obtain ⟨rfl, rfl⟩ := hn
  rw [List.filter_append, LexOptions.filter_report, scanToken_cutOffs]

/-- A run adds what the flags of its tokens call for. -/
theorem run_cutOffs (l : Lexer) :
    l.run.2.diagnostics.filter isCutOff =
      l.diagnostics.filter isCutOff ++ Token.cutOffs l.tokens := by
  induction l using run.induct with
  | case1 l l' hn =>
    rw [run_of_next_none hn, tokens_of_next_none hn]
    exact next_cutOffs hn
  | case2 l t l' hn ts l'' hrun ih =>
    rw [run_of_next_some hn, tokens_of_next_some hn]
    show l'.run.2.diagnostics.filter isCutOff = _
    rw [ih, next_cutOffs hn, List.append_assoc, ← Token.cutOffs_append]
    rfl

end Lexer

-- ---------------------------------------------------------------------------
-- Where regions are cut off
-- ---------------------------------------------------------------------------

/-- A template that was cut off ends with its line, so nothing comes after it
in its string. -/
theorem scanString_openLast (hc : c.In text) :
    Token.OpenLast (scanString c).stop.offset (scanString c).tokens := by
  fun_induction scanString c with
  | case1 c h => exact .nil
  | case2 c b tail h hopen found body ih =>
    have hlaid := scanBody_laid templatePiece_spec (hc.advance 2)
    cases hclosed : (scanBody templatePiece (c.advance 2)).closed with
    | true =>
      refine .cons ?_ (ih hlaid.stop_in)
      show (!(scanBody templatePiece (c.advance 2)).closed) = false
      rw [hclosed]
      rfl
    | false =>
      -- cut off, the template leaves nothing of its line
      have hend : body =
          { tokens := [], faults := [], stop := (template c).stop, closed := true } :=
        scanString_of_rest_eq_nil (hlaid.cut_off hclosed)
      show Token.OpenLast body.stop.offset ((template c).token :: body.tokens)
      rw [hend]
      exact .last rfl
  | case3 c b tail h hopen ih => exact ih (hc.advance 1)

/-- Of the templates of a string only the last may be open, and it ends with the
string. -/
theorem FoundAt.openLast_of_string (hc : c.In text) (h : FoundAt legacy c found)
    (hk : found.token.kind = .string) :
    Token.OpenLast found.token.span.stop found.token.nested := by
  cases h with
  | @leaf b tail m rest fits inLine region eof =>
    have hleaf : m.kind = .string := hk
    simp [hleaf, Kind.isRegion] at region
  | comment rest => exact Kind.noConfusion hk
  | string rest => exact scanString_openLast (hc.advance 2).inLine
  | sceneArgs rest => exact Kind.noConfusion hk

/-- A top-level token that was cut off leaves nothing to read. -/
theorem FoundAt.rest_eq_nil_of_unterminated (hc : c.In text) (h : FoundAt legacy c found)
    (hopen : found.token.unterminated = true) : found.stop.rest = [] := by
  cases h with
  | leaf rest fits inLine region eof => exact Bool.noConfusion hopen
  | comment rest => exact Bool.noConfusion hopen
  | string rest =>
    have hflag : (!(scanString (c.advance 2).inLine).closed) = true := hopen
    rw [scanString_closed] at hflag
    exact Bool.noConfusion hflag
  | sceneArgs rest =>
    have hflag : (!(scanBody (argsPiece legacy) (c.advance 1)).closed) = true := hopen
    exact (scanBody_laid (argsPiece_spec legacy) (hc.advance 1)).cut_off (by simpa using hflag)

namespace Lexer

variable {l : Lexer}

/-- At the end of the text no token is left. -/
theorem tokens_of_rest_eq_nil (h : l.cursor.rest = []) : l.tokens = [] := by
  have hplace : (l.expectation.place l.cursor).rest = [] := by
    unfold Expectation.place
    split
    · exact h
    · simp [h]
  have hnone : l.next = (none, l.next.2) := by
    simp [next, scanToken, expected?_of_rest_eq_nil hplace, scanGeneral_of_rest_eq_nil h]
  exact tokens_of_next_none hnone

/-- Of the tokens of a run only the last may be open, and it ends with the
text. -/
theorem tokens_openLast (hl : l.cursor.In text) : Token.OpenLast text.length l.tokens := by
  induction l using run.induct with
  | case1 l l' hn =>
    rw [tokens_of_next_none hn]
    exact .nil
  | case2 l t l' hn ts l'' hrun ih =>
    obtain ⟨d, found, hd, -, hfound, rfl, hstop⟩ := next_found hl hn
    have hlaid := hfound.laid hd
    rw [tokens_of_next_some hn]
    cases hopen : found.token.unterminated with
    | false => exact .cons hopen (ih (hstop ▸ hlaid.stop_in))
    | true =>
      -- cut off, a token leaves nothing of the text
      have hrest := hfound.rest_eq_nil_of_unterminated hd hopen
      rw [tokens_of_rest_eq_nil (by rw [hstop]; exact hrest)]
      refine .last ?_
      rw [hlaid.stop_eq]
      exact hlaid.stop_in.offset_eq_length hrest

end Lexer

/--
**Flags and diagnostics of regions that were cut off.** The tokens that are
flagged as cut off, in the order of the stream and at every depth, are told one
by one in the diagnostics, with their spans and with the closing mark that was
wanted. They are templates and argument lists only.

* A string has one such template at most: its last, which ends where it ends.
* A stream has one such list at most: its last token before the end of the
  input, which reaches to the end of the source.
-/
theorem lex_cutOff (source : Bytes) (options : LexOptions) :
    let stream := (lex source options).1
    let cut := (Token.forest stream).filter (·.unterminated)
    ((lex source options).2.filter fun d => d.fault = .unterminated) =
        cut.map (fun t => {
          fault := .unterminated
          span := t.span
          message :=
            if t.kind = .template then ascii "unterminated template, expected '\x7d\x7d'"
            else ascii "unterminated scene argument list, expected ')'" }) ∧
      (∀ t ∈ cut, t.kind = .template ∨ t.kind = .sceneArgs) ∧
      (∀ s ∈ Token.forest stream, s.kind = .string →
        s.nested.countP (·.unterminated) ≤ 1 ∧
          ∀ t ∈ s.nested, t.unterminated = true →
            s.nested.getLast? = some t ∧ t.span.stop = s.span.stop) ∧
      (Token.forest stream).countP (fun t => t.kind = .sceneArgs ∧ t.unterminated) ≤ 1 ∧
      ∀ t ∈ Token.forest stream, t.kind = .sceneArgs → t.unterminated = true →
        (∃ ts, stream = ts ++ [t, Token.eof source.length]) ∧ t.span.stop = source.length := by
  have hin := Lexer.start_in source options
  set l := Lexer.start source options with hl
  have hrun : (lex source options).1 = l.tokens ++ [Token.eof source.length] :=
    lex_eq_tokens source options
  have hshaped := Lexer.tokens_shaped hin
  have hlast := Lexer.tokens_openLast hin
  -- the end of the input is no region and was not cut off
  have hforest : Token.forest (lex source options).1 =
      Token.forest l.tokens ++ [Token.eof source.length] := by
    rw [hrun, Token.forest_append]
    rfl
  have hroot : ∀ t ∈ Token.forest (lex source options).1,
      t.kind = .string ∨ t.kind = .sceneArgs → t ∈ l.tokens := by
    intro t ht hk
    rw [hforest, List.mem_append, List.mem_singleton] at ht
    rcases ht with ht | rfl
    · exact Token.Shaped.mem_of_kind hshaped ht hk
    · simp [Token.eof] at hk
  refine ⟨?_, ?_, ?_, ?_, ?_⟩
  · have htold := l.run_cutOffs
    rw [show l.diagnostics = [] from rfl] at htold
    have heof : Token.cutOffs [Token.eof source.length] = [] := rfl
    show l.run.2.diagnostics.filter isCutOff = Token.cutOffs (lex source options).1
    rw [htold, hrun, Token.cutOffs_append, heof]
    simp
  · intro t ht
    obtain ⟨ht, hopen⟩ := List.mem_filter.mp ht
    rw [hforest, List.mem_append, List.mem_singleton] at ht
    rcases ht with ht | rfl
    · exact Token.Shaped.kind_of_unterminated hshaped ht hopen
    · simp [Token.eof] at hopen
  · intro s hs hk
    have hstring : ∀ s ∈ l.tokens, s.kind = .string → Token.OpenLast s.span.stop s.nested :=
      Lexer.tokens_forall hin fun d found hd hfound => hfound.openLast_of_string hd
    have hopen := hstring s (hroot s hs (Or.inl hk)) hk
    exact ⟨hopen.countP_le_one, fun t ht => hopen.of_mem ht⟩
  · rw [hforest, List.countP_append, Token.Shaped.countP_sceneArgs hshaped]
    -- open argument lists are open tokens, of which there is one
    have hle : l.tokens.countP (fun t => t.kind = .sceneArgs ∧ t.unterminated) ≤
        l.tokens.countP (·.unterminated) :=
      List.countP_mono_left fun t _ ht => (of_decide_eq_true ht).2
    have hone := hlast.countP_le_one
    have hzero : [Token.eof source.length].countP
        (fun t => t.kind = .sceneArgs ∧ t.unterminated) = 0 := rfl
    omega
  · intro t ht hk hopen
    obtain ⟨hend, hstop⟩ := hlast.of_mem (hroot t ht (Or.inr hk)) hopen
    obtain ⟨ts, hts⟩ := List.getLast?_eq_some_iff.mp hend
    refine ⟨⟨ts, ?_⟩, hstop⟩
    rw [hrun, hts, List.append_assoc]
    rfl

end StoryLex
