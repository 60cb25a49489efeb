import StoryLex.Proofs.Session

/-!
# StoryLex — which token may hold which

Only three kinds of region have an inside made of tokens: a string holds
templates, a template holds variables, and an argument list holds atoms,
numbers, dice rolls, variables and reserved words. `Token.Shaped` lists the
forms that a top-level token can have, down to the innermost token, and
`Lexer.tokens_shaped` says that every run keeps to them.
-/

namespace StoryLex

namespace Token

/-- A token with nothing inside it and nothing left open. -/
structure IsPlain (t : Token) : Prop where
  nested       : t.nested = []
  unterminated : t.unterminated = false

/-- A template, with the variables it names. -/
structure IsTemplate (t : Token) : Prop where
  kind   : t.kind = .template
  nested : ∀ u ∈ t.nested, u.kind = .variableName ∧ u.IsPlain

/-- The forms of a top-level token. -/
inductive Shaped (t : Token) : Prop where
  | leaf (region : t.kind.isRegion = false) (eof : t.kind ≠ .eof) (plain : t.IsPlain)
  | comment (kind : t.kind = .comment) (plain : t.IsPlain)
  | string (kind : t.kind = .string) (closed : t.unterminated = false)
      (nested : ∀ u ∈ t.nested, u.IsTemplate)
  | sceneArgs (kind : t.kind = .sceneArgs)
      (nested : ∀ u ∈ t.nested, u.kind ∈ argKinds ∧ u.IsPlain)

/-- What lies in the forest of a plain token is that token. -/
theorem IsPlain.mem_forest {t u : Token} (h : t.IsPlain) : u ∉ forest t.nested := by
  simp [h.nested]

-- ---------------------------------------------------------------------------
-- Forests of shaped tokens
-- ---------------------------------------------------------------------------

variable {t u : Token}

/-- All tokens inside a shaped one: the templates of a string, the variables
of those, or the arguments of a list. -/
theorem Shaped.mem_nested (h : t.Shaped) (hu : u ∈ forest t.nested) :
    (t.kind = .sceneArgs ∧ u ∈ t.nested ∧ u.kind ∈ argKinds) ∨
      (t.kind = .string ∧ u ∈ t.nested ∧ u.kind = .template) ∨
      (t.kind = .string ∧ u.kind = .variableName) := by
  cases h with
  | leaf _ _ plain => exact absurd hu plain.mem_forest
  | comment _ plain => exact absurd hu plain.mem_forest
  | sceneArgs kind nested =>
    obtain ⟨s, hs, rfl | hin⟩ := Token.mem_forest.mp hu
    · exact Or.inl ⟨kind, hs, (nested u hs).1⟩
    · exact absurd hin (nested s hs).2.mem_forest
  | string kind _ nested =>
    obtain ⟨s, hs, rfl | hin⟩ := Token.mem_forest.mp hu
    · exact Or.inr (Or.inl ⟨kind, hs, (nested u hs).kind⟩)
    · -- inside a template there are variables, which hold nothing
      obtain ⟨v, hv, rfl | hin⟩ := Token.mem_forest.mp hin
      · exact Or.inr (Or.inr ⟨kind, ((nested s hs).nested u hv).1⟩)
      · exact absurd hin ((nested s hs).nested v hv).2.mem_forest

/-- No token of a shaped forest stands for the end of the input. -/
theorem Shaped.kind_ne_eof {ts : List Token} (h : ∀ t ∈ ts, t.Shaped) (hu : u ∈ forest ts) :
    u.kind ≠ .eof := by
  obtain ⟨s, hs, rfl | hin⟩ := Token.mem_forest.mp hu
  · rcases h u hs with ⟨-, heof, -⟩ | ⟨hk, -⟩ | ⟨hk, -, -⟩ | ⟨hk, -⟩
    · exact heof
    all_goals simp [hk]
  · rcases (h s hs).mem_nested hin with ⟨-, -, hk⟩ | ⟨-, -, hk⟩ | ⟨-, hk⟩
    · -- the end of the input is no argument
      intro heof
      simp [heof, argKinds] at hk
    all_goals simp [hk]

/-- Strings and argument lists stand in no other token. -/
theorem Shaped.mem_of_kind {ts : List Token} (h : ∀ s ∈ ts, s.Shaped) (hu : u ∈ forest ts)
    (hk : u.kind = .string ∨ u.kind = .sceneArgs) : u ∈ ts := by
  obtain ⟨s, hs, rfl | hin⟩ := Token.mem_forest.mp hu
  · exact hs
  · rcases (h s hs).mem_nested hin with ⟨-, -, hk'⟩ | ⟨-, -, hk'⟩ | ⟨-, hk'⟩
    all_goals rcases hk with hk | hk <;> simp [hk, argKinds] at hk'

end Token

-- ---------------------------------------------------------------------------
-- What is found is shaped
-- ---------------------------------------------------------------------------

theorem Match.found_plain (m : Match) (c : Cursor) : (m.found c).token.IsPlain := ⟨rfl, rfl⟩

/-- The tokens inside a region are plain and of the kinds that its pieces
have. -/
theorem scanBody_kinds {pieceAt : Option UInt8 → UInt8 → Bytes → Piece} {filler : UInt8 → Bool}
    {kinds : List Kind} {width : Nat} (hp : PieceSpec pieceAt filler kinds width) (c : Cursor) :
    ∀ t ∈ (scanBody pieceAt c).tokens, t.kind ∈ kinds ∧ t.IsPlain := by
  fun_induction scanBody pieceAt c with
  | case1 c h => simp
  | case2 c b tail h more hpiece => simp
  | case3 c b tail h hpiece ih => exact ih
  | case4 c b tail h m hpiece found body ih =>
    intro t ht
    rcases List.mem_cons.mp ht with rfl | ht
    · -- the kind of a leaf is one of those of its piece
      exact ⟨(hp.of_leaf hpiece).1, m.found_plain c⟩
    · exact ih t ht
  | case5 c b tail h more hpiece next body ih => exact ih

/-- A template holds variables and nothing else. -/
theorem template_isTemplate (c : Cursor) : (template c).token.IsTemplate := by
  refine ⟨rfl, ?_⟩
  intro u hu
  obtain ⟨hk, hplain⟩ := scanBody_kinds templatePiece_spec (c.advance 2) u hu
  exact ⟨List.mem_singleton.mp hk, hplain⟩

/-- A string holds templates and nothing else. -/
theorem scanString_templates (c : Cursor) : ∀ t ∈ (scanString c).tokens, t.IsTemplate := by
  fun_induction scanString c with
  | case1 c h => simp
  | case2 c b tail h hopen found body ih =>
    intro t ht
    rcases List.mem_cons.mp ht with rfl | ht
    · exact template_isTemplate c
    · exact ih t ht
  | case3 c b tail h hopen ih => exact ih

/-- A string is never cut off: it ends with its line. -/
theorem scanString_closed (c : Cursor) : (scanString c).closed = true := by
  fun_induction scanString c with
  | case1 c h => rfl
  | case2 c b tail h hopen found body ih => exact ih
  | case3 c b tail h hopen ih => exact ih

/-- A string tells what its inside tells. -/
theorem string_faults (c : Cursor) :
    (string c).faults = (scanString (c.advance 2).inLine).faults := by
  show (scanString (c.advance 2).inLine).faults ++ (if _ then [] else _) = _
  rw [if_pos (scanString_closed _), List.append_nil]

/-- Whatever is found at a place has one of the four forms. -/
theorem FoundAt.shaped {legacy : Bool} {c : Cursor} {found : Found} (h : FoundAt legacy c found) :
    found.token.Shaped := by
  cases h with
  | leaf rest fits inLine region eof => exact .leaf region eof (Match.found_plain _ c)
  | comment rest => exact .comment rfl ⟨rfl, rfl⟩
  | string rest =>
    refine .string rfl ?_ (scanString_templates _)
    -- only a template or an argument list can be cut off
    show (!(scanString (c.advance 2).inLine).closed) = false
    rw [scanString_closed]
    rfl
  | sceneArgs rest => exact .sceneArgs rfl (scanBody_kinds (argsPiece_spec legacy) _)

/-- Every token of a run has one of the four forms. -/
theorem Lexer.tokens_shaped {l : Lexer} {text : Bytes} (hl : l.cursor.In text) :
    ∀ t ∈ l.tokens, t.Shaped :=
  Lexer.tokens_forall hl fun _ _ _ h => h.shaped

end StoryLex
