import StoryLex.Proofs.Progress

/-!
# StoryLex — regions nest in one way only

A string may hold templates and a template variables; an argument list holds
what arguments are made of; nothing else holds anything (`Kind.inside`). So a
stream is at most three tokens deep. The machine keeps to the same order from
moment to moment: its stack has one of five forms in every state that it comes
to, it is never asked for the innermost region where there is none, and nothing
is open when a token is handed out.

The two are proved apart, the streams from the forms of a token
(`Token.Shaped`), the stack from the machine's invariant (`Machine.Sound`); they
are about the same lexer, for the machine hands out those streams
(`Lexer.run_drains`).
-/

namespace StoryLex

/-- The kinds of token that a token may hold. -/
def Kind.inside : Kind → List Kind
  | .string => [.template]
  | .template => [.variableName]
  | .sceneArgs => [.atom, .random, .number, .variableName, .reserved]
  | _ => []

namespace Token

variable {t u : Token} {ts : List Token} {n : Nat}

mutual

/-- How many tokens lie one in another, this one included. -/
def height : Token → Nat
  | ⟨_, _, _, nested, _⟩ => depth nested + 1

/-- How deep a forest is. -/
def depth : List Token → Nat
  | [] => 0
  | t :: ts => max (height t) (depth ts)

end

@[simp] theorem depth_nil : depth [] = 0 := rfl

/-- A forest is as deep as its first token or as its other ones. -/
@[simp] theorem depth_cons (t : Token) (ts : List Token) :
    depth (t :: ts) = max (depth t.nested + 1) (depth ts) := by
  cases t
  rfl

/-- A forest is one token deeper than the deepest of the insides. -/
theorem depth_le (h : ∀ t ∈ ts, depth t.nested ≤ n) : depth ts ≤ n + 1 := by
  induction ts with
  | nil => simp
  | cons t ts ih =>
    have hhead := h t List.mem_cons_self
    have htail := ih fun u hu => h u (List.mem_cons_of_mem _ hu)
    rw [depth_cons]
    omega

-- ---------------------------------------------------------------------------
-- The forms of a token
-- ---------------------------------------------------------------------------

theorem IsPlain.depth_nested (h : t.IsPlain) : depth t.nested ≤ n := by
  rw [h.nested]
  exact Nat.zero_le n

/-- In a top-level token two more lie one in another at most. -/
theorem Shaped.depth_nested (h : t.Shaped) : depth t.nested ≤ 2 := by
  cases h with
  | leaf region eof plain => exact plain.depth_nested
  | comment kind plain => exact plain.depth_nested
  | string kind closed nested =>
    -- templates, and variables in them
    refine depth_le ?_
    intro u hu
    exact depth_le fun v hv => ((nested u hu).nested v hv).2.depth_nested
  | sceneArgs kind nested =>
    exact depth_le fun u hu => (nested u hu).2.depth_nested

/-- No top-level token is a template. -/
theorem Shaped.kind_ne_template (h : t.Shaped) : t.kind ≠ .template := by
  intro hkind
  cases h with
  | leaf region eof plain =>
    rw [hkind] at region
    cases region
  | comment kind plain => cases hkind.symm.trans kind
  | string kind closed nested => cases hkind.symm.trans kind
  | sceneArgs kind nested => cases hkind.symm.trans kind

theorem IsPlain.inside (h : t.IsPlain) : ∀ u ∈ t.nested, u.kind ∈ t.kind.inside := by
  simp [h.nested]

/-- A template holds variables only. -/
theorem IsTemplate.inside (h : t.IsTemplate) : ∀ u ∈ t.nested, u.kind ∈ t.kind.inside := by
  intro u hu
  rw [h.kind]
  exact List.mem_singleton.mpr (h.nested u hu).1

/-- A token holds what it may, and so do the tokens inside it. -/
theorem Shaped.inside (h : t.Shaped) (hu : u = t ∨ u ∈ forest t.nested) :
    ∀ v ∈ u.nested, v.kind ∈ u.kind.inside := by
  cases h with
  | leaf region eof plain | comment kind plain =>
    rcases hu with rfl | hu
    · exact plain.inside
    · exact absurd hu plain.mem_forest
  | string kind closed nested =>
    rcases hu with rfl | hu
    · intro v hv
      rw [kind]
      exact List.mem_singleton.mpr (nested v hv).kind
    -- a template of the string, or a variable in one
    obtain ⟨v, hv, rfl | hu⟩ := mem_forest.mp hu
    · exact (nested u hv).inside
    obtain ⟨w, hw, rfl | hu⟩ := mem_forest.mp hu
    · exact ((nested v hv).nested u hw).2.inside
    · exact absurd hu ((nested v hv).nested w hw).2.mem_forest
  | sceneArgs kind nested =>
    rcases hu with rfl | hu
    · intro v hv
      rw [kind]
      exact (nested v hv).1
    obtain ⟨v, hv, rfl | hu⟩ := mem_forest.mp hu
    · exact (nested u hv).2.inside
    · exact absurd hu (nested v hv).2.mem_forest

end Token

/-- A stream is made of shaped tokens and the end of the input. -/
theorem Lexer.run_shaped {l : Lexer} {source : Bytes} (hl : l.cursor.In source) :
    ∀ t ∈ l.run.1, t.Shaped ∨ t = Token.eof source.length := by
  intro t ht
  rw [run_eq_tokens hl, List.mem_append, List.mem_singleton] at ht
  exact ht.imp_left (tokens_shaped hl t)

open Machine in
/-- **Regions nest in one way only.** In every stream that a run hands out, no
top-level token is a template, every token holds only what it may, and tokens
lie in one another at most three deep. In every state of every session the
stack has one of five forms; a region is only read with its mode on the stack,
so that the innermost one is there when it is asked for; and the stack is empty
whenever the search for a token ends. The machine hands out those streams. -/
theorem lex_nesting (source : Bytes) (options : LexOptions) :
    (∀ calls, let l := (Lexer.start source options).after calls
      (∀ t ∈ l.run.1, t.kind ≠ .template) ∧
        (∀ t ∈ Token.forest l.run.1, ∀ u ∈ t.nested, u.kind ∈ t.kind.inside) ∧
        Token.depth l.run.1 ≤ 3 ∧
        Visits options.legacyIdentifiers source (Machine.start source options) l.machine ∧
        ∃ k, Drains options.legacyIdentifiers source k l.machine l.run.1 l.run.2.machine) ∧
      ∀ s, Visits options.legacyIdentifiers source (Machine.start source options) s →
        s.modes ∈ [[], [.comment], [.string], [.string, .template], [.sceneArgs]] ∧
          (s.opened ≠ [] → s.modes ≠ []) ∧
          s.turn options.legacyIdentifiers source ≠ .stuck ∧
          ∀ token faults t, s.turn options.legacyIdentifiers source = .back token faults t →
            t.modes = [] := by
  refine ⟨?_, ?_⟩
  · intro calls l
    obtain ⟨hoptions, hvisits⟩ := Lexer.after_visits source options calls
    have hin : l.cursor.In source := Lexer.after_in (Lexer.start_in source options) calls
    -- the machine of the session hands out the stream of the run
    obtain ⟨k, -, hdrains⟩ := Lexer.run_drains hin
    rw [hoptions] at hdrains
    refine ⟨?_, ?_, ?_, hvisits, k, hdrains⟩
    · intro t ht
      rcases Lexer.run_shaped hin t ht with hshaped | rfl
      · exact hshaped.kind_ne_template
      · simp [Token.eof]
    · intro t ht
      obtain ⟨r, hr, ht⟩ := Token.mem_forest.mp ht
      rcases Lexer.run_shaped hin r hr with hshaped | rfl
      · exact hshaped.inside ht
      · rcases ht with rfl | ht
        · simp [Token.eof]
        · simp [Token.eof] at ht
    · refine Token.depth_le ?_
      intro t ht
      rcases Lexer.run_shaped hin t ht with hshaped | rfl
      · exact hshaped.depth_nested
      · simp [Token.eof]
  · intro s hs
    have hsound := hs.sound (sound_start source options)
    have houtcome := turn_outcome options.legacyIdentifiers hsound
    refine ⟨hsound.stack, hsound.modes_ne_nil, houtcome.ne_stuck, ?_⟩
    intro token faults t hturn
    -- where a token is handed out, no region is open any more
    have hopened := houtcome.opened_eq_nil hturn
    exact (houtcome.sound hsound (Turn.state?_of_back hturn)).modes_eq_nil hopened

end StoryLex
