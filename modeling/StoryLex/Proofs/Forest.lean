import Mathlib.Data.List.Chain
import StoryLex.Proofs.Places

/-!
# StoryLex — forests of tokens

A stream is a forest: each token of a region carries the tokens found inside
it. `Token.forest` lists all of them, parents before their nested tokens and
siblings in order, and `Token.forest_induction` goes through them.

**Layout.** `Token.Laid text lo hi ts` says that the tokens `ts` lie between
two offsets of a text as a lexer should leave them: in order, apart, none of
them empty, each with the bytes of its span, and with its nested tokens laid
out between its own ends. It is an inductive predicate on lists of tokens, so
one induction reaches every depth.
-/

namespace StoryLex

namespace Token

mutual

/-- A token and all tokens inside it. -/
def tree : Token → List Token
  | ⟨kind, span, lexeme, nested, unterminated⟩ =>
    ⟨kind, span, lexeme, nested, unterminated⟩ :: forest nested

/-- All tokens of a forest, each before the tokens inside it. -/
def forest : List Token → List Token
  | [] => []
  | t :: ts => tree t ++ forest ts

end

@[simp] theorem forest_nil : forest [] = [] := rfl

/-- First comes the token, then what is inside it, then what is right of it. -/
@[simp] theorem forest_cons (t : Token) (ts : List Token) :
    forest (t :: ts) = t :: (forest t.nested ++ forest ts) := by
  cases t
  rfl

theorem forest_append (ts us : List Token) : forest (ts ++ us) = forest ts ++ forest us := by
  induction ts with
  | nil => rfl
  | cons t ts ih => simp [ih]

/-- A token of a forest is one of its roots or lies inside one. -/
theorem mem_forest {t : Token} {ts : List Token} :
    t ∈ forest ts ↔ ∃ s ∈ ts, t = s ∨ t ∈ forest s.nested := by
  induction ts with
  | nil => simp
  | cons s ts ih => simp [ih, or_assoc]

theorem mem_forest_of_mem {t : Token} {ts : List Token} (ht : t ∈ ts) : t ∈ forest ts :=
  mem_forest.mpr ⟨t, ht, Or.inl rfl⟩

theorem mem_forest_of_nested {t s : Token} {ts : List Token} (hs : s ∈ ts) (ht : t ∈ s.nested) :
    t ∈ forest ts :=
  mem_forest.mpr ⟨s, hs, Or.inr (mem_forest_of_mem ht)⟩

/-- The end of the input adds itself and nothing inside it. -/
theorem mem_forest_append_eof {t : Token} {ts : List Token} {n : Nat} :
    t ∈ forest (ts ++ [eof n]) ↔ t ∈ forest ts ∨ t = eof n := by
  simp [forest_append, eof]

mutual

/-- The step of the induction that goes into a token. -/
theorem forest_induction_nested {P : List Token → Prop} (nil : P [])
    (cons : ∀ t ts, P t.nested → P ts → P (t :: ts)) : (t : Token) → P t.nested
  | ⟨_, _, _, nested, _⟩ => forest_induction nil cons nested

/-- What holds of no tokens, and of a token and its right neighbours whenever it
holds of those and of the tokens inside, holds of every forest. -/
theorem forest_induction {P : List Token → Prop} (nil : P [])
    (cons : ∀ t ts, P t.nested → P ts → P (t :: ts)) : (ts : List Token) → P ts
  | [] => nil
  | t :: ts => cons t ts (forest_induction_nested nil cons t) (forest_induction nil cons ts)

end

-- ---------------------------------------------------------------------------
-- Layout
-- ---------------------------------------------------------------------------

/-- The tokens lie in order between two offsets of the text, each over at
least one byte, with the bytes of its span, and around its nested tokens. -/
inductive Laid (text : Bytes) : Nat → Nat → List Token → Prop where
  | nil {lo hi : Nat} (le : lo ≤ hi) : Laid text lo hi []
  | cons {lo hi : Nat} {t : Token} {ts : List Token}
      (start : lo ≤ t.span.start)
      (nonempty : t.span.start < t.span.stop)
      (inText : t.span.stop ≤ text.length)
      (lexeme : t.lexeme = t.span.bytes text)
      (nested : Laid text t.span.start t.span.stop t.nested)
      (rest : Laid text t.span.stop hi ts) : Laid text lo hi (t :: ts)

namespace Laid

variable {text : Bytes} {lo hi : Nat} {ts : List Token}

theorem le (h : Laid text lo hi ts) : lo ≤ hi := by
  induction h with
  | nil le => exact le
  | cons start nonempty _ _ _ _ _ ih => omega

/-- Wider bounds do as well. -/
theorem mono (h : Laid text lo hi ts) {lo' hi' : Nat} (hlo : lo' ≤ lo) (hhi : hi ≤ hi') :
    Laid text lo' hi' ts := by
  induction h generalizing lo' with
  | nil le => exact .nil (by omega)
  | cons start nonempty inText lexeme nested _ _ ih =>
    exact .cons (by omega) nonempty inText lexeme nested (ih le_rfl hhi)

/-- What is laid out in the front part of a text is so in the whole of it. -/
theorem of_take {n : Nat} (h : Laid (text.take n) lo hi ts) : Laid text lo hi ts := by
  induction h with
  | nil le => exact .nil le
  | cons start nonempty inText lexeme _ _ ihNested ihRest =>
    -- the bytes of a span do not depend on what follows it
    rw [List.length_take] at inText
    exact .cons start nonempty (by omega) (lexeme.trans (Span.bytes_take (by omega))) ihNested
      ihRest

/-- Every token lies between the bounds. -/
theorem bounds (h : Laid text lo hi ts) {s : Token} (hs : s ∈ ts) :
    lo ≤ s.span.start ∧ s.span.stop ≤ hi := by
  induction h with
  | nil => simp at hs
  | cons start nonempty _ _ _ rest _ ih =>
    rcases List.mem_cons.mp hs with rfl | hs
    · exact ⟨start, rest.le⟩
    · have := ih hs
      exact ⟨by omega, this.2⟩

/-- The tokens inside each token are laid out between its ends. -/
theorem nested_of_mem (h : Laid text lo hi ts) {s : Token} (hs : s ∈ ts) :
    Laid text s.span.start s.span.stop s.nested := by
  induction h with
  | nil => simp at hs
  | cons _ _ _ _ nested _ _ ih =>
    rcases List.mem_cons.mp hs with rfl | hs
    · exact nested
    · exact ih hs

theorem append {mid : Nat} {us : List Token} (h : Laid text lo mid ts) (h' : Laid text mid hi us) :
    Laid text lo hi (ts ++ us) := by
  induction h with
  | nil le => exact h'.mono le le_rfl
  | cons start nonempty inText lexeme nested _ _ ih =>
    exact .cons start nonempty inText lexeme nested (ih h')

/-- Neighbours do not overlap. -/
theorem isChain (h : Laid text lo hi ts) :
    ts.IsChain fun a b => a.span.stop ≤ b.span.start := by
  induction h with
  | nil => exact .nil
  | @cons lo hi t ts _ _ _ _ _ rest _ ih =>
    -- the right neighbour starts where the token has stopped, or later
    cases rest with
    | nil => exact .singleton t
    | cons start _ _ _ _ _ => exact .cons_cons start ih

/-- No two tokens of one level cover the same byte. -/
theorem eq_of_covers (h : Laid text lo hi ts) {s u : Token} {i : Nat} (hs : s ∈ ts) (hu : u ∈ ts)
    (hsi : s.span.Covers i) (hui : u.span.Covers i) : s = u := by
  induction h with
  | nil => simp at hs
  | @cons lo hi t ts _ _ _ _ _ rest _ ih =>
    -- a token of the tail starts where the head has ended
    have hfar : ∀ v ∈ ts, v.span.Covers i → ¬ t.span.Covers i := by
      intro v hv hvi hti
      have := (rest.bounds hv).1
      have := hvi.1
      have := hti.2
      omega
    rcases List.mem_cons.mp hs with rfl | hsTail
    · rcases List.mem_cons.mp hu with rfl | huTail
      · rfl
      · exact absurd hsi (hfar u huTail hui)
    · rcases List.mem_cons.mp hu with rfl | huTail
      · exact absurd hui (hfar s hsTail hsi)
      · exact ih hsTail huTail

end Laid

end Token

end StoryLex
