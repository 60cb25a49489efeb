import StoryLex.Token.Kind

/-!
# StoryLex — tokens

A token is a kind, the span of bytes it covers, and those bytes. The token of
a region also carries the tokens found inside it, so a token is a tree; the
lexer builds trees of depth three at most, but any tree can be dumped, painted
and compared.
-/

namespace StoryLex

/-- A range of byte offsets, the end excluded. -/
structure Span where
  /-- The offset of the first byte. -/
  start : Nat
  /-- The offset just past the last byte. -/
  stop : Nat
deriving DecidableEq, Repr

/-- The number of bytes covered, in 64 bits: the size of a span that ends
before it starts wraps around. -/
def Span.size (s : Span) : UInt64 := s.stop.toUInt64 - s.start.toUInt64

/-- A classified piece of a script. -/
structure Token where
  /-- The class of the token. -/
  kind : Kind
  /-- Where the token stands. -/
  span : Span
  /-- The bytes of the token. -/
  lexeme : Bytes
  /-- The tokens inside a region, in order. -/
  nested : List Token := []
  /-- Whether a region was cut off before its closing mark. -/
  unterminated : Bool := false
deriving Repr

namespace Token

mutual

/-- Decides whether two tokens are equal, nested tokens included. -/
def decEq : (a b : Token) → Decidable (a = b)
  | ⟨k, s, l, ns, u⟩, ⟨k', s', l', ns', u'⟩ =>
    match decEqAll ns ns' with
    | isFalse h => isFalse (by simp [h])
    | isTrue h => decidable_of_iff (k = k' ∧ s = s' ∧ l = l' ∧ u = u') (by simp [h])

/-- Decides whether two lists of tokens are equal. -/
def decEqAll : (as bs : List Token) → Decidable (as = bs)
  | [], [] => isTrue rfl
  | [], _ :: _ => isFalse (by simp)
  | _ :: _, [] => isFalse (by simp)
  | a :: as, b :: bs =>
    match decEq a b, decEqAll as bs with
    | isTrue h, isTrue h' => isTrue (by simp [h, h'])
    | isFalse h, _ => isFalse (by simp [h])
    | _, isFalse h => isFalse (by simp [h])

end

instance : DecidableEq Token := decEq

/-- The token of no width that ends a stream at `offset`. -/
def eof (offset : Nat) : Token where
  kind := .eof
  span := ⟨offset, offset⟩
  lexeme := []

end Token

end StoryLex
