import StoryLex.Highlight.Table
import StoryLex.Terminal
import StoryLex.Token.Basic

/-!
# StoryLex — highlighted text

A source is written out with every token in the style of its kind. The text of
a region keeps the region's style around its nested tokens, and what lies
between tokens is copied as it is.

Tokens may come from anywhere. A top-level token that starts before the end of
the one accepted last, or that ends past the source, is left out. Positions
inside an accepted token are taken as they are: writing fails if one of them
from which text is to be copied lies past the source, and text whose end lies
before its start is copied to the end of the source.
-/

namespace StoryLex

/-- Why a source cannot be written out with the given tokens. -/
inductive RenderError where
  /-- Text is wanted from an offset past the end of the source. -/
  | pastEnd (offset : Nat)
deriving DecidableEq, Repr

/-- The text from one offset to another, cut off at the end of the source; all
that follows `start` if `stop` lies before it. -/
def slice (source : Bytes) (start stop : Nat) : Except RenderError Bytes :=
  if start ≤ source.length then
    let rest := source.drop start
    .ok (if start ≤ stop then rest.take (stop - start) else rest)
  else
    .error (.pastEnd start)

/-- How tokens are to be written out. -/
structure Palette where
  /-- The links from kinds to groups. -/
  table : HighlightTable := .standard
  /-- Whether colours are written at all. -/
  color : Bool := true

namespace Palette

/-- The text in the style of the given kind. -/
def paint (p : Palette) (kind : Kind) (text : Bytes) : Bytes :=
  StoryLex.paint p.color (p.table.group kind).codes text

mutual

/-- A token, with the tokens inside it in their own styles. -/
def renderToken (p : Palette) (source : Bytes) : Token → Except RenderError Bytes
  | ⟨kind, span, _, nested, _⟩ => p.renderInside source kind span.stop span.start nested

/-- The text of a region of the given kind from `cur` on, up to the offset
`stop`, around the nested tokens still to come. -/
def renderInside (p : Palette) (source : Bytes) (kind : Kind) (stop cur : Nat) :
    List Token → Except RenderError Bytes
  | [] => do
    let text ← slice source cur stop
    return p.paint kind text
  | t :: ts => do
    let text ← slice source cur t.span.start
    let inner ← p.renderToken source t
    -- go on behind the nested token, wherever that lies
    let rest ← p.renderInside source kind stop t.span.stop ts
    return p.paint kind text ++ inner ++ rest

end

/-- Whether a top-level token can be written out, after text up to `cur`. -/
def Accepts (source : Bytes) (cur : Nat) (t : Token) : Prop :=
  cur ≤ t.span.start ∧ t.span.stop ≤ source.length

instance (source : Bytes) (cur : Nat) (t : Token) : Decidable (Accepts source cur t) :=
  inferInstanceAs (Decidable (_ ∧ _))

/-- The source from `cur` on, with the tokens that lie there. -/
def renderFrom (p : Palette) (source : Bytes) (cur : Nat) :
    List Token → Except RenderError Bytes
  | [] => .ok (source.drop cur)
  | t :: ts =>
    if Accepts source cur t then do
      let gap ← slice source cur t.span.start
      let inner ← p.renderToken source t
      let rest ← p.renderFrom source t.span.stop ts
      return gap ++ inner ++ rest
    else
      p.renderFrom source cur ts

/-- The whole source, with the tokens of a stream in the styles of their kinds. -/
def render (p : Palette) (source : Bytes) (stream : List Token) : Except RenderError Bytes :=
  p.renderFrom source 0 stream

end Palette

end StoryLex
