import StoryLex.Proofs.Strokes

/-!
# StoryLex — when highlighting fails

A source can be written out with tokens from anywhere, and the one thing that
can go wrong is that text is wanted from past its end. Which streams those are
is not to be seen in any one line of the rendering: a start may lie past the
end although the stop does not, a nested token is taken wherever it lies, and
the text behind it begins at its stop.

Failing is put as an equivalence (`FailsIff`), which goes through a sequence of
steps like a disjunction (`FailsIff.bind`). The rendering is then read step by
step.

* `Token.Dangling` — the tokens that want text from past the end.
* `Palette.accepted` — the top-level tokens that are not left out.
* `slice_eq_substring` — for offsets of 64 bits, a stretch that ends before it
  starts is one whose length wraps around.
* `render_dangling` — rendering fails exactly where an accepted token dangles.
-/

namespace StoryLex

-- ---------------------------------------------------------------------------
-- Failing
-- ---------------------------------------------------------------------------

/-- The result is a failure, for want of text past `n` bytes, exactly if `bad`
holds. -/
def FailsIff {α : Type} (n : Nat) (bad : Prop) (x : Except RenderError α) : Prop :=
  bad ∧ (∃ offset, n < offset ∧ x = .error (.pastEnd offset)) ∨ ¬ bad ∧ ∃ out, x = .ok out

namespace FailsIff

variable {α β : Type} {n : Nat} {bad bad' : Prop} {x : Except RenderError α}

/-- A result fails exactly on what is equivalent to what it fails on. -/
theorem congr (h : FailsIff n bad x) (hiff : bad ↔ bad') : FailsIff n bad' x := by
  rwa [FailsIff, ← hiff]

/-- A step that succeeds. -/
theorem pure (n : Nat) (a : α) : FailsIff n False (Except.ok a) := Or.inr ⟨id, a, rfl⟩

/-- Of two steps in a row one fails or the other does, if what the first comes
to has no part in whether the second fails. -/
theorem bind {f : α → Except RenderError β} (h : FailsIff n bad x)
    (hf : ∀ a, FailsIff n bad' (f a)) : FailsIff n (bad ∨ bad') (x >>= f) := by
  rcases h with ⟨hbad, offset, hlt, rfl⟩ | ⟨hbad, a, rfl⟩
  · exact Or.inl ⟨Or.inl hbad, offset, hlt, rfl⟩
  · -- the first step succeeds, and the second decides
    refine (hf a).congr ?_
    simp [hbad]

/-- The result is an error exactly where it fails. -/
theorem error_iff (h : FailsIff n bad x) :
    (∃ offset, n < offset ∧ x = .error (.pastEnd offset)) ↔ bad := by
  rcases h with ⟨hbad, herror⟩ | ⟨hbad, out, rfl⟩
  · exact ⟨fun _ => hbad, fun _ => herror⟩
  · simp [hbad]

theorem ok_iff (h : FailsIff n bad x) : (∃ out, x = .ok out) ↔ ¬ bad := by
  rcases h with ⟨hbad, offset, -, rfl⟩ | ⟨hbad, hok⟩
  · simp [hbad]
  · exact ⟨fun _ => hbad, fun _ => hok⟩

end FailsIff

-- ---------------------------------------------------------------------------
-- Stretches of the source
-- ---------------------------------------------------------------------------

/-- A stretch is there unless it starts past the end, wherever it stops. -/
theorem slice_failsIff (source : Bytes) (start stop : Nat) :
    FailsIff source.length (source.length < start) (slice source start stop) := by
  unfold slice
  split
  · next h => exact Or.inr ⟨by omega, _, rfl⟩
  · next h => exact Or.inl ⟨by omega, start, by omega, rfl⟩

/-- The `count` bytes from `start` on, or as many as there are, for words of 64
bits. -/
def substring (source : Bytes) (start count : UInt64) : Except RenderError Bytes :=
  if start.toNat ≤ source.length then .ok ((source.drop start.toNat).take count.toNat)
  else .error (.pastEnd start.toNat)

/-- The length of a stretch that ends before it starts wraps around, and then
takes all that is left. -/
theorem slice_eq_substring {source : Bytes} (h : source.length < 2 ^ 64) (start stop : UInt64) :
    slice source start.toNat stop.toNat = substring source start (stop - start) := by
  have hstart := start.toNat_lt
  have hstop := stop.toNat_lt
  unfold slice substring
  split
  · dsimp only
    split
    · -- a stretch that does not end before it starts has the same length in either count
      next hle =>
      rw [UInt64.toNat_sub, show 2 ^ 64 - start.toNat + stop.toNat =
        stop.toNat - start.toNat + 2 ^ 64 by omega, Nat.add_mod_right,
        Nat.mod_eq_of_lt (by omega)]
    · -- the length has wrapped around, past all that a source of fewer than 2^64 bytes has
      -- left
      next hlt =>
      have hcount : (stop - start).toNat = 2 ^ 64 - start.toNat + stop.toNat := by
        rw [UInt64.toNat_sub, Nat.mod_eq_of_lt (by omega)]
      have hlen : (source.drop start.toNat).length ≤ (stop - start).toNat := by
        rw [hcount, List.length_drop]
        omega
      rw [List.take_of_length_le hlen]
  · rfl

-- ---------------------------------------------------------------------------
-- Dangling tokens
-- ---------------------------------------------------------------------------

/-- A token that wants text from past a source of `n` bytes: it starts there,
or a token inside it dangles or stops there. -/
inductive Token.Dangling (n : Nat) : Token → Prop where
  | start {t : Token} (past : n < t.span.start) : Dangling n t
  | inside {t u : Token} (mem : u ∈ t.nested) (dangling : Dangling n u) : Dangling n t
  | behind {t u : Token} (mem : u ∈ t.nested) (past : n < u.span.stop) : Dangling n t

namespace Token

variable {n : Nat} {t : Token}

/-- A token dangles by its own start, or by one of the tokens inside it. -/
theorem dangling_iff :
    t.Dangling n ↔ n < t.span.start ∨ ∃ u ∈ t.nested, u.Dangling n ∨ n < u.span.stop := by
  constructor
  · rintro (past | ⟨mem, dangling⟩ | ⟨mem, past⟩)
    · exact Or.inl past
    · exact Or.inr ⟨_, mem, Or.inl dangling⟩
    · exact Or.inr ⟨_, mem, Or.inr past⟩
  · rintro (past | ⟨u, mem, dangling | past⟩)
    · exact .start past
    · exact .inside mem dangling
    · exact .behind mem past

/-- Only a token with an end past the source makes another one dangle. -/
theorem Dangling.exists_past (h : t.Dangling n) :
    n < t.span.start ∨ ∃ u ∈ forest t.nested, n < u.span.start ∨ n < u.span.stop := by
  induction h with
  | start past => exact Or.inl past
  | @inside t u mem _ ih =>
    rcases ih with past | ⟨v, hv, past⟩
    · exact Or.inr ⟨u, mem_forest_of_mem mem, Or.inl past⟩
    · exact Or.inr ⟨v, mem_forest.mpr ⟨u, mem, Or.inr hv⟩, past⟩
  | @behind t u mem past =>
    exact Or.inr ⟨u, mem_forest_of_mem mem, Or.inr past⟩

end Token

-- ---------------------------------------------------------------------------
-- Rendering
-- ---------------------------------------------------------------------------

namespace Palette

variable (p : Palette) (source : Bytes)

/-- The top-level tokens that are written out in a source of `n` bytes, after
text up to `cur`: those that start no earlier than the one before has stopped
and stop in the source. -/
def accepted (n cur : Nat) : List Token → List Token
  | [] => []
  | t :: ts =>
    if cur ≤ t.span.start ∧ t.span.stop ≤ n then t :: accepted n t.span.stop ts
    else accepted n cur ts

/-- What is accepted is among the tokens that were given. -/
theorem accepted_subset (n cur : Nat) (ts : List Token) : accepted n cur ts ⊆ ts := by
  induction ts generalizing cur with
  | nil => exact List.Subset.refl _
  | cons t ts ih =>
    rw [accepted]
    split
    · exact List.cons_subset_cons t (ih _)
    · exact List.Subset.trans (ih cur) (List.subset_cons_self t ts)

/-- A token fails to be written out as its inside does. -/
theorem renderToken_failsIff {t : Token}
    (h : FailsIff source.length
      (source.length < t.span.start ∨
        ∃ u ∈ t.nested, u.Dangling source.length ∨ source.length < u.span.stop)
      (p.renderInside source t.kind t.span.stop t.span.start t.nested)) :
    FailsIff source.length (t.Dangling source.length) (p.renderToken source t) := by
  rw [renderToken_eq]
  exact h.congr Token.dangling_iff.symm

/-- The text of a region from `cur` on: it is wanted from `cur`, from the
nested tokens, and from behind each of them. -/
theorem renderInside_failsIff (ts : List Token) : ∀ kind stop cur,
    FailsIff source.length
      (source.length < cur ∨
        ∃ t ∈ ts, t.Dangling source.length ∨ source.length < t.span.stop)
      (p.renderInside source kind stop cur ts) := by
  induction ts using Token.forest_induction with
  | nil =>
    intro kind stop cur
    rw [renderInside]
    refine ((slice_failsIff source cur stop).bind fun _ => .pure _ _).congr ?_
    simp
  | cons t ts ihNested ihRest =>
    intro kind stop cur
    have htoken := p.renderToken_failsIff source (ihNested t.kind t.span.stop t.span.start)
    rw [renderInside]
    -- the text up to the token, the token, and what is right of it; where its start lies is
    -- told by the token too
    refine ((slice_failsIff source cur t.span.start).bind fun _ => htoken.bind fun _ =>
      (ihRest kind stop t.span.stop).bind fun _ => .pure _ _).congr ?_
    simp only [List.exists_mem_cons_iff, or_false, or_assoc]

/-- Between accepted tokens the text is always there, for an accepted token
stops in the source. -/
theorem renderFrom_failsIff (ts : List Token) : ∀ cur ≤ source.length,
    FailsIff source.length (∃ t ∈ accepted source.length cur ts, t.Dangling source.length)
      (p.renderFrom source cur ts) := by
  induction ts with
  | nil =>
    intro cur _
    rw [renderFrom]
    refine (FailsIff.pure _ _).congr ?_
    simp [accepted]
  | cons t ts ih =>
    intro cur hcur
    rw [renderFrom, accepted]
    by_cases haccepts : cur ≤ t.span.start ∧ t.span.stop ≤ source.length
    · rw [if_pos haccepts, if_pos (show Accepts source cur t from haccepts)]
      -- the text before the token starts in the source, so it is never what fails
      have htoken := p.renderToken_failsIff source (p.renderInside_failsIff source t.nested _ _ _)
      refine ((slice_failsIff source cur t.span.start).bind fun _ => htoken.bind fun _ =>
        (ih t.span.stop haccepts.2).bind fun _ => .pure _ _).congr ?_
      simp only [List.exists_mem_cons_iff, or_false, Nat.not_lt.mpr hcur, false_or]
    · rw [if_neg haccepts, if_neg (show ¬ Accepts source cur t from haccepts)]
      exact ih cur hcur

end Palette

/--
**Highlighting fails exactly on dangling positions.** Take a source, any tokens
and any palette. Rendering fails, and then for want of text from past the end,
exactly if one of the accepted tokens dangles; otherwise it succeeds. So tokens
whose ends all lie in the source never make it fail, in whatever order they
come, whether or not they stop before they start or leave the tokens around
them. Nor does a length that wraps around: for offsets of 64 bits each stretch
is the substring of the wrapped length, which only a start past the end denies.
-/
theorem render_dangling (p : Palette) (source : Bytes) (stream : List Token) :
    let n := source.length
    ((∃ offset, n < offset ∧ p.render source stream = .error (.pastEnd offset)) ↔
        ∃ t ∈ Palette.accepted n 0 stream, t.Dangling n) ∧
      ((∃ out, p.render source stream = .ok out) ↔
        ¬ ∃ t ∈ Palette.accepted n 0 stream, t.Dangling n) ∧
      ((∀ t ∈ Token.forest stream, t.span.start ≤ n ∧ t.span.stop ≤ n) →
        ∃ out, p.render source stream = .ok out) ∧
      (n < 2 ^ 64 → ∀ start stop : UInt64,
        slice source start.toNat stop.toNat = substring source start (stop - start)) := by
  intro n
  have hrender : FailsIff n (∃ t ∈ Palette.accepted n 0 stream, t.Dangling n)
      (p.render source stream) :=
    p.renderFrom_failsIff source stream 0 (Nat.zero_le n)
  refine ⟨hrender.error_iff, hrender.ok_iff, ?_, slice_eq_substring⟩
  intro hends
  refine hrender.ok_iff.mpr ?_
  -- a token can only dangle by an end past the source
  rintro ⟨t, ht, hdangling⟩
  have hmem := Palette.accepted_subset n 0 stream ht
  rcases hdangling.exists_past with hpast | ⟨u, hu, hpast⟩
  · have := hends t (Token.mem_forest.mpr ⟨t, hmem, Or.inl rfl⟩)
    omega
  · have := hends u (Token.mem_forest.mpr ⟨t, hmem, Or.inr hu⟩)
    omega

end StoryLex
