import StoryLex.Diagnostic
import StoryLex.Proofs.Places

/-!
# StoryLex — accounts of skipped bytes

Diagnostics tell which bytes were skipped. An **account** (`Accounts`) of a
stretch of text says that they tell it exactly: a byte in no token is told once
if it is no filler and never if it is, a byte in a token as often as the inside
of that token calls for, and no byte outside the stretch is told at all.

* `Accounts.append` — accounts of two stretches that meet make one of both.
  Every loop of the lexer is read through it, a stretch at a time.
* `Accounts.ofFiller`, `Accounts.ofJunk`, `Accounts.ofToken` — the three
  stretches there are.
* `Accounts.coalesce` — telling touching pieces as one changes no count.
-/

namespace StoryLex

-- ---------------------------------------------------------------------------
-- How often a byte is told
-- ---------------------------------------------------------------------------

/-- Whether a diagnostic tells that the byte at `i` was skipped. -/
def Diagnostic.Skips (d : Diagnostic) (i : Nat) : Prop :=
  d.fault = .unrecognized ∧ d.span.Covers i

instance (d : Diagnostic) (i : Nat) : Decidable (d.Skips i) :=
  inferInstanceAs (Decidable (_ ∧ _))

/-- How many diagnostics tell that the byte at `i` was skipped. -/
def skipCount (ds : List Diagnostic) (i : Nat) : Nat := ds.countP (·.Skips i)

@[simp] theorem skipCount_nil (i : Nat) : skipCount [] i = 0 := rfl

theorem skipCount_cons (d : Diagnostic) (ds : List Diagnostic) (i : Nat) :
    skipCount (d :: ds) i = skipCount ds i + if d.Skips i then 1 else 0 := by
  simp [skipCount, List.countP_cons]

theorem skipCount_append (ds es : List Diagnostic) (i : Nat) :
    skipCount (ds ++ es) i = skipCount ds i + skipCount es i :=
  List.countP_append

/-- No skipped piece covers a byte that is told by none. -/
theorem not_covers_of_skipCount_eq_zero {ds : List Diagnostic} {i : Nat}
    (h : skipCount ds i = 0) {d : Diagnostic} (hd : d ∈ ds) (hfault : d.fault = .unrecognized) :
    ¬ d.span.Covers i := by
  intro hi
  rw [skipCount, List.countP_eq_zero] at h
  exact h d hd (decide_eq_true ⟨hfault, hi⟩)

namespace Diagnostic

variable {d : Diagnostic} {ds : List Diagnostic}

/-- Two pieces that touch are told once each where they are told as one. -/
theorem skipCount_join (i : Nat) (hd : d.span.start < d.span.stop)
    (hds : ∀ e ∈ ds, e.span.start < e.span.stop) :
    skipCount (join d ds) i = skipCount (d :: ds) i := by
  cases ds with
  | nil => rfl
  | cons e es =>
    by_cases hc : Continues d e
    · have he := hds e (List.mem_cons_self ..)
      obtain ⟨hdf, hef, htouch⟩ := hc
      rw [join, if_pos ⟨hdf, hef, htouch⟩, skipCount_cons, skipCount_cons, skipCount_cons]
      -- of the two pieces at most one covers the byte
      simp only [Skips, Span.Covers, hdf, hef, true_and]
      split_ifs <;> omega
    · rw [join, if_neg hc]

/-- Joining pieces that are not empty never gives an empty one. -/
theorem lt_of_mem_join (hd : d.span.start < d.span.stop)
    (hds : ∀ e ∈ ds, e.span.start < e.span.stop) :
    ∀ e ∈ join d ds, e.span.start < e.span.stop := by
  cases ds with
  | nil => simpa [join] using hd
  | cons e es =>
    rw [List.forall_mem_cons] at hds
    by_cases hc : Continues d e
    · rw [join, if_pos hc, List.forall_mem_cons]
      -- the second piece starts where the first one stops
      have := hc.2.2
      exact ⟨by dsimp only; omega, hds.2⟩
    · rw [join, if_neg hc]
      exact List.forall_mem_cons.mpr ⟨hd, List.forall_mem_cons.mpr hds⟩

/-- Runs of pieces that are not empty are not empty. -/
theorem lt_of_mem_coalesce (hds : ∀ e ∈ ds, e.span.start < e.span.stop) :
    ∀ e ∈ coalesce ds, e.span.start < e.span.stop := by
  induction ds with
  | nil => simp [coalesce]
  | cons d ds ih =>
    rw [List.forall_mem_cons] at hds
    exact lt_of_mem_join hds.1 (ih hds.2)

/-- A byte is told as often by whole runs as by their pieces. -/
theorem skipCount_coalesce (i : Nat) (hds : ∀ e ∈ ds, e.span.start < e.span.stop) :
    skipCount (coalesce ds) i = skipCount ds i := by
  induction ds with
  | nil => rfl
  | cons d ds ih =>
    rw [List.forall_mem_cons] at hds
    -- the piece in front meets runs that are not empty either
    have hjoin := skipCount_join i hds.1 (lt_of_mem_coalesce hds.2)
    rw [skipCount_cons, ih hds.2, ← skipCount_cons] at hjoin
    exact hjoin

end Diagnostic

-- ---------------------------------------------------------------------------
-- How often it should be told
-- ---------------------------------------------------------------------------

/-- How often the byte `x` at `i` should be told, among tokens of one level:
by the token around it, or else once unless it is filler. -/
def owed (filler : UInt8 → Bool) (inside : Token → Nat → Option UInt8 → Nat)
    (tokens : List Token) (i : Nat) (x : Option UInt8) : Nat :=
  match tokens.find? (·.span.Covers i) with
  | some t => inside t i x
  | none => if x.all filler then 0 else 1

/-- The tokens and diagnostics of the stretch from `lo` to `hi` account for its
bytes, and for no others. -/
structure Accounts (text : Bytes) (filler : UInt8 → Bool)
    (inside : Token → Nat → Option UInt8 → Nat) (lo hi : Nat) (tokens : List Token)
    (faults : List Diagnostic) : Prop where
  le     : lo ≤ hi
  bounds : ∀ t ∈ tokens, lo ≤ t.span.start ∧ t.span.stop ≤ hi
  spans  : ∀ d ∈ faults, d.span.start < d.span.stop
  count  : ∀ i, skipCount faults i =
             if lo ≤ i ∧ i < hi then owed filler inside tokens i text[i]? else 0

variable {text : Bytes} {filler : UInt8 → Bool} {inside : Token → Nat → Option UInt8 → Nat}
  {lo mid hi : Nat} {ts us : List Token} {fs gs : List Diagnostic}

theorem find?_covers_eq_none {i : Nat} (h : ∀ t ∈ ts, ¬ t.span.Covers i) :
    ts.find? (fun t => t.span.Covers i) = none := by
  rw [List.find?_eq_none]
  simpa using h

/-- A byte in no token is owed one count, or none if it is filler. -/
theorem owed_of_not_covers {i : Nat} {x : Option UInt8} (h : ∀ t ∈ ts, ¬ t.span.Covers i) :
    owed filler inside ts i x = if x.all filler then 0 else 1 := by
  rw [owed, find?_covers_eq_none h]

/-- A byte that the later tokens do not cover is owed what the earlier ones
say. -/
theorem owed_append_left {i : Nat} {x : Option UInt8} (h : ∀ u ∈ us, ¬ u.span.Covers i) :
    owed filler inside (ts ++ us) i x = owed filler inside ts i x := by
  rw [owed, owed, List.find?_append, find?_covers_eq_none h, Option.or_none]

/-- A byte that the earlier tokens do not cover is owed what the later ones
say. -/
theorem owed_append_right {i : Nat} {x : Option UInt8} (h : ∀ t ∈ ts, ¬ t.span.Covers i) :
    owed filler inside (ts ++ us) i x = owed filler inside us i x := by
  rw [owed, owed, List.find?_append, find?_covers_eq_none h, Option.none_or]

namespace Accounts

/-- Accounts of two stretches that meet make one of both. -/
theorem append (h : Accounts text filler inside lo mid ts fs)
    (h' : Accounts text filler inside mid hi us gs) :
    Accounts text filler inside lo hi (ts ++ us) (fs ++ gs) := by
  have hle := h.le
  have hle' := h'.le
  refine ⟨hle.trans hle', ?_, ?_, ?_⟩
  · intro t ht
    rcases List.mem_append.mp ht with ht | ht
    · have := h.bounds t ht
      exact ⟨this.1, by omega⟩
    · have := h'.bounds t ht
      exact ⟨by omega, this.2⟩
  · exact List.forall_mem_append.mpr ⟨h.spans, h'.spans⟩
  · intro i
    rw [skipCount_append, h.count, h'.count]
    -- a byte lies before the meeting point or behind it, and so does its token
    rcases Nat.lt_or_ge i mid with hi | hi
    · have hus : ∀ u ∈ us, ¬ u.span.Covers i := by
        intro u hu hc
        have := (h'.bounds u hu).1
        have := hc.1
        omega
      rw [owed_append_left hus]
      split_ifs <;> omega
    · have hts : ∀ t ∈ ts, ¬ t.span.Covers i := by
        intro t ht hc
        have := (h.bounds t ht).2
        have := hc.2
        omega
      rw [owed_append_right hts]
      split_ifs <;> omega

theorem nil (lo : Nat) : Accounts text filler inside lo lo [] [] := by
  refine ⟨le_rfl, by simp, by simp, ?_⟩
  intro i
  rw [if_neg (by omega)]
  rfl

/-- A stretch of filler. -/
theorem ofFiller (hle : lo ≤ hi) (h : ∀ i, lo ≤ i → i < hi → (text[i]?).all filler = true) :
    Accounts text filler inside lo hi [] [] := by
  refine ⟨hle, by simp, by simp, ?_⟩
  intro i
  split
  · -- no token covers the byte, and filler is owed nothing
    next hi => rw [owed_of_not_covers (by simp), if_pos (h i hi.1 hi.2)]; rfl
  · rfl

/-- A stretch of junk, told as one piece. -/
theorem ofJunk (hlt : lo < hi) (h : ∀ i, lo ≤ i → i < hi → (text[i]?).all filler = false) :
    Accounts text filler inside lo hi [] [.unrecognized ⟨lo, hi⟩] := by
  refine ⟨Nat.le_of_lt hlt, by simp, by simpa [Diagnostic.unrecognized] using hlt, ?_⟩
  intro i
  rw [skipCount_cons, skipCount_nil, Nat.zero_add]
  simp only [Diagnostic.Skips, Diagnostic.unrecognized, Span.Covers, true_and]
  split
  · next hi => rw [owed_of_not_covers (by simp), h i hi.1 hi.2]; rfl
  · rfl

/-- A stretch that is one token, whose inside is accounted for. -/
theorem ofToken {t : Token} (hle : t.span.start ≤ t.span.stop)
    (hspans : ∀ d ∈ fs, d.span.start < d.span.stop)
    (h : ∀ i, skipCount fs i = if t.span.Covers i then inside t i text[i]? else 0) :
    Accounts text filler inside t.span.start t.span.stop [t] fs := by
  refine ⟨hle, by simp, hspans, ?_⟩
  intro i
  rw [h i]
  show _ = if t.span.Covers i then owed filler inside [t] i text[i]? else 0
  -- the only token is the one around the byte, or there is none
  by_cases hc : t.span.Covers i
  · rw [if_pos hc, if_pos hc, owed, List.find?_cons_of_pos (by simpa using hc)]
  · rw [if_neg hc, if_neg hc]

/-- An account of a stretch in the front part of a text is one in the whole. -/
theorem of_take {n : Nat} (hn : hi ≤ n)
    (h : Accounts (text.take n) filler inside lo hi ts fs) :
    Accounts text filler inside lo hi ts fs := by
  refine ⟨h.le, h.bounds, h.spans, ?_⟩
  intro i
  rw [h.count i]
  split
  · next hi => rw [List.getElem?_take_of_lt (by omega)]
  · rfl

/-- Telling touching pieces as one changes no count. -/
theorem coalesce (h : Accounts text filler inside lo hi ts fs) :
    Accounts text filler inside lo hi ts (Diagnostic.coalesce fs) := by
  refine ⟨h.le, h.bounds, Diagnostic.lt_of_mem_coalesce h.spans, ?_⟩
  intro i
  rw [Diagnostic.skipCount_coalesce i h.spans]
  exact h.count i

/-- Only bytes of the stretch are told. -/
theorem fault_bounds (h : Accounts text filler inside lo hi ts fs) {d : Diagnostic} (hd : d ∈ fs)
    (hfault : d.fault = .unrecognized) : lo ≤ d.span.start ∧ d.span.stop ≤ hi := by
  have hlt := h.spans d hd
  -- a byte that is told lies in the stretch
  have hin : ∀ i, d.span.Covers i → lo ≤ i ∧ i < hi := by
    intro i hi
    by_contra hout
    have hcount := h.count i
    rw [if_neg hout] at hcount
    exact not_covers_of_skipCount_eq_zero hcount hd hfault hi
  have hfirst := hin d.span.start ⟨le_rfl, hlt⟩
  have hlast := hin (d.span.stop - 1) ⟨by omega, by omega⟩
  omega

/-- Among no tokens at all, filler is not told. -/
theorem not_covers_filler (h : Accounts text filler inside lo hi [] fs) {d : Diagnostic}
    (hd : d ∈ fs) (hfault : d.fault = .unrecognized) {i : Nat}
    (hi : (text[i]?).all filler = true) : ¬ d.span.Covers i := by
  refine not_covers_of_skipCount_eq_zero ?_ hd hfault
  rw [h.count i, owed_of_not_covers (by simp), if_pos hi, ite_self]

end Accounts

end StoryLex
