import StoryLex.Proofs.Stepwise

/-!
# StoryLex — scanning moves on and comes to an end

Nothing forces the machine to move: it may leave a region at the place where it
found its end, take back the word `Self`, or read a zero that is a byte of the
text where the end of the text reads the same. Yet it never stands still for
long. A turn that leaves no region passes a byte, and a turn that leaves one
makes the stack smaller, so the bytes ahead, counted twice, together with the
regions that are open (`Machine.work`) grow less with every turn but one: the
turn that finds nothing left.

* `Machine.Outcome.work_lt` — the measure.
* `Machine.Sound.returns` — from every state the search for a token comes to
  its end, in no more turns than there is work.
* `Lexer.next_returns`, `Lexer.run_drains` — so do `next` and `run`, with what
  they hand out.
* `lex_progress` — all of it, for every text and every session.
-/

namespace StoryLex

namespace Machine

variable {legacy : Bool} {source : Bytes} {s t u : Machine} {T : Turn} {token : Option Token}
  {faults : List Diagnostic} {k : Nat}

-- ---------------------------------------------------------------------------
-- Counted runs
-- ---------------------------------------------------------------------------

/-- Goes on for `k` turns, or until the search for a token ends. -/
def runFor (legacy : Bool) (source : Bytes) : Nat → Turn → Turn
  | 0, T => T
  | k + 1, .on s => runFor legacy source k (s.turn legacy source)
  | _ + 1, T => T

/-- Once the search has ended, more turns change nothing. -/
@[simp] theorem runFor_back (k : Nat) :
    runFor legacy source k (.back token faults u) = .back token faults u := by
  cases k <;> rfl

/-- Called until nothing is left, the machine hands out a stream in `k` turns. -/
inductive Drains (legacy : Bool) (source : Bytes) :
    Nat → Machine → List Token → Machine → Prop where
  | done {k : Nat} {s u : Machine} {faults : List Diagnostic}
      (ended : runFor legacy source k (.on s) = .back none faults u) :
      Drains legacy source k s [Token.eof u.position] u
  | more {k j : Nat} {s u v : Machine} {t : Token} {faults : List Diagnostic}
      {stream : List Token} (found : runFor legacy source k (.on s) = .back (some t) faults u)
      (rest : Drains legacy source j u stream v) : Drains legacy source (k + j) s (t :: stream) v

/-- The search has one end. -/
theorem Leads.runFor_eq {R U : Turn} (h : Leads legacy source T U)
    (hU : U = .back token faults u) (hR : runFor legacy source k T = R)
    (hback : ∀ t, R ≠ .on t) : R = U := by
  induction h generalizing k with
  | refl T => rw [← hR, hU, runFor_back]
  | @next s T rest ih =>
    cases k with
    | zero => exact absurd hR.symm (hback s)
    | succ k => exact ih hU hR

-- ---------------------------------------------------------------------------
-- The measure
-- ---------------------------------------------------------------------------

/-- How many turns there are still to take, at most: one for each byte ahead,
and one more for each region, which is open or starts at a byte ahead. -/
def work (source : Bytes) (s : Machine) : Nat :=
  2 * (source.length - s.position) + s.opened.length

theorem length_opened_hand {x : Token} (h : (hand x t).state? = some u) :
    u.opened.length = t.opened.length := by
  simpa using congrArg List.length (state?_hand h).2.2

/-- Every turn leaves less to do, but for the one that finds nothing left. -/
theorem Outcome.work_lt (h : Outcome source s T) (hT : T.state? = some u) :
    u.work source < s.work source ∨
      (∃ faults, T = .back none faults u) ∧ u.work source = 0 := by
  unfold work
  cases h with
  | pass modes opened moved inText =>
    cases hT
    rw [opened]
    omega
  | leaf modes opened moved inText =>
    rw [length_opened_hand hT, (state?_hand hT).2.1, opened]
    omega
  | enter stack modes opened kind moved inText =>
    cases hT
    -- the opening mark counts twice, and the region it opens once
    rw [opened, List.length_cons]
    omega
  | leave modes opened kept inText =>
    rw [length_opened_hand hT, (state?_hand hT).2.1, opened, List.length_cons]
    omega
  | exhausted outside modes opened ended =>
    cases hT
    rw [opened, outside, ended]
    exact Or.inr ⟨⟨_, rfl⟩, by simp⟩

/-- A turn that goes on and leaves no region passes a byte. -/
theorem Outcome.position_lt (h : Outcome source s T) (hT : T = .on u)
    (hdeeper : s.opened.length ≤ u.opened.length) : s.position < u.position := by
  have hstate := Turn.state?_of_on hT
  cases h with
  | pass modes opened moved inText | enter stack modes opened kind moved inText =>
    cases hT
    exact moved
  | leaf modes opened moved inText =>
    rw [(state?_hand hstate).2.1]
    exact moved
  | leave modes opened kept inText =>
    -- a turn that leaves a region makes the stack smaller
    rw [length_opened_hand hstate, opened, List.length_cons] at hdeeper
    omega
  | exhausted outside modes opened ended => cases hT

/-- **From every state the search for a token comes to its end**, and the turns
it takes are work done. -/
theorem Sound.returns (legacy : Bool) (hs : Sound source s) :
    ∃ k token faults u, runFor legacy source k (.on s) = .back token faults u ∧
      k + u.work source ≤ s.work source + if token.isNone then 1 else 0 := by
  induction hn : s.work source using Nat.strong_induction_on generalizing s with
  | _ n ih =>
    subst hn
    have houtcome := turn_outcome legacy hs
    cases hturn : s.turn legacy source with
    | stuck => exact absurd hturn houtcome.ne_stuck
    | on t =>
      have hstate := Turn.state?_of_on hturn
      obtain hless | ⟨⟨faults, hback⟩, -⟩ := houtcome.work_lt hstate
      · -- one turn, and those from the next state on
        obtain ⟨k, token, faults, u, hrun, hk⟩ := ih _ hless (houtcome.sound hs hstate) rfl
        refine ⟨k + 1, token, faults, u, ?_, by omega⟩
        rw [runFor, hturn, hrun]
      · rw [hturn] at hback
        cases hback
    | back token faults u =>
      have hstate := Turn.state?_of_back hturn
      refine ⟨1, token, faults, u, by rw [runFor, hturn, runFor], ?_⟩
      obtain hless | ⟨⟨faults', hback⟩, hnone⟩ := houtcome.work_lt hstate
      · omega
      · rw [hturn] at hback
        cases hback
        rw [hnone]
        simp

/-- What the machine comes to by going on, it visits. -/
theorem Leads.visits {U : Turn} (h : Leads legacy source T U) (hT : T = .on s)
    (hU : U.state? = some u) : Visits legacy source s u := by
  induction h generalizing s with
  | refl T =>
    subst hT
    cases hU
    exact .refl
  | @next s U rest ih =>
    cases hT
    cases hturn : s.turn legacy source with
    | on t =>
      have hstate := Turn.state?_of_on hturn
      exact (Visits.refl.turn hstate).trans (ih hturn hU)
    | back | stuck =>
      -- the search ends with this turn
      rw [hturn] at rest
      cases rest
      exact Visits.refl.turn (hturn ▸ hU)

end Machine

-- ---------------------------------------------------------------------------
-- Sessions
-- ---------------------------------------------------------------------------

namespace Lexer

open Machine

variable {l : Lexer} {source : Bytes}

/-- Between two calls the machine of a lexer satisfies the invariant. -/
theorem sound_machine (hl : l.cursor.In source) : Sound source l.machine :=
  ⟨List.mem_cons_self, rfl, hl.offset_le⟩

theorem work_machine (l : Lexer) (source : Bytes) :
    l.machine.work source = 2 * (source.length - l.position) :=
  rfl

/-- A call of `next` returns, and the machine hands out the same. -/
theorem next_returns (hl : l.cursor.In source) :
    ∃ k faults, runFor l.options.legacyIdentifiers source k (.on l.machine) =
        .back l.next.1 faults l.next.2.machine ∧
      k + l.next.2.machine.work source ≤
        l.machine.work source + if l.next.1.isNone then 1 else 0 := by
  obtain ⟨k, token, faults, u, hrun, hk⟩ :=
    (sound_machine hl).returns l.options.legacyIdentifiers
  obtain ⟨faults', hleads, -⟩ := next_leads hl
  cases hleads.runFor_eq rfl hrun (by simp)
  exact ⟨k, faults, hrun, hk⟩

/-- A run returns. What its calls spend adds up to the work there was. -/
theorem run_drains (hl : l.cursor.In source) :
    ∃ k ≤ l.machine.work source + 1,
      Drains l.options.legacyIdentifiers source k l.machine l.run.1 l.run.2.machine := by
  induction l using run.induct with
  | case1 l l' hn =>
    obtain ⟨k, faults, hrun, hk⟩ := next_returns hl
    rw [hn] at hrun hk
    rw [run_of_next_none hn]
    exact ⟨k, by simp at hk; omega, .done hrun⟩
  | case2 l t l' hn ts l'' hrun ih =>
    obtain ⟨k, faults, hfound, hk⟩ := next_returns hl
    rw [hn] at hfound hk
    -- the turns of this call, and of those that follow
    obtain ⟨j, hj, hrest⟩ := ih (next_in hl hn)
    rw [next_options hn] at hrest
    rw [run_of_next_some hn]
    exact ⟨k + j, by simp at hk; omega, .more hfound hrest⟩

/-- The states in which the calls of a session leave the lexer are states of
its machine. -/
theorem after_visits (source : Bytes) (options : LexOptions) (calls : List Call) :
    ((start source options).after calls).options = options ∧
      Visits options.legacyIdentifiers source (Machine.start source options)
        ((start source options).after calls).machine := by
  have hstart : (start source options).machine = Machine.start source options := by
    rw [machine, position_start]
    rfl
  have hkept := after_preserves
    (P := fun l => l.options = options ∧ l.cursor.In source ∧
      Visits options.legacyIdentifiers source (Machine.start source options) l.machine)
    ?_ ⟨rfl, start_in source options, hstart ▸ .refl⟩ calls
  · exact ⟨hkept.1, hkept.2.2⟩
  · rintro l ⟨hoptions, hl, hvisits⟩
    obtain ⟨faults, hleads, -⟩ := next_leads hl
    rw [hoptions] at hleads
    exact ⟨hoptions, next_in hl rfl, hvisits.trans (hleads.visits rfl rfl)⟩

/-- Each token takes a byte at least, and the end of the input takes none. -/
theorem length_run_le (l : Lexer) : l.run.1.length ≤ l.cursor.rest.length + 1 := by
  induction l using run.induct with
  | case1 l l' hn => simp [run_of_next_none hn]
  | case2 l t l' hn ts l'' hrun ih =>
    have hless := length_rest_next_lt hn
    rw [run_of_next_some hn, List.length_cons]
    omega

end Lexer

open Machine in
/-- **Scanning moves on, and so it ends.** In every state that the machine comes
to, it stands in its text; a turn that goes on without leaving a region has
passed a byte, wherever the machine stands later; and the search for a token
ends. Whatever calls were made, `next` and `run` return, with what the machine
hands out, after at most two turns for each byte ahead and one more; and a run
hands out at most one token for each byte, and the end of the input.

The second statement is about the rounds of both loops. Outside all regions a
turn that goes on is a round that hands out nothing. Inside one, a round that
does not end the region is a single turn, or the turn that enters a template
and all those up to its end. -/
theorem lex_progress (source : Bytes) (options : LexOptions) :
    (∀ s, Visits options.legacyIdentifiers source (Machine.start source options) s →
      s.position ≤ source.length ∧
        (∀ t, s.turn options.legacyIdentifiers source = .on t →
          s.opened.length ≤ t.opened.length →
            ∀ u, Visits options.legacyIdentifiers source t u → s.position < u.position) ∧
        ∃ k ≤ s.work source + 1, ∃ token faults u,
          runFor options.legacyIdentifiers source k (.on s) = .back token faults u) ∧
      (∀ calls, let l := (Lexer.start source options).after calls
        Visits options.legacyIdentifiers source (Machine.start source options) l.machine ∧
          (∃ k ≤ 2 * (source.length - l.position) + 1, ∃ faults,
            runFor options.legacyIdentifiers source k (.on l.machine) =
              .back l.next.1 faults l.next.2.machine) ∧
          ∃ k ≤ 2 * (source.length - l.position) + 1,
            Drains options.legacyIdentifiers source k l.machine l.run.1 l.run.2.machine) ∧
      (lex source options).1.length ≤
        source.length - min options.startOffset source.length + 1 := by
  refine ⟨?_, ?_, ?_⟩
  · intro s hs
    have hsound := hs.sound (sound_start source options)
    refine ⟨hsound.inText, ?_, ?_⟩
    · intro t hturn hdeeper u hu
      have hstate := Turn.state?_of_on hturn
      have houtcome := turn_outcome options.legacyIdentifiers hsound
      have hle := hu.position_le (houtcome.sound hsound hstate)
      exact (houtcome.position_lt hturn hdeeper).trans_le hle
    · obtain ⟨k, token, faults, u, hrun, hk⟩ := hsound.returns options.legacyIdentifiers
      refine ⟨k, ?_, token, faults, u, hrun⟩
      split at hk <;> omega
  · intro calls l
    obtain ⟨hoptions, hvisits⟩ := Lexer.after_visits source options calls
    have hin : l.cursor.In source := Lexer.after_in (Lexer.start_in source options) calls
    obtain ⟨k, faults, hnext, hk⟩ := Lexer.next_returns hin
    obtain ⟨j, hj, hrun⟩ := Lexer.run_drains hin
    rw [hoptions] at hnext hrun
    simp only [Lexer.work_machine] at hk hj
    refine ⟨hvisits, ⟨k, ?_, faults, hnext⟩, j, hj, hrun⟩
    split at hk <;> omega
  · have hlen := (Lexer.start source options).length_run_le
    have hrest := (Lexer.start_in source options).length_rest
    have hpos := Lexer.position_start source options
    rw [Lexer.position] at hpos
    show (Lexer.start source options).run.1.length ≤ _
    omega

end StoryLex
