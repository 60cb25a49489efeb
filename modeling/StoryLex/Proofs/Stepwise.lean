import StoryLex.Proofs.Coverage
import StoryLex.Proofs.Questions

/-!
# StoryLex — the machine takes the lexer's steps

The machine with a stack and the lexer with a scan for each region are the same
lexer. A loop of the machine is followed turn by turn along the scan that it
stands for, in whatever regions it finds itself: what lies around a region is
carried along and left alone.

* `Machine.Leads` — the machine comes from one turn to another by going on.
* `Machine.scanBody_leads`, `Machine.scanString_leads`, `Machine.take_leads`,
  `Machine.generalTurn_leads` — the loops, from the inside out.
* `Lexer.next_leads` — a call of `next`.
-/

namespace StoryLex

namespace Machine

variable {legacy : Bool} {source : Bytes} {s : Machine} {g : Opened} {gs : List Opened}
  {mode : Mode} {c : Cursor} {e : Expectation} {T U V : Turn}

-- ---------------------------------------------------------------------------
-- Going on
-- ---------------------------------------------------------------------------

/-- The machine comes from one turn to another by going on. -/
inductive Leads (legacy : Bool) (source : Bytes) : Turn → Turn → Prop where
  | refl (T : Turn) : Leads legacy source T T
  | next {s : Machine} {T : Turn} (rest : Leads legacy source (s.turn legacy source) T) :
      Leads legacy source (.on s) T

theorem Leads.trans (h : Leads legacy source T U) (h' : Leads legacy source U V) :
    Leads legacy source T V := by
  induction h with
  | refl T => exact h'
  | next rest ih => exact .next (ih h')

/-- What a turn inside a region comes to, by the answers to its questions. -/
theorem turn_of_answers {piece : Piece} {p : Nat} (hopened : s.opened = g :: gs)
    (hmode : s.modes.getLast? = some mode) (hpos : s.position = p)
    (h : mode.Answers legacy source p piece) :
    s.turn legacy source =
      match piece with
      | .close more => s.leave source g gs true (more + 1)
      | .filler => .on { s with position := p + 1 }
      | .leaf m => s.take source p (.leaf m)
      | .junk _ => s.skip source p := by
  subst hpos
  cases piece with
  | close more =>
    have hclose : mode.close? source s.position = some (true, more + 1) := h
    simp only [turn, hopened, insideTurn, hmode, hclose]
  | filler =>
    obtain ⟨hclose, htext⟩ := h
    simp only [turn, hopened, insideTurn, hmode, hclose, if_pos htext]
  | leaf m =>
    obtain ⟨hclose, htext, hfound⟩ := h
    simp only [turn, hopened, insideTurn, hmode, hclose, if_neg htext, hfound]
  | junk more =>
    obtain ⟨hclose, htext, hfound, -⟩ := h
    simp only [turn, hopened, insideTurn, hmode, hclose, if_neg htext, hfound]

/-- A turn in a region that ends here leaves it. -/
theorem turn_of_close {closed : Bool} {width p : Nat} (hopened : s.opened = g :: gs)
    (hmode : s.modes.getLast? = some mode) (hpos : s.position = p)
    (h : mode.close? source p = some (closed, width)) :
    s.turn legacy source = s.leave source g gs closed width := by
  subst hpos
  simp only [turn, hopened, insideTurn, hmode, h]

-- ---------------------------------------------------------------------------
-- The inside of a region
-- ---------------------------------------------------------------------------

/-- The end of the region `g`, when `body` was read inside it from `s` on. -/
def finish (source : Bytes) (s : Machine) (g : Opened) (gs : List Opened) (body : Body) : Turn :=
  { s with position := body.stop.offset, faults := s.faults ++ body.faults }.leave source
    { g with tokens := g.tokens ++ body.tokens } gs body.closed 0

/-- A region that ends here. -/
theorem leave_leads {body : Body} {closed : Bool} {width : Nat} (htokens : body.tokens = [])
    (hfaults : body.faults = []) (hclosed : body.closed = closed)
    (hstop : body.stop.offset = s.position + width) :
    Leads legacy source (s.leave source g gs closed width) (s.finish source g gs body) := by
  simp only [finish, leave, htokens, hfaults, hclosed, hstop, List.append_nil, Nat.add_zero]
  exact .refl _

/-- A token inside the region `g`. -/
theorem take_leaf_eq {m : Match} {p : Nat} (hopened : s.opened = g :: gs) :
    s.take source p (.leaf m) =
      .on { s with
        position := p + (m.more + 1)
        opened :=
          { g with
            tokens := g.tokens ++ [tokenOf source m.kind p (p + (m.more + 1))] } :: gs } := by
  simp only [take, hand, hopened]

/-- The machine reads the inside of a region as its scan does, whatever lies
around it. -/
theorem scanBody_leads {pieceAt : Option UInt8 → UInt8 → Bytes → Piece} {filler : UInt8 → Bool}
    {kinds : List Kind} {width lo n : Nat} (hspec : PieceSpec pieceAt filler kinds width)
    (hreads : mode.Reads legacy source lo n pieceAt) (hc : c.In (source.take n))
    (hlo : lo ≤ c.offset) :
    ∀ (s : Machine) (g : Opened), s.modes.getLast? = some mode → s.opened = g :: gs →
      s.position = c.offset →
        Leads legacy source (.on s) (s.finish source g gs (scanBody pieceAt c)) := by
  fun_induction scanBody pieceAt c with
  | case1 c h =>
    intro s g hmode hopened hpos
    refine .next ?_
    -- nothing is left to read, so the region is cut off
    rw [turn_of_close hopened hmode hpos (hreads.of_end hc h)]
    exact leave_leads rfl rfl rfl hpos.symm
  | case2 c b tail h more hpiece =>
    intro s g hmode hopened hpos
    have hstop := Cursor.offset_advance (Cursor.succ_le_length_rest h (hspec.of_close hpiece).2)
    have hanswer := hreads.of_piece hc hlo h
    rw [hpiece] at hanswer
    refine .next ?_
    rw [turn_of_answers hopened hmode hpos hanswer]
    exact leave_leads rfl rfl rfl (hpos ▸ hstop)
  | case3 c b tail h hpiece ih =>
    intro s g hmode hopened hpos
    have hstop := Cursor.offset_advance (Cursor.succ_le_length_rest h (Nat.zero_le _))
    have hanswer := hreads.of_piece hc hlo h
    rw [hpiece] at hanswer
    refine .next ?_
    rw [turn_of_answers hopened hmode hpos hanswer]
    exact ih (hc.advance 1) (hlo.trans (c.offset_le_advance 1)) _ g hmode hopened hstop.symm
  | case4 c b tail h m hpiece found body ih =>
    intro s g hmode hopened hpos
    have hstop := Cursor.offset_advance (Cursor.succ_le_length_rest h (hspec.of_leaf hpiece).2)
    have hanswer := hreads.of_piece hc hlo h
    rw [hpiece] at hanswer
    refine .next ?_
    rw [turn_of_answers hopened hmode hpos hanswer]
    dsimp only
    rw [take_leaf_eq hopened, ← hstop, tokenOf_eq hc (hc.advance _).offset_le_take]
    -- the token goes to the region, which is read on behind it
    have hrest := ih (hc.advance _) (hlo.trans (c.offset_le_advance _))
      { s with
        position := (c.advance (m.more + 1)).offset
        opened := { g with tokens := g.tokens ++ [found.token] } :: gs }
      { g with tokens := g.tokens ++ [found.token] } hmode rfl rfl
    simp only [finish, List.append_assoc, List.singleton_append] at hrest ⊢
    exact hrest
  | case5 c b tail h more hpiece next body ih =>
    intro s g hmode hopened hpos
    have hanswer := hreads.of_piece hc hlo h
    rw [hpiece] at hanswer
    have hstop := Cursor.offset_advance (Cursor.succ_le_length_rest h (hspec.of_junk hpiece).1)
    refine .next ?_
    rw [turn_of_answers hopened hmode hpos hanswer]
    dsimp only
    -- what is skipped is told, and the region is read on behind it
    rw [skip, ← hanswer.2.2.2, ← hstop]
    have hrest := ih (hc.advance _) (hlo.trans (c.offset_le_advance _))
      { s with
        position := next.offset
        faults := s.faults ++ [.unrecognized (c.spanTo next)] } g hmode hopened rfl
    simp only [finish, List.append_assoc, List.singleton_append] at hrest ⊢
    exact hrest

-- ---------------------------------------------------------------------------
-- Regions
-- ---------------------------------------------------------------------------

/-- Hands on what was found. -/
def deliver (s : Machine) (found : Found) : Turn :=
  hand found.token { s with position := found.stop.offset, faults := s.faults ++ found.faults }

/-- Where its inside ends, a region that was entered in `s` is a token found in
`s`: the stack and the regions around it are as they were. -/
theorem region_leads {body : Body} {n : Nat} (hc : c.In (source.take n))
    (hstop : body.stop.offset ≤ n)
    (hbody : ∀ t : Machine, t.modes.getLast? = some mode →
      t.opened = ⟨mode.kind, c.offset, []⟩ :: s.opened → t.position = c.offset + mode.width →
        Leads legacy source (.on t) (t.finish source ⟨mode.kind, c.offset, []⟩ s.opened body)) :
    Leads legacy source (s.take source c.offset (.region mode))
      (s.deliver (body.enclose c mode.kind)) := by
  have hinside := hbody
    { s with
      position := c.offset + mode.width
      modes := s.modes ++ [mode]
      opened := ⟨mode.kind, c.offset, []⟩ :: s.opened } List.getLast?_concat rfl rfl
  simp only [finish, leave, Nat.add_zero, List.dropLast_concat, List.nil_append,
    List.append_assoc, tokenOf_eq hc hstop] at hinside
  exact hinside

section Line

variable {lo n : Nat} (hline : (source.drop n).head?.all (· == newline) = true)
  (hinside : newline ∉ (source.take n).drop lo)

include hline hinside

/-- The machine reads a template as its scan does, inside whatever string. -/
theorem template_leads (hc : c.In (source.take n)) (hlo : lo ≤ c.offset)
    (hlen : 2 ≤ c.rest.length) :
    Leads legacy source (s.take source c.offset (.region .template)) (s.deliver (template c)) := by
  have hstop := (scanBody_laid templatePiece_spec (hc.advance 2)).stop_in.offset_le_take
  refine region_leads hc hstop ?_
  intro t hmode hopened hpos
  exact scanBody_leads templatePiece_spec (reads_template hline hinside) (hc.advance 2)
    (hlo.trans (c.offset_le_advance 2)) t _ hmode hopened
    (hpos.trans (Cursor.offset_advance hlen).symm)

/-- What a turn inside a string comes to, before the line ends. -/
theorem turn_of_string {b : UInt8} {tail : Bytes} (hc : c.In (source.take n))
    (hlo : lo ≤ c.offset) (hrest : c.rest = b :: tail) (hmode : s.modes.getLast? = some .string)
    (hopened : s.opened = g :: gs) (hpos : s.position = c.offset) :
    s.turn legacy source =
      if b == openBrace && tail.head? = some openBrace then
        s.take source c.offset (.region .template)
      else .on { s with position := c.offset + 1 } := by
  have hdrop := hc.drop_offset hrest
  obtain ⟨hbyte, -, hlt⟩ := byteAt_of_drop hdrop
  have hbrace : byteAt source (c.offset + 1) = openBrace ↔ tail.head? = some openBrace :=
    byteAt_succ_of_line hdrop hline (by decide) (by decide)
  have hopen : Mode.string.close? source c.offset = none := by
    have hb := hc.ne_newline hinside hlo hrest
    rw [← hbyte] at hb
    exact if_neg (not_or.mpr ⟨Nat.not_le_of_lt hlt, hb⟩)
  have htext : Mode.string.IsText source c.offset ↔
      ¬ (b == openBrace && tail.head? = some openBrace) = true := by
    simp [Mode.IsText, hbyte, hbrace]
  simp only [turn, hopened, insideTurn, hmode, hpos, hopen]
  by_cases hmark : (b == openBrace && tail.head? = some openBrace) = true
  · rw [if_neg (mt htext.mp (not_not.mpr hmark)), if_pos hmark]
    rfl
  · rw [if_pos (htext.mpr hmark), if_neg hmark]

/-- The machine reads the inside of a string as its scan does, templates and
all. -/
theorem scanString_leads (hc : c.In (source.take n)) (hlo : lo ≤ c.offset) :
    ∀ (s : Machine) (g : Opened), s.modes.getLast? = some .string → s.opened = g :: gs →
      s.position = c.offset →
        Leads legacy source (.on s) (s.finish source g gs (scanString c)) := by
  fun_induction scanString c with
  | case1 c h =>
    intro s g hmode hopened hpos
    refine .next ?_
    rw [turn_of_close hopened hmode hpos (if_pos (hc.byteAt_lineEnd hline h))]
    exact leave_leads rfl rfl rfl hpos.symm
  | case2 c b tail h hopen found body ih =>
    intro s g hmode hopened hpos
    have hmark := hopen
    rw [Bool.and_eq_true, decide_eq_true_eq] at hmark
    have hlen := Cursor.succ_le_length_rest h (Rule.length_pos_of_head? hmark.2)
    refine .next ?_
    rw [turn_of_string hline hinside hc hlo h hmode hopened hpos, if_pos hopen]
    -- the template is handed to the string, which goes on behind it
    refine (template_leads hline hinside hc hlo hlen).trans ?_
    have hlaid := template_laid hc (by simp [h])
    have hrest := ih hlaid.stop_in (hlo.trans hlaid.token.le)
      { s with
        position := found.stop.offset
        opened := { g with tokens := g.tokens ++ [found.token] } :: gs
        faults := s.faults ++ found.faults }
      { g with tokens := g.tokens ++ [found.token] } hmode rfl rfl
    simp only [deliver, hand, hopened]
    simp only [finish, List.append_assoc, List.singleton_append] at hrest ⊢
    exact hrest
  | case3 c b tail h hopen ih =>
    intro s g hmode hopened hpos
    have hstop := Cursor.offset_advance (Cursor.succ_le_length_rest h (Nat.zero_le _))
    refine .next ?_
    rw [turn_of_string hline hinside hc hlo h hmode hopened hpos, if_neg hopen]
    exact ih (hc.advance 1) (hlo.trans (c.offset_le_advance 1)) _ g hmode hopened hstop.symm

end Line

/-- A comment is read byte by byte to the end of its line. -/
theorem comment_leads (hc : c.In source) {stop : Cursor}
    (hstop : stop.offset = c.offset + runLength isInLine c.rest) :
    ∀ s : Machine, s.modes.getLast? = some .comment → s.opened = g :: gs →
      s.position = c.offset →
        Leads legacy source (.on s) (s.finish source g gs ⟨[], [], stop, true⟩) := by
  -- both at a newline and at the end of the text, the turn leaves the comment
  have hend : ∀ {s : Machine} {p : Nat}, s.modes.getLast? = some .comment → s.opened = g :: gs →
      s.position = p → stop.offset = p → (source.length ≤ p ∨ byteAt source p = newline) →
        Leads legacy source (.on s) (s.finish source g gs ⟨[], [], stop, true⟩) := by
    intro s p hmode hopened hpos hp hcut
    refine .next ?_
    rw [turn_of_close hopened hmode hpos (if_pos hcut)]
    exact leave_leads rfl rfl rfl (hp.trans hpos.symm)
  induction hrest : c.rest generalizing c with
  | nil =>
    intro s hmode hopened hpos
    rw [hrest] at hstop
    exact hend hmode hopened hpos hstop (Or.inl (hc.offset_eq_length hrest).ge)
  | cons b tail ih =>
    intro s hmode hopened hpos
    have hdrop := hc.rest_eq.symm.trans hrest
    obtain ⟨hbyte, -, hlt⟩ := byteAt_of_drop hdrop
    rw [hrest, runLength, List.takeWhile_cons] at hstop
    by_cases hb : b = newline
    · rw [if_neg (by simp [isInLine, hb])] at hstop
      exact hend hmode hopened hpos hstop (Or.inr (hbyte.trans hb))
    · rw [if_pos (by simp [isInLine, hb]), List.length_cons] at hstop
      have hnext := Cursor.offset_advance (Cursor.succ_le_length_rest hrest (Nat.zero_le _))
      have hanswer : Mode.comment.Answers legacy source c.offset .filler :=
        ⟨if_neg (not_or.mpr ⟨Nat.not_le_of_lt hlt, by rwa [hbyte]⟩), trivial⟩
      refine .next ?_
      rw [turn_of_answers hopened hmode hpos hanswer]
      have htail : (c.advance 1).rest = tail := by simp [hrest]
      refine ih (hc.advance 1) ?_ htail _ hmode hopened hnext.symm
      rw [hnext, htail, hstop, runLength]
      omega

/-- **What starts at a place is taken as its scan finds it**, outside all regions. -/
theorem take_leads {o : Opening} (hc : c.In source) (ho : o.Fits source [] c.offset) :
    Leads legacy source (s.take source c.offset o) (s.deliver (o.found legacy c)) := by
  have hin : c.In (source.take source.length) := by rwa [List.take_length]
  have hlen := hc.length_rest
  cases o with
  | leaf m =>
    have hfits : m.more + 1 ≤ c.rest.length := by
      have : c.offset + (m.more + 1) ≤ source.length := ho
      omega
    have htoken := tokenOf_eq hin (hc.advance (m.more + 1)).offset_le m.kind
    simp only [take, deliver, Opening.found, Match.found, List.append_nil, htoken,
      ← Cursor.offset_advance hfits]
    exact .refl _
  | region mode =>
    have hfits : mode.width ≤ c.rest.length := by
      have : c.offset + mode.width ≤ source.length := ho.2
      omega
    have hstart := Cursor.offset_advance hfits
    cases mode with
    | comment =>
      have hstop := (hc.advance 2).skip isInLine
      show Leads legacy source _
        (s.deliver (Body.enclose ⟨[], [], (c.advance 2).skip isInLine, true⟩ c .comment))
      refine region_leads hin hstop.offset_le ?_
      intro t hmode hopened hpos
      exact comment_leads (hc.advance 2) (Cursor.offset_skip _ _) t hmode hopened
        (hpos.trans hstart.symm)
    | string =>
      have hline := (hc.advance 2).inLine
      obtain ⟨hstop, -⟩ := scanString_inLine (hc.advance 2)
      -- the lexer goes on in the whole text where the line has ended
      have hdeliver : s.deliver (string c) =
          s.deliver ((scanString (c.advance 2).inLine).enclose c .string) := by
        simp only [deliver, string, ← hstop]
        rfl
      have hinside := (c.advance 2).newline_notMem_rest_inLine
      rw [hline.rest_eq] at hinside
      rw [show Opening.found legacy c (.region .string) = string c from rfl, hdeliver]
      refine region_leads hin (hstop ▸ ((hc.advance 2).skip isInLine).offset_le) ?_
      intro t hmode hopened hpos
      exact scanString_leads (hc.advance 2).lineEnd hinside hline le_rfl t _ hmode hopened
        (hpos.trans hstart.symm)
    -- outside all regions no template starts
    | template => exact absurd ho.1 (by decide)
    | sceneArgs =>
      have hargs := hin.advance 1
      refine region_leads hin
        (scanBody_laid (argsPiece_spec legacy) hargs).stop_in.offset_le_take ?_
      intro t hmode hopened hpos
      exact scanBody_leads (argsPiece_spec legacy) (reads_sceneArgs legacy source) hargs
        (Nat.zero_le _) t _ hmode hopened (hpos.trans hstart.symm)

-- ---------------------------------------------------------------------------
-- The search for the next token
-- ---------------------------------------------------------------------------

/-- The machine at rest: outside all regions, with nothing to tell. -/
def atRest (p : Nat) (e : Expectation) : Machine := { position := p, expectation := e }

/-- What the search for a token comes to. -/
def result (faults : List Diagnostic) (step : Step) : Turn :=
  .back step.token (faults ++ step.faults)
    (atRest step.stop.offset (step.token.elim .none (Expectation.after ·.kind)))

/-- White space in front changes nothing for the general rules. -/
theorem generalTurn_skip {s : Machine} {p : Nat} {q : UInt8 → Bool}
    (hq : ∀ b, q b = true → isSpace b = true) :
    s.generalTurn legacy source (p + runLength q (source.drop p)) =
      s.generalTurn legacy source p := by
  have hrun := runLength_eq_add hq (source.drop p)
  rw [List.drop_drop] at hrun
  simp only [generalTurn, hrun, Nat.add_assoc]

/-- Where nothing is expected, a turn is a search by the general rules. -/
theorem turn_of_unexpecting (p : Nat) (faults : List Diagnostic) :
    turn legacy source { position := p, faults := faults } =
      generalTurn legacy source { position := p, faults := faults } p := by
  have hnone : (if source.length ≤ p then none
      else Expectation.opening? legacy source p .none) = none := ite_self _
  simp [turn, outsideTurn, expectedPlace, hnone]

/-- At a byte that is no white space a turn takes what starts there, or skips
it. -/
theorem generalTurn_of_not_space {s : Machine} {b : UInt8} {tail : Bytes}
    (hdrop : source.drop c.offset = b :: tail) (hspace : ¬ isSpace b = true) :
    s.generalTurn legacy source c.offset =
      match opening? legacy source c.offset with
      | some o => s.take source c.offset o
      | none => s.skip source c.offset := by
  have hrun : runLength isSpace (source.drop c.offset) = 0 := by
    rw [hdrop, runLength, List.takeWhile_cons, if_neg hspace, List.length_nil]
  unfold generalTurn
  rw [hrun, Nat.add_zero]
  exact if_neg (Nat.not_le_of_lt (byteAt_of_drop hdrop).2.2)

/-- The search by the general rules, over white space and what it skips. -/
theorem generalTurn_leads (hc : c.In source) :
    ∀ (p : Nat) (faults : List Diagnostic),
      Leads legacy source (generalTurn legacy source { position := p, faults := faults } c.offset)
        (result faults (scanGeneral legacy c)) := by
  fun_induction scanGeneral legacy c with
  | case1 c h =>
    intro p faults
    have hend := hc.offset_eq_length h
    have hrun : runLength isSpace (source.drop c.offset) = 0 := by rw [← hc.rest_eq, h]; rfl
    simp only [generalTurn, hrun, Nat.add_zero, hend.ge, if_true, result, List.append_nil]
    exact .refl _
  | case2 c b tail h hspace ih =>
    intro p faults
    have hnext := Cursor.offset_advance (Cursor.succ_le_length_rest h (Nat.zero_le _))
    have hdrop := hc.rest_eq.symm.trans h
    -- the turn passes over the whole run of white space, the search one byte of it
    have hrun : c.offset + runLength isSpace (source.drop c.offset) =
        (c.advance 1).offset + runLength isSpace (source.drop (c.advance 1).offset) := by
      rw [hnext, (byteAt_of_drop hdrop).2.1, hdrop, runLength, List.takeWhile_cons, if_pos hspace,
        List.length_cons, runLength]
      omega
    have hrest := ih (hc.advance 1) p faults
    simp only [generalTurn] at hrest ⊢
    rw [hrun]
    exact hrest
  | case3 c b tail h hspace found hfound =>
    intro p faults
    have hdrop := hc.rest_eq.symm.trans h
    rw [general?_eq_opening? hc (by simp [h])] at hfound
    obtain ⟨o, ho, rfl⟩ := Option.map_eq_some_iff.mp hfound
    rw [generalTurn_of_not_space hdrop hspace, ho]
    exact take_leads hc (opening?_fits (byteAt_of_drop hdrop).2.2 ho)
  | case4 c b tail h hspace hfound next step ih =>
    intro p faults
    have hdrop := hc.rest_eq.symm.trans h
    obtain ⟨hbyte, htail, hlt⟩ := byteAt_of_drop hdrop
    have hnext := Cursor.offset_advance (Cursor.succ_le_length_rest h (Rule.junk_le b tail))
    rw [general?_eq_opening? hc (by simp [h])] at hfound
    rw [generalTurn_of_not_space hdrop hspace, Option.map_eq_none_iff.mp hfound]
    dsimp only [skip]
    rw [hbyte, htail, ← hnext]
    refine .next ?_
    rw [turn_of_unexpecting]
    have hrest := ih (hc.advance _) next.offset (faults ++ [.unrecognized (c.spanTo next)])
    simp only [result, List.append_assoc, List.singleton_append] at hrest ⊢
    exact hrest

/-- Where the machine looks for an expected token, and that the general rules
find the same from there on. -/
theorem expectedPlace_atRest (legacy : Bool) (hc : c.In source) (he : e ≠ .none) :
    expectedPlace source (atRest c.offset e) = (e.place c).offset ∧
      ∀ s : Machine, s.generalTurn legacy source (e.place c).offset =
        s.generalTurn legacy source c.offset := by
  by_cases hmod : e = .modSep
  · subst hmod
    exact ⟨rfl, fun _ => rfl⟩
  · rw [Expectation.offset_place hc hmod, runEnd]
    exact ⟨if_neg (not_or.mpr ⟨he, hmod⟩), fun s => generalTurn_skip isSpace_of_isBlank⟩

/-- **A turn at rest begins the search** that the lexer makes for the next token. -/
theorem turn_leads (hc : c.In source) :
    Leads legacy source (turn legacy source (atRest c.offset e))
      (result [] (scanToken legacy e c)) := by
  by_cases he : e = .none
  · subst he
    rw [scanToken_none, atRest, turn_of_unexpecting]
    exact generalTurn_leads hc c.offset []
  obtain ⟨hplace, hgeneral⟩ := expectedPlace_atRest legacy hc he
  have hexpected := expected?_eq_opening? legacy e hc
  have hturn : turn legacy source (atRest c.offset e) =
      outsideTurn legacy source (atRest c.offset e) := rfl
  rw [hturn, outsideTurn, hplace, scanToken, hexpected]
  split
  · next o ho =>
    -- what was expected starts in the text, so it is taken as it is found
    have hfits : o.Fits source [] (e.place c).offset := by
      split at ho
      · cases ho
      · next hlt => exact Expectation.opening?_fits (Nat.lt_of_not_le hlt) ho
    simp only [atRest] at ho
    rw [ho]
    exact take_leads (e.place_in hc) hfits
  · next ho =>
    simp only [atRest] at ho
    rw [ho, hgeneral]
    exact generalTurn_leads hc c.offset []

end Machine

-- ---------------------------------------------------------------------------
-- A call of `next`
-- ---------------------------------------------------------------------------

/-- The machine of a lexer between two calls. -/
def Lexer.machine (l : Lexer) : Machine := .atRest l.position l.expectation

/-- **A call of `next` is the machine's way to its next token.** What the
machine meets on the way is what the call tells. -/
theorem Lexer.next_leads {l : Lexer} {source : Bytes} (hl : l.cursor.In source) :
    ∃ faults, Machine.Leads l.options.legacyIdentifiers source (.on l.machine)
        (.back l.next.1 faults l.next.2.machine) ∧
      l.next.2.diagnostics = l.diagnostics ++ l.options.report faults :=
  ⟨_, .next (Machine.turn_leads hl), rfl⟩

end StoryLex
