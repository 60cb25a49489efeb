import StoryLex.Proofs.Display
import StoryLex.Proofs.Dump
import StoryLex.Proofs.LineTable
import StoryLex.Report

/-!
# StoryLex — reports and their carets

A report is written to be looked at, so what counts is where its carets come to
stand. This module says which three lines a report has, and that the carets are
as many as the characters of the bytes concerned and stand below them
(`report_carets`).

The places are taken from two searches in the table of lines. That they fit
together comes from the steps between locations: the number of carets is that of
the characters passed, unless a newline is (`caretCount_locate`).

Colours add style sequences and nothing else. A terminal that leaves them out
shows the report without colours (`Terminal.shown_report`).
-/

namespace StoryLex

-- ---------------------------------------------------------------------------
-- Text without its style sequences
-- ---------------------------------------------------------------------------

namespace Terminal

variable {text : Bytes} {codes : String}

/-- What a terminal shows of a text: all of it but its style sequences. -/
def shown (text : Bytes) : Bytes := (display [] text).1.map Prod.fst

theorem shown_of_sequence? {codes after : Bytes} (h : sequence? text = some (codes, after)) :
    shown text = (display (takeUp codes) after).1.map Prod.fst := by
  rw [shown, display_of_sequence? h]

/-- Which bytes are shown does not hang on the style a terminal is in. -/
theorem map_fst_display (style text : Bytes) :
    (display style text).1.map Prod.fst = shown text := by
  fun_induction display style text with
  | case1 style => simp [shown, display]
  | case2 style b rest codes after h ih => exact (shown_of_sequence? h).symm
  | case3 style b rest h ih =>
    -- a byte that starts no sequence is shown in any style
    rw [List.map_cons, ih]
    show b :: shown rest = (display [] (b :: rest)).1.map Prod.fst
    rw [display]
    split
    · next h' => simp [h] at h'
    · rfl

/-- Text without the escape byte is shown as it is, and then what follows. -/
theorem shown_append (h : escape ∉ text) (rest : Bytes) :
    shown (text ++ rest) = text ++ shown rest := by
  have hbytes : (text.map fun b => (b, ([] : Bytes))).map Prod.fst = text := by
    rw [List.map_map]
    exact List.map_id text
  rw [shown, display_append h, showing, List.map_append, hbytes, shown]

/-- Of a painted text the bytes are shown, in colours or without. -/
theorem shown_paint (hcodes : ∀ b ∈ ascii codes, isCode b = true) (htext : escape ∉ text)
    (color : Bool) (rest : Bytes) :
    shown (paint color codes text ++ rest) = text ++ shown rest := by
  -- neither the sequence in front of the text nor the one behind it is shown
  have hsequence : ∀ {codes : String} (rest : Bytes), (∀ b ∈ ascii codes, isCode b = true) →
      shown (styleSequence codes ++ rest) = shown rest := by
    intro codes rest hcodes
    rw [shown_of_sequence? (sequence?_styleSequence hcodes rest), map_fst_display]
  unfold paint
  split
  · exact shown_append htext rest
  · rw [List.append_assoc, List.append_assoc, hsequence _ hcodes, shown_append htext,
      hsequence _ (by decide +kernel)]

end Terminal

-- ---------------------------------------------------------------------------
-- The carets
-- ---------------------------------------------------------------------------

section Places

open LineIndex

variable {text : Bytes} {o p : Nat}

/-- Within a line, there is one caret for each column passed, and one in any
case. -/
theorem caretCount_add (line column n : Nat) :
    caretCount ⟨line, column⟩ ⟨line, column + n⟩ = max 1 n := by
  unfold caretCount
  dsimp only
  split <;> omega

/-- One caret for each character between two offsets, and one in any case; only
one if there is a newline between them. -/
theorem caretCount_locate (hop : o ≤ p) (hp : p ≤ text.length) :
    caretCount ((ofText text).locate o) ((ofText text).locate p) =
      if newline ∈ Span.bytes ⟨o, p⟩ text then 1
      else max 1 (characters (Span.bytes ⟨o, p⟩ text)) := by
  by_cases hline : newline ∈ Span.bytes ⟨o, p⟩ text
  · have hlt := locate_line_lt hop hp hline
    rw [if_pos hline, caretCount, if_neg (by omega)]
  · -- no newline is passed, so the second location is in the same line
    rw [if_neg hline, locate_add hop hp hline]
    exact caretCount_add _ _ _

end Places

-- ---------------------------------------------------------------------------
-- Reports
-- ---------------------------------------------------------------------------

namespace Diagnostic

/-- The first line of the report on a diagnostic of a text: the name of the text,
the line and the column, the fault, and the wording. -/
def heading (name text : Bytes) (d : Diagnostic) : Bytes :=
  let line := 1 + (text.take d.span.start).count newline
  let column :=
    1 + characters (Span.bytes ⟨(lineAround text d.span.start).start, d.span.start⟩ text)
  name ++ ascii ":" ++ decimal line ++ ascii ":" ++ decimal column ++ ascii ": " ++
    ascii d.fault.name ++ ascii ": " ++ d.message

/-- How many characters stand in front of a diagnostic in its line. -/
def indent (text : Bytes) (d : Diagnostic) : Nat :=
  characters (Span.bytes ⟨(lineAround text d.span.start).start, d.span.start⟩ text)

/-- How many carets mark a diagnostic: one for each of its characters, and one in
any case; only one if it goes on behind its line. -/
def carets (text : Bytes) (d : Diagnostic) : Nat :=
  if newline ∈ d.span.bytes text then 1 else max 1 (characters (d.span.bytes text))

/-- The report around what is painted: the name of the fault, and the carets. -/
theorem report_eq (name : Bytes) (index : LineIndex) (color : Bool) (d : Diagnostic) :
    let first := index.locate d.span.start
    let last := index.locate d.span.stop
    d.report name index color =
      (name ++ ascii ":" ++ decimal first.line ++ ascii ":" ++ decimal first.column ++
        ascii ": ") ++
      (paint color d.fault.codes (ascii d.fault.name) ++
      ((ascii ": " ++ d.message ++ [newline] ++ spaces 2 ++ index.lineText first.line ++
        [newline] ++ spaces (2 + (first.column - 1))) ++
      (paint color "32" (List.replicate (caretCount first last) (byte '^')) ++ [newline]))) := by
  intro first last
  have hmargin : spaces (2 + (first.column - 1)) = spaces 2 ++ spaces (first.column - 1) :=
    List.replicate_append_replicate.symm
  rw [hmargin]
  simp [report, first, last]

theorem decimal_notMem {x : UInt8} (hx : isDigit x = false) (n : Nat) : x ∉ decimal n := by
  intro h
  rw [isDigit_of_mem_decimal h] at hx
  exact Bool.noConfusion hx

variable {text name : Bytes} {d : Diagnostic}

/-- The report without colours, said of the text alone. -/
theorem report_plain (name : Bytes) (hspan : d.span.start ≤ d.span.stop)
    (hstop : d.span.stop ≤ text.length) :
    d.report name (.ofText text) false =
      d.heading name text ++ newline ::
        ((spaces 2 ++ withoutReturn ((lineAround text d.span.start).bytes text)) ++ newline ::
          ((spaces (2 + d.indent text) ++ List.replicate (d.carets text) (byte '^')) ++
            [newline])) := by
  have hstart := hspan.trans hstop
  rw [report_eq, lineText_locate hstart, caretCount_locate hspan hstop, locate_line hstart,
    locate_column hstart]
  simp [heading, indent, carets, paint]

/-- The first line of a report is one line, if the name and the wording are. -/
theorem newline_notMem_heading (hname : newline ∉ name) (hmessage : newline ∉ d.message) :
    newline ∉ d.heading name text := by
  have hdecimal : ∀ n, newline ∉ decimal n := decimal_notMem (by decide)
  have hfault : newline ∉ ascii d.fault.name := by
    cases d.fault <;> decide +kernel
  have hcolon : newline ∉ ascii ":" ∧ newline ∉ ascii ": " := by decide +kernel
  simp only [heading, List.mem_append, hname, hmessage, hdecimal, hfault, hcolon.1, hcolon.2,
    or_self, not_false_eq_true]

/-- A terminal shows a report in colours as the report without. -/
theorem shown_report {index : LineIndex} (hname : escape ∉ name) (hmessage : escape ∉ d.message)
    (hline : ∀ k, escape ∉ index.lineText k) (color : Bool) :
    Terminal.shown (d.report name index color) = d.report name index false := by
  have hdecimal : ∀ n, escape ∉ decimal n := decimal_notMem (by decide)
  have hspaces : ∀ n, escape ∉ spaces n := fun n h =>
    absurd (List.eq_of_mem_replicate h) (by decide)
  have hmarks : escape ∉ ascii ":" ∧ escape ∉ ascii ": " ∧ escape ∉ [newline] := by decide +kernel
  have hfault : escape ∉ ascii d.fault.name ∧
      ∀ b ∈ ascii d.fault.codes, Terminal.isCode b = true := by
    cases d.fault <;> decide +kernel
  -- none of the parts holds an escape byte
  have hcarets : ∀ n, escape ∉ List.replicate n (byte '^') := fun n h =>
    absurd (List.eq_of_mem_replicate h) (by decide)
  have hgreen : ∀ b ∈ ascii "32", Terminal.isCode b = true := by decide +kernel
  have hnewline : Terminal.shown [newline] = [newline] := by decide +kernel
  rw [report_eq, report_eq, Terminal.shown_append, Terminal.shown_paint hfault.2 hfault.1,
    Terminal.shown_append, Terminal.shown_paint hgreen (hcarets _), hnewline]
  · rfl
  · simp only [List.mem_append, hmessage, hline, hspaces, hmarks, or_self, not_false_eq_true]
  · simp only [List.mem_append, hname, hdecimal, hmarks, or_self, not_false_eq_true]

end Diagnostic

/--
**Carets stand below what they mark.** Take a diagnostic within a text, and let
neither its wording nor the name of the text hold a newline. The report without
colours is three lines. The first says where and what. The second is the line
of the text in which the diagnostic starts, without its end, behind a margin of
two blanks. In the third, behind the margin and a blank for each character in
front of the diagnostic, stand carets: as many as the diagnostic has characters,
at least one, and just one if it goes on behind its line.

If no escape byte is in the name, the wording or the text, a terminal shows the
report in colours as the one without.
-/
theorem report_carets (name text : Bytes) (d : Diagnostic)
    (hspan : d.span.start ≤ d.span.stop) (hstop : d.span.stop ≤ text.length)
    (hname : newline ∉ name) (hmessage : newline ∉ d.message) :
    (d.report name (.ofText text) false).splitOn newline =
        [d.heading name text, spaces 2 ++ withoutReturn ((lineAround text d.span.start).bytes text),
          spaces (2 + d.indent text) ++ List.replicate (d.carets text) (byte '^'), []] ∧
      (escape ∉ name → escape ∉ d.message → escape ∉ text →
        Terminal.shown (d.report name (.ofText text) true) =
          d.report name (.ofText text) false) := by
  refine ⟨?_, ?_⟩
  · have hspaces : ∀ n, newline ∉ spaces n := fun n h =>
      absurd (List.eq_of_mem_replicate h) (by decide)
    -- each of the lines is a line, and the newlines are those between them
    have hsecond :
        newline ∉ spaces 2 ++ withoutReturn ((lineAround text d.span.start).bytes text) := by
      rw [List.mem_append, not_or]
      exact ⟨hspaces 2, fun h => newline_notMem_lineAround (hspan.trans hstop)
        ((withoutReturn_sublist _).subset h)⟩
    have hthird : newline ∉
        spaces (2 + d.indent text) ++ List.replicate (d.carets text) (byte '^') := by
      rw [List.mem_append, not_or]
      exact ⟨hspaces _, fun h => absurd (List.eq_of_mem_replicate h) (by decide)⟩
    rw [Diagnostic.report_plain name hspan hstop,
      List.splitOn_append_cons_of_beq _ _ (beq_self_eq_true _),
      List.splitOn_append_cons_of_beq _ _ (beq_self_eq_true _),
      List.splitOn_append_cons_of_beq _ _ (beq_self_eq_true _),
      List.splitOn_eq_singleton (Diagnostic.newline_notMem_heading hname hmessage),
      List.splitOn_eq_singleton hsecond, List.splitOn_eq_singleton hthird]
    rfl
  · intro hname hmessage htext
    exact Diagnostic.shown_report hname hmessage (fun k h => htext (mem_of_mem_lineText h)) true

/-- An argument list over two lines, behind an `é`: one caret, in the column of
characters. -/
theorem report_carets_twoLines :
    let name := ascii "n"
    let text := ascii "a\n" ++ [0xC3, 0xA9] ++ ascii "(b\r\nc"
    let d := Diagnostic.unterminated .sceneArgs ⟨4, 9⟩
    (d.span.start ≤ d.span.stop ∧ d.span.stop ≤ text.length ∧ newline ∉ name ∧
        newline ∉ d.message ∧ escape ∉ name ∧ escape ∉ d.message ∧ escape ∉ text) ∧
      (d.report name (.ofText text) false).splitOn newline =
        [ascii "n:2:2: unterminated: unterminated scene argument list, expected ')'",
          ascii "  " ++ [0xC3, 0xA9] ++ ascii "(b", ascii "   ^", []] ∧
      Terminal.shown (d.report name (.ofText text) true) = d.report name (.ofText text) false := by
  intro name text d
  have hname : newline ∉ name ∧ escape ∉ name := by decide +kernel
  have hmessage : newline ∉ d.message ∧ escape ∉ d.message := by decide +kernel
  have htext : escape ∉ text := by decide +kernel
  have hstop : d.span.stop ≤ text.length := by decide +kernel
  obtain ⟨hlines, hshown⟩ := report_carets name text d (by decide) hstop hname.1 hmessage.1
  refine ⟨⟨by decide, hstop, hname.1, hmessage.1, hname.2, hmessage.2, htext⟩, ?_,
    hshown hname.2 hmessage.2 htext⟩
  rw [hlines]
  decide +kernel

end StoryLex
