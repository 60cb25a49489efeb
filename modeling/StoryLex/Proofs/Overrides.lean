import StoryLex.CommandLine.Run

/-!
# StoryLex — flags and settings

Some flags do on the command line what a line of the settings file does. In
front of all other arguments, such a flag is as good as its line behind all
other lines: the run ends alike and writes the same on both channels, however
bad the rest of the file or of the command line is (`program_override`).

Two facts carry this, one for each way of changing the settings.

* `Settings.read_append` — a file is read piece by piece. Lines that are added
  leave the numbers of the lines before them, and what these do, as they were.
* `CommandLine.read_cons_change` — a change that comes first on the command
  line is a change of the settings that the rest of it is read under.
-/

namespace StoryLex

-- ---------------------------------------------------------------------------
-- Files, piece by piece
-- ---------------------------------------------------------------------------

/-- A newline parts the lines before it from those behind it. -/
theorem lines_append (front back : Bytes) :
    lines (front ++ newline :: back) = lines front ++ lines back := by
  induction front with
  | nil => simp [lines]
  | cons b front ih =>
    by_cases hb : b = newline
    · subst hb
      simp [lines, ih]
    · -- the byte is one of the first line
      obtain ⟨l, ls, hfront⟩ := List.exists_cons_of_ne_nil (lines_ne_nil front)
      simp [lines, ih, hb, hfront]

/-- A text without newlines is one line. -/
theorem lines_of_newline_notMem {line : Bytes} (h : newline ∉ line) : lines line = [line] := by
  induction line with
  | nil => rfl
  | cons b line ih =>
    rw [List.mem_cons, not_or] at h
    simp [lines, ih h.2, Ne.symm h.1]

namespace Settings

/-- The changes that the lines of a file make, in order. -/
def changes (file : Bytes) : List Assignment := ((lines file).map readLine).filterMap change?

/-- The warnings about the lines of a file, the first of which has the given number. -/
def warningsFrom (first : Nat) (file : Bytes) : List Warning :=
  (((lines file).map readLine).zipIdx first).filterMap warning?

/-- A file is read into the changes that its lines make and the warnings about
them. -/
theorem read_eq (file : Bytes) : read file = (assignAll {} (changes file), warningsFrom 1 file) :=
  rfl

/-- A file that goes on makes the changes of its front and then those of its
back, whose lines are counted on from the front's. -/
theorem read_append (front back : Bytes) :
    read (front ++ newline :: back) =
      ((read front).1.assignAll (changes back),
        (read front).2 ++ warningsFrom (1 + (lines front).length) back) := by
  have hchanges : changes (front ++ newline :: back) = changes front ++ changes back := by
    simp only [changes, lines_append, List.map_append, List.filterMap_append]
  -- the numbers go on where the lines of the front have ended
  have hwarnings : warningsFrom 1 (front ++ newline :: back) =
      warningsFrom 1 front ++ warningsFrom (1 + (lines front).length) back := by
    simp only [warningsFrom, lines_append, List.map_append, List.zipIdx_append, List.length_map,
      List.filterMap_append]
  rw [read_eq, read_eq, hchanges, hwarnings, assignAll_append]

/-- A good line at the end of a file makes its change last, and no warning. -/
theorem read_append_line (file : Bytes) {line : Bytes} {a : Assignment} (hline : newline ∉ line)
    (hread : readLine line = .ok (some a)) :
    read (file ++ newline :: (line ++ [newline])) = ((read file).1.assign a, (read file).2) := by
  -- the newline behind the line leaves an empty one, which is as good as none
  have hempty : readLine [] = .ok none := rfl
  have hlines : (lines (line ++ [newline])).map readLine = [.ok (some a), .ok none] := by
    rw [lines_append, lines_of_newline_notMem hline]
    simp [lines, hread, hempty]
  have hchanges : changes (line ++ [newline]) = [a] := by
    simp [changes, hlines, change?]
  have hwarnings : ∀ n, warningsFrom n (line ++ [newline]) = [] := by
    simp [warningsFrom, hlines, warning?]
  rw [read_append, hchanges, hwarnings, List.append_nil]
  rfl

end Settings

-- ---------------------------------------------------------------------------
-- Command lines
-- ---------------------------------------------------------------------------

/-- An argument that is an item by itself is read first. -/
theorem Item.readAll_cons {argument : Bytes} {item : Item} (hoption : argument ≠ offsetOption)
    (hitem : ofArgument? argument = some item) (arguments : List Bytes) :
    readAll (argument :: arguments) = (item :: (readAll arguments).1, (readAll arguments).2) := by
  rw [readAll.eq_def]
  simp only [if_neg hoption, hitem]

/-- A change in front of a command line is made before the rest of it is read. -/
theorem CommandLine.read_cons_change {argument : Bytes} {a : Assignment}
    (hoption : argument ≠ Item.offsetOption) (hitem : Item.ofArgument? argument = some (.change a))
    (arguments : List Bytes) (settings : Settings) :
    CommandLine.read (argument :: arguments) settings =
      CommandLine.read arguments (settings.assign a) := by
  simp only [CommandLine.read, Item.readAll_cons hoption hitem, List.foldl_cons]
  rfl

/-- A run is planned alike with a change in front of its arguments and with the
line of that change behind its settings. -/
theorem Plan.make_change {argument line : Bytes} {a : Assignment}
    (hoption : argument ≠ Item.offsetOption) (hitem : Item.ofArgument? argument = some (.change a))
    (hline : newline ∉ line) (hread : readLine line = .ok (some a)) (file : Bytes)
    (arguments : List Bytes) :
    Plan.make (some file) (argument :: arguments) =
      Plan.make (some (file ++ newline :: (line ++ [newline]))) arguments := by
  simp only [Plan.make, Option.getD_some, Settings.read_append_line file hline hread,
    CommandLine.read_cons_change hoption hitem]

/-- The flags that do what a line of the settings file does. -/
inductive Override where
  /-- Follows the older revision of the grammar. -/
  | legacy
  /-- Writes no colours. -/
  | noColor
  /-- Shows diagnostics. -/
  | diagnostics
deriving DecidableEq, Repr

namespace Override

/-- The flag on the command line. -/
def flag : Override → Bytes
  | legacy => ascii "--legacy"
  | noColor => ascii "--no-color"
  | diagnostics => ascii "--diagnostics"

/-- The line of the settings file. -/
def line : Override → Bytes
  | legacy => ascii "legacy_identifiers=true"
  | noColor => ascii "color=false"
  | diagnostics => ascii "show_diagnostics=true"

/-- The change that both of them make. -/
def change : Override → Assignment
  | legacy => .switch .legacyIdentifiers true
  | noColor => .switch .color false
  | diagnostics => .switch .showDiagnostics true

/-- The flag is read as the change. -/
theorem ofArgument?_flag (o : Override) : Item.ofArgument? o.flag = some (.change o.change) := by
  cases o <;> decide

theorem flag_ne_offsetOption (o : Override) : o.flag ≠ Item.offsetOption := by
  cases o <;> decide

theorem newline_notMem_line (o : Override) : newline ∉ o.line := by
  cases o <;> decide

/-- The line is read as the same change. -/
theorem readLine_line (o : Override) : readLine o.line = .ok (some o.change) := by
  cases o <;> rfl

end Override

/--
**A flag is its line written last.** Put one of the three flags in front of any
arguments, or its line behind any settings file: the program ends with the same
status and writes the same on both channels, whatever it is given to read. That
holds as well where the arguments are wrong, ask for help or name a script that
cannot be read, and of the warnings about the file with their order and numbers.
-/
theorem program_override (o : Override) (file : Bytes) (arguments : List Bytes) (stdin : Bytes)
    (files : Bytes → Option Bytes) :
    program (o.flag :: arguments) (some file) stdin files =
      program arguments (some (file ++ [newline] ++ o.line ++ [newline])) stdin files := by
  have hplan := Plan.make_change o.flag_ne_offsetOption o.ofArgument?_flag
    o.newline_notMem_line o.readLine_line file arguments
  have hfile : file ++ [newline] ++ o.line ++ [newline] =
      file ++ newline :: (o.line ++ [newline]) := by
    simp only [List.append_assoc, List.cons_append, List.nil_append]
  rw [program, program, hplan, hfile]

end StoryLex
