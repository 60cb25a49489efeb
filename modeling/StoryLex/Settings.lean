import StoryLex.Bytes.Decimal
import StoryLex.Bytes.Lines
import StoryLex.Highlight.Table
import StoryLex.Lexer

/-!
# StoryLex — settings

Settings are read from a file of lines `key=value`. Four keys are switches,
and `hl.Kind=Group` links a kind of token to a highlight group. Blank lines
and lines that start with `#` mean nothing.

Every line is read by itself (`readLine`). Good lines take effect in order, so
of several lines for one switch the last one counts; a bad line has no effect
but a warning with its number.
-/

namespace StoryLex

/-- What can be set. -/
structure Settings where
  /-- Whether colours are written. -/
  color : Bool := true
  /-- Whether the older revision of the grammar is followed. -/
  legacyIdentifiers : Bool := false
  /-- Whether unrecognised input is reported. -/
  reportUnrecognized : Bool := true
  /-- Whether diagnostics are shown. -/
  showDiagnostics : Bool := false
  /-- Links from kinds to groups, in the order they were made. -/
  links : List (Kind × Group) := []
deriving DecidableEq, Repr

/-- The settings that are on or off. -/
inductive Switch where
  /-- Whether colours are written. -/
  | color
  /-- Whether the older revision of the grammar is followed. -/
  | legacyIdentifiers
  /-- Whether unrecognised input is reported. -/
  | reportUnrecognized
  /-- Whether diagnostics are shown. -/
  | showDiagnostics
deriving DecidableEq, Repr

namespace Switch

/-- Every switch. -/
def all : List Switch := [.color, .legacyIdentifiers, .reportUnrecognized, .showDiagnostics]

/-- The key of a switch. -/
def key : Switch → String
  | color => "color"
  | legacyIdentifiers => "legacy_identifiers"
  | reportUnrecognized => "report_unrecognized"
  | showDiagnostics => "show_diagnostics"

/-- The switch of the given key. -/
def ofKey? (text : Bytes) : Option Switch := all.find? fun s => ascii s.key == text

end Switch

/-- A change of the settings. -/
inductive Assignment where
  /-- Turns a switch on or off. -/
  | switch (s : Switch) (on : Bool)
  /-- Links a kind to a group. -/
  | link (kind : Kind) (group : Group)
deriving DecidableEq, Repr

namespace Settings

/-- Makes a change. -/
def assign (settings : Settings) : Assignment → Settings
  | .switch .color on => { settings with color := on }
  | .switch .legacyIdentifiers on => { settings with legacyIdentifiers := on }
  | .switch .reportUnrecognized on => { settings with reportUnrecognized := on }
  | .switch .showDiagnostics on => { settings with showDiagnostics := on }
  | .link kind group => { settings with links := settings.links ++ [(kind, group)] }

/-- Makes changes one after the other. -/
def assignAll (settings : Settings) (changes : List Assignment) : Settings :=
  changes.foldl assign settings

theorem assignAll_append (settings : Settings) (as bs : List Assignment) :
    settings.assignAll (as ++ bs) = (settings.assignAll as).assignAll bs := by
  simp [assignAll]

/-- How scripts are read under these settings. -/
def lexOptions (settings : Settings) : LexOptions where
  legacyIdentifiers := settings.legacyIdentifiers
  reportUnrecognized := settings.reportUnrecognized

/-- The highlight table under these settings. -/
def highlightTable (settings : Settings) : HighlightTable :=
  HighlightTable.standard.setAll settings.links

end Settings

/-! ## Reading a line -/

/-- What is wrong with a line of the file. -/
inductive Complaint where
  /-- There is no equals sign. -/
  | noAssignment
  /-- A link from no kind, or to no group. -/
  | badLink (key value : Bytes)
  /-- A key that stands for nothing. -/
  | unknownKey (key : Bytes)
  /-- A switch that is turned neither on nor off. -/
  | notBoolean (key value : Bytes)
deriving DecidableEq, Repr

/-- A complaint in words. -/
def Complaint.message : Complaint → Bytes
  | noAssignment => ascii "expected key=value"
  | badLink key value => ascii "bad highlight link " ++ key ++ ascii "=" ++ value
  | unknownKey key => ascii "unknown key '" ++ key ++ ascii "'"
  | notBoolean key value => ascii "'" ++ value ++ ascii "' is not a boolean for " ++ key

/-- The value of a switch as it is written in the file. -/
def boolean? (text : Bytes) : Option Bool :=
  if (["1", "true", "on"].map ascii).contains text then some true
  else if (["0", "false", "off"].map ascii).contains text then some false
  else none

/-- What every key of a link starts with. -/
def linkMark : Bytes := ascii "hl."

/-- The change that a key and its value stand for. -/
def readAssignment (key value : Bytes) : Except Complaint Assignment :=
  if linkMark.isPrefixOf key then
    match Kind.ofName? (key.drop linkMark.length), Group.ofName? value with
    | some kind, some group => .ok (.link kind group)
    | _, _ => .error (.badLink key value)
  else
    match Switch.ofKey? key with
    | none => .error (.unknownKey key)
    | some s =>
      match boolean? value with
      | some on => .ok (.switch s on)
      | none => .error (.notBoolean key value)

/-- The change that a line stands for, if it is one at all. The first equals
sign divides key and value, and white space around either does not count. -/
def readLine (line : Bytes) : Except Complaint (Option Assignment) :=
  match trim line with
  | [] => .ok none
  | b :: rest =>
    if b == byte '#' then .ok none
    else
      let text := b :: rest
      let key := text.takeWhile (· != byte '=')
      match text.drop key.length with
      -- the key runs to the end: there is no equals sign
      | [] => .error .noAssignment
      | _ :: value => (readAssignment (trim key) (trim value)).map some

/-! ## Reading a file -/

/-- A complaint about a line, counted from one. -/
structure Warning where
  /-- The number of the line. -/
  line : Nat
  /-- What is wrong with it. -/
  complaint : Complaint
deriving DecidableEq, Repr

/-- A warning as it is printed. -/
def Warning.message (w : Warning) : Bytes :=
  ascii "[config] line " ++ decimal w.line ++ ascii ": " ++ w.complaint.message ++ [newline]

/-- The change that came of reading a line, if any. -/
def change? : Except Complaint (Option Assignment) → Option Assignment
  | .ok change => change
  | .error _ => none

/-- The warning that came of reading the line of the given number, if any. -/
def warning? (reading : Except Complaint (Option Assignment) × Nat) : Option Warning :=
  match reading.1 with
  | .ok _ => none
  | .error complaint => some ⟨reading.2, complaint⟩

namespace Settings

/-- The settings that a file makes, and the warnings about its bad lines. -/
def read (file : Bytes) : Settings × List Warning :=
  let readings := (lines file).map readLine
  (assignAll {} (readings.filterMap change?), (readings.zipIdx 1).filterMap warning?)

end Settings

/-- The path of the settings file, given the user's home directory if it is known. -/
def settingsPath? (home : Option String) : Option String :=
  match home with
  | none => none
  | some dir => if dir = "" then none else some (dir ++ "/.souvenirrc")

end StoryLex
