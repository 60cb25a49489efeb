import StoryLex.CommandLine.Item

/-!
# StoryLex — options of a run

What the items of a command line add up to: the options of this run, and the
settings as the command line has changed them. Items take effect in order, so
the last path and the last offset count.
-/

namespace StoryLex

/-- What one run is asked to do. -/
structure RunOptions where
  /-- Whether the usage text is asked for. -/
  help : Bool := false
  /-- Whether the highlighted source is written in place of the token dump. -/
  highlight : Bool := false
  /-- Whether diagnostics count as a failure. -/
  strict : Bool := false
  /-- Whether a summary is written. -/
  verbose : Bool := false
  /-- Where reading begins. -/
  offset : Nat := 0
  /-- The script to read; a dash is the standard input. -/
  path : Bytes := ascii "-"
deriving DecidableEq, Repr

/-- Takes an item into account. Changes of the settings are none of the options. -/
def RunOptions.take (options : RunOptions) : Item → RunOptions
  | .flag .help => { options with help := true }
  | .flag .highlight => { options with highlight := true }
  | .flag .strict => { options with strict := true }
  | .flag .verbose => { options with verbose := true }
  | .offset n => { options with offset := n }
  | .path p => { options with path := p }
  | .change _ => options

/-- Takes an item into account. Only changes of the settings concern them. -/
def Settings.take (settings : Settings) : Item → Settings
  | .change a => settings.assign a
  | _ => settings

/-- A command line that was read. -/
structure CommandLine where
  /-- The options, or why they cannot be told. -/
  options : Except UsageError RunOptions
  /-- The settings, with all changes made before an error. -/
  settings : Settings

/-- Reads the arguments of a command line, under the settings made so far. -/
def CommandLine.read (arguments : List Bytes) (settings : Settings) : CommandLine :=
  let (items, error) := Item.readAll arguments
  { options := match error with
      | some e => .error e
      | none => .ok (items.foldl RunOptions.take {})
    settings := items.foldl Settings.take settings }

end StoryLex
