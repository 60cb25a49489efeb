import StoryLex.CommandLine.Options
import StoryLex.Highlight.Render
import StoryLex.Report
import StoryLex.Token.Dump

/-!
# StoryLex — a run of the program

A run reads a script and writes its token dump or its highlighted text on one
channel, and diagnostics and a summary on another. Nothing here reads files:
what a run needs beside its command line is handed to it, and what it writes
is its `Outcome`.

A run has two halves, since which script is to be read is known only from the
command line: `Plan.make` reads settings and command line, and `Job.finish`
goes on with the script. `program` is the two put together.
-/

namespace StoryLex

/-- How a run ends. -/
inductive Status where
  /-- All went well. -/
  | success
  /-- The command line is wrong, or the script cannot be read. -/
  | failure
  /-- There were diagnostics, and the run was strict. -/
  | diagnostics
deriving DecidableEq, Repr

/-- The exit status. -/
def Status.code : Status → Nat
  | success => 0
  | failure => 1
  | diagnostics => 2

/-- All that a run leaves behind. -/
structure Outcome where
  /-- How the run ended. -/
  status : Status
  /-- What it wrote on the standard output. -/
  out : Bytes
  /-- What it wrote on the standard error output. -/
  err : Bytes
deriving DecidableEq, Repr

/-- The usage text. -/
def usage : Bytes :=
  (["Usage: souvenir-lex [options] [file.svr | -]",
    "  --highlight     print the source with ANSI colors instead of the token dump",
    "  --diagnostics   report unrecognized input and unterminated regions",
    "  --strict        exit with status 2 when any diagnostic was produced",
    "  --legacy        accept the older identifier casing rules",
    "  --no-color      disable ANSI colors",
    "  --offset N      start scanning at byte offset N",
    "  --verbose, -v   print a summary on stderr"].flatMap fun l => ascii l ++ [newline])

/-! ## Paths -/

/-- The path that stands for the standard input. -/
def standardInput : Bytes := ascii "-"

/-- The last part of a path. -/
def fileName (path : Bytes) : Bytes := (path.reverse.takeWhile (· != byte '/')).reverse

/-- The extension of a script's file name. -/
def scriptExtension : Bytes := ascii ".svr"

/-- Whether a file's name has the script extension behind a name of its own. -/
def isScriptPath (path : Bytes) : Bool :=
  scriptExtension.isSuffixOf (fileName path) &&
    scriptExtension.length < (fileName path).length

/-! ## Reading a script -/

namespace RunOptions

/-- How the script of a run is read. -/
def lexOptions (options : RunOptions) (settings : Settings) : LexOptions :=
  { settings.lexOptions with startOffset := options.offset }

/-- What reports call the script. -/
def displayName (options : RunOptions) : Bytes :=
  if options.path = standardInput then ascii "<stdin>" else options.path

/-- The notice of a run that is to read something else than a script. -/
def notice (options : RunOptions) : Bytes :=
  if options.verbose && options.path ≠ standardInput && !isScriptPath options.path then
    ascii "[souvenir] " ++ options.path ++ ascii " has no " ++ scriptExtension ++
      ascii " extension\n"
  else
    []

/-- The summary at the end of a run. The end of the input is not counted. -/
def summary (options : RunOptions) (stream : List Token) (diagnostics : List Diagnostic) : Bytes :=
  if options.verbose then
    ascii "[lex] " ++ decimal (stream.length - 1) ++ ascii " tokens, " ++
      decimal diagnostics.length ++ ascii " diagnostics\n"
  else
    []

end RunOptions

/-- The reports on the diagnostics of a script, where they are to be shown. -/
def reports (options : RunOptions) (settings : Settings) (source : Bytes)
    (diagnostics : List Diagnostic) : Bytes :=
  if settings.showDiagnostics then
    diagnostics.flatMap
      (Diagnostic.report options.displayName (LineIndex.ofText source) settings.color)
  else
    []

/-- Reads a script and writes what the options ask for. -/
def run (options : RunOptions) (settings : Settings) (source : Bytes) :
    Except RenderError Outcome := do
  let (stream, diagnostics) := lex source (options.lexOptions settings)
  let out ←
    if options.highlight then
      Palette.render ⟨settings.highlightTable, settings.color⟩ source stream
    else
      pure (Token.dump stream)
  return {
    status := if options.strict && !diagnostics.isEmpty then .diagnostics else .success
    out := out
    err := options.notice ++ reports options settings source diagnostics ++
      options.summary stream diagnostics }

/-! ## The whole program -/

/-- What is left to do once settings and command line are read. -/
structure Job where
  /-- The warnings about the settings file. -/
  warnings : Bytes
  /-- What the run is asked to do. -/
  options : RunOptions
  /-- The settings of the run. -/
  settings : Settings

/-- How a run goes on from its command line. -/
inductive Plan where
  /-- The run is over without a script. -/
  | stop (outcome : Outcome)
  /-- There is a script to read. -/
  | go (job : Job)

/-- Reads the settings file, if there is one, and the command line. -/
def Plan.make (settingsFile : Option Bytes) (arguments : List Bytes) : Plan :=
  let (settings, warnings) := Settings.read (settingsFile.getD [])
  let warned := warnings.flatMap Warning.message
  let line := CommandLine.read arguments settings
  match line.options with
  | .error e => .stop { status := .failure, out := [], err := warned ++ e.message ++ usage }
  | .ok options =>
    if options.help then .stop { status := .success, out := usage, err := warned }
    else .go { warnings := warned, options := options, settings := line.settings }

/-- Goes on with the script, unless it could not be read. -/
def Job.finish (job : Job) (source : Option Bytes) : Except RenderError Outcome :=
  match source with
  | none => .ok {
      status := .failure
      out := []
      err := job.warnings ++ ascii "[souvenir] cannot read " ++ job.options.path ++ [newline] }
  | some source =>
    (run job.options job.settings source).map fun o => { o with err := job.warnings ++ o.err }

/-- The outcome of the program, given its arguments, the settings file if there
is one, the standard input, and the files that can be read. -/
def program (arguments : List Bytes) (settingsFile : Option Bytes) (stdin : Bytes)
    (file : Bytes → Option Bytes) : Except RenderError Outcome :=
  match Plan.make settingsFile arguments with
  | .stop outcome => .ok outcome
  | .go job =>
    job.finish (if job.options.path = standardInput then some stdin else file job.options.path)

end StoryLex
