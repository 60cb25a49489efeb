import StoryLex.CommandLine.Run

/-!
# StoryLex — the command line program

The shell around `Plan.make` and `Job.finish`: it fetches what they ask for and
writes what they answer.
-/

namespace StoryLex

/-- The bytes of a string in UTF-8. -/
def utf8 (s : String) : Bytes := s.toUTF8.toList

/-- The content of an open file. What cannot be read, such as a directory, is empty. -/
def readHandle (handle : IO.FS.Handle) : IO Bytes := do
  try
    return (← handle.readBinToEnd).toList
  catch _ =>
    return []

/-- The content of a file, or `none` if it cannot be opened. -/
def readFile (path : String) : IO (Option Bytes) := do
  try
    let handle ← IO.FS.Handle.mk path .read
    return some (← readHandle handle)
  catch _ =>
    return none

/-- The script at a path. -/
def readScript (path : Bytes) : IO (Option Bytes) := do
  if path = standardInput then
    return some (← (← IO.getStdin).readBinToEnd).toList
  else
    match String.fromUTF8? path.toByteArray with
    | some path => readFile path
    | none => return none

/-- The settings file in the home directory, if there is one. -/
def readSettingsFile : IO (Option Bytes) := do
  match settingsPath? (← IO.getEnv "HOME") with
  | some path => readFile path
  | none => return none

/-- Writes what a run leaves behind, and gives its exit status. -/
def Outcome.write (outcome : Outcome) : IO UInt32 := do
  let out ← IO.getStdout
  let err ← IO.getStderr
  out.write outcome.out.toByteArray
  out.flush
  err.write outcome.err.toByteArray
  err.flush
  return outcome.status.code.toUInt32

end StoryLex

open StoryLex in
/-- Reads a script and prints its tokens. -/
def main (arguments : List String) : IO UInt32 := do
  match Plan.make (← readSettingsFile) (arguments.map utf8) with
  | .stop outcome => outcome.write
  | .go job =>
    match job.finish (← readScript job.options.path) with
    | .ok outcome => outcome.write
    | .error (.pastEnd offset) =>
      throw (IO.userError ("no text at offset " ++ toString offset))
