import StoryLex.Bytes.Decimal
import StoryLex.Settings

/-!
# StoryLex — command line items

The arguments of a command line are read from left to right as *items*: flags,
changes of the settings, a start offset with its value, and paths. Reading
stops at the first argument that is none of these; the items before it have
been read all the same.
-/

namespace StoryLex

/-- The flags that concern one run only. -/
inductive Flag where
  /-- Asks for the usage text. -/
  | help
  /-- Asks for the highlighted source in place of the token dump. -/
  | highlight
  /-- Makes diagnostics count as a failure. -/
  | strict
  /-- Asks for a summary. -/
  | verbose
deriving DecidableEq, Repr

/-- What one or two arguments stand for. -/
inductive Item where
  /-- A flag. -/
  | flag (f : Flag)
  /-- A change of the settings. -/
  | change (a : Assignment)
  /-- The offset at which reading begins. -/
  | offset (n : Nat)
  /-- The script to read. -/
  | path (p : Bytes)
deriving DecidableEq, Repr

/-- Why a command line cannot be read on. -/
inductive UsageError where
  /-- The last argument wants a value. -/
  | missingOffset
  /-- The value is no offset. -/
  | badOffset (value : Bytes)
  /-- An option that does not exist. -/
  | unknownOption (argument : Bytes)
deriving DecidableEq, Repr

/-- A usage error as it is printed. -/
def UsageError.message : UsageError → Bytes
  | missingOffset => ascii "[souvenir] --offset needs a value\n"
  | badOffset value => ascii "[souvenir] invalid offset '" ++ value ++ ascii "'\n"
  | unknownOption argument => ascii "[souvenir] unknown option " ++ argument ++ ascii "\n"

namespace Item

/-- The options that take no value. -/
def options : List (String × Item) :=
  [("--help", .flag .help),
    ("-h", .flag .help),
    ("--highlight", .flag .highlight),
    ("--diagnostics", .change (.switch .showDiagnostics true)),
    ("--strict", .flag .strict),
    ("--legacy", .change (.switch .legacyIdentifiers true)),
    ("--no-color", .change (.switch .color false)),
    ("--verbose", .flag .verbose),
    ("-v", .flag .verbose)]

/-- The option that takes the next argument for its value. -/
def offsetOption : Bytes := ascii "--offset"

/-- What an argument stands for that takes no value. An argument that starts
with a dash is a path only if the dash is all of it. -/
def ofArgument? (argument : Bytes) : Option Item :=
  match options.find? fun o => ascii o.1 == argument with
  | some o => some o.2
  | none =>
    if 1 < argument.length && argument.head? = some (byte '-') then none
    else some (.path argument)

/-- The value of a start offset: digits only, and within 64 bits. -/
def offset? (value : Bytes) : Option Nat := (decimal? value).filter (· < UInt64.size)

/-- The items of a command line, up to the first error if there is one. -/
def readAll : List Bytes → List Item × Option UsageError
  | [] => ([], none)
  | argument :: rest =>
    if argument = offsetOption then
      -- the next argument is the value, whatever it looks like
      match rest with
      | [] => ([], some .missingOffset)
      | value :: rest =>
        match offset? value with
        | none => ([], some (.badOffset value))
        | some n =>
          let (items, error) := readAll rest
          (.offset n :: items, error)
    else
      match ofArgument? argument with
      | none => ([], some (.unknownOption argument))
      | some item =>
        let (items, error) := readAll rest
        (item :: items, error)

end Item

end StoryLex
