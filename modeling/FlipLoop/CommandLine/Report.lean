import FlipLoop.CommandLine.Arguments
import FlipLoop.Machine.Basic
import FlipLoop.Program.Listing
import FlipLoop.Program.Shorthand

/-!
# Reports

What a command prints, logs and returns. The whole of it is computed before anything is printed.
-/

namespace FlipLoop

namespace Threshold

/-- How much is shown when more events were asked for `verbosity` times. -/
def ofVerbosity (verbosity : Nat) : Threshold :=
  match verbosity with
  | 0 => some .warn
  | 1 => some .info
  | 2 => some .debug
  | _ => some .trace

theorem ofVerbosity_of_le {verbosity : Nat} (h : 3 ≤ verbosity) :
    ofVerbosity verbosity = some .trace := by
  obtain ⟨more, rfl⟩ := Nat.exists_eq_add_of_le' h
  rfl

/-- The threshold that the environment sets by a bare name, in small or capital letters. No other
filter of a log can be named here. -/
def ofName? (name : String) : Option Threshold :=
  [("off", none), ("error", some .error), ("warn", some .warn), ("info", some .info),
    ("debug", some .debug), ("trace", some .trace)].lookup name.toLower

end Threshold

namespace CommandLine

/-- Why the content of a file cannot be read as a text. -/
inductive ReadFault where
  | notFound
  | isDirectory
  | notDirectory
  | notText
  deriving DecidableEq

def ReadFault.message : ReadFault → String
  | notFound => "No such file or directory (os error 2)"
  | isDirectory => "Is a directory (os error 21)"
  | notDirectory => "Not a directory (os error 20)"
  | notText => "stream did not contain valid UTF-8"

def decodeText (bytes : ByteArray) : Except ReadFault String :=
  match String.fromUTF8? bytes with
  | some text => .ok text
  | none => .error .notText

inductive Failure where
  | reading (fault : ReadFault)
  | expanding (error : SourceError)
  | parsing (error : SourceError)
  | running (fault : Fault)
  deriving DecidableEq

namespace Failure

def activity : Failure → String
  | reading _ => "reading"
  | expanding _ => "expanding"
  | parsing _ => "parsing"
  | running _ => "running"

def cause : Failure → String
  | reading fault => fault.message
  | expanding error => error.message
  | parsing error => error.message
  | running fault => fault.message

def lines (failure : Failure) (path : String) : List String :=
  ["Error: " ++ failure.activity ++ " " ++ path, "", "Caused by:", "    " ++ failure.cause]

end Failure

structure Report where
  exitCode : Nat := 0
  out : List String := []
  /-- The lines on the standard error, the log apart. -/
  err : List String := []
  log : List Event := []
  deriving DecidableEq

structure Console where
  printed : Array String := #[]
  log : Array Event := #[]

namespace Console

def note (threshold : Threshold) (event : Event) (console : Console) : Console :=
  if threshold.shows event.level then { console with log := console.log.push event } else console

/-- Prints each snapshot on a line of its own, unless it is to be quiet, and accepts it. -/
def observer (threshold : Threshold) (quiet : Bool) : Observer Console where
  note := note threshold
  offer snapshot console :=
    (.accepted,
      if quiet then console else { console with printed := console.printed.push ("! " ++ snapshot) })

def succeed (console : Console) : Report where
  out := console.printed.toList
  log := console.log.toList

def fail (console : Console) (path : String) (failure : Failure) : Report where
  exitCode := 1
  out := console.printed.toList
  err := failure.lines path
  log := console.log.toList

end Console

def load (path : String) (numeric : Bool) (content : Except ReadFault ByteArray) :
    Except Failure (Program × List Event) :=
  match content.bind decodeText with
  | .error fault => .error (.reading fault)
  | .ok text =>
    match if numeric then Shorthand.expand text else .ok text with
    | .error error => .error (.expanding error)
    | .ok source =>
      match Program.ofSource source with
      | .error error => .error (.parsing error)
      | .ok program =>
        .ok (program,
          [.parsed (Token.ofText source).length program.length, .loaded path program.length])

/-- Runs the program of a file, whose texts are held, so the run is within the capacity of a machine. The
end of the run is logged however it ended. -/
def reportRun (threshold : Threshold) (request : RunRequest)
    (content : Except ReadFault ByteArray) : Report :=
  match load request.file request.numeric content with
  | .error failure => Console.fail {} request.file failure
  | .ok (program, events) =>
    let console := events.foldl (fun console event => console.note threshold event) {}
    let machine :=
      Machine.start program (Memory.ofText request.memory) (effectiveLimit request.maxSteps)
    let outcome := machine.run (Console.observer threshold request.quiet) console
    let console :=
      outcome.kept.note threshold (.ended outcome.machine.steps outcome.machine.state.pc)
    match outcome.result with
    | .ok text => { console with printed := console.printed.push text }.succeed
    | .error fault => console.fail request.file (.running fault)

def reportDisasm (threshold : Threshold) (file : String) (numeric : Bool)
    (content : Except ReadFault ByteArray) : Report :=
  match load file numeric content with
  | .error failure => Console.fail {} file failure
  | .ok (program, events) =>
    let console : Console := { printed := (program.lines.map Line.text).toArray }
    (events.foldl (fun console event => console.note threshold event) console).succeed

/-- The report of a survey, without the events that its machines log and the time that it takes. A
survey that breaks down prints no table; what is said about the breakdown is left out as well. -/
def reportSample (survey : Survey) : Report :=
  match survey.rows? with
  | some rows => { out := Survey.table rows, err := Survey.summary rows }
  | none => { exitCode := 101 }

/-- The report of a command, which finds the content of a file through `read`. -/
def Command.report (command : Command) (threshold : Threshold)
    (read : String → Except ReadFault ByteArray) : Report :=
  match command with
  | .run request => reportRun threshold request (read request.file)
  | .disasm file numeric => reportDisasm threshold file numeric (read file)
  | .sample survey => reportSample survey

def usage : List String :=
  ["usage: [-v]... run FILE [--memory BITS] [--max-steps N] [--numeric] [--quiet]",
    "       [-v]... disasm FILE [--numeric]",
    "       [-v]... sample --seed N [--count N] [--length N] [--variables N] [--max-steps N]"]

/-- The report of a call. A threshold that the environment sets goes before the flags. -/
def report (arguments : List String) (environment : Option Threshold)
    (read : String → Except ReadFault ByteArray) : Report :=
  match Invocation.ofArguments arguments with
  | none => { exitCode := 2, err := usage }
  | some invocation =>
    invocation.command.report (environment.getD (.ofVerbosity invocation.verbosity)) read

end CommandLine

end FlipLoop
