import FlipLoop.Program.Basic

/-!
# Events

What the program reports about its own work while it reads and runs. An event has a level, and a
threshold decides whether it is shown.
-/

namespace FlipLoop

inductive Level where
  | error
  | warn
  | info
  | debug
  | trace
  deriving DecidableEq

namespace Level

def name : Level → String
  | error => "ERROR"
  | warn => "WARN"
  | info => "INFO"
  | debug => "DEBUG"
  | trace => "TRACE"

/-- Higher levels are more talkative. -/
def rank : Level → Nat
  | error => 1
  | warn => 2
  | info => 3
  | debug => 4
  | trace => 5

end Level

/-- The most talkative level that is shown, or none if nothing is. -/
abbrev Threshold := Option Level

def Threshold.shows (threshold : Threshold) (level : Level) : Bool :=
  match threshold with
  | none => false
  | some most => decide (level.rank ≤ most.rank)

inductive Event where
  | parsed (tokens instructions : Nat)
  | loaded (path : String) (instructions : Nat)
  | step (pc steps : Nat) (instr : Instr)
  /-- A snapshot is about to be offered. -/
  | output (snapshot : String)
  /-- The instruction just executed was one too many. -/
  | limitExceeded (pc limit : Nat)
  | finished (steps ones : Nat)
  /-- A run is over, whichever way it ended. -/
  | ended (steps pc : Nat)
  deriving DecidableEq

def Instr.logText : Instr → String
  | flip v => "Flip(" ++ v.repr ++ ")"
  | enter v => "LoopStart(" ++ v.repr ++ ")"
  | back => "LoopEnd"
  | emit => "Output"

namespace Event

def level : Event → Level
  | parsed .. => .debug
  | loaded .. => .info
  | step .. => .trace
  | output .. => .trace
  | limitExceeded .. => .debug
  | finished .. => .debug
  | ended .. => .info

/-- The part of the program that reports the event. -/
def target : Event → String
  | parsed .. => "stroke::parser"
  | loaded .. => "stroke"
  | step .. => "stroke::executor"
  | output .. => "stroke::executor"
  | limitExceeded .. => "stroke::executor"
  | finished .. => "stroke::executor"
  | ended .. => "stroke"

def message : Event → String
  | parsed tokens instructions =>
    "parsed program tokens=" ++ tokens.repr ++ " instructions=" ++ instructions.repr
  | loaded path instructions =>
    "loaded program path=" ++ path ++ " instructions=" ++ instructions.repr
  | step pc steps instr =>
    "step pc=" ++ pc.repr ++ " steps=" ++ steps.repr ++ " instr=" ++ instr.logText
  | output snapshot => "output snapshot=" ++ snapshot
  | limitExceeded pc limit => "step limit exceeded pc=" ++ pc.repr ++ " limit=" ++ limit.repr
  | finished steps ones => "run finished steps=" ++ steps.repr ++ " ones=" ++ ones.repr
  | ended steps pc => "run ended steps=" ++ steps.repr ++ " pc=" ++ pc.repr

def text (event : Event) : String :=
  event.level.name ++ " " ++ event.target ++ ": " ++ event.message

end Event

end FlipLoop
