import FlipLoop.Machine.Basic
import FlipLoop.Program.Reading

/-!
# Evaluating a text

Reads a program and runs it to its end. What is written in texts that can be held never asks for one
that cannot, so the machine is run here without regard to its capacity.
-/

namespace FlipLoop

/-- Why a text has no result: it is no program, or its run failed. -/
inductive EvaluationError where
  | source (error : SourceError)
  | run (fault : Fault)
  deriving DecidableEq

def EvaluationError.message : EvaluationError → String
  | source error => error.message
  | run fault => fault.message

/-- Runs the program that `source` writes on the memory that `seed` sets, under `limit`. Without a
seed the memory is clear, and without a limit, or with the limit 0, the default limit holds. -/
def evaluate {σ : Type} (observer : Observer σ) (source : String) (seed : Option String)
    (limit : Option Nat) (w : σ) : Except EvaluationError String × σ :=
  match Program.ofSource source with
  | .error error => (.error (.source error), w)
  | .ok program =>
    let memory := (seed.map Memory.ofText).getD .empty
    let machine := Machine.start program memory (effectiveLimit (limit.getD 0))
    let outcome := machine.run observer w
    (outcome.result.mapError .run, outcome.kept)

end FlipLoop
