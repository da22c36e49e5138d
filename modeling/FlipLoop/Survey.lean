import FlipLoop.Machine.Capacity
import FlipLoop.Chance.Draw

/-!
# Surveys

A survey draws one program for each of a range of seeds, runs each on a clear memory, and reports in
a table which of them halt. It breaks down as a whole if one of its programs, texts or counts grows
too large.
-/

namespace FlipLoop

/-- How the program of one seed fared. -/
structure Row where
  seed : UInt64
  halted : Bool
  steps : Nat
  memory : Memory
  deriving DecidableEq

namespace Row

/-- The row of a seed. A text of the memory is made also if the run has not halted. -/
def ofSeed? (recipe : Chance.Recipe) (limit : Nat) (seed : UInt64) : Option Row := do
  let (program, _) ← Chance.drawProgram? .xoshiro recipe (.ofSeed seed)
  let outcome ← (Machine.start program .empty limit).run? .silent ()
  guard outcome.machine.state.memory.Fits
  return {
    seed
    halted := outcome.result.toBool
    steps := outcome.machine.steps
    memory := outcome.machine.state.memory }

def heading : String := "seed,halted,steps,memory"

def text (row : Row) : String :=
  row.seed.toNat.repr ++ "," ++ (if row.halted then "true" else "false") ++ "," ++
    row.steps.repr ++ "," ++ row.memory.text

end Row

structure Survey where
  seed : UInt64
  count : Nat := 1000
  recipe : Chance.Recipe := {}
  limit : Nat := 8192

namespace Survey

/-- The bytes that a row takes up, its text apart. -/
def rowSize : Nat := 48

/-- One row for each seed in ascending order; seeds wrap around. All of them are kept until the last
one is there. -/
def rows? (survey : Survey) : Option (List Row) :=
  if largestCapacity < rowSize * survey.count then
    none
  else
    (List.range survey.count).mapM fun i =>
      Row.ofSeed? survey.recipe survey.limit (survey.seed + UInt64.ofNat i)

def table (rows : List Row) : List String :=
  Row.heading :: rows.map Row.text

/-- The counts of a survey. The time that it took is left out. -/
def summary (rows : List Row) : List String :=
  let halted := rows.countP (·.halted)
  ["Sample results:",
    "  Programs:          " ++ rows.length.repr,
    "  Halted:            " ++ halted.repr,
    "  Step limit hit:    " ++ (rows.length - halted).repr]

end Survey

end FlipLoop
