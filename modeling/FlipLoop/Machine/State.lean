import FlipLoop.Memory
import FlipLoop.Program.Bracket

/-!
# States

A state is what the instructions of a program read and change: where the program stands and the
memory. It knows of no step limit and of no observer. `walk` follows a program from a state for a
number of instructions, and `shown` collects the snapshots on the way.
-/

namespace FlipLoop

/-- Why an instruction cannot be executed, or a run cannot go on. -/
inductive Fault where
  | stepLimit (limit : Nat)
  | noLoopStart (pc : Nat)
  | noLoopEnd (pc : Nat)
  | refused (message : String)
  deriving DecidableEq

def Fault.message : Fault → String
  | stepLimit limit => "maximal steps exceeded (" ++ limit.repr ++ ")"
  | noLoopStart pc => "loop start not found for instruction " ++ pc.repr
  | noLoopEnd pc => "loop end not found for instruction " ++ pc.repr
  | refused message => "output sink failed: " ++ message

structure State where
  pc : Nat
  memory : Memory
  deriving DecidableEq

namespace State

/-- A program halts when its counter leaves the code. -/
def halted (code : Array Instr) (s : State) : Bool :=
  decide (code.size ≤ s.pc)

/-- The state behind the instruction `i`, which is the one at the counter. -/
def after (code : Array Instr) (s : State) (i : Instr) : Except Fault State :=
  match i with
  | .flip v => .ok ⟨s.pc + 1, s.memory.flip v⟩
  | .enter v =>
    if s.memory.get v then
      .ok ⟨s.pc + 1, s.memory⟩
    else
      match Program.closing? code s.pc with
      | some stop => .ok ⟨stop + 1, s.memory⟩
      | none => .error (.noLoopEnd s.pc)
  | .back =>
    match Program.opening? code s.pc with
    | some start => .ok ⟨start, s.memory⟩
    | none => .error (.noLoopStart s.pc)
  | .emit => .ok ⟨s.pc + 1, s.memory⟩

/-- The state one instruction later, unless the program has halted or cannot go on. -/
def next? (code : Array Instr) (s : State) : Option State :=
  match code[s.pc]? with
  | some i => (s.after code i).toOption
  | none => none

/-- The state `count` instructions later, if the program gets that far. -/
def walk? (code : Array Instr) : Nat → State → Option State
  | 0, s => some s
  | count + 1, s => (s.next? code).bind (walk? code count)

/-- The snapshot that the next instruction shows, if it shows one. -/
def snapshots (code : Array Instr) (s : State) : List String :=
  match code[s.pc]? with
  | some .emit => [s.memory.text]
  | _ => []

/-- The snapshots that the next `count` instructions show, or as many of them as there are. -/
def shown (code : Array Instr) : Nat → State → List String
  | 0, _ => []
  | count + 1, s =>
    s.snapshots code ++
      match s.next? code with
      | some t => shown code count t
      | none => []

theorem walk?_add (code : Array Instr) (m n : Nat) (s : State) :
    walk? code (m + n) s = (walk? code m s).bind (walk? code n) := by
  induction m generalizing s with
  | zero => simp [walk?]
  | succ m ih =>
    rw [Nat.succ_add, walk?, walk?]
    cases h : s.next? code with
    | none => rfl
    | some t => exact ih t

theorem next?_eq_none_of_halted {code : Array Instr} {s : State} (h : s.halted code = true) :
    s.next? code = none := by
  simp only [halted, decide_eq_true_eq] at h
  simp [next?, h]

end State

end FlipLoop
