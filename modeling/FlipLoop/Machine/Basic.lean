import FlipLoop.Machine.State
import FlipLoop.Observer

/-!
# Machines

A machine executes a program one instruction at a time, counts the instructions, and gives up when
the count exceeds its limit. The instruction that exceeds the limit is executed before the machine
gives up. A refused snapshot leaves the machine as it was, so the same snapshot is offered again.
-/

namespace FlipLoop

/-- The limit of a run that asks for none. -/
def defaultLimit : Nat := 1000000

/-- A request for no instructions at all asks for the default. -/
def effectiveLimit (requested : Nat) : Nat :=
  if requested = 0 then defaultLimit else requested

structure Machine where
  code : Array Instr
  limit : Nat
  state : State
  steps : Nat
  deriving DecidableEq

namespace Machine

def start (p : Program) (memory : Memory) (limit : Nat) : Machine :=
  ⟨p.toArray, limit, ⟨0, memory⟩, 0⟩

def halted (m : Machine) : Bool := m.state.halted m.code

/-- What a call leaves: its result, the machine, and what the observer keeps. -/
structure Outcome (σ α : Type) where
  result : Except Fault α
  machine : Machine
  kept : σ

def offer {σ : Type} (observer : Observer σ) (memory : Memory) (i : Instr) (w : σ) : Reply × σ :=
  match i with
  | .emit =>
    let snapshot := memory.text
    observer.offer snapshot (observer.note (.output snapshot) w)
  | _ => (.accepted, w)

/-- Executes one instruction and tells whether another one follows. A machine that has halted
executes none. -/
def step {σ : Type} (observer : Observer σ) (m : Machine) (w : σ) : Outcome σ Bool :=
  if m.limit < m.steps then
    ⟨.error (.stepLimit m.limit), m, w⟩
  else
    match m.code[m.state.pc]? with
    | none => ⟨.ok false, m, w⟩
    | some i =>
      match offer observer m.state.memory i (observer.note (.step m.state.pc m.steps i) w) with
      | (.refused message, w) => ⟨.error (.refused message), m, w⟩
      | (.accepted, w) =>
        match m.state.after m.code i with
        | .error fault => ⟨.error fault, m, w⟩
        | .ok state =>
          let m := { m with state := state, steps := m.steps + 1 }
          if m.limit < m.steps then
            ⟨.error (.stepLimit m.limit), m, observer.note (.limitExceeded m.state.pc m.limit) w⟩
          else
            ⟨.ok (!m.halted), m, w⟩

def runFor {σ : Type} (observer : Observer σ) : Nat → Machine → σ → Outcome σ String
  | 0, m, w => ⟨.error (.stepLimit m.limit), m, w⟩
  | budget + 1, m, w =>
    match m.step observer w with
    | ⟨.ok true, m, w⟩ => runFor observer budget m w
    | ⟨.ok false, m, w⟩ =>
      ⟨.ok m.state.memory.text, m, observer.note (.finished m.steps m.state.memory.card) w⟩
    | ⟨.error fault, m, w⟩ => ⟨.error fault, m, w⟩

/-- The instructions that a machine can execute before it has exceeded its limit. -/
def budget (m : Machine) : Nat := m.limit + 1 - m.steps

/-- Runs to the end of the program and gives the text of the final memory. Once the budget is spent
the limit is exceeded, so the budget itself never ends a run. -/
def run {σ : Type} (observer : Observer σ) (m : Machine) (w : σ) : Outcome σ String :=
  runFor observer m.budget m w

end Machine

end FlipLoop
