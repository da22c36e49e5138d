import FlipLoop.Machine.Basic

/-!
# Machines of limited capacity

A machine counts its instructions in 64 bits and asks for each text in one piece. It breaks down when
a count overflows or when a text is longer than the largest capacity, and then nothing is left of it:
`none` is the whole answer.
-/

namespace FlipLoop.Machine

/-- An outcome, unless its count of instructions has overflowed. -/
def Outcome.counted {σ α : Type} (out : Outcome σ α) : Option (Outcome σ α) :=
  if out.machine.steps < UInt64.size then some out else none

/-- The next instruction shows a memory whose text does not fit. -/
def Overfull (m : Machine) : Prop :=
  m.steps ≤ m.limit ∧ m.code[m.state.pc]? = some .emit ∧ ¬m.state.memory.Fits

instance (m : Machine) : Decidable m.Overfull :=
  inferInstanceAs (Decidable (_ ∧ _ ∧ _))

def step? {σ : Type} (observer : Observer σ) (m : Machine) (w : σ) : Option (Outcome σ Bool) :=
  if m.Overfull then none else (m.step observer w).counted

def runFor? {σ : Type} (observer : Observer σ) :
    Nat → Machine → σ → Option (Outcome σ String)
  | 0, m, w => some ⟨.error (.stepLimit m.limit), m, w⟩
  | budget + 1, m, w =>
    match m.step? observer w with
    | none => none
    | some ⟨.ok true, m, w⟩ => runFor? observer budget m w
    | some ⟨.ok false, m, w⟩ =>
      if m.state.memory.Fits then
        some ⟨.ok m.state.memory.text, m,
          observer.note (.finished m.steps m.state.memory.card) w⟩
      else
        none
    | some ⟨.error fault, m, w⟩ => some ⟨.error fault, m, w⟩

/-- Runs to the end of the program, as long as every text on the way fits. -/
def run? {σ : Type} (observer : Observer σ) (m : Machine) (w : σ) :
    Option (Outcome σ String) :=
  runFor? observer m.budget m w

end FlipLoop.Machine
