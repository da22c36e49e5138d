import FlipLoop.Machine.Basic
import Mathlib.Tactic.Common

/-!
# Steps and runs of a machine

One step comes to one of six ends, whatever the observer. A run repeats steps as long as another
instruction follows, and ends as the first other step says; the budget of the run is never what ends
it.
-/

namespace FlipLoop.Machine

variable {σ : Type} {observer : Observer σ}

/-- The answer to what the next instruction shows, and what the observer keeps then. -/
def offered (observer : Observer σ) (m : Machine) (w : σ) : Reply × σ :=
  match m.code[m.state.pc]? with
  | some i => offer observer m.state.memory i (observer.note (.step m.state.pc m.steps i) w)
  | none => (.accepted, w)

def moved (m : Machine) (s : State) : Machine :=
  { m with state := s, steps := m.steps + 1 }

/-- The ends of a step: the limit was exceeded before, the program has halted, the snapshot is
refused, a bracket has no partner, the instruction is executed and was one too many, or it is executed
within the limit. -/
inductive Stepped (observer : Observer σ) (m : Machine) (w : σ) (out : Outcome σ Bool) : Prop
  | spent (beyond : m.limit < m.steps) (eq : out = ⟨.error (.stepLimit m.limit), m, w⟩)
  | rested (within : m.steps ≤ m.limit) (halted : m.halted = true) (eq : out = ⟨.ok false, m, w⟩)
  | refused (message : String) (within : m.steps ≤ m.limit)
    (emits : m.code[m.state.pc]? = some .emit)
    (reply : (m.offered observer w).1 = .refused message)
    (eq : out = ⟨.error (.refused message), m, (m.offered observer w).2⟩)
  | stuck (i : Instr) (fault : Fault) (within : m.steps ≤ m.limit)
    (fetched : m.code[m.state.pc]? = some i) (fails : m.state.after m.code i = .error fault)
    (eq : out = ⟨.error fault, m, (m.offered observer w).2⟩)
  | exceeded (s : State) (within : m.steps = m.limit) (next : m.state.next? m.code = some s)
    (reply : (m.offered observer w).1 = .accepted)
    (eq : out = ⟨.error (.stepLimit m.limit), m.moved s,
      observer.note (.limitExceeded s.pc m.limit) (m.offered observer w).2⟩)
  | advanced (s : State) (within : m.steps < m.limit) (next : m.state.next? m.code = some s)
    (reply : (m.offered observer w).1 = .accepted)
    (eq : out = ⟨.ok (!s.halted m.code), m.moved s, (m.offered observer w).2⟩)

/-- A step, with what it shows and the answer put in one place. -/
lemma step_eq (observer : Observer σ) (m : Machine) (w : σ) :
    m.step observer w =
      if m.limit < m.steps then
        ⟨.error (.stepLimit m.limit), m, w⟩
      else
        match m.code[m.state.pc]? with
        | none => ⟨.ok false, m, w⟩
        | some i =>
          match m.offered observer w with
          | (.refused message, w) => ⟨.error (.refused message), m, w⟩
          | (.accepted, w) =>
            match m.state.after m.code i with
            | .error fault => ⟨.error fault, m, w⟩
            | .ok s =>
              if m.limit < m.steps + 1 then
                ⟨.error (.stepLimit m.limit), m.moved s,
                  observer.note (.limitExceeded s.pc m.limit) w⟩
              else
                ⟨.ok (!s.halted m.code), m.moved s, w⟩ := by
  unfold step offered
  split
  · rfl
  · cases m.code[m.state.pc]? <;> rfl

lemma emits_of_refused {m : Machine} {w : σ} {message : String}
    (h : (m.offered observer w).1 = .refused message) : m.code[m.state.pc]? = some .emit := by
  unfold offered at h
  split at h
  · next i hi =>
    cases i with
    | emit => exact hi
    | _ => cases h
  · cases h

theorem step_cases (observer : Observer σ) (m : Machine) (w : σ) :
    Stepped observer m w (m.step observer w) := by
  have hstep := step_eq observer m w
  by_cases hlimit : m.limit < m.steps
  · rw [if_pos hlimit] at hstep
    exact .spent hlimit hstep
  rw [if_neg hlimit] at hstep
  have hwithin : m.steps ≤ m.limit := Nat.le_of_not_lt hlimit
  cases hi : m.code[m.state.pc]? with
  | none =>
    have hhalted : m.halted = true := by
      simpa [halted, State.halted] using Array.getElem?_eq_none_iff.mp hi
    rw [hi] at hstep
    exact .rested hwithin hhalted hstep
  | some i =>
    cases hoffered : m.offered observer w with
    | mk reply w' =>
      have hreply : (m.offered observer w).1 = reply := by rw [hoffered]
      have hkept : w' = (m.offered observer w).2 := by rw [hoffered]
      rw [hi, hoffered] at hstep
      cases reply with
      | refused message =>
        exact .refused message hwithin (emits_of_refused hreply) hreply (hkept ▸ hstep)
      | accepted =>
        cases hafter : m.state.after m.code i with
        | error fault =>
          simp only [hafter] at hstep
          exact .stuck i fault hwithin hi hafter (hkept ▸ hstep)
        | ok s =>
          have hnext : m.state.next? m.code = some s := by
            rw [State.next?, hi]
            simp [hafter, Except.toOption]
          simp only [hafter] at hstep
          by_cases hlast : m.limit < m.steps + 1
          · rw [if_pos hlast] at hstep
            exact .exceeded s (by omega) hnext hreply (hkept ▸ hstep)
          · rw [if_neg hlast] at hstep
            exact .advanced s (by omega) hnext hreply (hkept ▸ hstep)

lemma step_of_spent {m : Machine} (h : m.limit < m.steps) (w : σ) :
    m.step observer w = ⟨.error (.stepLimit m.limit), m, w⟩ := by
  rw [step_eq, if_pos h]

lemma step_of_halted {m : Machine} (hwithin : m.steps ≤ m.limit) (h : m.halted = true) (w : σ) :
    m.step observer w = ⟨.ok false, m, w⟩ := by
  have hnone : m.code[m.state.pc]? = none := by
    simpa [halted, State.halted] using h
  rw [step_eq, if_neg (by omega), hnone]

lemma run_of_spent {m : Machine} (h : m.limit < m.steps) (w : σ) :
    m.run observer w = ⟨.error (.stepLimit m.limit), m, w⟩ := by
  rw [run, budget, show m.limit + 1 - m.steps = 0 by omega, runFor]

lemma run_of_halted {m : Machine} (hwithin : m.steps ≤ m.limit) (h : m.halted = true) (w : σ) :
    m.run observer w = ⟨.ok m.state.memory.text, m,
      observer.note (.finished m.steps m.state.memory.card) w⟩ := by
  rw [run, budget, show m.limit + 1 - m.steps = m.limit - m.steps + 1 by omega, runFor,
    step_of_halted hwithin h]

lemma moved_of_step_eq_ok_true {m m' : Machine} {w w' : σ}
    (h : m.step observer w = ⟨.ok true, m', w'⟩) :
    ∃ s, m.state.next? m.code = some s ∧ m.steps < m.limit ∧ s.halted m.code = false ∧
      m' = m.moved s ∧ (m.offered observer w).1 = .accepted ∧ w' = (m.offered observer w).2 := by
  cases step_cases observer m w with
  | advanced s within next reply eq =>
    rw [eq] at h
    obtain ⟨hresult, rfl, rfl⟩ := Outcome.mk.inj h
    exact ⟨s, next, within, by simpa using hresult, rfl, reply, rfl⟩
  | _ => simp_all

/-- A step executes one instruction or none. -/
lemma machine_step (observer : Observer σ) (m : Machine) (w : σ) :
    (m.step observer w).machine = m ∨
      ∃ s, m.state.next? m.code = some s ∧ (m.step observer w).machine = m.moved s := by
  cases step_cases observer m w with
  | exceeded s within next reply eq => exact .inr ⟨s, next, by rw [eq]⟩
  | advanced s within next reply eq => exact .inr ⟨s, next, by rw [eq]⟩
  | _ => simp_all

/-- The steps of a run behind which another instruction follows. -/
inductive Steps (observer : Observer σ) : Machine → σ → Machine → σ → Prop
  | refl (m : Machine) (w : σ) : Steps observer m w m w
  | head {m m' m'' : Machine} {w w' w'' : σ} :
    m.step observer w = ⟨.ok true, m', w'⟩ → Steps observer m' w' m'' w'' →
      Steps observer m w m'' w''

lemma Steps.limit_eq {m m' : Machine} {w w' : σ} (h : Steps observer m w m' w') :
    m'.limit = m.limit := by
  induction h with
  | refl => rfl
  | head hstep _ ih =>
    obtain ⟨s, -, -, -, rfl, -⟩ := moved_of_step_eq_ok_true hstep
    exact ih

def runEnd (observer : Observer σ) (last : Outcome σ Bool) : Outcome σ String :=
  match last.result with
  | .ok _ => ⟨.ok last.machine.state.memory.text, last.machine,
      observer.note (.finished last.machine.steps last.machine.state.memory.card) last.kept⟩
  | .error fault => ⟨.error fault, last.machine, last.kept⟩

lemma machine_runEnd (observer : Observer σ) (last : Outcome σ Bool) :
    (runEnd observer last).machine = last.machine := by
  unfold runEnd
  split <;> rfl

lemma runEnd_eq_error {last : Outcome σ Bool} {fault : Fault}
    (h : (runEnd observer last).result = .error fault) : last.result = .error fault := by
  unfold runEnd at h
  split at h
  · cases h
  · next reason hreason => rwa [← Except.error.inj h]

lemma runFor_of_continues {m : Machine} {w : σ} (budget : Nat)
    (h : (m.step observer w).result = .ok true) :
    runFor observer (budget + 1) m w =
      runFor observer budget (m.step observer w).machine (m.step observer w).kept := by
  rw [runFor]
  revert h
  cases m.step observer w with
  | mk result m' w' =>
    rintro rfl
    rfl

/-- A step behind which no other instruction follows ends a run. -/
lemma runFor_of_last {m : Machine} {w : σ} (budget : Nat) (h : (m.step observer w).result ≠ .ok true) :
    runFor observer (budget + 1) m w = runEnd observer (m.step observer w) := by
  rw [runFor]
  revert h
  cases m.step observer w with
  | mk result m' w' =>
    intro h
    match result with
    | .ok true => exact absurd rfl h
    | .ok false => rfl
    | .error fault => rfl

lemma runFor_cases (budget : Nat) (m : Machine) (w : σ) (hb : m.limit + 1 - m.steps ≤ budget) :
    ∃ m' w', Steps observer m w m' w' ∧ (m'.step observer w').result ≠ .ok true ∧
      runFor observer budget m w = runEnd observer (m'.step observer w') := by
  induction budget generalizing m w with
  | zero =>
    have hspent : m.step observer w = ⟨.error (.stepLimit m.limit), m, w⟩ :=
      step_of_spent (by omega) w
    refine ⟨m, w, .refl m w, ?_, ?_⟩
    · rw [hspent]
      simp
    · rw [hspent]
      rfl
  | succ budget ih =>
    by_cases hlast : (m.step observer w).result = .ok true
    · have hstep : m.step observer w =
          ⟨.ok true, (m.step observer w).machine, (m.step observer w).kept⟩ := by rw [← hlast]
      obtain ⟨s, -, hlimit, -, hmachine, -⟩ := moved_of_step_eq_ok_true hstep
      have hbudget :
          (m.step observer w).machine.limit + 1 - (m.step observer w).machine.steps ≤ budget := by
        simp only [hmachine, moved]
        omega
      obtain ⟨m', w', hsteps, hend, heq⟩ := ih _ (m.step observer w).kept hbudget
      rw [runFor_of_continues budget hlast]
      exact ⟨m', w', .head hstep hsteps, hend, heq⟩
    · exact ⟨m, w, .refl m w, hlast, runFor_of_last budget hlast⟩

/-- A run is its steps up to the first behind which no other instruction follows. -/
theorem run_cases (observer : Observer σ) (m : Machine) (w : σ) :
    ∃ m' w', Steps observer m w m' w' ∧ (m'.step observer w').result ≠ .ok true ∧
      m.run observer w = runEnd observer (m'.step observer w') :=
  runFor_cases m.budget m w (Nat.le_refl _)

lemma run_of_step_eq_ok_true {m m' : Machine} {w w' : σ}
    (h : m.step observer w = ⟨.ok true, m', w'⟩) : m.run observer w = m'.run observer w' := by
  obtain ⟨s, -, hlimit, -, rfl, -⟩ := moved_of_step_eq_ok_true h
  have hbudget : m.budget = (m.moved s).budget + 1 := by
    simp only [budget, moved]
    omega
  rw [run, run, hbudget, runFor, h]

/-- A run can be started anew behind any of its steps. -/
lemma Steps.run_eq {m m' : Machine} {w w' : σ} (h : Steps observer m w m' w') :
    m.run observer w = m'.run observer w' := by
  induction h with
  | refl => rfl
  | head hstep _ ih => rw [run_of_step_eq_ok_true hstep, ih]

lemma run_of_last {m : Machine} {w : σ} (hwithin : m.steps ≤ m.limit)
    (h : (m.step observer w).result ≠ .ok true) :
    m.run observer w = runEnd observer (m.step observer w) := by
  have hbudget : m.budget = m.limit - m.steps + 1 := by
    unfold budget
    omega
  rw [run, hbudget]
  exact runFor_of_last _ h

end FlipLoop.Machine
