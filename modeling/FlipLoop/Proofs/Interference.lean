import FlipLoop.Proofs.Delivery
import FlipLoop.Proofs.Parallel
import FlipLoop.Proofs.StructuredRuns

/-!
# Variables that no loop tests

What a program does depends on its memory only through the variables that its loops test. Two machines
whose memories agree on these execute the same instructions, end in the same way and offer as many
snapshots, and their memories differ throughout at the variables at which they differed first. The other
variables matter in one way alone: a text with them may be too long.
-/

namespace FlipLoop

namespace Machine

variable {σ τ α β : Type} {code : Array Instr} {D : Set Nat}

/-- Two machines that differ in nothing but their memories, and in these at the variables of `D`. -/
structure Parallel (code : Array Instr) (D : Set Nat) (m m' : Machine) : Prop where
  code_eq : m.code = code
  code_eq' : m'.code = code
  limit_eq : m.limit = m'.limit
  steps_eq : m.steps = m'.steps
  state : State.Parallel D m.state m'.state

/-- The outcomes of calls on two parallel machines, with as many snapshots in the transcripts. -/
structure Alike (code : Array Instr) (D : Set Nat) (out : Outcome (σ × Transcript) α)
    (out' : Outcome (τ × Transcript) β) : Prop where
  machine : Parallel code D out.machine out'.machine
  length_eq : out.kept.2.length = out'.kept.2.length

/-- Both calls end well, or both fail with the same fault. -/
def EndAlike (result : Except Fault α) (result' : Except Fault β) : Prop :=
  (∃ a b, result = .ok a ∧ result' = .ok b) ∨ ∃ fault, result = .error fault ∧ result' = .error fault

lemma step_of_accepts {observer : Observer σ} (ho : observer.Accepts) (m : Machine) (w : σ) :
    m.step observer w =
      if m.limit < m.steps then
        ⟨.error (.stepLimit m.limit), m, w⟩
      else
        match m.code[m.state.pc]? with
        | none => ⟨.ok false, m, w⟩
        | some i =>
          match m.state.after m.code i with
          | .error fault => ⟨.error fault, m, (m.offered observer w).2⟩
          | .ok s =>
            if m.limit < m.steps + 1 then
              ⟨.error (.stepLimit m.limit), m.moved s,
                observer.note (.limitExceeded s.pc m.limit) (m.offered observer w).2⟩
            else
              ⟨.ok (!s.halted m.code), m.moved s, (m.offered observer w).2⟩ := by
  have hoffered : m.offered observer w = (.accepted, (m.offered observer w).2) :=
    Prod.ext (offered_of_accepts ho m w) rfl
  have hstep := step_eq observer m w
  rw [hoffered] at hstep
  exact hstep

lemma record_of_step_of_accepts {observer : Observer σ} (ho : observer.Accepts) {m : Machine}
    (hwithin : m.steps ≤ m.limit) (w : σ × Transcript) :
    (m.step observer.recorded w).kept.2 = w.2 ++ .accepting (m.state.snapshots m.code) := by
  rw [record_of_step hwithin, record_of_accepted (offered_of_accepts ho.recorded m w)]

namespace Parallel

variable {m m' : Machine} {observer : Observer σ} {observer' : Observer τ} {w : σ × Transcript}
  {w' : τ × Transcript}

lemma length_record_step (h : Parallel code D m m') (ho : observer.Accepts) (ho' : observer'.Accepts)
    (hw : w.2.length = w'.2.length) : (m.step observer.recorded w).kept.2.length =
      (m'.step observer'.recorded w').kept.2.length := by
  by_cases hwithin : m.steps ≤ m.limit
  · have hwithin' : m'.steps ≤ m'.limit := by
      rw [← h.steps_eq, ← h.limit_eq]
      exact hwithin
    rw [record_of_step_of_accepts ho hwithin, record_of_step_of_accepts ho' hwithin', List.length_append,
      List.length_append, Transcript.length_accepting, Transcript.length_accepting, hw, h.code_eq,
      h.code_eq', h.state.length_snapshots]
  · have hspent' : m'.limit < m'.steps := by
      rw [← h.steps_eq, ← h.limit_eq]
      omega
    rw [step_of_spent (by omega), step_of_spent hspent']
    exact hw

lemma step_ends (h : Parallel code D m m') (hcode : Untested code D) (ho : observer.Accepts)
    (ho' : observer'.Accepts) (w : σ) (w' : τ) :
    (m.step observer w).result = (m'.step observer' w').result ∧
      Parallel code D (m.step observer w).machine (m'.step observer' w').machine := by
  rw [step_of_accepts ho, step_of_accepts ho', ← h.steps_eq, ← h.limit_eq, h.code_eq, h.code_eq',
    ← h.state.pc_eq]
  by_cases hspent : m.limit < m.steps
  · rw [if_pos hspent, if_pos hspent]
    exact ⟨rfl, h⟩
  rw [if_neg hspent, if_neg hspent]
  cases hi : code[m.state.pc]? with
  | none => exact ⟨rfl, h⟩
  | some i =>
    have huntested : ∀ v, i = .enter v → v ∉ D := by
      rintro v rfl
      exact hcode _ v hi
    obtain ⟨fault, hs, hs'⟩ | ⟨s, s', hs, hs', hstate⟩ := h.state.after code huntested
    · simp only [hs, hs']
      exact ⟨trivial, h⟩
    · have hmoved : Parallel code D (m.moved s) (m'.moved s') :=
        ⟨h.code_eq, h.code_eq', h.limit_eq, congrArg (· + 1) h.steps_eq, hstate⟩
      simp only [hs, hs']
      by_cases hlast : m.limit < m.steps + 1
      · rw [if_pos hlast, if_pos hlast]
        exact ⟨rfl, hmoved⟩
      · rw [if_neg hlast, if_neg hlast, hstate.halted_eq]
        exact ⟨rfl, hmoved⟩

theorem step (h : Parallel code D m m') (hcode : Untested code D) (ho : observer.Accepts)
    (ho' : observer'.Accepts) (hw : w.2.length = w'.2.length) :
    (m.step observer.recorded w).result = (m'.step observer'.recorded w').result ∧
      Alike code D (m.step observer.recorded w) (m'.step observer'.recorded w') := by
  obtain ⟨hresult, hmachine⟩ := h.step_ends hcode ho.recorded ho'.recorded w w'
  exact ⟨hresult, hmachine, h.length_record_step ho ho' hw⟩

/-- Any number of steps leaves parallel machines, or neither machine counts as far as that. -/
theorem steps (h : Parallel code D m m') (hcode : Untested code D) (ho : observer.Accepts)
    (ho' : observer'.Accepts) (hfit : m.TextsFit) (hfit' : m'.TextsFit) (hw : w.2.length = w'.2.length)
    (n : Nat) :
    Option.Rel (fun a a' => Parallel code D a.1 a'.1 ∧ a.2.2.length = a'.2.2.length)
      (m.afterCalls? w (List.replicate n (.step observer)))
      (m'.afterCalls? w' (List.replicate n (.step observer'))) := by
  induction n generalizing m m' w w' with
  | zero => exact .some ⟨h, hw⟩
  | succ n ih =>
    obtain ⟨-, hmachine, hlength⟩ := h.step hcode ho ho' hw
    have hsteps := hmachine.steps_eq
    rw [List.replicate_succ, List.replicate_succ, afterCalls?, afterCalls?, Call.perform?, Call.perform?,
      hfit.step?_eq, hfit'.step?_eq]
    by_cases hcount : (m.step observer.recorded w).machine.steps < UInt64.size
    · rw [Outcome.counted_of_lt hcount, Outcome.counted_of_lt (hsteps ▸ hcount)]
      exact ih hmachine (hfit.step _ _) (hfit'.step _ _) hlength
    · have hbeyond := Nat.le_of_not_lt hcount
      rw [Outcome.counted_of_le hbeyond, Outcome.counted_of_le (hsteps ▸ hbeyond)]
      exact .none

lemma runFor (h : Parallel code D m m') (hcode : Untested code D) (ho : observer.Accepts)
    (ho' : observer'.Accepts) (hw : w.2.length = w'.2.length) (budget : Nat) :
    let out := runFor observer.recorded budget m w
    let out' := runFor observer'.recorded budget m' w'
    Alike code D out out' ∧ EndAlike out.result out'.result := by
  induction budget generalizing m m' w w' with
  | zero => exact ⟨⟨h, hw⟩, .inr ⟨_, rfl, by rw [h.limit_eq]; rfl⟩⟩
  | succ budget ih =>
    have hstep := h.step hcode ho ho' hw
    rw [Machine.runFor, Machine.runFor]
    generalize m.step observer.recorded w = out, m'.step observer'.recorded w' = out' at hstep
    obtain ⟨result, m₁, w₁⟩ := out
    obtain ⟨result', m₁', w₁'⟩ := out'
    obtain ⟨hresult, hmachine, hlength⟩ := hstep
    obtain rfl : result = result' := hresult
    cases result with
    | error fault => exact ⟨⟨hmachine, hlength⟩, .inr ⟨fault, rfl, rfl⟩⟩
    | ok continues =>
      cases continues with
      | true => exact ih hmachine hlength
      | false => exact ⟨⟨hmachine, hlength⟩, .inl ⟨_, _, rfl, rfl⟩⟩

theorem run (h : Parallel code D m m') (hcode : Untested code D) (ho : observer.Accepts)
    (ho' : observer'.Accepts) (hw : w.2.length = w'.2.length) :
    let out := m.run observer.recorded w
    let out' := m'.run observer'.recorded w'
    Alike code D out out' ∧ EndAlike out.result out'.result := by
  have hbudget : m.budget = m'.budget := by
    unfold budget
    rw [h.limit_eq, h.steps_eq]
  unfold Machine.run
  rw [hbudget]
  exact h.runFor hcode ho ho' hw _

end Parallel

end Machine

end FlipLoop
