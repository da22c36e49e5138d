import FlipLoop.Proofs.Walks
import Mathlib.Data.Set.Basic

/-!
# Parallel states

Two states are parallel if their counters are equal; `D` is the set of the variables at which their
memories differ. As long as no loop tests a variable of `D`, an instruction leads parallel states to
parallel states, with the same `D`: a flip changes both memories at the same variable.
-/

namespace FlipLoop

namespace Memory

/-- The variables at which the memories differ. -/
def difference (m m' : Memory) : Set Nat := { v | m.get v ≠ m'.get v }

lemma notMem_difference_iff {m m' : Memory} {v : Nat} : v ∉ m.difference m' ↔ m.get v = m'.get v :=
  not_not

lemma difference_flip (m m' : Memory) (v : Nat) :
    (m.flip v).difference (m'.flip v) = m.difference m' := by
  ext w
  simp only [difference, Set.mem_ofPred_eq, get_flip]
  by_cases hw : w = v
  · simp [hw]
  · simp [hw]

end Memory

/-- No loop of the code tests a variable of `D`. -/
def Untested (code : Array Instr) (D : Set Nat) : Prop :=
  ∀ pc v : Nat, code[pc]? = some (.enter v) → v ∉ D

lemma Program.mem_of_fetched {p : Program} {pc : Nat} {i : Instr} (h : p.toArray[pc]? = some i) :
    i ∈ p := by
  simpa using Array.mem_of_getElem? h

lemma untested_difference {p : Program} {m m' : Memory}
    (h : ∀ v, .enter v ∈ p → m.get v = m'.get v) : Untested p.toArray (m.difference m') := by
  intro pc v hv
  rw [Memory.notMem_difference_iff]
  exact h v (Program.mem_of_fetched hv)

namespace State

structure Parallel (D : Set Nat) (s s' : State) : Prop where
  pc_eq : s.pc = s'.pc
  difference_eq : s.memory.difference s'.memory = D

namespace Parallel

variable {code : Array Instr} {D : Set Nat} {s s' : State}

lemma get_eq (h : Parallel D s s') {v : Nat} (hv : v ∉ D) : s.memory.get v = s'.memory.get v := by
  rw [← Memory.notMem_difference_iff, h.difference_eq]
  exact hv

lemma halted_eq (h : Parallel D s s') : s.halted code = s'.halted code := by
  unfold halted
  rw [h.pc_eq]

lemma length_snapshots (h : Parallel D s s') :
    (s.snapshots code).length = (s'.snapshots code).length := by
  unfold snapshots
  rw [h.pc_eq]
  split <;> rfl

/-- An instruction fails in both of two parallel states, with the same fault, or leads to parallel
states. -/
theorem after (code : Array Instr) (h : Parallel D s s') {i : Instr} (hi : ∀ v, i = .enter v → v ∉ D) :
    (∃ fault, s.after code i = .error fault ∧ s'.after code i = .error fault) ∨
      ∃ t t', s.after code i = .ok t ∧ s'.after code i = .ok t' ∧ Parallel D t t' := by
  have hpc := h.pc_eq
  cases i with
  | flip v =>
    refine .inr ⟨_, _, rfl, rfl, by simp only [hpc], ?_⟩
    rw [Memory.difference_flip]
    exact h.difference_eq
  | emit => exact .inr ⟨_, _, rfl, rfl, by simp only [hpc], h.difference_eq⟩
  | enter v =>
    unfold State.after
    dsimp only
    rw [← h.get_eq (hi v rfl), ← hpc]
    cases s.memory.get v with
    | true => exact .inr ⟨_, _, rfl, rfl, rfl, h.difference_eq⟩
    | false =>
      cases Program.closing? code s.pc with
      | none => exact .inl ⟨_, rfl, rfl⟩
      | some stop => exact .inr ⟨_, _, rfl, rfl, rfl, h.difference_eq⟩
  | back =>
    unfold State.after
    dsimp only
    rw [← hpc]
    cases Program.opening? code s.pc with
    | none => exact .inl ⟨_, rfl, rfl⟩
    | some start => exact .inr ⟨_, _, rfl, rfl, rfl, h.difference_eq⟩

theorem next (h : Parallel D s s') (hcode : Untested code D) :
    Option.Rel (Parallel D) (s.next? code) (s'.next? code) := by
  unfold next?
  rw [← h.pc_eq]
  cases hi : code[s.pc]? with
  | none => exact .none
  | some i =>
    have huntested : ∀ v, i = .enter v → v ∉ D := by
      rintro v rfl
      exact hcode s.pc v hi
    obtain ⟨fault, hs, hs'⟩ | ⟨t, t', hs, hs', ht⟩ := h.after code huntested
    · simp only [hs, hs']
      exact .none
    · simp only [hs, hs']
      exact .some ht

/-- Walks of the same length from parallel states lead to parallel states, or neither gets that far. -/
theorem walk (h : Parallel D s s') (hcode : Untested code D) (n : Nat) :
    Option.Rel (Parallel D) (s.walk? code n) (s'.walk? code n) := by
  induction n generalizing s s' with
  | zero => exact .some h
  | succ n ih =>
    have hnext := h.next hcode
    rw [walk?, walk?]
    generalize s.next? code = t, s'.next? code = t' at hnext
    cases hnext with
    | none => exact .none
    | some ht => exact ih ht

end Parallel

/-- A variable that no instruction flips keeps its bit. -/
lemma get_of_walk {p : Program} {s t : State} {v n : Nat} (h : s.walk? p.toArray n = some t)
    (hv : .flip v ∉ p) : t.memory.get v = s.memory.get v := by
  induction n generalizing s with
  | zero =>
    obtain rfl := Option.some_inj.mp h
    rfl
  | succ n ih =>
    rw [walk?] at h
    obtain ⟨u, hu, hut⟩ := Option.bind_eq_some_iff.mp h
    rw [ih hut]
    cases advance_of_next hu with
    | flip w fetched =>
      have hne : v ≠ w := by
        rintro rfl
        exact hv (Program.mem_of_fetched fetched)
      simp only [Memory.get_flip, if_neg hne]
    | _ => rfl

end State

end FlipLoop
