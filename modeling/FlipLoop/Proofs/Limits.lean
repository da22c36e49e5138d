import FlipLoop.Proofs.Recording

/-!
# Machines that differ in their limit

A larger limit lets a run go on, and changes nothing else of it: the transcript under the smaller
limit is a beginning of the one under the larger, and a run that ends well is the same under both.
-/

namespace FlipLoop.Machine

variable {σ α : Type} {observer : Observer σ}

def withLimit (m : Machine) (limit : Nat) : Machine :=
  { m with limit := limit }

def Outcome.withLimit (out : Outcome σ α) (limit : Nat) : Outcome σ α :=
  { out with machine := out.machine.withLimit limit }

/-- While another instruction is within the limit, a step does not depend on the limit. -/
lemma step_of_lt {m : Machine} (h : m.steps < m.limit) (w : σ) :
    m.step observer w =
      match m.code[m.state.pc]? with
      | none => ⟨.ok false, m, w⟩
      | some i =>
        match m.offered observer w with
        | (.refused message, w) => ⟨.error (.refused message), m, w⟩
        | (.accepted, w) =>
          match m.state.after m.code i with
          | .error fault => ⟨.error fault, m, w⟩
          | .ok s => ⟨.ok (!s.halted m.code), m.moved s, w⟩ := by
  have hbefore : ¬m.limit < m.steps := by omega
  have hbehind : ¬m.limit < m.steps + 1 := by omega
  have hstep := step_eq observer m w
  simp only [if_neg hbefore, if_neg hbehind] at hstep
  exact hstep

lemma step_withLimit {m : Machine} {limit : Nat} (h : m.steps < m.limit) (hl : m.limit ≤ limit)
    (observer : Observer σ) (w : σ) :
    (m.withLimit limit).step observer w = (m.step observer w).withLimit limit := by
  have h' : (m.withLimit limit).steps < (m.withLimit limit).limit := Nat.lt_of_lt_of_le h hl
  have hoffered : (m.withLimit limit).offered observer w = m.offered observer w := rfl
  rw [step_of_lt h, step_of_lt h', hoffered]
  unfold withLimit
  dsimp only
  cases m.code[m.state.pc]? with
  | none => rfl
  | some i =>
    dsimp only
    split
    · rfl
    · split <;> rfl

lemma Steps.withLimit {m m' : Machine} {w w' : σ} {limit : Nat} (h : Steps observer m w m' w')
    (hl : m.limit ≤ limit) : Steps observer (m.withLimit limit) w (m'.withLimit limit) w' := by
  induction h with
  | refl => exact .refl _ _
  | @head m m' m'' w w' w'' hstep _ ih =>
    obtain ⟨s, -, hlimit, -, rfl, -⟩ := moved_of_step_eq_ok_true hstep
    have hstep' : (m.withLimit limit).step observer w = ⟨.ok true, (m.moved s).withLimit limit, w'⟩ := by
      rw [step_withLimit hlimit hl, hstep]
      rfl
    exact .head hstep' (ih hl)

/-- A larger limit continues the transcript of a run. -/
theorem record_prefix_of_le (observer : Observer σ) (m : Machine) {limit : Nat} (hl : m.limit ≤ limit)
    (w : σ × Transcript) :
    (m.run observer.recorded w).kept.2 <+: ((m.withLimit limit).run observer.recorded w).kept.2 := by
  obtain ⟨m', w', hsteps, -, hrun⟩ := run_cases observer.recorded m w
  have hlimit : m'.limit = m.limit := hsteps.limit_eq
  rw [hrun, record_runEnd, (hsteps.withLimit hl).run_eq]
  obtain ⟨rest, hrest⟩ := run_record observer (m'.withLimit limit) w'
  rw [hrest]
  by_cases hwithin : m'.steps ≤ m'.limit
  · have hwithin' : (m'.withLimit limit).steps ≤ (m'.withLimit limit).limit := by
      simp only [withLimit]
      omega
    rw [record_of_step hwithin, record_of_step hwithin']
    exact List.prefix_append _ _
  · obtain ⟨new, hnew⟩ := step_record observer (m'.withLimit limit) w'
    rw [step_of_spent (by omega), hnew, List.append_assoc]
    exact List.prefix_append _ _

/-- A run that ends well does not depend on a larger limit. -/
theorem run_withLimit (observer : Observer σ) (m : Machine) {limit : Nat} {w : σ} {text : String}
    (hl : m.limit ≤ limit) (h : (m.run observer w).result = .ok text) :
    (m.withLimit limit).run observer w = (m.run observer w).withLimit limit := by
  obtain ⟨m', w', hsteps, hlast, hrun⟩ := run_cases observer m w
  have hlimit : m'.limit = m.limit := hsteps.limit_eq
  rw [hrun] at h
  rw [hrun, (hsteps.withLimit hl).run_eq]
  cases step_cases observer m' w' with
  | rested within halted eq =>
    have hwithin' : (m'.withLimit limit).steps ≤ (m'.withLimit limit).limit := by
      simp only [withLimit]
      omega
    rw [run_of_halted hwithin' halted, eq]
    rfl
  | advanced s within next reply eq =>
    have hstep := step_withLimit within (hlimit ▸ hl) observer w'
    have hwithin' : (m'.withLimit limit).steps ≤ (m'.withLimit limit).limit := by
      simp only [withLimit]
      omega
    rw [run_of_last hwithin' (by rw [hstep]; exact hlast), hstep, eq]
    rfl
  | spent beyond eq => rw [eq] at h; cases h
  | refused message within emits reply eq => rw [eq] at h; cases h
  | stuck i fault within fetched fails eq => rw [eq] at h; cases h
  | exceeded s within next reply eq => rw [eq] at h; cases h

end FlipLoop.Machine
