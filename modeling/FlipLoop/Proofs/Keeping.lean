import FlipLoop.Proofs.Steps

/-!
# What an observer keeps

A machine changes what its observer keeps only by telling it of events and by offering it snapshots.
What both of these preserve holds behind every step and every run.
-/

namespace FlipLoop

variable {σ : Type} {observer : Observer σ} {P : σ → Prop}

/-- Whatever the observer is told and offered, `P` goes on to hold of what it keeps. -/
structure Observer.Preserves (observer : Observer σ) (P : σ → Prop) : Prop where
  note : ∀ event w, P w → P (observer.note event w)
  offer : ∀ snapshot w, P w → P (observer.offer snapshot w).2

namespace Observer.Preserves

variable {m m' : Machine} {w w' : σ}

lemma offered (h : observer.Preserves P) (m : Machine) (hw : P w) : P (m.offered observer w).2 := by
  unfold Machine.offered
  cases m.code[m.state.pc]? with
  | none => exact hw
  | some i =>
    have hnoted := h.note (.step m.state.pc m.steps i) w hw
    cases i with
    | emit => exact h.offer _ _ (h.note _ _ hnoted)
    | _ => exact hnoted

lemma step (h : observer.Preserves P) (m : Machine) (hw : P w) : P (m.step observer w).kept := by
  cases Machine.step_cases observer m w with
  | spent beyond eq => rwa [eq]
  | rested within halted eq => rwa [eq]
  | refused message within emits reply eq => rw [eq]; exact h.offered m hw
  | stuck i fault within fetched fails eq => rw [eq]; exact h.offered m hw
  | exceeded s within next reply eq => rw [eq]; exact h.note _ _ (h.offered m hw)
  | advanced s within next reply eq => rw [eq]; exact h.offered m hw

lemma steps (h : observer.Preserves P) (hs : Machine.Steps observer m w m' w') (hw : P w) : P w' := by
  induction hs with
  | refl => exact hw
  | @head m _ _ _ _ _ hstep _ ih =>
    apply ih
    have hnext := h.step m hw
    rwa [hstep] at hnext

theorem run (h : observer.Preserves P) (m : Machine) (hw : P w) : P (m.run observer w).kept := by
  obtain ⟨m', w', hsteps, -, hrun⟩ := Machine.run_cases observer m w
  have hlast := h.step m' (h.steps hsteps hw)
  rw [hrun, Machine.runEnd]
  split
  · exact h.note _ _ hlast
  · exact hlast

end Observer.Preserves

end FlipLoop
