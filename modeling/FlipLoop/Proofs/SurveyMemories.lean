import FlipLoop.Proofs.Bounds
import FlipLoop.Proofs.SurveyReport

/-!
# The texts of a survey

A survey makes texts of memories: of those that its runs show, and of the last one of each run. The
indices of these memories are operands of the programs drawn, so they are below the number of variables
that was asked for, and nothing else bounds them. The text of a memory is as long as its highest index
says, so up to the largest capacity of a text every number of variables is safe, and beyond it some are
not.
-/

namespace FlipLoop

open Chance Machine

namespace Machine

/-- The memories that an unwatched run makes texts of: those that it shows, and the last one. -/
inductive Writes (m : Machine) : Memory → Prop
  | snapshot {m' : Machine} (steps : Steps .silent m () m' ()) (within : m'.steps ≤ m'.limit)
    (emits : m'.code[m'.state.pc]? = some .emit) : Writes m m'.state.memory
  | last : Writes m (m.run .silent ()).machine.state.memory

variable {m m' : Machine} {w w' : Unit × Transcript} {memory : Memory}

namespace Writes

lemma of_step (hstep : m.step .silent () = ⟨.ok true, m', ()⟩) (h : m'.Writes memory) :
    m.Writes memory := by
  cases h with
  | snapshot steps within emits => exact .snapshot (.head hstep steps) within emits
  | last =>
    rw [← run_of_step_eq_ok_true hstep]
    exact .last

lemma exists_reached (h : m.Writes memory) : ∃ m', Reached m m' ∧ m'.state.memory = memory := by
  cases h with
  | snapshot steps within emits => exact ⟨_, .of_steps steps, rfl⟩
  | last => exact ⟨_, Reached.refl.run .silent (), rfl⟩

end Writes

lemma writes_of_step (w : Unit × Transcript) :
    ∀ offered ∈ (m.step Observer.silent.recorded w).kept.2,
      offered ∈ w.2 ∨ ∃ memory, m.Writes memory ∧ offered.1 = memory.text := by
  intro offered hoffered
  by_cases hwithin : m.steps ≤ m.limit
  · rw [record_of_step hwithin, offered_recorded] at hoffered
    obtain hbefore | hnow := List.mem_append.mp hoffered
    · exact .inl hbefore
    · obtain ⟨snapshot, hsnapshot, rfl⟩ := List.mem_map.mp hnow
      unfold State.snapshots at hsnapshot
      split at hsnapshot
      · next emits =>
        exact .inr ⟨_, .snapshot (.refl m ()) hwithin emits, List.mem_singleton.mp hsnapshot⟩
      · cases hsnapshot
  · rw [step_of_spent (Nat.lt_of_not_le hwithin)] at hoffered
    exact .inl hoffered

lemma Steps.writes (h : Steps Observer.silent.recorded m w m' w') :
    ∀ offered ∈ (m'.step Observer.silent.recorded w').kept.2,
      offered ∈ w.2 ∨ ∃ memory, m.Writes memory ∧ offered.1 = memory.text := by
  intro offered hoffered
  induction h with
  | refl m w => exact writes_of_step w offered hoffered
  | @head m m' _ w w' _ hstep _ ih =>
    obtain hbefore | ⟨memory, hmemory, heq⟩ := ih hoffered
    · have hkept : w' = (m.step Observer.silent.recorded w).kept := by rw [hstep]
      exact writes_of_step w offered (hkept ▸ hbefore)
    · have hsilent : m.step .silent () = ⟨.ok true, m', ()⟩ := by
        rw [← step_recorded Observer.silent m w, hstep]
        rfl
      exact .inr ⟨memory, hmemory.of_step hsilent, heq⟩

/-- Whatever an unwatched run would show is the text of a memory that it writes, and so is its result. -/
theorem writes_of_run (m : Machine) :
    (∀ offered ∈ (m.report .silent ()).kept, ∃ memory, m.Writes memory ∧ offered.1 = memory.text) ∧
      ∀ text, (m.run .silent ()).result = .ok text → ∃ memory, m.Writes memory ∧ text = memory.text := by
  constructor
  · intro offered hoffered
    obtain ⟨m', w', hsteps, -, hrun⟩ := run_cases Observer.silent.recorded m ((), [])
    rw [report, hrun, record_runEnd] at hoffered
    exact (hsteps.writes offered hoffered).resolve_left List.not_mem_nil
  · intro text htext
    obtain ⟨m', w', -, -, hrun⟩ := run_cases Observer.silent m ()
    refine ⟨_, .last, ?_⟩
    rw [hrun] at htext ⊢
    cases hlast : m'.step .silent w' with
    | mk result machine kept =>
      rw [hlast] at htext
      cases result with
      | ok continues => exact (Except.ok.inj htext).symm
      | error fault => cases htext

end Machine

/-- The indices of the memories that a drawn program writes are its operands. -/
lemma Row.highest_lt_of_writes {recipe : Recipe} {limit : Nat} {seed : UInt64} {memory : Memory}
    (h : (Machine.start (program recipe seed) .empty limit).Writes memory) :
    ∀ high ∈ memory.highest?, high < max recipe.variableBound 1 := by
  obtain ⟨m, hreached, rfl⟩ := h.exists_reached
  obtain ⟨-, n, -, hwalk⟩ := hreached.walk
  have hcode : ∀ i ∈ (program recipe seed).toArray, ∀ v ∈ i.operand?, v < max recipe.variableBound 1 :=
    fun i hi => operand_lt_of_mem_drawProgram .xoshiro recipe _ i (List.mem_toArray.mp hi)
  intro high hhigh
  exact State.ones_lt_of_walk hwalk hcode (by simp [start, Memory.empty]) high
    (List.mem_of_getLast? hhigh)

/-- The memories that a survey makes texts of. -/
def Survey.Writes (survey : Survey) (memory : Memory) : Prop :=
  ∃ seed ∈ seeds survey.seed survey.count,
    (Machine.start (Row.program survey.recipe seed) .empty survey.limit).Writes memory

namespace CommandLine

/-- The indices of the memories that a survey writes are below the number of variables. So no length of a
text overflows, and all texts fit if the number of variables is a capacity. -/
theorem sample_texts_fit_small_bounds {arguments : List String} {verbosity : Nat} {survey : Survey}
    (h : Invocation.ofArguments arguments = some ⟨verbosity, .sample survey⟩) :
    (∀ memory, survey.Writes memory → ∀ high ∈ memory.highest?,
      high < max survey.recipe.variableBound 1 ∧ high + 1 < UInt64.size) ∧
      (survey.recipe.variableBound ≤ largestCapacity → ∀ memory, survey.Writes memory → memory.Fits) := by
  have hbound : max survey.recipe.variableBound 1 < UInt64.size :=
    Nat.max_lt.mpr ⟨variableBound_lt_of_ofArguments h, by decide⟩
  have hhigh : ∀ memory, survey.Writes memory → ∀ high ∈ memory.highest?,
      high < max survey.recipe.variableBound 1 := by
    rintro memory ⟨seed, -, hwrites⟩
    exact Row.highest_lt_of_writes hwrites
  constructor
  · intro memory hwrites high hmem
    have hlt := hhigh memory hwrites high hmem
    exact ⟨hlt, Nat.lt_of_le_of_lt hlt hbound⟩
  · intro hcapacity memory hwrites high hmem
    have hmax : max survey.recipe.variableBound 1 ≤ largestCapacity :=
      Nat.max_le.mpr ⟨hcapacity, by decide⟩
    exact Nat.le_trans (hhigh memory hwrites high hmem) hmax

/-- The greatest number of variables that is a capacity. -/
theorem sample_texts_fit_at_capacity :
    let survey : Survey :=
      { seed := 3, count := 1, recipe := { length := 1, variableBound := largestCapacity }, limit := 8192 }
    Invocation.ofArguments (surveyArguments 3 1 1 0x7fffffffffffffff 8192) =
        some ⟨0, .sample survey⟩ ∧
      ∀ memory, survey.Writes memory → memory.Fits := by
  intro survey
  have harguments : Invocation.ofArguments (surveyArguments 3 1 1 0x7fffffffffffffff 8192) =
      some ⟨0, .sample survey⟩ := ofArguments_surveyArguments 3 1 1 0x7fffffffffffffff 8192
  exact ⟨harguments, (sample_texts_fit_small_bounds harguments).2 (Nat.le_refl _)⟩

/-- Beyond the largest capacity a single flip is drawn whose memory has a text that does not fit. -/
theorem sample_text_beyond_capacity :
    let survey : Survey :=
      { seed := 3, count := 1, recipe := { length := 1, variableBound := UInt64.size - 1 }, limit := 8192 }
    Invocation.ofArguments (surveyArguments 3 1 1 0xffffffffffffffff 8192) =
        some ⟨0, .sample survey⟩ ∧
      ∃ memory, survey.Writes memory ∧ memory.highest? = some 15303771331337386035 ∧ ¬memory.Fits := by
  intro survey
  have hhighest : (Row.run survey.recipe survey.limit 3).machine.state.memory.highest? =
      some 15303771331337386035 := by decide +kernel
  have hwrites : survey.Writes (Row.run survey.recipe survey.limit 3).machine.state.memory :=
    ⟨3, List.mem_singleton.mpr rfl, .last⟩
  refine ⟨ofArguments_surveyArguments 3 1 1 0xffffffffffffffff 8192, _, hwrites, hhighest, ?_⟩
  intro hfits
  exact absurd (hfits _ hhighest) (by decide)

end CommandLine

end FlipLoop
