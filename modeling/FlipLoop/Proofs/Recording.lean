import FlipLoop.Proofs.Steps
import FlipLoop.Proofs.Walks

/-!
# Recorded runs

`observer.recorded` answers as `observer` does and keeps a transcript of all snapshots that it was
offered, each with its answer. Whatever the answers, a recorded machine stands where the walk of its
program stands after as many instructions, and the accepted snapshots are those shown on the way.
-/

namespace FlipLoop

abbrev Transcript := List (String × Reply)

namespace Transcript

def accepted (record : Transcript) : List String :=
  record.filterMap fun (snapshot, reply) => if reply = .accepted then some snapshot else none

/-- The transcript of an observer that accepts all of `shown`. -/
def accepting (shown : List String) : Transcript :=
  shown.map fun snapshot => (snapshot, .accepted)

@[simp]
lemma accepted_append (r r' : Transcript) : accepted (r ++ r') = r.accepted ++ r'.accepted :=
  List.filterMap_append

@[simp]
lemma accepted_accepting (shown : List String) : (accepting shown).accepted = shown := by
  unfold accepting accepted
  rw [List.filterMap_map]
  exact List.filterMap_some

@[simp]
lemma accepted_refused (snapshot message : String) :
    accepted [(snapshot, .refused message)] = [] := rfl

@[simp]
lemma accepting_append (shown shown' : List String) :
    accepting (shown ++ shown') = accepting shown ++ accepting shown' :=
  List.map_append

@[simp]
lemma length_accepting (shown : List String) : (accepting shown).length = shown.length :=
  List.length_map _

@[simp]
lemma map_fst_accepting (shown : List String) : (accepting shown).map Prod.fst = shown := by
  rw [accepting, List.map_map]
  exact List.map_id _

@[simp]
lemma map_snd_accepting (shown : List String) :
    (accepting shown).map Prod.snd = List.replicate shown.length .accepted := by
  rw [accepting, List.map_map]
  exact List.map_const

end Transcript

namespace Observer

variable {σ : Type}

def recorded (observer : Observer σ) : Observer (σ × Transcript) where
  note event w := (observer.note event w.1, w.2)
  offer snapshot w :=
    let (reply, w') := observer.offer snapshot w.1
    (reply, w', w.2 ++ [(snapshot, reply)])

def Accepts (observer : Observer σ) : Prop :=
  ∀ snapshot w, (observer.offer snapshot w).1 = .accepted

lemma Accepts.recorded {observer : Observer σ} (h : observer.Accepts) : observer.recorded.Accepts :=
  fun snapshot w => h snapshot w.1

end Observer

namespace Machine

variable {σ α : Type}

def Outcome.unrecorded (out : Outcome (σ × Transcript) α) : Outcome σ α :=
  ⟨out.result, out.machine, out.kept.1⟩

lemma offered_recorded (observer : Observer σ) (m : Machine) (w : σ × Transcript) :
    m.offered observer.recorded w =
      ((m.offered observer w.1).1, (m.offered observer w.1).2,
        w.2 ++ (m.state.snapshots m.code).map fun snapshot =>
          (snapshot, (m.offered observer w.1).1)) := by
  unfold offered State.snapshots
  cases m.code[m.state.pc]? with
  | none => simp
  | some i =>
    cases i with
    | emit => rfl
    | _ => simp [offer, Observer.recorded]

lemma offered_of_accepts {observer : Observer σ} (h : observer.Accepts) (m : Machine) (w : σ) :
    (m.offered observer w).1 = .accepted := by
  unfold offered
  cases m.code[m.state.pc]? with
  | none => rfl
  | some i =>
    cases i with
    | emit => exact h _ _
    | _ => rfl

lemma record_of_accepted {observer : Observer σ} {m : Machine} {w : σ × Transcript}
    (h : (m.offered observer.recorded w).1 = .accepted) :
    (m.offered observer.recorded w).2.2 = w.2 ++ .accepting (m.state.snapshots m.code) := by
  rw [offered_recorded] at *
  simp only at h
  simp only [h, Transcript.accepting]

lemma record_of_refused {observer : Observer σ} {m : Machine} {w : σ × Transcript} {message : String}
    (h : (m.offered observer.recorded w).1 = .refused message) :
    (m.offered observer.recorded w).2.2 = w.2 ++ [(m.state.memory.text, .refused message)] := by
  have hemits := emits_of_refused h
  rw [offered_recorded] at *
  simp only at h
  simp only [h, State.snapshots, hemits, List.map_cons, List.map_nil]

lemma record_of_fails {observer : Observer σ} {m : Machine} {w : σ × Transcript} {i : Instr}
    {fault : Fault} (hi : m.code[m.state.pc]? = some i) (h : m.state.after m.code i = .error fault) :
    (m.offered observer.recorded w).2.2 = w.2 := by
  have hsnapshots : m.state.snapshots m.code = [] := by
    unfold State.snapshots
    rw [hi]
    cases i with
    | emit => cases h
    | _ => rfl
  rw [offered_recorded, hsnapshots]
  simp

lemma step_recorded (observer : Observer σ) (m : Machine) (w : σ × Transcript) :
    (m.step observer.recorded w).unrecorded = m.step observer w.1 := by
  rw [step_eq, step_eq, offered_recorded]
  split
  · rfl
  · cases m.code[m.state.pc]? with
    | none => rfl
    | some i =>
      cases m.offered observer w.1 with
      | mk reply w' =>
        cases reply with
        | refused message => rfl
        | accepted =>
          dsimp only
          cases m.state.after m.code i with
          | error fault => rfl
          | ok s =>
            dsimp only
            split <;> rfl

/-- Recording a run changes nothing else. -/
theorem run_recorded (observer : Observer σ) (m : Machine) (w : σ × Transcript) :
    (m.run observer.recorded w).unrecorded = m.run observer w.1 := by
  have hfor : ∀ budget (m : Machine) (w : σ × Transcript),
      (runFor observer.recorded budget m w).unrecorded = runFor observer budget m w.1 := by
    intro budget
    induction budget with
    | zero => exact fun m w => rfl
    | succ budget ih =>
      intro m w
      rw [runFor, runFor, ← step_recorded]
      cases m.step observer.recorded w with
      | mk result m' w' =>
        cases result with
        | error fault => rfl
        | ok continues =>
          cases continues with
          | true => exact ih m' w'
          | false => rfl
  exact hfor m.budget m w

def Outcome.transcribed (out : Outcome (σ × Transcript) α) : Outcome Transcript α :=
  ⟨out.result, out.machine, out.kept.2⟩

/-- A run with the transcript of what it offers in place of what the observer keeps. -/
def report (observer : Observer σ) (m : Machine) (w : σ) : Outcome Transcript String :=
  let out := m.run observer w
  ⟨out.result, out.machine, (m.run observer.recorded (w, [])).kept.2⟩

lemma report_eq (observer : Observer σ) (m : Machine) (w : σ) :
    m.report observer w = (m.run observer.recorded (w, [])).transcribed := by
  unfold report
  rw [← run_recorded observer m (w, [])]
  rfl

/-- `m` has this code and limit and stands where `m.steps` instructions lead from `s`; the snapshots
on the way are `taken`. -/
structure Follows (code : Array Instr) (limit : Nat) (s : State) (m : Machine)
    (taken : List String) : Prop where
  code_eq : m.code = code
  limit_eq : m.limit = limit
  steps_le : m.steps ≤ limit + 1
  leads : Leads code m.steps s m.state taken

namespace Follows

variable {code : Array Instr} {limit : Nat} {s t : State} {m m' : Machine} {taken : List String}
  {observer : Observer σ} {w w' : σ × Transcript}

lemma start (p : Program) (memory : Memory) (limit : Nat) :
    Follows p.toArray limit ⟨0, memory⟩ (Machine.start p memory limit) [] :=
  ⟨rfl, rfl, Nat.zero_le _, .refl _ _⟩

lemma machine_eq {taken' : List String} (h : Follows code limit s m taken)
    (h' : Follows code limit s m' taken') (hsteps : m.steps = m'.steps) : m = m' := by
  obtain ⟨rfl, rfl, -, hleads⟩ := h
  obtain ⟨hcode, hlimit, -, hleads'⟩ := h'
  rw [← hsteps] at hleads'
  have hstate := (hleads.unique hleads').1
  cases m
  cases m'
  simp_all

lemma moved (h : Follows code limit s m taken) (hlimit : m.steps ≤ m.limit)
    (ht : m.state.next? m.code = some t) :
    Follows code limit s (m.moved t) (taken ++ m.state.snapshots m.code) := by
  obtain ⟨rfl, rfl, -, hleads⟩ := h
  exact ⟨rfl, rfl, Nat.succ_le_succ hlimit, hleads.snoc ht⟩

theorem step (observer : Observer σ) (h : Follows code limit s m w.2.accepted) :
    Follows code limit s (m.step observer.recorded w).machine
      (m.step observer.recorded w).kept.2.accepted := by
  cases step_cases observer.recorded m w with
  | spent beyond eq => rwa [eq]
  | rested within halted eq => rwa [eq]
  | refused message within emits reply eq =>
    rw [eq, record_of_refused reply]
    simpa using h
  | stuck i fault within fetched fails eq =>
    rw [eq, record_of_fails fetched fails]
    exact h
  | exceeded t within next reply eq =>
    have hrecord : (m.step observer.recorded w).kept.2 =
        w.2 ++ .accepting (m.state.snapshots m.code) := by
      rw [eq, ← record_of_accepted reply]
      rfl
    rw [hrecord, eq]
    simpa using h.moved (Nat.le_of_eq within) next
  | advanced t within next reply eq =>
    rw [eq, record_of_accepted reply]
    simpa using h.moved (Nat.le_of_lt within) next

theorem steps (hs : Steps observer.recorded m w m' w') (h : Follows code limit s m w.2.accepted) :
    Follows code limit s m' w'.2.accepted := by
  induction hs with
  | refl => exact h
  | head hstep _ ih =>
    apply ih
    have hnext := h.step observer
    rwa [hstep] at hnext

theorem run (observer : Observer σ) (h : Follows code limit s m w.2.accepted) :
    Follows code limit s (m.run observer.recorded w).machine
      (m.run observer.recorded w).kept.2.accepted := by
  obtain ⟨m', w', hsteps, -, hrun⟩ := run_cases observer.recorded m w
  have hlast := (h.steps hsteps).step observer
  rw [hrun, runEnd]
  split <;> exact hlast

end Follows

/-- On the way to the last step of a run all snapshots are accepted. -/
lemma Steps.record {observer : Observer σ} {m m' : Machine} {w w' : σ × Transcript}
    (h : Steps observer.recorded m w m' w') : ∃ shown, w'.2 = w.2 ++ .accepting shown := by
  induction h with
  | refl => exact ⟨[], (List.append_nil _).symm⟩
  | @head m _ _ w _ _ hstep _ ih =>
    obtain ⟨s, -, -, -, -, hreply, rfl⟩ := moved_of_step_eq_ok_true hstep
    obtain ⟨shown, hshown⟩ := ih
    refine ⟨m.state.snapshots m.code ++ shown, ?_⟩
    rw [hshown, record_of_accepted hreply, Transcript.accepting_append, List.append_assoc]

/-- Within the limit, the transcript that a step leaves does not depend on the limit. -/
lemma record_of_step {observer : Observer σ} {m : Machine} (hwithin : m.steps ≤ m.limit)
    (w : σ × Transcript) :
    (m.step observer.recorded w).kept.2 = (m.offered observer.recorded w).2.2 := by
  cases step_cases observer.recorded m w with
  | spent beyond eq => omega
  | rested within halted eq =>
    have hnone : m.code[m.state.pc]? = none := by
      simpa [Machine.halted, State.halted] using halted
    rw [eq, offered, hnone]
  | refused message within emits reply eq => rw [eq]
  | stuck i fault within fetched fails eq => rw [eq]
  | exceeded s within next reply eq =>
    rw [eq]
    rfl
  | advanced s within next reply eq => rw [eq]

lemma step_record (observer : Observer σ) (m : Machine) (w : σ × Transcript) :
    ∃ new, (m.step observer.recorded w).kept.2 = w.2 ++ new := by
  by_cases hwithin : m.steps ≤ m.limit
  · rw [record_of_step hwithin, offered_recorded]
    exact ⟨_, rfl⟩
  · rw [step_of_spent (Nat.lt_of_not_le hwithin)]
    exact ⟨[], (List.append_nil _).symm⟩

lemma record_runEnd (observer : Observer σ) (last : Outcome (σ × Transcript) Bool) :
    (runEnd observer.recorded last).kept.2 = last.kept.2 := by
  unfold runEnd
  split <;> rfl

lemma run_record (observer : Observer σ) (m : Machine) (w : σ × Transcript) :
    ∃ rest, (m.run observer.recorded w).kept.2 = (m.step observer.recorded w).kept.2 ++ rest := by
  obtain ⟨m', w', hsteps, -, hrun⟩ := run_cases observer.recorded m w
  rw [hrun, record_runEnd]
  cases hsteps with
  | refl => exact ⟨[], (List.append_nil _).symm⟩
  | head hstep hsteps =>
    obtain ⟨shown, hshown⟩ := hsteps.record
    obtain ⟨new, hnew⟩ := step_record observer m' w'
    rw [hstep, hnew, hshown, List.append_assoc]
    exact ⟨_, rfl⟩

/-- The ends of a recorded run. In all of them the snapshots but the last are accepted, and the last
one is refused only if that is why the run ended. -/
inductive RunEnded (observer : Observer σ) (record : Transcript)
    (out : Outcome (σ × Transcript) String) : Prop
  | finished (shown : List String) (within : out.machine.steps ≤ out.machine.limit)
    (halted : out.machine.halted = true) (result : out.result = .ok out.machine.state.memory.text)
    (kept : out.kept.2 = record ++ .accepting shown)
  | spent (shown : List String) (beyond : out.machine.limit < out.machine.steps)
    (result : out.result = .error (.stepLimit out.machine.limit))
    (kept : out.kept.2 = record ++ .accepting shown)
  | refused (shown : List String) (message : String) (within : out.machine.steps ≤ out.machine.limit)
    (reply : ∃ w, (out.machine.offered observer.recorded w).1 = .refused message)
    (result : out.result = .error (.refused message))
    (kept : out.kept.2 =
      record ++ .accepting shown ++ [(out.machine.state.memory.text, .refused message)])
  | stuck (i : Instr) (fault : Fault)
    (fetched : out.machine.code[out.machine.state.pc]? = some i)
    (fails : out.machine.state.after out.machine.code i = .error fault)
    (result : out.result = .error fault)

theorem run_ended (observer : Observer σ) (m : Machine) (w : σ × Transcript) :
    RunEnded observer w.2 (m.run observer.recorded w) := by
  obtain ⟨m', w', hsteps, hlast, hrun⟩ := run_cases observer.recorded m w
  obtain ⟨shown, hshown⟩ := hsteps.record
  rw [hrun]
  cases step_cases observer.recorded m' w' with
  | spent beyond eq =>
    rw [eq]
    exact .spent shown beyond rfl hshown
  | rested within halted eq =>
    rw [eq]
    exact .finished shown within halted rfl hshown
  | refused message within emits reply eq =>
    rw [eq]
    refine .refused shown message within ⟨w', reply⟩ rfl ?_
    rw [← hshown]
    exact record_of_refused reply
  | stuck i fault within fetched fails eq =>
    rw [eq]
    exact .stuck i fault fetched fails rfl
  | exceeded s within next reply eq =>
    rw [eq]
    refine .spent (shown ++ m'.state.snapshots m'.code) (by simp [runEnd, moved, within]) rfl ?_
    rw [Transcript.accepting_append, ← List.append_assoc, ← hshown]
    exact record_of_accepted reply
  | advanced s within next reply eq =>
    have hhalted : s.halted m'.code = true := by
      rw [eq] at hlast
      simpa using hlast
    rw [eq]
    refine .finished (shown ++ m'.state.snapshots m'.code) within hhalted rfl ?_
    rw [Transcript.accepting_append, ← List.append_assoc, ← hshown]
    exact record_of_accepted reply

end Machine

end FlipLoop
