import FlipLoop.Proofs.StructuredRuns

/-!
# What a run tells its observer

A run tells of each instruction of the walk of its program, offers the snapshots on the way, and tells at
the end how it ended. An observer that accepts all snapshots keeps what it makes of these events, one
after the other.
-/

namespace FlipLoop

variable {σ : Type} {observer : Observer σ}

namespace Observer

/-- What the observer keeps behind an event. The event of a snapshot comes with the offer of it. -/
def hear (observer : Observer σ) (w : σ) (event : Event) : σ :=
  match event with
  | .output snapshot => (observer.offer snapshot (observer.note (.output snapshot) w)).2
  | _ => observer.note event w

def hearAll (observer : Observer σ) (w : σ) (events : List Event) : σ :=
  events.foldl observer.hear w

@[simp]
lemma hearAll_nil (observer : Observer σ) (w : σ) : observer.hearAll w [] = w :=
  rfl

lemma hearAll_append (observer : Observer σ) (w : σ) (events events' : List Event) :
    observer.hearAll w (events ++ events') = observer.hearAll (observer.hearAll w events) events' :=
  List.foldl_append

end Observer

namespace Event

/-- The counter, the number and the instruction of an instruction that is told. -/
def step? : Event → Option (Nat × Nat × Instr)
  | step pc steps i => some (pc, steps, i)
  | _ => none

def snapshot? : Event → Option String
  | output snapshot => some snapshot
  | _ => none

/-- Tells how a run ended. -/
def isVerdict : Event → Bool
  | finished .. | limitExceeded .. => true
  | _ => false

end Event

namespace State

/-- The events of the instruction `i` at the counter, which is number `steps` of its run. -/
def events (s : State) (steps : Nat) (i : Instr) : List Event :=
  .step s.pc steps i ::
    match i with
    | .emit => [.output s.memory.text]
    | _ => []

/-- The events of the next `count` instructions, the first of which is number `steps`. -/
def told (code : Array Instr) : Nat → Nat → State → List Event
  | 0, _, _ => []
  | count + 1, steps, s =>
    match code[s.pc]? with
    | none => []
    | some i =>
      s.events steps i ++
        match s.next? code with
        | some t => told code count (steps + 1) t
        | none => []

variable {code : Array Instr} {s t : State} {i : Instr}

lemma exists_fetched_of_next (h : s.next? code = some t) : ∃ i, code[s.pc]? = some i := by
  unfold next? at h
  cases hi : code[s.pc]? with
  | none =>
    rw [hi] at h
    cases h
  | some i => exact ⟨i, rfl⟩

lemma told_succ (hi : code[s.pc]? = some i) (ht : s.next? code = some t) (count steps : Nat) :
    told code (count + 1) steps s = s.events steps i ++ told code count (steps + 1) t := by
  rw [told, hi, ht]

lemma told_one (hi : code[s.pc]? = some i) (steps : Nat) : told code 1 steps s = s.events steps i := by
  rw [told, hi]
  cases s.next? code <;> exact List.append_nil _

lemma told_add {m : Nat} (h : s.walk? code m = some t) (count steps : Nat) :
    told code (m + count) steps s = told code m steps s ++ told code count (steps + m) t := by
  induction m generalizing s steps with
  | zero =>
    obtain rfl := Option.some_inj.mp h
    rw [told, Nat.zero_add, Nat.add_zero, List.nil_append]
  | succ m ih =>
    obtain ⟨u, hu, hut⟩ := Option.bind_eq_some_iff.mp h
    obtain ⟨i, hi⟩ := exists_fetched_of_next hu
    rw [Nat.succ_add, told_succ hi hu, told_succ hi hu, ih hut, List.append_assoc,
      show steps + 1 + m = steps + (m + 1) by omega]

lemma filterMap_snapshot_events (hi : code[s.pc]? = some i) (steps : Nat) :
    (s.events steps i).filterMap Event.snapshot? = s.snapshots code := by
  rw [snapshots, hi]
  cases i <;> rfl

/-- The snapshots that are told are those that are shown. -/
lemma snapshots_told (count steps : Nat) (s : State) :
    (told code count steps s).filterMap Event.snapshot? = s.shown code count := by
  induction count generalizing steps s with
  | zero => rfl
  | succ count ih =>
    rw [told, shown]
    cases hi : code[s.pc]? with
    | none => simp [snapshots, next?, hi]
    | some i =>
      dsimp only
      rw [List.filterMap_append, filterMap_snapshot_events hi]
      cases s.next? code with
      | none => rfl
      | some t => exact congrArg (s.snapshots code ++ ·) (ih (steps + 1) t)

lemma filterMap_step_events (s : State) (steps : Nat) (i : Instr) :
    (s.events steps i).filterMap Event.step? = [(s.pc, steps, i)] := by
  cases i <;> rfl

/-- The instructions that are told are those of the walk. -/
lemma steps_told {n : Nat} (h : s.walk? code n = some t) (steps : Nat) :
    ((s.told code n steps).filterMap Event.step?).length = n ∧
      ∀ k < n, ∃ u i, s.walk? code k = some u ∧ code[u.pc]? = some i ∧
        ((s.told code n steps).filterMap Event.step?)[k]? = some (u.pc, steps + k, i) := by
  induction n generalizing s steps with
  | zero => exact ⟨rfl, fun k hk => absurd hk (Nat.not_lt_zero k)⟩
  | succ n ih =>
    obtain ⟨u, hu, hut⟩ := Option.bind_eq_some_iff.mp h
    obtain ⟨i, hi⟩ := exists_fetched_of_next hu
    obtain ⟨hlength, hsteps⟩ := ih hut (steps + 1)
    rw [told_succ hi hu, List.filterMap_append, filterMap_step_events, List.singleton_append]
    refine ⟨congrArg (· + 1) hlength, fun k hk => ?_⟩
    cases k with
    | zero => exact ⟨s, i, rfl, hi, rfl⟩
    | succ k =>
      obtain ⟨v, j, hv, hj, hstep⟩ := hsteps k (by omega)
      refine ⟨v, j, ?_, hj, ?_⟩
      · rw [walk?, hu]
        exact hv
      · rw [List.getElem?_cons_succ, hstep, show steps + 1 + k = steps + (k + 1) by omega]

lemma isVerdict_of_mem_events {steps : Nat} {event : Event} (h : event ∈ s.events steps i) :
    event.isVerdict = false := by
  revert h event
  cases i <;> simp [events, Event.isVerdict]

lemma isVerdict_of_mem_told {count steps : Nat} {event : Event} (h : event ∈ s.told code count steps) :
    event.isVerdict = false := by
  induction count generalizing steps s with
  | zero => cases h
  | succ count ih =>
    rw [told] at h
    cases hi : code[s.pc]? with
    | none => simp [hi] at h
    | some i =>
      simp only [hi] at h
      obtain hnow | hrest := List.mem_append.mp h
      · exact isVerdict_of_mem_events hnow
      · cases ht : s.next? code with
        | none => simp [ht] at hrest
        | some t =>
          rw [ht] at hrest
          exact ih hrest

end State

namespace Machine

/-- The event that tells how a run ended. -/
def Outcome.verdict (out : Outcome σ String) : Event :=
  match out.result with
  | .ok _ => .finished out.machine.steps out.machine.state.memory.card
  | .error _ => .limitExceeded out.machine.state.pc out.machine.limit

lemma Outcome.verdict_of_ok {out : Outcome σ String} {text : String} (h : out.result = .ok text) :
    out.verdict = .finished out.machine.steps out.machine.state.memory.card := by
  rw [verdict, h]

lemma Outcome.verdict_of_error {out : Outcome σ String} {fault : Fault} (h : out.result = .error fault) :
    out.verdict = .limitExceeded out.machine.state.pc out.machine.limit := by
  rw [verdict, h]

variable {m m' : Machine} {w w' : σ} {i : Instr}

lemma offered_eq_hearAll (hi : m.code[m.state.pc]? = some i) (observer : Observer σ) (w : σ) :
    (m.offered observer w).2 = observer.hearAll w (m.state.events m.steps i) := by
  unfold offered
  rw [hi]
  cases i <;> rfl

/-- What is kept on the way to the last step of a run. -/
lemma Steps.heard (h : Steps observer m w m' w') (hwithin : m.steps ≤ m.limit) :
    m'.steps ≤ m'.limit ∧ m'.code = m.code ∧ m'.limit = m.limit ∧
      ∃ n, m'.steps = m.steps + n ∧ m.state.walk? m.code n = some m'.state ∧
        w' = observer.hearAll w (m.state.told m.code n m.steps) := by
  induction h with
  | refl => exact ⟨hwithin, rfl, rfl, 0, rfl, rfl, rfl⟩
  | @head m _ _ w _ _ hstep _ ih =>
    obtain ⟨s, hs, hlimit, -, rfl, -, rfl⟩ := moved_of_step_eq_ok_true hstep
    obtain ⟨hwithin', hcode, hlimit', n, hsteps, hwalk, rfl⟩ := ih hlimit
    obtain ⟨i, hi⟩ := State.exists_fetched_of_next hs
    refine ⟨hwithin', hcode, hlimit', n + 1, ?_, ?_, ?_⟩
    · rw [hsteps]
      simp only [moved]
      omega
    · rw [State.walk?, hs]
      exact hwalk
    · rw [offered_eq_hearAll hi, State.told_succ hi hs, Observer.hearAll_append]
      rfl

/-- The end of a run whose snapshots are all accepted, with all that the observer keeps. -/
structure Heard (observer : Observer σ) (p : Program) (memory : Memory) (limit : Nat) (w : σ)
    (out : Outcome σ String) : Prop where
  walk_eq : State.walk? p.toArray out.machine.steps ⟨0, memory⟩ = some out.machine.state
  kept_eq : out.kept =
    observer.hearAll w (State.told p.toArray out.machine.steps 0 ⟨0, memory⟩ ++ [out.verdict])
  ends : (out.result = .ok out.machine.state.memory.text ∧ out.machine.steps ≤ limit ∧
      out.machine.state.halted p.toArray = true) ∨
    (out.result = .error (.stepLimit limit) ∧ out.machine.limit = limit ∧ out.machine.steps = limit + 1)

theorem run_heard {p : Program} (hp : p.Balanced) (ho : observer.Accepts) (memory : Memory) (limit : Nat)
    (w : σ) : Heard observer p memory limit w ((start p memory limit).run observer w) := by
  obtain ⟨m', w', hsteps, hlast, hrun⟩ := run_cases observer (start p memory limit) w
  obtain ⟨hwithin, hcode, hlimit, n, hn, hwalk, hkept⟩ := hsteps.heard (Nat.zero_le limit)
  change m'.code = p.toArray at hcode
  change m'.limit = limit at hlimit
  change m'.steps = 0 + n at hn
  change State.walk? p.toArray n ⟨0, memory⟩ = some m'.state at hwalk
  change w' = observer.hearAll w (State.told p.toArray n 0 ⟨0, memory⟩) at hkept
  rw [Nat.zero_add] at hn
  subst hn
  -- one instruction more, which the limit or the end of the program lets no other follow
  have hmoved : ∀ s, m'.state.next? m'.code = some s →
      State.walk? p.toArray (m'.steps + 1) ⟨0, memory⟩ = some s ∧
        (m'.offered observer w').2 =
          observer.hearAll w (State.told p.toArray (m'.steps + 1) 0 ⟨0, memory⟩) := by
    intro s hs
    obtain ⟨i, hi⟩ := State.exists_fetched_of_next hs
    have hi' : p.toArray[m'.state.pc]? = some i := by rwa [hcode] at hi
    rw [hcode] at hs
    constructor
    · rw [State.walk?_add, hwalk, Option.bind_some, State.walk?, hs]
      rfl
    · rw [State.told_add hwalk, State.told_one hi', Observer.hearAll_append, ← hkept,
        offered_eq_hearAll hi, Nat.zero_add]
  rw [hrun]
  cases step_cases observer m' w' with
  | spent beyond eq => omega
  | rested within halted eq =>
    rw [eq]
    refine ⟨hwalk, ?_, .inl ⟨rfl, hlimit ▸ hwithin, hcode ▸ halted⟩⟩
    rw [Observer.hearAll_append]
    exact congrArg _ hkept
  | refused message within emits reply eq =>
    rw [offered_of_accepts ho] at reply
    cases reply
  | stuck i fault within fetched fails eq =>
    have hfollows : Follows p.toArray limit ⟨0, memory⟩ m' (State.shown p.toArray m'.steps ⟨0, memory⟩) :=
      ⟨hcode, hlimit, by omega, hwalk, rfl⟩
    exact absurd fails (hfollows.not_fails hp fetched)
  | exceeded s within next reply eq =>
    obtain ⟨hwalk', hkept'⟩ := hmoved s next
    rw [eq]
    refine ⟨hwalk', ?_, .inr ⟨congrArg (Except.error <| Fault.stepLimit ·) hlimit, hlimit, ?_⟩⟩
    · rw [Observer.hearAll_append]
      exact congrArg _ hkept'
    · exact congrArg (· + 1) (within.trans hlimit)
  | advanced s within next reply eq =>
    obtain ⟨hwalk', hkept'⟩ := hmoved s next
    have hhalted : s.halted m'.code = true := by
      rw [eq] at hlast
      simpa using hlast
    rw [eq]
    refine ⟨hwalk', ?_, .inl ⟨rfl, hlimit ▸ within, hcode ▸ hhalted⟩⟩
    rw [Observer.hearAll_append]
    exact congrArg _ hkept'

end Machine

end FlipLoop
