import FlipLoop.Proofs.Composition
import FlipLoop.Proofs.Drawing

/-!
# Machines stay in bounds

Programs that are parsed or drawn are balanced. A machine that executes one never fails to find the
other end of a loop, its counter goes no further than the end of the program, and it executes at most
one instruction more than its limit, in whatever steps it comes there. It does not break down as long as
its texts fit.
-/

namespace FlipLoop

namespace State

variable {code : Array Instr} {s t : State} {n : Nat}

/-- No instruction leads beyond the end of the code. -/
lemma pc_le_of_next (h : s.next? code = some t) : t.pc ≤ code.size := by
  cases advance_of_next h with
  | skip v stop fetched clear closing =>
    exact ((Program.closing?_eq_some_iff _ _ _).mp closing).bounds.2
  | back start fetched opening =>
    have hbounds := ((Program.opening?_eq_some_iff _ _ _).mp opening).bounds
    dsimp only
    omega
  | flip v fetched => exact (Array.getElem?_eq_some_iff.mp fetched).1
  | enter v fetched set => exact (Array.getElem?_eq_some_iff.mp fetched).1
  | emit fetched => exact (Array.getElem?_eq_some_iff.mp fetched).1

lemma pc_le_of_walk (h : s.walk? code n = some t) (hs : s.pc ≤ code.size) : t.pc ≤ code.size := by
  induction n generalizing s with
  | zero =>
    obtain rfl := Option.some_inj.mp h
    exact hs
  | succ n ih =>
    obtain ⟨u, hu, hut⟩ := Option.bind_eq_some_iff.mp h
    exact ih hut (pc_le_of_next hu)

end State

/-- The programs that are read from a text or drawn with dice. -/
inductive Program.Produced : Program → Prop
  | parsed {source : String} {p : Program} : Program.ofSource source = .ok p → Produced p
  | drawn {γ : Type} (dice : Chance.Dice γ) (recipe : Chance.Recipe) (g : γ) :
    Produced (Chance.drawProgram dice recipe g).1

theorem Program.Produced.balanced {p : Program} (h : p.Produced) : p.Balanced := by
  cases h with
  | parsed hsource => exact balanced_of_ofSource hsource
  | drawn dice recipe g => exact Chance.balanced_drawProgram dice recipe g

namespace Machine

/-- The machines that steps lead to, each with an observer of its own. -/
inductive Reached (m : Machine) : Machine → Prop
  | refl : Reached m m
  | step {m' : Machine} {σ : Type} (observer : Observer σ) (w : σ) :
    Reached m m' → Reached m (m'.step observer w).machine

/-- The faults that a step can end with beside those of a bracket without partner. -/
inductive Expected {σ : Type} (observer : Observer σ) (limit : Nat) (m : Machine) (w : σ) : Fault → Prop
  | stepLimit : Expected observer limit m w (.stepLimit limit)
  | refused (message : String) (reply : (m.offered observer w).1 = .refused message) :
    Expected observer limit m w (.refused message)

namespace Reached

variable {σ : Type} {observer : Observer σ} {m m' m'' : Machine} {w w' : σ}

lemma trans (h : Reached m m') (h' : Reached m' m'') : Reached m m'' := by
  induction h' with
  | refl => exact h
  | step observer w _ ih => exact .step observer w ih

lemma of_steps (h : Steps observer m w m' w') : Reached m m' := by
  induction h with
  | refl => exact .refl
  | @head m _ _ w _ _ hstep _ ih =>
    have hone := Reached.step observer w (.refl (m := m))
    rw [hstep] at hone
    exact hone.trans ih

lemma run (observer : Observer σ) (w : σ) (h : Reached m m') :
    Reached m (m'.run observer w).machine := by
  obtain ⟨m'', w'', hsteps, -, hrun⟩ := run_cases observer m' w
  rw [hrun, machine_runEnd]
  exact .step observer w'' (h.trans (.of_steps hsteps))

/-- Between two machines lie as many instructions as the steps that they count. -/
lemma walk (h : Reached m m') : m'.code = m.code ∧
    ∃ n, m'.steps = m.steps + n ∧ m.state.walk? m.code n = some m'.state := by
  induction h with
  | refl => exact ⟨rfl, 0, rfl, rfl⟩
  | @step m' _ observer w _ ih =>
    obtain heq | ⟨s, hs, heq⟩ := machine_step observer m' w
    · rwa [heq]
    · obtain ⟨hcode, n, hsteps, hwalk⟩ := ih
      rw [heq]
      refine ⟨hcode, n + 1, by rw [moved, hsteps, Nat.add_assoc], ?_⟩
      rw [State.walk?_add, hwalk, Option.bind_some, State.walk?, ← hcode, hs]
      rfl

variable {p : Program} {memory : Memory} {limit : Nat}

lemma follows (h : Reached (start p memory limit) m) :
    ∃ taken, Follows p.toArray limit ⟨0, memory⟩ m taken := by
  induction h with
  | refl => exact ⟨[], .start p memory limit⟩
  | step observer w _ ih =>
    obtain ⟨taken, htaken⟩ := ih
    exact htaken.exists_step observer w

lemma textsFit (h : Reached m m') (hfit : m.TextsFit) : m'.TextsFit := by
  induction h with
  | refl => exact hfit
  | step observer w _ ih => exact ih.step observer w

end Reached

/-- A machine that follows a balanced program fails for no other reason than the limit or a refusal. -/
lemma Follows.expected {σ : Type} {observer : Observer σ} {p : Program} {memory : Memory} {limit : Nat}
    {m : Machine} {w : σ} {taken : List String} {fault : Fault} (hp : p.Balanced)
    (h : Follows p.toArray limit ⟨0, memory⟩ m taken)
    (hfault : (m.step observer w).result = .error fault) : Expected observer limit m w fault := by
  obtain rfl := h.limit_eq
  cases step_cases observer m w with
  | spent beyond eq =>
    rw [eq] at hfault
    cases hfault
    exact .stepLimit
  | rested within halted eq =>
    rw [eq] at hfault
    cases hfault
  | refused message within emits reply eq =>
    rw [eq] at hfault
    cases hfault
    exact .refused message reply
  | stuck i fault within fetched fails eq => exact absurd fails (h.not_fails hp fetched)
  | exceeded s within next reply eq =>
    rw [eq] at hfault
    cases hfault
    exact .stepLimit
  | advanced s within next reply eq =>
    rw [eq] at hfault
    cases hfault

end Machine

/-- Machines on parsed or drawn programs stay in bounds. Wherever single steps lead, with any observers,
the counter is within the program or at its end, at most one instruction beyond the limit has been
executed, and a step fails only by the limit or by a refusal. As long as the texts fit no step breaks
down, and every run comes to an end within the instructions that are left. -/
theorem produced_programs_stay_in_bounds {p : Program} (hp : p.Produced) (memory : Memory) {limit : Nat}
    (hlimit : limit + 1 < UInt64.size) {m : Machine}
    (hm : Machine.Reached (Machine.start p memory limit) m) :
    (m.state.pc ≤ p.length ∧ (m.halted = true ↔ m.state.pc = p.length) ∧ m.steps ≤ limit + 1) ∧
      (∀ (σ : Type) (observer : Observer σ) (w : σ) out, m.step? observer w = some out →
        ∀ fault, out.result = .error fault → Machine.Expected observer limit m w fault) ∧
      ((Machine.start p memory limit).TextsFit → ∀ (σ : Type) (observer : Observer σ) (w : σ),
        (∃ out, m.step? observer w = some out) ∧
        ∃ out m' w', m.run? observer w = some out ∧ Machine.Steps observer m w m' w' ∧
          (m'.step observer w').result ≠ .ok true ∧
          out = Machine.runEnd observer (m'.step observer w') ∧
          (∀ fault, out.result = .error fault → Machine.Expected observer limit m' w' fault) ∧
          ∃ n, n ≤ limit + 1 - m.steps ∧ out.machine.steps = m.steps + n ∧
            m.state.walk? p.toArray n = some out.machine.state) := by
  obtain ⟨taken, hfollows⟩ := hm.follows
  have hpc : m.state.pc ≤ p.length := State.pc_le_of_walk hfollows.leads.walk_eq (Nat.zero_le _)
  have hhalted : m.halted = true ↔ m.state.pc = p.length := by
    simp only [Machine.halted, State.halted, hfollows.code_eq, decide_eq_true_eq, List.size_toArray]
    omega
  refine ⟨⟨hpc, hhalted, hfollows.steps_le⟩, ?_, ?_⟩
  · intro σ observer w out hout fault hfault
    obtain ⟨-, rfl⟩ := Machine.step_eq_of_step? hout
    exact hfollows.expected hp.balanced hfault
  · intro hstart σ observer w
    have hfit := hm.textsFit hstart
    obtain ⟨m', w', hsteps, hlast, hrun⟩ := Machine.run_cases observer m w
    refine ⟨⟨_, hfollows.step?_eq hlimit hfit observer w⟩, _, m', w',
      hfollows.run?_eq hlimit hfit observer w, hsteps, hlast, hrun, ?_, ?_⟩
    · intro fault hfault
      obtain ⟨taken', hfollows'⟩ := (hm.trans (.of_steps hsteps)).follows
      rw [hrun] at hfault
      exact hfollows'.expected hp.balanced (Machine.runEnd_eq_error hfault)
    · obtain ⟨-, n, hn, hwalk⟩ := (Machine.Reached.refl.run observer w : Machine.Reached m _).walk
      obtain ⟨shown, hend⟩ := (hm.run observer w).follows
      rw [hfollows.code_eq] at hwalk
      have hwithin := hend.steps_le
      exact ⟨n, by omega, hn, hwalk⟩

/-- Two steps into a loop a snapshot is refused, and random programs fail by the limit only. -/
theorem parsed_and_drawn_in_bounds :
    let p : Program := [.flip 0, .enter 0, .emit, .back]
    let start := Machine.start p .empty 5
    let m := ((start.step Observer.silent ()).machine.step Observer.silent ()).machine
    let refusing := Observer.scripted fun _ => .refused "full"
    let drawn := fun g => (Chance.drawProgram Chance.Dice.xoshiro {} g).1
    Program.ofSource "| / | ! \\" = .ok p ∧ Machine.Reached start m ∧
      (m.state.pc = 2 ∧ m.state.pc ≤ p.length ∧ m.steps ≤ 5 + 1) ∧
      (∃ out, m.run? refusing #[] = some out ∧ out.result = .error (.refused "full") ∧
        ∃ m' w', Machine.Steps refusing m #[] m' w' ∧
          Machine.Expected refusing 5 m' w' (.refused "full")) ∧
      ∀ g fault out, (Machine.start (drawn g) .empty 8192).step? Observer.silent () = some out →
        out.result = .error fault → fault = .stepLimit 8192 := by
  intro p start m refusing drawn
  have hsource : Program.ofSource "| / | ! \\" = .ok p := by decide
  have hm : Machine.Reached start m := .step _ _ (.step _ _ .refl)
  have haccepts : Observer.silent.Accepts := fun _ _ => rfl
  have hfit : start.TextsFit := Machine.textsFit_of_isSome haccepts (w := ()) (by decide)
  obtain ⟨⟨hpc, -, hsteps⟩, -, hcalls⟩ :=
    produced_programs_stay_in_bounds (.parsed hsource) .empty (by decide) hm
  obtain ⟨-, out, m', w', hout, hrun, -, -, hfaults, -⟩ := hcalls hfit _ refusing #[]
  have hrefused : out.result = .error (.refused "full") := by
    rw [← Machine.run_eq_of_run? hout]
    decide
  refine ⟨hsource, hm, ⟨by decide, hpc, hsteps⟩,
    ⟨out, hout, hrefused, m', w', hrun, hfaults _ hrefused⟩, ?_⟩
  intro g fault out hout hfault
  have hdrawn : (drawn g).Produced := .drawn _ _ _
  have hlimit : 8192 + 1 < UInt64.size := by decide
  obtain ⟨-, hstep, -⟩ := produced_programs_stay_in_bounds hdrawn .empty hlimit .refl
  cases hstep Unit Observer.silent () out hout fault hfault with
  | stepLimit => rfl
  | refused message reply =>
    rw [Machine.offered_of_accepts (fun _ _ => rfl)] at reply
    cases reply

/-- A drawn program whose run breaks down: its only flip sets a bit beyond the capacity of a text. -/
theorem drawn_program_breaks_down :
    let p := (Chance.drawProgram .xoshiro { length := 1, variableBound := UInt64.size - 1 } (.ofSeed 3)).1
    p.Produced ∧ ((Machine.start p .empty 8192).run? Observer.silent ()).isNone = true :=
  ⟨.drawn _ _ _, by decide +kernel⟩

end FlipLoop
