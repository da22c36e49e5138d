import FlipLoop.Proofs.BlockRuns
import FlipLoop.Proofs.Fitting

/-!
# Runs with a limit against the evaluation of blocks

While no snapshot is refused, a balanced program has two kinds of runs: those that halt within the
limit and those that execute one instruction more than the limit. The first are exactly the
evaluations of its block whose cost is within the limit.
-/

namespace FlipLoop

namespace Machine

variable {σ : Type} {observer : Observer σ}

/-- A machine that follows a balanced program is stopped by no bracket. -/
lemma Follows.not_fails {p : Program} (hp : p.Balanced) {memory : Memory} {limit : Nat} {m : Machine}
    {taken : List String} (h : Follows p.toArray limit ⟨0, memory⟩ m taken) {i : Instr} {fault : Fault}
    (fetched : m.code[m.state.pc]? = some i) : m.state.after m.code i ≠ .error fault := by
  intro fails
  have hcode := h.code_eq
  have hrun : m.state.halted p.toArray = false := by
    rw [← hcode]
    simpa [State.halted] using (Array.getElem?_eq_some_iff.mp fetched).1
  obtain ⟨t, ht⟩ := hp.exists_next h.leads hrun
  rw [← hcode, State.next?, fetched] at ht
  simp [fails, Except.toOption] at ht

/-- How a recorded run of `p` ends while all snapshots are accepted. -/
inductive Accepted (p : Program) (memory : Memory) (limit : Nat)
    (out : Outcome (σ × Transcript) String) : Prop
  | halts (shown : List String) (within : out.machine.steps ≤ limit)
    (walk : p.HaltsAfter memory out.machine.steps out.machine.state.memory shown)
    (result : out.result = .ok out.machine.state.memory.text)
    (record : out.kept.2 = .accepting shown)
  | exceeds (shown : List String) (steps : out.machine.steps = limit + 1)
    (walk : Leads p.toArray (limit + 1) ⟨0, memory⟩ out.machine.state shown)
    (result : out.result = .error (.stepLimit limit)) (record : out.kept.2 = .accepting shown)

lemma Accepted.eq_stepLimit {p : Program} {memory : Memory} {limit : Nat}
    {out : Outcome (σ × Transcript) String} (h : Accepted p memory limit out) {fault : Fault}
    (hfault : out.result = .error fault) : fault = .stepLimit limit := by
  cases h with
  | halts shown within walk result record => cases result.symm.trans hfault
  | exceeds shown steps walk result record => exact Except.error.inj (hfault.symm.trans result)

/-- How a recorded run of `p` ends: all snapshots are accepted, or it stops in front of the instruction
whose snapshot is refused. -/
inductive Ended (observer : Observer σ) (p : Program) (memory : Memory) (limit : Nat)
    (out : Outcome (σ × Transcript) String) : Prop
  | accepted (ends : Accepted p memory limit out)
  | refused (shown : List String) (message : String) (within : out.machine.steps ≤ limit)
    (walk : Leads p.toArray (out.machine.steps + 1) ⟨0, memory⟩
      ⟨out.machine.state.pc + 1, out.machine.state.memory⟩ (shown ++ [out.machine.state.memory.text]))
    (reply : ∃ w, (out.machine.offered observer.recorded w).1 = .refused message)
    (result : out.result = .error (.refused message))
    (record : out.kept.2 =
      Transcript.accepting shown ++ [(out.machine.state.memory.text, .refused message)])

theorem run_balanced_ended {p : Program} (hp : p.Balanced) (observer : Observer σ) (memory : Memory)
    (limit : Nat) (w : σ) :
    Ended observer p memory limit ((start p memory limit).run observer.recorded (w, [])) := by
  have hfollows := (Follows.start p memory limit).run observer (w := (w, []))
  have hended := run_ended observer (start p memory limit) (w, [])
  generalize (start p memory limit).run observer.recorded (w, []) = out at hfollows hended
  have hleads := hfollows.leads
  have hlimit := hfollows.limit_eq
  cases hended with
  | finished shown within halted result kept =>
    rw [List.nil_append] at kept
    rw [kept, Transcript.accepted_accepting] at hleads
    have hhalted : out.machine.state.halted p.toArray = true := by
      rw [← hfollows.code_eq]
      exact halted
    exact .accepted (.halts shown (hlimit ▸ within) ⟨_, hleads, hhalted, rfl⟩ result kept)
  | spent shown beyond result kept =>
    rw [List.nil_append] at kept
    rw [kept, Transcript.accepted_accepting] at hleads
    have hsteps : out.machine.steps = limit + 1 := by
      have := hfollows.steps_le
      omega
    exact .accepted (.exceeds shown hsteps (hsteps ▸ hleads) (hlimit ▸ result) kept)
  | refused shown message within reply result kept =>
    rw [List.nil_append] at kept
    rw [kept, Transcript.accepted_append, Transcript.accepted_accepting, Transcript.accepted_refused,
      List.append_nil] at hleads
    obtain ⟨w', hw'⟩ := reply
    have hemits := emits_of_refused hw'
    rw [hfollows.code_eq] at hemits
    exact .refused shown message (hlimit ▸ within) (hleads.trans (.emit hemits)) ⟨w', hw'⟩ result kept
  | stuck i fault fetched fails result => exact absurd fails (hfollows.not_fails hp fetched)

theorem run_accepted {p : Program} (hp : p.Balanced) (ho : observer.Accepts) (memory : Memory)
    (limit : Nat) (w : σ) :
    Accepted p memory limit ((start p memory limit).run observer.recorded (w, [])) := by
  cases run_balanced_ended hp observer memory limit w with
  | accepted ends => exact ends
  | refused shown message within walk reply result record =>
    obtain ⟨w', hw'⟩ := reply
    rw [offered_of_accepts ho.recorded] at hw'
    cases hw'

end Machine

/-- With unlimited capacity, a run under a limit ends well exactly if the evaluation of the block costs
no more than the limit. -/
theorem Block.report_flatten (b : Block) {σ : Type} {observer : Observer σ} (ho : observer.Accepts)
    (memory : Memory) (limit : Nat) (w : σ) :
    let out := (Machine.start b.flatten memory limit).report observer w
    (∀ text, out.result = .ok text ↔
        ∃ t shown cost, b.Eval memory t shown cost ∧ cost ≤ limit ∧ text = t.text) ∧
      (∀ t shown cost, b.Eval memory t shown cost → cost ≤ limit →
        out.result = .ok t.text ∧ out.kept.map Prod.fst = shown ∧ out.machine.steps = cost) ∧
      ((¬∃ t shown cost, b.Eval memory t shown cost ∧ cost ≤ limit) →
        out.result = .error (.stepLimit limit)) := by
  dsimp only
  rw [Machine.report_eq]
  have haccepted := Machine.run_accepted b.balanced_flatten ho memory limit w
  generalize (Machine.start b.flatten memory limit).run observer.recorded (w, []) = out at haccepted
  cases haccepted with
  | halts shown within walk result record =>
    have heval := Block.haltsAfter_flatten_iff.mp walk
    have hunique : ∀ {t shown' cost}, b.Eval memory t shown' cost →
        out.machine.steps = cost ∧ out.machine.state.memory = t ∧ shown = shown' :=
      fun h => walk.unique (Block.haltsAfter_flatten_iff.mpr h)
    refine ⟨fun text => ⟨?_, ?_⟩, ?_, ?_⟩
    · intro htext
      have htext' := Except.ok.inj (result.symm.trans htext)
      exact ⟨_, shown, _, heval, within, htext'.symm⟩
    · rintro ⟨t, shown', cost, h, -, rfl⟩
      obtain ⟨-, rfl, -⟩ := hunique h
      exact result
    · intro t shown' cost h _
      obtain ⟨hcost, rfl, rfl⟩ := hunique h
      have hkept : out.kept.2.map Prod.fst = shown := by rw [record, Transcript.map_fst_accepting]
      exact ⟨result, hkept, hcost⟩
    · intro h
      exact absurd ⟨_, shown, _, heval, within⟩ h
  | exceeds shown steps walk result record =>
    have hcosts : ∀ {t shown' cost}, b.Eval memory t shown' cost → limit < cost := by
      intro t shown' cost h
      obtain ⟨s, hs, hhalted, -⟩ := Block.haltsAfter_flatten_iff.mpr h
      exact hs.le_of_halted hhalted walk
    refine ⟨fun text => ⟨?_, ?_⟩, ?_, fun _ => result⟩
    · intro htext
      cases result.symm.trans htext
    · rintro ⟨t, shown', cost, h, hcost, -⟩
      exact absurd hcost (Nat.not_le_of_lt (hcosts h))
    · intro t shown' cost h hcost
      exact absurd hcost (Nat.not_le_of_lt (hcosts h))

/-- The machine implements the structured language. Every balanced program is the flattening of one
block. If every text fits, a run under a limit ends well exactly if the evaluation of the block costs no
more than the limit; otherwise it breaks down. -/
theorem run_implements_evaluation {p : Program} (hp : p.Balanced) :
    (∃! b : Block, b.flatten = p) ∧
      ∀ b : Block, b.flatten = p →
        ∀ (σ : Type) (observer : Observer σ), observer.Accepts →
          ∀ (memory : Memory) (limit : Nat) (w : σ), limit + 1 < UInt64.size →
            let machine := Machine.start p memory limit
            (machine.TextsFit → ∃ out, machine.report? observer w = some out ∧
              (∀ text, out.result = .ok text ↔
                ∃ t shown cost, b.Eval memory t shown cost ∧ cost ≤ limit ∧ text = t.text) ∧
              (∀ t shown cost, b.Eval memory t shown cost → cost ≤ limit →
                out.result = .ok t.text ∧ out.kept.map Prod.fst = shown ∧
                  out.machine.steps = cost) ∧
              ((¬∃ t shown cost, b.Eval memory t shown cost ∧ cost ≤ limit) →
                out.result = .error (.stepLimit limit))) ∧
            (¬machine.TextsFit → machine.run? observer w = none) := by
  refine ⟨hp.existsUnique_block, ?_⟩
  rintro b rfl σ observer ho memory limit w hlimit
  constructor
  · intro hfit
    have hreport := (Machine.Follows.start b.flatten memory limit).report?_eq hlimit hfit observer w
    exact ⟨_, hreport, b.report_flatten ho memory limit w⟩
  · intro hunfit
    rw [Option.eq_none_iff_forall_ne_some]
    exact fun out hout => hunfit (Machine.textsFit_of_run? ho hout)

/-- A loop in a loop that shows a snapshot, and behind it a loop that is skipped. -/
theorem run_nested_loops :
    let p : Program := [.flip 0, .enter 0, .flip 1, .enter 1, .emit, .flip 1, .back, .flip 0, .back,
      .enter 2, .flip 5, .back]
    p.Balanced ∧ ∃ out, (Machine.start p .empty 12).report? Observer.silent () = some out ∧
      out.result = .ok "" ∧ out.kept.map Prod.fst = ["11"] ∧ out.machine.steps = 12 := by
  intro p
  have hp : p.Balanced := by decide
  let body : Block := .flip 1 (.loop 1 (.emit (.flip 1 .done)) (.flip 0 .done))
  let behind : Block := .loop 2 (.flip 5 .done) .done
  have hinner : Block.Eval (.emit (.flip 1 .done)) ⟨[0, 1], by decide⟩ ⟨[0], by decide⟩ ["11"] 2 :=
    .emit (.flip (.done _))
  have hbody : body.Eval ⟨[0], by decide⟩ .empty ["11"] 7 :=
    .flip (.turn (by decide) hinner (.leave (by decide) (.flip (.done _))))
  have hloops : Block.Eval (.flip 0 (.loop 0 body behind)) .empty .empty ["11"] 12 :=
    .flip (.turn (by decide) hbody (.leave (by decide) (.leave (by decide) (.done _))))
  have hruns := (run_implements_evaluation hp).2 (.flip 0 (.loop 0 body behind)) rfl
  have haccepts : Observer.silent.Accepts := fun _ _ => rfl
  obtain ⟨hfits, -⟩ := hruns Unit Observer.silent haccepts .empty 12 () (by decide)
  have hfit : (Machine.start p .empty 12).TextsFit :=
    Machine.textsFit_of_isSome haccepts (w := ()) (by decide)
  obtain ⟨out, hout, -, hends, -⟩ := hfits hfit
  exact ⟨hp, out, hout, hends _ _ _ hloops (by decide)⟩

/-- The evaluation of a single flip ends, and the run breaks down, as the text of its memory does not
fit. -/
theorem run_of_flip_beyond_capacity :
    let p : Program := [.flip 15303771331337386035]
    let t := Memory.empty.flip 15303771331337386035
    p.Balanced ∧ Block.flatten (.flip 15303771331337386035 .done) = p ∧
      Block.Eval (.flip 15303771331337386035 .done) .empty t [] 1 ∧
      (Machine.start p .empty 8192).run? Observer.silent () = none :=
  ⟨by decide, rfl, .flip (.done _), rfl⟩

end FlipLoop
