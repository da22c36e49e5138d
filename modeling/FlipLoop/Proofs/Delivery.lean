import FlipLoop.Proofs.Fitting

/-!
# Sequences of calls

A machine may be stepped and run in any order, each time with an observer of its own, and any of
them may refuse any snapshot. As long as the texts fit, no snapshot is lost and none is accepted twice:
after every call the accepted snapshots are those of the instructions executed so far.
-/

namespace FlipLoop

/-- A call on a machine, with whom it offers its snapshots to. -/
inductive Call (σ : Type) where
  | step (observer : Observer σ)
  | run (observer : Observer σ)
  | runSilent

/-- What a call gives: whether another instruction follows, or the text of the final memory. -/
inductive Answer where
  | more (follows : Bool)
  | text (memory : String)

open Machine

/-- Performs a call with unlimited capacity, and adds the snapshots that it offers to the transcript. -/
def Call.perform {σ : Type} (call : Call σ) (m : Machine) (w : σ × Transcript) :
    Outcome (σ × Transcript) Answer :=
  match call with
  | step observer =>
    let out := m.step observer.recorded w
    ⟨out.result.map .more, out.machine, out.kept⟩
  | run observer =>
    let out := m.run observer.recorded w
    ⟨out.result.map .text, out.machine, out.kept⟩
  | runSilent =>
    let out := m.run Observer.silent.recorded ((), w.2)
    ⟨out.result.map .text, out.machine, w.1, out.kept.2⟩

/-- Performs a call, unless the machine breaks down. -/
def Call.perform? {σ : Type} (call : Call σ) (m : Machine) (w : σ × Transcript) :
    Option (Outcome (σ × Transcript) Answer) :=
  match call with
  | step observer =>
    (m.step? observer.recorded w).map fun out => ⟨out.result.map .more, out.machine, out.kept⟩
  | run observer =>
    (m.run? observer.recorded w).map fun out => ⟨out.result.map .text, out.machine, out.kept⟩
  | runSilent =>
    (m.run? Observer.silent.recorded ((), w.2)).map fun out =>
      ⟨out.result.map .text, out.machine, w.1, out.kept.2⟩

/-- The machine and the transcript behind a sequence of calls, none of which breaks down. -/
def Machine.afterCalls? {σ : Type} (m : Machine) (w : σ × Transcript) :
    List (Call σ) → Option (Machine × σ × Transcript)
  | [] => some (m, w)
  | call :: calls => (call.perform? m w).bind fun out => out.machine.afterCalls? out.kept calls

namespace Call

variable {σ : Type} {m : Machine} {w : σ × Transcript}

lemma follows {code : Array Instr} {limit : Nat} {s : State} (call : Call σ)
    (h : Follows code limit s m w.2.accepted) :
    Follows code limit s (call.perform m w).machine (call.perform m w).kept.2.accepted := by
  cases call with
  | step observer => exact h.step observer
  | run observer => exact h.run observer
  | runSilent => exact Follows.run (w := ((), w.2)) Observer.silent h

lemma textsFit (call : Call σ) (h : m.TextsFit) : (call.perform m w).machine.TextsFit := by
  cases call with
  | step observer => exact h.step observer.recorded w
  | run observer => exact h.run observer.recorded w
  | runSilent => exact h.run Observer.silent.recorded ((), w.2)

lemma perform_eq_of_perform? {call : Call σ} {out : Outcome (σ × Transcript) Answer}
    (h : call.perform? m w = some out) : call.perform m w = out := by
  cases call with
  | step observer =>
    obtain ⟨last, hlast, rfl⟩ := Option.map_eq_some_iff.mp h
    rw [perform, (step_eq_of_step? hlast).2]
  | run observer =>
    obtain ⟨last, hlast, rfl⟩ := Option.map_eq_some_iff.mp h
    rw [perform, run_eq_of_run? hlast]
  | runSilent =>
    obtain ⟨last, hlast, rfl⟩ := Option.map_eq_some_iff.mp h
    rw [perform, run_eq_of_run? hlast]

section Fitting

variable {code : Array Instr} {limit : Nat} {s : State} {taken : List String}
  (hlimit : limit + 1 < UInt64.size)

include hlimit

/-- No call breaks down as long as the texts fit. -/
lemma perform?_eq (h : Follows code limit s m taken) (hfit : m.TextsFit) (call : Call σ) :
    call.perform? m w = some (call.perform m w) := by
  cases call with
  | step observer => rw [perform?, h.step?_eq hlimit hfit]; rfl
  | run observer => rw [perform?, h.run?_eq hlimit hfit]; rfl
  | runSilent => rw [perform?, h.run?_eq hlimit hfit]; rfl

lemma exists_afterCalls? (h : Follows code limit s m w.2.accepted) (hfit : m.TextsFit)
    (calls : List (Call σ)) : ∃ reached, m.afterCalls? w calls = some reached ∧
      Follows code limit s reached.1 reached.2.2.accepted ∧ reached.1.TextsFit := by
  induction calls generalizing m w with
  | nil => exact ⟨(m, w), rfl, h, hfit⟩
  | cons call calls ih =>
    obtain ⟨reached, hreached, hends⟩ := ih (call.follows h) (call.textsFit hfit)
    refine ⟨reached, ?_, hends⟩
    rw [afterCalls?, perform?_eq hlimit h hfit]
    exact hreached

end Fitting

lemma after_ne_refused {code : Array Instr} {s : State} {i : Instr} {message : String} :
    s.after code i ≠ .error (.refused message) := by
  intro h
  unfold State.after at h
  split at h
  · cases h
  · split at h
    · cases h
    · split at h <;> cases h
  · split at h <;> cases h
  · cases h

lemma error_of_map {α β ε : Type} {f : α → β} {result : Except ε α} {error : ε}
    (h : result.map f = .error error) : result = .error error := by
  cases result with
  | ok a => cases h
  | error e => exact congrArg Except.error (Except.error.inj h)

/-- What a refusal leaves: accepted snapshots, then the refused one, and a machine in front of the
instruction that shows it. -/
structure Refused {α : Type} (record : Transcript) (message : String)
    (out : Outcome (σ × Transcript) α) : Prop where
  record_eq : ∃ taken, out.kept.2 =
    record ++ .accepting taken ++ [(out.machine.state.memory.text, .refused message)]
  emits : out.machine.code[out.machine.state.pc]? = some .emit
  within : out.machine.steps ≤ out.machine.limit

lemma refused_of_step {observer : Observer σ} {message : String}
    (h : (m.step observer.recorded w).result = .error (.refused message)) :
    Refused w.2 message (m.step observer.recorded w) := by
  cases step_cases observer.recorded m w with
  | refused message' within emits reply eq =>
    rw [eq] at h
    obtain rfl : message' = message := by simpa using h
    rw [eq]
    refine ⟨⟨[], ?_⟩, emits, within⟩
    simpa [Transcript.accepting] using record_of_refused reply
  | stuck i fault within fetched fails eq =>
    rw [eq] at h
    obtain rfl : fault = .refused message := by simpa using h
    exact absurd fails after_ne_refused
  | _ => simp_all

lemma refused_of_run {observer : Observer σ} {message : String}
    (h : (m.run observer.recorded w).result = .error (.refused message)) :
    Refused w.2 message (m.run observer.recorded w) := by
  cases run_ended observer m w with
  | refused shown message' within reply result kept =>
    obtain rfl : message' = message := by simpa using result.symm.trans h
    obtain ⟨w', hw'⟩ := reply
    exact ⟨⟨shown, kept⟩, emits_of_refused hw', within⟩
  | stuck i fault fetched fails result =>
    obtain rfl : fault = .refused message := by simpa using result.symm.trans h
    exact absurd fails after_ne_refused
  | _ => simp_all

lemma refused_of_perform {call : Call σ} {message : String}
    (h : (call.perform m w).result = .error (.refused message)) :
    Refused w.2 message (call.perform m w) := by
  cases call with
  | step observer =>
    obtain ⟨hrecord, hemits, hwithin⟩ := refused_of_step (error_of_map h)
    exact ⟨hrecord, hemits, hwithin⟩
  | run observer =>
    obtain ⟨hrecord, hemits, hwithin⟩ := refused_of_run (error_of_map h)
    exact ⟨hrecord, hemits, hwithin⟩
  | runSilent =>
    obtain ⟨hrecord, hemits, hwithin⟩ := refused_of_run (w := ((), w.2)) (error_of_map h)
    exact ⟨hrecord, hemits, hwithin⟩

/-- The first snapshot that a call offers in front of an instruction that shows the memory. -/
lemma step_offers (hwithin : m.steps ≤ m.limit) (hemits : m.code[m.state.pc]? = some .emit)
    (observer : Observer σ) :
    ∃ reply, (m.step observer.recorded w).kept.2 = w.2 ++ [(m.state.memory.text, reply)] := by
  have hshown : m.state.snapshots m.code = [m.state.memory.text] := by
    rw [State.snapshots, hemits]
  have hoffered : (m.offered observer.recorded w).2.2 =
      w.2 ++ [(m.state.memory.text, (m.offered observer w.1).1)] := by
    rw [offered_recorded, hshown]
    rfl
  cases step_cases observer.recorded m w with
  | spent beyond eq => exact absurd beyond (Nat.not_lt_of_le hwithin)
  | rested within halted eq =>
    have := (Array.getElem?_eq_some_iff.mp hemits).1
    simp [Machine.halted, State.halted] at halted
    omega
  | refused message within emits reply eq => exact ⟨_, by rw [eq, hoffered]⟩
  | stuck i fault within fetched fails eq => exact ⟨_, by rw [eq, hoffered]⟩
  | exceeded s within next reply eq =>
    refine ⟨(m.offered observer w.1).1, ?_⟩
    rw [eq, ← hoffered]
    rfl
  | advanced s within next reply eq => exact ⟨_, by rw [eq, hoffered]⟩

lemma perform_offers (hwithin : m.steps ≤ m.limit) (hemits : m.code[m.state.pc]? = some .emit)
    (call : Call σ) :
    ∃ reply rest, (call.perform m w).kept.2 = w.2 ++ (m.state.memory.text, reply) :: rest := by
  have hrun : ∀ {τ : Type} (observer : Observer τ) (v : τ × Transcript), ∃ reply rest,
      (m.run observer.recorded v).kept.2 = v.2 ++ (m.state.memory.text, reply) :: rest := by
    intro τ observer v
    obtain ⟨reply, hreply⟩ := step_offers (w := v) hwithin hemits observer
    obtain ⟨rest, hrest⟩ := run_record observer m v
    refine ⟨reply, rest, ?_⟩
    rw [hrest, hreply, List.append_assoc, List.singleton_append]
  cases call with
  | step observer =>
    obtain ⟨reply, hreply⟩ := step_offers (w := w) hwithin hemits observer
    exact ⟨reply, [], hreply⟩
  | run observer => exact hrun observer w
  | runSilent => exact hrun Observer.silent ((), w.2)

lemma perform_of_halted (hwithin : m.steps ≤ m.limit) (h : m.halted = true) (call : Call σ) :
    (∃ answer, (call.perform m w).result = .ok answer) ∧ (call.perform m w).machine = m ∧
      (call.perform m w).kept.2 = w.2 := by
  cases call with
  | step observer =>
    rw [perform, step_of_halted hwithin h]
    exact ⟨⟨_, rfl⟩, rfl, rfl⟩
  | run observer =>
    rw [perform, run_of_halted hwithin h]
    exact ⟨⟨_, rfl⟩, rfl, rfl⟩
  | runSilent =>
    rw [perform, run_of_halted hwithin h]
    exact ⟨⟨_, rfl⟩, rfl, rfl⟩

lemma perform_of_spent (h : m.limit < m.steps) (call : Call σ) :
    (call.perform m w).result = .error (.stepLimit m.limit) ∧ (call.perform m w).machine = m ∧
      (call.perform m w).kept.2 = w.2 := by
  cases call with
  | step observer =>
    rw [perform, step_of_spent h]
    exact ⟨rfl, rfl, rfl⟩
  | run observer =>
    rw [perform, run_of_spent h]
    exact ⟨rfl, rfl, rfl⟩
  | runSilent =>
    rw [perform, run_of_spent h]
    exact ⟨rfl, rfl, rfl⟩

end Call

/-- Whatever calls are made and whatever is refused, as long as the texts fit, the machine stands where
its program stands after as many instructions, and exactly the snapshots of these instructions have been
accepted, in order. A refusal leaves the machine in front of the instruction that shows the snapshot, and
the next call offers the same one. Behind the end of the program, and behind the limit, calls change
nothing. -/
theorem calls_deliver_in_order {σ : Type} (p : Program) (memory : Memory) {limit : Nat}
    (hlimit : limit + 1 < UInt64.size) (hfit : (Machine.start p memory limit).TextsFit) (w : σ)
    (calls : List (Call σ)) :
    ∃ m w₀ record, (Machine.start p memory limit).afterCalls? (w, []) calls = some (m, w₀, record) ∧
      State.walk? p.toArray m.steps ⟨0, memory⟩ = some m.state ∧
      record.accepted = State.shown p.toArray m.steps ⟨0, memory⟩ ∧
      ∀ (call : Call σ) (w' : σ), ∃ out, call.perform? m (w', record) = some out ∧
        (∀ message, out.result = .error (.refused message) →
            State.walk? p.toArray out.machine.steps ⟨0, memory⟩ = some out.machine.state ∧
              p[out.machine.state.pc]? = some .emit ∧
              (∃ taken, out.kept.2 = record ++ .accepting taken ++
                [(out.machine.state.memory.text, .refused message)]) ∧
              ∀ (next : Call σ) (w'' : σ), ∃ out' reply rest,
                next.perform? out.machine (w'', out.kept.2) = some out' ∧
                  out'.kept.2 = out.kept.2 ++ (out.machine.state.memory.text, reply) :: rest) ∧
          (m.halted = true → m.steps ≤ limit →
            (∃ answer, out.result = .ok answer) ∧ out.machine = m ∧ out.kept.2 = record) ∧
          (limit < m.steps →
            out.result = .error (.stepLimit limit) ∧ out.machine = m ∧ out.kept.2 = record) := by
  obtain ⟨⟨m, w₀, record⟩, hcalls, hfollows, hfits⟩ := Call.exists_afterCalls? (w := (w, [])) hlimit
    (Follows.start p memory limit) hfit calls
  dsimp only at hfollows hfits
  refine ⟨m, w₀, record, hcalls, hfollows.leads.walk_eq, hfollows.leads.shown_eq.symm, ?_⟩
  intro call w'
  refine ⟨_, Call.perform?_eq hlimit hfollows hfits call, ?_, ?_, ?_⟩
  · intro message hresult
    have hafter := call.follows (w := (w', record)) hfollows
    have hfits' := call.textsFit (w := (w', record)) hfits
    obtain ⟨htaken, hemits, hwithin⟩ := Call.refused_of_perform hresult
    have hemits' := hemits
    rw [hafter.code_eq] at hemits'
    refine ⟨hafter.leads.walk_eq, by simpa using hemits', htaken, fun next w'' => ?_⟩
    obtain ⟨reply, rest, hoffers⟩ := Call.perform_offers hwithin hemits next
    exact ⟨_, reply, rest, Call.perform?_eq hlimit hafter hfits' next, hoffers⟩
  · intro hhalted hwithin
    exact Call.perform_of_halted (hfollows.limit_eq ▸ hwithin) hhalted call
  · intro hover
    have hspent := Call.perform_of_spent (w := (w', record)) (hfollows.limit_eq.symm ▸ hover) call
    rwa [hfollows.limit_eq] at hspent

/-- The first snapshot is refused, offered again and accepted, in a sequence of calls of all kinds that
ends behind the end of the program. Under a smaller limit the calls end behind the limit. -/
theorem refused_snapshot_returns :
    let p : Program := [.flip 0, .emit, .flip 1, .emit]
    let refusing := Observer.scripted fun number => if number = 1 then .refused "full" else .accepted
    let calls : List (Call (Array (String × Reply))) :=
      [.step refusing, .run refusing, .step refusing, .runSilent]
    let record : Transcript := [("1", .refused "full"), ("1", .accepted), ("11", .accepted)]
    (∃ m w, (Machine.start p .empty 5).afterCalls? (#[], []) calls = some (m, w, record) ∧
        m.steps = 4 ∧ record.accepted = State.shown p.toArray 4 ⟨0, .empty⟩ ∧
        ∃ out answer, (Call.step refusing).perform? m (w, record) = some out ∧
          out.result = .ok answer ∧ out.machine = m ∧ out.kept.2 = record) ∧
      (∃ m w out, (Machine.start p .empty 5).afterCalls? (#[], []) (calls.take 1) = some (m, w, []) ∧
        (Call.run refusing).perform? m (w, []) = some out ∧ out.result = .error (.refused "full") ∧
          p[out.machine.state.pc]? = some .emit ∧ ∃ out' reply rest,
            Call.runSilent.perform? out.machine (w, out.kept.2) = some out' ∧
              out'.kept.2 = out.kept.2 ++ (out.machine.state.memory.text, reply) :: rest) ∧
      ∃ m w, (Machine.start p .empty 2).afterCalls? (#[], []) calls =
          some (m, w, record.take 2) ∧ m.steps = 3 ∧
        ∃ out, (Call.run refusing).perform? m (w, record.take 2) = some out ∧
          out.result = .error (.stepLimit 2) ∧ out.machine = m ∧ out.kept.2 = record.take 2 := by
  intro p refusing calls record
  have haccepts : Observer.silent.Accepts := fun _ _ => rfl
  have hfit₅ : (Machine.start p .empty 5).TextsFit :=
    textsFit_of_isSome haccepts (w := ()) (by decide)
  have hfit₂ : (Machine.start p .empty 2).TextsFit :=
    textsFit_of_isSome haccepts (w := ()) (by decide)
  have hends : (Machine.start p .empty 5).afterCalls? (#[], []) calls =
      some (⟨p.toArray, 5, ⟨4, (Memory.empty.flip 0).flip 1⟩, 4⟩,
        #[("1", .refused "full"), ("1", .accepted)], record) := by decide +kernel
  have hfirst : (Machine.start p .empty 5).afterCalls? (#[], []) (calls.take 1) =
      some (⟨p.toArray, 5, ⟨1, Memory.empty.flip 0⟩, 1⟩, #[], []) := by decide +kernel
  have hbeyond : (Machine.start p .empty 2).afterCalls? (#[], []) calls =
      some (⟨p.toArray, 2, ⟨3, (Memory.empty.flip 0).flip 1⟩, 3⟩,
        #[("1", .refused "full"), ("1", .accepted)], record.take 2) := by decide +kernel
  refine ⟨?_, ?_, ?_⟩
  · obtain ⟨m, w, record', hcalls, -, hshown, hnext⟩ :=
      calls_deliver_in_order p .empty (by decide) hfit₅ #[] calls
    obtain ⟨rfl, rfl, rfl⟩ : _ = m ∧ _ = w ∧ _ = record' := by
      simpa only [Option.some.injEq, Prod.mk.injEq] using hends.symm.trans hcalls
    obtain ⟨out, hout, -, hhalted, -⟩ := hnext (.step refusing) _
    obtain ⟨⟨answer, hanswer⟩, hsame⟩ := hhalted rfl (by decide)
    exact ⟨_, _, hends, rfl, hshown, out, answer, hout, hanswer, hsame⟩
  · obtain ⟨m, w, record', hcalls, -, -, hnext⟩ :=
      calls_deliver_in_order p .empty (by decide) hfit₅ #[] (calls.take 1)
    obtain ⟨rfl, rfl, rfl⟩ : _ = m ∧ _ = w ∧ _ = record' := by
      simpa only [Option.some.injEq, Prod.mk.injEq] using hfirst.symm.trans hcalls
    obtain ⟨out, hout, hrefused, -⟩ := hnext (.run refusing) #[]
    have hresult : out.result = .error (.refused "full") := by
      obtain rfl := Call.perform_eq_of_perform? hout
      rfl
    obtain ⟨-, hemits, -, hagain⟩ := hrefused "full" hresult
    exact ⟨_, _, out, hfirst, hout, hresult, hemits, hagain .runSilent #[]⟩
  · obtain ⟨m, w, record', hcalls, -, -, hnext⟩ :=
      calls_deliver_in_order p .empty (by decide) hfit₂ #[] calls
    obtain ⟨rfl, rfl, rfl⟩ : _ = m ∧ _ = w ∧ _ = record' := by
      simpa only [Option.some.injEq, Prod.mk.injEq] using hbeyond.symm.trans hcalls
    obtain ⟨out, hout, -, -, hspent⟩ := hnext (.run refusing) _
    exact ⟨_, _, hbeyond, rfl, out, hout, hspent (by decide)⟩

/-- A step executes a flip, and a run that follows finds the program halted, but the text of the memory
does not fit. -/
theorem halted_machine_breaks_down :
    let p : Program := [.flip 15303771331337386035]
    ∃ m, (Machine.start p .empty 8192).afterCalls? ((), []) [.step .silent] = some (m, (), []) ∧
      m.halted = true ∧ m.steps ≤ 8192 ∧ (Call.run Observer.silent).perform? m ((), []) = none :=
  ⟨⟨_, 8192, ⟨1, Memory.empty.flip 15303771331337386035⟩, 1⟩, rfl, rfl, by decide, rfl⟩

end FlipLoop
