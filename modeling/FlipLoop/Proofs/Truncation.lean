import FlipLoop.Proofs.Limits
import FlipLoop.Proofs.Sinks
import FlipLoop.Proofs.StructuredRuns

/-!
# Runs under a limit are truncated walks

The walk of a program knows of no limit and of no sink. A run that no refusal stops is the walk to its
end, or its first `limit + 1` instructions. A refusal stops the run exactly if the walk shows the
refused snapshot within these instructions, and a larger limit only continues a run.
-/

namespace FlipLoop

namespace Machine

variable {σ τ : Type} {p : Program} {memory : Memory} {limit : Nat}

/-- The outcome stands behind the first `count` instructions of `p`, all of whose snapshots have been
accepted. -/
structure Truncated (p : Program) (memory : Memory) (count : Nat) (out : Outcome Transcript String) :
    Prop where
  steps_eq : out.machine.steps = count
  walk_eq : State.walk? p.toArray count ⟨0, memory⟩ = some out.machine.state
  kept_eq : out.kept = .accepting (State.shown p.toArray count ⟨0, memory⟩)

namespace Accepted

variable {out : Outcome (σ × Transcript) String} {out' : Outcome (τ × Transcript) String}

lemma truncated_of_le (h : Accepted p memory limit out) {count : Nat} {t : Memory}
    {shown : List String} (hhalts : p.HaltsAfter memory count t shown) (hcount : count ≤ limit)
    (hwalk : State.walk? p.toArray out.machine.steps ⟨0, memory⟩ = some out.machine.state) :
    out.result = .ok t.text ∧ Truncated p memory count out.transcribed := by
  cases h with
  | halts shown' within walk result record =>
    obtain ⟨hsteps, rfl, rfl⟩ := walk.unique hhalts
    obtain ⟨s, hs, -, -⟩ := hhalts
    have hkept : out.kept.2 = .accepting (State.shown p.toArray count ⟨0, memory⟩) := by
      rw [record, hs.shown_eq]
    exact ⟨result, hsteps, hsteps ▸ hwalk, hkept⟩
  | exceeds shown' steps walk result record =>
    obtain ⟨s, hs, hhalted, -⟩ := hhalts
    have := hs.le_of_halted hhalted walk
    omega

lemma truncated_of_late (h : Accepted p memory limit out)
    (hlate : ∀ count t shown, p.HaltsAfter memory count t shown → limit < count) :
    out.result = .error (.stepLimit limit) ∧ Truncated p memory (limit + 1) out.transcribed := by
  cases h with
  | halts shown within walk result record =>
    have := hlate _ _ _ walk
    omega
  | exceeds shown steps walk result record =>
    have hkept : out.kept.2 = .accepting (State.shown p.toArray (limit + 1) ⟨0, memory⟩) := by
      rw [record, walk.shown_eq]
    exact ⟨result, steps, walk.walk_eq, hkept⟩

/-- The transcript of a run without a refusal has the snapshots of the first `limit + 1` instructions,
or of as many as there are. -/
lemma record_eq (h : Accepted p memory limit out) :
    out.kept.2 = .accepting (State.shown p.toArray (limit + 1) ⟨0, memory⟩) := by
  cases h with
  | halts shown within walk result record =>
    obtain ⟨s, hs, hhalted, -⟩ := walk
    rw [record, hs.shown_of_halted hhalted (by omega)]
  | exceeds shown steps walk result record => rw [record, walk.shown_eq]

end Accepted

/-- All runs without a refusal have the same report, whoever watches them. -/
theorem report_eq_of_accepted {observer : Observer σ} {observer' : Observer τ} {w : σ} {w' : τ}
    (h : Accepted p memory limit ((start p memory limit).run observer.recorded (w, [])))
    (h' : Accepted p memory limit ((start p memory limit).run observer'.recorded (w', []))) :
    (start p memory limit).report observer w = (start p memory limit).report observer' w' := by
  have hfollows := (Follows.start p memory limit).run observer (w := (w, []))
  have hfollows' := (Follows.start p memory limit).run observer' (w := (w', []))
  rw [report_eq, report_eq]
  generalize (start p memory limit).run observer.recorded (w, []) = out at h hfollows
  generalize (start p memory limit).run observer'.recorded (w', []) = out' at h' hfollows'
  have hsame : out.result = out'.result ∧ out.machine.steps = out'.machine.steps := by
    by_cases hlate : ∀ count t shown, p.HaltsAfter memory count t shown → limit < count
    · obtain ⟨hresult, hcut⟩ := h.truncated_of_late hlate
      obtain ⟨hresult', hcut'⟩ := h'.truncated_of_late hlate
      exact ⟨hresult.trans hresult'.symm, hcut.steps_eq.trans hcut'.steps_eq.symm⟩
    · push Not at hlate
      obtain ⟨count, t, shown, hhalts, hearly⟩ := hlate
      have hcount : count ≤ limit := by omega
      obtain ⟨hresult, hcut⟩ := h.truncated_of_le hhalts hcount hfollows.leads.walk_eq
      obtain ⟨hresult', hcut'⟩ := h'.truncated_of_le hhalts hcount hfollows'.leads.walk_eq
      exact ⟨hresult.trans hresult'.symm, hcut.steps_eq.trans hcut'.steps_eq.symm⟩
  unfold Outcome.transcribed
  rw [hsame.1, hfollows.machine_eq hfollows' hsame.2, h.record_eq, h'.record_eq]

/-- A run offered to a sink stops at the first refusal if the walk shows that snapshot within
`limit + 1` instructions. -/
theorem report_of_firstRefuses (hp : p.Balanced) {sink : Sink σ} {w : σ} {k : Nat} {message : String}
    (hk : ∀ n, sink.FirstRefuses w k message (State.shown p.toArray n ⟨0, memory⟩)) (limit : Nat) :
    let shown := State.shown p.toArray (limit + 1) ⟨0, memory⟩
    let out := (start p memory limit).report sink.observer w
    (k < shown.length → out.result = .error (.refused message) ∧
        out.kept.map Prod.fst = shown.take (k + 1)) ∧
      (shown.length ≤ k → out = (start p memory limit).report Observer.silent ()) := by
  dsimp only
  have hended := run_balanced_ended hp sink.observer memory limit w
  have hanswered := (Sink.Answered.nil sink w).run (start p memory limit)
  have hsilent := run_accepted hp (fun _ _ => rfl : Observer.silent.Accepts) memory limit ()
  cases hended with
  | accepted ends =>
    have hlength := hanswered.length_le ends.record_eq (hk (limit + 1))
    exact ⟨fun hlt => absurd hlt (Nat.not_lt_of_le hlength), fun _ => report_eq_of_accepted ends hsilent⟩
  | refused shown reason within walk reply result record =>
    rw [report_eq]
    generalize (start p memory limit).run sink.observer.recorded (w, []) = out at *
    have hk' := hk (out.machine.steps + 1)
    rw [walk.shown_eq] at hk'
    obtain ⟨hlength, rfl⟩ := hanswered.length_eq record hk'
    have hshown := walk.shown_add (limit - out.machine.steps)
    rw [show out.machine.steps + 1 + (limit - out.machine.steps) = limit + 1 by omega] at hshown
    have hkept : out.kept.2.map Prod.fst = shown ++ [out.machine.state.memory.text] := by
      rw [record, List.map_append, Transcript.map_fst_accepting]
      rfl
    refine ⟨fun _ => ⟨result, ?_⟩, fun hle => ?_⟩
    · rw [hshown, List.take_append_of_le_length (by simp; omega), List.take_of_length_le (by simp; omega)]
      exact hkept
    · rw [hshown] at hle
      simp at hle
      omega

end Machine

/-- A step limit truncates the walk of the program, as long as the texts fit. Accepted runs end well with
the walk, or stand behind its first `limit + 1` instructions; a run that is refused its snapshot number
`k` first stops exactly if the snapshot is shown within these instructions, and is not refused otherwise.
The run under a smaller limit has a beginning of the transcript, and is the same if it ends well. -/
theorem run_truncates_walk {p : Program} (hp : p.Balanced) (memory : Memory) {limit : Nat}
    (hlimit : limit + 1 < UInt64.size) (hfit : (Machine.start p memory limit).TextsFit) :
    (∀ (σ : Type) (observer : Observer σ) (w : σ), observer.Accepts →
      ∃ out, (Machine.start p memory limit).report? observer w = some out ∧
        (∀ count t shown, p.HaltsAfter memory count t shown → count ≤ limit →
          out.result = .ok t.text ∧ Machine.Truncated p memory count out) ∧
        ((∀ count t shown, p.HaltsAfter memory count t shown → limit < count) →
          out.result = .error (.stepLimit limit) ∧ Machine.Truncated p memory (limit + 1) out)) ∧
    (∀ (σ : Type) (sink : Sink σ) (w : σ) (k : Nat) (message : String),
      (∀ n, sink.FirstRefuses w k message (State.shown p.toArray n ⟨0, memory⟩)) →
      let shown := State.shown p.toArray (limit + 1) ⟨0, memory⟩
      ∃ out, (Machine.start p memory limit).report? sink.observer w = some out ∧
        ((∃ reason, out.result = .error (.refused reason)) ↔ k < shown.length) ∧
        (k < shown.length → out.result = .error (.refused message) ∧
          out.kept.map Prod.fst = shown.take (k + 1)) ∧
        (shown.length ≤ k → (Machine.start p memory limit).report? Observer.silent () = some out)) ∧
    ∀ (σ : Type) (observer : Observer σ) (w : σ) (limit' : Nat), limit' ≤ limit →
      ∃ out out', (Machine.start p memory limit).report? observer w = some out ∧
        (Machine.start p memory limit').report? observer w = some out' ∧
        out'.kept <+: out.kept ∧ ∀ text, out'.result = .ok text → out = out'.withLimit limit := by
  have hreport := fun {σ : Type} (observer : Observer σ) (w : σ) =>
    (Machine.Follows.start p memory limit).report?_eq hlimit hfit observer w
  refine ⟨?_, ?_, ?_⟩
  · intro σ observer w ho
    have haccepted := Machine.run_accepted hp ho memory limit w
    have hfollows := (Machine.Follows.start p memory limit).run observer (w := (w, []))
    refine ⟨_, hreport observer w, ?_⟩
    rw [Machine.report_eq]
    refine ⟨?_, haccepted.truncated_of_late⟩
    intro count t shown hhalts hcount
    exact haccepted.truncated_of_le hhalts hcount hfollows.leads.walk_eq
  · intro σ sink w k message hk
    obtain ⟨hrefused, hsilent⟩ := Machine.report_of_firstRefuses hp hk limit
    refine ⟨_, hreport sink.observer w, ⟨?_, fun hlt => ⟨message, (hrefused hlt).1⟩⟩, hrefused, ?_⟩
    · rintro ⟨reason, hresult⟩
      by_contra hlt
      rw [hsilent (Nat.le_of_not_lt hlt), Machine.report_eq] at hresult
      have haccepted := Machine.run_accepted hp (fun _ _ => rfl : Observer.silent.Accepts) memory limit ()
      cases haccepted.eq_stepLimit hresult
    · intro hle
      rw [hreport, ← hsilent hle]
  · intro σ observer w limit' hl
    let m := Machine.start p memory limit'
    have hlarger : Machine.start p memory limit = m.withLimit limit := rfl
    have hfit' : m.TextsFit := .of_withLimit (m := m) hl hfit
    have hlimit' : limit' + 1 < UInt64.size := by omega
    refine ⟨_, _, hreport observer w,
      (Machine.Follows.start p memory limit').report?_eq hlimit' hfit' observer w, ?_, ?_⟩
    · exact Machine.record_prefix_of_le observer m hl (w, [])
    · intro text htext
      rw [Machine.report_eq] at htext
      have hrun := Machine.run_withLimit observer.recorded m hl htext
      rw [Machine.report_eq, Machine.report_eq, hlarger, hrun]
      rfl

/-- The third instruction shows a snapshot and the sixth one halts. Under the limits 2 and 5 these are
the instructions that exceed the limit. -/
theorem run_truncated_on_output_and_on_halt :
    let p : Program := [.flip 0, .enter 0, .emit, .flip 0, .back]
    let run := fun limit => (Machine.start p .empty limit).report? Observer.silent ()
    let refusing := Observer.scripted fun _ => .refused "full"
    p.HaltsAfter .empty 6 .empty ["1"] ∧
      (∃ out, run 2 = some out ∧ out.result = .error (.stepLimit 2) ∧
        Machine.Truncated p .empty 3 out) ∧
      (∃ out, run 5 = some out ∧ out.result = .error (.stepLimit 5) ∧
        Machine.Truncated p .empty 6 out) ∧
      (∃ out, (Machine.start p .empty 2).report? refusing #[] = some out ∧
        ∃ reason, out.result = .error (.refused reason)) ∧
      (∃ out, (Machine.start p .empty 1).report? refusing #[] = some out ∧ run 1 = some out) ∧
      ∃ out out', run 9 = some out ∧ run 6 = some out' ∧ out'.result = .ok "" ∧
        Machine.Truncated p .empty 6 out' ∧ out'.kept <+: out.kept ∧ out = out'.withLimit 9 := by
  intro p run refusing
  have hp : p.Balanced := by decide
  have hhalts : p.HaltsAfter .empty 6 .empty ["1"] :=
    ⟨⟨5, .empty⟩, ⟨by decide, by decide⟩, by decide, rfl⟩
  have hlate : ∀ limit, limit < 6 →
      ∀ count t shown, p.HaltsAfter .empty count t shown → limit < count := by
    intro limit hlt count t shown h
    obtain ⟨rfl, -, -⟩ := hhalts.unique h
    exact hlt
  have hrefuses : ∀ n,
      Sink.FirstRefuses refusing.offer #[] 0 "full" (State.shown p.toArray n ⟨0, .empty⟩) :=
    fun n => Sink.firstRefuses_scripted (by simp) rfl _
  have haccepts : Observer.silent.Accepts := fun _ _ => rfl
  have hfit₉ : (Machine.start p .empty 9).TextsFit :=
    Machine.textsFit_of_isSome haccepts (w := ()) (by decide)
  have hfit : ∀ limit, limit ≤ 9 → (Machine.start p .empty limit).TextsFit :=
    fun limit hl => .of_withLimit (m := Machine.start p .empty limit) hl hfit₉
  obtain ⟨-, hrefused₁, -⟩ := run_truncates_walk hp .empty (by decide) (hfit 1 (by decide))
  obtain ⟨hsilent₂, hrefused₂, -⟩ := run_truncates_walk hp .empty (by decide) (hfit 2 (by decide))
  obtain ⟨hsilent₅, -, -⟩ := run_truncates_walk hp .empty (by decide) (hfit 5 (by decide))
  obtain ⟨hsilent₆, -, -⟩ := run_truncates_walk hp .empty (by decide) (hfit 6 (by decide))
  obtain ⟨-, -, hsmaller₉⟩ := run_truncates_walk hp .empty (by decide) hfit₉
  refine ⟨hhalts, ?_, ?_, ?_, ?_, ?_⟩
  · obtain ⟨out, hout, -, hexceeds⟩ := hsilent₂ Unit Observer.silent () haccepts
    exact ⟨out, hout, hexceeds (hlate 2 (by decide))⟩
  · obtain ⟨out, hout, -, hexceeds⟩ := hsilent₅ Unit Observer.silent () haccepts
    exact ⟨out, hout, hexceeds (hlate 5 (by decide))⟩
  · obtain ⟨out, hout, hiff, -⟩ := hrefused₂ _ refusing.offer #[] 0 "full" hrefuses
    exact ⟨out, hout, hiff.mpr (by decide)⟩
  · obtain ⟨out, hout, -, -, hsilent⟩ := hrefused₁ _ refusing.offer #[] 0 "full" hrefuses
    exact ⟨out, hout, hsilent (by decide)⟩
  · obtain ⟨out, out', hout, hout', hprefix, hsame⟩ := hsmaller₉ Unit Observer.silent () 6 (by decide)
    obtain ⟨ended, hended, hends, -⟩ := hsilent₆ Unit Observer.silent () haccepts
    obtain rfl := Option.some_inj.mp (hended.symm.trans hout')
    obtain ⟨hok, htruncated⟩ := hends 6 .empty ["1"] hhalts (Nat.le_refl 6)
    exact ⟨out, ended, hout, hout', hok, htruncated, hprefix, hsame "" hok⟩

/-- The walk of a single flip ends within the limit, and the run breaks down, as the text of the last
memory does not fit. -/
theorem ended_walk_beyond_capacity :
    let p : Program := [.flip 15303771331337386035]
    p.HaltsAfter .empty 1 (Memory.empty.flip 15303771331337386035) [] ∧ 1 ≤ 8192 ∧
      (Machine.start p .empty 8192).run? Observer.silent () = none :=
  ⟨⟨⟨1, _⟩, ⟨rfl, rfl⟩, rfl, rfl⟩, by decide, rfl⟩

end FlipLoop
