import FlipLoop.Machine.Capacity
import FlipLoop.Proofs.Limits
import FlipLoop.Proofs.MemoryText

/-!
# Machines whose texts fit

`m.TextsFit` says that every memory of which the machine may come to make a text, within its limit, has
one that fits. Such a machine breaks down by nothing but its count, so below the greatest limit it does
what it does with unlimited capacity; and a machine whose snapshots are all accepted breaks down
whenever a text on its way does not fit.
-/

namespace FlipLoop

namespace Machine

variable {σ α β : Type} {observer : Observer σ} {m m' : Machine} {s : State} {w w' : σ}
  {memory : Memory}

/-- The memories of which a machine may come to make a text within its limit: those that it may show,
and the one with which it may halt. -/
inductive MayWrite (m : Machine) : Memory → Prop
  | shown {n : Nat} {s : State} (within : m.steps + n ≤ m.limit)
    (walk : m.state.walk? m.code n = some s) (emits : m.code[s.pc]? = some .emit) :
    MayWrite m s.memory
  | last {n : Nat} {s : State} (within : m.steps + n ≤ m.limit)
    (walk : m.state.walk? m.code n = some s) (halted : s.halted m.code = true) : MayWrite m s.memory

def TextsFit (m : Machine) : Prop :=
  ∀ memory, m.MayWrite memory → memory.Fits

lemma MayWrite.of_moved (next : m.state.next? m.code = some s) (h : (m.moved s).MayWrite memory) :
    m.MayWrite memory := by
  have hwalk : ∀ n t, s.walk? m.code n = some t → m.state.walk? m.code (n + 1) = some t := by
    intro n t ht
    rw [State.walk?, next]
    exact ht
  have hwithin : ∀ n, m.steps + 1 + n ≤ m.limit → m.steps + (n + 1) ≤ m.limit := by omega
  cases h with
  | shown within walk emits => exact .shown (hwithin _ within) (hwalk _ _ walk) emits
  | last within walk halted => exact .last (hwithin _ within) (hwalk _ _ walk) halted

/-- A larger limit leaves more to write. -/
lemma MayWrite.withLimit {limit : Nat} (hl : m.limit ≤ limit) (h : m.MayWrite memory) :
    (m.withLimit limit).MayWrite memory := by
  cases h with
  | shown within walk emits =>
    exact .shown (m := m.withLimit limit) (Nat.le_trans within hl) walk emits
  | last within walk halted =>
    exact .last (m := m.withLimit limit) (Nat.le_trans within hl) walk halted

namespace TextsFit

lemma of_withLimit {limit : Nat} (hl : m.limit ≤ limit) (h : (m.withLimit limit).TextsFit) :
    m.TextsFit :=
  fun memory hmemory => h memory (hmemory.withLimit hl)

lemma moved (h : m.TextsFit) (next : m.state.next? m.code = some s) : (m.moved s).TextsFit :=
  fun memory hmemory => h memory (hmemory.of_moved next)

lemma step (observer : Observer σ) (w : σ) (h : m.TextsFit) : (m.step observer w).machine.TextsFit := by
  obtain heq | ⟨s, hs, heq⟩ := machine_step observer m w
  · rwa [heq]
  · rw [heq]
    exact h.moved hs

lemma steps (hsteps : Steps observer m w m' w') (h : m.TextsFit) : m'.TextsFit := by
  induction hsteps with
  | refl => exact h
  | @head m m' _ w _ _ hstep _ ih =>
    have hnext := h.step observer w
    rw [hstep] at hnext
    exact ih hnext

lemma run (observer : Observer σ) (w : σ) (h : m.TextsFit) : (m.run observer w).machine.TextsFit := by
  obtain ⟨m', w', hsteps, -, hrun⟩ := run_cases observer m w
  rw [hrun, machine_runEnd]
  exact (h.steps hsteps).step observer w'

lemma not_overfull (h : m.TextsFit) : ¬m.Overfull := by
  rintro ⟨within, emits, hnot⟩
  exact hnot (h _ (.shown (n := 0) within rfl emits))

lemma step?_eq (h : m.TextsFit) (observer : Observer σ) (w : σ) :
    m.step? observer w = (m.step observer w).counted :=
  if_neg h.not_overfull

end TextsFit

lemma Outcome.counted_of_lt {out : Outcome σ α} (h : out.machine.steps < UInt64.size) :
    out.counted = some out :=
  if_pos h

lemma Outcome.counted_of_le {out : Outcome σ α} (h : UInt64.size ≤ out.machine.steps) :
    out.counted = none :=
  if_neg (Nat.not_lt_of_le h)

lemma Outcome.eq_of_counted {out out' : Outcome σ α} (h : out.counted = some out') : out = out' := by
  unfold counted at h
  split at h
  · exact Option.some_inj.mp h
  · cases h

lemma step_eq_of_step? {out : Outcome σ Bool} (h : m.step? observer w = some out) :
    ¬m.Overfull ∧ m.step observer w = out := by
  unfold step? at h
  split at h
  · cases h
  · next hfull => exact ⟨hfull, Outcome.eq_of_counted h⟩

lemma runFor?_of_continues {last : Outcome σ Bool} (hstep : m.step? observer w = some last)
    (hlast : last.result = .ok true) (budget : Nat) :
    runFor? observer (budget + 1) m w = runFor? observer budget last.machine last.kept := by
  rw [runFor?, hstep]
  obtain ⟨result, m', w'⟩ := last
  obtain rfl : result = .ok true := hlast
  rfl

lemma runFor?_of_last {last : Outcome σ Bool} (hstep : m.step? observer w = some last)
    (hlast : last.result ≠ .ok true) (budget : Nat) :
    runFor? observer (budget + 1) m w =
      if last.result = .ok false → last.machine.state.memory.Fits then some (runEnd observer last)
      else none := by
  rw [runFor?, hstep]
  obtain ⟨result, m', w'⟩ := last
  cases result with
  | error fault => exact (if_pos nofun).symm
  | ok continues =>
    cases continues with
    | true => exact absurd rfl hlast
    | false => simp [runEnd]

/-- A run that does not break down goes on behind its first step, or ends with it. -/
lemma runFor?_cases {budget : Nat} {out : Outcome σ String}
    (h : runFor? observer (budget + 1) m w = some out) :
    ∃ last, m.step? observer w = some last ∧
      (last.result = .ok true ∧ runFor? observer budget last.machine last.kept = some out ∨
        last.result ≠ .ok true ∧ (last.result = .ok false → last.machine.state.memory.Fits) ∧
          runEnd observer last = out) := by
  cases hstep : m.step? observer w with
  | none =>
    rw [runFor?, hstep] at h
    cases h
  | some last =>
    refine ⟨last, rfl, ?_⟩
    by_cases hlast : last.result = .ok true
    · rw [runFor?_of_continues hstep hlast] at h
      exact .inl ⟨hlast, h⟩
    · rw [runFor?_of_last hstep hlast] at h
      split at h
      · next hfits => exact .inr ⟨hlast, hfits, Option.some_inj.mp h⟩
      · cases h

/-- What a run leaves is what it leaves with unlimited capacity. -/
theorem run_eq_of_run? {out : Outcome σ String} (h : m.run? observer w = some out) :
    m.run observer w = out := by
  have hfor : ∀ budget (m : Machine) (w : σ),
      runFor? observer budget m w = some out → runFor observer budget m w = out := by
    intro budget
    induction budget with
    | zero => exact fun m w h => Option.some_inj.mp h
    | succ budget ih =>
      intro m w h
      obtain ⟨last, hstep, hlast⟩ := runFor?_cases h
      obtain ⟨-, rfl⟩ := step_eq_of_step? hstep
      obtain ⟨hcontinues, hrest⟩ | ⟨hends, -, hend⟩ := hlast
      · rw [runFor_of_continues budget hcontinues]
        exact ih _ _ hrest
      · rw [runFor_of_last budget hends, hend]
  exact hfor m.budget m w h

lemma steps_le_step (observer : Observer σ) (m : Machine) (w : σ) :
    m.steps ≤ (m.step observer w).machine.steps := by
  obtain heq | ⟨s, -, heq⟩ := machine_step observer m w
  · exact Nat.le_of_eq (congrArg steps heq).symm
  · rw [heq]
    exact Nat.le_succ _

lemma steps_le_runFor (observer : Observer σ) (budget : Nat) (m : Machine) (w : σ) :
    m.steps ≤ (runFor observer budget m w).machine.steps := by
  induction budget generalizing m w with
  | zero => exact Nat.le_refl _
  | succ budget ih =>
    have hle := steps_le_step observer m w
    by_cases hlast : (m.step observer w).result = .ok true
    · rw [runFor_of_continues budget hlast]
      exact Nat.le_trans hle (ih _ _)
    · rwa [runFor_of_last budget hlast, machine_runEnd]

/-- The count of a run is not below that of its first step. -/
lemma steps_step_le_runFor (observer : Observer σ) (budget : Nat) (m : Machine) (w : σ) :
    (m.step observer w).machine.steps ≤ (runFor observer (budget + 1) m w).machine.steps := by
  by_cases hlast : (m.step observer w).result = .ok true
  · rw [runFor_of_continues budget hlast]
    exact steps_le_runFor observer budget _ _
  · rw [runFor_of_last budget hlast, machine_runEnd]

namespace TextsFit

lemma fits_of_step (h : m.TextsFit) (hresult : (m.step observer w).result = .ok false) :
    (m.step observer w).machine.state.memory.Fits := by
  cases step_cases observer m w with
  | rested within halted eq =>
    rw [eq]
    exact h _ (.last (n := 0) within rfl halted)
  | advanced s within next reply eq =>
    rw [eq] at hresult ⊢
    have hs : s.halted m.code = true := by simpa using hresult
    exact (h.moved next) _ (.last (n := 0) within rfl hs)
  | spent beyond eq => cases (congrArg Outcome.result eq).symm.trans hresult
  | refused message within emits reply eq => cases (congrArg Outcome.result eq).symm.trans hresult
  | stuck i fault within fetched fails eq => cases (congrArg Outcome.result eq).symm.trans hresult
  | exceeded s within next reply eq => cases (congrArg Outcome.result eq).symm.trans hresult

/-- A run whose texts fit breaks down by nothing but its count. -/
theorem run?_eq (h : m.TextsFit) (hsteps : m.steps < UInt64.size) (observer : Observer σ) (w : σ) :
    m.run? observer w = (m.run observer w).counted := by
  have hfor : ∀ budget (m : Machine) (w : σ), m.TextsFit → m.steps < UInt64.size →
      runFor? observer budget m w = (runFor observer budget m w).counted := by
    intro budget
    induction budget with
    | zero => exact fun m w _ hsteps => (Outcome.counted_of_lt hsteps).symm
    | succ budget ih =>
      intro m w h hsteps
      have hcount' := steps_step_le_runFor observer budget m w
      by_cases hcount : (m.step observer w).machine.steps < UInt64.size
      · have hstep : m.step? observer w = some (m.step observer w) := by
          rw [h.step?_eq, Outcome.counted_of_lt hcount]
        by_cases hlast : (m.step observer w).result = .ok true
        · rw [runFor?_of_continues hstep hlast, runFor_of_continues budget hlast]
          exact ih _ _ (h.step observer w) hcount
        · have hend : (runEnd observer (m.step observer w)).machine.steps < UInt64.size := by
            rwa [machine_runEnd]
          rw [runFor?_of_last hstep hlast, if_pos h.fits_of_step, runFor_of_last budget hlast,
            Outcome.counted_of_lt hend]
      · have hbeyond := Nat.le_of_not_lt hcount
        rw [runFor?, h.step?_eq, Outcome.counted_of_le hbeyond,
          Outcome.counted_of_le (Nat.le_trans hbeyond hcount')]
  exact hfor m.budget m w h hsteps

end TextsFit

section Breakdown

/-- A memory that may be written is that of the machine, or may be written one instruction later. -/
lemma MayWrite.now_or_later (h : m.MayWrite memory) :
    m.steps ≤ m.limit ∧ memory = m.state.memory ∧
        (m.code[m.state.pc]? = some .emit ∨ m.halted = true) ∨
      ∃ s, m.steps < m.limit ∧ m.state.next? m.code = some s ∧ (m.moved s).MayWrite memory := by
  have hlater : ∀ n t, m.state.walk? m.code (n + 1) = some t →
      ∃ s, m.state.next? m.code = some s ∧ s.walk? m.code n = some t := by
    intro n t ht
    exact Option.bind_eq_some_iff.mp ht
  have hwithin : ∀ n, m.steps + (n + 1) ≤ m.limit →
      m.steps < m.limit ∧ m.steps + 1 + n ≤ m.limit := by omega
  cases h with
  | @shown n t within walk emits =>
    cases n with
    | zero =>
      obtain rfl := Option.some_inj.mp walk
      exact .inl ⟨within, rfl, .inl emits⟩
    | succ n =>
      obtain ⟨s, hs, hwalk⟩ := hlater n t walk
      obtain ⟨hlt, hmoved⟩ := hwithin n within
      exact .inr ⟨s, hlt, hs, .shown (m := m.moved s) hmoved hwalk emits⟩
  | @last n t within walk halted =>
    cases n with
    | zero =>
      obtain rfl := Option.some_inj.mp walk
      exact .inl ⟨within, rfl, .inr halted⟩
    | succ n =>
      obtain ⟨s, hs, hwalk⟩ := hlater n t walk
      obtain ⟨hlt, hmoved⟩ := hwithin n within
      exact .inr ⟨s, hlt, hs, .last (m := m.moved s) hmoved hwalk halted⟩

lemma next?_eq_none_of_halted (h : m.halted = true) : m.state.next? m.code = none :=
  State.next?_eq_none_of_halted h

lemma MayWrite.eq_of_halted (h : m.MayWrite memory) (hm : m.halted = true) : memory = m.state.memory := by
  obtain ⟨-, heq, -⟩ | ⟨s, -, hs, -⟩ := h.now_or_later
  · exact heq
  · rw [next?_eq_none_of_halted hm] at hs
    cases hs

lemma step_of_next (ho : observer.Accepts) (hlt : m.steps < m.limit)
    (hs : m.state.next? m.code = some s) (w : σ) :
    m.step observer w = ⟨.ok (!s.halted m.code), m.moved s, (m.offered observer w).2⟩ := by
  cases step_cases observer m w with
  | advanced t within next reply eq =>
    obtain rfl := Option.some_inj.mp (hs.symm.trans next)
    exact eq
  | exceeded t within next reply eq => omega
  | spent beyond eq => omega
  | rested within halted eq =>
    rw [next?_eq_none_of_halted halted] at hs
    cases hs
  | refused message within emits reply eq =>
    rw [offered_of_accepts ho] at reply
    cases reply
  | stuck i fault within fetched fails eq =>
    simp [State.next?, fetched, fails, Except.toOption] at hs

/-- A machine that may write a text that does not fit breaks down, if nobody refuses a snapshot before. -/
theorem textsFit_of_run? (ho : observer.Accepts) {out : Outcome σ String}
    (h : m.run? observer w = some out) : m.TextsFit := by
  have hfor : ∀ budget (m : Machine) (w : σ), m.limit + 1 - m.steps ≤ budget →
      runFor? observer budget m w = some out → m.TextsFit := by
    intro budget
    induction budget with
    | zero =>
      intro m w hb _ memory hmemory
      obtain ⟨hwithin, -⟩ | ⟨-, hlt, -⟩ := hmemory.now_or_later <;> omega
    | succ budget ih =>
      intro m w hb h memory hmemory
      obtain ⟨last, hstep, hlast⟩ := runFor?_cases h
      obtain ⟨hfull, rfl⟩ := step_eq_of_step? hstep
      obtain ⟨hwithin, rfl, hemits | hhalted⟩ | ⟨s, hlt, hs, hlater⟩ := hmemory.now_or_later
      · by_contra hnot
        exact hfull ⟨hwithin, hemits, hnot⟩
      · rw [step_of_halted hwithin hhalted] at hlast
        obtain ⟨hcontinues, -⟩ | ⟨-, hfits, -⟩ := hlast
        · cases hcontinues
        · exact hfits rfl
      · rw [step_of_next ho hlt hs] at hlast
        obtain ⟨-, hrest⟩ | ⟨hends, hfits, -⟩ := hlast
        · have hbudget : (m.moved s).limit + 1 - (m.moved s).steps ≤ budget := by
            simp only [moved]
            omega
          exact ih (m.moved s) _ hbudget hrest memory hlater
        · have hhalted : s.halted m.code = true := by simpa using hends
          obtain rfl := hlater.eq_of_halted (m := m.moved s) hhalted
          exact hfits (by rw [hhalted]; rfl)
  exact hfor m.budget m w (Nat.le_refl _) h

/-- A single run that does not break down shows that all texts fit. -/
lemma textsFit_of_isSome (ho : observer.Accepts) (h : (m.run? observer w).isSome = true) :
    m.TextsFit := by
  obtain ⟨out, hout⟩ := Option.isSome_iff_exists.mp h
  exact textsFit_of_run? ho hout

end Breakdown

/-- A run that does not break down, with the transcript of what it offers in place of what the observer
keeps. -/
def report? (observer : Observer σ) (m : Machine) (w : σ) : Option (Outcome Transcript String) :=
  match m.run? observer w, m.run? observer.recorded (w, []) with
  | some out, some recorded => some ⟨out.result, out.machine, recorded.kept.2⟩
  | _, _ => none

lemma textsFit_of_report? (ho : observer.Accepts) {out : Outcome Transcript String}
    (h : m.report? observer w = some out) : m.TextsFit := by
  unfold report? at h
  split at h
  · next hrun _ => exact textsFit_of_run? ho hrun
  · cases h

lemma TextsFit.report?_eq (h : m.TextsFit) (hsteps : m.steps < UInt64.size) (observer : Observer σ)
    (w : σ) : m.report? observer w = (m.report observer w).counted := by
  have hmachine : (m.run observer.recorded (w, [])).machine = (m.run observer w).machine :=
    congrArg Outcome.machine (run_recorded observer m (w, []))
  have hsame : (m.report observer w).machine = (m.run observer w).machine := rfl
  rw [report?, h.run?_eq hsteps, h.run?_eq hsteps]
  by_cases hcount : (m.run observer w).machine.steps < UInt64.size
  · rw [Outcome.counted_of_lt hcount, Outcome.counted_of_lt (by rwa [hmachine]),
      Outcome.counted_of_lt (by rwa [hsame])]
    rfl
  · have hbeyond := Nat.le_of_not_lt hcount
    rw [Outcome.counted_of_le hbeyond, Outcome.counted_of_le (by rwa [hmachine]),
      Outcome.counted_of_le (by rwa [hsame])]

/-! ### Below the greatest limit -/

namespace Follows

variable {code : Array Instr} {limit : Nat} {s₀ : State} {taken : List String}

lemma exists_step (h : Follows code limit s₀ m taken) (observer : Observer σ) (w : σ) :
    ∃ taken', Follows code limit s₀ (m.step observer w).machine taken' := by
  have hstep := Follows.step observer (w := (w, .accepting taken)) (by simpa using h)
  have hsame := congrArg Outcome.machine (step_recorded observer m (w, .accepting taken))
  exact ⟨_, hsame ▸ hstep⟩

lemma exists_run (h : Follows code limit s₀ m taken) (observer : Observer σ) (w : σ) :
    ∃ taken', Follows code limit s₀ (m.run observer w).machine taken' := by
  have hrun := Follows.run observer (w := (w, .accepting taken)) (by simpa using h)
  have hsame := congrArg Outcome.machine (run_recorded observer m (w, .accepting taken))
  exact ⟨_, hsame ▸ hrun⟩

lemma steps_lt (h : Follows code limit s₀ m taken) (hlimit : limit + 1 < UInt64.size) :
    m.steps < UInt64.size :=
  Nat.lt_of_le_of_lt h.steps_le hlimit

variable (h : Follows code limit s₀ m taken) (hlimit : limit + 1 < UInt64.size) (hfit : m.TextsFit)

include h hlimit hfit

theorem step?_eq (observer : Observer σ) (w : σ) :
    m.step? observer w = some (m.step observer w) := by
  obtain ⟨_, hstep⟩ := h.exists_step observer w
  rw [hfit.step?_eq, Outcome.counted_of_lt (hstep.steps_lt hlimit)]

theorem run?_eq (observer : Observer σ) (w : σ) :
    m.run? observer w = some (m.run observer w) := by
  obtain ⟨_, hrun⟩ := h.exists_run observer w
  rw [hfit.run?_eq (h.steps_lt hlimit), Outcome.counted_of_lt (hrun.steps_lt hlimit)]

theorem report?_eq (observer : Observer σ) (w : σ) :
    m.report? observer w = some (m.report observer w) := by
  rw [report?, h.run?_eq hlimit hfit, h.run?_eq hlimit hfit]
  rfl

end Follows

end Machine

/-- A program that halts within the limit makes texts of its last memory, besides those that it shows. -/
theorem Program.HaltsAfter.textsFit_iff {p : Program} {memory t : Memory} {count limit : Nat}
    {shown : List String} (h : p.HaltsAfter memory count t shown) (hcount : count ≤ limit) :
    (Machine.start p memory limit).TextsFit ↔
      ∀ text ∈ shown ++ [t.text], text.length ≤ largestCapacity := by
  obtain ⟨s, hs, hhalted, hlast⟩ := id h
  have hwithin : ∀ k ≤ count, 0 + k ≤ limit := by omega
  constructor
  · intro hfit text htext
    obtain hshown | rfl : text ∈ shown ∨ text = t.text := by simpa using htext
    · rw [← hs.shown_eq, State.mem_shown_iff] at hshown
      obtain ⟨k, u, hk, hwalk, emits, rfl⟩ := hshown
      exact u.memory.fits_iff_length_text.mp (hfit _ (.shown (hwithin k (Nat.le_of_lt hk)) hwalk emits))
    · rw [← Memory.fits_iff_length_text, ← hlast]
      exact hfit _ (.last (hwithin count (Nat.le_refl _)) hs.walk_eq hhalted)
  · intro htexts written hwritten
    rw [Memory.fits_iff_length_text]
    apply htexts
    cases hwritten with
    | @shown n u within walk emits =>
      have hrun : u.halted p.toArray = false := by
        rw [State.halted, decide_eq_false_iff_not]
        exact Nat.not_le_of_lt (Array.getElem?_eq_some_iff.mp emits).1
      have hlt : n < count := h.lt_of_not_halted ⟨walk, rfl⟩ hrun
      have hmem : u.memory.text ∈ State.shown p.toArray count ⟨0, memory⟩ :=
        State.mem_shown_iff.mpr ⟨n, u, hlt, walk, emits, rfl⟩
      rw [hs.shown_eq] at hmem
      exact List.mem_append_left _ hmem
    | @last n u within walk halted =>
      obtain ⟨-, rfl, -⟩ := h.unique ⟨u, ⟨walk, rfl⟩, halted, rfl⟩
      exact List.mem_append_right _ (List.mem_singleton.mpr rfl)

end FlipLoop
