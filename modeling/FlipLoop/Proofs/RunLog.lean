import FlipLoop.Proofs.RunCommand
import FlipLoop.Proofs.SurveyArguments
import FlipLoop.Proofs.Telling

/-!
# The log of the run command

What the run command logs and prints are two readings of one sequence of events, which no threshold
and no quiet flag changes. Read at the highest threshold the log tells of every instruction of the run,
and lower thresholds only leave events out.
-/

namespace FlipLoop

namespace Event

/-- Tells neither of an instruction nor of a snapshot. -/
def Aside (event : Event) : Prop :=
  event.step? = none ∧ event.snapshot? = none

end Event

/-- The event of a snapshot stands behind the event of each instruction that shows one, and nowhere
else. -/
structure Paired (log : List Event) : Prop where
  head_ne : ∀ snapshot, log[0]? ≠ some (.output snapshot)
  output_iff : ∀ k, (∃ snapshot, log[k + 1]? = some (.output snapshot)) ↔
    ∃ pc steps, log[k]? = some (.step pc steps .emit)

namespace Paired

variable {log log' : List Event}

lemma nil : Paired [] := by
  constructor <;> simp

lemma append (h : Paired log) (h' : Paired log') : Paired (log ++ log') := by
  constructor
  · intro snapshot
    cases log with
    | nil => exact h'.head_ne snapshot
    | cons event log => exact h.head_ne snapshot
  · intro k
    obtain hk | hk := Nat.lt_or_ge k log.length
    · rw [List.getElem?_append_left hk, ← h.output_iff]
      obtain hlast | hlast := Nat.lt_or_ge (k + 1) log.length
      · rw [List.getElem?_append_left hlast]
      -- the last instruction of `log` shows nothing, and `log'` starts with no snapshot
      · have hnone : log[k + 1]? = none := List.getElem?_eq_none hlast
        have hfirst : k + 1 - log.length = 0 := by omega
        rw [List.getElem?_append_right hlast, hnone, hfirst]
        simp [h'.head_ne]
    · rw [List.getElem?_append_right hk, List.getElem?_append_right (by omega), ← h'.output_iff,
        show k + 1 - log.length = k - log.length + 1 by omega]

lemma of_aside (h : ∀ event ∈ log, event.Aside) : Paired log := by
  have hoff (k : Nat) (event : Event) (hk : log[k]? = some event) : event.Aside :=
    h event (List.mem_of_getElem? hk)
  refine ⟨fun snapshot hk => ?_, fun k => ⟨?_, ?_⟩⟩
  · cases (hoff _ _ hk).2
  · rintro ⟨snapshot, hk⟩
    cases (hoff _ _ hk).2
  · rintro ⟨pc, steps, hk⟩
    cases (hoff _ _ hk).1

lemma events (s : State) (steps : Nat) (i : Instr) : Paired (s.events steps i) := by
  constructor
  · intro snapshot hk
    cases i <;> simp [State.events] at hk
  · intro k
    obtain _ | _ | k := k
    · cases i <;> simp [State.events]
    · cases i <;> simp [State.events]
    · cases i <;> simp [State.events]

lemma told (code : Array Instr) (count steps : Nat) (s : State) : Paired (s.told code count steps) := by
  induction count generalizing steps s with
  | zero => exact nil
  | succ count ih =>
    rw [State.told]
    cases code[s.pc]? with
    | none => exact nil
    | some i =>
      refine (events s steps i).append ?_
      cases s.next? code with
      | none => exact nil
      | some t => exact ih (steps + 1) t

end Paired

/-- The log tells of the first `n` instructions of `code` on `memory`, which lead to `s`. -/
structure Replays (code : Array Instr) (memory : Memory) (n : Nat) (s : State) (log : List Event) :
    Prop where
  walk_eq : State.walk? code n ⟨0, memory⟩ = some s
  length_steps : (log.filterMap Event.step?).length = n
  step_eq : ∀ k < n, ∃ t i, State.walk? code k ⟨0, memory⟩ = some t ∧ code[t.pc]? = some i ∧
    (log.filterMap Event.step?)[k]? = some (t.pc, k, i)
  paired : Paired log
  snapshots_eq : log.filterMap Event.snapshot? = State.shown code n ⟨0, memory⟩

namespace Replays

variable {code : Array Instr} {memory : Memory} {n : Nat} {s : State} {log before behind : List Event}

lemma filterMap_extend {α : Type} {project : Event → Option α}
    (hbefore : ∀ event ∈ before, project event = none) (hbehind : ∀ event ∈ behind, project event = none)
    (log : List Event) : (before ++ log ++ behind).filterMap project = log.filterMap project := by
  rw [List.filterMap_append, List.filterMap_append, List.filterMap_eq_nil_iff.mpr hbefore,
    List.filterMap_eq_nil_iff.mpr hbehind, List.append_nil, List.nil_append]

lemma of_walk (h : State.walk? code n ⟨0, memory⟩ = some s) :
    Replays code memory n s (State.told code n 0 ⟨0, memory⟩) := by
  obtain ⟨hlength, hsteps⟩ := State.steps_told h 0
  refine ⟨h, hlength, fun k hk => ?_, .told .., ?_⟩
  · obtain ⟨t, i, ht, hi, hstep⟩ := hsteps k hk
    exact ⟨t, i, ht, hi, by rw [hstep, Nat.zero_add]⟩
  · exact State.snapshots_told ..

lemma extend (h : Replays code memory n s log) (hbefore : ∀ event ∈ before, event.Aside)
    (hbehind : ∀ event ∈ behind, event.Aside) : Replays code memory n s (before ++ log ++ behind) := by
  have hsteps := filterMap_extend (fun event hevent => (hbefore event hevent).1)
    (fun event hevent => (hbehind event hevent).1) log
  have hsnapshots := filterMap_extend (fun event hevent => (hbefore event hevent).2)
    (fun event hevent => (hbehind event hevent).2) log
  refine ⟨h.walk_eq, ?_, ?_, ((Paired.of_aside hbefore).append h.paired).append (.of_aside hbehind), ?_⟩
  · rw [hsteps, h.length_steps]
  · rw [hsteps]
    exact h.step_eq
  · rw [hsnapshots, h.snapshots_eq]

end Replays

namespace CommandLine

namespace Console

variable {threshold : Threshold} {quiet : Bool}

/-- The lines of the snapshots among the events. -/
def outputLines (quiet : Bool) (events : List Event) : List String :=
  if quiet then [] else (events.filterMap Event.snapshot?).map ("! " ++ ·)

lemma outputLines_append (quiet : Bool) (events events' : List Event) :
    outputLines quiet (events ++ events') = outputLines quiet events ++ outputLines quiet events' := by
  cases quiet <;> simp [outputLines]

lemma log_note (threshold : Threshold) (event : Event) (console : Console) :
    (console.note threshold event).log.toList =
      console.log.toList ++ [event].filter (threshold.shows ·.level) := by
  unfold note
  cases h : threshold.shows event.level <;> simp [h]

lemma log_hear (event : Event) (console : Console) :
    ((observer threshold quiet).hear console event).log.toList =
      console.log.toList ++ [event].filter (threshold.shows ·.level) := by
  rw [← log_note]
  cases event with
  | output snapshot => cases quiet <;> rfl
  | _ => rfl

lemma printed_hear (event : Event) (console : Console) :
    ((observer threshold quiet).hear console event).printed.toList =
      console.printed.toList ++ outputLines quiet [event] := by
  cases event with
  | output snapshot => cases quiet <;> simp [Observer.hear, observer, outputLines, Event.snapshot?]
  | _ => cases quiet <;> simp [Observer.hear, observer, outputLines, Event.snapshot?]

lemma log_hearAll (events : List Event) (console : Console) :
    ((observer threshold quiet).hearAll console events).log.toList =
      console.log.toList ++ events.filter (threshold.shows ·.level) := by
  induction events generalizing console with
  | nil => simp
  | cons event events ih =>
    rw [← List.singleton_append, Observer.hearAll_append, ih, List.filter_append, ← List.append_assoc,
      ← log_hear]
    rfl

lemma printed_hearAll (events : List Event) (console : Console) :
    ((observer threshold quiet).hearAll console events).printed.toList =
      console.printed.toList ++ outputLines quiet events := by
  induction events generalizing console with
  | nil => cases quiet <;> simp [outputLines]
  | cons event events ih =>
    rw [← List.singleton_append, Observer.hearAll_append, ih, outputLines_append, ← List.append_assoc,
      ← printed_hear]
    rfl

end Console

/-- Loading is told by two events. -/
lemma load_eq_ok {path : String} {numeric : Bool} {content : Except ReadFault ByteArray} {p : Program}
    {loading : List Event} (h : load path numeric content = .ok (p, loading)) :
    p.Balanced ∧ ∃ tokens, loading = [.parsed tokens p.length, .loaded path p.length] := by
  unfold load at h
  split at h
  · cases h
  · split at h
    · cases h
    · split at h
      · cases h
      · next hp =>
        obtain ⟨rfl, rfl⟩ := Prod.mk.inj (Except.ok.inj h)
        exact ⟨Program.balanced_of_ofSource hp, _, rfl⟩

namespace RunRequest

variable {request : RunRequest} {content : Except ReadFault ByteArray} {p : Program} {loading : List Event}

/-- The run of the program, watched by nobody. -/
def outcome (request : RunRequest) (p : Program) : Machine.Outcome Unit String :=
  (Machine.start p (Memory.ofText request.memory) (effectiveLimit request.maxSteps)).run Observer.silent ()

/-- All events of the command, whose loading was told by `loading`. -/
def events (request : RunRequest) (p : Program) (loading : List Event) : List Event :=
  let out := request.outcome p
  loading ++ State.told p.toArray out.machine.steps 0 ⟨0, Memory.ofText request.memory⟩ ++
    [out.verdict, .ended out.machine.steps out.machine.state.pc]

lemma run_eq_outcome {σ : Type} {observer : Observer σ} (ho : observer.Accepts) (hp : p.Balanced)
    (request : RunRequest) (w : σ) :
    let out := (Machine.start p (Memory.ofText request.memory) (effectiveLimit request.maxSteps)).run
      observer w
    out.result = (request.outcome p).result ∧ out.machine = (request.outcome p).machine := by
  have hreport := Machine.report_eq_of_accepted
    (Machine.run_accepted hp ho (Memory.ofText request.memory) (effectiveLimit request.maxSteps) w)
    (Machine.run_accepted hp (fun _ _ => rfl : Observer.silent.Accepts) _ _ ())
  exact ⟨congrArg Machine.Outcome.result hreport, congrArg Machine.Outcome.machine hreport⟩

/-- The report of a run command tells of its events: the log of all that are shown, the lines of the
snapshots. -/
theorem reportRun_eq (hload : load request.file request.numeric content = .ok (p, loading))
    (threshold : Threshold) :
    reportRun threshold request content =
      let lines := Console.outputLines request.quiet (request.events p loading)
      let log := (request.events p loading).filter (threshold.shows ·.level)
      match (request.outcome p).result with
      | .ok text => { out := lines ++ [text], log }
      | .error fault => { request.failed lines (.running fault) with log } := by
  obtain ⟨hp, tokens, rfl⟩ := load_eq_ok hload
  have ho : (Console.observer threshold request.quiet).Accepts := fun _ _ => rfl
  unfold reportRun
  rw [hload]
  dsimp only
  generalize hconsole : List.foldl (fun (console : Console) event => console.note threshold event) {}
    [.parsed tokens p.length, .loaded request.file p.length] = console
  obtain ⟨hresult, hmachine⟩ := request.run_eq_outcome ho hp console
  obtain ⟨-, hkept, -⟩ := Machine.run_heard hp ho (Memory.ofText request.memory)
    (effectiveLimit request.maxSteps) console
  generalize (Machine.start p (Memory.ofText request.memory) (effectiveLimit request.maxSteps)).run
    (Console.observer threshold request.quiet) console = out at hresult hmachine hkept ⊢
  have hverdict : out.verdict = (request.outcome p).verdict := by
    rw [Machine.Outcome.verdict, hresult, hmachine]
    rfl
  have hheard : out.kept.note threshold (.ended out.machine.steps out.machine.state.pc) =
      (Console.observer threshold request.quiet).hearAll {}
        (request.events p [.parsed tokens p.length, .loaded request.file p.length]) := by
    rw [hkept, hverdict, hmachine, ← hconsole]
    unfold events
    rw [Observer.hearAll_append, Observer.hearAll_append, Observer.hearAll_append]
    rfl
  have hlog := congrArg (·.log.toList) hheard
  have hprinted := congrArg (·.printed.toList) hheard
  rw [Console.log_hearAll] at hlog
  rw [Console.printed_hearAll, Console.printed_note] at hprinted
  rw [hresult]
  cases (request.outcome p).result with
  | ok text => simp [Console.succeed, hlog, hprinted]
  | error fault => simp [Console.fail, failed, hlog, hprinted]

lemma log_reportRun_trace (hload : load request.file request.numeric content = .ok (p, loading)) :
    (reportRun (some .trace) request content).log = request.events p loading := by
  have hall : (request.events p loading).filter (Threshold.shows (some .trace) ·.level) =
      request.events p loading :=
    List.filter_eq_self.mpr fun event _ => by cases event <;> rfl
  rw [reportRun_eq hload, hall]
  cases (request.outcome p).result <;> rfl

/-- A threshold changes nothing but the log, and leaves out of it what it does not show. -/
lemma reportRun_eq_filter (hload : load request.file request.numeric content = .ok (p, loading))
    (threshold : Threshold) :
    reportRun threshold request content =
      { reportRun (some .trace) request content with
        log := (reportRun (some .trace) request content).log.filter (threshold.shows ·.level) } := by
  rw [log_reportRun_trace hload, reportRun_eq hload, reportRun_eq hload]
  cases (request.outcome p).result <;> rfl

lemma heard_outcome (hp : p.Balanced) (request : RunRequest) :
    Machine.Heard Observer.silent p (Memory.ofText request.memory) (effectiveLimit request.maxSteps) ()
      (request.outcome p) :=
  Machine.run_heard hp (fun _ _ => rfl) _ _ ()

lemma replays_events (hp : p.Balanced) (request : RunRequest)
    (hloading : ∀ event ∈ loading, event.Aside) :
    let machine := (request.outcome p).machine
    Replays p.toArray (Memory.ofText request.memory) machine.steps machine.state
      (request.events p loading) := by
  refine (Replays.of_walk (request.heard_outcome hp).walk_eq).extend hloading ?_
  intro event hevent
  obtain rfl | rfl : event = (request.outcome p).verdict ∨ event = .ended _ _ := by
    simpa using hevent
  · unfold Machine.Outcome.verdict
    split <;> exact ⟨rfl, rfl⟩
  · exact ⟨rfl, rfl⟩

/-- Only the lines of snapshots open with their mark. -/
lemma filter_out_reportRun (request : RunRequest)
    (hload : load request.file request.numeric content = .ok (p, loading))
    (hquiet : request.quiet = false) (threshold : Threshold) :
    (reportRun threshold request content).out.filter (fun line => "! ".toList <+: line.toList) =
      ((request.events p loading).filterMap Event.snapshot?).map ("! " ++ ·) := by
  have hlines (events : List Event) : (Console.outputLines false events).filter
      (fun line => "! ".toList <+: line.toList) = (events.filterMap Event.snapshot?).map ("! " ++ ·) := by
    refine List.filter_eq_self.mpr fun line hline => ?_
    obtain ⟨snapshot, -, rfl⟩ := List.mem_map.mp hline
    simp
  have hmemory (memory : Memory) : ¬"! ".toList <+: memory.text.toList := by
    rintro ⟨rest, hrest⟩
    apply head?_text_ne_bang memory
    rw [← hrest]
    rfl
  rw [reportRun_eq hload, hquiet]
  obtain ⟨hresult, -⟩ | ⟨hresult, -⟩ := (request.heard_outcome (load_eq_ok hload).1).ends
  · rw [hresult]
    dsimp only
    rw [List.filter_append, hlines, List.filter_cons_of_neg (by simpa using hmemory _), List.filter_nil,
      List.append_nil]
  · rw [hresult]
    exact hlines _

end RunRequest

/-- The log at the highest threshold replays the run, and lower thresholds leave events out of it and
change nothing else. As long as the environment sets none, the threshold is the highest one from the
third request for more events on. -/
theorem trace_log_replays_run {request : RunRequest} {read : String → Except ReadFault ByteArray}
    {p : Program} {loading : List Event}
    (hload : load request.file request.numeric (read request.file) = .ok (p, loading)) :
    let limit := effectiveLimit request.maxSteps
    let full := (Command.run request).report (some .trace) read
    let plain := (Command.run { request with quiet := false }).report (some .trace) read
    (∃ n s front verdict, Replays p.toArray (Memory.ofText request.memory) n s full.log ∧
      full.log = front ++ [verdict, .ended n s.pc] ∧ (∀ event ∈ front, event.isVerdict = false) ∧
        (full.exitCode = 0 ∧ n ≤ limit ∧ s.halted p.toArray = true ∧
            verdict = .finished n s.memory.card ∨
          full.exitCode = 1 ∧ n = limit + 1 ∧ verdict = .limitExceeded s.pc limit)) ∧
      plain.out.filter (fun line => "! ".toList <+: line.toList) =
        (full.log.filterMap Event.snapshot?).map ("! " ++ ·) ∧
      ∀ arguments verbosity, Invocation.ofArguments arguments = some ⟨verbosity, .run request⟩ →
        (∀ environment : Option Threshold,
          let threshold := environment.getD (.ofVerbosity verbosity)
          report arguments environment read =
            { full with log := full.log.filter (threshold.shows ·.level) }) ∧
        (3 ≤ verbosity → report arguments none read = full) ∧
        (verbosity = 0 → (report arguments none read).log = []) ∧
        (verbosity = 1 → (report arguments none read).log = full.log.filter (·.level = .info)) ∧
        (verbosity = 2 → (report arguments none read).log = full.log.filter (·.level ≠ .trace)) := by
  intro limit full plain
  obtain ⟨hp, tokens, rfl⟩ := load_eq_ok hload
  have hlog : full.log = _ := RunRequest.log_reportRun_trace hload
  have hfull : full = _ := RunRequest.reportRun_eq hload (some .trace)
  refine ⟨⟨_, _, _, (request.outcome p).verdict, ?_, hlog, ?_, ?_⟩, ?_, ?_⟩
  · rw [hlog]
    exact request.replays_events hp (by simp [Event.Aside, Event.step?, Event.snapshot?])
  · intro event hevent
    obtain hloading | htold := List.mem_append.mp hevent
    · obtain rfl | rfl : event = _ ∨ event = _ := by simpa using hloading
      · rfl
      · rfl
    · exact State.isVerdict_of_mem_told htold
  · obtain ⟨hresult, hsteps, hhalted⟩ | ⟨hresult, hlimit, hsteps⟩ := (request.heard_outcome hp).ends
    · refine .inl ⟨?_, hsteps, hhalted, Machine.Outcome.verdict_of_ok hresult⟩
      rw [hfull, hresult]
    · refine .inr ⟨?_, hsteps, ?_⟩
      · rw [hfull, hresult]
        rfl
      · rw [Machine.Outcome.verdict_of_error hresult]
        exact congrArg (Event.limitExceeded _) hlimit
  · rw [hlog]
    exact RunRequest.filter_out_reportRun { request with quiet := false } hload rfl _
  · intro arguments verbosity harguments
    have hreport : ∀ environment : Option Threshold,
        let threshold := environment.getD (.ofVerbosity verbosity)
        report arguments environment read =
          { full with log := full.log.filter (threshold.shows ·.level) } := by
      intro environment threshold
      rw [report, harguments]
      exact RunRequest.reportRun_eq_filter hload _
    have hreported : (report arguments none read).log =
        full.log.filter ((Threshold.ofVerbosity verbosity).shows ·.level) :=
      congrArg Report.log (hreport none)
    refine ⟨hreport, ?_, ?_, ?_, ?_⟩
    · intro hverbosity
      have hall : full.log.filter (Threshold.shows (some .trace) ·.level) = full.log :=
        List.filter_eq_self.mpr fun event _ => by cases event <;> rfl
      rw [hreport none, Option.getD_none, Threshold.ofVerbosity_of_le hverbosity, hall]
    · rintro rfl
      rw [hreported]
      exact List.filter_eq_nil_iff.mpr fun event _ => by cases event <;> exact Bool.noConfusion
    · rintro rfl
      rw [hreported]
      exact List.filter_congr fun event _ => by cases event <;> rfl
    · rintro rfl
      rw [hreported]
      exact List.filter_congr fun event _ => by cases event <;> rfl

/-- A loop that goes on for ever, stopped when it turns for the first time. -/
theorem trace_log_of_toggled_loop :
    let text := "0 ! / 0 ! \\"
    let p : Program := [.flip 0, .emit, .enter 0, .emit, .back]
    let request : RunRequest := { file := "toggle.txt", maxSteps := 4, numeric := true, quiet := true }
    let read : String → Except ReadFault ByteArray := fun _ => .ok text.toUTF8
    let full := (Command.run request).report (some .trace) read
    let arguments := ["-v", "run", "toggle.txt", "--numeric", "--quiet", "--max-steps", "4"]
    load request.file request.numeric (read request.file) =
        .ok (p, [.parsed 6 5, .loaded "toggle.txt" 5]) ∧
      (∃ s, Replays p.toArray .empty 5 s full.log) ∧
        (report arguments none read).log = [.loaded "toggle.txt" 5, .ended 5 2] ∧
        (report arguments (some (some .trace)) read).log = full.log := by
  intro text p request read full arguments
  have hload : load request.file request.numeric (read request.file) =
      .ok (p, [.parsed 6 5, .loaded "toggle.txt" 5]) := by
    rw [request.load_eq text]
    decide
  have harguments : Invocation.ofArguments arguments = some ⟨1, .run request⟩ := by
    have verboseText : Argument.ofText "-v" = .verbose 1 := rfl
    have runText : Argument.ofText "run" = .plain "run" := rfl
    have fileText : Argument.ofText "toggle.txt" = .plain "toggle.txt" := rfl
    have numericText : Argument.ofText "--numeric" = .long "numeric" none := rfl
    have quietText : Argument.ofText "--quiet" = .long "quiet" none := rfl
    have maxStepsText : Argument.ofText "--max-steps" = .long "max-steps" none := rfl
    have limitText : Argument.ofText "4" = .plain "4" := ofText_repr 4
    have limit : wordNumber? "4" = some 4 := wordNumber?_repr 4
    have hread : readSubcommand "run" = readRun := rfl
    simp [arguments, request, Invocation.ofArguments, Invocation.ofArgumentsFrom, verboseText, runText,
      hread, readRun, Gathered.extend, fileText, numericText, quietText, maxStepsText, limitText,
      Gathered.addFlag, Gathered.addValue, Gathered.file?, Gathered.number?, Gathered.value?,
      List.lookup_cons, limit]
  have hlog : full.log = [.parsed 6 5, .loaded "toggle.txt" 5, .step 0 0 (.flip 0), .step 1 1 .emit,
      .output "1", .step 2 2 (.enter 0), .step 3 3 .emit, .output "1", .step 4 4 .back,
      .limitExceeded 2 4, .ended 5 2] := by
    refine (RunRequest.log_reportRun_trace hload).trans ?_
    decide
  obtain ⟨⟨n, s, front, verdict, hreplays, hends, -⟩, -, hreports⟩ := trace_log_replays_run hload
  have hlast : Event.ended 5 2 = .ended n s.pc := by
    have hlast := congrArg List.getLast? (hlog.symm.trans hends)
    simpa using hlast
  obtain ⟨rfl, -⟩ := Event.ended.inj hlast
  obtain ⟨henvironment, -, -, hinfo, -⟩ := hreports arguments 1 harguments
  refine ⟨hload, ⟨s, hreplays⟩, ?_, ?_⟩
  · rw [hinfo rfl, hlog]
    rfl
  · rw [henvironment (some (some .trace))]
    exact List.filter_eq_self.mpr fun event _ => by cases event <;> rfl

end CommandLine

end FlipLoop
