import FlipLoop.CommandLine.Report
import FlipLoop.Proofs.Composition
import FlipLoop.Proofs.Keeping
import FlipLoop.Proofs.Truncation

/-!
# The run command and the evaluation of a text

The run command reads, expands and runs a program by itself. What it prints and returns is nevertheless
what an evaluation of the same text gives: both runs have the same report, and what either observer
keeps can be told from the transcript in it.
-/

namespace FlipLoop

section Accepted

variable {σ : Type} {observer : Observer σ} {P : σ × Transcript → Prop} {p : Program} {w : σ}

/-- An observer that accepts all snapshots does not decide how a run ends. What it keeps behind the run
is related to the transcript by whatever it preserves. -/
theorem Observer.Preserves.run_eq (h : observer.recorded.Preserves P) (ho : observer.Accepts)
    (hp : p.Balanced) (memory : Memory) (limit : Nat) (hw : P (w, [])) :
    let out := (Machine.start p memory limit).run observer w
    let report := (Machine.start p memory limit).report Observer.silent ()
    out.result = report.result ∧ P (out.kept, report.kept) := by
  have haccepts : Observer.silent.Accepts := fun _ _ => rfl
  have hreport := Machine.report_eq_of_accepted (Machine.run_accepted hp ho memory limit w)
    (Machine.run_accepted hp haccepts memory limit ())
  have hkept := h.run (Machine.start p memory limit) hw
  have hplain := Machine.run_recorded observer (Machine.start p memory limit) (w, [])
  dsimp only
  rw [← hreport, ← hplain]
  exact ⟨congrArg Machine.Outcome.result hplain, hkept⟩

end Accepted

lemma preserves_accepting :
    Observer.accepting.recorded.Preserves fun w : Array (String × Reply) × Transcript =>
      w.1.toList = w.2 where
  note _ _ h := h
  offer snapshot w h := by
    simp only [Observer.recorded, Observer.accepting, Observer.scripted, Array.toList_push, h]

/-- An evaluation that keeps all snapshots is the report of the run. -/
lemma evaluate_accepting {source : String} {p : Program} (hp : Program.ofSource source = .ok p)
    (seed : String) (limit : Nat) :
    let report := (Machine.start p (Memory.ofText seed) (effectiveLimit limit)).report Observer.silent ()
    (evaluate Observer.accepting source (some seed) (some limit) #[]).1 = report.result.mapError .run ∧
      (evaluate Observer.accepting source (some seed) (some limit) #[]).2.toList = report.kept := by
  have haccepts : Observer.accepting.Accepts := fun _ _ => rfl
  obtain ⟨hresult, hkept⟩ := preserves_accepting.run_eq haccepts (Program.balanced_of_ofSource hp)
    (Memory.ofText seed) (effectiveLimit limit) (w := #[]) rfl
  simp only [evaluate, hp, Option.map_some, Option.getD_some]
  exact ⟨congrArg _ hresult, hkept⟩

/-- A text that is evaluated gives the text of a memory, or it fails by the limit. -/
lemma evaluate_ended {source : String} {p : Program} (hp : Program.ofSource source = .ok p)
    (seed : String) (limit : Nat) :
    let result := (evaluate Observer.accepting source (some seed) (some limit) #[]).1
    (∃ memory : Memory, result = .ok memory.text) ∨
      result = .error (.run (.stepLimit (effectiveLimit limit))) := by
  have haccepts : Observer.silent.Accepts := fun _ _ => rfl
  have haccepted := Machine.run_accepted (Program.balanced_of_ofSource hp) haccepts
    (Memory.ofText seed) (effectiveLimit limit) ()
  dsimp only
  rw [(evaluate_accepting hp seed limit).1, Machine.report_eq]
  cases haccepted with
  | halts shown within walk result record =>
    left
    rw [Machine.Outcome.transcribed, result]
    exact ⟨_, rfl⟩
  | exceeds shown steps walk result record =>
    right
    rw [Machine.Outcome.transcribed, result]
    rfl

namespace CommandLine

namespace Console

/-- The lines that tell of snapshots. -/
def snapshotLines (quiet : Bool) (record : Transcript) : List String :=
  if quiet then [] else record.map fun offered => "! " ++ offered.1

@[simp]
lemma printed_note (threshold : Threshold) (event : Event) (console : Console) :
    (console.note threshold event).printed = console.printed := by
  unfold note
  split <;> rfl

lemma printed_foldl_note (threshold : Threshold) (events : List Event) (console : Console) :
    (events.foldl (fun console event => console.note threshold event) console).printed =
      console.printed := by
  induction events generalizing console with
  | nil => rfl
  | cons event events ih => rw [List.foldl_cons, ih, printed_note]

lemma preserves_observer (threshold : Threshold) (quiet : Bool) (printed : Array String) :
    (observer threshold quiet).recorded.Preserves fun w =>
      w.1.printed.toList = printed.toList ++ snapshotLines quiet w.2 where
  note event w h := by
    simpa only [Observer.recorded, observer, printed_note] using h
  offer snapshot w h := by
    cases quiet with
    | true => exact h
    | false =>
      simp only [snapshotLines, Bool.false_eq_true, if_false] at h
      simp [Observer.recorded, observer, snapshotLines, h]

end Console

lemma bind_decodeText_toUTF8 (text : String) :
    (Except.ok text.toUTF8).bind decodeText = .ok text := by
  have hvalid : String.fromUTF8? text.toUTF8 = some text := dif_pos text.isValidUTF8
  simp only [Except.bind, decodeText, hvalid]

namespace RunRequest

/-- The text that is read as a program. -/
def source (request : RunRequest) (text : String) : Except SourceError String :=
  if request.numeric then Shorthand.expand text else .ok text

def evaluated (request : RunRequest) (source : String) :
    Except EvaluationError String × Array (String × Reply) :=
  evaluate Observer.accepting source (some request.memory) (some request.maxSteps) #[]

def failed (request : RunRequest) (printed : List String) (failure : Failure) : Report :=
  { exitCode := 1, out := printed, err := failure.lines request.file }

@[simp]
lemma exitCode_failed (request : RunRequest) (printed : List String) (failure : Failure) :
    (request.failed printed failure).exitCode = 1 :=
  rfl

@[simp]
lemma out_failed (request : RunRequest) (printed : List String) (failure : Failure) :
    (request.failed printed failure).out = printed :=
  rfl

/-- What an evaluation of the text tells of the report, which is all but its log. -/
def told (request : RunRequest) (text : String) : Report :=
  match request.source text with
  | .error error => request.failed [] (.expanding error)
  | .ok source =>
    let printed := Console.snapshotLines request.quiet (request.evaluated source).2.toList
    match (request.evaluated source).1 with
    | .error (.source error) => request.failed [] (.parsing error)
    | .error (.run fault) => request.failed printed (.running fault)
    | .ok memory => { out := printed ++ [memory] }

lemma load_eq (request : RunRequest) (text : String) :
    load request.file request.numeric (.ok text.toUTF8) =
      match request.source text with
      | .error error => .error (.expanding error)
      | .ok source =>
        match Program.ofSource source with
        | .error error => .error (.parsing error)
        | .ok program =>
          .ok (program, [.parsed (Token.ofText source).length program.length,
            .loaded request.file program.length]) := by
  unfold load
  rw [bind_decodeText_toUTF8]
  rfl

theorem reportRun_eq_told (request : RunRequest) (text : String) (threshold : Threshold) :
    { reportRun threshold request (.ok text.toUTF8) with log := [] } = request.told text := by
  unfold reportRun told
  rw [load_eq]
  cases request.source text with
  | error error => rfl
  | ok source =>
    dsimp only
    cases hp : Program.ofSource source with
    | error error =>
      simp only [evaluated, evaluate, hp]
      rfl
    | ok p =>
      have haccepts : (Console.observer threshold request.quiet).Accepts := fun _ _ => rfl
      obtain ⟨hresult, hoffered⟩ := evaluate_accepting hp request.memory request.maxSteps
      dsimp only
      generalize hconsole : List.foldl (fun (console : Console) event => console.note threshold event) {}
        [.parsed (Token.ofText source).length p.length, .loaded request.file p.length] = console
      have hprinted : console.printed = #[] := by
        rw [← hconsole, Console.printed_foldl_note]
      obtain ⟨hrun, hkept⟩ := (Console.preserves_observer threshold request.quiet #[]).run_eq haccepts
        (Program.balanced_of_ofSource hp) (Memory.ofText request.memory)
        (effectiveLimit request.maxSteps) (w := console) (by simp [hprinted, Console.snapshotLines])
      unfold evaluated
      rw [hresult, hoffered, hrun]
      generalize (Machine.start p (Memory.ofText request.memory)
        (effectiveLimit request.maxSteps)).report Observer.silent () = report at hkept ⊢
      generalize (Machine.start p (Memory.ofText request.memory)
        (effectiveLimit request.maxSteps)).run (Console.observer threshold request.quiet) console = out at hkept ⊢
      have hlines : out.kept.printed.toList = Console.snapshotLines request.quiet report.kept := by
        simpa using hkept
      cases report.result with
      | error fault => simp [Console.fail, failed, hlines, Except.mapError]
      | ok memory => simp [Console.succeed, hlines, Except.mapError]

lemma told_of_source {request : RunRequest} {text source : String}
    (h : request.source text = .ok source) : request.told text =
      let printed := Console.snapshotLines request.quiet (request.evaluated source).2.toList
      match (request.evaluated source).1 with
      | .error (.source error) => request.failed [] (.parsing error)
      | .error (.run fault) => request.failed printed (.running fault)
      | .ok memory => { out := printed ++ [memory] } := by
  rw [told, h]

/-- The four ends of a run command. -/
inductive Ended (request : RunRequest) (text : String) : Prop
  | expanding (error : SourceError) (expands : request.source text = .error error)
    (told : request.told text = request.failed [] (.expanding error))
  | parsing (source : String) (error : SourceError) (expands : request.source text = .ok source)
    (parses : Program.ofSource source = .error error)
    (result : (request.evaluated source).1 = .error (.source error))
    (told : request.told text = request.failed [] (.parsing error))
  | exceeding (source : String) (p : Program) (expands : request.source text = .ok source)
    (parses : Program.ofSource source = .ok p)
    (result : (request.evaluated source).1 =
      .error (.run (.stepLimit (effectiveLimit request.maxSteps))))
    (told : request.told text = request.failed
      (Console.snapshotLines request.quiet (request.evaluated source).2.toList)
      (.running (.stepLimit (effectiveLimit request.maxSteps))))
  | halting (source : String) (p : Program) (memory : Memory)
    (expands : request.source text = .ok source) (parses : Program.ofSource source = .ok p)
    (result : (request.evaluated source).1 = .ok memory.text)
    (told : request.told text =
      { out := Console.snapshotLines request.quiet (request.evaluated source).2.toList ++ [memory.text] })

theorem ended (request : RunRequest) (text : String) : request.Ended text := by
  cases hsource : request.source text with
  | error error => exact .expanding error hsource (by rw [told, hsource])
  | ok source =>
    have hreport := told_of_source hsource
    cases hp : Program.ofSource source with
    | error error =>
      have hresult : (request.evaluated source).1 = .error (.source error) := by
        simp only [evaluated, evaluate, hp]
      rw [hresult] at hreport
      exact .parsing source error hsource hp hresult hreport
    | ok p =>
      obtain ⟨memory, hresult⟩ | hresult :
          (∃ memory : Memory, (request.evaluated source).1 = .ok memory.text) ∨
            (request.evaluated source).1 =
              .error (.run (.stepLimit (effectiveLimit request.maxSteps))) :=
        evaluate_ended hp request.memory request.maxSteps
      · rw [hresult] at hreport
        exact .halting source p memory hsource hp hresult hreport
      · rw [hresult] at hreport
        exact .exceeding source p hsource hp hresult hreport

end RunRequest

/-- The report is that of a command that fails, and says in doing what. -/
def Report.FailedWhile (report : Report) (activity path : String) : Prop :=
  report.exitCode = 1 ∧ report.err.head? = some ("Error: " ++ activity ++ " " ++ path)

lemma Report.not_failedWhile_of_exitCode {report : Report} (h : report.exitCode = 0)
    (activity path : String) : ¬report.FailedWhile activity path := by
  simp [FailedWhile, h]

@[simp]
lemma RunRequest.failedWhile_failed_iff {request : RunRequest} {printed : List String}
    {failure : Failure} {activity : String} :
    (request.failed printed failure).FailedWhile activity request.file ↔
      failure.activity = activity := by
  simp only [Report.FailedWhile, failed, Failure.lines, List.head?_cons, Option.some.injEq, true_and]
  rw [String.append_left_inj, String.append_left_inj, String.append_right_inj]

lemma Console.filter_snapshotLines (quiet : Bool) (record : Transcript) :
    (snapshotLines quiet record).filter (fun line => line.toList.head? ≠ some '!') = [] := by
  rw [List.filter_eq_nil_iff]
  intro line hline
  cases quiet with
  | true => simp [snapshotLines] at hline
  | false =>
    obtain ⟨offered, -, rfl⟩ := List.mem_map.mp hline
    simp

lemma head?_text_ne_bang (memory : Memory) : memory.text.toList.head? ≠ some '!' := by
  intro h
  obtain hzero | hone := Memory.eq_zero_or_one_of_mem_text (List.mem_of_mem_head? h)
  · cases hzero
  · cases hone

/-- A quiet run leaves out the lines that tell of snapshots, and nothing else. -/
theorem RunRequest.told_quiet (request : RunRequest) (text : String) :
    ({ request with quiet := true } : RunRequest).told text =
      { request.told text with
        out := (request.told text).out.filter fun line => line.toList.head? ≠ some '!' } := by
  have hquiet (source : String) (expands : request.source text = .ok source) :=
    @told_of_source { request with quiet := true } text source expands
  have hevaluated (source : String) :
      ({ request with quiet := true } : RunRequest).evaluated source = request.evaluated source := rfl
  simp only [hevaluated] at hquiet
  cases request.ended text with
  | expanding error expands told =>
    have hexpands : ({ request with quiet := true } : RunRequest).source text = .error error := expands
    rw [told, RunRequest.told, hexpands]
    rfl
  | parsing source error expands parses result told =>
    rw [told, hquiet source expands, result]
    rfl
  | exceeding source p expands parses result told =>
    rw [told, hquiet source expands, result]
    simp only [failed, Console.filter_snapshotLines]
    rfl
  | halting source p memory expands parses result told =>
    have hmemory : [memory.text].filter (fun line => line.toList.head? ≠ some '!') = [memory.text] := by
      simpa using head?_text_ne_bang memory
    rw [told, hquiet source expands, result]
    simp only [List.filter_append, Console.filter_snapshotLines, hmemory]
    rfl

/-- How the report of a run command follows from the evaluation of the text that it reads. -/
structure RunRequest.Agrees (request : RunRequest) (text : String) (report : Report) : Prop where
  succeeds_iff : report.exitCode = 0 ↔
    ∃ source memory, request.source text = .ok source ∧ (request.evaluated source).1 = .ok memory
  fails : report.exitCode ≠ 0 → report.exitCode = 1
  expanding_iff : report.FailedWhile "expanding" request.file ↔
    ∃ error, request.source text = .error error
  parsing_iff : report.FailedWhile "parsing" request.file ↔
    ∃ source error, request.source text = .ok source ∧ Program.ofSource source = .error error
  running_iff : report.FailedWhile "running" request.file ↔ ∃ source,
    request.source text = .ok source ∧
      (request.evaluated source).1 = .error (.run (.stepLimit (effectiveLimit request.maxSteps)))
  /-- No run fails in another way than by the limit. -/
  fault_eq : ∀ source, request.source text = .ok source →
    ∀ fault, (request.evaluated source).1 = .error (.run fault) →
      fault = .stepLimit (effectiveLimit request.maxSteps)
  out_of_no_program : report.FailedWhile "expanding" request.file ∨
    report.FailedWhile "parsing" request.file → report.out = []
  out_of_limit : request.quiet = false → ∀ source, request.source text = .ok source →
    ∀ fault, (request.evaluated source).1 = .error (.run fault) →
      report.out = (request.evaluated source).2.toList.map fun offered => "! " ++ offered.1
  out_of_success : request.quiet = false → ∀ source, request.source text = .ok source →
    ∀ memory, (request.evaluated source).1 = .ok memory → report.out =
      ((request.evaluated source).2.toList.map fun offered => "! " ++ offered.1) ++ [memory]

theorem RunRequest.agrees_told (request : RunRequest) (text : String) :
    request.Agrees text (request.told text) := by
  cases request.ended text with
  | expanding error expands told =>
    rw [told]
    constructor <;> simp [expands, Failure.activity]
  | parsing source error expands parses result told =>
    rw [told]
    constructor <;> simp [expands, parses, result, Failure.activity]
  | exceeding source p expands parses result told =>
    rw [told]
    constructor <;> simp +contextual [expands, parses, result, Failure.activity, Console.snapshotLines]
  | halting source p memory expands parses result told =>
    rw [told]
    constructor <;> simp +contextual
      [expands, parses, result, Report.not_failedWhile_of_exitCode, Console.snapshotLines]

/-- The run command agrees with the evaluation of the text that it reads, and its quiet form prints the
same lines but those that tell of snapshots. -/
theorem run_command_agrees_with_evaluation (request : RunRequest) (text : String)
    {read : String → Except ReadFault ByteArray} (hread : read request.file = .ok text.toUTF8)
    (threshold : Threshold) :
    let report := (Command.run request).report threshold read
    let quiet := (Command.run { request with quiet := true }).report threshold read
    request.Agrees text report ∧ quiet.exitCode = report.exitCode ∧ quiet.err = report.err ∧
      quiet.out = report.out.filter fun line => line.toList.head? ≠ some '!' := by
  have hreport := request.reportRun_eq_told text threshold
  have hquiet := RunRequest.reportRun_eq_told { request with quiet := true } text threshold
  rw [RunRequest.told_quiet, ← hreport] at hquiet
  have hagrees := request.agrees_told text
  rw [← hreport] at hagrees
  simp only [Command.report, hread]
  obtain ⟨hexit, hout, herr, -⟩ := (Report.mk.injEq ..).mp hquiet
  exact ⟨{ hagrees with }, hexit, herr, hout⟩

/-- A file in the shorthand whose loop is endless on a clear memory, and skipped on a set bit. -/
theorem run_command_of_toggled_loop :
    let text := "0 ! / 0 ! \\"
    let request : RunRequest := { file := "toggle.txt", maxSteps := 4, numeric := true }
    let read : String → Except ReadFault ByteArray := fun _ => .ok text.toUTF8
    let endless := (Command.run request).report none read
    let skipped := (Command.run { request with memory := "1" }).report none read
    let quiet := (Command.run { request with quiet := true }).report none read
    endless.FailedWhile "running" "toggle.txt" ∧ endless.out = ["! 1", "! 1"] ∧ quiet.out = [] ∧
      skipped.exitCode = 0 ∧ skipped.out = ["! ", ""] := by
  intro text request read endless skipped quiet
  have hsource : request.source text = .ok "| ! / | ! \\" := by decide
  have hendless : request.evaluated "| ! / | ! \\" =
      (.error (.run (.stepLimit 4)), #[("1", .accepted), ("1", .accepted)]) := by decide
  have hskipped : ({ request with memory := "1" } : RunRequest).evaluated "| ! / | ! \\" =
      (.ok "", #[("", .accepted)]) := by decide
  have hread : ∀ path, read path = .ok text.toUTF8 := fun _ => rfl
  obtain ⟨hagrees, -, -, hquiet⟩ :=
    run_command_agrees_with_evaluation request text (hread request.file) none
  obtain ⟨hset, -⟩ :=
    run_command_agrees_with_evaluation { request with memory := "1" } text (hread request.file) none
  have hout : endless.out = ["! 1", "! 1"] := by
    rw [hagrees.out_of_limit rfl _ hsource _ (congrArg Prod.fst hendless), hendless]
    rfl
  refine ⟨hagrees.running_iff.mpr ⟨_, hsource, congrArg Prod.fst hendless⟩, hout, ?_,
    hset.succeeds_iff.mpr ⟨_, _, hsource, congrArg Prod.fst hskipped⟩, ?_⟩
  · rw [hquiet]
    change endless.out.filter _ = []
    rw [hout]
    decide
  · rw [hset.out_of_success rfl _ hsource _ (congrArg Prod.fst hskipped), hskipped]
    rfl

end CommandLine

end FlipLoop
