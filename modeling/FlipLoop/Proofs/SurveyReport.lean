import FlipLoop.Proofs.Operands
import FlipLoop.Proofs.StructuredRuns
import FlipLoop.Proofs.SurveyArguments
import FlipLoop.Survey

/-!
# The report of a survey

A row says only whether its run had a result. As the programs of a survey are balanced, a run without
one has executed an instruction beyond the limit and failed by it, so the rows that have not halted are
those that hit the limit. All of this is about rows that there are: a survey breaks down if there is no
room for one of its programs, and up to the length at which a program and the loops it leaves open have
room, its runs are those of unlimited capacity.
-/

namespace FlipLoop

open Chance

/-- Twice the room of its length is enough for any program of a recipe. -/
lemma Chance.drawProgram?_eq {γ : Type} (dice : Dice γ) {recipe : Recipe}
    (hlength : 2 * (instrSize * recipe.length) ≤ largestCapacity) (g : γ) :
    drawProgram? dice recipe g = some (drawProgram dice recipe g) := by
  have hroom : ¬largestCapacity < instrSize * recipe.length := by omega
  have hclosers : ¬(largestCapacity < 2 * (instrSize * recipe.length) ∧
      recipe.length < (drawProgram dice recipe g).1.length) :=
    fun hmore => Nat.not_lt_of_le hlength hmore.1
  rw [drawProgram?, if_neg hroom]
  exact if_neg hclosers

namespace Row

/-- The program of a seed. -/
def program (recipe : Recipe) (seed : UInt64) : Program :=
  (drawProgram .xoshiro recipe (.ofSeed seed)).1

/-- The run whose end the row of a seed tells. -/
def run (recipe : Recipe) (limit : Nat) (seed : UInt64) : Machine.Outcome Unit String :=
  (Machine.start (program recipe seed) .empty limit).run .silent ()

/-- That run, if there is room for its program and for its texts. -/
def run? (recipe : Recipe) (limit : Nat) (seed : UInt64) : Option (Machine.Outcome Unit String) := do
  let (program, _) ← drawProgram? .xoshiro recipe (.ofSeed seed)
  (Machine.start program .empty limit).run? .silent ()

/-- The row of a run. -/
def ofRun (recipe : Recipe) (limit : Nat) (seed : UInt64) : Row :=
  let out := run recipe limit seed
  ⟨seed, out.result.toBool, out.machine.steps, out.machine.state.memory⟩

/-- What a row says of the run of its seed is true. -/
structure Truthful (recipe : Recipe) (limit : Nat) (row : Row) : Prop where
  halts : row.halted = true →
    row.steps ≤ limit ∧ (run recipe limit row.seed).result = .ok row.memory.text ∧
      ∃ shown, (program recipe row.seed).HaltsAfter .empty row.steps row.memory shown
  exceeds : row.halted = false →
    row.steps = limit + 1 ∧ (run recipe limit row.seed).result = .error (.stepLimit limit)
  /-- The memory is the one behind as many instructions as there are steps. -/
  memory_eq : (State.walk? (program recipe row.seed).toArray row.steps ⟨0, .empty⟩).map State.memory =
    some row.memory

variable {recipe : Recipe} {limit limit' : Nat} {seed : UInt64}

theorem truthful_ofRun (recipe : Recipe) (limit : Nat) (seed : UInt64) :
    (ofRun recipe limit seed).Truthful recipe limit := by
  have hp : (program recipe seed).Balanced := balanced_drawProgram .xoshiro recipe _
  have haccepts : Observer.silent.Accepts := fun _ _ => rfl
  have haccepted := Machine.run_accepted hp haccepts .empty limit ()
  have hrun : run recipe limit seed = _ := (Machine.run_recorded Observer.silent _ ((), [])).symm
  rw [ofRun, hrun]
  generalize (Machine.start (program recipe seed) .empty limit).run Observer.silent.recorded ((), []) =
    out at haccepted hrun
  cases haccepted with
  | halts shown within walk result record =>
    have hhalted : out.result.toBool = true := by rw [result]; rfl
    have hresult : (run recipe limit seed).result = .ok out.machine.state.memory.text := by
      rw [hrun]
      exact result
    have ⟨s, hs, _, hmemory⟩ := walk
    constructor
    · exact fun _ => ⟨within, hresult, shown, walk⟩
    · exact fun h => absurd (hhalted.symm.trans h) (by decide)
    · exact (congrArg (Option.map State.memory) hs.walk_eq).trans (congrArg some hmemory)
  | exceeds shown steps walk result record =>
    have hhalted : out.result.toBool = false := by rw [result]; rfl
    have hresult : (run recipe limit seed).result = .error (.stepLimit limit) := by
      rw [hrun]
      exact result
    rw [← steps] at walk
    constructor
    · exact fun h => absurd (hhalted.symm.trans h) (by decide)
    · exact fun _ => ⟨steps, hresult⟩
    · exact congrArg (Option.map State.memory) walk.walk_eq

/-- A row that has not halted is one of a run that hit the limit. -/
lemma halted_eq_false_iff (recipe : Recipe) (limit : Nat) (seed : UInt64) :
    (ofRun recipe limit seed).halted = false ↔
      (run recipe limit seed).result = .error (.stepLimit limit) := by
  have htruthful := truthful_ofRun recipe limit seed
  constructor
  · exact fun h => (htruthful.exceeds h).2
  · intro hresult
    rw [Bool.eq_false_iff]
    intro h
    cases hresult.symm.trans (htruthful.halts h).2.1

/-- A larger limit leaves the rows that have halted as they are. -/
theorem ofRun_of_le (hl : limit ≤ limit') (h : (ofRun recipe limit seed).halted = true) :
    ofRun recipe limit' seed = ofRun recipe limit seed := by
  have hresult := ((truthful_ofRun recipe limit seed).halts h).2.1
  have hrun : run recipe limit' seed = (run recipe limit seed).withLimit limit' :=
    Machine.run_withLimit .silent (Machine.start (program recipe seed) .empty limit) hl hresult
  rw [ofRun, ofRun, hrun]
  rfl

/-- A run whose last memory has a text gives a row. -/
lemma ofSeed?_of_run? {out : Machine.Outcome Unit String} (h : run? recipe limit seed = some out)
    (hfits : out.machine.state.memory.Fits) :
    ofSeed? recipe limit seed =
      some ⟨seed, out.result.toBool, out.machine.steps, out.machine.state.memory⟩ := by
  obtain ⟨⟨p, g⟩, hdrawn, hout⟩ := Option.bind_eq_some_iff.mp h
  simp only [ofSeed?, hdrawn, hout, Option.bind_eq_bind, Option.bind_some, guard, if_pos hfits]
  rfl

section Room

variable (hlength : 2 * (instrSize * recipe.length) ≤ largestCapacity)
  (hbound : recipe.variableBound ≤ largestCapacity) (hlimit : limit + 1 < UInt64.size)

include hbound

lemma textsFit_start (limit : Nat) (seed : UInt64) :
    (Machine.start (program recipe seed) .empty limit).TextsFit :=
  Machine.textsFit_of_operand_lt (operand_lt_of_mem_drawProgram .xoshiro recipe _)
    (by simp [Memory.empty]) (Nat.max_le.mpr ⟨hbound, by decide⟩) limit

/-- The memory of a row fits whether or not its run has halted. -/
lemma fits_memory_ofRun (limit : Nat) (seed : UInt64) : (ofRun recipe limit seed).memory.Fits := by
  obtain ⟨s, hwalk, hmemory⟩ :=
    Option.map_eq_some_iff.mp (truthful_ofRun recipe limit seed).memory_eq
  rw [← hmemory]
  exact Machine.fits_of_walk (operand_lt_of_mem_drawProgram .xoshiro recipe _)
    (by simp [Memory.empty]) (Nat.max_le.mpr ⟨hbound, by decide⟩) hwalk

include hlength hlimit

theorem run?_eq (seed : UInt64) : run? recipe limit seed = some (run recipe limit seed) := by
  have hfit := textsFit_start hbound limit seed
  rw [run?, drawProgram?_eq .xoshiro hlength]
  exact (Machine.Follows.start _ .empty limit).run?_eq hlimit hfit .silent ()

/-- The row of a seed tells its run. -/
theorem ofSeed?_eq (seed : UInt64) : ofSeed? recipe limit seed = some (ofRun recipe limit seed) :=
  ofSeed?_of_run? (run?_eq hlength hbound hlimit seed) (fits_memory_ofRun hbound limit seed)

end Room

end Row

namespace Survey

/-- The seeds of a survey, which wrap around. -/
def seeds (seed : UInt64) (count : Nat) : List UInt64 :=
  (List.range count).map fun i => UInt64.ofNat (seed.toNat + i)

@[simp]
lemma length_seeds (seed : UInt64) (count : Nat) : (seeds seed count).length = count := by
  rw [seeds, List.length_map, List.length_range]

lemma seeds_add (seed : UInt64) (a b : Nat) :
    seeds seed (a + b) = seeds seed a ++ seeds (seed + UInt64.ofNat a) b := by
  unfold seeds
  rw [List.range_add, List.map_append, List.map_map]
  congr 1
  apply List.map_congr_left
  intro i _
  simp only [Function.comp, UInt64.ofNat_add, UInt64.ofNat_toNat, UInt64.add_assoc]

/-- A survey for which there is room has all of its rows. -/
lemma rows?_eq (survey : Survey)
    (hlength : 2 * (instrSize * survey.recipe.length) ≤ largestCapacity)
    (hcount : rowSize * survey.count ≤ largestCapacity)
    (hbound : survey.recipe.variableBound ≤ largestCapacity)
    (hlimit : survey.limit + 1 < UInt64.size) :
    survey.rows? =
      some ((seeds survey.seed survey.count).map (Row.ofRun survey.recipe survey.limit)) := by
  have hrow : (fun i => Row.ofSeed? survey.recipe survey.limit (survey.seed + UInt64.ofNat i)) =
      fun i => pure (Row.ofRun survey.recipe survey.limit (UInt64.ofNat (survey.seed.toNat + i))) := by
    funext i
    rw [UInt64.ofNat_add, UInt64.ofNat_toNat]
    exact Row.ofSeed?_eq hlength hbound hlimit _
  rw [rows?, if_neg (Nat.not_lt_of_le hcount), hrow, List.mapM_pure, seeds, List.map_map]
  rfl

/-- The runs that have not halted are those that hit the limit. -/
theorem countP_halted_add_countP_exceeds (recipe : Recipe) (limit : Nat) (seeds : List UInt64) :
    seeds.countP (fun s => (Row.ofRun recipe limit s).halted) +
      seeds.countP (fun s => (Row.run recipe limit s).result = .error (.stepLimit limit)) =
        seeds.length := by
  have hexceeds : seeds.countP (fun s => ¬(Row.ofRun recipe limit s).halted = true) =
      seeds.countP fun s => (Row.run recipe limit s).result = .error (.stepLimit limit) := by
    apply List.countP_congr
    intro s _
    simpa using Row.halted_eq_false_iff recipe limit s
  rw [← hexceeds]
  exact (List.length_eq_countP_add_countP _).symm

/-- The summary counts the runs that hit the limit. -/
lemma summary_map_ofRun (recipe : Recipe) (limit : Nat) (seeds : List UInt64) :
    summary (seeds.map (Row.ofRun recipe limit)) =
      ["Sample results:", "  Programs:          " ++ seeds.length.repr,
        "  Halted:            " ++ (seeds.countP fun s => (Row.ofRun recipe limit s).halted).repr,
        "  Step limit hit:    " ++
          (seeds.countP fun s => (Row.run recipe limit s).result = .error (.stepLimit limit)).repr] := by
  have hsum := countP_halted_add_countP_exceeds recipe limit seeds
  have hexceeded : seeds.length - seeds.countP (fun s => (Row.ofRun recipe limit s).halted) =
      seeds.countP fun s => (Row.run recipe limit s).result = .error (.stepLimit limit) := by
    omega
  have hhalted : (seeds.map (Row.ofRun recipe limit)).countP (·.halted) =
      seeds.countP fun s => (Row.ofRun recipe limit s).halted := List.countP_map
  rw [summary, hhalted, List.length_map, hexceeded]

end Survey

namespace CommandLine

lemma reportSample_eq {survey : Survey} {rows : List Row} (h : survey.rows? = some rows) :
    reportSample survey = { out := Survey.table rows, err := Survey.summary rows } := by
  rw [reportSample, h]

/-- The report of a survey tells the truth about the programs of its seeds, up to the sizes at which it
breaks down. There is a row for each seed in order, which depends on the seed alone, so two surveys of
adjacent seeds are one of all of them. Each row tells how the run of its program ended, the summary counts
the runs that hit the limit, and a larger limit leaves the rows that have halted as they are. -/
theorem sample_report_is_truthful (seed count length bound maxSteps : UInt64)
    (environment : Option Threshold) (read : String → Except ReadFault ByteArray)
    (hlength : 2 * (instrSize * length.toNat) ≤ largestCapacity)
    (hcount : Survey.rowSize * count.toNat ≤ largestCapacity)
    (hbound : bound.toNat ≤ largestCapacity) (hmax : maxSteps.toNat + 1 < UInt64.size) :
    let recipe : Recipe := { length := length.toNat, variableBound := bound.toNat }
    let limit := if maxSteps = 0 then 1000000 else maxSteps.toNat
    let sample := fun seed count =>
      report (surveyArguments seed count length bound maxSteps) environment read
    let row := Row.ofRun recipe limit
    let seeds := Survey.seeds seed count.toNat
    (∀ s, Row.run? recipe limit s = some (Row.run recipe limit s) ∧
      Row.ofSeed? recipe limit s = some (row s) ∧ (row s).seed = s ∧ (row s).Truthful recipe limit) ∧
      (sample seed count).exitCode = 0 ∧
      (sample seed count).out = Row.heading :: seeds.map (fun s => (row s).text) ∧
      (∀ a b : UInt64, Survey.rowSize * (a.toNat + b.toNat) ≤ largestCapacity →
        (sample seed (a + b)).out = (sample seed a).out ++ (sample (seed + a) b).out.tail) ∧
      (∃ halted exceeded,
        (sample seed count).err =
          ["Sample results:", "  Programs:          " ++ count.toNat.repr,
            "  Halted:            " ++ halted.repr, "  Step limit hit:    " ++ exceeded.repr] ∧
        halted = seeds.countP (fun s => (row s).halted) ∧
        exceeded = seeds.countP
          (fun s => (Row.run recipe limit s).result = .error (.stepLimit limit)) ∧
        halted + exceeded = count.toNat) ∧
      ∀ limit', limit ≤ limit' → limit' + 1 < UInt64.size → ∀ s, (row s).halted = true →
        Row.ofSeed? recipe limit' s = some (row s) := by
  intro recipe limit sample row seeds
  have heffective : effectiveLimit maxSteps.toNat = limit := by
    simp only [effectiveLimit, defaultLimit, limit, ← UInt64.toNat_inj]
    rfl
  have hlimit : limit + 1 < UInt64.size := by
    simp only [limit]
    split
    · decide
    · exact hmax
  have hsample : ∀ seed count : UInt64, Survey.rowSize * count.toNat ≤ largestCapacity →
      sample seed count =
        { out := Row.heading :: (Survey.seeds seed count.toNat).map fun s => (row s).text
          err := Survey.summary ((Survey.seeds seed count.toNat).map row) } := by
    intro seed count hcount
    have harguments := ofArguments_surveyArguments seed count length bound maxSteps
    have hrows :=
      Survey.rows?_eq ⟨seed, count.toNat, recipe, limit⟩ hlength hcount hbound hlimit
    rw [heffective] at harguments
    simp only [sample, report, harguments, Command.report]
    refine (reportSample_eq hrows).trans ?_
    rw [Survey.table, List.map_map]
    rfl
  refine ⟨?_, by rw [hsample _ _ hcount], by rw [hsample _ _ hcount], ?_, ?_, ?_⟩
  · exact fun s => ⟨Row.run?_eq hlength hbound hlimit s, Row.ofSeed?_eq hlength hbound hlimit s, rfl,
      Row.truthful_ofRun recipe limit s⟩
  · intro a b hab
    have hle : Survey.rowSize * a.toNat ≤ largestCapacity ∧
        Survey.rowSize * b.toNat ≤ largestCapacity := by
      rw [Nat.mul_add] at hab
      omega
    have hadd : (a + b).toNat = a.toNat + b.toNat := by
      have hsize : a.toNat + b.toNat ≤ Survey.rowSize * (a.toNat + b.toNat) :=
        Nat.le_mul_of_pos_left _ (by decide)
      have hlt : a.toNat + b.toNat < UInt64.size :=
        Nat.lt_of_le_of_lt (Nat.le_trans hsize hab) (by decide)
      rw [UInt64.toNat_add]
      exact Nat.mod_eq_of_lt hlt
    rw [hsample _ _ (by rwa [hadd]), hsample _ _ hle.1, hsample _ _ hle.2, hadd, Survey.seeds_add,
      UInt64.ofNat_toNat]
    simp only [List.map_append, List.tail_cons, List.cons_append]
  · have hlength : seeds.length = count.toNat := Survey.length_seeds seed count.toNat
    have hsum := Survey.countP_halted_add_countP_exceeds recipe limit seeds
    have hsummary := Survey.summary_map_ofRun recipe limit seeds
    rw [hlength] at hsum hsummary
    refine ⟨_, _, ?_, rfl, rfl, hsum⟩
    rw [hsample _ _ hcount]
    exact hsummary
  · intro limit' hl hlimit' s h
    rw [Row.ofSeed?_eq hlength hbound hlimit', Row.ofRun_of_le hl h]

/-- The seeds wrap around, and the programs of the last two of them do not halt within five steps. One
of these halts within seven. -/
theorem sample_report_of_wrapping_seeds :
    let sample := fun seed count =>
      report (surveyArguments seed count 4 1 5) none fun _ => .error .notFound
    let recipe : Recipe := { length := 4, variableBound := 1 }
    (sample 0xffffffffffffffff 5).out =
        ["seed,halted,steps,memory", "18446744073709551615,true,4,", "0,true,4,", "1,true,4,1",
          "2,false,6,1", "3,false,6,"] ∧
      (sample 0xffffffffffffffff 5).err =
        ["Sample results:", "  Programs:          5", "  Halted:            3",
          "  Step limit hit:    2"] ∧
      (sample 0xffffffffffffffff 5).out =
        (sample 0xffffffffffffffff 2).out ++ (sample 1 3).out.tail ∧
      (Row.run? recipe 5 3).map (·.result) = some (.error (.stepLimit 5)) ∧
      (Row.ofSeed? recipe 7 3).map (·.halted) = some true ∧
      Row.ofSeed? recipe 7 1 = Row.ofSeed? recipe 5 1 := by
  intro sample recipe
  obtain ⟨hrows, -, hout, hadd, ⟨halted, exceeded, herr, hhalted, hexceeded, -⟩, hraise⟩ :=
    sample_report_is_truthful 0xffffffffffffffff 5 4 1 5 none (fun _ => .error .notFound) (by decide)
      (by decide) (by decide) (by decide)
  obtain ⟨hrun, -, -, htruthful⟩ := hrows 3
  refine ⟨hout.trans (by decide +kernel), ?_, hadd 2 3 (by decide), ?_, by decide +kernel,
    (hraise 7 (by decide) (by decide) 1 (by decide +kernel)).trans (hrows 1).2.1.symm⟩
  · rw [hhalted, hexceeded] at herr
    exact herr.trans (by decide +kernel)
  · exact (congrArg (Option.map (·.result)) hrun).trans
      (congrArg some (htruthful.exceeds (by decide +kernel)).2)

/-- A length for which there is no room breaks a survey down before anything is drawn. -/
theorem sample_breaks_down_at_great_length :
    report (surveyArguments 1 1 576460752303423488 8 8192) none (fun _ => .error .notFound) =
      { exitCode := 101 } := by
  have harguments := ofArguments_surveyArguments 1 1 576460752303423488 8 8192
  simp only [report, harguments]
  rfl

end CommandLine

end FlipLoop
