import FlipLoop.CommandLine.Report
import Mathlib.Tactic.Common

/-!
# The arguments of a survey

Numbers in decimal are read back from the command line, so every survey can be asked for.
-/

namespace FlipLoop.CommandLine

/-- The arguments that ask for a survey. -/
def surveyArguments (seed count length bound maxSteps : UInt64) : List String :=
  ["sample", "--seed", seed.toNat.repr, "--count", count.toNat.repr, "--length", length.toNat.repr,
    "--variables", bound.toNat.repr, "--max-steps", maxSteps.toNat.repr]

lemma ofText_repr (n : Nat) : Argument.ofText n.repr = .plain n.repr := by
  have hdash := Text.toList_repr_ne_cons (c := '-') rfl n
  unfold Argument.ofText
  split
  · exact absurd ‹_› (hdash _)
  · exact absurd ‹_› (hdash _)
  · exact absurd ‹_› (hdash _)
  · rfl

lemma wordNumber?_repr (n : UInt64) : wordNumber? n.toNat.repr = some n.toNat := by
  have hplus := Text.toList_repr_ne_cons (c := '+') rfl n.toNat
  have hall : n.toNat.repr.toList.all Char.isDigit = true :=
    List.all_eq_true.mpr fun d => Text.isDigit_of_mem_repr
  have hne : n.toNat.repr.toList.isEmpty = false :=
    List.isEmpty_eq_false_iff.mpr (Text.toList_repr_ne_nil n.toNat)
  have hle : n.toNat ≤ UInt64.size - 1 := Nat.le_pred_of_lt n.toNat_lt
  unfold wordNumber?
  simp only [hne, hall, Text.boundedNumber?_repr, if_pos hle]
  rfl

lemma Gathered.extend_option {known : Vocabulary} {g g' : Gathered} {argument name value : String}
    (hname : Argument.ofText argument = .long name none) (hflag : name ∉ known.flags)
    (hoption : name ∈ known.options) (hvalue : Argument.ofText value = .plain value)
    (hadd : g.addValue name value = some g') (rest : List String) :
    g.extend known (argument :: value :: rest) = g'.extend known rest := by
  rw [extend, hname]
  simp only [if_neg hflag, if_pos hoption, hvalue, hadd]

lemma extend_survey (seed count length bound maxSteps : String)
    (plain : ∀ value ∈ [seed, count, length, bound, maxSteps], Argument.ofText value = .plain value) :
    Gathered.extend ⟨[], ["seed", "count", "length", "variables", "max-steps"]⟩ {}
      ["--seed", seed, "--count", count, "--length", length, "--variables", bound,
        "--max-steps", maxSteps] =
      some { values := [("max-steps", maxSteps), ("variables", bound), ("length", length),
        ("count", count), ("seed", seed)] } := by
  simp only [List.forall_mem_cons] at plain
  obtain ⟨hseed, hcount, hlength, hbound, hmaxSteps, -⟩ := plain
  have seedName : Argument.ofText "--seed" = .long "seed" none := rfl
  have countName : Argument.ofText "--count" = .long "count" none := rfl
  have lengthName : Argument.ofText "--length" = .long "length" none := rfl
  have boundName : Argument.ofText "--variables" = .long "variables" none := rfl
  have maxStepsName : Argument.ofText "--max-steps" = .long "max-steps" none := rfl
  rw [Gathered.extend_option seedName (by decide) (by decide) hseed rfl,
    Gathered.extend_option countName (by decide) (by decide) hcount rfl,
    Gathered.extend_option lengthName (by decide) (by decide) hlength rfl,
    Gathered.extend_option boundName (by decide) (by decide) hbound rfl,
    Gathered.extend_option maxStepsName (by decide) (by decide) hmaxSteps rfl]
  rfl

theorem ofArguments_surveyArguments (seed count length bound maxSteps : UInt64) :
    Invocation.ofArguments (surveyArguments seed count length bound maxSteps) =
      some
        { verbosity := 0
          command := .sample
            { seed
              count := count.toNat
              recipe := { length := length.toNat, variableBound := bound.toNat }
              limit := effectiveLimit maxSteps.toNat } } := by
  have hsample : Argument.ofText "sample" = .plain "sample" := rfl
  have hread : readSubcommand "sample" = readSample := rfl
  unfold surveyArguments Invocation.ofArguments Invocation.ofArgumentsFrom
  rw [hsample]
  dsimp only
  rw [hread, readSample, extend_survey _ _ _ _ _ (by simp [ofText_repr])]
  simp [Gathered.number?, Gathered.value?, List.lookup_cons, wordNumber?_repr]

lemma wordNumber?_lt {text : String} {n : Nat} (h : wordNumber? text = some n) : n < UInt64.size := by
  unfold wordNumber? at h
  extract_lets digits at h
  split at h
  · cases h
  · rw [Text.boundedNumber?_eq] at h
    split at h
    · next hle =>
      obtain rfl := Option.some_inj.mp h
      exact Nat.lt_of_le_pred (by decide) hle
    · cases h

lemma Gathered.number?_lt {g : Gathered} {name : String} {absent : Option Nat} {n : Nat}
    (h : g.number? name absent = some n) (habsent : ∀ m ∈ absent, m < UInt64.size) : n < UInt64.size := by
  unfold number? at h
  split at h
  · exact wordNumber?_lt h
  · exact habsent n h

/-- What follows the counted flags is read by its subcommand. -/
lemma exists_readSubcommand {verbosity : Nat} {arguments : List String} {invocation : Invocation}
    (h : Invocation.ofArgumentsFrom verbosity arguments = some invocation) :
    ∃ name rest inner, readSubcommand name rest = some inner ∧ inner.command = invocation.command := by
  induction arguments generalizing verbosity with
  | nil => cases h
  | cons argument rest ih =>
    rw [Invocation.ofArgumentsFrom] at h
    split at h
    · exact ih h
    · next name _ =>
      obtain ⟨inner, hinner, rfl⟩ := Option.map_eq_some_iff.mp h
      refine ⟨name, rest, inner, hinner, ?_⟩
      split <;> rfl
    · cases h

lemma variableBound_lt_of_readSample {arguments : List String} {verbosity : Nat} {survey : Survey}
    (h : readSample arguments = some ⟨verbosity, .sample survey⟩) :
    survey.recipe.variableBound < UInt64.size := by
  simp only [readSample, Option.bind_eq_bind, Option.bind_eq_some_iff] at h
  obtain ⟨g, -, seed, -, count, -, length, -, bound, hbound, maxSteps, -, h⟩ := h
  split at h
  · cases h
    exact Gathered.number?_lt hbound (by decide)
  · cases h

/-- A survey that is asked for draws its variables below a number of 64 bits. -/
theorem variableBound_lt_of_ofArguments {arguments : List String} {verbosity : Nat} {survey : Survey}
    (h : Invocation.ofArguments arguments = some ⟨verbosity, .sample survey⟩) :
    survey.recipe.variableBound < UInt64.size := by
  obtain ⟨name, rest, ⟨inner, command⟩, hread, hcommand⟩ := exists_readSubcommand h
  obtain rfl : command = .sample survey := hcommand
  unfold readSubcommand at hread
  split at hread
  · simp only [readRun, Option.bind_eq_bind, Option.bind_eq_some_iff] at hread
    obtain ⟨g, -, file, -, maxSteps, -, hread⟩ := hread
    cases hread
  · split at hread
    · simp only [readDisasm, Option.bind_eq_bind, Option.bind_eq_some_iff] at hread
      obtain ⟨g, -, file, -, hread⟩ := hread
      cases hread
    · split at hread
      · exact variableBound_lt_of_readSample hread
      · cases hread

end FlipLoop.CommandLine
