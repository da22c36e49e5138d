import FlipLoop.Chance.Draw
import FlipLoop.Program.Balance
import Mathlib.Tactic.Common

/-!
# Random programs are well formed

An instruction drawn while some loops are open is one of four kinds, and it closes a loop only if one
is open. Whatever the dice show, the depth kept while drawing is therefore the number of loops that the
drawn instructions leave open, and as many are closed behind them. Each of these was opened by an
instruction of its own, so the program is at most twice as long as what was drawn.
-/

namespace FlipLoop.Chance

variable {γ : Type} {recipe : Recipe} {depth : Nat} {done : List Instr} {i : Instr}

/-- The instructions that can be drawn while `depth` loops are open. -/
inductive Drawable (recipe : Recipe) (depth : Nat) : Instr → Prop
  | flip (v : Nat) (bounded : v < max recipe.variableBound 1) : Drawable recipe depth (.flip v)
  | enter (v : Nat) (bounded : v < max recipe.variableBound 1) : Drawable recipe depth (.enter v)
  | back (opened : 0 < depth) : Drawable recipe depth .back
  | emit : Drawable recipe depth .emit

theorem drawable_drawInstr (dice : Dice γ) (recipe : Recipe) (depth : Nat) (g : γ) :
    Drawable recipe depth (drawInstr dice recipe depth g).1 := by
  have hbelow : ∀ g, (dice.below (max recipe.variableBound 1) g).1 < max recipe.variableBound 1 :=
    dice.below_lt (by omega)
  unfold drawInstr
  dsimp only
  by_cases hloop : (dice.unit g).1 < recipe.loopProbability
  · rw [if_pos hloop]
    by_cases hdepth : 0 < depth
    · rw [if_pos hdepth]
      cases (dice.coin (dice.unit g).2).1 with
      | true => exact .back hdepth
      | false => exact .enter _ (hbelow _)
    · rw [if_neg hdepth]
      exact .enter _ (hbelow _)
  · rw [if_neg hloop]
    by_cases hemit : (dice.unit g).1 < recipe.loopProbability + recipe.outputProbability
    · rw [if_pos hemit]
      exact .emit
    · rw [if_neg hemit]
      exact .flip _ (hbelow _)

/-- The lists of instructions, latest first, that can be drawn, each with the depth kept. -/
inductive Drawn (recipe : Recipe) : List Instr → Nat → Prop
  | nil : Drawn recipe [] 0
  | cons {i : Instr} {done : List Instr} {depth : Nat} : Drawable recipe depth i →
    Drawn recipe done depth → Drawn recipe (i :: done) (depthBehind depth i)

theorem Drawn.onto (h : Drawn recipe done depth) (dice : Dice γ) (count : Nat) (g : γ) :
    Drawn recipe (drawOnto dice recipe done depth count g).1
      (drawOnto dice recipe done depth count g).2.1 := by
  induction count generalizing done depth g with
  | zero => exact h
  | succ count ih =>
    rw [drawOnto]
    exact ih (.cons (drawable_drawInstr dice recipe depth g) h) _

lemma Drawable.loopsAfter?_eq (h : Drawable recipe depth i) :
    Program.loopsAfter? depth [i] = some (depthBehind depth i) := by
  cases h with
  | back opened =>
    obtain ⟨k, rfl⟩ := Nat.exists_eq_add_of_lt opened
    rfl
  | _ => rfl

/-- The depth kept is the number of loops left open. -/
lemma Drawn.loopsAfter?_eq (h : Drawn recipe done depth) :
    Program.loopsAfter? 0 done.reverse = some depth := by
  induction h with
  | nil => rfl
  | cons hi _ ih =>
    rw [List.reverse_cons, Program.loopsAfter?_append, ih, Option.bind_some, hi.loopsAfter?_eq]

/-- A loop left open was opened by one of the instructions. -/
lemma Drawn.depth_le_length (h : Drawn recipe done depth) : depth ≤ done.length := by
  induction h with
  | nil => exact Nat.le_refl 0
  | @cons i done depth _ _ ih =>
    have hone : depthBehind depth i ≤ depth + 1 := by cases i <;> simp only [depthBehind] <;> omega
    rw [List.length_cons]
    omega

lemma Drawable.operand_lt (h : Drawable recipe depth i) :
    ∀ v ∈ i.operand?, v < max recipe.variableBound 1 := by
  cases h with
  | flip v bounded | enter v bounded =>
    intro w hw
    obtain rfl : v = w := Option.some_inj.mp hw
    exact bounded
  | _ => exact fun v hv => nomatch hv

lemma Drawn.operand_lt (h : Drawn recipe done depth) :
    ∀ i ∈ done, ∀ v ∈ i.operand?, v < max recipe.variableBound 1 := by
  induction h with
  | nil => simp
  | cons hi _ ih => exact List.forall_mem_cons.mpr ⟨hi.operand_lt, ih⟩

lemma length_drawOnto (dice : Dice γ) (count : Nat) (g : γ) :
    (drawOnto dice recipe done depth count g).1.length = done.length + count := by
  induction count generalizing done depth g with
  | zero => rfl
  | succ count ih =>
    rw [drawOnto, ih, List.length_cons]
    omega

/-- A random program is what was drawn, in order, with the loops left open closed behind it. -/
theorem exists_drawn (dice : Dice γ) (recipe : Recipe) (g : γ) :
    ∃ done depth, Drawn recipe done depth ∧ done.length = recipe.length ∧
      (drawProgram dice recipe g).1 = done.reverse ++ List.replicate depth .back := by
  have hnil : Drawn recipe [] 0 := .nil
  have hlength : (drawOnto dice recipe [] 0 recipe.length g).1.length = recipe.length := by
    rw [length_drawOnto, List.length_nil, Nat.zero_add]
  exact ⟨_, _, hnil.onto dice recipe.length g, hlength, rfl⟩

lemma loopsAfter?_replicate_back (depth : Nat) :
    Program.loopsAfter? depth (List.replicate depth .back) = some 0 := by
  induction depth with
  | zero => rfl
  | succ depth ih => exact ih

theorem balanced_drawProgram (dice : Dice γ) (recipe : Recipe) (g : γ) :
    (drawProgram dice recipe g).1.Balanced := by
  obtain ⟨done, depth, hdrawn, -, hprogram⟩ := exists_drawn dice recipe g
  rw [Program.balanced_iff_loopsAfter?, hprogram, Program.loopsAfter?_append, hdrawn.loopsAfter?_eq,
    Option.bind_some, loopsAfter?_replicate_back]

/-- Random programs are well formed, whatever the dice show and whatever the probabilities are. They are
balanced, their variables are below the bound, and behind the instructions that were drawn the loops are
closed that these leave open, and nothing else stands there. -/
theorem drawn_programs_are_well_formed (dice : Dice γ) (recipe : Recipe) (g : γ) :
    let p := (drawProgram dice recipe g).1
    let front := p.take recipe.length
    p.Balanced ∧ (∀ i ∈ p, ∀ v ∈ i.operand?, v < max recipe.variableBound 1) ∧
      (recipe.length ≤ p.length ∧ p.length ≤ 2 * recipe.length) ∧
      ∃ depth, Program.enters front = Program.backs front + depth ∧
        p.drop recipe.length = List.replicate depth .back := by
  dsimp only
  refine ⟨balanced_drawProgram dice recipe g, ?_⟩
  obtain ⟨done, depth, hdrawn, hlength, hprogram⟩ := exists_drawn dice recipe g
  have hreverse : done.reverse.length = recipe.length := by rw [List.length_reverse, hlength]
  have hdepth := hdrawn.depth_le_length
  obtain ⟨hopen, -⟩ := (Program.loopsAfter?_eq_some_iff _ _ _).mp hdrawn.loopsAfter?_eq
  rw [hprogram, List.take_left' hreverse, List.drop_left' hreverse, List.length_append, hreverse,
    List.length_replicate]
  refine ⟨?_, by omega, depth, by omega, rfl⟩
  intro i hi
  rcases List.mem_append.mp hi with hi | hi
  · exact hdrawn.operand_lt i (List.mem_reverse.mp hi)
  · obtain rfl := List.eq_of_mem_replicate hi
    exact fun v hv => nomatch hv

/-- A recipe whose probability of showing the memory is no number, and a program that leaves four loops
open after eight instructions. -/
theorem drawn_program_of_unusual_recipe :
    let recipe : Recipe :=
      { length := 8, variableBound := 2, loopProbability := 0.5, outputProbability := 0 / 0 }
    let p := (drawProgram .xoshiro recipe (.ofSeed 1)).1
    p = [.flip 0, .enter 0, .enter 1, .flip 1, .back, .enter 1, .enter 1, .enter 1] ++
        List.replicate 4 .back ∧
      p.Balanced ∧ (∀ v ∈ (Instr.flip 1).operand?, v < max 2 1) ∧ p.length ≤ 2 * 8 ∧
      ∃ depth, p.drop 8 = List.replicate depth .back := by
  intro recipe p
  have hp : p = [.flip 0, .enter 0, .enter 1, .flip 1, .back, .enter 1, .enter 1, .enter 1] ++
      List.replicate 4 .back := by decide +kernel
  obtain ⟨hbalanced, hoperands, ⟨-, hlength⟩, depth, -, hclosers⟩ :=
    drawn_programs_are_well_formed .xoshiro recipe (.ofSeed 1)
  exact ⟨hp, hbalanced, hoperands (.flip 1) (by simp [p, hp]), hlength, depth, hclosers⟩

end FlipLoop.Chance
