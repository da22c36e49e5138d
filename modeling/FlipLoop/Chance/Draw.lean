import FlipLoop.Memory
import FlipLoop.Program.Basic
import FlipLoop.Chance.Dice

/-!
# Random programs

A program is drawn instruction by instruction. A loop is closed only while one is open, and the loops
that are open in the end are closed behind the last instruction drawn.
-/

namespace FlipLoop.Chance

structure Recipe where
  /-- The number of instructions drawn before the open loops are closed. -/
  length : Nat := 32
  /-- Variables are drawn below this number, or below 1 if it is 0. -/
  variableBound : Nat := 8
  /-- The probability of opening or closing a loop. -/
  loopProbability : Float := 0.15
  /-- The probability of showing the memory. -/
  outputProbability : Float := 0.05

/-- Draws an instruction while `depth` loops are open. A comparison with a probability that is no
number fails. -/
def drawInstr {γ : Type} (dice : Dice γ) (recipe : Recipe) (depth : Nat) (g : γ) : Instr × γ :=
  let bound := max recipe.variableBound 1
  let (u, g) := dice.unit g
  if u < recipe.loopProbability then
    let (close, g) := if 0 < depth then dice.coin g else (false, g)
    if close then
      (.back, g)
    else
      let (v, g) := dice.below bound g
      (.enter v, g)
  else if u < recipe.loopProbability + recipe.outputProbability then
    (.emit, g)
  else
    let (v, g) := dice.below bound g
    (.flip v, g)

def depthBehind (depth : Nat) : Instr → Nat
  | .enter _ => depth + 1
  | .back => depth - 1
  | _ => depth

/-- Draws `count` more instructions behind `done`, latest first, while `depth` loops are open, and
gives the number of loops to close as well. -/
def drawOnto {γ : Type} (dice : Dice γ) (recipe : Recipe) (done : List Instr) (depth : Nat) :
    Nat → γ → List Instr × Nat × γ
  | 0, g => (done, depth, g)
  | count + 1, g =>
    let (i, g) := drawInstr dice recipe depth g
    drawOnto dice recipe (i :: done) (depthBehind depth i) count g

def drawProgram {γ : Type} (dice : Dice γ) (recipe : Recipe) (g : γ) : Program × γ :=
  let (done, depth, g) := drawOnto dice recipe [] 0 recipe.length g
  (done.reverse ++ List.replicate depth .back, g)

/-- The bytes that an instruction takes up. -/
def instrSize : Nat := 16

/-- Draws a program if there is room for it. The room for its length is asked for before anything is
drawn, and doubled if loops are to be closed. -/
def drawProgram? {γ : Type} (dice : Dice γ) (recipe : Recipe) (g : γ) : Option (Program × γ) :=
  if largestCapacity < instrSize * recipe.length then
    none
  else
    let drawn := drawProgram dice recipe g
    if largestCapacity < 2 * (instrSize * recipe.length) ∧ recipe.length < drawn.1.length then
      none
    else
      some drawn

end FlipLoop.Chance
