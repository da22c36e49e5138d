import FlipLoop.Memory
import FlipLoop.Program.Balance

/-!
# Blocks

A block is the structured form of a balanced program: a sequence of commands in which a loop holds a
block of its own. `flatten` writes the brackets of the loops, and `Eval` says what a block does and
how many instructions it takes, without any program counter.
-/

namespace FlipLoop

inductive Block where
  | done
  | flip (v : Nat) (rest : Block)
  | emit (rest : Block)
  | loop (v : Nat) (body rest : Block)
  deriving DecidableEq

namespace Block

def flatten : Block → Program
  | done => []
  | flip v rest => .flip v :: rest.flatten
  | emit rest => .emit :: rest.flatten
  | loop v body rest => .enter v :: (body.flatten ++ .back :: rest.flatten)

/-- `Eval b m t shown cost`: the block `b` turns the memory `m` into `t`, shows these snapshots, and
takes `cost` instructions. A loop takes one for each test of its variable and one behind each turn of
its body. -/
inductive Eval : Block → Memory → Memory → List String → Nat → Prop
  | done (m : Memory) : Eval .done m m [] 0
  | flip {v : Nat} {rest : Block} {m t : Memory} {shown : List String} {cost : Nat} :
    Eval rest (m.flip v) t shown cost → Eval (.flip v rest) m t shown (cost + 1)
  | emit {rest : Block} {m t : Memory} {shown : List String} {cost : Nat} :
    Eval rest m t shown cost → Eval (.emit rest) m t (m.text :: shown) (cost + 1)
  | leave {v : Nat} {body rest : Block} {m t : Memory} {shown : List String} {cost : Nat} :
    m.get v = false → Eval rest m t shown cost → Eval (.loop v body rest) m t shown (cost + 1)
  | turn {v : Nat} {body rest : Block} {m m' t : Memory} {shown shown' : List String}
    {cost cost' : Nat} :
    m.get v = true → Eval body m m' shown cost → Eval (.loop v body rest) m' t shown' cost' →
      Eval (.loop v body rest) m t (shown ++ shown') (cost + cost' + 2)

/-- A flattened block leaves as many loops open as there were before it. -/
theorem loopsAfter?_flatten (b : Block) (depth : Nat) :
    Program.loopsAfter? depth b.flatten = some depth := by
  induction b generalizing depth with
  | done => rfl
  | flip v rest ih => simpa [flatten, Program.loopsAfter?] using ih depth
  | emit rest ih => simpa [flatten, Program.loopsAfter?] using ih depth
  | loop v body rest ihb ihr =>
    simp [flatten, Program.loopsAfter?, Program.loopsAfter?_append, ihb, ihr]

theorem balanced_flatten (b : Block) : b.flatten.Balanced :=
  (Program.balanced_iff_loopsAfter? _).2 (loopsAfter?_flatten b 0)

end Block

end FlipLoop
