import FlipLoop.Program.Basic

/-!
# Listings

A listing shows one instruction a line, variables as decimal numbers, and the body of a loop two
blanks further in than its head and its end.
-/

namespace FlipLoop

/-- A line of a listing: an instruction and the number of loops that it stands in. -/
structure Line where
  depth : Nat
  instr : Instr
  deriving DecidableEq

def Instr.numeralText : Instr → String
  | flip v => v.repr
  | enter v => "/ " ++ v.repr
  | back => "\\"
  | emit => "!"

def Line.text (line : Line) : String :=
  "".pushn ' ' (2 * line.depth) ++ line.instr.numeralText

namespace Program

/-- The lines of `p` behind the lines `done`, latest first, with `depth` loops open. A `back` is out
of its loop already, and without a loop it stays at the margin. -/
def linesOnto (done : List Line) (depth : Nat) : Program → List Line
  | [] => done.reverse
  | .enter v :: p => linesOnto (⟨depth, .enter v⟩ :: done) (depth + 1) p
  | .back :: p => linesOnto (⟨depth - 1, .back⟩ :: done) (depth - 1) p
  | i :: p => linesOnto (⟨depth, i⟩ :: done) depth p

def lines (p : Program) : List Line :=
  linesOnto [] 0 p

/-- The listing of a program; every line has its line feed. -/
def listing (p : Program) : String :=
  String.join (p.lines.map fun line => line.text ++ "\n")

theorem linesOnto_eq (done : List Line) (depth : Nat) (p : Program) :
    linesOnto done depth p = done.reverse ++ linesOnto [] depth p := by
  induction p generalizing done depth with
  | nil => simp [linesOnto]
  | cons i p ih =>
    cases i <;> simp only [linesOnto] <;> rw [ih, ih [_]] <;> simp

end Program

end FlipLoop
