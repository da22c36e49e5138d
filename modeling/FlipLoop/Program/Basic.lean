import FlipLoop.Token

/-!
# Programs

A program is a flat list of instructions; its loops are bracketed by `enter` and `back`. The glyph
form of a program is the list of its tokens, one blank apart.
-/

namespace FlipLoop

/-- One instruction. Variables are named by their index. -/
inductive Instr where
  | flip (v : Nat)
  /-- Go on into the loop if the variable is set, else past its end. -/
  | enter (v : Nat)
  /-- Return to the head of the loop. -/
  | back
  | emit
  deriving DecidableEq

abbrev Program := List Instr

namespace Instr

def isEnter : Instr → Bool
  | enter _ => true
  | _ => false

def isBack : Instr → Bool
  | back => true
  | _ => false

def operand? : Instr → Option Nat
  | flip v => some v
  | enter v => some v
  | back => none
  | emit => none

def tokens : Instr → List Token
  | flip v => [.bars v]
  | enter v => [[.slash], .bars v]
  | back => [[.backslash]]
  | emit => [[.bang]]

end Instr

namespace Program

def tokens (p : Program) : List Token :=
  p.flatMap Instr.tokens

@[simp]
theorem tokens_cons (i : Instr) (p : Program) : tokens (i :: p) = i.tokens ++ p.tokens :=
  List.flatMap_cons

@[simp]
theorem tokens_append (p q : Program) : tokens (p ++ q) = p.tokens ++ q.tokens :=
  List.flatMap_append

/-- The glyph form: all tokens, one blank apart. -/
def glyphText (p : Program) : String :=
  " ".intercalate (p.tokens.map Token.text)

end Program

end FlipLoop
