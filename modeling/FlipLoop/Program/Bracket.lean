import FlipLoop.Program.Basic

/-!
# Partners of brackets

The end of a loop is found by scanning forward from its head, the head by scanning backward from its
end. Both scans count the loops that they meet on the way and skip them whole.
-/

namespace FlipLoop.Program

/-- Looks through `left` instructions from index `i` on, `depth` loops below the one in question. -/
def closingFrom? (code : Array Instr) (i depth : Nat) : Nat → Option Nat
  | 0 => none
  | left + 1 =>
    match code[i]? with
    | some (.enter _) => closingFrom? code (i + 1) (depth + 1) left
    | some .back =>
      match depth with
      | 0 => some i
      | depth + 1 => closingFrom? code (i + 1) depth left
    | _ => closingFrom? code (i + 1) depth left

/-- The index of the `back` that closes the loop whose body starts behind `pc`. -/
def closing? (code : Array Instr) (pc : Nat) : Option Nat :=
  closingFrom? code (pc + 1) 0 (code.size - (pc + 1))

/-- Looks through the instructions below index `i`, `depth` loops below the one in question. -/
def openingBelow? (code : Array Instr) (depth : Nat) : Nat → Option Nat
  | 0 => none
  | i + 1 =>
    match code[i]? with
    | some .back => openingBelow? code (depth + 1) i
    | some (.enter _) =>
      match depth with
      | 0 => some i
      | depth + 1 => openingBelow? code depth i
    | _ => openingBelow? code depth i

/-- The index of the `enter` that opens the loop whose body ends in front of `pc`. An index past the
end of the code stands for the end. -/
def opening? (code : Array Instr) (pc : Nat) : Option Nat :=
  openingBelow? code 0 (min pc code.size)

end FlipLoop.Program
