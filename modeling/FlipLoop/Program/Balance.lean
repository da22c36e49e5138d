import FlipLoop.Program.Basic

/-!
# Balanced programs

A program is balanced if every loop that it opens is closed and none is closed before it is opened.
`loopsAfter?` counts the open loops from left to right and finds out the same.
-/

namespace FlipLoop.Program

def enters (p : Program) : Nat := p.countP Instr.isEnter

def backs (p : Program) : Nat := p.countP Instr.isBack

/-- As many loops are opened as closed, and no beginning closes more than it opens. -/
structure Balanced (p : Program) : Prop where
  backs_eq : p.backs = p.enters
  backs_take_le : ∀ n, Program.backs (p.take n) ≤ Program.enters (p.take n)

/-- The loops open behind `p` if `depth` of them are open before it, unless a loop is closed while
none is open. -/
def loopsAfter? (depth : Nat) : Program → Option Nat
  | [] => some depth
  | .enter _ :: p => loopsAfter? (depth + 1) p
  | .back :: p =>
    match depth with
    | 0 => none
    | depth + 1 => loopsAfter? depth p
  | _ :: p => loopsAfter? depth p

theorem enters_cons (i : Instr) (p : Program) :
    Program.enters (i :: p) = Program.enters p + if i.isEnter then 1 else 0 :=
  List.countP_cons

theorem backs_cons (i : Instr) (p : Program) :
    Program.backs (i :: p) = Program.backs p + if i.isBack then 1 else 0 :=
  List.countP_cons

theorem loopsAfter?_append (depth : Nat) (p q : Program) :
    loopsAfter? depth (p ++ q) = (loopsAfter? depth p).bind (loopsAfter? · q) := by
  fun_induction loopsAfter? depth p with
  | case1 => rfl
  | case2 _ _ _ ih => simpa [loopsAfter?] using ih
  | case3 => simp [loopsAfter?]
  | case4 _ _ ih => simpa [loopsAfter?] using ih
  | case5 depth i p h₁ h₂ ih =>
    cases i <;> simp_all [loopsAfter?]

/-- The beginnings of `i :: p` are the empty one and `i` in front of those of `p`. -/
theorem forall_take_cons {i : Instr} {p : Program} {P : Program → Prop} :
    (∀ n, P ((i :: p).take n)) ↔ P [] ∧ ∀ n, P (i :: p.take n) :=
  ⟨fun h => ⟨h 0, fun n => h (n + 1)⟩, fun h n => by cases n <;> simp [h.1, h.2]⟩

theorem loopsAfter?_eq_some_iff (depth rest : Nat) (p : Program) :
    loopsAfter? depth p = some rest ↔
      depth + p.enters = rest + p.backs ∧
        ∀ n, Program.backs (p.take n) ≤ depth + Program.enters (p.take n) := by
  induction p generalizing depth with
  | nil => simp [loopsAfter?, enters, backs]
  | cons i p ih =>
    rw [forall_take_cons (P := fun q => Program.backs q ≤ depth + Program.enters q)]
    have hnil : Program.backs [] ≤ depth + Program.enters [] := Nat.zero_le _
    simp only [enters_cons, backs_cons, hnil, true_and]
    cases i with
    | flip v => simpa [loopsAfter?, Instr.isEnter, Instr.isBack] using ih depth
    | emit => simpa [loopsAfter?, Instr.isEnter, Instr.isBack] using ih depth
    | enter v =>
      have := ih (depth + 1)
      simp only [loopsAfter?, Instr.isEnter, Instr.isBack] at this ⊢
      rw [this]
      constructor <;> rintro ⟨h, hn⟩ <;> exact ⟨by grind, fun n => by grind⟩
    | back =>
      cases depth with
      | zero =>
        simp only [loopsAfter?, Instr.isBack, reduceCtorEq, false_iff, not_and]
        intro _ h
        simpa [Instr.isEnter, enters, backs] using h 0
      | succ depth =>
        have := ih depth
        simp only [loopsAfter?, Instr.isEnter, Instr.isBack] at this ⊢
        rw [this]
        constructor <;> rintro ⟨h, hn⟩ <;> exact ⟨by grind, fun n => by grind⟩

/-- The count from left to right decides balance. -/
theorem balanced_iff_loopsAfter? (p : Program) : p.Balanced ↔ loopsAfter? 0 p = some 0 := by
  rw [loopsAfter?_eq_some_iff]
  exact ⟨fun h => ⟨by have := h.backs_eq; omega, fun n => by have := h.backs_take_le n; omega⟩,
    fun h => ⟨by omega, fun n => by have := h.2 n; omega⟩⟩

instance (p : Program) : Decidable p.Balanced :=
  decidable_of_iff _ (balanced_iff_loopsAfter? p).symm

end FlipLoop.Program
