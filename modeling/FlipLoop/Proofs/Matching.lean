import FlipLoop.Program.Balance
import FlipLoop.Program.Bracket
import Mathlib.Tactic.Common

/-!
# The bracket search is exact

`CodeAt code pc p` says that the instructions of `p` stand in `code` from `pc` on. The forward search
finds a `back` exactly if a balanced body stands between it and the start of the search, and the
backward search finds an `enter` under the same condition. Both searches therefore pair the two ends
of every loop, whatever stands around it.
-/

namespace FlipLoop

def CodeAt (code : Array Instr) (pc : Nat) (p : Program) : Prop :=
  ∀ j, j < p.length → code[pc + j]? = p[j]?

namespace CodeAt

variable {code : Array Instr} {pc : Nat} {i : Instr} {p q : Program}

lemma nil (code : Array Instr) (pc : Nat) : CodeAt code pc [] := by
  intro j hj
  simp at hj

lemma toArray (p : Program) : CodeAt p.toArray 0 p := by
  intro j hj
  simp

lemma head (h : CodeAt code pc (i :: p)) : code[pc]? = some i := by
  simpa using h 0 (by simp)

lemma tail (h : CodeAt code pc (i :: p)) : CodeAt code (pc + 1) p := by
  intro j hj
  have hi := h (j + 1) (by simp only [List.length_cons]; omega)
  rw [show pc + 1 + j = pc + (j + 1) by omega, hi, List.getElem?_cons_succ]

lemma cons (hi : code[pc]? = some i) (h : CodeAt code (pc + 1) p) : CodeAt code pc (i :: p) := by
  intro j hj
  cases j with
  | zero => simpa using hi
  | succ j =>
    have hp := h j (by simp only [List.length_cons] at hj; omega)
    rw [show pc + (j + 1) = pc + 1 + j by omega, hp, List.getElem?_cons_succ]

lemma append_left (h : CodeAt code pc (p ++ q)) : CodeAt code pc p := by
  intro j hj
  rw [h j (by simp only [List.length_append]; omega), List.getElem?_append_left hj]

lemma append_right (h : CodeAt code pc (p ++ q)) : CodeAt code (pc + p.length) q := by
  intro j hj
  have hq := h (p.length + j) (by simp only [List.length_append]; omega)
  rw [show pc + p.length + j = pc + (p.length + j) by omega, hq,
    List.getElem?_append_right (by omega), Nat.add_sub_cancel_left]

lemma append (hp : CodeAt code pc p) (hq : CodeAt code (pc + p.length) q) :
    CodeAt code pc (p ++ q) := by
  intro j hj
  by_cases hjp : j < p.length
  · rw [List.getElem?_append_left hjp]
    exact hp j hjp
  · have hjq : j - p.length < q.length := by
      simp only [List.length_append] at hj
      omega
    rw [List.getElem?_append_right (by omega), ← hq _ hjq]
    congr 1
    omega

lemma length_le (h : CodeAt code pc p) (hp : p ≠ []) : pc + p.length ≤ code.size := by
  have hpos : 0 < p.length := List.length_pos_iff.mpr hp
  have hlast := h (p.length - 1) (by omega)
  rw [List.getElem?_eq_getElem (by omega)] at hlast
  have := (Array.getElem?_eq_some_iff.mp hlast).1
  omega

end CodeAt

namespace Program

/-- A body of `depth` loops more to close than it opens stands from `i` on, and a `back` behind it
at `j`. -/
def EndsAt (code : Array Instr) (i depth j : Nat) : Prop :=
  ∃ body : Program, CodeAt code i (body ++ [.back]) ∧ loopsAfter? depth body = some 0 ∧
    j = i + body.length

/-- An `enter` stands at `j`, and behind it, up to `i`, a body that leaves `depth` loops open. -/
def HeadAt (code : Array Instr) (depth i j : Nat) : Prop :=
  ∃ v, ∃ body : Program, CodeAt code j (.enter v :: body) ∧ loopsAfter? 0 body = some depth ∧
    i = j + 1 + body.length

section Search

variable {code : Array Instr} {i j depth : Nat}

lemma loopsAfter?_append_eq_some_iff {p q : Program} {depth' : Nat} :
    loopsAfter? depth (p ++ q) = some depth' ↔
      ∃ k, loopsAfter? depth p = some k ∧ loopsAfter? k q = some depth' := by
  rw [loopsAfter?_append]
  exact Option.bind_eq_some_iff

lemma EndsAt.bounds (h : EndsAt code i depth j) : i ≤ j ∧ j < code.size := by
  obtain ⟨body, hcode, -, rfl⟩ := h
  have hend := hcode.length_le (by simp)
  simp only [List.length_append, List.length_singleton] at hend
  omega

lemma HeadAt.bounds (h : HeadAt code depth i j) : j < i ∧ i ≤ code.size := by
  obtain ⟨v, body, hcode, -, rfl⟩ := h
  have hend := hcode.length_le (by simp)
  simp only [List.length_cons] at hend
  omega

/-- The body is empty, or it goes on behind its first instruction. -/
lemma endsAt_iff :
    EndsAt code i depth j ↔ (code[i]? = some .back ∧ depth = 0 ∧ j = i) ∨
      ∃ a k, code[i]? = some a ∧ loopsAfter? depth [a] = some k ∧ EndsAt code (i + 1) k j := by
  constructor
  · rintro ⟨body, hcode, hloops, hj⟩
    cases body with
    | nil => exact .inl ⟨hcode.head, Option.some_inj.mp hloops, hj⟩
    | cons a body =>
      obtain ⟨k, ha, hbody⟩ := loopsAfter?_append_eq_some_iff (p := [a]).mp hloops
      refine .inr ⟨a, k, hcode.head, ha, body, hcode.tail, hbody, ?_⟩
      rw [hj, List.length_cons]
      omega
  · rintro (⟨hi, rfl, rfl⟩ | ⟨a, k, hi, ha, body, hcode, hbody, hj⟩)
    · exact ⟨[], .cons hi (.nil _ _), rfl, rfl⟩
    · refine ⟨a :: body, .cons hi hcode, loopsAfter?_append_eq_some_iff (p := [a]).mpr ⟨k, ha, hbody⟩, ?_⟩
      rw [hj, List.length_cons]
      omega

/-- The body is empty, or it goes on before its last instruction. -/
lemma headAt_succ_iff :
    HeadAt code depth (i + 1) j ↔ (∃ v, code[i]? = some (.enter v) ∧ depth = 0 ∧ i = j) ∨
      ∃ a k, code[i]? = some a ∧ loopsAfter? k [a] = some depth ∧ HeadAt code k i j := by
  constructor
  · rintro ⟨v, body, hcode, hloops, hj⟩
    obtain rfl | ⟨body, a, rfl⟩ := List.eq_nil_or_concat body
    · obtain rfl : i = j := by simpa using hj
      exact .inl ⟨v, hcode.head, (Option.some_inj.mp hloops).symm, rfl⟩
    · rw [List.concat_eq_append] at hcode hloops hj
      rw [List.length_append, List.length_singleton] at hj
      obtain rfl : i = j + 1 + body.length := by omega
      obtain ⟨k, hbody, ha⟩ := loopsAfter?_append_eq_some_iff.mp hloops
      have hlast := (CodeAt.append_right (p := .enter v :: body) hcode).head
      rw [List.length_cons, show j + (body.length + 1) = j + 1 + body.length by omega] at hlast
      exact .inr ⟨a, k, hlast, ha, v, body, CodeAt.append_left (p := .enter v :: body) hcode, hbody, rfl⟩
  · rintro (⟨v, hi, rfl, rfl⟩ | ⟨a, k, hi, ha, v, body, hcode, hbody, rfl⟩)
    · exact ⟨v, [], .cons hi (.nil _ _), rfl, rfl⟩
    · have hlast : CodeAt code (j + (Instr.enter v :: body).length) [a] := by
        rw [List.length_cons, show j + (body.length + 1) = j + 1 + body.length by omega]
        exact .cons hi (.nil _ _)
      refine ⟨v, body ++ [a], CodeAt.append hcode hlast, ?_, ?_⟩
      · exact loopsAfter?_append_eq_some_iff.mpr ⟨k, hbody, ha⟩
      · rw [List.length_append, List.length_singleton]
        omega

end Search

theorem closingFrom?_eq_some_iff (code : Array Instr) (i depth left j : Nat) :
    closingFrom? code i depth left = some j ↔ EndsAt code i depth j ∧ j < i + left := by
  induction left generalizing i depth with
  | zero =>
    simp only [closingFrom?, reduceCtorEq, false_iff, not_and]
    intro h
    have := h.bounds
    omega
  | succ left ih =>
    rw [endsAt_iff, show i + (left + 1) = i + 1 + left by omega]
    unfold closingFrom?
    cases hi : code[i]? with
    | none =>
      have hsize := Array.getElem?_eq_none_iff.mp hi
      simp only [reduceCtorEq, false_and, exists_false, or_false, iff_false]
      rw [ih]
      rintro ⟨h, -⟩
      have := h.bounds
      omega
    | some a =>
      cases a with
      | flip v => simp [ih, loopsAfter?]
      | emit => simp [ih, loopsAfter?]
      | enter v => simp [ih, loopsAfter?]
      | back =>
        cases depth with
        | zero =>
          simp only [Option.some.injEq, exists_and_left, exists_eq_left', loopsAfter?, reduceCtorEq,
            false_and, exists_false, or_false, true_and]
          omega
        | succ depth => simp [ih, loopsAfter?]

theorem openingBelow?_eq_some_iff (code : Array Instr) (depth i j : Nat) (hi : i ≤ code.size) :
    openingBelow? code depth i = some j ↔ HeadAt code depth i j := by
  induction i generalizing depth with
  | zero =>
    simp only [openingBelow?, reduceCtorEq, false_iff]
    rintro ⟨v, body, -, -, h⟩
    omega
  | succ i ih =>
    have hsize : i < code.size := by omega
    rw [headAt_succ_iff]
    unfold openingBelow?
    rw [Array.getElem?_eq_getElem hsize]
    cases ha : code[i] with
    | flip v => simp [ih _ (by omega), loopsAfter?]
    | emit => simp [ih _ (by omega), loopsAfter?]
    | back =>
      have hback : ∀ k, loopsAfter? k [.back] = some depth ↔ k = depth + 1 := by
        intro k
        cases k <;> simp [loopsAfter?]
      simp [ih _ (by omega), hback]
    | enter w =>
      cases depth with
      | zero => simp [loopsAfter?]
      | succ depth => simp [ih _ (by omega), loopsAfter?]

theorem closing?_eq_some_iff (code : Array Instr) (pc j : Nat) :
    closing? code pc = some j ↔ EndsAt code (pc + 1) 0 j := by
  rw [closing?, closingFrom?_eq_some_iff, and_iff_left_iff_imp]
  intro h
  have := h.bounds
  omega

theorem opening?_eq_some_iff (code : Array Instr) (pc j : Nat) :
    opening? code pc = some j ↔ HeadAt code 0 (min pc code.size) j :=
  openingBelow?_eq_some_iff code 0 _ j (Nat.min_le_right _ _)

section Loop

variable {code : Array Instr} {pc v : Nat} {body rest : Program}

lemma closing?_of_codeAt (h : CodeAt code pc (.enter v :: (body ++ .back :: rest)))
    (hb : loopsAfter? 0 body = some 0) : closing? code pc = some (pc + 1 + body.length) := by
  have htail : CodeAt code (pc + 1) (body ++ [.back] ++ rest) := by simpa using h.tail
  exact (closing?_eq_some_iff _ _ _).mpr ⟨body, htail.append_left, hb, rfl⟩

lemma opening?_of_codeAt (h : CodeAt code pc (.enter v :: (body ++ .back :: rest)))
    (hb : loopsAfter? 0 body = some 0) : opening? code (pc + 1 + body.length) = some pc := by
  have hend := h.length_le (by simp)
  simp only [List.length_cons, List.length_append] at hend
  have hhead : CodeAt code pc (.enter v :: body) := CodeAt.append_left (p := .enter v :: body) h
  exact (opening?_eq_some_iff _ _ _).mpr ⟨v, body, hhead, hb, by omega⟩

end Loop

end Program

end FlipLoop
