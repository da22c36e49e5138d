import FlipLoop.Machine.State
import FlipLoop.Proofs.Matching

/-!
# Partners of brackets in arbitrary code

The two searches find their bracket exactly if the code in between is balanced, also in code that is not
balanced itself and from positions where no bracket stands or no code is left. So there is one partner at
most, and where a head and an end are partners each search finds the other bracket.
-/

namespace FlipLoop

namespace Program

/-- The instructions from index `i` on and in front of index `j`. -/
def segment (code : Array Instr) (i j : Nat) : Program :=
  (code.extract i j).toList

/-- A `back` stands at `j`, behind `pc`, and the code between `pc` and `j` is balanced. -/
structure IsClosing (code : Array Instr) (pc j : Nat) : Prop where
  lt : pc < j
  fetched : code[j]? = some .back
  balanced : (segment code (pc + 1) j).Balanced

/-- An `enter` stands at `i`, in front of `pc` and of the end of the code, and the code behind it up to
there is balanced. -/
structure IsOpening (code : Array Instr) (pc i : Nat) : Prop where
  lt : i < min pc code.size
  fetched : ∃ v, code[i]? = some (.enter v)
  balanced : (segment code (i + 1) (min pc code.size)).Balanced

variable {code : Array Instr} {pc i j : Nat} {p : Program}

lemma getElem?_segment (code : Array Instr) (i j k : Nat) :
    (segment code i j)[k]? = if k < j - i then code[i + k]? else none := by
  rw [segment, Array.toList_extract, List.extract_eq_take_drop, List.getElem?_take]
  by_cases hk : k < j - i
  · rw [if_pos hk, if_pos hk, List.getElem?_drop, Array.getElem?_toList]
  · rw [if_neg hk, if_neg hk]

lemma length_segment (hj : j ≤ code.size) : (segment code i j).length = j - i := by
  rw [segment, Array.length_toList, Array.size_extract]
  omega

lemma codeAt_segment (hj : j ≤ code.size) : CodeAt code i (segment code i j) := by
  intro k hk
  rw [length_segment hj] at hk
  rw [getElem?_segment, if_pos hk]

lemma segment_of_codeAt (h : CodeAt code i p) : segment code i (i + p.length) = p := by
  apply List.ext_getElem?
  intro k
  rw [getElem?_segment, Nat.add_sub_cancel_left]
  by_cases hk : k < p.length
  · rw [if_pos hk, h k hk]
  · rw [if_neg hk, List.getElem?_eq_none (Nat.le_of_not_lt hk)]

theorem endsAt_iff_isClosing : EndsAt code (pc + 1) 0 j ↔ IsClosing code pc j := by
  constructor
  · rintro ⟨body, hcode, hloops, rfl⟩
    constructor
    · omega
    · exact hcode.append_right.head
    · rw [segment_of_codeAt hcode.append_left]
      exact (balanced_iff_loopsAfter? body).mpr hloops
  · rintro ⟨hlt, hback, hbalanced⟩
    have hsize : j < code.size := (Array.getElem?_eq_some_iff.mp hback).1
    have hlength := length_segment (i := pc + 1) (Nat.le_of_lt hsize)
    have hend : pc + 1 + (segment code (pc + 1) j).length = j := by omega
    refine ⟨segment code (pc + 1) j, ?_, (balanced_iff_loopsAfter? _).mp hbalanced, hend.symm⟩
    apply (codeAt_segment (Nat.le_of_lt hsize)).append
    rw [hend]
    exact .cons hback (.nil _ _)

theorem headAt_iff_isOpening : HeadAt code 0 (min pc code.size) i ↔ IsOpening code pc i := by
  constructor
  · rintro ⟨v, body, hcode, hloops, hend⟩
    constructor
    · omega
    · exact ⟨v, hcode.head⟩
    · rw [hend, segment_of_codeAt hcode.tail]
      exact (balanced_iff_loopsAfter? body).mpr hloops
  · rintro ⟨hlt, ⟨v, henter⟩, hbalanced⟩
    have hsize := Nat.min_le_right pc code.size
    have hlength := length_segment (i := i + 1) hsize
    refine ⟨v, segment code (i + 1) (min pc code.size), ?_, ?_, by omega⟩
    · exact .cons henter (codeAt_segment hsize)
    · exact (balanced_iff_loopsAfter? _).mp hbalanced

theorem closing?_eq_some_iff_isClosing (code : Array Instr) (pc j : Nat) :
    closing? code pc = some j ↔ IsClosing code pc j :=
  (closing?_eq_some_iff code pc j).trans endsAt_iff_isClosing

theorem opening?_eq_some_iff_isOpening (code : Array Instr) (pc i : Nat) :
    opening? code pc = some i ↔ IsOpening code pc i :=
  (opening?_eq_some_iff code pc i).trans headAt_iff_isOpening

/-- The partner of a partner is where the search began. -/
lemma isClosing_iff_isOpening {v : Nat} (hi : code[i]? = some (.enter v))
    (hj : code[j]? = some .back) : IsClosing code i j ↔ IsOpening code j i := by
  have hmin : min j code.size = j :=
    Nat.min_eq_left (Nat.le_of_lt (Array.getElem?_eq_some_iff.mp hj).1)
  constructor
  · rintro ⟨hlt, -, hbalanced⟩
    exact ⟨by rwa [hmin], ⟨v, hi⟩, by rwa [hmin]⟩
  · rintro ⟨hlt, -, hbalanced⟩
    rw [hmin] at hlt hbalanced
    exact ⟨hlt, hj, hbalanced⟩

end Program

namespace State

/-- An `enter` of a clear variable fails exactly if the search behind it finds nothing. -/
lemma after_enter_eq_noLoopEnd_iff (code : Array Instr) (pc : Nat) {memory : Memory} {v : Nat}
    (hv : memory.get v = false) : State.after code ⟨pc, memory⟩ (.enter v) = .error (.noLoopEnd pc) ↔
      Program.closing? code pc = none := by
  unfold State.after
  simp only [hv, Bool.false_eq_true, if_false]
  cases Program.closing? code pc <;> simp

lemma after_back_eq_noLoopStart_iff (code : Array Instr) (pc : Nat) (memory : Memory) :
    State.after code ⟨pc, memory⟩ .back = .error (.noLoopStart pc) ↔
      Program.opening? code pc = none := by
  unfold State.after
  dsimp only
  cases Program.opening? code pc <;> simp

end State

/-- The bracket search is exact in every code and from every position. Each search gives the only bracket
with balanced code in between, and nothing if there is none, which an instruction that needs the bracket
reports with its own position. From a head and an end the two searches are inverse to each other. -/
theorem bracket_search_is_exact (code : Array Instr) :
    (∀ pc,
      (∀ j, Program.closing? code pc = some j ↔ Program.IsClosing code pc j) ∧
      (∀ j j', Program.IsClosing code pc j → Program.IsClosing code pc j' → j = j') ∧
      (Program.closing? code pc = none ↔ ¬∃ j, Program.IsClosing code pc j) ∧
      ∀ memory v, memory.get v = false →
        (State.after code ⟨pc, memory⟩ (.enter v) = .error (.noLoopEnd pc) ↔
          ¬∃ j, Program.IsClosing code pc j)) ∧
    (∀ pc,
      (∀ i, Program.opening? code pc = some i ↔ Program.IsOpening code pc i) ∧
      (∀ i i', Program.IsOpening code pc i → Program.IsOpening code pc i' → i = i') ∧
      (Program.opening? code pc = none ↔ ¬∃ i, Program.IsOpening code pc i) ∧
      ∀ memory, State.after code ⟨pc, memory⟩ .back = .error (.noLoopStart pc) ↔
        ¬∃ i, Program.IsOpening code pc i) ∧
    ∀ i j v, code[i]? = some (.enter v) → code[j]? = some .back →
      (Program.closing? code i = some j ↔ Program.opening? code j = some i) := by
  have hclosing := Program.closing?_eq_some_iff_isClosing code
  have hopening := Program.opening?_eq_some_iff_isOpening code
  refine ⟨fun pc => ?_, fun pc => ?_, fun i j v hi hj => ?_⟩
  · have hnone : Program.closing? code pc = none ↔ ¬∃ j, Program.IsClosing code pc j := by
      simp only [Option.eq_none_iff_forall_ne_some, ne_eq, hclosing, not_exists]
    refine ⟨hclosing pc, fun j j' hj hj' => ?_, hnone, fun memory v hv => ?_⟩
    · rw [← hclosing] at hj hj'
      exact Option.some_inj.mp (hj.symm.trans hj')
    · exact (State.after_enter_eq_noLoopEnd_iff code pc hv).trans hnone
  · have hnone : Program.opening? code pc = none ↔ ¬∃ i, Program.IsOpening code pc i := by
      simp only [Option.eq_none_iff_forall_ne_some, ne_eq, hopening, not_exists]
    refine ⟨hopening pc, fun i i' hi hi' => ?_, hnone, fun memory => ?_⟩
    · rw [← hopening] at hi hi'
      exact Option.some_inj.mp (hi.symm.trans hi')
    · exact (State.after_back_eq_noLoopStart_iff code pc memory).trans hnone
  · rw [hclosing, hopening]
    exact Program.isClosing_iff_isOpening hi hj

/-- An end without a head, nested loops, and a head without an end. -/
theorem bracket_search_of_unbalanced :
    let code : Array Instr := #[.back, .enter 0, .enter 1, .emit, .back, .back, .enter 2, .flip 0]
    Program.IsClosing code 1 5 ∧ Program.opening? code 5 = some 1 ∧
      (¬∃ j, Program.IsClosing code 6 j) ∧
      State.after code ⟨6, .empty⟩ (.enter 2) = .error (.noLoopEnd 6) ∧
      (¬∃ i, Program.IsOpening code 0 i) ∧ Program.IsOpening code 100 6 := by
  intro code
  obtain ⟨hclosing, hopening, hinverse⟩ := bracket_search_is_exact code
  have hloop : Program.closing? code 1 = some 5 := by decide
  have hend : Program.closing? code 6 = none := by decide
  have hstart : Program.opening? code 0 = none := by decide
  have hbeyond : Program.opening? code 100 = some 6 := by decide
  obtain ⟨hloops, -, -, -⟩ := hclosing 1
  obtain ⟨-, -, hnone, hfault⟩ := hclosing 6
  obtain ⟨-, -, hnone', -⟩ := hopening 0
  obtain ⟨hpast, -, -, -⟩ := hopening 100
  have hnever := hnone.mp hend
  exact ⟨(hloops 5).mp hloop, (hinverse 1 5 0 rfl rfl).mp hloop, hnever,
    (hfault .empty 2 rfl).mpr hnever, hnone'.mp hstart, (hpast 6).mp hbeyond⟩

end FlipLoop
