/-!
# Memory

The memory is an unbounded row of bits, nearly all of them clear. It is kept as the ascending list of
the indices that are set, so that equal memories are equal lists whatever was done to reach them. Its
text is the bits up to the highest one.
-/

namespace FlipLoop

/-- The most bytes that can be asked for in one piece. -/
def largestCapacity : Nat := UInt64.size / 2 - 1

structure Memory where
  /-- The indices of the set bits. -/
  ones : List Nat
  ascending : ones.Pairwise (· < ·)
  deriving DecidableEq

namespace Memory

theorem mem_takeWhile_lt {l : List Nat} (h : l.Pairwise (· < ·)) (v w : Nat) :
    w ∈ l.takeWhile (· < v) ↔ w ∈ l ∧ w < v := by
  induction l with
  | nil => simp
  | cons a l ih =>
    rw [List.pairwise_cons] at h
    have := h.1 w
    by_cases ha : a < v <;> simp [ha, ih h.2] <;> grind

theorem mem_dropWhile_le {l : List Nat} (h : l.Pairwise (· < ·)) (v w : Nat) :
    w ∈ l.dropWhile (· ≤ v) ↔ w ∈ l ∧ v < w := by
  induction l with
  | nil => simp
  | cons a l ih =>
    rw [List.pairwise_cons] at h
    have := h.1 w
    by_cases ha : a ≤ v <;> simp [ha, ih h.2] <;> grind

def empty : Memory := ⟨[], List.Pairwise.nil⟩

def get (m : Memory) (v : Nat) : Bool :=
  (m.ones.dropWhile (· < v)).head? == some v

def set (m : Memory) (v : Nat) (bit : Bool) : Memory where
  ones := m.ones.takeWhile (· < v) ++ ((if bit then [v] else []) ++ m.ones.dropWhile (· ≤ v))
  ascending := by
    have below := fun w => (mem_takeWhile_lt m.ascending v w).1
    have above := fun w => (mem_dropWhile_le m.ascending v w).1
    have low := m.ascending.sublist (List.takeWhile_sublist (· < v))
    have high := m.ascending.sublist (List.dropWhile_sublist (· ≤ v))
    cases bit <;> simp [List.pairwise_append, low, high] <;> grind

def flip (m : Memory) (v : Nat) : Memory :=
  m.set v (!m.get v)

/-- Flips a bit and gives its new value as well. -/
def toggle (m : Memory) (v : Nat) : Bool × Memory :=
  if m.get v then (false, m.set v false) else (true, m.set v true)

def card (m : Memory) : Nat := m.ones.length

def highest? (m : Memory) : Option Nat := m.ones.getLast?

def isClear (m : Memory) : Bool := m.ones.isEmpty

/-- The positions from `start` on at which `seed` has the character 1. -/
def onesOf (start : Nat) (seed : List Char) : List Nat :=
  (seed.zipIdx start).filterMap fun (c, k) => if c = '1' then some k else none

theorem onesOf_cons (start : Nat) (c : Char) (seed : List Char) :
    onesOf start (c :: seed) =
      if c = '1' then start :: onesOf (start + 1) seed else onesOf (start + 1) seed := by
  by_cases h : c = '1' <;> simp [onesOf, h]

theorem le_of_mem_onesOf {start w : Nat} {seed : List Char} (h : w ∈ onesOf start seed) :
    start ≤ w := by
  induction seed generalizing start with
  | nil => simp [onesOf] at h
  | cons c seed ih =>
    rw [onesOf_cons] at h
    split at h
    · rcases List.mem_cons.1 h with rfl | h
      · exact Nat.le_refl _
      · exact Nat.le_of_succ_le (ih h)
    · exact Nat.le_of_succ_le (ih h)

theorem pairwise_onesOf (start : Nat) (seed : List Char) : (onesOf start seed).Pairwise (· < ·) := by
  induction seed generalizing start with
  | nil => simp [onesOf]
  | cons c seed ih =>
    rw [onesOf_cons]
    split
    · exact List.pairwise_cons.2 ⟨fun w hw => le_of_mem_onesOf hw, ih _⟩
    · exact ih _

/-- The memory that a text seeds: a character 1 sets the bit at its position, and any other character
leaves the bit clear. -/
def ofText (seed : String) : Memory :=
  ⟨onesOf 0 seed.toList, pairwise_onesOf 0 seed.toList⟩

/-- Adds to `done` the bits from index `next` to the last of the set ones. -/
def bitsOnto (done : String) (next : Nat) : List Nat → String
  | [] => done
  | v :: ones => bitsOnto ((done.pushn '0' (v - next)).push '1') (v + 1) ones

/-- The bits from index 0 to the highest one; a memory without ones has the empty text. -/
def text (m : Memory) : String := bitsOnto "" 0 m.ones

/-- The text of the memory, which is asked for in one piece, fits into the largest capacity. -/
def Fits (m : Memory) : Prop :=
  ∀ high ∈ m.highest?, high + 1 ≤ largestCapacity

instance (m : Memory) : Decidable m.Fits :=
  inferInstanceAs (Decidable (∀ high ∈ m.highest?, high + 1 ≤ largestCapacity))

theorem get_eq_true_iff (m : Memory) (v : Nat) : m.get v = true ↔ v ∈ m.ones := by
  rw [get, beq_iff_eq]
  have h := m.ascending
  generalize m.ones = l at h
  induction l with
  | nil => simp
  | cons a l ih =>
    rw [List.pairwise_cons] at h
    by_cases ha : a < v
    · simp only [List.dropWhile_cons, ha, decide_true, if_true, ih h.2, List.mem_cons]
      exact ⟨Or.inr, fun hv => hv.resolve_left (by omega)⟩
    · simp only [List.dropWhile_cons, ha, decide_false, Bool.false_eq_true, if_false,
        List.head?_cons, Option.some.injEq, List.mem_cons]
      refine ⟨fun hv => Or.inl hv.symm, fun hv => hv.elim Eq.symm fun hv => ?_⟩
      have := h.1 v hv
      omega

theorem mem_ones_set (m : Memory) (v w : Nat) (bit : Bool) :
    w ∈ (m.set v bit).ones ↔ if w = v then bit = true else w ∈ m.ones := by
  simp only [set, List.mem_append, mem_takeWhile_lt m.ascending, mem_dropWhile_le m.ascending]
  cases bit <;> simp <;> grind

theorem get_set (m : Memory) (v w : Nat) (bit : Bool) :
    (m.set v bit).get w = if w = v then bit else m.get w := by
  rw [Bool.eq_iff_iff, get_eq_true_iff, mem_ones_set]
  split
  · rfl
  · rw [get_eq_true_iff]

theorem get_flip (m : Memory) (v w : Nat) :
    (m.flip v).get w = if w = v then !m.get v else m.get w :=
  get_set m v w _

theorem toggle_eq (m : Memory) (v : Nat) : m.toggle v = (!m.get v, m.flip v) := by
  unfold toggle flip
  cases m.get v <;> rfl

@[simp]
theorem get_empty (v : Nat) : empty.get v = false := rfl

end Memory

end FlipLoop
