import FlipLoop.Machine.State
import Mathlib.Tactic.Common

/-!
# Walks through a program

`Leads code n s t l` says that `n` instructions of `code` take the state `s` to `t` and show the
snapshots `l` on the way. Walks compose, they are determined by their length, and none of them
leaves a halted state.
-/

namespace FlipLoop

namespace State

/-- What the instruction at the counter can do. -/
inductive Advance (code : Array Instr) (s : State) : State → Prop
  | flip (v : Nat) (fetched : code[s.pc]? = some (.flip v)) :
    Advance code s ⟨s.pc + 1, s.memory.flip v⟩
  | enter (v : Nat) (fetched : code[s.pc]? = some (.enter v)) (set : s.memory.get v = true) :
    Advance code s ⟨s.pc + 1, s.memory⟩
  | skip (v stop : Nat) (fetched : code[s.pc]? = some (.enter v)) (clear : s.memory.get v = false)
    (closing : Program.closing? code s.pc = some stop) : Advance code s ⟨stop + 1, s.memory⟩
  | back (start : Nat) (fetched : code[s.pc]? = some .back)
    (opening : Program.opening? code s.pc = some start) : Advance code s ⟨start, s.memory⟩
  | emit (fetched : code[s.pc]? = some .emit) : Advance code s ⟨s.pc + 1, s.memory⟩

theorem advance_of_next {code : Array Instr} {s t : State} (h : s.next? code = some t) :
    Advance code s t := by
  unfold next? at h
  cases hi : code[s.pc]? with
  | none =>
    rw [hi] at h
    cases h
  | some i =>
    rw [hi] at h
    dsimp only at h
    unfold State.after at h
    cases i with
    | flip v =>
      obtain rfl := Option.some_inj.mp h
      exact .flip v hi
    | enter v =>
      cases hv : s.memory.get v with
      | true =>
        simp only [hv, if_true] at h
        obtain rfl := Option.some_inj.mp h
        exact .enter v hi hv
      | false =>
        simp only [hv, Bool.false_eq_true, if_false] at h
        cases hj : Program.closing? code s.pc with
        | none =>
          rw [hj] at h
          cases h
        | some stop =>
          rw [hj] at h
          obtain rfl := Option.some_inj.mp h
          exact .skip v stop hi hv hj
    | back =>
      dsimp only at h
      cases hj : Program.opening? code s.pc with
      | none =>
        rw [hj] at h
        cases h
      | some start =>
        rw [hj] at h
        obtain rfl := Option.some_inj.mp h
        exact .back start hi hj
    | emit =>
      obtain rfl := Option.some_inj.mp h
      exact .emit hi

lemma mem_snapshots_iff {code : Array Instr} {s : State} {text : String} :
    text ∈ s.snapshots code ↔ code[s.pc]? = some .emit ∧ text = s.memory.text := by
  unfold snapshots
  split
  · next emits => simp [emits]
  · next hother => simpa using fun emits _ => hother emits

/-- What is shown on a walk is the text of a memory on it. -/
lemma mem_shown_iff {code : Array Instr} {s : State} {n : Nat} {text : String} :
    text ∈ s.shown code n ↔
      ∃ k t, k < n ∧ s.walk? code k = some t ∧ code[t.pc]? = some .emit ∧ text = t.memory.text := by
  induction n generalizing s with
  | zero => simp [shown]
  | succ n ih =>
    rw [shown, List.mem_append, mem_snapshots_iff]
    constructor
    · rintro (⟨emits, htext⟩ | hlater)
      · exact ⟨0, s, Nat.zero_lt_succ n, rfl, emits, htext⟩
      · split at hlater
        · next u hu =>
          obtain ⟨k, t, hk, hwalk, hemits⟩ := ih.mp hlater
          exact ⟨k + 1, t, Nat.succ_lt_succ hk, Option.bind_eq_some_iff.mpr ⟨u, hu, hwalk⟩, hemits⟩
        · cases hlater
    · rintro ⟨k, t, hk, hwalk, hemits⟩
      cases k with
      | zero =>
        obtain rfl := Option.some_inj.mp hwalk
        exact .inl hemits
      | succ k =>
        obtain ⟨u, hu, hwalk⟩ := Option.bind_eq_some_iff.mp hwalk
        rw [hu]
        exact .inr (ih.mpr ⟨k, t, Nat.lt_of_succ_lt_succ hk, hwalk, hemits⟩)

end State

structure Leads (code : Array Instr) (n : Nat) (s t : State) (l : List String) : Prop where
  walk_eq : s.walk? code n = some t
  shown_eq : s.shown code n = l

namespace Leads

variable {code : Array Instr} {m n : Nat} {s t u : State} {l l' : List String}

lemma refl (code : Array Instr) (s : State) : Leads code 0 s s [] :=
  ⟨rfl, rfl⟩

lemma head (h : s.next? code = some t) (ht : Leads code n t u l) :
    Leads code (n + 1) s u (s.snapshots code ++ l) := by
  constructor
  · rw [State.walk?, h]
    exact ht.walk_eq
  · rw [State.shown, h]
    simp only [ht.shown_eq]

lemma one (h : s.next? code = some t) : Leads code 1 s t (s.snapshots code) := by
  simpa using head h (refl code t)

lemma shown_add (h : Leads code m s t l) (n : Nat) :
    s.shown code (m + n) = l ++ t.shown code n := by
  induction m generalizing s l with
  | zero =>
    obtain rfl : s = t := Option.some_inj.mp h.walk_eq
    obtain rfl : [] = l := h.shown_eq
    simp
  | succ m ih =>
    have hw := h.walk_eq
    rw [State.walk?] at hw
    obtain ⟨v, hv, hvt⟩ := Option.bind_eq_some_iff.mp hw
    have hl := h.shown_eq
    rw [State.shown, hv] at hl
    rw [show m + 1 + n = m + n + 1 by omega, State.shown, hv, ← hl, List.append_assoc]
    dsimp only
    rw [ih ⟨hvt, rfl⟩]

lemma trans (h : Leads code m s t l) (h' : Leads code n t u l') :
    Leads code (m + n) s u (l ++ l') := by
  constructor
  · rw [State.walk?_add, h.walk_eq]
    exact h'.walk_eq
  · rw [h.shown_add, h'.shown_eq]

lemma snoc (h : Leads code n s t l) (ht : t.next? code = some u) :
    Leads code (n + 1) s u (l ++ t.snapshots code) :=
  h.trans (one ht)

lemma unique (h : Leads code n s t l) (h' : Leads code n s u l') : t = u ∧ l = l' :=
  ⟨Option.some_inj.mp (h.walk_eq.symm.trans h'.walk_eq), h.shown_eq.symm.trans h'.shown_eq⟩

/-- A shorter walk from the same state is the beginning of a longer one. -/
lemma exists_rest (h : Leads code m s t l) (h' : Leads code (m + n) s u l') :
    ∃ r, Leads code n t u r ∧ l' = l ++ r := by
  have hw := h'.walk_eq
  rw [State.walk?_add, h.walk_eq] at hw
  have hr : Leads code n t u (t.shown code n) := ⟨hw, rfl⟩
  exact ⟨_, hr, (h'.unique (h.trans hr)).2⟩

lemma exists_prefix (h : Leads code (m + n) s u l) : ∃ t, Leads code m s t (s.shown code m) := by
  have hw := h.walk_eq
  rw [State.walk?_add] at hw
  obtain ⟨t, ht, -⟩ := Option.bind_eq_some_iff.mp hw
  exact ⟨t, ht, rfl⟩

/-- Nothing is shown behind the end of the program. -/
lemma shown_of_halted (h : Leads code m s t l) (ht : t.halted code = true) (hmn : m ≤ n) :
    s.shown code n = l := by
  have hend : ∀ n, t.shown code n = [] := by
    intro n
    simp only [State.halted, decide_eq_true_eq] at ht
    cases n with
    | zero => rfl
    | succ n => simp [State.shown, State.snapshots, State.next?, ht]
  obtain ⟨k, rfl⟩ := Nat.exists_eq_add_of_le hmn
  rw [h.shown_add, hend, List.append_nil]

lemma eq_zero_of_halted (h : Leads code n s t l) (hs : s.halted code = true) : n = 0 := by
  cases n with
  | zero => rfl
  | succ n =>
    have hw := h.walk_eq
    rw [State.walk?, State.next?_eq_none_of_halted hs] at hw
    cases hw

/-- A walk to a halted state is at least as long as every other one. -/
lemma le_of_halted (h : Leads code m s t l) (ht : t.halted code = true)
    (h' : Leads code n s u l') : n ≤ m := by
  by_contra hn
  obtain ⟨k, rfl⟩ := Nat.exists_eq_add_of_lt (Nat.lt_of_not_le hn)
  obtain ⟨r, hr, -⟩ := h.exists_rest (n := k + 1) h'
  have := hr.eq_zero_of_halted ht
  omega

end Leads

/-- Started on `m`, the program `p` halts after exactly `count` instructions, with the memory `t`,
and has shown these snapshots. -/
def Program.HaltsAfter (p : Program) (m : Memory) (count : Nat) (t : Memory)
    (shown : List String) : Prop :=
  ∃ s, Leads p.toArray count ⟨0, m⟩ s shown ∧ s.halted p.toArray = true ∧ s.memory = t

namespace Program.HaltsAfter

variable {p : Program} {m t t' : Memory} {count count' : Nat} {shown shown' : List String}

lemma unique (h : p.HaltsAfter m count t shown) (h' : p.HaltsAfter m count' t' shown') :
    count = count' ∧ t = t' ∧ shown = shown' := by
  obtain ⟨s, hs, hhalt, rfl⟩ := h
  obtain ⟨s', hs', hhalt', rfl⟩ := h'
  obtain rfl : count = count' := Nat.le_antisymm (hs'.le_of_halted hhalt' hs) (hs.le_of_halted hhalt hs')
  obtain ⟨rfl, rfl⟩ := hs.unique hs'
  exact ⟨rfl, rfl, rfl⟩

lemma lt_of_not_halted {s : State} (h : p.HaltsAfter m count t shown)
    (hs : Leads p.toArray count' ⟨0, m⟩ s shown') (hrun : s.halted p.toArray = false) :
    count' < count := by
  obtain ⟨u, hu, hhalt, -⟩ := h
  have hle := hu.le_of_halted hhalt hs
  obtain rfl | hlt := Nat.eq_or_lt_of_le hle
  · rw [(hu.unique hs).1, hrun] at hhalt
    cases hhalt
  · exact hlt

end Program.HaltsAfter

end FlipLoop
