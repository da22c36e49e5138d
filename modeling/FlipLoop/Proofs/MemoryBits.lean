import FlipLoop.Memory
import Mathlib.Data.List.Sort
import Mathlib.Data.Set.Card

/-!
# The memory as a row of bits

A row of bits is a function from the indices. The memory goes along with it through every sequence of
accesses: what one access does to the memory it does to the bits, and all that can be asked of the memory
follows from the bits that it holds. Two memories with the same bits are the same, so nothing is left of
the way in which they were reached.
-/

namespace FlipLoop

namespace Memory

theorem eq_of_get_eq {m m' : Memory} (h : ∀ v, m.get v = m'.get v) : m = m' := by
  have hmem : ∀ v, v ∈ m.ones ↔ v ∈ m'.ones := by
    intro v
    rw [← get_eq_true_iff, ← get_eq_true_iff, h]
  have hones := m.ascending.eq_of_mem_iff m'.ascending hmem
  cases m
  cases m'
  congr

theorem flip_flip (m : Memory) (v : Nat) : (m.flip v).flip v = m := by
  apply eq_of_get_eq
  intro w
  rw [get_flip, get_flip]
  by_cases hw : w = v
  · simp [hw]
  · rw [if_neg hw, get_flip, if_neg hw]

inductive Access where
  /-- The memory is replaced by the one that a text seeds. -/
  | load (seed : String)
  | set (v : Nat) (bit : Bool)
  | flip (v : Nat)

namespace Access

/-- The index of the one bit that is touched, unless the whole memory is replaced. -/
def index? : Access → Option Nat
  | load _ => none
  | set v _ => some v
  | flip v => some v

def onMemory (m : Memory) : Access → Memory
  | load seed => ofText seed
  | set v bit => m.set v bit
  | flip v => (m.toggle v).2

/-- The same access to a row of bits. -/
def onBits (bits : Nat → Bool) : Access → Nat → Bool
  | load seed => fun v => decide (seed.toList[v]? = some '1')
  | set v bit => Function.update bits v bit
  | flip v => Function.update bits v (!bits v)

variable {a b : Access} {bits bits' : Nat → Bool} {v w : Nat}

lemma onBits_of_ne (h : a.index? = some v) (hw : w ≠ v) : a.onBits bits w = bits w := by
  cases a with
  | load seed => cases h
  | set u bit | flip u =>
    obtain rfl : u = v := Option.some_inj.mp h
    exact Function.update_of_ne hw _ _

lemma onBits_congr (h : a.index? = some v) (heq : bits v = bits' v) :
    a.onBits bits v = a.onBits bits' v := by
  cases a with
  | load seed => cases h
  | set u bit | flip u =>
    obtain rfl : u = v := Option.some_inj.mp h
    simp only [onBits, Function.update_self, heq]

lemma onBits_comm (ha : a.index? = some v) (hb : b.index? = some w) (hne : v ≠ w) :
    b.onBits (a.onBits bits) = a.onBits (b.onBits bits) := by
  funext u
  by_cases huv : u = v
  · subst huv
    rw [onBits_of_ne hb hne]
    exact onBits_congr ha (onBits_of_ne hb hne).symm
  · rw [onBits_of_ne ha huv]
    by_cases huw : u = w
    · subst huw
      exact onBits_congr hb (onBits_of_ne ha huv)
    · rw [onBits_of_ne hb huw, onBits_of_ne hb huw, onBits_of_ne ha huv]

/-- Accesses to one index leave the bits at all others alone. -/
lemma foldl_onBits_of_ne {touches : List Access} (h : ∀ a ∈ touches, a.index? = some v) (hw : w ≠ v) :
    touches.foldl onBits bits w = bits w := by
  induction touches generalizing bits with
  | nil => rfl
  | cons a touches ih =>
    obtain ⟨ha, htouches⟩ := List.forall_mem_cons.mp h
    rw [List.foldl_cons, ih htouches, onBits_of_ne ha hw]

end Access

/-- The memory behind a sequence of accesses to a clear one. -/
def replay (history : List Access) : Memory := history.foldl Access.onMemory empty

/-- The bits behind the same accesses to a row of clear bits. -/
def bitsAfter (history : List Access) : Nat → Bool := history.foldl Access.onBits fun _ => false

/-- The memory has these bits. -/
def Holds (m : Memory) (bits : Nat → Bool) : Prop := ∀ v, m.get v = bits v

lemma mem_onesOf_iff {start w : Nat} {seed : List Char} :
    w ∈ onesOf start seed ↔ start ≤ w ∧ seed[w - start]? = some '1' := by
  simp only [onesOf, List.mem_filterMap, Prod.exists, List.mem_zipIdx_iff_le_and_getElem?_sub]
  constructor
  · rintro ⟨c, k, ⟨hle, hc⟩, hk⟩
    by_cases hone : c = '1'
    · rw [if_pos hone] at hk
      obtain rfl := Option.some_inj.mp hk
      exact ⟨hle, hone ▸ hc⟩
    · rw [if_neg hone] at hk
      cases hk
  · rintro ⟨hle, hc⟩
    exact ⟨'1', w, ⟨hle, hc⟩, if_pos rfl⟩

lemma get_ofText (seed : String) (v : Nat) :
    (ofText seed).get v = decide (seed.toList[v]? = some '1') := by
  rw [Bool.eq_iff_iff, get_eq_true_iff, decide_eq_true_eq]
  exact mem_onesOf_iff.trans (by simp)

namespace Holds

variable {m m' : Memory} {bits bits' : Nat → Bool}

/-- One access keeps the memory and the bits together. -/
theorem access (h : m.Holds bits) (a : Access) : (a.onMemory m).Holds (a.onBits bits) := by
  intro w
  cases a with
  | load seed => exact get_ofText seed w
  | set v bit => rw [Access.onMemory, Access.onBits, get_set, Function.update_apply, h w]
  | flip v => rw [Access.onMemory, Access.onBits, toggle_eq, get_flip, Function.update_apply, h v, h w]

theorem foldl (h : m.Holds bits) (history : List Access) :
    (history.foldl Access.onMemory m).Holds (history.foldl Access.onBits bits) := by
  induction history generalizing m bits with
  | nil => exact h
  | cons a history ih => exact ih (h.access a)

lemma mem_ones_iff (h : m.Holds bits) (v : Nat) : v ∈ m.ones ↔ bits v = true := by
  rw [← get_eq_true_iff, h v]

lemma eq_iff (h : m.Holds bits) (h' : m'.Holds bits') : m = m' ↔ ∀ v, bits v = bits' v := by
  constructor
  · rintro rfl v
    rw [← h v, ← h' v]
  · intro heq
    apply eq_of_get_eq
    intro v
    rw [h v, h' v, heq v]

lemma encard_eq (h : m.Holds bits) : {v | bits v = true}.encard = m.card := by
  have hset : {v | bits v = true} = (m.ones.toFinset : Set Nat) := by
    ext v
    simp [h.mem_ones_iff]
  rw [hset, Set.encard_coe_eq_coe_finsetCard, List.toFinset_card_of_nodup m.ascending.nodup]
  rfl

lemma isGreatest_of_highest? (h : m.Holds bits) {v : Nat} (hv : m.highest? = some v) :
    IsGreatest {w | bits w = true} v := by
  obtain ⟨below, hones⟩ := List.getLast?_eq_some_iff.mp hv
  have hascending := m.ascending
  rw [hones, List.pairwise_append] at hascending
  constructor
  · exact (h.mem_ones_iff v).mp (by simp [hones])
  · intro w hw
    have hmem := (h.mem_ones_iff w).mpr hw
    rw [hones, List.mem_append, List.mem_singleton] at hmem
    rcases hmem with hbelow | rfl
    · exact Nat.le_of_lt (hascending.2.2 w hbelow v (List.mem_singleton_self v))
    · exact Nat.le_refl w

lemma isClear_iff (h : m.Holds bits) : m.isClear = true ↔ ∀ v, bits v = false := by
  rw [isClear, List.isEmpty_iff, List.eq_nil_iff_forall_not_mem]
  apply forall_congr'
  intro v
  rw [h.mem_ones_iff, Bool.not_eq_true]

lemma highest?_eq_none_iff (h : m.Holds bits) : m.highest? = none ↔ ∀ v, bits v = false := by
  rw [← h.isClear_iff, isClear, List.isEmpty_iff]
  exact List.getLast?_eq_none_iff

lemma highest?_eq_some_iff (h : m.Holds bits) (v : Nat) :
    m.highest? = some v ↔ IsGreatest {w | bits w = true} v := by
  refine ⟨h.isGreatest_of_highest?, fun hv => ?_⟩
  cases hlast : m.highest? with
  | none =>
    have hclear := h.highest?_eq_none_iff.mp hlast v
    exact absurd hv.1 (by simp [hclear])
  | some w => rw [(h.isGreatest_of_highest? hlast).unique hv]

end Holds

theorem holds_replay (history : List Access) : (replay history).Holds (bitsAfter history) := by
  have hclear : empty.Holds fun _ => false := get_empty
  exact hclear.foldl history

lemma replay_eq_iff (history history' : List Access) :
    replay history = replay history' ↔ ∀ v, bitsAfter history v = bitsAfter history' v :=
  (holds_replay history).eq_iff (holds_replay history')

/-- Accesses to one index that clear it in the end leave no trace if it was clear before. -/
lemma replay_touches_clear {history touches : List Access} {v : Nat}
    (h : ∀ a ∈ touches, a.index? = some v) (hclear : bitsAfter history v = false) :
    replay (history ++ touches ++ [Access.set v false]) = replay history := by
  rw [replay_eq_iff]
  intro w
  rw [bitsAfter, List.foldl_append, List.foldl_append, ← bitsAfter]
  change Function.update (touches.foldl Access.onBits (bitsAfter history)) v false w = _
  by_cases hw : w = v
  · rw [hw, Function.update_self, hclear]
  · rw [Function.update_of_ne hw, Access.foldl_onBits_of_ne h hw]

lemma replay_flip_flip (history : List Access) (v : Nat) :
    replay (history ++ [Access.flip v, .flip v]) = replay history := by
  rw [replay, List.foldl_append, ← replay]
  change (((replay history).toggle v).2.toggle v).2 = replay history
  rw [toggle_eq, toggle_eq]
  exact flip_flip (replay history) v

lemma replay_comm {a b : Access} {v w : Nat} (ha : a.index? = some v) (hb : b.index? = some w)
    (hne : v ≠ w) (history : List Access) :
    replay (history ++ [a, b]) = replay (history ++ [b, a]) := by
  rw [replay_eq_iff]
  intro u
  rw [bitsAfter, bitsAfter, List.foldl_append, List.foldl_append]
  exact congrFun (Access.onBits_comm ha hb hne) u

end Memory

open Memory

/-- The memory refines a row of bits. Behind every sequence of accesses it has the bits that the same
accesses leave in the row, flips tell the new bit, and the number of ones, the highest of them and their
absence are those of the row. Two sequences lead to the same memory exactly if they lead to the same bits.
So accesses to two indices commute, and an index that is flipped twice, or touched and cleared again, is
as if it had been left alone. -/
theorem memory_refines_row_of_bits :
    (∀ history : List Access,
      let m := replay history
      let bits := bitsAfter history
      (∀ v, m.get v = bits v) ∧
        (∀ v, (m.toggle v).1 = bitsAfter (history ++ [Access.flip v]) v) ∧
        {v | bits v = true}.encard = m.card ∧
        (∀ v, m.highest? = some v ↔ IsGreatest {w | bits w = true} v) ∧
        (m.highest? = none ↔ ∀ v, bits v = false) ∧
        (m.isClear = true ↔ ∀ v, bits v = false)) ∧
    (∀ history history' : List Access,
      replay history = replay history' ↔
        ∀ v, bitsAfter history v = bitsAfter history' v) ∧
    (∀ (history : List Access) (a b : Access) (v w : Nat),
      a.index? = some v → b.index? = some w → v ≠ w →
        replay (history ++ [a, b]) = replay (history ++ [b, a])) ∧
    ∀ (history : List Access) (v : Nat),
      replay (history ++ [Access.flip v, .flip v]) = replay history ∧
        ∀ touches : List Access, (∀ a ∈ touches, a.index? = some v) →
          bitsAfter history v = false →
            replay (history ++ touches ++ [Access.set v false]) = replay history := by
  refine ⟨?_, replay_eq_iff, ?_, ?_⟩
  · intro history m bits
    have hholds : m.Holds bits := holds_replay history
    refine ⟨hholds, ?_, hholds.encard_eq, hholds.highest?_eq_some_iff, hholds.highest?_eq_none_iff,
      hholds.isClear_iff⟩
    intro v
    rw [toggle_eq, bitsAfter, List.foldl_append, ← bitsAfter]
    change (!m.get v) = Function.update bits v (!bits v) v
    rw [Function.update_self, hholds v]
  · exact fun history a b v w ha hb hne => replay_comm ha hb hne history
  · exact fun history v => ⟨replay_flip_flip history v, fun touches =>
      replay_touches_clear⟩

/-- A seeded memory in which a bit is set and another one is flipped back, and a shorter way to the same
bits. -/
theorem memory_refines_bits_of_two_histories :
    let history : List Access := [.load "1x01", .set 7 true, .flip 3, .set 2 false]
    let shorter : List Access := [.flip 7, .set 0 true]
    let far := 18446744073709551615
    ((replay history).get 7 = true ∧ ((replay history).toggle 3).1 = true ∧
      {w | bitsAfter history w = true}.encard = 2 ∧
      IsGreatest {w | bitsAfter history w = true} 7) ∧
    (∀ v, bitsAfter history v = bitsAfter shorter v) ∧
    replay (history ++ [Access.flip far, .set 0 false]) =
      replay (history ++ [Access.set 0 false, .flip far]) ∧
    replay (history ++ [Access.flip far, .flip far]) = replay history ∧
    replay (history ++ [Access.flip 3, .set 3 true] ++ [Access.set 3 false]) = replay history := by
  intro history shorter far
  obtain ⟨hbits, hsame, hcomm, htrace⟩ := memory_refines_row_of_bits
  obtain ⟨hget, htoggle, hcard, hhighest, -, -⟩ := hbits history
  obtain ⟨-, htouches⟩ := htrace history 3
  have hequal : replay history = replay shorter := by decide
  refine ⟨⟨(hget 7).trans (by decide), (htoggle 3).trans (by decide), hcard, ?_⟩, ?_, ?_, ?_, ?_⟩
  · exact (hhighest 7).mp (by decide)
  · exact (hsame history shorter).mp hequal
  · exact hcomm history (.flip far) (.set 0 false) far 0 rfl rfl (by decide)
  · exact (htrace history far).1
  · exact htouches [.flip 3, .set 3 true] (by simp [Access.index?]) (by decide)

end FlipLoop
