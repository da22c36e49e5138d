import FlipLoop.Memory
import Mathlib.Data.List.DropRight
import Mathlib.Tactic.Common

/-!
# The text of a memory

The text of a memory seeds the same memory again, so no two memories have the same one. In the other
direction, of a seed the text keeps which characters are ones, up to the last of them. A text is
therefore a normal form: it never ends in a zero, and its length and its ones can be read off the memory.
-/

namespace FlipLoop.Memory

/-- The bits from index `next` to the last of the set ones. -/
def bits (next : Nat) : List Nat → List Char
  | [] => []
  | v :: ones => List.replicate (v - next) '0' ++ '1' :: bits (v + 1) ones

lemma toList_pushn (s : String) (c : Char) (n : Nat) :
    (s.pushn c n).toList = s.toList ++ List.replicate n c := by
  rw [String.pushn_eq_repeat_push]
  induction n with
  | zero => simp [Nat.repeat]
  | succ n ih =>
    rw [Nat.repeat, String.toList_push, ih, List.append_assoc, List.replicate_succ']

lemma toList_bitsOnto (done : String) (next : Nat) (ones : List Nat) :
    (bitsOnto done next ones).toList = done.toList ++ bits next ones := by
  induction ones generalizing done next with
  | nil => simp [bitsOnto, bits]
  | cons v ones ih =>
    rw [bitsOnto, ih, String.toList_push, toList_pushn, bits]
    simp only [List.append_assoc, List.singleton_append]

theorem toList_text (m : Memory) : m.text.toList = bits 0 m.ones := by
  rw [text, toList_bitsOnto]
  rfl

/-- The text of a memory has no other characters than the two digits. -/
theorem eq_zero_or_one_of_mem_text {m : Memory} {c : Char} (h : c ∈ m.text.toList) :
    c = '0' ∨ c = '1' := by
  have hbits : ∀ ones next, c ∈ bits next ones → c = '0' ∨ c = '1' := by
    intro ones
    induction ones with
    | nil => simp [bits]
    | cons v ones ih =>
      intro next hc
      rw [bits, List.mem_append, List.mem_cons] at hc
      obtain hc | rfl | hc := hc
      · exact .inl (List.eq_of_mem_replicate hc)
      · exact .inr rfl
      · exact ih (v + 1) hc
  rw [toList_text] at h
  exact hbits _ _ h

lemma onesOf_append (start : Nat) (a b : List Char) :
    onesOf start (a ++ b) = onesOf start a ++ onesOf (start + a.length) b := by
  rw [onesOf, List.zipIdx_append, List.filterMap_append]
  rfl

lemma onesOf_replicate_zero (start n : Nat) : onesOf start (List.replicate n '0') = [] := by
  induction n generalizing start with
  | zero => rfl
  | succ n ih =>
    rw [List.replicate_succ, onesOf_cons, if_neg (by decide), ih]

/-- The bits of an ascending list of indices have their ones at exactly these indices. -/
lemma onesOf_bits {next : Nat} {ones : List Nat} (h : ones.Pairwise (· < ·))
    (hnext : ∀ v ∈ ones, next ≤ v) : onesOf next (bits next ones) = ones := by
  induction ones generalizing next with
  | nil => rfl
  | cons v ones ih =>
    obtain ⟨hv, hones⟩ := List.pairwise_cons.mp h
    have hle : next ≤ v := hnext v (by simp)
    rw [bits, onesOf_append, onesOf_replicate_zero, List.nil_append, List.length_replicate,
      show next + (v - next) = v by omega, onesOf_cons, if_pos rfl, ih hones hv]

theorem ofText_text (m : Memory) : ofText m.text = m := by
  have hones : onesOf 0 m.text.toList = m.ones := by
    rw [toList_text]
    exact onesOf_bits m.ascending (fun v _ => Nat.zero_le v)
  cases m
  simp only [ofText, mk.injEq]
  exact hones

/-- The digit that a text has for a character of a seed. -/
def bitOf (c : Char) : Char := if c = '1' then '1' else '0'

lemma rdropWhile_append_cons {α : Type} {p : α → Bool} {c : α} (h : ¬p c = true) (a b : List α) :
    (a ++ c :: b).rdropWhile p = a ++ c :: b.rdropWhile p := by
  induction b using List.reverseRecOn with
  | nil => exact List.rdropWhile_concat_neg p a c h
  | append_singleton b d ih =>
    have hsnoc : a ++ c :: (b ++ [d]) = (a ++ c :: b) ++ [d] := by simp
    rw [hsnoc, List.rdropWhile_concat, List.rdropWhile_concat, ih]
    by_cases hd : p d
    · rw [if_pos hd, if_pos hd]
    · rw [if_neg hd, if_neg hd, ← hsnoc]

/-- Between the ones of a seed there are zeros, and behind the last one there is nothing. The zeros from
`next` to `start` are those in front of the seed. -/
lemma bits_onesOf {next start : Nat} (h : next ≤ start) (seed : List Char) :
    bits next (onesOf start seed) =
      (List.replicate (start - next) '0' ++ seed.map bitOf).rdropWhile (· == '0') := by
  induction seed generalizing next start with
  | nil =>
    have hzeros : ∀ c ∈ List.replicate (start - next) '0' ++ [].map bitOf, (c == '0') = true := by
      simp
    exact (List.rdropWhile_eq_nil_iff.mpr hzeros).symm
  | cons c seed ih =>
    rw [onesOf_cons, List.map_cons]
    by_cases hc : c = '1'
    · have hrest := ih (Nat.le_refl (start + 1))
      rw [Nat.sub_self, List.replicate_zero, List.nil_append] at hrest
      rw [if_pos hc, bits, hrest, bitOf, if_pos hc, rdropWhile_append_cons (by decide)]
    · have hzeros : List.replicate (start + 1 - next) '0' = List.replicate (start - next) '0' ++ ['0'] := by
        rw [← List.replicate_succ', show start + 1 - next = start - next + 1 by omega]
      rw [if_neg hc, ih (by omega), hzeros, bitOf, if_neg hc, List.append_assoc, List.singleton_append]

theorem text_ofText (seed : String) :
    (ofText seed).text = String.ofList ((seed.toList.map bitOf).rdropWhile (· == '0')) := by
  have hbits := bits_onesOf (Nat.le_refl 0) seed.toList
  rw [Nat.sub_self, List.replicate_zero, List.nil_append] at hbits
  rw [← String.toList_inj, String.toList_ofList, toList_text]
  exact hbits

lemma text_inj {m m' : Memory} : m.text = m'.text ↔ m = m' :=
  Function.LeftInverse.injective ofText_text |>.eq_iff

lemma getLast?_bits (next : Nat) {ones : List Nat} (h : ones ≠ []) :
    (bits next ones).getLast? = some '1' := by
  induction ones generalizing next with
  | nil => exact absurd rfl h
  | cons v ones ih =>
    rw [bits, List.getLast?_append_cons]
    by_cases hones : ones = []
    · rw [hones]
      rfl
    · rw [List.getLast?_cons, ih (v + 1) hones]
      rfl

/-- The bits reach from `next` to the last of the ones. -/
lemma length_bits {next : Nat} {ones : List Nat} (h : ones.Pairwise (· < ·))
    (hnext : ∀ v ∈ ones, next ≤ v) :
    next + (bits next ones).length = ones.getLast?.elim next (· + 1) := by
  induction ones generalizing next with
  | nil => rfl
  | cons v ones ih =>
    obtain ⟨hv, hones⟩ := List.pairwise_cons.mp h
    have hle : next ≤ v := hnext v (by simp)
    have hlast : (v :: ones).getLast?.elim next (· + 1) = ones.getLast?.elim (v + 1) (· + 1) := by
      rw [List.getLast?_cons]
      cases ones.getLast? <;> rfl
    have hrest : v + 1 + (bits (v + 1) ones).length = ones.getLast?.elim (v + 1) (· + 1) := ih hones hv
    rw [hlast, ← hrest, bits, List.length_append, List.length_replicate, List.length_cons]
    omega

lemma count_bits (next : Nat) (ones : List Nat) : (bits next ones).count '1' = ones.length := by
  induction ones generalizing next with
  | nil => rfl
  | cons v ones ih =>
    have hzeros : (List.replicate (v - next) '0').count '1' = 0 := by
      rw [List.count_replicate]
      rfl
    rw [bits, List.count_append, List.count_cons_self, hzeros, ih, Nat.zero_add, List.length_cons]

lemma text_eq_empty_or_getLast? (m : Memory) :
    m.text = "" ∨ m.text.toList.getLast? = some '1' := by
  rw [toList_text]
  by_cases h : m.ones = []
  · left
    rw [text, h]
    rfl
  · exact .inr (getLast?_bits 0 h)

lemma length_text (m : Memory) : m.text.length = m.highest?.elim 0 (· + 1) := by
  have hlength := length_bits m.ascending fun v _ => Nat.zero_le v
  rw [Nat.zero_add] at hlength
  rw [← String.length_toList, toList_text]
  exact hlength

lemma fits_iff_length_text (m : Memory) : m.Fits ↔ m.text.length ≤ largestCapacity := by
  rw [length_text]
  cases h : m.highest? <;> simp [Fits, h]

lemma count_text (m : Memory) : m.text.toList.count '1' = m.card := by
  rw [toList_text]
  exact count_bits 0 m.ones

end FlipLoop.Memory

namespace FlipLoop

/-- The text of a memory is a lossless normal form. It seeds the memory again, and the text of a seeded
memory has a one for each character 1 of the seed and a zero for every other one, without the zeros at
the end. Memories are therefore equal exactly if their texts are. A text is empty or ends in a one, the
highest set bit gives its length, and it has as many ones as bits are set. -/
theorem memory_text_is_canonical :
    (∀ m : Memory, Memory.ofText m.text = m) ∧
      (∀ seed : String, (Memory.ofText seed).text =
        String.ofList ((seed.toList.map Memory.bitOf).rdropWhile (· == '0'))) ∧
      (∀ m m' : Memory, m = m' ↔ m.text = m'.text) ∧
      ∀ m : Memory, (m.text = "" ∨ m.text.toList.getLast? = some '1') ∧
        m.text.length = m.highest?.elim 0 (· + 1) ∧ m.text.toList.count '1' = m.card := by
  refine ⟨Memory.ofText_text, Memory.text_ofText, fun m m' => Memory.text_inj.symm, ?_⟩
  exact fun m => ⟨m.text_eq_empty_or_getLast?, m.length_text, m.count_text⟩

/-- Characters are counted, however many bytes they take. -/
example : (Memory.ofText "\u00e91x100").text = "0101" := by decide

end FlipLoop
