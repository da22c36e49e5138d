import FlipLoop.Proofs.Partners
import Mathlib.Data.Finset.Card
import Mathlib.Data.Finset.Range

/-!
# Loops around an instruction

The loops around an index are those that the bracket search from their heads leads past it. In a balanced
program there are as many of them as a count of brackets from the left says, and all that stands between
the head of a loop and its end is deeper than both.
-/

namespace FlipLoop.Program

/-- The index of the end of the loop whose head stands at `start`, if a head stands there. -/
def loopEnd? (code : Array Instr) (start : Nat) : Option Nat :=
  match code[start]? with
  | some (.enter _) => closing? code start
  | _ => none

/-- The heads of the loops that stand around index `i`. A loop does not stand around its own head and
its own end. -/
def loopsAround (code : Array Instr) (i : Nat) : Finset Nat :=
  (Finset.range i).filter fun start => (loopEnd? code start).any fun stop => i < stop

/-- The heads in front of index `i` whose loops are not closed there. -/
def loopsOpen (code : Array Instr) (i : Nat) : Finset Nat :=
  (Finset.range i).filter fun start => (loopEnd? code start).any fun stop => i ≤ stop

/-- The number of loops that are opened and not closed in front of index `i`. -/
def depthBefore (p : Program) (i : Nat) : Nat :=
  Program.enters (p.take i) - Program.backs (p.take i)

section Loops

variable {code : Array Instr} {i j start start' stop : Nat}

lemma mem_loopsAround_iff :
    start ∈ loopsAround code i ↔ start < i ∧ ∃ stop, loopEnd? code start = some stop ∧ i < stop := by
  simp [loopsAround, Option.any_eq_true]

lemma mem_loopsOpen_iff :
    start ∈ loopsOpen code i ↔ start < i ∧ ∃ stop, loopEnd? code start = some stop ∧ i ≤ stop := by
  simp [loopsOpen, Option.any_eq_true]

lemma loopEnd?_eq_some_iff : loopEnd? code start = some stop ↔
    (∃ v, code[start]? = some (.enter v)) ∧ IsClosing code start stop := by
  rw [← closing?_eq_some_iff_isClosing, loopEnd?]
  cases code[start]? with
  | none => simp
  | some i => cases i <;> simp

lemma lt_of_loopEnd (h : loopEnd? code start = some stop) : start < stop :=
  (loopEnd?_eq_some_iff.mp h).2.lt

lemma back_of_loopEnd (h : loopEnd? code start = some stop) : code[stop]? = some .back :=
  (loopEnd?_eq_some_iff.mp h).2.fetched

/-- No two loops have the same end. -/
lemma loopEnd?_inj (h : loopEnd? code start = some stop) (h' : loopEnd? code start' = some stop) :
    start = start' := by
  obtain ⟨⟨v, henter⟩, hclosing⟩ := loopEnd?_eq_some_iff.mp h
  obtain ⟨⟨v', henter'⟩, hclosing'⟩ := loopEnd?_eq_some_iff.mp h'
  have hopening := (isClosing_iff_isOpening henter hclosing.fetched).mp hclosing
  have hopening' := (isClosing_iff_isOpening henter' hclosing'.fetched).mp hclosing'
  rw [← opening?_eq_some_iff_isOpening] at hopening hopening'
  exact Option.some_inj.mp (hopening.symm.trans hopening')

lemma loopsAround_eq_loopsOpen (hi : code[i]? ≠ some .back) : loopsAround code i = loopsOpen code i := by
  ext start
  rw [mem_loopsAround_iff, mem_loopsOpen_iff]
  refine and_congr_right fun _ => exists_congr fun stop => and_congr_right fun hend => ?_
  have hne : i ≠ stop := by
    rintro rfl
    exact hi (back_of_loopEnd hend)
  omega

lemma loopsAround_eq_loopsOpen_succ (hi : ∀ v, code[i]? ≠ some (.enter v)) :
    loopsAround code i = loopsOpen code (i + 1) := by
  ext start
  rw [mem_loopsAround_iff, mem_loopsOpen_iff]
  constructor
  · rintro ⟨hlt, stop, hend, hstop⟩
    exact ⟨by omega, stop, hend, by omega⟩
  · rintro ⟨hlt, stop, hend, hstop⟩
    have hne : start ≠ i := by
      rintro rfl
      obtain ⟨⟨v, henter⟩, -⟩ := loopEnd?_eq_some_iff.mp hend
      exact hi v henter
    exact ⟨by omega, stop, hend, by omega⟩

/-- Behind its head a loop is open. -/
lemma loopsOpen_succ_of_enter (h : loopEnd? code i = some stop) :
    loopsOpen code (i + 1) = insert i (loopsAround code i) := by
  ext start
  rw [Finset.mem_insert, mem_loopsOpen_iff, mem_loopsAround_iff]
  constructor
  · rintro ⟨hlt, stop', hend, hstop⟩
    by_cases hi : start = i
    · exact .inl hi
    · exact .inr ⟨by omega, stop', hend, by omega⟩
  · rintro (rfl | ⟨hlt, stop', hend, hstop⟩)
    · exact ⟨by omega, stop, h, lt_of_loopEnd h⟩
    · exact ⟨by omega, stop', hend, by omega⟩

/-- In front of its end a loop is open. -/
lemma loopsOpen_of_back (h : loopEnd? code start = some i) :
    loopsOpen code i = insert start (loopsAround code i) := by
  ext start'
  rw [Finset.mem_insert, mem_loopsOpen_iff, mem_loopsAround_iff]
  constructor
  · rintro ⟨hlt, stop, hend, hstop⟩
    obtain rfl | hi := Nat.eq_or_lt_of_le hstop
    · exact .inl (loopEnd?_inj hend h)
    · exact .inr ⟨hlt, stop, hend, hi⟩
  · rintro (rfl | ⟨hlt, stop, hend, hstop⟩)
    · exact ⟨lt_of_loopEnd h, i, h, Nat.le_refl i⟩
    · exact ⟨hlt, stop, hend, Nat.le_of_lt hstop⟩

end Loops

section Partners

variable {code : Array Instr} {p : Program} {i depth k : Nat}

/-- Code that closes more than `depth` loops more than it opens closes the one that `depth` others are
in. -/
lemma exists_endsAt (hcode : CodeAt code i p) (h : loopsAfter? (depth + k + 1) p = some 0) :
    ∃ j, EndsAt code i depth j := by
  induction p generalizing i depth with
  | nil => cases h
  | cons a p ih =>
    have hbehind : ∀ depth', loopsAfter? depth [a] = some depth' →
        loopsAfter? (depth' + k + 1) p = some 0 → ∃ j, EndsAt code i depth j := by
      intro depth' ha hp
      obtain ⟨j, hj⟩ := ih hcode.tail hp
      exact ⟨j, endsAt_iff.mpr (.inr ⟨a, depth', hcode.head, ha, hj⟩)⟩
    cases a with
    | flip v => exact hbehind depth rfl h
    | emit => exact hbehind depth rfl h
    | enter v =>
      rw [loopsAfter?, show depth + k + 1 + 1 = depth + 1 + k + 1 by omega] at h
      exact hbehind (depth + 1) rfl h
    | back =>
      cases depth with
      | zero => exact ⟨i, endsAt_iff.mpr (.inl ⟨hcode.head, rfl, rfl⟩)⟩
      | succ depth =>
        rw [show depth + 1 + k + 1 = depth + k + 1 + 1 by omega, loopsAfter?] at h
        exact hbehind depth rfl h

/-- Code that leaves more than `depth` loops open has the head of the one that `depth` others are in. -/
lemma exists_headAt (hcode : CodeAt code 0 p) (h : loopsAfter? 0 p = some (depth + k + 1)) :
    ∃ j, HeadAt code depth p.length j := by
  induction p using List.reverseRecOn generalizing depth k with
  | nil => cases h
  | append_singleton p a ih =>
    obtain ⟨depth', hp, ha⟩ := loopsAfter?_append_eq_some_iff.mp h
    have hfetched : code[p.length]? = some a := by
      have hlast := hcode.append_right.head
      rwa [Nat.zero_add] at hlast
    have hbefore : ∀ d k', loopsAfter? d [a] = some depth → depth' = d + k' + 1 →
        ∃ j, HeadAt code depth (p.length + 1) j := by
      rintro d k' hd rfl
      obtain ⟨j, hj⟩ := ih hcode.append_left hp
      exact ⟨j, headAt_succ_iff.mpr (.inr ⟨a, d, hfetched, hd, hj⟩)⟩
    rw [List.length_append, List.length_singleton]
    cases a with
    | flip v => exact hbefore depth k rfl (Option.some_inj.mp ha)
    | emit => exact hbefore depth k rfl (Option.some_inj.mp ha)
    | enter v =>
      have hdepth : depth' + 1 = depth + k + 1 := Option.some_inj.mp ha
      cases depth with
      | zero => exact ⟨p.length, headAt_succ_iff.mpr (.inl ⟨v, hfetched, rfl, rfl⟩)⟩
      | succ depth => exact hbefore depth k rfl (by omega)
    | back =>
      cases depth' with
      | zero => cases ha
      | succ depth' =>
        obtain rfl : depth' = depth + k + 1 := Option.some_inj.mp ha
        exact hbefore (depth + 1) k rfl (by omega)

end Partners

section Depth

variable {p : Program} {i j k : Nat} {a : Instr}

lemma take_eq_append_segment (p : Program) (hik : i ≤ k) (hkj : k ≤ j) :
    p.take k = p.take i ++ (segment p.toArray i j).take (k - i) := by
  have hsegment : segment p.toArray i j = (p.drop i).take (j - i) := by
    rw [segment, Array.toList_extract, List.extract_eq_take_drop]
  rw [hsegment, List.take_take, Nat.min_eq_left (by omega), ← List.take_add]
  congr 1
  omega

namespace Balanced

lemma loopsAfter?_take (hp : p.Balanced) (i : Nat) :
    loopsAfter? 0 (p.take i) = some (p.depthBefore i) := by
  have hle := hp.backs_take_le i
  rw [loopsAfter?_eq_some_iff, depthBefore]
  refine ⟨by omega, fun n => ?_⟩
  rw [List.take_take]
  have := hp.backs_take_le (min n i)
  omega

lemma loopsAfter?_drop (hp : p.Balanced) (i : Nat) :
    loopsAfter? (p.depthBefore i) (p.drop i) = some 0 := by
  have hall := (balanced_iff_loopsAfter? p).mp hp
  rwa [← List.take_append_drop i p, loopsAfter?_append, hp.loopsAfter?_take, Option.bind_some] at hall

/-- One instruction changes the depth as the count of brackets says. -/
lemma loopsAfter?_singleton (hp : p.Balanced) (hi : p[i]? = some a) :
    loopsAfter? (p.depthBefore i) [a] = some (p.depthBefore (i + 1)) := by
  have hnext := hp.loopsAfter?_take (i + 1)
  rwa [List.take_add_one, hi, loopsAfter?_append, hp.loopsAfter?_take, Option.bind_some] at hnext

lemma depthBefore_succ_of_enter {v : Nat} (hp : p.Balanced) (hi : p[i]? = some (.enter v)) :
    p.depthBefore (i + 1) = p.depthBefore i + 1 :=
  (Option.some_inj.mp (hp.loopsAfter?_singleton hi)).symm

lemma depthBefore_of_back (hp : p.Balanced) (hi : p[i]? = some .back) :
    p.depthBefore i = p.depthBefore (i + 1) + 1 := by
  have hnext := hp.loopsAfter?_singleton hi
  cases hdepth : p.depthBefore i with
  | zero =>
    rw [hdepth] at hnext
    cases hnext
  | succ depth =>
    rw [hdepth] at hnext
    exact congrArg (· + 1) (Option.some_inj.mp hnext)

theorem exists_loopEnd {v : Nat} (hp : p.Balanced) (hi : p[i]? = some (.enter v)) :
    ∃ stop, loopEnd? p.toArray i = some stop := by
  have hrest := hp.loopsAfter?_drop (i + 1)
  rw [hp.depthBefore_succ_of_enter hi, show p.depthBefore i + 1 = 0 + p.depthBefore i + 1 by omega] at hrest
  have hcode : CodeAt p.toArray (i + 1) (p.drop (i + 1)) := by
    intro k hk
    rw [List.getElem?_toArray, List.getElem?_drop]
  obtain ⟨stop, hstop⟩ := exists_endsAt hcode hrest
  have hclosing := (closing?_eq_some_iff _ _ _).mpr hstop
  exact ⟨stop, by rw [loopEnd?, List.getElem?_toArray, hi]; exact hclosing⟩

theorem exists_loopEnd_eq (hp : p.Balanced) (hi : p[i]? = some .back) :
    ∃ start, loopEnd? p.toArray start = some i := by
  have hlt : i < p.length := (List.getElem?_eq_some_iff.mp hi).1
  have hfront := hp.loopsAfter?_take i
  rw [hp.depthBefore_of_back hi, show p.depthBefore (i + 1) + 1 = 0 + p.depthBefore (i + 1) + 1 by omega]
    at hfront
  have hcode : CodeAt p.toArray 0 (p.take i) := by
    intro k hk
    rw [List.length_take] at hk
    rw [Nat.zero_add, List.getElem?_toArray, List.getElem?_take_of_lt (by omega)]
  obtain ⟨start, hstart⟩ := exists_headAt hcode hfront
  have hlength : (p.take i).length = min i p.toArray.size := by simp
  rw [hlength, headAt_iff_isOpening] at hstart
  obtain ⟨v, henter⟩ := hstart.fetched
  have hback : p.toArray[i]? = some .back := by rwa [List.getElem?_toArray]
  exact ⟨start, loopEnd?_eq_some_iff.mpr ⟨⟨v, henter⟩, (isClosing_iff_isOpening henter hback).mpr hstart⟩⟩

/-- The loops open at an index are those that a count of brackets from the left leaves open. -/
theorem card_loopsOpen (hp : p.Balanced) (hi : i ≤ p.length) :
    (loopsOpen p.toArray i).card = p.depthBefore i := by
  induction i with
  | zero => rfl
  | succ i ih =>
    have hbefore := ih (by omega)
    have hfetched : p[i]? = some p[i] := List.getElem?_eq_getElem hi
    have hcode : p.toArray[i]? = some p[i] := by rw [List.getElem?_toArray, hfetched]
    have hnext := hp.loopsAfter?_singleton hfetched
    generalize p[i] = a at hfetched hcode hnext
    cases a with
    | flip v | emit =>
      rw [← loopsAround_eq_loopsOpen_succ (by simp [hcode]), loopsAround_eq_loopsOpen (by simp [hcode]),
        hbefore]
      exact Option.some_inj.mp hnext
    | enter v =>
      obtain ⟨stop, hstop⟩ := hp.exists_loopEnd hfetched
      have hnot : i ∉ loopsAround p.toArray i := by simp [mem_loopsAround_iff]
      rw [loopsOpen_succ_of_enter hstop, Finset.card_insert_of_notMem hnot,
        loopsAround_eq_loopsOpen (by simp [hcode]), hbefore, hp.depthBefore_succ_of_enter hfetched]
    | back =>
      obtain ⟨start, hstart⟩ := hp.exists_loopEnd_eq hfetched
      have hnot : start ∉ loopsAround p.toArray i := by simp [mem_loopsAround_iff, hstart]
      rw [loopsOpen_of_back hstart, Finset.card_insert_of_notMem hnot,
        loopsAround_eq_loopsOpen_succ (by simp [hcode]), hp.depthBefore_of_back hfetched] at hbefore
      omega

lemma card_loopsAround_of_back (hp : p.Balanced) (hi : p[i]? = some .back) :
    (loopsAround p.toArray i).card = p.depthBefore (i + 1) := by
  have hlt : i < p.length := (List.getElem?_eq_some_iff.mp hi).1
  rw [loopsAround_eq_loopsOpen_succ (by simp [hi]), hp.card_loopsOpen hlt]

lemma card_loopsAround_of_ne_back (hp : p.Balanced) (hi : p[i]? = some a) (ha : a ≠ .back) :
    (loopsAround p.toArray i).card = p.depthBefore i := by
  have hlt : i < p.length := (List.getElem?_eq_some_iff.mp hi).1
  rw [loopsAround_eq_loopsOpen (by simp [hi, ha]), hp.card_loopsOpen (Nat.le_of_lt hlt)]

/-- From its head on a loop is one deeper than in front of it, and it is as deep again at its end. -/
theorem depthBefore_of_loopEnd (hp : p.Balanced) (h : loopEnd? p.toArray i = some j) :
    p.depthBefore j = p.depthBefore i + 1 ∧
      ∀ k, i < k → k ≤ j → p.depthBefore i < p.depthBefore k := by
  obtain ⟨⟨v, henter⟩, hclosing⟩ := loopEnd?_eq_some_iff.mp h
  have hhead := hp.depthBefore_succ_of_enter (by rwa [List.getElem?_toArray] at henter)
  have hle := hp.backs_take_le (i + 1)
  have hbody := hclosing.balanced
  have hcounts : ∀ k, i < k → k ≤ j → p.depthBefore k = p.depthBefore i + 1 +
      (Program.enters ((segment p.toArray (i + 1) j).take (k - (i + 1))) -
        Program.backs ((segment p.toArray (i + 1) j).take (k - (i + 1)))) := by
    intro k hik hkj
    have hinside := hbody.backs_take_le (k - (i + 1))
    rw [← hhead, depthBefore, depthBefore, take_eq_append_segment p (i := i + 1) hik hkj]
    simp only [Program.enters, Program.backs, List.countP_append] at *
    omega
  refine ⟨?_, fun k hik hkj => ?_⟩
  · have hlength : (segment p.toArray (i + 1) j).length = j - (i + 1) :=
      length_segment (Nat.le_of_lt (Array.getElem?_eq_some_iff.mp hclosing.fetched).1)
    have hequal := hbody.backs_eq
    rw [hcounts j hclosing.lt (Nat.le_refl j), List.take_of_length_le (by omega)]
    omega
  · rw [hcounts k hik hkj]
    omega

end Balanced

end Depth

end FlipLoop.Program
