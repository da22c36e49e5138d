import FlipLoop.Program.Derivation
import FlipLoop.Proofs.Drawing
import FlipLoop.Proofs.Fitting
import FlipLoop.Proofs.Grammar

/-!
# Indices that a program can reach

An instruction sets no bit but its operand, so the highest index of a memory on the way of a program is
below what bounds the operands and the first memory. Operands drawn are below the number of variables,
and those of a text are below its length: no text that can be held leads to one that does not fit.
-/

namespace FlipLoop

namespace State

variable {code : Array Instr} {s t : State} {n bound : Nat}

/-- An instruction sets no bit but its operand. -/
lemma ones_lt_of_next (h : s.next? code = some t) (hcode : ∀ i ∈ code, ∀ v ∈ i.operand?, v < bound)
    (hs : ∀ v ∈ s.memory.ones, v < bound) : ∀ v ∈ t.memory.ones, v < bound := by
  cases advance_of_next h with
  | flip v fetched =>
    have hv : v < bound := hcode _ (Array.mem_of_getElem? fetched) v rfl
    intro w hw
    by_cases heq : w = v
    · rwa [heq]
    · rw [Memory.flip, Memory.mem_ones_set, if_neg heq] at hw
      exact hs w hw
  | _ => exact hs

lemma ones_lt_of_walk (h : s.walk? code n = some t) (hcode : ∀ i ∈ code, ∀ v ∈ i.operand?, v < bound)
    (hs : ∀ v ∈ s.memory.ones, v < bound) : ∀ v ∈ t.memory.ones, v < bound := by
  induction n generalizing s with
  | zero =>
    obtain rfl := Option.some_inj.mp h
    exact hs
  | succ n ih =>
    obtain ⟨u, hu, hut⟩ := Option.bind_eq_some_iff.mp h
    exact ih hut (ones_lt_of_next hu hcode hs)

end State

lemma Memory.fits_of_ones_lt {memory : Memory} {bound : Nat} (h : ∀ v ∈ memory.ones, v < bound)
    (hbound : bound ≤ largestCapacity) : memory.Fits :=
  fun high hhigh => Nat.le_trans (h high (List.mem_of_getLast? hhigh)) hbound

namespace Machine

variable {p : Program} {memory : Memory} {limit bound n : Nat} {s : State}

/-- A program whose operands are below a capacity leads to no text that does not fit. -/
lemma fits_of_walk (hp : ∀ i ∈ p, ∀ v ∈ i.operand?, v < bound) (hm : ∀ v ∈ memory.ones, v < bound)
    (hbound : bound ≤ largestCapacity) (hwalk : State.walk? p.toArray n ⟨0, memory⟩ = some s) :
    s.memory.Fits := by
  have hcode : ∀ i ∈ p.toArray, ∀ v ∈ i.operand?, v < bound :=
    fun i hi => hp i (List.mem_toArray.mp hi)
  exact Memory.fits_of_ones_lt (State.ones_lt_of_walk hwalk hcode hm) hbound

theorem textsFit_of_operand_lt (hp : ∀ i ∈ p, ∀ v ∈ i.operand?, v < bound)
    (hm : ∀ v ∈ memory.ones, v < bound) (hbound : bound ≤ largestCapacity) (limit : Nat) :
    (start p memory limit).TextsFit := by
  intro t ht
  cases ht with
  | shown within walk emits => exact fits_of_walk hp hm hbound walk
  | last within walk halted => exact fits_of_walk hp hm hbound walk

end Machine

lemma Chance.operand_lt_of_mem_drawProgram {γ : Type} (dice : Dice γ) (recipe : Recipe) (g : γ) :
    ∀ i ∈ (drawProgram dice recipe g).1, ∀ v ∈ i.operand?, v < max recipe.variableBound 1 := by
  obtain ⟨done, depth, hdrawn, -, hprogram⟩ := exists_drawn dice recipe g
  rw [hprogram]
  intro i hi
  obtain hi | hi := List.mem_append.mp hi
  · exact hdrawn.operand_lt i (List.mem_reverse.mp hi)
  · obtain rfl := List.eq_of_mem_replicate hi
    exact fun v hv => nomatch hv

/-! ### Texts -/

lemma Derivation.bars_mem_tokens (d : Derivation) :
    ∀ i ∈ d.program, ∀ v ∈ i.operand?, Token.bars v ∈ d.tokens := by
  induction d with
  | done => exact fun i hi => nomatch hi
  | flip w rest ih =>
    intro i hi v hv
    obtain rfl | hi := List.mem_cons.mp hi
    · obtain rfl : w = v := Option.some_inj.mp hv
      exact .head _
    · exact .tail _ (ih i hi v hv)
  | emit count rest ih =>
    intro i hi v hv
    obtain rfl | hi := List.mem_cons.mp hi
    · cases hv
    · exact .tail _ (ih i hi v hv)
  | loop w body rest ihbody ihrest =>
    intro i hi v hv
    rw [tokens, List.mem_cons, List.mem_cons, List.mem_append, List.mem_cons]
    obtain rfl | hi := List.mem_cons.mp hi
    · obtain rfl : w = v := Option.some_inj.mp hv
      exact .inr (.inl rfl)
    obtain hi | hi := List.mem_append.mp hi
    · exact .inr (.inr (.inl (ihbody i hi v hv)))
    obtain rfl | hi := List.mem_cons.mp hi
    · cases hv
    · exact .inr (.inr (.inr (.inr (ihrest i hi v hv))))

lemma length_le_of_mem_splitOnP {α : Type} (p : α → Bool) (l : List α) :
    ∀ piece ∈ l.splitOnP p, piece.length ≤ l.length := by
  induction l with
  | nil => simp
  | cons a l ih =>
    rw [List.splitOnP_cons_eq_if_modifyHead]
    cases hp : l.splitOnP p with
    | nil => split <;> simp
    | cons first rest =>
      rw [hp, List.forall_mem_cons] at ih
      intro piece hpiece
      split at hpiece
      · obtain rfl | rfl | hpiece := by simpa using hpiece
        · exact Nat.zero_le _
        · exact Nat.le_succ_of_le ih.1
        · exact Nat.le_succ_of_le (ih.2 piece hpiece)
      · obtain rfl | hpiece := by simpa using hpiece
        · exact Nat.succ_le_succ ih.1
        · exact Nat.le_succ_of_le (ih.2 piece hpiece)

lemma Token.length_le_of_mem_ofText {source : String} {t : Token} (h : t ∈ ofText source) :
    t.length ≤ source.length := by
  obtain ⟨marks, hmarks, rfl⟩ := List.mem_map.mp (List.mem_filter.mp h).1
  have hpiece := length_le_of_mem_splitOnP Mark.isGap _ marks hmarks
  have hkept : (source.toList.filterMap Mark.ofChar?).length ≤ source.toList.length :=
    List.length_filterMap_le _ _
  have hglyphs : (marks.filterMap Mark.glyph?).length ≤ marks.length := List.length_filterMap_le _ _
  exact Nat.le_trans hglyphs (Nat.le_trans hpiece hkept)

/-- A variable is written with one bar more than its number. -/
theorem Program.operand_lt_of_ofSource {source : String} {p : Program} (h : ofSource source = .ok p) :
    ∀ i ∈ p, ∀ v ∈ i.operand?, v < source.length := by
  obtain ⟨d, htokens, rfl⟩ := exists_derivation_of_ofTokens h
  intro i hi v hv
  have hmem := d.bars_mem_tokens i hi v hv
  rw [← htokens] at hmem
  have hlength := Token.length_le_of_mem_ofText hmem
  rwa [Token.bars, List.length_replicate] at hlength

lemma Memory.lt_of_mem_onesOf {start w : Nat} {seed : List Char} (h : w ∈ onesOf start seed) :
    w < start + seed.length := by
  induction seed generalizing start with
  | nil => simp [onesOf] at h
  | cons c seed ih =>
    have hrest : w ∈ onesOf (start + 1) seed → w < start + (c :: seed).length := by
      intro h
      have := ih h
      rw [List.length_cons]
      omega
    rw [onesOf_cons] at h
    split at h
    · obtain rfl | h := List.mem_cons.mp h
      · exact Nat.lt_add_of_pos_right (Nat.zero_lt_succ _)
      · exact hrest h
    · exact hrest h

/-- Texts of a length that can be held lead to no text that does not fit, whatever the limit. -/
theorem Machine.textsFit_of_ofSource {source seed : String} {p : Program}
    (h : Program.ofSource source = .ok p) (hsource : source.length ≤ largestCapacity)
    (hseed : seed.length ≤ largestCapacity) (limit : Nat) :
    (start p (Memory.ofText seed) limit).TextsFit := by
  have hcode : ∀ i ∈ p, ∀ v ∈ i.operand?, v < max source.length seed.length := by
    intro i hi v hv
    exact Nat.lt_of_lt_of_le (Program.operand_lt_of_ofSource h i hi v hv) (Nat.le_max_left _ _)
  have hmemory : ∀ v ∈ (Memory.ofText seed).ones, v < max source.length seed.length := by
    intro v hv
    have hlt : v < seed.length := by simpa [String.length_toList] using Memory.lt_of_mem_onesOf hv
    exact Nat.lt_of_lt_of_le hlt (Nat.le_max_right _ _)
  exact textsFit_of_operand_lt hcode hmemory (Nat.max_le.mpr ⟨hsource, hseed⟩) limit

/-- What an evaluation runs does not break down: its texts can be held, and its limit is not the
greatest. -/
theorem Machine.run?_of_ofSource {source seed : String} {p : Program}
    (h : Program.ofSource source = .ok p) (hsource : source.length ≤ largestCapacity)
    (hseed : seed.length ≤ largestCapacity) {limit : Nat} (hlimit : limit + 1 < UInt64.size) {σ : Type}
    (observer : Observer σ) (w : σ) :
    (start p (Memory.ofText seed) limit).run? observer w =
      some ((start p (Memory.ofText seed) limit).run observer w) :=
  (Follows.start p _ limit).run?_eq hlimit (textsFit_of_ofSource h hsource hseed limit) observer w

end FlipLoop
