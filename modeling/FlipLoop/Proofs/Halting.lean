import FlipLoop.Chance.Draw
import FlipLoop.Proofs.Parallel
import FlipLoop.Proofs.StructuredRuns
import Mathlib.Combinatorics.Pigeonhole

/-!
# A budget that decides halting

The walk of a program depends on its counter and on the bits of its decisive variables, which its loops
test and its flips change; a bit that is only tested never changes. A program that halts never comes to
the same counter with the same such bits again, so the number of these pairs bounds its walk.
-/

namespace FlipLoop

namespace Program

def operands (p : Program) : Finset Nat :=
  (p.filterMap Instr.operand?).toFinset

/-- The variables that the program both flips and tests. -/
def decisive (p : Program) : Finset Nat :=
  p.operands.filter fun v => .flip v ∈ p ∧ .enter v ∈ p

lemma mem_operands {p : Program} {i : Instr} {v : Nat} (hi : i ∈ p) (hv : i.operand? = some v) :
    v ∈ p.operands := by
  unfold operands
  rw [List.mem_toFinset, List.mem_filterMap]
  exact ⟨i, hi, hv⟩

lemma mem_decisive {p : Program} {v : Nat} : v ∈ p.decisive ↔ .flip v ∈ p ∧ .enter v ∈ p := by
  unfold decisive
  rw [Finset.mem_filter]
  constructor
  · exact fun h => h.2
  · intro h
    exact ⟨mem_operands h.1 rfl, h⟩

/-- What the further walk of the program depends on: the counter and the bits of the decisive
variables. -/
def view (p : Program) (s : State) : Nat × Finset Nat :=
  (s.pc, p.decisive.filter fun v => s.memory.get v = true)

/-- The views of the states that have not halted. -/
def views (p : Program) : Finset (Nat × Finset Nat) :=
  Finset.range p.length ×ˢ p.decisive.powerset

/-- More instructions than this are never executed by a program that halts. -/
def haltingBudget (p : Program) : Nat :=
  p.length * 2 ^ p.decisive.card

lemma card_views (p : Program) : p.views.card = p.haltingBudget := by
  unfold views haltingBudget
  rw [Finset.card_product, Finset.card_range, Finset.card_powerset]

lemma view_mem_views {p : Program} {s : State} (h : s.halted p.toArray = false) :
    p.view s ∈ p.views := by
  have hpc : s.pc < p.length := by simpa [State.halted] using h
  refine Finset.mem_product.mpr ⟨Finset.mem_range.mpr hpc, ?_⟩
  exact Finset.mem_powerset.mpr (Finset.filter_subset _ _)

section Repetition

variable {p : Program} {m t : Memory} {s s' : State} {i j count : Nat} {l l' shown : List String}

lemma get_eq_of_view_eq (h : Leads p.toArray i ⟨0, m⟩ s l) (h' : Leads p.toArray j ⟨0, m⟩ s' l')
    (hview : p.view s = p.view s') {v : Nat} (hv : .enter v ∈ p) :
    s.memory.get v = s'.memory.get v := by
  by_cases hflip : .flip v ∈ p
  · have hbits := Finset.ext_iff.mp (congrArg Prod.snd hview) v
    simp only [view, Finset.mem_filter, mem_decisive, hflip, hv, true_and] at hbits
    exact Bool.eq_iff_iff.mpr hbits
  · rw [State.get_of_walk h.walk_eq hflip, State.get_of_walk h'.walk_eq hflip]

/-- A program that halts does not come to the same view twice. -/
lemma view_ne_of_lt (h : p.HaltsAfter m count t shown) (hs : Leads p.toArray i ⟨0, m⟩ s l)
    (hs' : Leads p.toArray j ⟨0, m⟩ s' l') (hij : i < j) (hj : j ≤ count) : p.view s ≠ p.view s' := by
  intro hview
  obtain ⟨u, hu, hhalted, -⟩ := h
  obtain ⟨n, rfl⟩ := Nat.exists_eq_add_of_le hj
  obtain ⟨rest, hrest, -⟩ := hs'.exists_rest hu
  have hparallel : State.Parallel (s.memory.difference s'.memory) s s' :=
    ⟨congrArg Prod.fst hview, rfl⟩
  have huntested : Untested p.toArray (s.memory.difference s'.memory) :=
    untested_difference fun v hv => get_eq_of_view_eq hs hs' hview hv
  -- the rest of the walk can be taken from `s` already, and leads to a halted state earlier
  have hwalk := hparallel.walk huntested n
  rw [hrest.walk_eq] at hwalk
  cases hearly : s.walk? p.toArray n with
  | none =>
    rw [hearly] at hwalk
    cases hwalk
  | some u' =>
    rw [hearly] at hwalk
    cases hwalk with
    | some hends =>
      have hhalted' : u'.halted p.toArray = true := hends.halted_eq.trans hhalted
      have hle := (hs.trans ⟨hearly, rfl⟩).le_of_halted hhalted' hu
      omega

/-- A program that halts does so within its budget: before it halts, none of its views comes twice. -/
theorem HaltsAfter.le_haltingBudget (h : p.HaltsAfter m count t shown) : count ≤ p.haltingBudget := by
  by_contra hlt
  have hreach : ∀ i, ∃ s, i < count → s.halted p.toArray = false ∧
      Leads p.toArray i ⟨0, m⟩ s (State.shown p.toArray i ⟨0, m⟩) := by
    obtain ⟨u, hu, hhalted, -⟩ := h
    intro i
    by_cases hi : i < count
    · obtain ⟨n, rfl⟩ := Nat.exists_eq_add_of_le (Nat.le_of_lt hi)
      obtain ⟨s, hs⟩ := hu.exists_prefix
      refine ⟨s, fun _ => ⟨?_, hs⟩⟩
      by_contra hend
      have := hs.le_of_halted (by simpa using hend) hu
      omega
    · exact ⟨u, fun hi' => absurd hi' hi⟩
  choose s hs using hreach
  have hcard : p.views.card < (Finset.range count).card := by
    rw [card_views, Finset.card_range]
    exact Nat.lt_of_not_le hlt
  have hviews : ∀ i ∈ Finset.range count, p.view (s i) ∈ p.views := by
    intro i hi
    exact view_mem_views (hs i (Finset.mem_range.mp hi)).1
  obtain ⟨i, hi, j, hj, hne, hview⟩ := Finset.exists_ne_map_eq_of_card_lt_of_maps_to hcard hviews
  have hi := Finset.mem_range.mp hi
  have hj := Finset.mem_range.mp hj
  rcases Nat.lt_or_gt_of_ne hne with hij | hij
  · exact view_ne_of_lt h (hs i hi).2 (hs j hj).2 hij (Nat.le_of_lt hj) hview
  · exact view_ne_of_lt h (hs j hj).2 (hs i hi).2 hij (Nat.le_of_lt hi) hview.symm

end Repetition

end Program

/-- With unlimited capacity, a run that exceeds a limit no smaller than the halting budget exceeds every
limit. -/
theorem Program.exceeds_of_haltingBudget_le {p : Program} (hp : p.Balanced) {memory : Memory} {σ : Type}
    {observer : Observer σ} (ho : observer.Accepts) {w : σ} {limit : Nat}
    (hbudget : p.haltingBudget ≤ limit)
    (hlimit : ((Machine.start p memory limit).run observer w).result = .error (.stepLimit limit)) :
    (¬∃ count t shown, p.HaltsAfter memory count t shown) ∧ ∀ limit',
      ((Machine.start p memory limit').run observer w).result = .error (.stepLimit limit') := by
  have hruns := fun limit => Machine.run_accepted hp ho memory limit w
  rw [← Machine.run_recorded observer _ (w, [])] at hlimit
  have hnever : ¬∃ count t shown, p.HaltsAfter memory count t shown := by
    rintro ⟨count, t, shown, hhalts⟩
    have hcount := hhalts.le_haltingBudget
    obtain ⟨s, hs, hhalted, -⟩ := hhalts
    cases hruns limit with
    | halts shown' within walk result record => cases hlimit.symm.trans result
    | exceeds shown' steps walk result record =>
      have := hs.le_of_halted hhalted walk
      omega
  refine ⟨hnever, fun limit' => ?_⟩
  rw [← Machine.run_recorded observer _ (w, [])]
  cases hruns limit' with
  | halts shown within walk result record => exact absurd ⟨_, _, _, walk⟩ hnever
  | exceeds shown steps walk result record => exact result

/-- The halting budget decides whether a program halts. Its walk ends within the budget if it ends at
all, and so does every run that ends well; a run that exceeds a limit no smaller than the budget exceeds
every larger limit as well, unless a text on its way there does not fit. -/
theorem haltingBudget_decides {p : Program} (hp : p.Balanced) (memory : Memory) :
    (∀ count t shown, p.HaltsAfter memory count t shown → count ≤ p.haltingBudget) ∧
      ∀ (σ : Type) (observer : Observer σ) (w : σ), observer.Accepts → ∀ limit out,
        (Machine.start p memory limit).run? observer w = some out →
          (∀ text, out.result = .ok text → out.machine.steps ≤ p.haltingBudget) ∧
          (p.haltingBudget ≤ limit → out.result = .error (.stepLimit limit) →
            (¬∃ count t shown, p.HaltsAfter memory count t shown) ∧
              ∀ limit', limit ≤ limit' → limit' + 1 < UInt64.size →
                (∀ out', (Machine.start p memory limit').run? observer w = some out' →
                  out'.result = .error (.stepLimit limit')) ∧
                ((Machine.start p memory limit').TextsFit →
                  ∃ out', (Machine.start p memory limit').run? observer w = some out')) := by
  refine ⟨fun count t shown h => h.le_haltingBudget, ?_⟩
  intro σ observer w ho limit out hout
  obtain rfl := Machine.run_eq_of_run? hout
  constructor
  · intro text htext
    have haccepted := Machine.run_accepted hp ho memory limit w
    rw [← Machine.run_recorded observer _ (w, [])] at htext ⊢
    cases haccepted with
    | halts shown within walk result record => exact walk.le_haltingBudget
    | exceeds shown steps walk result record => cases htext.symm.trans result
  · intro hbudget hexceeds
    obtain ⟨hnever, hlarger⟩ := Program.exceeds_of_haltingBudget_le hp ho hbudget hexceeds
    refine ⟨hnever, fun limit' _ hlimit' => ⟨?_, ?_⟩⟩
    · intro out' hout'
      rw [← Machine.run_eq_of_run? hout']
      exact hlarger limit'
    · intro hfit
      exact ⟨_, (Machine.Follows.start p memory limit').run?_eq hlimit' hfit observer w⟩

/-- One variable is flipped and tested. The program halts where it is set, and six instructions show
that it never halts where it is not. -/
theorem haltingBudget_of_clear_and_set :
    let p : Program := [.flip 0, .enter 0, .back]
    let run := fun memory limit => (Machine.start p memory limit).run? Observer.silent ()
    p.haltingBudget = 6 ∧
      (∃ out, run .empty 6 = some out ∧ out.result = .error (.stepLimit 6)) ∧
      (∀ limit out, 6 ≤ limit → limit + 1 < UInt64.size → run .empty limit = some out →
        out.result = .error (.stepLimit limit)) ∧
      (¬∃ count t shown, p.HaltsAfter .empty count t shown) ∧
      p.HaltsAfter (Memory.ofText "1") 2 .empty [] ∧ 2 ≤ p.haltingBudget ∧
      ∃ out, run (Memory.ofText "1") 2 = some out ∧ out.result = .ok "" ∧
        out.machine.steps ≤ p.haltingBudget := by
  intro p run
  have hp : p.Balanced := by decide
  have hbudget : p.haltingBudget = 6 := by decide
  have ho : Observer.silent.Accepts := fun _ _ => rfl
  have hhalts : p.HaltsAfter (Memory.ofText "1") 2 .empty [] :=
    ⟨⟨3, .empty⟩, ⟨by decide, by decide⟩, by decide, rfl⟩
  obtain ⟨out, hout⟩ := Option.isSome_iff_exists.mp (show (run .empty 6).isSome = true by decide)
  obtain ⟨out', hout'⟩ :=
    Option.isSome_iff_exists.mp (show (run (Memory.ofText "1") 2).isSome = true by decide)
  have hexceeds : out.result = .error (.stepLimit 6) := by
    rw [← Machine.run_eq_of_run? hout]
    decide
  have hok : out'.result = .ok "" := by
    rw [← Machine.run_eq_of_run? hout']
    decide
  obtain ⟨-, hclear⟩ := haltingBudget_decides hp .empty
  obtain ⟨hset, hset'⟩ := haltingBudget_decides hp (Memory.ofText "1")
  obtain ⟨hnever, hlarger⟩ :=
    (hclear Unit Observer.silent () ho 6 out hout).2 (Nat.le_of_eq hbudget) hexceeds
  refine ⟨hbudget, ⟨out, hout, hexceeds⟩, ?_, hnever, hhalts, hset _ _ _ hhalts, out', hout', hok,
    (hset' Unit Observer.silent () ho 2 out' hout').1 "" hok⟩
  intro limit out'' hle hlimit hout''
  exact (hlarger limit hle hlimit).1 out'' hout''

/-- A loop is drawn that shows the memory each time and then flips a bit beyond the capacity of a text. It
exceeds its halting budget as a limit, and breaks down under the next larger limit. -/
theorem endless_loop_breaks_down :
    let dice : Chance.Xoshiro := ⟨0, 107843981059627, 231385329298778, 107843981059627⟩
    let drawn := (Chance.drawProgram .xoshiro { length := 3, variableBound := UInt64.size - 1 } dice).1
    let p : Program := [.enter 0, .emit, .flip 13860136582798915263, .back]
    let run := fun limit => (Machine.start p (Memory.ofText "1") limit).run? Observer.silent ()
    drawn = p ∧ p.Balanced ∧ p.haltingBudget = 4 ∧
      (run 4).map (·.result) = some (.error (.stepLimit 4)) ∧ (run 5).isNone = true :=
  ⟨by decide +kernel, by decide, by decide, by decide, by decide⟩

end FlipLoop
