import FlipLoop.Proofs.MemoryBits
import FlipLoop.Proofs.Truncation

/-!
# Flips that cancel each other

Two flips of one variable, wherever they are put into a balanced program, are put into one of the blocks
of its structured form. Each evaluation of that block takes two instructions more and does the same
otherwise, so the program halts as before, with the same memory, and shows the same snapshots, whether it
halts or not.
-/

namespace FlipLoop

namespace Block

/-- The second block is the first with two flips of `v` put in somewhere. -/
inductive PairInserted (v : Nat) : Block → Block → Prop
  | here (b : Block) : PairInserted v b (.flip v (.flip v b))
  | flip (w : Nat) {rest rest' : Block} :
    PairInserted v rest rest' → PairInserted v (.flip w rest) (.flip w rest')
  | emit {rest rest' : Block} :
    PairInserted v rest rest' → PairInserted v (.emit rest) (.emit rest')
  | body (w : Nat) {body body' : Block} (rest : Block) :
    PairInserted v body body' → PairInserted v (.loop w body rest) (.loop w body' rest)
  | rest (w : Nat) (body : Block) {rest rest' : Block} :
    PairInserted v rest rest' → PairInserted v (.loop w body rest) (.loop w body rest')

lemma exists_pairInserted_nil (v : Nat) {b : Block} {behind : Program} (h : b.flatten = behind) :
    ∃ b', b'.flatten = [.flip v, .flip v] ++ behind ∧ PairInserted v b b' := by
  subst h
  exact ⟨_, rfl, .here b⟩

/-- Wherever the pair is put into a flattened block, it is put into the block. -/
theorem exists_pairInserted (v : Nat) {b : Block} {front behind : Program}
    (h : b.flatten = front ++ behind) :
    ∃ b', b'.flatten = front ++ [.flip v, .flip v] ++ behind ∧ PairInserted v b b' := by
  induction b generalizing front behind with
  | done =>
    obtain ⟨rfl, rfl⟩ := List.append_eq_nil_iff.mp h.symm
    exact exists_pairInserted_nil v rfl
  | flip w rest ih =>
    cases front with
    | nil => exact exists_pairInserted_nil v h
    | cons i front =>
      obtain ⟨rfl, hrest⟩ := List.cons.inj h
      obtain ⟨rest', hflatten, hinserted⟩ := ih hrest
      refine ⟨.flip w rest', ?_, .flip w hinserted⟩
      rw [flatten, hflatten]
      rfl
  | emit rest ih =>
    cases front with
    | nil => exact exists_pairInserted_nil v h
    | cons i front =>
      obtain ⟨rfl, hrest⟩ := List.cons.inj h
      obtain ⟨rest', hflatten, hinserted⟩ := ih hrest
      refine ⟨.emit rest', ?_, .emit hinserted⟩
      rw [flatten, hflatten]
      rfl
  | loop w body rest ihbody ih =>
    cases front with
    | nil => exact exists_pairInserted_nil v h
    | cons i front =>
      obtain ⟨rfl, hloop⟩ := List.cons.inj h
      rcases List.append_eq_append_iff.mp hloop with ⟨left, rfl, hleft⟩ | ⟨left, hbody, rfl⟩
      · cases left with
        | nil =>
          -- the pair is put at the end of the body, in front of the `back`
          obtain ⟨body', hflatten, hinserted⟩ := ihbody (List.append_nil _).symm
          refine ⟨.loop w body' rest, ?_, .body w rest hinserted⟩
          rw [List.nil_append] at hleft
          rw [flatten, hflatten, ← hleft]
          simp
        | cons i left =>
          obtain ⟨rfl, hrest⟩ := List.cons.inj hleft
          obtain ⟨rest', hflatten, hinserted⟩ := ih hrest
          refine ⟨.loop w body rest', ?_, .rest w body hinserted⟩
          rw [flatten, hflatten]
          simp
      · obtain ⟨body', hflatten, hinserted⟩ := ihbody hbody
        refine ⟨.loop w body' rest, ?_, .body w rest hinserted⟩
        rw [flatten, hflatten]
        simp

lemma Eval.behind_pair {b : Block} {m t : Memory} {shown : List String} {cost : Nat}
    (h : Eval b m t shown cost) (v : Nat) : Eval (.flip v (.flip v b)) m t shown (cost + 2) := by
  apply Eval.flip
  apply Eval.flip
  rwa [Memory.flip_flip]

lemma Begins.behind_pair {b : Block} {m : Memory} {shown : List String} (h : Begins b m shown)
    (v : Nat) : Begins (.flip v (.flip v b)) m shown := by
  apply Begins.flip
  apply Begins.flip
  rwa [Memory.flip_flip]

namespace PairInserted

variable {v : Nat} {b b' : Block} {m t : Memory} {shown : List String} {cost : Nat}

/-- The evaluation of the longer block takes two instructions more each time that it comes to the pair,
and does the same otherwise. -/
theorem eval (h : PairInserted v b b') (he : Eval b m t shown cost) :
    ∃ k, Eval b' m t shown (cost + 2 * k) := by
  induction he generalizing b' with
  | done m =>
    cases h with
    | here => exact ⟨1, (Eval.done m).behind_pair v⟩
  | @flip _ _ _ _ _ cost heval ih =>
    cases h with
    | here => exact ⟨1, (Eval.flip heval).behind_pair v⟩
    | flip w h =>
      obtain ⟨k, hk⟩ := ih h
      refine ⟨k, ?_⟩
      rw [Nat.add_right_comm]
      exact .flip hk
  | @emit _ _ _ _ cost heval ih =>
    cases h with
    | here => exact ⟨1, (Eval.emit heval).behind_pair v⟩
    | emit h =>
      obtain ⟨k, hk⟩ := ih h
      refine ⟨k, ?_⟩
      rw [Nat.add_right_comm]
      exact .emit hk
  | @leave _ body _ _ _ _ cost hv heval ih =>
    cases h with
    | here => exact ⟨1, (Eval.leave hv heval).behind_pair v⟩
    | body w rest h =>
      refine ⟨0, ?_⟩
      exact .leave hv heval
    | rest w body h =>
      obtain ⟨k, hk⟩ := ih h
      refine ⟨k, ?_⟩
      rw [Nat.add_right_comm]
      exact .leave hv hk
  | @turn _ _ _ _ _ _ _ _ cost cost' hv hbody heval ihbody ih =>
    cases h with
    | here => exact ⟨1, (Eval.turn hv hbody heval).behind_pair v⟩
    | body w rest h =>
      obtain ⟨k, hk⟩ := ihbody h
      obtain ⟨k', hk'⟩ := ih (.body _ _ h)
      refine ⟨k + k', ?_⟩
      rw [show cost + cost' + 2 + 2 * (k + k') = cost + 2 * k + (cost' + 2 * k') + 2 by omega]
      exact .turn hv hk hk'
    | rest w body h =>
      obtain ⟨k, hk⟩ := ih (.rest _ _ h)
      refine ⟨k, ?_⟩
      rw [show cost + cost' + 2 + 2 * k = cost + (cost' + 2 * k) + 2 by omega]
      exact .turn hv hbody hk

/-- Without the pair the evaluation ends as well. -/
theorem exists_eval (h : PairInserted v b b') (he : Eval b' m t shown cost) :
    ∃ cost', Eval b m t shown cost' := by
  induction he generalizing b with
  | done m => cases h
  | flip heval ih =>
    cases h with
    | here =>
      cases heval with
      | flip heval =>
        rw [Memory.flip_flip] at heval
        exact ⟨_, heval⟩
    | flip w h =>
      obtain ⟨cost', hcost⟩ := ih h
      exact ⟨_, .flip hcost⟩
  | emit _ ih =>
    cases h with
    | emit h =>
      obtain ⟨cost', hcost⟩ := ih h
      exact ⟨_, .emit hcost⟩
  | leave hv heval ih =>
    cases h with
    | body w rest h => exact ⟨_, .leave hv heval⟩
    | rest w body h =>
      obtain ⟨cost', hcost⟩ := ih h
      exact ⟨_, .leave hv hcost⟩
  | turn hv hbody _ ihbody ih =>
    cases h with
    | body w rest h =>
      obtain ⟨cost, hcost⟩ := ihbody h
      obtain ⟨cost', hcost'⟩ := ih (.body _ _ h)
      exact ⟨_, .turn hv hcost hcost'⟩
    | rest w body h =>
      obtain ⟨cost', hcost'⟩ := ih (.rest _ _ h)
      exact ⟨_, .turn hv hbody hcost'⟩

/-- What is shown up to some point without the pair is shown up to some point with it. -/
theorem begins (h : PairInserted v b b') (hb : Begins b m shown) : Begins b' m shown := by
  induction hb generalizing b' with
  | stop b m => exact .stop b' m
  | flip hbegins ih =>
    cases h with
    | here => exact (Begins.flip hbegins).behind_pair v
    | flip w h => exact .flip (ih h)
  | emit hbegins ih =>
    cases h with
    | here => exact (Begins.emit hbegins).behind_pair v
    | emit h => exact .emit (ih h)
  | leave hv hbegins ih =>
    cases h with
    | here => exact (Begins.leave hv hbegins).behind_pair v
    | body w rest h => exact .leave hv hbegins
    | rest w body h => exact .leave hv (ih h)
  | inside hv hbegins ih =>
    cases h with
    | here => exact (Begins.inside hv hbegins).behind_pair v
    | body w rest h => exact .inside hv (ih h)
    | rest w body h => exact .inside hv hbegins
  | turn hv hbody hbegins ih =>
    cases h with
    | here => exact (Begins.turn hv hbody hbegins).behind_pair v
    | body w rest h =>
      obtain ⟨k, hk⟩ := h.eval hbody
      exact .turn hv hk (ih (.body _ _ h))
    | rest w body h => exact .turn hv hbody (ih (.rest _ _ h))

/-- What is shown with the pair is shown without it. Between its two flips nothing is shown, so a run
that stops there has shown what it had in front of them. -/
theorem begins_of_begins (h : PairInserted v b b') (hb : Begins b' m shown) : Begins b m shown := by
  induction hb generalizing b with
  | stop b' m => exact .stop b m
  | flip hbegins ih =>
    cases h with
    | here =>
      cases hbegins with
      | stop => exact .stop b _
      | flip hbegins => rwa [Memory.flip_flip] at hbegins
    | flip w h => exact .flip (ih h)
  | emit _ ih =>
    cases h with
    | emit h => exact .emit (ih h)
  | leave hv hbegins ih =>
    cases h with
    | body w rest h => exact .leave hv hbegins
    | rest w body h => exact .leave hv (ih h)
  | inside hv hbegins ih =>
    cases h with
    | body w rest h => exact .inside hv (ih h)
    | rest w body h => exact .inside hv hbegins
  | turn hv hbody _ ih =>
    cases h with
    | body w rest h =>
      obtain ⟨cost, hcost⟩ := h.exists_eval hbody
      exact .turn hv hcost (ih (.body _ _ h))
    | rest w body h => exact .turn hv hbody (ih (.rest _ _ h))

lemma haltsAfter (h : PairInserted v b b') (hb : b.flatten.HaltsAfter m cost t shown) :
    ∃ k, b'.flatten.HaltsAfter m (cost + 2 * k) t shown := by
  obtain ⟨k, hk⟩ := h.eval (haltsAfter_flatten_iff.mp hb)
  exact ⟨k, haltsAfter_flatten_iff.mpr hk⟩

lemma exists_haltsAfter (h : PairInserted v b b') (hb' : b'.flatten.HaltsAfter m cost t shown) :
    ∃ cost', b.flatten.HaltsAfter m cost' t shown := by
  obtain ⟨cost', hcost⟩ := h.exists_eval (haltsAfter_flatten_iff.mp hb')
  exact ⟨cost', haltsAfter_flatten_iff.mpr hcost⟩

lemma exists_shown_iff (h : PairInserted v b b') :
    (∃ n, State.shown b'.flatten.toArray n ⟨0, m⟩ = shown) ↔
      ∃ n, State.shown b.flatten.toArray n ⟨0, m⟩ = shown := by
  rw [exists_shown_eq_iff_begins, exists_shown_eq_iff_begins]
  exact ⟨h.begins_of_begins, h.begins⟩

end PairInserted

end Block

namespace Machine

variable {σ : Type} {observer : Observer σ} {p : Program} {memory t : Memory} {count limit : Nat}
  {shown : List String}

/-- The report of a run that comes to the end of its program within the limit. -/
structure ReportsEnd (out : Outcome Transcript String) (count : Nat) (t : Memory)
    (shown : List String) : Prop where
  result_eq : out.result = .ok t.text
  steps_eq : out.machine.steps = count
  memory_eq : out.machine.state.memory = t
  kept_eq : out.kept = .accepting shown

lemma reportsEnd_of_haltsAfter (hp : p.Balanced) (ho : observer.Accepts)
    (h : p.HaltsAfter memory count t shown) (hcount : count ≤ limit) (w : σ) :
    ReportsEnd ((start p memory limit).report observer w) count t shown := by
  rw [report_eq]
  cases run_accepted hp ho memory limit w with
  | halts shown' within walk result record =>
    obtain ⟨hsteps, rfl, rfl⟩ := walk.unique h
    exact ⟨result, hsteps, rfl, record⟩
  | exceeds shown' steps walk result record =>
    obtain ⟨s, hs, hhalted, -⟩ := h
    have := hs.le_of_halted hhalted walk
    omega

lemma exists_reportsEnd_of_ok (hp : p.Balanced) (ho : observer.Accepts) {w : σ} {text : String}
    (h : ((start p memory limit).report observer w).result = .ok text) :
    ∃ count t shown, p.HaltsAfter memory count t shown ∧
      ReportsEnd ((start p memory limit).report observer w) count t shown := by
  rw [report_eq] at h ⊢
  cases run_accepted hp ho memory limit w with
  | halts shown within walk result record => exact ⟨_, _, shown, walk, result, rfl, rfl, record⟩
  | exceeds shown steps walk result record => cases result.symm.trans h

end Machine

/-- Two flips of one variable are invisible wherever they are put into a balanced program. The program
halts with them exactly if it halts without them, then with the same memory, the same snapshots and an
even number of instructions more. A run whose limit allows for these reports just that, or it breaks down
by one of these texts. Also when the program does not halt, it comes to show the same lists of
snapshots. -/
theorem flip_pair_is_invisible {front behind : Program} (hp : (front ++ behind).Balanced) (v : Nat)
    (memory : Memory) :
    let p := front ++ behind
    let p' := front ++ [.flip v, .flip v] ++ behind
    p'.Balanced ∧
      ((∃ count t shown, Program.HaltsAfter p' memory count t shown) ↔
        ∃ count t shown, Program.HaltsAfter p memory count t shown) ∧
      (∀ count t shown count' t' shown', Program.HaltsAfter p memory count t shown →
        Program.HaltsAfter p' memory count' t' shown' →
          t' = t ∧ shown' = shown ∧ ∃ k, count' = count + 2 * k) ∧
      (∀ q, q = p ∨ q = p' → ∀ count t shown, Program.HaltsAfter q memory count t shown →
        ∀ (σ : Type) (observer : Observer σ) (w : σ), observer.Accepts → ∀ limit, count ≤ limit →
          limit + 1 < UInt64.size →
            let report := (Machine.start q memory limit).report? observer w
            (report.isSome = true ↔ ∀ text ∈ shown ++ [t.text], text.length ≤ largestCapacity) ∧
              ∀ out, report = some out → out.result = .ok t.text ∧ out.machine.steps = count ∧
                out.machine.state.memory = t ∧ out.kept = .accepting shown) ∧
      (∀ (σ : Type) (observer : Observer σ) (w : σ), observer.Accepts → ∀ limit text,
        let out := (Machine.start p memory limit).report observer w
        out.result = .ok text → ∃ k, ∀ limit', out.machine.steps + 2 * k ≤ limit' →
          let out' := (Machine.start p' memory limit').report observer w
          out'.result = .ok text ∧ out'.machine.steps = out.machine.steps + 2 * k ∧
            out'.machine.state.memory = out.machine.state.memory ∧ out'.kept = out.kept) ∧
      (∀ n, ∃ n', State.shown p.toArray n ⟨0, memory⟩ = State.shown p'.toArray n' ⟨0, memory⟩) ∧
      ∀ n, ∃ n', State.shown p'.toArray n ⟨0, memory⟩ = State.shown p.toArray n' ⟨0, memory⟩ := by
  obtain ⟨b, hb⟩ := hp.exists_block
  obtain ⟨b', hb', hinserted⟩ := Block.exists_pairInserted v hb
  dsimp only
  rw [← hb] at hp ⊢
  rw [← hb']
  have hp' : b'.flatten.Balanced := b'.balanced_flatten
  refine ⟨hp', ⟨?_, ?_⟩, ?_, ?_, ?_, ?_, ?_⟩
  · rintro ⟨count', t, shown, h⟩
    obtain ⟨count, hcount⟩ := hinserted.exists_haltsAfter h
    exact ⟨count, t, shown, hcount⟩
  · rintro ⟨count, t, shown, h⟩
    obtain ⟨k, hk⟩ := hinserted.haltsAfter h
    exact ⟨_, t, shown, hk⟩
  · intro count t shown count' t' shown' h h'
    obtain ⟨k, hk⟩ := hinserted.haltsAfter h
    obtain ⟨hcount, ht, hs⟩ := h'.unique hk
    exact ⟨ht, hs, k, hcount⟩
  · intro q hq count t shown h σ observer w ho limit hlimit hsize
    have hbalanced : Program.Balanced q := by
      obtain rfl | rfl := hq
      · exact hp
      · exact hp'
    have hreport := fun hfit => (Machine.Follows.start q memory limit).report?_eq hsize hfit observer w
    constructor
    · rw [← h.textsFit_iff hlimit]
      constructor
      · intro hsome
        obtain ⟨out, hout⟩ := Option.isSome_iff_exists.mp hsome
        exact Machine.textsFit_of_report? ho hout
      · intro hfit
        rw [hreport hfit]
        rfl
    · intro out hout
      obtain rfl := Option.some_inj.mp (hout.symm.trans (hreport (Machine.textsFit_of_report? ho hout)))
      have hends := Machine.reportsEnd_of_haltsAfter hbalanced ho h hlimit w
      exact ⟨hends.result_eq, hends.steps_eq, hends.memory_eq, hends.kept_eq⟩
  · intro σ observer w ho limit text htext
    obtain ⟨count, t, shown, h, hends⟩ := Machine.exists_reportsEnd_of_ok hp ho htext
    obtain ⟨k, hk⟩ := hinserted.haltsAfter h
    refine ⟨k, fun limit' hlimit => ?_⟩
    rw [hends.steps_eq] at hlimit
    have hends' := Machine.reportsEnd_of_haltsAfter hp' ho hk hlimit w
    refine ⟨?_, ?_, ?_, ?_⟩
    · rw [hends'.result_eq, ← hends.result_eq, htext]
    · rw [hends'.steps_eq, hends.steps_eq]
    · rw [hends'.memory_eq, hends.memory_eq]
    · rw [hends'.kept_eq, hends.kept_eq]
  · intro n
    obtain ⟨n', hn'⟩ := hinserted.exists_shown_iff.mpr ⟨n, rfl⟩
    exact ⟨n', hn'.symm⟩
  · intro n
    obtain ⟨n', hn'⟩ := hinserted.exists_shown_iff.mp ⟨n, rfl⟩
    exact ⟨n', hn'.symm⟩

/-- The pair at the end of a body that is taken once, and in front of the head of a loop that is never
left. -/
theorem flip_pair_around_loop :
    let p : Program := [.enter 0, .flip 0, .emit, .back]
    let p' : Program := [.enter 0, .flip 0, .emit, .flip 0, .flip 0, .back]
    let endless : Program := [.flip 0, .flip 0, .flip 0, .enter 0, .emit, .back]
    p.HaltsAfter (Memory.ofText "1") 5 .empty [""] ∧
      (∃ k out, p'.HaltsAfter (Memory.ofText "1") (5 + 2 * k) .empty [""] ∧
        (Machine.start p' (Memory.ofText "1") 9).report? Observer.silent () = some out ∧
          out.result = .ok "" ∧ out.machine.steps = 5 + 2 * k) ∧
      (∃ k, ((Machine.start p' (Memory.ofText "1") (5 + 2 * k)).report Observer.silent ()).result =
        .ok "") ∧
      ∃ n, State.shown endless.toArray n ⟨0, .empty⟩ = ["1", "1", "1"] := by
  intro p p' endless
  have hp : Program.Balanced ([.enter 0, .flip 0, .emit] ++ [.back]) := by decide
  have hendless : Program.Balanced ([.flip 0] ++ [.enter 0, .emit, .back]) := by decide
  have haccepts : Observer.silent.Accepts := fun _ _ => rfl
  have hhalts : p.HaltsAfter (Memory.ofText "1") 5 .empty [""] :=
    ⟨⟨4, .empty⟩, ⟨by decide, by decide⟩, by decide, rfl⟩
  obtain ⟨-, hiff, hsame, hends, hreports, -, -⟩ := flip_pair_is_invisible hp 0 (Memory.ofText "1")
  obtain ⟨-, -, -, -, -, hshown, -⟩ := flip_pair_is_invisible hendless 0 .empty
  obtain ⟨count, t, shown, h⟩ := hiff.mpr ⟨5, .empty, [""], hhalts⟩
  obtain ⟨rfl, rfl, k, rfl⟩ := hsame _ _ _ _ _ _ hhalts h
  have hwithin : 5 + 2 * k ≤ 9 := by
    have hseven : p'.HaltsAfter (Memory.ofText "1") 7 .empty [""] :=
      ⟨⟨6, .empty⟩, ⟨by decide, by decide⟩, by decide, rfl⟩
    have heq := (h.unique hseven).1
    omega
  obtain ⟨hsome, hout⟩ :=
    hends p' (.inr rfl) _ _ _ h Unit Observer.silent () haccepts 9 hwithin (by decide)
  obtain ⟨out, hreport⟩ := Option.isSome_iff_exists.mp (hsome.mpr (by decide))
  obtain ⟨hresult, hsteps, -, -⟩ := hout out hreport
  have hok : ((Machine.start p (Memory.ofText "1") 5).report Observer.silent ()).result = .ok "" := by
    decide
  obtain ⟨k', hk'⟩ := hreports Unit Observer.silent () haccepts 5 "" hok
  obtain ⟨n, hn⟩ := hshown 10
  have hthree : State.shown #[.flip 0, .enter 0, .emit, .back] 10 ⟨0, .empty⟩ = ["1", "1", "1"] := by
    decide
  refine ⟨hhalts, ⟨k, out, h, hreport, hresult, hsteps⟩, ⟨k', (hk' _ (Nat.le_refl _)).1⟩, n, ?_⟩
  exact hn.symm.trans hthree

end FlipLoop
