import FlipLoop.Proofs.Blocks
import FlipLoop.Proofs.Matching
import FlipLoop.Proofs.Walks

/-!
# Blocks against the program counter

A flattened block, wherever it stands in a program, is walked through exactly as the block is
evaluated: the same memory, the same snapshots and the same number of instructions. If the evaluation
does not end within `n` instructions, the walk is still inside the block after `n` of them, so a
balanced program never gets stuck. What it has shown by then are the snapshots of an evaluation that is
stopped somewhere.
-/

namespace FlipLoop

namespace Leads

variable {code : Array Instr} {pc v j : Nat} {m : Memory}

lemma cast {n n' pc' : Nat} {s : State} {l : List String} (h : Leads code n s ⟨pc, m⟩ l)
    (hn : n = n') (hpc : pc = pc') : Leads code n' s ⟨pc', m⟩ l := by
  subst hn hpc
  exact h

lemma flip (h : code[pc]? = some (.flip v)) : Leads code 1 ⟨pc, m⟩ ⟨pc + 1, m.flip v⟩ [] := by
  have hnext : State.next? code ⟨pc, m⟩ = some ⟨pc + 1, m.flip v⟩ := by
    simp [State.next?, State.after, h, Except.toOption]
  have hshown : State.snapshots code ⟨pc, m⟩ = [] := by simp [State.snapshots, h]
  exact hshown ▸ one hnext

lemma emit (h : code[pc]? = some .emit) : Leads code 1 ⟨pc, m⟩ ⟨pc + 1, m⟩ [m.text] := by
  have hnext : State.next? code ⟨pc, m⟩ = some ⟨pc + 1, m⟩ := by
    simp [State.next?, State.after, h, Except.toOption]
  have hshown : State.snapshots code ⟨pc, m⟩ = [m.text] := by simp [State.snapshots, h]
  exact hshown ▸ one hnext

lemma enter (h : code[pc]? = some (.enter v)) (hv : m.get v = true) :
    Leads code 1 ⟨pc, m⟩ ⟨pc + 1, m⟩ [] := by
  have hnext : State.next? code ⟨pc, m⟩ = some ⟨pc + 1, m⟩ := by
    simp [State.next?, State.after, h, hv, Except.toOption]
  have hshown : State.snapshots code ⟨pc, m⟩ = [] := by simp [State.snapshots, h]
  exact hshown ▸ one hnext

lemma skip (h : code[pc]? = some (.enter v)) (hv : m.get v = false)
    (hj : Program.closing? code pc = some j) : Leads code 1 ⟨pc, m⟩ ⟨j + 1, m⟩ [] := by
  have hnext : State.next? code ⟨pc, m⟩ = some ⟨j + 1, m⟩ := by
    simp [State.next?, State.after, h, hv, hj, Except.toOption]
  have hshown : State.snapshots code ⟨pc, m⟩ = [] := by simp [State.snapshots, h]
  exact hshown ▸ one hnext

lemma back (h : code[pc]? = some .back) (hj : Program.opening? code pc = some j) :
    Leads code 1 ⟨pc, m⟩ ⟨j, m⟩ [] := by
  have hnext : State.next? code ⟨pc, m⟩ = some ⟨j, m⟩ := by
    simp [State.next?, State.after, h, hj, Except.toOption]
  have hshown : State.snapshots code ⟨pc, m⟩ = [] := by simp [State.snapshots, h]
  exact hshown ▸ one hnext

end Leads

namespace Block

section Loop

variable {code : Array Instr} {pc v : Nat} {body rest : Block} {m : Memory}

lemma codeAt_body (h : CodeAt code pc (loop v body rest).flatten) :
    CodeAt code (pc + 1) body.flatten :=
  h.tail.append_left

lemma codeAt_rest (h : CodeAt code pc (loop v body rest).flatten) :
    CodeAt code (pc + 1 + body.flatten.length + 1) rest.flatten :=
  h.tail.append_right.tail

lemma leads_skip (h : CodeAt code pc (loop v body rest).flatten) (hv : m.get v = false) :
    Leads code 1 ⟨pc, m⟩ ⟨pc + 1 + body.flatten.length + 1, m⟩ [] :=
  .skip h.head hv (Program.closing?_of_codeAt h (loopsAfter?_flatten body 0))

lemma leads_back (h : CodeAt code pc (loop v body rest).flatten) :
    Leads code 1 ⟨pc + 1 + body.flatten.length, m⟩ ⟨pc, m⟩ [] :=
  .back h.tail.append_right.head (Program.opening?_of_codeAt h (loopsAfter?_flatten body 0))

lemma length_flatten_loop :
    (loop v body rest).flatten.length = body.flatten.length + rest.flatten.length + 2 := by
  simp only [flatten, List.length_cons, List.length_append]
  omega

end Loop

/-- The walk through a flattened block does what the evaluation of the block says. -/
theorem Eval.leads {b : Block} {m t : Memory} {shown : List String} {cost : Nat}
    (h : Eval b m t shown cost) {code : Array Instr} {pc : Nat} (hcode : CodeAt code pc b.flatten) :
    Leads code cost ⟨pc, m⟩ ⟨pc + b.flatten.length, t⟩ shown := by
  induction h generalizing pc with
  | done m => exact .refl code _
  | flip _ ih =>
    have hrest := (Leads.flip hcode.head).trans (ih hcode.tail)
    exact hrest.cast (by omega) (by simp only [flatten, List.length_cons]; omega)
  | emit _ ih =>
    have hrest := (Leads.emit hcode.head).trans (ih hcode.tail)
    exact hrest.cast (by omega) (by simp only [flatten, List.length_cons]; omega)
  | leave hv _ ih =>
    have hrest := (leads_skip hcode hv).trans (ih (codeAt_rest hcode))
    exact hrest.cast (by omega) (by rw [length_flatten_loop]; omega)
  | turn hv _ _ ihbody ih =>
    have hbody := (Leads.enter hcode.head hv).trans (ihbody (codeAt_body hcode))
    have hrest := (hbody.trans (leads_back hcode)).trans (ih hcode)
    simp only [List.nil_append, List.append_nil] at hrest
    exact hrest.cast (by omega) rfl

/-- The evaluation of the block, stopped somewhere, has shown these snapshots. -/
inductive Begins : Block → Memory → List String → Prop
  | stop (b : Block) (m : Memory) : Begins b m []
  | flip {v : Nat} {rest : Block} {m : Memory} {shown : List String} :
    Begins rest (m.flip v) shown → Begins (.flip v rest) m shown
  | emit {rest : Block} {m : Memory} {shown : List String} :
    Begins rest m shown → Begins (.emit rest) m (m.text :: shown)
  | leave {v : Nat} {body rest : Block} {m : Memory} {shown : List String} :
    m.get v = false → Begins rest m shown → Begins (.loop v body rest) m shown
  | inside {v : Nat} {body rest : Block} {m : Memory} {shown : List String} :
    m.get v = true → Begins body m shown → Begins (.loop v body rest) m shown
  | turn {v : Nat} {body rest : Block} {m m' : Memory} {shown shown' : List String} {cost : Nat} :
    m.get v = true → Eval body m m' shown cost → Begins (.loop v body rest) m' shown' →
      Begins (.loop v body rest) m (shown ++ shown')

lemma Eval.begins {b : Block} {m t : Memory} {shown : List String} {cost : Nat}
    (h : Eval b m t shown cost) : Begins b m shown := by
  induction h with
  | done m => exact .stop .done m
  | flip _ ih => exact .flip ih
  | emit _ ih => exact .emit ih
  | leave hv _ ih => exact .leave hv ih
  | turn hv hbody _ _ ih => exact .turn hv hbody ih

lemma Begins.exists_leads {b : Block} {m : Memory} {shown : List String} (h : Begins b m shown)
    {code : Array Instr} {pc : Nat} (hcode : CodeAt code pc b.flatten) :
    ∃ n s, Leads code n ⟨pc, m⟩ s shown := by
  induction h generalizing pc with
  | stop b m => exact ⟨0, _, .refl code _⟩
  | flip _ ih =>
    obtain ⟨n, s, hs⟩ := ih hcode.tail
    exact ⟨_, s, (Leads.flip hcode.head).trans hs⟩
  | emit _ ih =>
    obtain ⟨n, s, hs⟩ := ih hcode.tail
    exact ⟨_, s, (Leads.emit hcode.head).trans hs⟩
  | leave hv _ ih =>
    obtain ⟨n, s, hs⟩ := ih (codeAt_rest hcode)
    exact ⟨_, s, (leads_skip hcode hv).trans hs⟩
  | inside hv _ ih =>
    obtain ⟨n, s, hs⟩ := ih (codeAt_body hcode)
    exact ⟨_, s, (Leads.enter hcode.head hv).trans hs⟩
  | turn hv hbody _ ih =>
    obtain ⟨n, s, hs⟩ := ih hcode
    have hturn := (Leads.enter hcode.head hv).trans (hbody.leads (codeAt_body hcode))
    have hrest := (hturn.trans (leads_back hcode)).trans hs
    simp only [List.nil_append, List.append_nil] at hrest
    exact ⟨_, s, hrest⟩

/-- Either the evaluation of a block ends within `n` instructions, or its walk is still inside the
block after all of them, and has shown what a beginning of the evaluation shows. -/
theorem eval_or_inside {code : Array Instr} (n : Nat) (b : Block) (m : Memory) {pc : Nat}
    (hcode : CodeAt code pc b.flatten) :
    (∃ t shown cost, cost ≤ n ∧ Eval b m t shown cost) ∨
      ∃ s shown, Leads code n ⟨pc, m⟩ s shown ∧ s.pc < pc + b.flatten.length ∧ Begins b m shown := by
  induction n using Nat.strongRecOn generalizing b m pc with
  | ind n ih =>
    cases n with
    | zero =>
      cases b with
      | done => exact .inl ⟨m, [], 0, Nat.le_refl 0, .done m⟩
      | _ => exact .inr ⟨⟨pc, m⟩, [], .refl code _, by simp [flatten], .stop _ m⟩
    | succ n =>
      cases b with
      | done => exact .inl ⟨m, [], 0, Nat.zero_le _, .done m⟩
      | flip v rest =>
        obtain ⟨t, shown, cost, hcost, heval⟩ | ⟨s, shown, hs, hpc, hbegins⟩ :=
          ih n (by omega) rest (m.flip v) hcode.tail
        · exact .inl ⟨t, shown, cost + 1, by omega, .flip heval⟩
        · refine .inr ⟨s, _, ((Leads.flip hcode.head).trans hs).cast (by omega) rfl, ?_, .flip hbegins⟩
          simp only [flatten, List.length_cons]
          omega
      | emit rest =>
        obtain ⟨t, shown, cost, hcost, heval⟩ | ⟨s, shown, hs, hpc, hbegins⟩ :=
          ih n (by omega) rest m hcode.tail
        · exact .inl ⟨t, m.text :: shown, cost + 1, by omega, .emit heval⟩
        · refine .inr ⟨s, _, ((Leads.emit hcode.head).trans hs).cast (by omega) rfl, ?_, .emit hbegins⟩
          simp only [flatten, List.length_cons]
          omega
      | loop v body rest =>
        cases hv : m.get v with
        | false =>
          obtain ⟨t, shown, cost, hcost, heval⟩ | ⟨s, shown, hs, hpc, hbegins⟩ :=
            ih n (by omega) rest m (codeAt_rest hcode)
          · exact .inl ⟨t, shown, cost + 1, by omega, .leave hv heval⟩
          · refine .inr ⟨s, _, ((leads_skip hcode hv).trans hs).cast (by omega) rfl, ?_, .leave hv hbegins⟩
            rw [length_flatten_loop]
            omega
        | true =>
          have henter := Leads.enter hcode.head hv
          obtain ⟨m', shown, cost, hcost, heval⟩ | ⟨s, shown, hs, hpc, hbegins⟩ :=
            ih n (by omega) body m (codeAt_body hcode)
          · have hbody := henter.trans (heval.leads (codeAt_body hcode))
            obtain rfl | hlt := Nat.eq_or_lt_of_le hcost
            -- the last of the instructions was the last one of the body, and the `back` comes next
            · refine .inr ⟨_, _, hbody.cast (by omega) rfl, ?_, .inside hv heval.begins⟩
              rw [length_flatten_loop]
              dsimp only
              omega
            · have hturn := hbody.trans (leads_back hcode)
              rw [List.nil_append, List.append_nil] at hturn
              obtain ⟨t, shown', cost', hcost', heval'⟩ | ⟨s, shown', hs, hpc, hbegins⟩ :=
                ih (n - 1 - cost) (by omega) (loop v body rest) m' hcode
              · exact .inl ⟨t, shown ++ shown', cost + cost' + 2, by omega, .turn hv heval heval'⟩
              · exact .inr ⟨s, _, (hturn.trans hs).cast (by omega) rfl, hpc, .turn hv heval hbegins⟩
          · refine .inr ⟨s, _, (henter.trans hs).cast (by omega) rfl, ?_, .inside hv hbegins⟩
            rw [length_flatten_loop]
            omega

/-- A flattened block halts exactly as its evaluation ends. -/
theorem haltsAfter_flatten_iff {b : Block} {m t : Memory} {count : Nat} {shown : List String} :
    b.flatten.HaltsAfter m count t shown ↔ Eval b m t shown count := by
  have hcode := CodeAt.toArray b.flatten
  have hhalts : ∀ {t shown count}, Eval b m t shown count → b.flatten.HaltsAfter m count t shown := by
    intro t shown count h
    exact ⟨_, h.leads hcode, by simp [State.halted], rfl⟩
  refine ⟨fun h => ?_, hhalts⟩
  obtain ⟨t', shown', cost, hcost, heval⟩ | ⟨s, shown', hs, hpc, -⟩ := eval_or_inside count b m hcode
  · obtain ⟨rfl, rfl, rfl⟩ := h.unique (hhalts heval)
    exact heval
  · have hlt := h.lt_of_not_halted hs (by simpa [State.halted] using hpc)
    exact absurd hlt (Nat.lt_irrefl _)

/-- The snapshots that a flattened block shows up to some point are those of a beginning of its
evaluation. -/
theorem exists_shown_eq_iff_begins {b : Block} {m : Memory} {shown : List String} :
    (∃ n, State.shown b.flatten.toArray n ⟨0, m⟩ = shown) ↔ Begins b m shown := by
  have hcode := CodeAt.toArray b.flatten
  constructor
  · rintro ⟨n, rfl⟩
    obtain ⟨t, shown, cost, hcost, heval⟩ | ⟨s, shown, hs, -, hbegins⟩ := eval_or_inside n b m hcode
    · obtain ⟨u, hu, hhalted, -⟩ := haltsAfter_flatten_iff.mpr heval
      rw [hu.shown_of_halted hhalted hcost]
      exact heval.begins
    · rwa [hs.shown_eq]
  · intro h
    obtain ⟨n, s, hs⟩ := h.exists_leads hcode
    exact ⟨n, hs.shown_eq⟩

end Block

/-- A balanced program halts within `n` instructions, or all of them can be executed and another one
comes next. -/
theorem Program.Balanced.halts_or_runs {p : Program} (h : p.Balanced) (m : Memory) (n : Nat) :
    (∃ count t shown, count ≤ n ∧ p.HaltsAfter m count t shown) ∨
      ∃ s shown, Leads p.toArray n ⟨0, m⟩ s shown ∧ s.pc < p.length := by
  obtain ⟨b, rfl⟩ := h.exists_block
  obtain ⟨t, shown, cost, hcost, heval⟩ | ⟨s, shown, hs, hpc, -⟩ :=
    Block.eval_or_inside n b m (CodeAt.toArray b.flatten)
  · exact .inl ⟨cost, t, shown, hcost, Block.haltsAfter_flatten_iff.mpr heval⟩
  · exact .inr ⟨s, shown, hs, by simpa using hpc⟩

/-- A balanced program never gets stuck: it halts, or its next instruction can be executed. -/
theorem Program.Balanced.exists_next {p : Program} (h : p.Balanced) {m : Memory} {n : Nat} {s : State}
    {shown : List String} (hs : Leads p.toArray n ⟨0, m⟩ s shown) (hrun : s.halted p.toArray = false) :
    ∃ t, s.next? p.toArray = some t := by
  have hlonger : ∃ u shown', Leads p.toArray (n + 1) ⟨0, m⟩ u shown' := by
    obtain ⟨count, t, shown', hcount, hhalts⟩ | ⟨u, shown', hu, -⟩ := h.halts_or_runs m (n + 1)
    · have hlt := hhalts.lt_of_not_halted hs hrun
      obtain rfl : count = n + 1 := by omega
      obtain ⟨u, hu, -, -⟩ := hhalts
      exact ⟨u, shown', hu⟩
    · exact ⟨u, shown', hu⟩
  obtain ⟨u, shown', hu⟩ := hlonger
  obtain ⟨r, hr, -⟩ := hs.exists_rest hu
  obtain ⟨t, ht, -⟩ := Option.bind_eq_some_iff.mp hr.walk_eq
  exact ⟨t, ht⟩

end FlipLoop
