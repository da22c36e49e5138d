import FlipLoop.Evaluation
import FlipLoop.Proofs.MemoryText
import FlipLoop.Proofs.StructuredRuns

/-!
# One program behind another

Two texts with a blank between them are read as one program behind the other, and that program does
what the second does on the memory that the first leaves. The text of that memory is all that has to be
handed over.
-/

namespace FlipLoop

namespace Block

lemma eval_append {b c : Block} {m m' t : Memory} {shown shown' : List String} {cost cost' : Nat}
    (hb : Eval b m m' shown cost) (hc : Eval c m' t shown' cost') :
    Eval (b.append c) m t (shown ++ shown') (cost + cost') := by
  induction hb with
  | done m => simpa [append] using hc
  | flip _ ih =>
    have h := Eval.flip (ih hc)
    rwa [Nat.add_right_comm] at h
  | emit _ ih =>
    have h := Eval.emit (ih hc)
    rwa [Nat.add_right_comm] at h
  | @leave v body rest m m' shown cost hv _ ih =>
    have h : Eval (.loop v body (rest.append c)) m t (shown ++ shown') (cost + cost' + 1) :=
      .leave hv (ih hc)
    rwa [Nat.add_right_comm] at h
  | @turn v body rest m m' t shown shown'' cost cost'' hv hbody _ _ ih =>
    have h := Eval.turn hv hbody (ih hc)
    rw [← List.append_assoc] at h
    rwa [show cost + (cost'' + cost') + 2 = cost + cost'' + 2 + cost' by omega] at h

/-- The evaluation of two blocks, one behind the other, in two parts. -/
def Split (b c : Block) (m t : Memory) (shown : List String) (cost : Nat) : Prop :=
  ∃ m' shown₁ shown₂ cost₁ cost₂, Eval b m m' shown₁ cost₁ ∧ Eval c m' t shown₂ cost₂ ∧
    shown = shown₁ ++ shown₂ ∧ cost = cost₁ + cost₂

lemma split_done {c d : Block} {m t : Memory} {shown : List String} {cost : Nat}
    (hd : done.append c = d) (h : Eval d m t shown cost) : Split done c m t shown cost := by
  obtain rfl : c = d := hd
  exact ⟨m, [], shown, 0, cost, .done m, h, rfl, (Nat.zero_add cost).symm⟩

/-- An evaluation of `b.append c` passes the end of `b`. The induction is on the evaluation, since a
turn of a loop evaluates the same blocks again. -/
lemma split_of_eval_append {b c : Block} {m t : Memory} {shown : List String} {cost : Nat}
    (h : Eval (b.append c) m t shown cost) : Split b c m t shown cost := by
  generalize hd : b.append c = d at h
  induction h generalizing b with
  | done m =>
    cases b with
    | done => exact split_done hd (.done m)
    | _ => cases hd
  | flip heval ih =>
    cases b with
    | done => exact split_done hd (.flip heval)
    | flip v rest =>
      obtain ⟨rfl, hrest⟩ := Block.flip.inj hd
      obtain ⟨m', shown₁, shown₂, cost₁, cost₂, hb, hc, rfl, rfl⟩ := ih hrest
      exact ⟨m', shown₁, shown₂, cost₁ + 1, cost₂, .flip hb, hc, rfl, by omega⟩
    | _ => cases hd
  | @emit _ m _ _ _ heval ih =>
    cases b with
    | done => exact split_done hd (.emit heval)
    | emit rest =>
      obtain ⟨m', shown₁, shown₂, cost₁, cost₂, hb, hc, rfl, rfl⟩ := ih (Block.emit.inj hd)
      exact ⟨m', m.text :: shown₁, shown₂, cost₁ + 1, cost₂, .emit hb, hc, rfl, by omega⟩
    | _ => cases hd
  | leave hv heval ih =>
    cases b with
    | done => exact split_done hd (.leave hv heval)
    | loop v body rest =>
      obtain ⟨rfl, rfl, hrest⟩ := Block.loop.inj hd
      obtain ⟨m', shown₁, shown₂, cost₁, cost₂, hb, hc, rfl, rfl⟩ := ih hrest
      exact ⟨m', shown₁, shown₂, cost₁ + 1, cost₂, .leave hv hb, hc, rfl, by omega⟩
    | _ => cases hd
  | turn hv hbody heval _ ih =>
    cases b with
    | done => exact split_done hd (.turn hv hbody heval)
    | loop v body rest =>
      obtain ⟨m', shown₁, shown₂, cost₁, cost₂, hb, hc, rfl, rfl⟩ := ih hd
      obtain ⟨rfl, rfl, -⟩ := Block.loop.inj hd
      exact ⟨m', _, shown₂, _, cost₂, .turn hv hbody hb, hc, (List.append_assoc ..).symm, by omega⟩
    | _ => cases hd

end Block

namespace Program

theorem haltsAfter_append_iff {p q : Program} (hp : p.Balanced) (hq : q.Balanced) {m t : Memory}
    {count : Nat} {shown : List String} :
    HaltsAfter (p ++ q) m count t shown ↔
      ∃ m' shown₁ shown₂ count₁ count₂, p.HaltsAfter m count₁ m' shown₁ ∧
        q.HaltsAfter m' count₂ t shown₂ ∧ shown = shown₁ ++ shown₂ ∧ count = count₁ + count₂ := by
  obtain ⟨b, rfl⟩ := hp.exists_block
  obtain ⟨c, rfl⟩ := hq.exists_block
  simp only [← Block.flatten_append, Block.haltsAfter_flatten_iff]
  constructor
  · intro h
    exact Block.split_of_eval_append h
  · rintro ⟨m', shown₁, shown₂, cost₁, cost₂, hb, hc, rfl, rfl⟩
    exact Block.eval_append hb hc

lemma balanced_of_ofSource {source : String} {p : Program} (h : ofSource source = .ok p) :
    p.Balanced :=
  balanced_of_ofTokens h

/-- A blank between two texts keeps their tokens apart. -/
theorem ofSource_append {P Q : String} {p q : Program} (hP : ofSource P = .ok p)
    (hQ : ofSource Q = .ok q) : ofSource (P ++ " " ++ Q) = .ok (p ++ q) := by
  obtain ⟨d, hd, rfl⟩ := exists_derivation_of_ofTokens hP
  obtain ⟨d', hd', rfl⟩ := exists_derivation_of_ofTokens hQ
  have htokens : Token.ofText (P ++ " " ++ Q) = d.tokens ++ d'.tokens := by
    rw [← hd, ← hd', Token.ofText, Token.ofText, Token.ofText, String.toList_append,
      String.toList_append, List.append_assoc]
    exact Token.ofChars_append_cons P.toList Q.toList (by decide)
  have hread := readOnto_tokens_append d' d.program.reverse d.tokens.length 0 []
  rw [ofSource, htokens, ofTokens, readOnto_tokens_append]
  simpa [readOnto] using hread

/-- Started on the memory that `seed` sets, `p` halts after exactly `count` instructions with a memory
of this text, and has shown these snapshots. -/
def HaltsWith (p : Program) (seed : String) (count : Nat) (text : String)
    (shown : List String) : Prop :=
  ∃ t, p.HaltsAfter (Memory.ofText seed) count t shown ∧ t.text = text

lemma HaltsWith.unique {p : Program} {seed text text' : String} {count count' : Nat}
    {shown shown' : List String} (h : p.HaltsWith seed count text shown)
    (h' : p.HaltsWith seed count' text' shown') : count = count' ∧ text = text' ∧ shown = shown' := by
  obtain ⟨t, ht, rfl⟩ := h
  obtain ⟨t', ht', rfl⟩ := h'
  obtain ⟨rfl, rfl, rfl⟩ := ht.unique ht'
  exact ⟨rfl, rfl, rfl⟩

lemma haltsWith_append_iff {p q : Program} (hp : p.Balanced) (hq : q.Balanced) {seed text : String}
    {count : Nat} {shown : List String} :
    HaltsWith (p ++ q) seed count text shown ↔
      ∃ count₁ count₂ handed shown₁ shown₂, p.HaltsWith seed count₁ handed shown₁ ∧
        q.HaltsWith handed count₂ text shown₂ ∧ shown = shown₁ ++ shown₂ ∧ count = count₁ + count₂ := by
  unfold HaltsWith
  constructor
  · rintro ⟨t, ht, htext⟩
    obtain ⟨m', shown₁, shown₂, count₁, count₂, h₁, h₂, hshown, hcount⟩ :=
      (haltsAfter_append_iff hp hq).mp ht
    rw [← Memory.ofText_text m'] at h₂
    exact ⟨count₁, count₂, m'.text, shown₁, shown₂, ⟨m', h₁, rfl⟩, ⟨t, h₂, htext⟩, hshown, hcount⟩
  · rintro ⟨count₁, count₂, _, shown₁, shown₂, ⟨m', h₁, rfl⟩, ⟨t, h₂, htext⟩, hshown, hcount⟩
    rw [Memory.ofText_text] at h₂
    exact ⟨t, (haltsAfter_append_iff hp hq).mpr
      ⟨m', shown₁, shown₂, count₁, count₂, h₁, h₂, hshown, hcount⟩, htext⟩

end Program

section Evaluate

variable {σ : Type} {observer : Observer σ} {source : String} {p : Program}

lemma evaluate_recorded (observer : Observer σ) (source : String) (seed : Option String)
    (limit : Option Nat) (w : σ × Transcript) :
    (evaluate observer.recorded source seed limit w).1 = (evaluate observer source seed limit w.1).1 := by
  unfold evaluate
  split
  · rfl
  · dsimp only
    rw [← Machine.run_recorded]
    rfl

/-- How a recorded evaluation of `p` ends while all snapshots are accepted. -/
inductive Evaluated (p : Program) (seed : String) (limit : Nat)
    (outcome : Except EvaluationError String × σ × Transcript) : Prop
  | halts (count : Nat) (text : String) (shown : List String) (within : count ≤ limit)
    (walk : p.HaltsWith seed count text shown) (result : outcome.1 = .ok text)
    (record : outcome.2.2 = .accepting shown)
  | exceeds (late : ∀ count text shown, p.HaltsWith seed count text shown → limit < count)
    (result : outcome.1 = .error (.run (.stepLimit limit)))

theorem evaluate_accepted (hp : Program.ofSource source = .ok p) (ho : observer.Accepts)
    (seed : String) {limit : Nat} (hlimit : 1 ≤ limit) (w : σ) :
    Evaluated p seed limit
      (evaluate observer.recorded source (some seed) (some limit) (w, [])) := by
  have hbalanced := Program.balanced_of_ofSource hp
  have haccepted := Machine.run_accepted hbalanced ho (Memory.ofText seed) limit w
  have heffective : effectiveLimit limit = limit := by
    rw [effectiveLimit, if_neg (by omega)]
  simp only [evaluate, hp, Option.map_some, Option.getD_some, heffective]
  generalize (Machine.start p (Memory.ofText seed) limit).run observer.recorded (w, []) = out
    at haccepted
  cases haccepted with
  | halts shown within walk result record =>
    refine .halts _ _ shown within ⟨_, walk, rfl⟩ ?_ record
    rw [result]
    rfl
  | exceeds shown steps walk result record =>
    refine .exceeds ?_ ?_
    · rintro count text shown' ⟨t, ⟨s, hs, hhalted, -⟩, -⟩
      exact hs.le_of_halted hhalted walk
    · rw [result]
      rfl

end Evaluate

/-- Sequential composition. Two texts with a blank between them are read as the one program behind the
other. It ends well exactly if both do within the common limit, the second on the memory that the text
of the first result sets, and it offers the snapshots of the first and then those of the second. -/
theorem evaluate_append {P Q : String} {p q : Program} (hP : Program.ofSource P = .ok p)
    (hQ : Program.ofSource Q = .ok q) :
    Program.ofSource (P ++ " " ++ Q) = .ok (p ++ q) ∧
      ∀ (σ : Type) (observer : Observer σ), observer.Accepts →
        ∀ (seed : String) (limit : Nat) (w : σ), 1 ≤ limit →
          let result := (evaluate observer (P ++ " " ++ Q) (some seed) (some limit) w).1
          let offered := (evaluate observer.recorded (P ++ " " ++ Q) (some seed) (some limit) (w, [])).2.2
          (∀ text, result = .ok text ↔
              ∃ count₁ count₂ handed shown₁ shown₂, count₁ + count₂ ≤ limit ∧
                p.HaltsWith seed count₁ handed shown₁ ∧ q.HaltsWith handed count₂ text shown₂) ∧
            ∀ count₁ count₂ handed text shown₁ shown₂, count₁ + count₂ ≤ limit →
              p.HaltsWith seed count₁ handed shown₁ → q.HaltsWith handed count₂ text shown₂ →
                offered.map Prod.fst = shown₁ ++ shown₂ := by
  have hp := Program.balanced_of_ofSource hP
  have hq := Program.balanced_of_ofSource hQ
  have hPQ := Program.ofSource_append hP hQ
  refine ⟨hPQ, ?_⟩
  intro σ observer ho seed limit w hlimit
  dsimp only
  have hjoin : ∀ {count₁ count₂ handed text shown₁ shown₂},
      p.HaltsWith seed count₁ handed shown₁ → q.HaltsWith handed count₂ text shown₂ →
        Program.HaltsWith (p ++ q) seed (count₁ + count₂) text (shown₁ ++ shown₂) := by
    intro count₁ count₂ handed text shown₁ shown₂ h₁ h₂
    apply (Program.haltsWith_append_iff hp hq).mpr
    exact ⟨count₁, count₂, handed, shown₁, shown₂, h₁, h₂, rfl, rfl⟩
  have hevaluated := evaluate_accepted hPQ ho seed hlimit w
  rw [← evaluate_recorded observer _ _ _ (w, [])]
  generalize evaluate observer.recorded (P ++ " " ++ Q) (some seed) (some limit) (w, []) = outcome
    at hevaluated
  cases hevaluated with
  | halts count text shown within walk result record =>
    refine ⟨?_, ?_⟩
    · intro text'
      constructor
      · intro htext
        obtain rfl : text = text' := Except.ok.inj (result.symm.trans htext)
        obtain ⟨count₁, count₂, handed, shown₁, shown₂, h₁, h₂, -, rfl⟩ :=
          (Program.haltsWith_append_iff hp hq).mp walk
        exact ⟨count₁, count₂, handed, shown₁, shown₂, within, h₁, h₂⟩
      · rintro ⟨count₁, count₂, handed, shown₁, shown₂, -, h₁, h₂⟩
        obtain ⟨-, rfl, -⟩ := walk.unique (hjoin h₁ h₂)
        exact result
    · intro count₁ count₂ handed text' shown₁ shown₂ _ h₁ h₂
      obtain ⟨-, -, rfl⟩ := walk.unique (hjoin h₁ h₂)
      rw [record, Transcript.map_fst_accepting]
  | exceeds late result =>
    refine ⟨?_, ?_⟩
    · intro text
      constructor
      · intro htext
        cases result.symm.trans htext
      · rintro ⟨count₁, count₂, handed, shown₁, shown₂, hcount, h₁, h₂⟩
        have hlate := late _ _ _ (hjoin h₁ h₂)
        omega
    · intro count₁ count₂ handed text shown₁ shown₂ hcount h₁ h₂
      have hlate := late _ _ _ (hjoin h₁ h₂)
      omega

/-- The first program hands its bit 1 to the second one, which clears it. -/
theorem evaluate_handing_over :
    Program.ofSource ("|| !" ++ " " ++ "/ || || ! \\") =
        .ok [.flip 1, .emit, .enter 1, .flip 1, .emit, .back] ∧
      (evaluate Observer.silent ("|| !" ++ " " ++ "/ || || ! \\") (some "") (some 7) ()).1 = .ok "" ∧
      (evaluate Observer.silent.recorded ("|| !" ++ " " ++ "/ || || ! \\") (some "") (some 7)
        ((), [])).2.2.map Prod.fst = ["01", ""] := by
  have hP : Program.ofSource "|| !" = .ok [.flip 1, .emit] := by decide
  have hQ : Program.ofSource "/ || || ! \\" = .ok [.enter 1, .flip 1, .emit, .back] := by decide
  have hp : Program.HaltsWith [.flip 1, .emit] "" 2 "01" ["01"] := by
    have heval : Block.Eval (.flip 1 (.emit .done)) .empty ⟨[1], by decide⟩ ["01"] 2 :=
      .flip (.emit (.done _))
    exact ⟨_, Block.haltsAfter_flatten_iff.mpr heval, by decide⟩
  have hq : Program.HaltsWith [.enter 1, .flip 1, .emit, .back] "01" 5 "" [""] := by
    have hbody : Block.Eval (.flip 1 (.emit .done)) ⟨[1], by decide⟩ .empty [""] 2 :=
      .flip (.emit (.done _))
    have heval : Block.Eval (.loop 1 (.flip 1 (.emit .done)) .done) ⟨[1], by decide⟩ .empty [""] 5 :=
      .turn (by decide) hbody (.leave (by decide) (.done _))
    exact ⟨_, Block.haltsAfter_flatten_iff.mpr heval, by decide⟩
  obtain ⟨hread, hruns⟩ := evaluate_append hP hQ
  obtain ⟨hresult, hoffered⟩ := hruns Unit Observer.silent (fun _ _ => rfl) "" 7 () (by decide)
  refine ⟨hread, ?_, ?_⟩
  · exact (hresult "").mpr ⟨2, 5, "01", ["01"], [""], by decide, hp, hq⟩
  · exact hoffered 2 5 "01" "" ["01"] [""] (by decide) hp hq

end FlipLoop
