import FlipLoop.Proofs.Keeping
import FlipLoop.Proofs.Recording

/-!
# Sinks

A sink answers the snapshots of a run from a state of its own. Which snapshot it refuses first can be
said of any list of snapshots, without a machine: a recorded run offers its sink the snapshots of its
transcript one behind the other, and the answers are those that the sink gives to the bare list.
-/

namespace FlipLoop

abbrev Sink (σ : Type) := String → σ → Reply × σ

namespace Sink

variable {σ : Type}

/-- The observer that answers as the sink does and heeds no event. -/
def observer (sink : Sink σ) : Observer σ where
  note _ w := w
  offer := sink

/-- The answers to snapshots that are offered one behind the other, whatever the answers are. -/
def replies (sink : Sink σ) (w : σ) : List String → List Reply
  | [] => []
  | snapshot :: shown => (sink snapshot w).1 :: sink.replies (sink snapshot w).2 shown

/-- What the sink keeps when it has answered all of `shown`. -/
def behind (sink : Sink σ) (w : σ) (shown : List String) : σ :=
  shown.foldl (fun w snapshot => (sink snapshot w).2) w

/-- Of the snapshots `shown`, the sink accepts those below number `k`, counted from 0, and refuses
number `k` if there is one. -/
def FirstRefuses (sink : Sink σ) (w : σ) (k : Nat) (message : String) (shown : List String) : Prop :=
  ∀ i reply, (sink.replies w shown)[i]? = some reply →
    (i < k → reply = .accepted) ∧ (i = k → reply = .refused message)

lemma replies_append (sink : Sink σ) (w : σ) (shown shown' : List String) :
    sink.replies w (shown ++ shown') =
      sink.replies w shown ++ sink.replies (sink.behind w shown) shown' := by
  induction shown generalizing w with
  | nil => rfl
  | cons snapshot shown ih =>
    rw [List.cons_append, replies, replies, ih]
    rfl

lemma behind_append (sink : Sink σ) (w : σ) (shown shown' : List String) :
    sink.behind w (shown ++ shown') = sink.behind (sink.behind w shown) shown' :=
  List.foldl_append

/-- The recorded sink was offered the snapshots of its transcript one behind the other, from `w₀` on. -/
structure Answered (sink : Sink σ) (w₀ : σ) (w : σ × Transcript) : Prop where
  replies_eq : w.2.map Prod.snd = sink.replies w₀ (w.2.map Prod.fst)
  kept_eq : w.1 = sink.behind w₀ (w.2.map Prod.fst)

namespace Answered

variable {sink : Sink σ} {w₀ : σ} {w : σ × Transcript} {k : Nat} {message reason snapshot : String}
  {shown : List String}

lemma nil (sink : Sink σ) (w₀ : σ) : Answered sink w₀ (w₀, []) :=
  ⟨rfl, rfl⟩

lemma offer (h : Answered sink w₀ w) (snapshot : String) :
    Answered sink w₀ (sink.observer.recorded.offer snapshot w).2 := by
  have hreply : (sink snapshot w.1).1 :: [] = sink.replies w.1 [snapshot] := rfl
  constructor
  · simp only [Observer.recorded, observer, List.map_append, List.map_cons, List.map_nil]
    rw [replies_append, ← h.kept_eq, ← h.replies_eq, ← hreply]
  · simp only [Observer.recorded, observer, List.map_append, List.map_cons, List.map_nil]
    rw [behind_append, ← h.kept_eq]
    rfl

lemma preserves (sink : Sink σ) (w₀ : σ) : sink.observer.recorded.Preserves (Answered sink w₀) where
  note _ _ h := h
  offer snapshot _ h := h.offer snapshot

theorem run (h : Answered sink w₀ w) (m : Machine) :
    Answered sink w₀ (m.run sink.observer.recorded w).kept :=
  (preserves sink w₀).run m h

/-- A sink that accepts all of `shown` has not come to its first refusal. -/
lemma length_le (h : Answered sink w₀ w) (hw : w.2 = .accepting shown)
    (hk : sink.FirstRefuses w₀ k message shown) : shown.length ≤ k := by
  have hreplies := h.replies_eq
  rw [hw, Transcript.map_snd_accepting, Transcript.map_fst_accepting] at hreplies
  by_contra hlt
  have hget : (sink.replies w₀ shown)[k]? = some .accepted := by
    rw [← hreplies, List.getElem?_replicate, if_pos (by omega)]
  cases (hk k .accepted hget).2 rfl

/-- A sink that accepts all of `shown` and refuses the next snapshot has come to its first refusal. -/
lemma length_eq (h : Answered sink w₀ w)
    (hw : w.2 = Transcript.accepting shown ++ [(snapshot, .refused reason)])
    (hk : sink.FirstRefuses w₀ k message (shown ++ [snapshot])) :
    shown.length = k ∧ reason = message := by
  have hreplies : List.replicate shown.length .accepted ++ [.refused reason] =
      sink.replies w₀ (shown ++ [snapshot]) := by
    simpa [hw] using h.replies_eq
  have hlast : (sink.replies w₀ (shown ++ [snapshot]))[shown.length]? = some (.refused reason) := by
    simp [← hreplies]
  by_cases hlt : shown.length < k
  · cases (hk _ _ hlast).1 hlt
  by_cases hgt : k < shown.length
  · have hget : (sink.replies w₀ (shown ++ [snapshot]))[k]? = some .accepted := by
      rw [← hreplies, List.getElem?_append_left (by simpa using hgt), List.getElem?_replicate, if_pos hgt]
    cases (hk k _ hget).2 rfl
  have heq : shown.length = k := by omega
  exact ⟨heq, Reply.refused.inj ((hk _ _ hlast).2 heq)⟩

end Answered

lemma replies_scripted (script : Nat → Reply) (kept : Array (String × Reply)) (shown : List String) :
    replies (Observer.scripted script).offer kept shown =
      (List.range' (kept.size + 1) shown.length).map script := by
  induction shown generalizing kept with
  | nil => rfl
  | cons snapshot shown ih =>
    rw [replies, ih, List.length_cons, List.range'_succ, List.map_cons]
    simp only [Observer.scripted, Array.size_push]

/-- Which snapshot a script refuses first does not depend on the snapshots. -/
lemma firstRefuses_scripted {script : Nat → Reply} {k : Nat} {message : String}
    (haccepts : ∀ i, i < k → script (i + 1) = .accepted) (hrefuses : script (k + 1) = .refused message)
    (shown : List String) : FirstRefuses (Observer.scripted script).offer #[] k message shown := by
  intro i reply hreply
  rw [replies_scripted, List.getElem?_map, Option.map_eq_some_iff] at hreply
  obtain ⟨number, hnumber, rfl⟩ := hreply
  obtain rfl : i + 1 = number := by
    have := List.getElem?_eq_some_iff.mp hnumber
    grind
  refine ⟨haccepts i, ?_⟩
  rintro rfl
  exact hrefuses

end Sink

end FlipLoop
