import FlipLoop.Event

/-!
# Observers

Whoever watches a run is told of its events and is offered its snapshots. An observer may refuse a
snapshot, which stops the run; it keeps what it likes in a state of its own.
-/

namespace FlipLoop

inductive Reply where
  | accepted
  | refused (message : String)
  deriving DecidableEq

structure Observer (σ : Type) where
  note : Event → σ → σ
  offer : String → σ → Reply × σ

namespace Observer

/-- Accepts every snapshot and keeps nothing. -/
def silent : Observer Unit where
  note _ w := w
  offer _ w := (.accepted, w)

/-- Answers the snapshots by number, the first being 1, and keeps each with its answer. -/
def scripted (script : Nat → Reply) : Observer (Array (String × Reply)) where
  note _ kept := kept
  offer snapshot kept :=
    let reply := script (kept.size + 1)
    (reply, kept.push (snapshot, reply))

def accepting : Observer (Array (String × Reply)) :=
  scripted fun _ => .accepted

end Observer

end FlipLoop
