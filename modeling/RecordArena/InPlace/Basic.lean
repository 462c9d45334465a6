import RecordArena.Traced

/-!
# Changes in place

The operations of this library answer a new value. When they fail there is none, and the caller
keeps the old one. Memory is changed in place: what was written before a failure stays written, so
whether the old value is still there depends on the order of checks and writes.

A change in place is an operation taken apart into these steps. It works on a state and leaves one
behind whether it fails or not.

## Main definitions

* `InPlace` – changes of a state, with their events and outcome.
* `InPlace.look`, `InPlace.alter` – reading the state and writing it.
* `InPlace.within` – changing a part of the state.
-/

namespace RecordArena

/-- A change of a state of type `σ`: the events and the outcome, and the state that is left. -/
def InPlace (σ α : Type) : Type := σ → Traced α × σ

namespace InPlace

variable {σ τ α β : Type}

/-- Goes on with `next` on the state that `first` leaves, unless `first` failed. -/
def andThen (first : InPlace σ α) (next : α → InPlace σ β) : InPlace σ β := fun s =>
  match first s with
  | (⟨events, .error failure⟩, s) => (⟨events, .error failure⟩, s)
  | (⟨events, .ok a⟩, s) =>
    let (rest, s) := next a s
    (⟨events ++ rest.events, rest.outcome⟩, s)

instance : Monad (InPlace σ) where
  pure a s := (pure a, s)
  bind := andThen

/-- A computation of its own leaves the state as it is, also when it fails. -/
instance : MonadLift Traced (InPlace σ) where
  monadLift x s := (x, s)

def look : InPlace σ σ := fun s => (pure s, s)

def alter (change : σ → σ) : InPlace σ Unit := fun s => (pure (), change s)

/-- Changes a part of the state. What is left of the part is put back in any case. -/
def within (part : σ → τ) (replace : τ → σ → σ) (change : InPlace τ α) : InPlace σ α := fun s =>
  let (x, t) := change (part s)
  (x, replace t s)

end InPlace

end RecordArena
