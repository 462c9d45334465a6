import RecordArena.Event
import RecordArena.Failure

/-!
# Traced computations

A traced computation reports events in order and then gives an answer or fails. The events
reported before a failure are kept. Sequencing is associative, so traced computations form a lawful
monad.
-/

namespace RecordArena

/-- Events in order of report, and the outcome. -/
structure Traced (α : Type) where
  events : List Event
  outcome : Except Failure α

namespace Traced

def emit (event : Event) : Traced Unit := ⟨[event], .ok ()⟩

def fail {α : Type} (failure : Failure) : Traced α := ⟨[], .error failure⟩

/-- Runs `next` on the answer of `first`, if there is one; the events of `first` come first. -/
def andThen {α β : Type} (first : Traced α) (next : α → Traced β) : Traced β :=
  match first with
  | ⟨events, .error failure⟩ => ⟨events, .error failure⟩
  | ⟨events, .ok a⟩ =>
    let rest := next a
    ⟨events ++ rest.events, rest.outcome⟩

instance : Monad Traced where
  pure a := ⟨[], .ok a⟩
  bind := andThen

instance : LawfulMonad Traced :=
  LawfulMonad.mk' Traced
    (fun x => by
      obtain ⟨events, _ | a⟩ := x
      · rfl
      · change (⟨events ++ [], .ok a⟩ : Traced _) = _
        rw [List.append_nil])
    (fun _ _ => rfl)
    (fun x f g => by
      obtain ⟨events, _ | a⟩ := x
      · rfl
      · change _ = (⟨events ++ (andThen (f a) g).events, (andThen (f a) g).outcome⟩ : Traced _)
        change andThen ⟨events ++ (f a).events, (f a).outcome⟩ g = _
        generalize f a = y
        obtain ⟨more, _ | b⟩ := y
        · rfl
        · change (⟨events ++ more ++ (g b).events, (g b).outcome⟩ : Traced _) = _
          rw [List.append_assoc]
          rfl)

instance : MonadLift (Except Failure) Traced where
  monadLift x := ⟨[], x⟩

instance : MonadLift (Except Error) Traced where
  monadLift x := ⟨[], x.mapError .refused⟩

instance : MonadLift (Except Fault) Traced where
  monadLift x := ⟨[], x.mapError .faulted⟩

end Traced

end RecordArena
