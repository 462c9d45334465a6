import RecordArena.Error
import RecordArena.Fault

/-!
# Failures

An operation that can both refuse a request and meet a fault fails with a `Failure`. Operations
that can only do one of the two say so in their type and are lifted where they are combined.
-/

namespace RecordArena

/-- Why an operation gave no answer. -/
inductive Failure where
  | refused (error : Error)
  /-- A precondition was broken. -/
  | faulted (fault : Fault)
  deriving DecidableEq, Repr

instance : MonadLift (Except Error) (Except Failure) where
  monadLift x := x.mapError .refused

instance : MonadLift (Except Fault) (Except Failure) where
  monadLift x := x.mapError .faulted

end RecordArena
