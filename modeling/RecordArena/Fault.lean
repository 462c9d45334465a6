/-!
# Faults

A fault is a broken precondition: a caller asked for something that does not exist, so the
operation has no answer at all. Faults are kept apart from `RecordArena.Error`, which holds the
requests that are refused with a reason.
-/

namespace RecordArena

/-- The ways in which a request can have no answer. -/
inductive Fault where
  /-- A byte, record slot or table slot past the end of what holds it. -/
  | outOfRange
  | missingPage (page : UInt32)
  /-- A region of memory longer than its backing can provide. -/
  | unallocatable (bytes : Nat)
  /-- A probe of a table without a vacant slot, which would never end. -/
  | endless
  deriving DecidableEq, Repr

end RecordArena
