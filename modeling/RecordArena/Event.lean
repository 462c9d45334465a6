import RecordArena.Numeric.Binary32

/-!
# Events

The structures report the rare steps that cost memory or time: growth, rehashing, recycling and
failed allocation. An event has a level, a fixed message and named values.
-/

namespace RecordArena

inductive Level where
  | trace
  | debug
  | error
  deriving DecidableEq, Repr

def Level.name : Level → String
  | trace => "TRACE"
  | debug => "DEBUG"
  | error => "ERROR"

inductive EventValue where
  | count (n : Nat)
  | flag (b : Bool)
  deriving DecidableEq, Repr

/-- The steps that are reported. -/
inductive Event where
  /-- The page table reserved room for more pages. -/
  | pageTableGrown (pages capacity : Nat)
  | pageGenerated (page : UInt32)
  /-- An empty page was queued for reuse. -/
  | pageRecycled (page : UInt32)
  | slabCreated (recordSize slots initialPages : Nat) (resetOnFree : Bool)
  | indexRehashed (capacity len : Nat)
  /-- A map is about to allocate its block. -/
  | mapCreated (keyLen valueWidth capacity : Nat) (loadFactor : Binary32)
  | mapRehashed (capacity len : Nat)
  /-- No anonymous mapping of that length can be made. What the system says of it is not kept. -/
  | mappingFailed (len : Nat)
  deriving DecidableEq, Repr

namespace Event

def level : Event → Level
  | pageGenerated _ | pageRecycled _ => .trace
  | mappingFailed _ => .error
  | _ => .debug

def message : Event → String
  | pageTableGrown .. => "page table grown"
  | pageGenerated _ => "page generated"
  | pageRecycled _ => "page recycled"
  | slabCreated .. => "slab created"
  | indexRehashed .. => "key store rehashed"
  | mapCreated .. => "off-heap map created"
  | mapRehashed .. => "off-heap map rehashed"
  | mappingFailed _ => "anonymous mapping failed"

/-- The counts and flags of an event; the load factor of a map is neither. -/
def values : Event → List (String × EventValue)
  | pageTableGrown pages capacity => [("pages", .count pages), ("capacity", .count capacity)]
  | pageGenerated page => [("page", .count page.toNat)]
  | pageRecycled page => [("page", .count page.toNat)]
  | slabCreated recordSize slots initialPages resetOnFree =>
    [("record_size", .count recordSize), ("slots", .count slots),
      ("initial_pages", .count initialPages), ("reset_on_free", .flag resetOnFree)]
  | indexRehashed capacity len => [("capacity", .count capacity), ("len", .count len)]
  | mapCreated keyLen valueWidth capacity _ =>
    [("key_len", .count keyLen), ("value_width", .count valueWidth), ("capacity", .count capacity)]
  | mapRehashed capacity len => [("capacity", .count capacity), ("len", .count len)]
  | mappingFailed len => [("len", .count len)]

end Event

end RecordArena
