import RecordArena.Bytes.Words

/-!
# Key comparison

Two comparisons step over words. `sameKey` compares regions of equal length exactly. `paddedEq`
compares zero-padded regions over the shorter length and stops with a match at the first word that
is zero on both sides.
-/

namespace RecordArena.Bytes

def sameKey (a b : Bytes) : Bool :=
  a.size == b.size && a.words == b.words && a.tail == b.tail

/-- The first pair of words that differs or is zero decides; without one, `rest` does. -/
def agreeUpToZero (rest : Bool) : List UInt64 → List UInt64 → Bool
  | v :: vs, w :: ws => if v ≠ w then false else if v = 0 then true else agreeUpToZero rest vs ws
  | _, _ => rest

/-- Equality of zero-padded regions over the shorter of their lengths. -/
def paddedEq (a b : Bytes) : Bool :=
  let shared := min a.size b.size
  let a' : Bytes := a.extract 0 shared
  let b' : Bytes := b.extract 0 shared
  agreeUpToZero (a'.tail == b'.tail) a'.words b'.words

end RecordArena.Bytes
