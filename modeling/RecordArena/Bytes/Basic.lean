import RecordArena.Fault

/-!
# Byte regions

Everything this library stores lives in regions of bytes. A region is read and written through
bounds-checked ranges: a range that leaves the region is a fault, and a faulting write changes
nothing because the region is a value.

## Main definitions

* `Bytes.read`, `Bytes.write` – the checked primitives.
* `Bytes.overwrite` – the unchecked write they are built from; bytes past the end are dropped.
* `Bytes.zeros`, `Bytes.zero` – fresh and cleared regions.

`Bytes.getElem?_overwrite` says what a write does to every byte.
-/

namespace RecordArena

abbrev Bytes := Array UInt8

namespace Bytes

def zeros (len : Nat) : Bytes := Array.replicate len 0

/-- The region of the same length whose bytes are all zero. -/
def zero (b : Bytes) : Bytes := zeros b.size

def read (b : Bytes) (start len : Nat) : Except Fault Bytes :=
  if start + len ≤ b.size then .ok (b.extract start (start + len)) else .error .outOfRange

/-- Replaces the bytes from `start` on by `src`; what falls past the end is dropped. -/
def overwrite (b : Bytes) (start : Nat) : List UInt8 → Bytes
  | [] => b
  | x :: xs => overwrite (b.setIfInBounds start x) (start + 1) xs

/-- Replaces the bytes from `start` on by `src`, which has to fit. -/
def write (b : Bytes) (start : Nat) (src : Bytes) : Except Fault Bytes :=
  if start + src.size ≤ b.size then .ok (overwrite b start src.toList) else .error .outOfRange

def byteAt (b : Bytes) (i : Nat) : Except Fault UInt8 :=
  if h : i < b.size then .ok b[i] else .error .outOfRange

@[simp] theorem size_overwrite (b : Bytes) (start : Nat) (src : List UInt8) :
    (overwrite b start src).size = b.size := by
  induction src generalizing b start with
  | nil => rfl
  | cons x xs ih => rw [overwrite, ih, Array.size_setIfInBounds]

/-- An overwritten region shows the source where it was written and its old bytes elsewhere. -/
theorem getElem?_overwrite (b : Bytes) (start : Nat) (src : List UInt8) (j : Nat) :
    (overwrite b start src)[j]? =
      if start ≤ j ∧ j < start + src.length ∧ j < b.size then src[j - start]? else b[j]? := by
  induction src generalizing b start with
  | nil =>
    rw [overwrite, if_neg]
    simp only [List.length_nil]
    omega
  | cons x xs ih =>
    rw [overwrite, ih, Array.size_setIfInBounds, Array.getElem?_setIfInBounds, List.length_cons]
    by_cases h : start = j
    · subst h
      rw [if_neg (by omega), if_pos rfl, Nat.sub_self, List.getElem?_cons_zero]
      by_cases hb : start < b.size
      · rw [if_pos hb, if_pos (by omega)]
      · rw [if_neg hb, if_neg (by omega), Array.getElem?_eq_none (by omega)]
    · rw [if_neg h]
      by_cases hlt : start ≤ j
      · have hj : j - start = (j - (start + 1)) + 1 := by omega
        rw [hj, List.getElem?_cons_succ]
        have : (start + 1 ≤ j ∧ j < start + 1 + xs.length ∧ j < b.size) ↔
            (start ≤ j ∧ j < start + (xs.length + 1) ∧ j < b.size) := by omega
        simp only [this]
      · rw [if_neg (by omega), if_neg (by omega)]

@[simp] theorem size_zero (b : Bytes) : (zero b).size = b.size := by
  simp [zero, zeros]

end Bytes

end RecordArena
