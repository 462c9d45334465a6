import Mathlib.Tactic.NormNum
import RecordArena.Proofs.Probing.Peak

/-!
# Growing by doublings

A table that has to grow doubles its capacity until the limit holds its entries. A load factor is
one part in `2 ^ 16` at least, so the doublings come to an end below `2 ^ 17` slots for an entry,
and for as long as these can be counted no capacity on the way is too large to be a count.

## Main definitions

* `DoublesTo` – the loop of doublings, one capacity after the other.

## Main statements

* `Binary32.isLoadFactor_iff_toRat` – the load factors, by their values.
* `SettlesAt.doublesTo` – the loop ends where the entries settle.
* `grownCapacity_isLeast` – limits are exact, and growing takes the least doubling that holds the
  entries.
-/

namespace RecordArena

/-- Doubling `capacity` for as long as its limit is below `len` ends at `grown`, and no capacity on
the way is too large to be a count. -/
inductive DoublesTo (len : Nat) (factor : Binary32) : (capacity grown : Nat) → Prop
  | hold {capacity : Nat} (h : len ≤ resizeLimit capacity factor) :
    DoublesTo len factor capacity capacity
  | double {capacity grown : Nat} (hpassed : resizeLimit capacity factor < len)
    (hcount : 2 * capacity ≤ Numeric.maxCount) (hrest : DoublesTo len factor (2 * capacity) grown) :
    DoublesTo len factor capacity grown

/-- The load factors are the numbers from `1 / 65536` on that are below one. -/
theorem Binary32.isLoadFactor_iff_toRat (f : Binary32) :
    f.isLoadFactor = true ↔ 1 / 65536 ≤ f.toRat ∧ f.toRat < 1 := by
  have hone : (0 : ℚ) < unitsPerOne := by
    rw [Nat.cast_pos]
    decide
  rw [isLoadFactor_iff]
  by_cases hneg : f.isNegative = true
  · -- a negative number, and negative zero, is below all load factors
    have hle : f.toRat ≤ 0 := by
      rw [toRat, if_pos hneg, neg_one_mul, neg_nonpos]
      positivity
    constructor
    · rintro ⟨hpos, -⟩
      rw [hneg] at hpos
      contradiction
    · rintro ⟨hmin, -⟩
      have hpos : (0 : ℚ) < 1 / 65536 := by norm_num
      exact absurd (hpos.trans_le hmin) (not_lt.mpr hle)
  · have hvalue : f.toRat = f.units / unitsPerOne := by
      rw [toRat, if_neg hneg, one_mul]
    have hmin : (1 / 65536 : ℚ) * unitsPerOne = (2 ^ 133 : Nat) := by
      norm_num [unitsPerOne]
    rw [hvalue, le_div_iff₀ hone, div_lt_one hone, hmin, Nat.cast_le, Nat.cast_lt]
    simp [hneg]

section Growing

variable {factor : Binary32}

/-- The doublings come to the first capacity that holds the entries. -/
theorem SettlesAt.doublesTo {len start capacity : Nat} (h : SettlesAt start factor len capacity)
    (hcount : capacity ≤ Numeric.maxCount) : DoublesTo len factor start capacity := by
  obtain ⟨j, rfl, hhold, hfirst⟩ := h
  -- one doubling of the start is one doubling less to go
  induction j generalizing start with
  | zero =>
    rw [Nat.pow_zero, Nat.mul_one] at hhold ⊢
    exact .hold hhold
  | succ j ih =>
    have hdouble : ∀ i, start * 2 ^ (i + 1) = 2 * start * 2 ^ i := fun i => by
      rw [Nat.pow_succ]
      ring
    have hpassed := hfirst 0 (by omega)
    rw [Nat.pow_zero, Nat.mul_one] at hpassed
    simp only [hdouble] at hhold hcount ⊢
    refine .double hpassed ?_ (ih hcount hhold ?_)
    · exact (Nat.le_mul_of_pos_right _ (Nat.two_pow_pos j)).trans hcount
    · intro i hi
      rw [← hdouble]
      exact hfirst (i + 1) (by omega)

variable (hf : factor.isLoadFactor = true)

include hf

/-- Growing settles among the doublings, also if the old capacity is far too small. -/
theorem grownCapacity_settlesAt {k len : Nat} (hlen : len ≤ 2 ^ 45) :
    SettlesAt (2 ^ (k + 1)) factor len (grownCapacity (2 ^ k) len factor) := by
  have hreach : len ≤ resizeLimit (2 ^ (k + 1) * 2 ^ 61) factor := by
    have hlimit := le_resizeLimit hf (k + 46)
    have hpow : 2 ^ 45 ≤ 2 ^ (k + 46) := Nat.pow_le_pow_right (by omega) (by omega)
    have hcount : 2 ^ 45 ≤ Numeric.maxCount := by decide
    rw [← Nat.pow_add, show k + 1 + 61 = k + 46 + 16 by omega]
    omega
  have hdoublings : 61 ≤ 64 := by omega
  obtain ⟨j, hj, hhold, hfirst⟩ := firstHolding_spec ⟨61, hdoublings, hreach⟩
  rw [grownCapacity, ← Nat.pow_succ', hj]
  exact ⟨j, rfl, hhold, hfirst⟩

/-- A capacity that is not the start settles at fewer than `2 ^ 17` slots for an entry. -/
theorem SettlesAt.eq_or_lt {k len capacity : Nat} (h : SettlesAt (2 ^ k) factor len capacity)
    (hlen : len ≤ Numeric.maxCount) : capacity = 2 ^ k ∨ capacity < 2 ^ 17 * len := by
  obtain ⟨j, rfl, -, hfirst⟩ := h
  cases j with
  | zero => exact .inl (by rw [Nat.pow_zero, Nat.mul_one])
  | succ j =>
    -- half of it was tried and was too small
    have hpassed := hfirst j (Nat.lt_succ_self j)
    rw [← Nat.pow_add] at hpassed ⊢
    have := lt_of_resizeLimit_lt hf hpassed hlen
    rw [← Nat.add_assoc, Nat.pow_succ]
    exact .inr (by omega)

end Growing

/-- The limit of a power of two of slots is the exact product with the load factor, rounded down,
and leaves a slot vacant. To grow, a table doubles its capacity until its limit holds the entries.
This comes to an end, at the least doubling that does, which has fewer than `2 ^ 17` slots for an
entry unless it is the first one. -/
theorem grownCapacity_isLeast {factor : Binary32} (hmin : 1 / 65536 ≤ factor.toRat)
    (hmax : factor.toRat < 1) {k len : Nat} (hcapacity : 2 * 2 ^ k ≤ 2 ^ 62)
    (hlen : 2 ^ 17 * len ≤ 2 ^ 62) :
    resizeLimit (2 ^ k) factor = ⌊((2 ^ k : Nat) : ℚ) * factor.toRat⌋₊ ∧
    resizeLimit (2 ^ k) factor < 2 ^ k ∧
    DoublesTo len factor (2 * 2 ^ k) (grownCapacity (2 ^ k) len factor) ∧
    IsLeast {c : Nat | ∃ j ≥ 1, c = 2 ^ k * 2 ^ j ∧ len ≤ ⌊(c : ℚ) * factor.toRat⌋₊}
      (grownCapacity (2 ^ k) len factor) ∧
    (∃ i, grownCapacity (2 ^ k) len factor = 2 ^ i) ∧
    len < grownCapacity (2 ^ k) len factor ∧
    (grownCapacity (2 ^ k) len factor = 2 * 2 ^ k ∨
      grownCapacity (2 ^ k) len factor < 2 ^ 17 * len) := by
  have hf : factor.isLoadFactor = true := factor.isLoadFactor_iff_toRat.mpr ⟨hmin, hmax⟩
  have hcount : 2 ^ 62 ≤ Numeric.maxCount := by decide
  have hlimit := exactLimit_lt hf (Nat.two_pow_pos k)
  have hsettles : SettlesAt (2 ^ (k + 1)) factor len (grownCapacity (2 ^ k) len factor) :=
    grownCapacity_settlesAt hf (by omega)
  have hsize := hsettles.eq_or_lt hf (by omega)
  have hleast := hsettles.isLeast hf
  obtain ⟨j, hj, hhold, -⟩ := id hsettles
  rw [← Nat.pow_add] at hj
  have hroom := resizeLimit_lt hf (k + 1 + j)
  rw [Nat.pow_succ'] at hsize
  refine ⟨?_, resizeLimit_lt hf k, ?_, ?_, ⟨_, hj⟩, ?_, hsize⟩
  · rw [resizeLimit_eq_exactLimit hf]
    exact Nat.min_eq_left (by omega)
  · rw [← Nat.pow_succ']
    exact hsettles.doublesTo (by omega)
  · convert hleast using 2
    -- the first doubling is the start of the others
    ext c
    constructor
    · rintro ⟨i, hi, rfl, hc⟩
      refine ⟨i - 1, ?_, hc⟩
      rw [← Nat.pow_add, ← Nat.pow_add, show k + 1 + (i - 1) = k + i by omega]
    · rintro ⟨i, rfl, hc⟩
      refine ⟨i + 1, Nat.succ_le_succ (Nat.zero_le i), ?_, hc⟩
      rw [← Nat.pow_add, ← Nat.pow_add, show k + 1 + i = k + (i + 1) by omega]
  · rw [hj] at hhold ⊢
    omega

/-- At the smallest load factor, the table of eight slots that is to hold one entry doubles its
capacity until there are as many slots as that allows. -/
theorem grownCapacity_isLeast_minLoadFactor :
    1 / 65536 ≤ minLoadFactor.toRat ∧ minLoadFactor.toRat < 1 ∧ 2 * 2 ^ 3 ≤ 2 ^ 62 ∧
      2 ^ 17 * 1 ≤ 2 ^ 62 ∧ resizeLimit (2 ^ 3) minLoadFactor = 0 ∧
      DoublesTo 1 minLoadFactor (2 * 2 ^ 3) 65536 ∧
      ∀ j ≥ 1, 1 ≤ ⌊((2 ^ 3 * 2 ^ j : Nat) : ℚ) * minLoadFactor.toRat⌋₊ →
        65536 ≤ 2 ^ 3 * 2 ^ j := by
  obtain ⟨hmin, hmax⟩ := (Binary32.isLoadFactor_iff_toRat minLoadFactor).mp (by decide)
  have hcapacity : 2 * 2 ^ 3 ≤ 2 ^ 62 := by decide
  have hlen : 2 ^ 17 * 1 ≤ 2 ^ 62 := by decide
  have hlimit : resizeLimit (2 ^ 3) minLoadFactor = 0 := by decide +kernel
  have hgrown : grownCapacity (2 ^ 3) 1 minLoadFactor = 65536 := by decide +kernel
  obtain ⟨-, -, hdoubles, hleast, -⟩ := grownCapacity_isLeast hmin hmax hcapacity hlen
  rw [hgrown] at hdoubles hleast
  refine ⟨hmin, hmax, hcapacity, hlen, hlimit, hdoubles, ?_⟩
  intro j hj hroom
  exact hleast.2 ⟨j, hj, rfl, hroom⟩

end RecordArena
