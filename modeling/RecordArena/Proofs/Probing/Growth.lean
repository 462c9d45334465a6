import Mathlib.Tactic.Ring
import RecordArena.Probing.Growth

/-!
# Limits and capacities

A load factor has a significand of 24 bits, so its product with a power of two is exact at double
precision and the limit of a table is the product truncated. The limit is below the capacity, which
keeps a slot vacant, and doubling reaches every count.

## Main statements

* `resizeLimit_two_pow`, `resizeLimit_lt` – the limit of a table, and that it leaves a vacancy.
* `grownCapacity_spec` – growing takes the first doubling whose limit holds the entries.
* `SettlesAt` – the capacity that a table has after its peak.
-/

namespace RecordArena

namespace Numeric

/-- A number of at most `p` bits times a power of two is not rounded. -/
theorem roundToBits_exact {p m : Nat} (hm : m < 2 ^ p) (j : Nat) :
    roundToBits p (m * 2 ^ j) = m * 2 ^ j := by
  rw [roundToBits]
  split
  · rfl
  · next hbig =>
    have hpos : m * 2 ^ j ≠ 0 := by
      intro h
      rw [h] at hbig
      exact hbig (Nat.two_pow_pos p)
    have hlog : (m * 2 ^ j).log2 < p + j := by
      rw [Nat.log2_lt hpos, Nat.pow_add]
      exact Nat.mul_lt_mul_of_pos_right hm (Nat.two_pow_pos j)
    -- only zeros are cut off
    have hdvd : 2 ^ ((m * 2 ^ j).log2 + 1 - p) ∣ m * 2 ^ j :=
      Nat.dvd_mul_left_of_dvd (Nat.pow_dvd_pow 2 (by omega)) m
    simp only [roundQuotient, Nat.mod_eq_zero_of_dvd hdvd, Nat.mul_zero, Nat.two_pow_pos, if_true]
    exact Nat.div_mul_cancel hdvd

theorem ceilPowerOfTwo_eq {n k : Nat} (h : n ≤ 2 ^ k) :
    ∃ j ≤ k, ceilPowerOfTwo n = 2 ^ j := by
  rw [ceilPowerOfTwo]
  split
  · exact ⟨0, Nat.zero_le k, rfl⟩
  · refine ⟨(n - 1).log2 + 1, ?_, rfl⟩
    rw [Nat.succ_le_iff, Nat.log2_lt (by omega)]
    omega

end Numeric

namespace Binary32

theorem significand_lt (f : Binary32) : f.significand < 2 ^ 24 := by
  have hfrac : f.fractionField < 2 ^ 23 := Nat.mod_lt _ (Nat.two_pow_pos 23)
  rw [significand]
  split <;> omega

/-- An infinity would be a magnitude far above one. -/
theorem isSpecial_eq_false {f : Binary32} (h : f.units < unitsPerOne) : f.isSpecial = false := by
  by_contra hspecial
  have hfield : f.exponentField = 255 := by
    simpa only [isSpecial, Bool.not_eq_false, beq_iff_eq] using hspecial
  have hsig : 2 ^ 23 ≤ f.significand := by
    rw [significand, if_neg (by omega)]
    exact Nat.le_add_right _ _
  have hexp : f.exponent = 254 := by rw [exponent, hfield]
  have hunits : 2 ^ 23 * 2 ^ 254 ≤ f.units := by
    rw [units, hexp]
    exact Nat.mul_le_mul_right _ hsig
  have hone : unitsPerOne < 2 ^ 23 * 2 ^ 254 := by decide
  omega

theorem isLoadFactor_iff {f : Binary32} :
    f.isLoadFactor = true ↔
      f.isNegative = false ∧ 2 ^ 133 ≤ f.units ∧ f.units < unitsPerOne := by
  have hmin : minLoadFactor.units = 2 ^ 133 := by decide
  simp only [isLoadFactor, hmin, Bool.and_eq_true, Bool.not_eq_true', decide_eq_true_eq, and_assoc]

end Binary32

theorem TableConfig.capacity_eq_ok {config : TableConfig} {capacity : Nat}
    (h : config.capacity = .ok capacity) :
    config.loadFactor.isLoadFactor = true ∧ ∃ k ≤ 30, capacity = 2 ^ k := by
  unfold TableConfig.capacity at h
  split at h
  · cases h
  · next hf =>
    split at h
    · cases h
    · next hle =>
      cases h
      refine ⟨by simpa using hf, Numeric.ceilPowerOfTwo_eq ?_⟩
      rw [maxInitialCapacity] at hle
      omega

section Limit

variable {factor : Binary32}

/-- The limit of a power of two of slots is the exact product, truncated. -/
theorem resizeLimit_two_pow (hf : factor.isLoadFactor = true) (k : Nat) :
    resizeLimit (2 ^ k) factor =
      min (2 ^ k * factor.units / Binary32.unitsPerOne) Numeric.maxCount := by
  obtain ⟨hneg, -, hlt⟩ := Binary32.isLoadFactor_iff.mp hf
  have hspecial := Binary32.isSpecial_eq_false hlt
  have hslots : Numeric.roundToBits doublePrecision (2 ^ k) = 2 ^ k := by
    have h := Numeric.roundToBits_exact (p := doublePrecision) (m := 1) (by decide) k
    rwa [Nat.one_mul] at h
  -- the product has the 24 bits of the significand, which a double holds
  have hproduct : Numeric.roundToBits doublePrecision (2 ^ k * factor.units) =
      2 ^ k * factor.units := by
    have hm : factor.significand < 2 ^ doublePrecision :=
      factor.significand_lt.trans_le (Nat.pow_le_pow_right (by omega) (by decide))
    have h := Numeric.roundToBits_exact hm (factor.exponent + k)
    have heq : factor.significand * 2 ^ (factor.exponent + k) = 2 ^ k * factor.units := by
      rw [Binary32.units, Nat.pow_add]
      ring
    rwa [heq] at h
  simp only [resizeLimit, Binary32.isNaN, hspecial, hneg, Bool.false_and, Bool.or_self,
    Bool.false_eq_true, if_false, hslots, hproduct]

/-- A table at its limit has a vacant slot. -/
theorem resizeLimit_lt (hf : factor.isLoadFactor = true) (k : Nat) :
    resizeLimit (2 ^ k) factor < 2 ^ k := by
  obtain ⟨-, -, hlt⟩ := Binary32.isLoadFactor_iff.mp hf
  rw [resizeLimit_two_pow hf]
  refine (Nat.min_le_left _ _).trans_lt (Nat.div_lt_of_lt_mul ?_)
  rw [Nat.mul_comm]
  exact Nat.mul_lt_mul_of_pos_right hlt (Nat.two_pow_pos k)

/-- The smallest load factor leaves room for one entry in `2 ^ 16` slots. -/
theorem le_resizeLimit (hf : factor.isLoadFactor = true) (k : Nat) :
    min (2 ^ k) Numeric.maxCount ≤ resizeLimit (2 ^ (k + 16)) factor := by
  obtain ⟨-, hmin, -⟩ := Binary32.isLoadFactor_iff.mp hf
  have hle : 2 ^ k ≤ 2 ^ (k + 16) * factor.units / Binary32.unitsPerOne := by
    have hone : 0 < Binary32.unitsPerOne := by decide
    rw [Nat.le_div_iff_mul_le hone]
    calc 2 ^ k * Binary32.unitsPerOne
        = 2 ^ (k + 16) * 2 ^ 133 := by rw [Binary32.unitsPerOne, Nat.pow_add]; ring
      _ ≤ 2 ^ (k + 16) * factor.units := Nat.mul_le_mul_left _ hmin
  rw [resizeLimit_two_pow hf]
  omega

/-- A limit that is passed bounds the capacity. -/
theorem lt_of_resizeLimit_lt (hf : factor.isLoadFactor = true) {k len : Nat}
    (h : resizeLimit (2 ^ k) factor < len) (hlen : len ≤ Numeric.maxCount) :
    2 ^ k < len * 2 ^ 16 := by
  obtain ⟨-, hmin, -⟩ := Binary32.isLoadFactor_iff.mp hf
  have hone : 0 < Binary32.unitsPerOne := by decide
  rw [resizeLimit_two_pow hf] at h
  have hdiv : 2 ^ k * factor.units / Binary32.unitsPerOne < len := by omega
  rw [Nat.div_lt_iff_lt_mul hone] at hdiv
  have hmul : 2 ^ k * 2 ^ 133 < len * 2 ^ 16 * 2 ^ 133 := by
    calc 2 ^ k * 2 ^ 133
        ≤ 2 ^ k * factor.units := Nat.mul_le_mul_left _ hmin
      _ < len * Binary32.unitsPerOne := hdiv
      _ = len * 2 ^ 16 * 2 ^ 133 := by rw [Binary32.unitsPerOne]; ring
  exact Nat.lt_of_mul_lt_mul_right hmul

end Limit

/-- When some doubling within reach holds the entries, the first one does. -/
theorem firstHolding_spec {len : Nat} {factor : Binary32} {doublings capacity : Nat}
    (h : ∃ j ≤ doublings, len ≤ resizeLimit (capacity * 2 ^ j) factor) :
    ∃ j, firstHolding len factor doublings capacity = capacity * 2 ^ j ∧
      len ≤ resizeLimit (capacity * 2 ^ j) factor ∧
      ∀ i < j, resizeLimit (capacity * 2 ^ i) factor < len := by
  induction doublings generalizing capacity with
  | zero =>
    obtain ⟨j, hj, hlen⟩ := h
    obtain rfl : j = 0 := by omega
    exact ⟨0, by rw [firstHolding, Nat.pow_zero, Nat.mul_one], hlen, fun i hi => by omega⟩
  | succ doublings ih =>
    rw [firstHolding]
    have hdouble : ∀ i, 2 * capacity * 2 ^ i = capacity * 2 ^ (i + 1) := fun i => by
      rw [Nat.pow_succ]; ring
    split
    · next hlt =>
      obtain ⟨j, hj, hlen⟩ := h
      cases j with
      | zero =>
        rw [Nat.pow_zero, Nat.mul_one] at hlen
        omega
      | succ j =>
        obtain ⟨l, hl, hhold, hfirst⟩ := ih ⟨j, by omega, by rwa [hdouble]⟩
        rw [hdouble] at hl hhold
        refine ⟨l + 1, hl, hhold, fun i hi => ?_⟩
        cases i with
        | zero => rwa [Nat.pow_zero, Nat.mul_one]
        | succ i =>
          rw [← hdouble]
          exact hfirst i (by omega)
    · next hle =>
      refine ⟨0, by rw [Nat.pow_zero, Nat.mul_one], ?_, fun i hi => by omega⟩
      rw [Nat.pow_zero, Nat.mul_one]
      omega

/-- Growing takes the first doubling, one at least, whose limit holds the entries. -/
theorem grownCapacity_spec {factor : Binary32} (hf : factor.isLoadFactor = true) {k len : Nat}
    (hlen : len ≤ 2 ^ k) (hcount : len ≤ Numeric.maxCount) :
    ∃ j, grownCapacity (2 ^ k) len factor = 2 ^ (k + (j + 1)) ∧
      len ≤ resizeLimit (2 ^ (k + (j + 1))) factor ∧
      ∀ i < j, resizeLimit (2 ^ (k + (i + 1))) factor < len := by
  have hpow : ∀ i, 2 * 2 ^ k * 2 ^ i = 2 ^ (k + (i + 1)) := fun i => by
    rw [Nat.pow_add, Nat.pow_succ]; ring
  -- the search gives up after 64 doublings, but 16 are enough for the smallest load factor
  have hreach : len ≤ resizeLimit (2 * 2 ^ k * 2 ^ 16) factor := by
    have hlimit := le_resizeLimit hf (k + 1)
    have hsucc : 2 ^ k ≤ 2 ^ (k + 1) := Nat.pow_le_pow_right (by omega) (by omega)
    rw [hpow, show k + (16 + 1) = k + 1 + 16 by omega]
    omega
  obtain ⟨j, hj, hhold, hfirst⟩ := firstHolding_spec
    (⟨16, by omega, hreach⟩ : ∃ i ≤ 64, len ≤ resizeLimit (2 * 2 ^ k * 2 ^ i) factor)
  simp only [hpow] at hj hhold hfirst
  exact ⟨j, hj, hhold, hfirst⟩

/-- A table that grew because its limit was passed has not grown far beyond its entries. -/
theorem grownCapacity_lt {factor : Binary32} (hf : factor.isLoadFactor = true) {k len : Nat}
    (hlen : len ≤ 2 ^ k) (hcount : len ≤ Numeric.maxCount)
    (hpassed : resizeLimit (2 ^ k) factor < len) :
    grownCapacity (2 ^ k) len factor < len * 2 ^ 17 := by
  obtain ⟨j, hj, -, hfirst⟩ := grownCapacity_spec hf hlen hcount
  -- half the new capacity was too small, be it the old one or a doubling that was tried
  have hhalf : resizeLimit (2 ^ (k + j)) factor < len := by
    cases j with
    | zero => exact hpassed
    | succ j => exact hfirst j (by omega)
  have := lt_of_resizeLimit_lt hf hhalf hcount
  rw [hj, ← Nat.add_assoc, Nat.pow_succ]
  omega

/-- Whether `capacity` is the first doubling of `start` whose limit holds `len` entries. -/
def SettlesAt (start : Nat) (factor : Binary32) (len capacity : Nat) : Prop :=
  ∃ j, capacity = start * 2 ^ j ∧ len ≤ resizeLimit capacity factor ∧
    ∀ i < j, resizeLimit (start * 2 ^ i) factor < len

namespace SettlesAt

variable {factor : Binary32} {start peak capacity : Nat}

theorem zero (start : Nat) (factor : Binary32) : SettlesAt start factor 0 start :=
  ⟨0, by rw [Nat.pow_zero, Nat.mul_one], Nat.zero_le _, fun i hi => by omega⟩

theorem of_le {len : Nat} (h : SettlesAt start factor peak capacity) (hpeak : peak ≤ len)
    (hlen : len ≤ resizeLimit capacity factor) : SettlesAt start factor len capacity := by
  obtain ⟨j, hj, -, hfirst⟩ := h
  exact ⟨j, hj, hlen, fun i hi => (hfirst i hi).trans_le hpeak⟩

/-- More entries settle at no smaller a capacity. -/
theorem capacity_le {len capacity' : Nat} (h : SettlesAt start factor len capacity)
    (h' : SettlesAt start factor peak capacity') (hle : len ≤ peak) : capacity ≤ capacity' := by
  obtain ⟨j, rfl, -, hfirst⟩ := h
  obtain ⟨j', rfl, hhold, -⟩ := h'
  have hj : j ≤ j' := by
    by_contra hlt
    have := hfirst j' (by omega)
    omega
  exact Nat.mul_le_mul_left start (Nat.pow_le_pow_right (by omega) hj)

theorem grow {k len : Nat} (h : SettlesAt start factor peak (2 ^ k))
    (hf : factor.isLoadFactor = true) (hpeak : peak ≤ len) (hlen : len ≤ 2 ^ k)
    (hcount : len ≤ Numeric.maxCount) (hpassed : resizeLimit (2 ^ k) factor < len) :
    SettlesAt start factor len (grownCapacity (2 ^ k) len factor) := by
  obtain ⟨j, hj, -, hfirst⟩ := h
  obtain ⟨l, hl, hhold, hgrow⟩ := grownCapacity_spec hf hlen hcount
  have hpow : ∀ i, start * 2 ^ (j + i) = 2 ^ (k + i) := fun i => by
    rw [Nat.pow_add, ← Nat.mul_assoc, ← hj, Nat.pow_add]
  refine ⟨j + (l + 1), by rw [hpow, hl], by rwa [hl], fun i hi => ?_⟩
  rcases Nat.lt_trichotomy i j with hlt | rfl | hgt
  · exact (hfirst i hlt).trans_le hpeak
  · rwa [← hj]
  · obtain ⟨d, rfl⟩ : ∃ d, i = j + (d + 1) := ⟨i - j - 1, by omega⟩
    rw [hpow]
    exact hgrow d (by omega)

end SettlesAt

end RecordArena
