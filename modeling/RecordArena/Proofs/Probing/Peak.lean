import Mathlib.Algebra.Order.Floor.Semifield
import Mathlib.Data.Rat.Floor
import Mathlib.Order.Bounds.Defs
import RecordArena.Proofs.Probing.Table
import RecordArena.Proofs.Rehashes

/-!
# Capacities follow the peak

The capacity of a table is determined by the largest count that it had, however often the count went
down in between, and a table grows in the one step that raises its count above its limit. Nothing
but the counters of the table matters for that, so it is shown of any answered step, whatever the
entries are and wherever they are kept.

## Main definitions

* `exactLimit` – the limit of a capacity, by exact arithmetic.
* `FollowsPeak` – the capacity is the first doubling that holds the peak.
* `ReportsGrowth` – a rehash is reported when the limit is passed.
* `Table.Step` – what an answered call makes of a table, with the events that it reports.
* `Table.Peaked` – the counters of a table after a peak.

## Main statements

* `Table.Peaked.followsPeak` – what the counters say of capacity and length.
* `Table.Step.peaked` – a step keeps the counters right and reports its growth.
-/

namespace RecordArena

/-- The value of a finite number. -/
def Binary32.toRat (f : Binary32) : ℚ :=
  (if f.isNegative then -1 else 1) * (f.units / unitsPerOne)

/-- The entries that `capacity` slots may hold: the product with the load factor, rounded down. -/
def exactLimit (capacity : Nat) (factor : Binary32) : Nat :=
  ⌊(capacity : ℚ) * factor.toRat⌋₊

/-- The capacity is the first doubling of `start` whose limit holds the peak, and the limit holds
the length. -/
structure FollowsPeak (start : Nat) (factor : Binary32) (peak capacity len : Nat) : Prop where
  isLeast : IsLeast {c | ∃ j, c = start * 2 ^ j ∧ peak ≤ exactLimit c factor} capacity
  len_le : len ≤ exactLimit capacity factor

/-- A call reports one rehash, with the capacity and the length after it, if it raises the length
above the limit, and nothing otherwise; so nothing at all if it does not raise the length. -/
structure ReportsGrowth (factor : Binary32) (report : (capacity len : Nat) → Event)
    (capacity len capacity' len' : Nat) (events : List Event) : Prop where
  events_eq : events = if exactLimit capacity factor < len' then [report capacity' len'] else []
  quiet : len' ≤ len → events = []

section Exact

variable {factor : Binary32}

theorem exactLimit_eq (hf : factor.isLoadFactor = true) (capacity : Nat) :
    exactLimit capacity factor = capacity * factor.units / Binary32.unitsPerOne := by
  obtain ⟨hneg, -, -⟩ := Binary32.isLoadFactor_iff.mp hf
  rw [exactLimit, Binary32.toRat, hneg, if_neg Bool.false_ne_true, one_mul, ← mul_div_assoc,
    ← Nat.cast_mul, Nat.floor_div_eq_div]

/-- The limit of a power of two of slots is exact, up to the largest count. -/
theorem resizeLimit_eq_exactLimit (hf : factor.isLoadFactor = true) (k : Nat) :
    resizeLimit (2 ^ k) factor = min (exactLimit (2 ^ k) factor) Numeric.maxCount := by
  rw [resizeLimit_two_pow hf, exactLimit_eq hf]

theorem exactLimit_lt (hf : factor.isLoadFactor = true) {capacity : Nat} (hpos : 0 < capacity) :
    exactLimit capacity factor < capacity := by
  obtain ⟨-, -, hlt⟩ := Binary32.isLoadFactor_iff.mp hf
  rw [exactLimit_eq hf]
  refine Nat.div_lt_of_lt_mul ?_
  rw [Nat.mul_comm]
  exact Nat.mul_lt_mul_of_pos_right hlt hpos

/-- Where the peak settles is the first doubling that holds it. -/
theorem SettlesAt.isLeast {i peak capacity : Nat} (hf : factor.isLoadFactor = true)
    (h : SettlesAt (2 ^ i) factor peak capacity) :
    IsLeast {c | ∃ j, c = 2 ^ i * 2 ^ j ∧ peak ≤ exactLimit c factor} capacity := by
  obtain ⟨j, rfl, hhold, hfirst⟩ := h
  have hlimit : ∀ l, resizeLimit (2 ^ i * 2 ^ l) factor =
      min (exactLimit (2 ^ i * 2 ^ l) factor) Numeric.maxCount := fun l => by
    rw [← Nat.pow_add, resizeLimit_eq_exactLimit hf]
  rw [hlimit] at hhold
  refine ⟨⟨j, rfl, by omega⟩, ?_⟩
  rintro _ ⟨l, rfl, hl⟩
  have hjl : j ≤ l := by
    by_contra hlt
    have hpassed := hfirst l (by omega)
    rw [hlimit] at hpassed
    omega
  exact Nat.mul_le_mul_left _ (Nat.pow_le_pow_right (by omega) hjl)

end Exact

namespace Slots

variable {τ ε : Type} [Slots τ ε] [LawfulSlots τ] {t t' : τ}

theorem capacity_shiftFrom {home : ε → Except Fault Nat} {steps hole slot : Nat}
    (h : shiftFrom home steps t hole slot = .ok t') : capacity t' = capacity t := by
  induction steps generalizing t hole slot with
  | zero => cases h
  | succ steps ih =>
    rw [shiftFrom] at h
    obtain ⟨content, -, h⟩ := bind_eq_ok h
    cases content with
    | none =>
      cases h
      rfl
    | some e =>
      obtain ⟨start, -, h⟩ := bind_eq_ok h
      dsimp only at h
      split at h
      · rw [ih h, capacity_relocate]
      · exact ih h

theorem capacity_delete {home : ε → Except Fault Nat} {slot : Nat}
    (h : delete t home slot = .ok t') : capacity t' = capacity t := by
  obtain ⟨vacated, hevict, hshift⟩ := bind_eq_ok h
  rw [evict] at hevict
  split at hevict
  · cases hevict
    rw [capacity_shiftFrom hshift, capacity_vacate]
  · cases hevict

end Slots

namespace Table

variable {τ ε : Type} [Slots τ ε] {t t' : Table τ} {fresh : Nat → Traced τ}
  {report : (capacity len : Nat) → Event} {events : List Event}
  {hash : ε → Except Fault Int32} {start peak : Nat} {factor : Binary32}

/-- Larger slots come at the capacity that was asked for, and without an event. -/
def FreshSlots (fresh : Nat → Traced τ) : Prop :=
  ∀ capacity slots, (fresh capacity).outcome = .ok slots →
    Slots.capacity slots = capacity ∧ (fresh capacity).events = []

/-- What an answered call makes of a table, with the events that it reports. -/
inductive Step (fresh : Nat → Traced τ) (report : (capacity len : Nat) → Event) (t : Table τ) :
    List Event → Table τ → Prop where
  | keep : Step fresh report t [] t
  | overwrite (slot : Nat) (e : ε) :
    Step fresh report t [] { t with slots := Slots.store t.slots slot e }
  | take {hash : ε → Except Fault Int32} {slot : Nat} {t' : Table τ}
    (h : t.take hash slot = .ok t') : Step fresh report t [] t'
  | clear {slots : τ} (h : Slots.capacity slots = t.capacity) :
    Step fresh report t [] { t with slots, count := 0 }
  | add {hash : ε → Except Fault Int32} {slot : Nat} {e : ε} {t' : Table τ}
    (h : ((t.add slot e).settle hash fresh report).outcome = .ok t') :
    Step fresh report t ((t.add slot e).settle hash fresh report).events t'

/-- The capacity of a table is where a peak settles, and its limit is the one of its capacity. -/
structure Sized (start : Nat) (factor : Binary32) (peak : Nat) (t : Table τ) : Prop where
  capacity_eq : ∃ k, t.capacity = 2 ^ k
  loadFactor_eq : t.loadFactor = factor
  limit_eq : t.limit = resizeLimit t.capacity factor
  settlesAt : SettlesAt start factor peak t.capacity

/-- The count of the table is within its limit, and the peak is not below it. -/
structure Peaked (start : Nat) (factor : Binary32) (peak : Nat) (t : Table τ) : Prop
    extends Sized start factor peak t where
  count_le : t.count ≤ t.limit
  count_le_peak : t.count ≤ peak

namespace Peaked

theorem ofSlots {slots : τ} {k : Nat} (hslots : Slots.capacity slots = 2 ^ k) :
    Peaked (2 ^ k) factor 0 (Table.ofSlots slots factor) where
  capacity_eq := ⟨k, hslots⟩
  loadFactor_eq := rfl
  limit_eq := rfl
  settlesAt := by
    rw [capacity, Table.ofSlots, hslots]
    exact .zero _ _
  count_le := Nat.zero_le _
  count_le_peak := Nat.le_refl 0

/-- Fewer entries in as many slots keep the peak. -/
theorem of_le (h : Peaked start factor peak t) (hcapacity : t'.capacity = t.capacity)
    (hcount : t'.count ≤ t.count) (hlimit : t'.limit = t.limit)
    (hfactor : t'.loadFactor = t.loadFactor) : Peaked start factor (max peak t'.count) t' := by
  rw [Nat.max_eq_left (hcount.trans h.count_le_peak)]
  exact {
    capacity_eq := by rw [hcapacity]; exact h.capacity_eq
    loadFactor_eq := hfactor.trans h.loadFactor_eq
    limit_eq := by rw [hlimit, hcapacity]; exact h.limit_eq
    settlesAt := by rw [hcapacity]; exact h.settlesAt
    count_le := by rw [hlimit]; exact hcount.trans h.count_le
    count_le_peak := hcount.trans h.count_le_peak }

variable (hf : factor.isLoadFactor = true)

include hf

/-- As long as a count can be that large, the limit is exact. -/
theorem limit_eq_exact (h : Peaked start factor peak t) (hcapacity : t.capacity < 2 ^ 64) :
    t.limit = exactLimit t.capacity factor := by
  obtain ⟨k, hk⟩ := h.capacity_eq
  have hlt := exactLimit_lt hf (Nat.two_pow_pos k)
  rw [h.limit_eq, hk, resizeLimit_eq_exactLimit hf]
  rw [hk] at hcapacity
  rw [Numeric.maxCount]
  omega

theorem followsPeak {i : Nat} (h : Peaked (2 ^ i) factor peak t) :
    FollowsPeak (2 ^ i) factor peak t.capacity t.count where
  isLeast := h.settlesAt.isLeast hf
  len_le := by
    obtain ⟨k, hk⟩ := h.capacity_eq
    have hle := h.count_le
    rw [h.limit_eq, hk, resizeLimit_eq_exactLimit hf] at hle
    rw [hk]
    omega

end Peaked

variable [LawfulSlots τ]

theorem capacity_refill {hash : ε → Except Fault Int32} {list : List ε} {slots slots' : τ}
    (h : refill hash slots list = .ok slots') : Slots.capacity slots' = Slots.capacity slots := by
  induction list generalizing slots with
  | nil =>
    cases h
    rfl
  | cons e rest ih =>
    obtain ⟨hash', -, h⟩ := bind_eq_ok h
    obtain ⟨slot, -, h⟩ := bind_eq_ok h
    rw [ih h, Slots.capacity_store]

theorem settle_eq_ok (hfresh : FreshSlots fresh)
    (h : (t.settle hash fresh report).outcome = .ok t') :
    t'.count = t.count ∧ t'.loadFactor = t.loadFactor ∧
      if t.limit < t.count then
        t'.capacity = grownCapacity t.capacity t.count t.loadFactor ∧
          t'.limit = resizeLimit t'.capacity t.loadFactor
      else t' = t := by
  rw [settle] at h
  split at h
  · next hlt =>
    obtain ⟨slots, hslots, h⟩ := Traced.outcome_bind_eq_ok h
    obtain ⟨filled, hfilled, h⟩ := Traced.outcome_bind_eq_ok h
    have hcap : Slots.capacity filled = grownCapacity t.capacity t.count t.loadFactor :=
      (capacity_refill (Traced.outcome_liftFault_eq_ok hfilled)).trans (hfresh _ _ hslots).1
    cases h
    rw [if_pos hlt]
    exact ⟨rfl, rfl, hcap, congrArg (resizeLimit · _) hcap.symm⟩
  · next hle =>
    cases h
    rw [if_neg hle]
    exact ⟨rfl, rfl, rfl⟩

theorem take_eq_ok {slot : Nat} (h : t.take hash slot = .ok t') :
    t'.capacity = t.capacity ∧ t'.count = t.count - 1 ∧ t'.limit = t.limit ∧
      t'.loadFactor = t.loadFactor := by
  obtain ⟨slots, hslots, h⟩ := bind_eq_ok h
  cases h
  exact ⟨Slots.capacity_delete hslots, rfl, rfl, rfl⟩

/-- A table of one entry too many, at most, that has settled: it has grown if it had to, to where
its count settles, and reported that. -/
theorem Sized.settle (hf : factor.isLoadFactor = true) (hfresh : FreshSlots fresh)
    (h : Sized start factor peak t) (hle : t.count ≤ t.limit + 1)
    (hcapacity : t.capacity < 2 ^ 64)
    (hsettle : (t.settle hash fresh report).outcome = .ok t') :
    t'.count = t.count ∧ Peaked start factor (max peak t.count) t' ∧
      (t.settle hash fresh report).events =
        if t.limit < t.count then [report t'.capacity t.count] else [] := by
  obtain ⟨k, hk⟩ := h.capacity_eq
  have hlt := resizeLimit_lt hf k
  have hlimit := h.limit_eq
  have hsettles := h.settlesAt
  obtain ⟨-, -, hhold, -⟩ := id hsettles
  obtain ⟨hcount, hfactor, hgrown⟩ := settle_eq_ok hfresh hsettle
  rw [hk] at hlimit hsettles hhold hcapacity
  refine ⟨hcount, ?_⟩
  rw [events_settle hsettle]
  by_cases hpassed : t.limit < t.count
  · obtain ⟨slots, hslots⟩ := fresh_of_settle hsettle hpassed
    rw [if_pos hpassed, h.loadFactor_eq, hk] at hgrown
    rw [if_pos hpassed, if_pos hpassed, (hfresh _ _ hslots).2, h.loadFactor_eq, hk, ← hgrown.1,
      Nat.max_eq_right (by omega)]
    have hmax : t.count ≤ Numeric.maxCount := by
      rw [Numeric.maxCount]
      omega
    obtain ⟨j, hj, hroom, -⟩ := grownCapacity_spec hf (by omega : t.count ≤ 2 ^ k) hmax
    have hgrow := hsettles.grow hf (by omega : peak ≤ t.count) (by omega) hmax (by omega)
    rw [← hgrown.1] at hj hgrow
    refine ⟨?_, rfl⟩
    exact {
      capacity_eq := ⟨_, hj⟩
      loadFactor_eq := hfactor.trans h.loadFactor_eq
      limit_eq := hgrown.2
      settlesAt := hgrow
      count_le := by rwa [hcount, hgrown.2, hj]
      count_le_peak := hcount.le }
  · rw [if_neg hpassed] at hgrown
    rw [if_neg hpassed, if_neg hpassed, hgrown]
    refine ⟨?_, rfl⟩
    exact {
      capacity_eq := ⟨k, hk⟩
      loadFactor_eq := h.loadFactor_eq
      limit_eq := h.limit_eq
      settlesAt := h.settlesAt.of_le (Nat.le_max_left _ _) (by rw [hk]; omega)
      count_le := by omega
      count_le_peak := Nat.le_max_right _ _ }

/-- A step keeps the counters right. A table reports its growth when its count comes to be above
its limit, and only then. -/
theorem Step.peaked (hf : factor.isLoadFactor = true) (hfresh : FreshSlots fresh)
    (hstep : Step fresh report t events t') (h : Peaked start factor peak t)
    (hcapacity : t.capacity < 2 ^ 64) :
    Peaked start factor (max peak t'.count) t' ∧
      ReportsGrowth factor report t.capacity t.count t'.capacity t'.count events := by
  have hle := h.count_le
  have hlimit := h.limit_eq_exact hf hcapacity
  -- without a new entry the count stays within the limit
  have hquiet : t'.count ≤ t.count →
      ReportsGrowth factor report t.capacity t.count t'.capacity t'.count [] := fun hcount =>
    ⟨by rw [if_neg (by omega)], fun _ => rfl⟩
  cases hstep with
  | keep => exact ⟨h.of_le rfl (Nat.le_refl _) rfl rfl, hquiet (Nat.le_refl _)⟩
  | overwrite slot e =>
    exact ⟨h.of_le (Slots.capacity_store _ _ _) (Nat.le_refl _) rfl rfl, hquiet (Nat.le_refl _)⟩
  | take htake =>
    obtain ⟨hcap, hcount, hlimit, hfactor⟩ := take_eq_ok htake
    exact ⟨h.of_le hcap (by omega) hlimit hfactor, hquiet (by omega)⟩
  | clear hcap => exact ⟨h.of_le hcap (Nat.zero_le _) rfl rfl, hquiet (Nat.zero_le _)⟩
  | @add hash slot e _ hsettle =>
    have hcap : (t.add slot e).capacity = t.capacity := capacity_add t slot e
    have hadded : Sized start factor peak (t.add slot e) := by
      obtain ⟨hpower, hfactor, hlimit, hsettles⟩ := h.toSized
      rw [← hcap] at hpower hlimit hsettles
      exact ⟨hpower, hfactor, hlimit, hsettles⟩
    obtain ⟨hcount, h', hevents⟩ := hadded.settle hf hfresh (Nat.succ_le_succ hle)
      (hcap.trans_lt hcapacity) hsettle
    rw [← hcount] at h' hevents
    refine ⟨h', hlimit ▸ hevents, fun hsame => ?_⟩
    have hadd : (t.add slot e).count = t.count + 1 := rfl
    omega

end Table

end RecordArena
