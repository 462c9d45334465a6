import Mathlib.Tactic.Ring
import Mathlib.Tactic.SplitIfs
import RecordArena.Numeric.PowerOfTwo
import RecordArena.Probing.Path

/-!
# Distances along probe paths

A probe path goes forward around a ring of slots. `ringDistance n a b` is the number of steps from
`a` to `b`; `probeDistance` is the same number as the tables compute it, a masked difference of
64-bit words.

## Main statements

* `inProbeRange_eq` – the range test compares two masked differences.
* `probeDistance_eq_emod`, `probeDistance_eq` – on a power of two of slots the masked difference is
  the difference modulo the number of slots, which is the ring distance.
-/

namespace RecordArena

/-- The number of steps forward from `a` to `b` around a ring of `n` slots. -/
def ringDistance (n a b : Nat) : Nat := (b + n - a) % n

theorem ringDistance_lt {n : Nat} (hn : 0 < n) (a b : Nat) : ringDistance n a b < n :=
  Nat.mod_lt _ hn

/-- The distance without a remainder: forward directly, or around the end. -/
theorem ringDistance_eq {n a b : Nat} (ha : a < n) (hb : b < n) :
    ringDistance n a b = if a ≤ b then b - a else b + n - a := by
  rw [ringDistance]
  split
  · next h =>
    rw [show b + n - a = b - a + n by omega, Nat.add_mod_right, Nat.mod_eq_of_lt (by omega)]
  · next h => exact Nat.mod_eq_of_lt (by omega)

theorem ringDistance_self {n a : Nat} (ha : a < n) : ringDistance n a a = 0 := by
  rw [ringDistance_eq ha ha, if_pos (Nat.le_refl a), Nat.sub_self]

theorem ringDistance_eq_zero {n a b : Nat} (ha : a < n) (hb : b < n) :
    ringDistance n a b = 0 ↔ a = b := by
  rw [ringDistance_eq ha hb]
  split <;> omega

theorem add_mod_ring {n a d : Nat} (ha : a < n) (hd : d < n) :
    (a + d) % n = if a + d < n then a + d else a + d - n := by
  split
  · next h => exact Nat.mod_eq_of_lt h
  · next h => rw [Nat.mod_eq_sub_mod (by omega), Nat.mod_eq_of_lt (by omega)]

theorem ringDistance_add {n a d : Nat} (ha : a < n) (hd : d < n) :
    ringDistance n a ((a + d) % n) = d := by
  have hlt : (a + d) % n < n := Nat.mod_lt _ (by omega)
  rw [ringDistance_eq ha hlt, add_mod_ring ha hd]
  split_ifs <;> omega

theorem add_ringDistance {n a b : Nat} (ha : a < n) (hb : b < n) :
    (a + ringDistance n a b) % n = b := by
  have hd := ringDistance_lt (by omega : 0 < n) a b
  rw [add_mod_ring ha hd, ringDistance_eq ha hb]
  split_ifs <;> omega

theorem ringDistance_inj {n a b c : Nat} (ha : a < n) (hb : b < n) (hc : c < n) :
    ringDistance n a b = ringDistance n a c ↔ b = c := by
  constructor
  · intro h
    rw [← add_ringDistance ha hb, h, add_ringDistance ha hc]
  · rintro rfl
    rfl

/-- A position between two others splits the distance between them. -/
theorem ringDistance_split {n a b c : Nat} (ha : a < n) (hb : b < n) (hc : c < n)
    (h : ringDistance n a b ≤ ringDistance n a c) :
    ringDistance n a c = ringDistance n a b + ringDistance n b c := by
  rw [ringDistance_eq ha hb, ringDistance_eq ha hc] at h
  rw [ringDistance_eq ha hb, ringDistance_eq ha hc, ringDistance_eq hb hc]
  split_ifs at h ⊢ <;> omega

theorem ringDistance_split_of_le {n a b c : Nat} (ha : a < n) (hb : b < n) (hc : c < n)
    (h : ringDistance n b c ≤ ringDistance n a c) :
    ringDistance n a c = ringDistance n a b + ringDistance n b c := by
  rw [ringDistance_eq hb hc, ringDistance_eq ha hc] at h
  rw [ringDistance_eq ha hb, ringDistance_eq ha hc, ringDistance_eq hb hc]
  split_ifs at h ⊢ <;> omega

/-- A position reached on the way from `a` and then from `b` is reached from `a` directly. -/
theorem ringDistance_chain {n a b k : Nat} (ha : a < n) (hb : b < n) :
    (a + (ringDistance n a b + k)) % n = (b + k) % n := by
  rw [← Nat.add_assoc, Nat.add_mod, add_ringDistance ha hb, ← Nat.add_mod_mod,
    Nat.mod_mod, Nat.add_mod_mod]

theorem ringDistance_succ {n a b : Nat} (ha : a < n) (hb : b < n) (h : (b + 1) % n ≠ a) :
    ringDistance n a ((b + 1) % n) = ringDistance n a b + 1 := by
  have hlt : (b + 1) % n < n := Nat.mod_lt _ (by omega)
  rw [ringDistance_eq ha hlt, ringDistance_eq ha hb]
  by_cases hw : b + 1 < n
  · rw [Nat.mod_eq_of_lt hw] at h ⊢
    split_ifs <;> omega
  · rw [show b + 1 = n by omega, Nat.mod_self] at h ⊢
    split_ifs <;> omega

/-- The first step of a way brings the end of it one step nearer. -/
theorem ringDistance_next {n a b : Nat} (ha : a < n) (hb : b < n) (h : a ≠ b) :
    ringDistance n a b = ringDistance n ((a + 1) % n) b + 1 := by
  have hlt : (a + 1) % n < n := Nat.mod_lt _ (by omega)
  rw [ringDistance_eq ha hb, ringDistance_eq hlt hb]
  by_cases hw : a + 1 < n
  · rw [Nat.mod_eq_of_lt hw]
    split_ifs <;> omega
  · rw [show a + 1 = n by omega, Nat.mod_self]
    split_ifs <;> omega

/-- Going back by a distance leads to where it was measured from. -/
theorem ringDistance_reflect {n a b : Nat} (ha : a < n) (hb : b < n) :
    ringDistance n (ringDistance n a b) b = a := by
  rw [ringDistance_eq (ringDistance_lt (by omega) a b) hb, ringDistance_eq ha hb]
  split_ifs <;> omega

theorem ringDistance_inj_left {n a b c : Nat} (ha : a < n) (hb : b < n) (hc : c < n) :
    ringDistance n a c = ringDistance n b c ↔ a = b := by
  constructor
  · intro h
    rw [← ringDistance_reflect ha hc, h, ringDistance_reflect hb hc]
  · rintro rfl
    rfl

/-- Seen from `d`, a way that starts at `a` and ends at `b` before it comes to `d` begins and ends
in this order. -/
theorem ringDistance_around {n a b d : Nat} (ha : a < n) (hb : b < n) (hd : d < n) (hne : b ≠ d)
    (h : ringDistance n a b ≤ ringDistance n a d) :
    ringDistance n d b = ringDistance n d a + ringDistance n a b := by
  rw [ringDistance_eq ha hb, ringDistance_eq ha hd] at h
  rw [ringDistance_eq hd hb, ringDistance_eq hd ha, ringDistance_eq ha hb]
  split_ifs at h ⊢ <;> omega

theorem ringDistance_eq_emod {n a : Nat} (ha : a < n) (b : Nat) :
    (ringDistance n a b : Int) = ((b : Int) - a) % n := by
  rw [ringDistance, Int.natCast_mod, Nat.cast_sub (by omega), Nat.cast_add,
    show (b : Int) + n - a = b - a + n by ring, Int.add_emod_right]

/-- The position before `a` is a whole round ahead but for one step. -/
theorem ringDistance_last {n a b : Nat} (ha : a < n) (hb : b < n) (h : (b + 1) % n = a) :
    ringDistance n a b + 1 = n := by
  rw [ringDistance_eq ha hb]
  by_cases hw : b + 1 < n
  · rw [Nat.mod_eq_of_lt hw] at h
    split_ifs <;> omega
  · rw [show b + 1 = n by omega, Nat.mod_self] at h
    split_ifs <;> omega

/-- The steps from `home` to `slot` in a table of `n` slots, computed with 64-bit words. -/
def probeDistance (n home slot : Nat) : Nat :=
  ((UInt64.ofNat slot - UInt64.ofNat home) &&& UInt64.ofNat (n - 1)).toNat

theorem inProbeRange_eq (n home hole slot : Nat) :
    inProbeRange (UInt64.ofNat home) (UInt64.ofNat hole) (UInt64.ofNat slot)
        (UInt64.ofNat (n - 1)) =
      decide (probeDistance n home hole < probeDistance n home slot) := by
  rw [inProbeRange]
  exact decide_eq_decide.mpr UInt64.lt_iff_toNat_lt

/-- The masked difference is below the number of slots, however many slots there are. -/
theorem probeDistance_lt {n : Nat} (hn : 0 < n) (home slot : Nat) :
    probeDistance n home slot < n := by
  rw [probeDistance]
  exact Numeric.toNat_and_lt hn _

/-- Up to `2 ^ 64` slots the masked difference is the difference modulo the number of slots, also
when the home is not the number of a slot. -/
theorem probeDistance_eq_emod {n k : Nat} (hn : n = 2 ^ k) (hk : k ≤ 64) (home slot : Nat) :
    (probeDistance n home slot : Int) = ((slot : Int) - home) % n := by
  have hle : n ≤ 2 ^ 64 := hn ▸ Nat.pow_le_pow_right (by omega) hk
  have hdvd : n ∣ 2 ^ 64 := hn ▸ Nat.pow_dvd_pow 2 hk
  have hpos : 0 < n := hn ▸ Nat.two_pow_pos k
  have hmask : (UInt64.ofNat (n - 1)).toNat + 1 = 2 ^ k := by
    rw [UInt64.toNat_ofNat', Nat.mod_eq_of_lt (by omega), Nat.sub_add_cancel hpos, hn]
  have hwords : probeDistance n home slot = (2 ^ 64 - home % 2 ^ 64 + slot % 2 ^ 64) % n := by
    rw [probeDistance, Numeric.toNat_and_mask hmask, ← hn, UInt64.toNat_sub,
      UInt64.toNat_ofNat', UInt64.toNat_ofNat', Nat.mod_mod_of_dvd _ hdvd]
  -- the words wrap at a multiple of the number of slots, so the remainder by it does not notice
  obtain ⟨m, hm⟩ := hdvd
  have hsum : ((2 ^ 64 - home % 2 ^ 64 + slot % 2 ^ 64 : Nat) : Int) =
      (slot : Int) - home + n * (m * (1 + home / 2 ^ 64 - slot / 2 ^ 64)) := by
    have hwrap : (n : Int) * m = 2 ^ 64 := by exact_mod_cast hm.symm
    rw [← mul_assoc, hwrap]
    omega
  rw [hwords, Int.natCast_mod, hsum, Int.add_mul_emod_self_left]

/-- Up to `2 ^ 64` slots the masked difference is the distance around the ring. -/
theorem probeDistance_eq {n k home slot : Nat} (hn : n = 2 ^ k) (hk : k ≤ 64) (hh : home < n) :
    probeDistance n home slot = ringDistance n home slot :=
  Int.ofNat.inj ((probeDistance_eq_emod hn hk home slot).trans (ringDistance_eq_emod hh slot).symm)

end RecordArena
