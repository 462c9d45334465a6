import Mathlib.Algebra.BigOperators.Ring.Finset
import Mathlib.Algebra.Order.BigOperators.Group.Finset
import Mathlib.Tactic.Ring
import RecordArena.Proofs.Probing.Arrangement
import RecordArena.Proofs.Probing.Distance

/-!
# Displacement

The displacement of an arrangement is the number of probe steps that its entries need together. It
bounds the moves of a backward shift: every move brings one entry nearer to its home.

## Main statements

* `Arrangement.displacement_eq_totalDistance` – the displacement adds up differences modulo the
  number of slots.
* `Arrangement.displacement_move` – a move lowers the displacement.
* `Arrangement.displacement_bound` – the cube of the number of slots bounds the walk.
-/

namespace RecordArena.Arrangement

variable {ε : Type} {f : Arrangement ε} {n : Nat} (home : ε → Nat)

/-- The probe steps to what a slot holds. -/
def stepsTo (n : Nat) (home : ε → Nat) (content : Option ε) (slot : Nat) : Nat :=
  content.elim 0 fun e => probeDistance n (home e) slot

/-- The probe steps to all entries together. -/
def displacement (f : Arrangement ε) (n : Nat) (home : ε → Nat) : Nat :=
  ∑ i ∈ Finset.range n, stepsTo n home (f i) i

/-- The distances of all entries from their homes together, each modulo the number of slots. -/
def totalDistance (f : Arrangement ε) (n : Nat) (home : ε → Nat) : Int :=
  ∑ i ∈ Finset.range n, (f i).elim 0 fun e => ((i : Int) - home e) % n

theorem displacement_eq_totalDistance {k : Nat} (hn : n = 2 ^ k) (hk : k ≤ 64) :
    (f.displacement n home : Int) = f.totalDistance n home := by
  rw [displacement, totalDistance, Nat.cast_sum]
  apply Finset.sum_congr rfl
  intro i _
  cases f i with
  | none => rfl
  | some e => exact probeDistance_eq_emod hn hk (home e) i

theorem displacement_update {i : Nat} (hi : i < n) (content : Option ε) :
    displacement (Function.update f i content) n home + stepsTo n home (f i) i =
      f.displacement n home + stepsTo n home content i := by
  have hmem : i ∈ Finset.range n := Finset.mem_range.mpr hi
  have hrest : ∑ j ∈ (Finset.range n).erase i, stepsTo n home (Function.update f i content j) j =
      ∑ j ∈ (Finset.range n).erase i, stepsTo n home (f j) j := by
    apply Finset.sum_congr rfl
    intro j hj
    rw [Function.update_of_ne (Finset.ne_of_mem_erase hj)]
  rw [displacement, displacement, ← Finset.add_sum_erase _ _ hmem, hrest, Function.update_self,
    ← Finset.add_sum_erase (Finset.range n) (fun j => stepsTo n home (f j) j) hmem]
  omega

/-- Moving an entry to a slot that is met earlier on its path lowers the displacement. -/
theorem displacement_move {source target : Nat} {e : ε} (hs : source < n) (ht : target < n)
    (hsource : f source = some e) (htarget : f target = none)
    (hlt : probeDistance n (home e) target < probeDistance n (home e) source) :
    displacement (Function.update (Function.update f target (some e)) source none) n home <
      f.displacement n home := by
  have hne : source ≠ target := by
    rintro rfl
    exact Nat.lt_irrefl _ hlt
  -- clearing the source takes more steps off than filling the target adds
  have hclear := displacement_update (f := Function.update f target (some e)) home hs none
  have hfill := displacement_update (f := f) home ht (some e)
  rw [Function.update_of_ne hne, hsource] at hclear
  rw [htarget] at hfill
  simp only [stepsTo, Option.elim_some, Option.elim_none] at hclear hfill
  omega

/-- With a vacant slot there are at most `n - 1` entries at a distance of at most `n - 1` each. -/
theorem displacement_le {hole : Nat} (hhole : hole < n) (hf : f hole = none) :
    f.displacement n home ≤ (n - 1) * (n - 1) := by
  have hmem : hole ∈ Finset.range n := Finset.mem_range.mpr hhole
  have hzero : stepsTo n home (f hole) hole = 0 := by rw [hf]; rfl
  have hcard : ((Finset.range n).erase hole).card = n - 1 := by
    rw [Finset.card_erase_of_mem hmem, Finset.card_range]
  have hsteps : ∀ i ∈ (Finset.range n).erase hole, stepsTo n home (f i) i ≤ n - 1 := by
    intro i _
    cases f i with
    | none => exact Nat.zero_le _
    | some e =>
      have := probeDistance_lt (by omega : 0 < n) (home e) i
      simp only [stepsTo, Option.elim_some]
      omega
  calc f.displacement n home
      = ∑ i ∈ (Finset.range n).erase hole, stepsTo n home (f i) i := by
        rw [displacement, ← Finset.add_sum_erase _ _ hmem, hzero, Nat.zero_add]
    _ ≤ ((Finset.range n).erase hole).card • (n - 1) := Finset.sum_le_card_nsmul _ _ _ hsteps
    _ = (n - 1) * (n - 1) := by rw [hcard]; rfl

/-- The cube of the number of slots bounds a walk that starts anew after every move. -/
theorem displacement_bound {hole : Nat} (hhole : hole < n) (hf : f hole = none) :
    f.displacement n home * n + n ≤ n ^ 3 := by
  have hle := displacement_le home hhole hf
  obtain ⟨m, rfl⟩ : ∃ m, n = m + 1 := ⟨n - 1, by omega⟩
  rw [Nat.add_sub_cancel] at hle
  calc f.displacement (m + 1) home * (m + 1) + (m + 1)
      ≤ m * m * (m + 1) + (m + 1) := Nat.add_le_add_right (Nat.mul_le_mul_right _ hle) _
    _ ≤ m * m * (m + 1) + (m + 1) + (m + 1) * (2 * m) := Nat.le_add_right _ _
    _ = (m + 1) ^ 3 := by ring

end RecordArena.Arrangement
