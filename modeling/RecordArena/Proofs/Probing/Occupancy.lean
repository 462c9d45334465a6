import Mathlib.Algebra.BigOperators.Ring.Finset
import Mathlib.Order.Interval.Finset.Nat
import RecordArena.Proofs.Probing.Displacement
import RecordArena.Proofs.Probing.Reach

/-!
# Occupied slots

Where every entry is reached from its home and a slot is vacant, the homes of the entries determine
which slots are occupied, although not by which entries. An occupied slot ends a window of slots
whose entries all have their homes in the window; a vacant slot ends no window with as many homes as
slots. Hence also the distances of the entries from their homes, added up, depend on the homes
alone.

## Main definitions

* `Arrangement.Parked` – every entry is reached, and there is a vacancy.
* `Arrangement.arrivals` – the homes in a window that ends at a slot.

## Main statements

* `Arrangement.Parked.isSome_congr` – the same homes occupy the same slots.
* `Arrangement.Parked.totalDistance_congr` – and are as far from them in total.
* `Arrangement.Parked.ends_congr` – a probe of one ends where a probe of the other does.
-/

namespace RecordArena.Arrangement

variable {ε δ : Type} {f : Arrangement ε} {g : Arrangement δ} {n : Nat} {home : ε → Nat}
  {home' : δ → Nat}

/-- Every entry has found its slot on the way from its home, and there is a vacancy. -/
structure Parked (f : Arrangement ε) (n : Nat) (home : ε → Nat) : Prop where
  reached : f.Reached n home
  home_lt : ∀ e ∈ f.entries n, home e < n
  vacancy : ∃ i < n, f i = none

/-- An unbroken path ends before every vacant slot, or at one. -/
theorem Unbroken.le_of_vacant {start slot v : Nat} (h : f.Unbroken n start slot)
    (hstart : start < n) (hv : v < n) (hf : f v = none) :
    ringDistance n start slot ≤ ringDistance n start v := by
  by_contra hlt
  have hne := h (ringDistance n start v) (by omega)
  rw [add_ringDistance hstart hv] at hne
  exact hne hf

/-- The number of homes among the last `size` slots up to `p`. -/
def arrivals (homes : List Nat) (n p size : Nat) : Nat :=
  homes.countP fun h => decide (ringDistance n h p < size)

theorem arrivals_eq_card (f : Arrangement ε) (n : Nat) (home : ε → Nat) (p size : Nat) :
    arrivals ((f.entries n).map home) n p size =
      ((Finset.range n).filter fun i =>
        ∃ e, f i = some e ∧ ringDistance n (home e) p < size).card := by
  have hslot : ∀ i ∈ List.range n,
      ((f i).map (fun e => decide (ringDistance n (home e) p < size))).getD false = true ↔
        decide (∃ e, f i = some e ∧ ringDistance n (home e) p < size) = true := by
    intro i _
    cases f i with
    | none => simp
    | some e => simp
  have hfilter := List.countP_filterMap (f := f) (l := List.range n)
    (p := fun e => decide (ringDistance n (home e) p < size))
  rw [arrivals, List.countP_map, entries]
  exact (hfilter.trans (List.countP_congr hslot)).trans List.countP_eq_length_filter

namespace Parked

/-- On the way around from its home, an entry comes before every vacant slot. -/
theorem before_vacant (h : f.Parked n home) {i v : Nat} {e : ε} (hi : i < n) (hv : v < n)
    (hentry : f i = some e) (hvacant : f v = none) :
    home e < n ∧ ringDistance n (home e) i ≤ ringDistance n (home e) v := by
  have hhome := h.home_lt e (mem_entries.mpr ⟨i, hi, hentry⟩)
  exact ⟨hhome, (h.reached i hi e hentry).le_of_vacant hhome hv hvacant⟩

/-- An entry behind a vacant slot has passed no vacant slot, so its home is behind that one too. -/
theorem home_behind (h : f.Parked n home) {i p v : Nat} {e : ε} (hi : i < n) (hp : p < n)
    (hv : v < n) (hentry : f i = some e) (hvacant : f v = none)
    (hnear : ringDistance n i p < ringDistance n v p) :
    ringDistance n (home e) p < ringDistance n v p := by
  obtain ⟨hhome, hle⟩ := h.before_vacant hi hv hentry hvacant
  have hoccupied : i ≠ v := ne_of_vacant hentry hvacant
  have hbefore : ringDistance n v (home e) ≠ 0 := by
    rw [Ne, ringDistance_eq_zero hv hhome]
    rintro rfl
    rw [ringDistance_self hv, Nat.le_zero, ringDistance_eq_zero hv hi] at hle
    exact hoccupied hle.symm
  have hway := ringDistance_around hhome hi hv hoccupied hle
  have hwindow := ringDistance_split_of_le hv hi hp hnear.le
  have hsplit := ringDistance_split hv hhome hp (by omega)
  omega

/-- An occupied slot ends a window with a home for each of its slots. -/
theorem exists_arrivals (h : f.Parked n home) {p : Nat} (hp : p < n) (hf : f p ≠ none) :
    ∃ size, 0 < size ∧ size ≤ arrivals ((f.entries n).map home) n p size := by
  classical
  -- the window reaches back to the nearest vacant slot
  have hbehind : ∃ size, ∃ v < n, f v = none ∧ ringDistance n v p = size := by
    obtain ⟨v, hv, hvacant⟩ := h.vacancy
    exact ⟨_, v, hv, hvacant, rfl⟩
  obtain ⟨v, hv, hvacant, hsize⟩ := Nat.find_spec hbehind
  have hnearest := fun k (hk : k < Nat.find hbehind) => Nat.find_min hbehind hk
  generalize Nat.find hbehind = size at hsize hnearest
  have hlt : size < n := hsize ▸ ringDistance_lt (by omega) v p
  have hpos : size ≠ 0 := by
    rw [← hsize, Ne, ringDistance_eq_zero hv hp]
    rintro rfl
    exact hf hvacant
  refine ⟨size, by omega, ?_⟩
  rw [arrivals_eq_card]
  refine (Finset.card_range size).symm.trans_le
    (Finset.card_le_card_of_injOn (ringDistance n · p) ?_ ?_)
  · intro d hd
    rw [Finset.coe_range, Set.mem_Iio] at hd
    have hdist := ringDistance_reflect (by omega : d < n) hp
    have hi := ringDistance_lt (by omega : 0 < n) d p
    change ringDistance n d p ∈ _
    generalize ringDistance n d p = i at hi hdist
    rw [Finset.mem_coe, Finset.mem_filter, Finset.mem_range]
    cases hentry : f i with
    | none => exact (hnearest d hd ⟨i, hi, hentry, hdist⟩).elim
    | some e =>
      have hnear := h.home_behind hi hp hv hentry hvacant (by omega)
      exact ⟨hi, e, rfl, by omega⟩
  · intro a ha b hb hab
    rw [Finset.coe_range, Set.mem_Iio] at ha hb
    exact (ringDistance_inj_left (by omega) (by omega) hp).mp hab

/-- The homes in a window that ends at a vacant slot are fewer than its slots. -/
theorem arrivals_lt (h : f.Parked n home) {p size : Nat} (hp : p < n) (hf : f p = none)
    (hsize : 0 < size) : arrivals ((f.entries n).map home) n p size < size := by
  have hcard : (Finset.Ico 1 size).card = size - 1 := Nat.card_Ico 1 size
  rw [arrivals_eq_card]
  refine (Finset.card_le_card_of_injOn (ringDistance n · p) (t := Finset.Ico 1 size) ?_ ?_).trans_lt
    (by omega)
  · intro i hi
    rw [Finset.mem_coe, Finset.mem_filter, Finset.mem_range] at hi
    obtain ⟨hi, e, hentry, hnear⟩ := hi
    obtain ⟨hhome, hle⟩ := h.before_vacant hi hp hentry hf
    have hsplit := ringDistance_split hhome hi hp hle
    have hne : ringDistance n i p ≠ 0 := by
      rw [Ne, ringDistance_eq_zero hi hp]
      exact ne_of_vacant hentry hf
    rw [Finset.coe_Ico, Set.mem_Ico]
    change 1 ≤ ringDistance n i p ∧ ringDistance n i p < size
    omega
  · intro a ha b hb hab
    rw [Finset.mem_coe, Finset.mem_filter, Finset.mem_range] at ha hb
    exact (ringDistance_inj_left ha.1 hb.1 hp).mp hab

theorem vacant_of_perm (h : f.Parked n home) (h' : g.Parked n home')
    (hperm : ((f.entries n).map home).Perm ((g.entries n).map home')) {p : Nat} (hp : p < n)
    (hg : g p = none) : f p = none := by
  by_contra hf
  obtain ⟨size, hpos, hle⟩ := h.exists_arrivals hp hf
  have hlt := h'.arrivals_lt hp hg hpos
  rw [arrivals, hperm.countP_eq] at hle
  rw [arrivals] at hlt
  omega

/-- Entries with the same homes occupy the same slots. -/
theorem isSome_congr (h : f.Parked n home) (h' : g.Parked n home')
    (hperm : ((f.entries n).map home).Perm ((g.entries n).map home')) {p : Nat} (hp : p < n) :
    (f p).isSome = (g p).isSome := by
  rw [Bool.eq_iff_iff, Option.isSome_iff_ne_none, Option.isSome_iff_ne_none, not_iff_not]
  exact ⟨h'.vacant_of_perm h hperm.symm hp, h.vacant_of_perm h' hperm hp⟩

/-- Probes that start at the same slot of both and end at vacant slots end at the same one. -/
theorem ends_congr (h : f.Parked n home) (h' : g.Parked n home')
    (hperm : ((f.entries n).map home).Perm ((g.entries n).map home')) {start slot slot' : Nat}
    (hstart : start < n) (hslot : slot < n) (hf : f slot = none)
    (hpath : f.Unbroken n start slot) (hslot' : slot' < n) (hg : g slot' = none)
    (hpath' : g.Unbroken n start slot') : slot = slot' := by
  have hle := hpath.le_of_vacant hstart hslot' (h.vacant_of_perm h' hperm hslot' hg)
  have hge := hpath'.le_of_vacant hstart hslot (h'.vacant_of_perm h hperm.symm hslot hf)
  exact (ringDistance_inj hstart hslot hslot').mp (by omega)

end Parked

theorem sum_entries (f : Arrangement ε) (n : Nat) (w : ε → Nat) :
    ∑ i ∈ Finset.range n, (f i).elim 0 w = ((f.entries n).map w).sum := by
  induction n with
  | zero => rfl
  | succ n ih =>
    rw [Finset.sum_range_succ, ih, entries, entries, List.range_succ, List.filterMap_append,
      List.map_append, List.sum_append]
    cases hf : f n with
    | none => rw [List.filterMap_cons_none hf]; rfl
    | some e => rw [List.filterMap_cons_some hf]; simp

/-- Measured from a vacant slot, every entry is behind its home by its own distance from there. -/
theorem Parked.totalDistance_add (h : f.Parked n home) {v : Nat} (hv : v < n) (hf : f v = none) :
    f.totalDistance n home + (((f.entries n).map home).map (ringDistance n v)).sum =
      ∑ i ∈ Finset.range n, ((if (f i).isSome then ringDistance n v i else 0 : Nat) : Int) := by
  rw [List.map_map, ← sum_entries, totalDistance, Nat.cast_sum, ← Finset.sum_add_distrib]
  apply Finset.sum_congr rfl
  intro i hi
  rw [Finset.mem_range] at hi
  cases hentry : f i with
  | none => rfl
  | some e =>
    obtain ⟨hhome, hle⟩ := h.before_vacant hi hv hentry hf
    have hway := ringDistance_around hhome hi hv (ne_of_vacant hentry hf) hle
    rw [Option.elim_some, Option.elim_some, Option.isSome_some, if_pos rfl,
      ← ringDistance_eq_emod hhome, hway, Nat.cast_add, Function.comp_apply, Int.add_comm]

/-- Entries with the same homes are as far from them in total. -/
theorem Parked.totalDistance_congr (h : f.Parked n home) (h' : g.Parked n home')
    (hperm : ((f.entries n).map home).Perm ((g.entries n).map home')) :
    f.totalDistance n home = g.totalDistance n home' := by
  obtain ⟨v, hv, hf⟩ := h.vacancy
  have hsum := h.totalDistance_add hv hf
  have hsum' := h'.totalDistance_add hv (h'.vacant_of_perm h hperm.symm hv hf)
  have hoccupied : ∑ i ∈ Finset.range n, ((if (f i).isSome then ringDistance n v i else 0 : Nat) :
      Int) = ∑ i ∈ Finset.range n, ((if (g i).isSome then ringDistance n v i else 0 : Nat) : Int) :=
    Finset.sum_congr rfl fun i hi => by rw [h.isSome_congr h' hperm (Finset.mem_range.mp hi)]
  rw [(hperm.map _).sum_eq] at hsum
  omega

end RecordArena.Arrangement
