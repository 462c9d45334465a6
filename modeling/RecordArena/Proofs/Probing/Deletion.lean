import RecordArena.Proofs.Probing.Shift

/-!
# Deleting an entry

Vacating a slot and closing the hole takes one entry out of a table and keeps the others where
probes find them. Whether all entries are reachable is asked by the check that tables come with: on
a table whose homes can be read it says whether the arrangement is `Arrangement.Reached`.

## Main definitions

* `Slots.Finds` – a probe ends at what it looks for.

## Main statements

* `Slots.allReachable_iff` – what the reachability check says.
* `Arrangement.Shifts.eq_outside` – a shift stays before the next vacant slot.
* `Slots.backwardShift_deletes` – deletion from any table all of whose entries are reachable.
-/

namespace RecordArena

namespace Arrangement

variable {ε : Type} {f f' : Arrangement ε} {n : Nat} {home : ε → Nat}

/-- A path that has a first slot is unbroken when that slot is occupied and the rest is unbroken. -/
theorem unbroken_iff {start slot : Nat} (hstart : start < n) (hslot : slot < n)
    (hne : start ≠ slot) :
    f.Unbroken n start slot ↔ f start ≠ none ∧ f.Unbroken n ((start + 1) % n) slot := by
  have hdist := ringDistance_next hstart hslot hne
  have hshift : ∀ k, ((start + 1) % n + k) % n = (start + (k + 1)) % n := fun k => by
    rw [Nat.mod_add_mod, Nat.add_assoc, Nat.add_comm 1]
  constructor
  · intro h
    refine ⟨?_, fun k hk => ?_⟩
    · have hfirst := h 0 (by omega)
      rwa [Nat.add_zero, Nat.mod_eq_of_lt hstart] at hfirst
    · rw [hshift]
      exact h (k + 1) (by omega)
  · rintro ⟨hfirst, hrest⟩ k hk
    cases k with
    | zero => rwa [Nat.add_zero, Nat.mod_eq_of_lt hstart]
    | succ k =>
      rw [← hshift]
      exact hrest k (by omega)

theorem unbroken_self {slot : Nat} (hslot : slot < n) : f.Unbroken n slot slot := by
  intro k hk
  rw [ringDistance_self hslot] at hk
  omega

/-- The slot after one that lies before a vacant slot lies before it as well, if it is occupied. -/
theorem step_before {origin slot stop : Nat} {e : ε} (horigin : origin < n) (hslot : slot < n)
    (hstop : stop < n) (hahead : ringDistance n origin slot < ringDistance n origin stop)
    (hnext : f ((slot + 1) % n) = some e) (hf : f stop = none) :
    ringDistance n origin ((slot + 1) % n) = ringDistance n origin slot + 1 ∧
      ringDistance n origin ((slot + 1) % n) < ringDistance n origin stop := by
  have hnextlt : (slot + 1) % n < n := Nat.mod_lt _ (by omega)
  have hfar := ringDistance_lt (by omega : 0 < n) origin stop
  have hturn : (slot + 1) % n ≠ origin := by
    intro hwrap
    have hlast := ringDistance_last horigin hslot hwrap
    omega
  have hstep := ringDistance_succ horigin hslot hturn
  have hne : ringDistance n origin ((slot + 1) % n) ≠ ringDistance n origin stop := by
    intro heq
    rw [(ringDistance_inj horigin hnextlt hstop).mp heq, hf] at hnext
    cases hnext
  omega

/-- A walk that has not come to the vacant slot `stop` ends before it: seen from where the walk
began, slots as far as `stop` and further stay as they are. -/
theorem Shifts.eq_outside {hole slot origin stop i : Nat} (h : Shifts n home f hole slot f')
    (horigin : origin < n) (hslot : slot < n) (hstop : stop < n)
    (hbehind : ringDistance n origin hole ≤ ringDistance n origin slot)
    (hahead : ringDistance n origin slot < ringDistance n origin stop) (hf : f stop = none)
    (hi : ringDistance n origin stop ≤ ringDistance n origin i) : f' i = f i := by
  induction h with
  | stop hnext => rfl
  | @keep f f' hole slot e hnext hle rest ih =>
    obtain ⟨hstep, hnear⟩ := step_before horigin hslot hstop hahead hnext hf
    exact ih (Nat.mod_lt _ (by omega)) (by omega) hnear hf
  | @move f f' hole slot e hnext hlt rest ih =>
    obtain ⟨hstep, hnear⟩ := step_before horigin hslot hstop hahead hnext hf
    -- neither the hole nor the slot that is left is as far as `stop`
    have hkeep : ∀ j, ringDistance n origin stop ≤ ringDistance n origin j →
        Function.update (Function.update f hole (some e)) ((slot + 1) % n) none j = f j := by
      intro j hj
      have hleft : j ≠ (slot + 1) % n := by
        rintro rfl
        omega
      have hfilled : j ≠ hole := by
        rintro rfl
        omega
      rw [Function.update_of_ne hleft, Function.update_of_ne hfilled]
    rw [ih (Nat.mod_lt _ (by omega)) (Nat.le_refl _) hnear ((hkeep stop (Nat.le_refl _)).trans hf),
      hkeep i hi]

end Arrangement

namespace Slots

variable {τ ε : Type} [Slots τ ε] {t : τ}

/-- A walk that has steps enough to come to `target` answers whether its path there is unbroken. -/
theorem reachesFrom_spec {target : Nat} (htarget : target < capacity t) (steps : Nat) {slot : Nat}
    (hslot : slot < capacity t) (hsteps : ringDistance (capacity t) slot target < steps) :
    ∃ reached, reachesFrom t target steps slot = .ok reached ∧
      (reached = true ↔ Arrangement.Unbroken (entryAt t) (capacity t) slot target) := by
  induction steps generalizing slot with
  | zero => omega
  | succ steps ih =>
    rw [reachesFrom]
    by_cases heq : slot = target
    · rw [if_pos heq, heq]
      exact ⟨true, rfl, iff_of_true rfl (Arrangement.unbroken_self htarget)⟩
    · rw [if_neg heq, fetch_of_lt hslot, ok_bind, Arrangement.unbroken_iff hslot htarget heq]
      cases hentry : entryAt t slot with
      | none => exact ⟨false, rfl, iff_of_false Bool.false_ne_true fun h => h.1 rfl⟩
      | some e =>
        have hdist := ringDistance_next hslot htarget heq
        obtain ⟨reached, hrun, hiff⟩ := ih (next_lt (by omega) slot) (by rw [next]; omega)
        refine ⟨reached, hrun, hiff.trans ?_⟩
        rw [next]
        exact (and_iff_right (Option.some_ne_none e)).symm

section Homes

variable {home : ε → Except Fault Nat} {h : ε → Nat}

theorem reachableAt_spec (hhome : ∀ e ∈ entries t, home e = .ok (h e) ∧ h e < capacity t)
    (slots : List Nat) (hslots : ∀ i ∈ slots, i < capacity t) :
    ∃ reachable, reachableAt t home slots = .ok reachable ∧
      (reachable = true ↔ ∀ i ∈ slots, ∀ e, entryAt t i = some e →
        Arrangement.Unbroken (entryAt t) (capacity t) (h e) i) := by
  induction slots with
  | nil => exact ⟨true, rfl, iff_of_true rfl fun i hi => absurd hi List.not_mem_nil⟩
  | cons slot rest ih =>
    have hslot := hslots slot List.mem_cons_self
    obtain ⟨reachable, hrest, hiff⟩ := ih fun i hi => hslots i (List.mem_cons_of_mem _ hi)
    rw [reachableAt, fetch_of_lt hslot, ok_bind]
    simp only [List.forall_mem_cons]
    cases hentry : entryAt t slot with
    | none =>
      refine ⟨reachable, hrest, hiff.trans (and_iff_right ?_).symm⟩
      intro e he
      cases he
    | some e =>
      obtain ⟨hread, hlt⟩ := hhome e (mem_entries.mpr ⟨slot, hslot, hentry⟩)
      obtain ⟨reached, hrun, hreached⟩ := reachesFrom_spec hslot (capacity t) hlt
        (ringDistance_lt (by omega) _ _)
      have hhead : (∀ e', some e = some e' →
          Arrangement.Unbroken (entryAt t) (capacity t) (h e') slot) ↔ reached = true := by
        rw [hreached]
        exact ⟨fun hall => hall e rfl, fun hpath e' he' => by cases he'; exact hpath⟩
      simp only [hread, hrun, hrest, ok_bind, hhead, ← hiff]
      cases reached with
      | true => exact ⟨reachable, rfl, by simp⟩
      | false => exact ⟨false, rfl, by simp⟩

/-- The check for reachability answers whether every entry is met on its probe path. -/
theorem allReachable_iff (hhome : ∀ e ∈ entries t, home e = .ok (h e) ∧ h e < capacity t) :
    allReachable t home = .ok true ↔
      Arrangement.Reached (entryAt t) (capacity t) h := by
  obtain ⟨reachable, hrun, hiff⟩ := reachableAt_spec hhome (List.range (capacity t))
    fun i hi => List.mem_range.mp hi
  simp only [List.mem_range] at hiff
  rw [allReachable, hrun, Except.ok.injEq, hiff]
  rfl

end Homes

/-- A probe from `start` for anything that `e` is ends at an entry that it looks for. -/
def Finds (t : τ) (start : Nat) (e : ε) : Prop :=
  ∀ isMatch : ε → Bool, isMatch e = true → ∃ slot found,
    probe t (fun e => pure (isMatch e)) start = .ok (.found slot found) ∧ isMatch found = true

theorem finds_of_reached {h : ε → Nat} (hr : Arrangement.Reached (entryAt t) (capacity t) h)
    (hvacant : ∃ i < capacity t, entryAt t i = none) {e : ε} (he : e ∈ entries t)
    (hlt : h e < capacity t) : Finds t (h e) e := by
  intro isMatch hmatch
  obtain ⟨r, hrun, hend⟩ := probe_spec (fun e => pure (isMatch e)) isMatch hlt (fun _ _ => rfl)
    hvacant
  cases r with
  | found slot found => exact ⟨slot, found, hrun, hend.2.2.2⟩
  | vacant slot =>
    have hno := hend.no_match hr hlt he rfl
    rw [hmatch] at hno
    cases hno

variable [LawfulSlots τ]

/-- Deleting an entry of a table whose entries are all reachable, which may be full. Vacating its
slot and closing the hole succeeds; all entries are reachable again, they are the old ones without
the deleted one, and a probe from its home finds each of them. When the table had a vacant slot, no
slot from there on to the deleted one has changed. Slot numbers are machine words, so a capacity is
at most `2 ^ 64`. -/
theorem backwardShift_deletes {home : ε → Except Fault Nat} {k slot : Nat} {e : ε}
    (hcapacity : capacity t = 2 ^ k) (hk : k ≤ 64)
    (hhome : ∀ e ∈ entries t, ∃ start < capacity t, home e = .ok start)
    (hreachable : allReachable t home = .ok true) (hslot : slot < capacity t)
    (he : entryAt t slot = some e) :
    ∃ t', backwardShift (vacate t slot) home slot = .ok t' ∧ capacity t' = capacity t ∧
      allReachable t' home = .ok true ∧ (entries t).Perm (e :: entries t') ∧
      (∀ e' ∈ entries t', ∃ start, home e' = .ok start ∧ Finds t' start e') ∧
      ∀ stop < capacity t, entryAt t stop = none → ∀ i,
        ringDistance (capacity t) slot stop ≤ ringDistance (capacity t) slot i →
        entryAt t' i = entryAt t i := by
  choose! start hlt hread using hhome
  have hreached := (allReachable_iff fun e he => ⟨hread e he, hlt e he⟩).mp hreachable
  have hclear := Arrangement.entries_clear hslot he
  obtain ⟨t', hrun, hcap, -, hshifts⟩ := delete_spec home start hslot fun e' he' =>
    hread e' (hclear.mem_iff.mpr (List.mem_cons_of_mem _ he'))
  rw [delete, evict, if_pos hslot, ok_bind] at hrun
  have hperm : (entries t).Perm (e :: entries t') := by
    have hkeep := hshifts.entries_perm hslot (Function.update_self _ _ _)
    rw [← hcap, ← entries_eq, hcap] at hkeep
    exact hclear.trans (hkeep.symm.cons e)
  have hsub : ∀ e' ∈ entries t', e' ∈ entries t := fun e' he' =>
    hperm.mem_iff.mpr (List.mem_cons_of_mem _ he')
  have hreached' : Arrangement.Reached (entryAt t') (capacity t') start := by
    rw [hcap]
    exact hshifts.reached hcapacity hk hslot
      (fun e' he' => hlt e' (hclear.mem_iff.mpr (List.mem_cons_of_mem _ he')))
      fun i hi _ => hreached i hi
  -- also a full table has a vacancy now
  have hvacant : ∃ i < capacity t', entryAt t' i = none := by
    apply Arrangement.exists_vacant
    have hlength := hperm.length_eq
    have hle : (entries t).length ≤ capacity t :=
      (List.length_filterMap_le _ _).trans_eq List.length_range
    rw [List.length_cons, entries_eq t'] at hlength
    omega
  have hlt' : ∀ e' ∈ entries t', start e' < capacity t' := fun e' he' =>
    (hlt e' (hsub e' he')).trans_eq hcap.symm
  refine ⟨t', hrun, hcap, ?_, hperm, ?_, ?_⟩
  · exact (allReachable_iff fun e' he' => ⟨hread e' (hsub e' he'), hlt' e' he'⟩).mpr hreached'
  · intro e' he'
    exact ⟨start e', hread e' (hsub e' he'), finds_of_reached hreached' hvacant he' (hlt' e' he')⟩
  · intro stop hstop hnone i hi
    have hne : stop ≠ slot := (Arrangement.ne_of_vacant he hnone).symm
    have hself := ringDistance_self hslot
    have hpos : ringDistance (capacity t) slot stop ≠ 0 := fun hzero =>
      hne ((ringDistance_eq_zero hslot hstop).mp hzero).symm
    have hkeep : Function.update (entryAt t) slot none stop = none := by
      rw [Function.update_of_ne hne, hnone]
    have hfar : i ≠ slot := by
      rintro rfl
      omega
    rw [hshifts.eq_outside hslot hslot hstop (Nat.le_refl _) (by omega) hkeep hi,
      Function.update_of_ne hfar]

/-- A cluster that wraps around the end of eight slots, with homes 6, 6, 7, 6 and 2 in the slots
from 6 to 2. Deleting its first entry leaves slot 3, the next vacant one, and what is behind it. -/
theorem backwardShift_deletes_wrapped :
    ∃ (t t' : Array (Option (Nat × Nat))) (home : Nat × Nat → Except Fault Nat),
      capacity t = 2 ^ 3 ∧ (∀ e ∈ entries t, ∃ start < capacity t, home e = .ok start) ∧
      allReachable t home = .ok true ∧ entryAt t 6 = some (6, 0) ∧ entryAt t 3 = none ∧
      backwardShift (vacate t 6) home 6 = .ok t' ∧ allReachable t' home = .ok true ∧
      (entries t).Perm ((6, 0) :: entries t') ∧
      (∀ e ∈ entries t', ∃ start, home e = .ok start ∧ Finds t' start e) ∧
      ∀ i, 5 ≤ ringDistance 8 6 i → entryAt t' i = entryAt t i := by
  obtain ⟨t, home, hcapacity, hhome, hreachable, he, hstop⟩ :
      ∃ (t : Array (Option (Nat × Nat))) (home : Nat × Nat → Except Fault Nat),
        capacity t = 2 ^ 3 ∧ (∀ e ∈ entries t, ∃ start < capacity t, home e = .ok start) ∧
        allReachable t home = .ok true ∧ entryAt t 6 = some (6, 0) ∧ entryAt t 3 = none := by
    refine ⟨#[some (7, 2), some (6, 3), some (2, 4), none, none, none, some (6, 0), some (6, 1)],
      fun e => .ok e.1, rfl, fun e he => ⟨e.1, ?_, rfl⟩, rfl, rfl, rfl⟩
    revert e
    decide
  obtain ⟨t', hrun, -, hreachable', hperm, hfinds, houtside⟩ := backwardShift_deletes hcapacity
    (by decide) hhome hreachable (by rw [hcapacity]; decide : 6 < capacity t) he
  rw [hcapacity] at houtside
  exact ⟨t, t', home, hcapacity, hhome, hreachable, he, hstop, hrun, hreachable', hperm, hfinds,
    houtside 3 (by decide) hstop⟩

end Slots

end RecordArena
