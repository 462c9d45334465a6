import RecordArena.Probing.Shift
import RecordArena.Proofs.Probing.Displacement
import RecordArena.Proofs.Probing.Reach

/-!
# Backward shifts

`Arrangement.Shifts` is the walk of a backward shift as a relation: it says which entries move, and
every property of a shift is an induction over it. That the walk ends needs no order among the
entries at all; that it leaves every entry reached needs every entry to have been reached before,
the hole counted as occupied.

## Main statements

* `Slots.backwardShift_spec`, `Slots.delete_spec` – closing a vacant slot, and evicting an entry
  before that, succeed on any table whose homes can be read, and what happens is a shift.
* `Arrangement.Shifts.entries_perm`, `Arrangement.Shifts.displacement_le` – a shift keeps the
  entries and brings none further from home.
* `Arrangement.Shifts.reached` – a shift leaves every entry reached.
-/

namespace RecordArena

namespace Arrangement

variable {ε : Type} {n : Nat} {home : ε → Nat}

/-- The walk of a backward shift from `slot` with a hole at `hole`, and the arrangement that it
leaves. -/
inductive Shifts (n : Nat) (home : ε → Nat) :
    Arrangement ε → (hole slot : Nat) → Arrangement ε → Prop
  /-- A vacant slot ends the walk. -/
  | stop {f : Arrangement ε} {hole slot : Nat} (hnext : f ((slot + 1) % n) = none) :
      Shifts n home f hole slot f
  /-- An entry whose path does not pass the hole stays. -/
  | keep {f f' : Arrangement ε} {hole slot : Nat} {e : ε} (hnext : f ((slot + 1) % n) = some e)
      (hle : probeDistance n (home e) ((slot + 1) % n) ≤ probeDistance n (home e) hole)
      (rest : Shifts n home f hole ((slot + 1) % n) f') : Shifts n home f hole slot f'
  /-- An entry whose path passes the hole moves there, and its slot is the next hole. -/
  | move {f f' : Arrangement ε} {hole slot : Nat} {e : ε} (hnext : f ((slot + 1) % n) = some e)
      (hlt : probeDistance n (home e) hole < probeDistance n (home e) ((slot + 1) % n))
      (rest : Shifts n home
        (Function.update (Function.update f hole (some e)) ((slot + 1) % n) none)
        ((slot + 1) % n) ((slot + 1) % n) f') : Shifts n home f hole slot f'

theorem Shifts.entries_perm {f f' : Arrangement ε} {hole slot : Nat}
    (h : Shifts n home f hole slot f') (hhole : hole < n) (hf : f hole = none) :
    (f'.entries n).Perm (f.entries n) := by
  induction h with
  | stop => exact .refl _
  | keep _ _ _ ih => exact ih hhole hf
  | @move f f' hole slot e hnext hlt rest ih =>
    have hslot : (slot + 1) % n < n := Nat.mod_lt _ (by omega)
    exact (ih hslot (Function.update_self _ _ _)).trans (entries_move hslot hhole hnext hf)

theorem Shifts.displacement_le {f f' : Arrangement ε} {hole slot : Nat}
    (h : Shifts n home f hole slot f') (hhole : hole < n) (hf : f hole = none) :
    f'.displacement n home ≤ f.displacement n home := by
  induction h with
  | stop => exact Nat.le_refl _
  | keep _ _ _ ih => exact ih hhole hf
  | @move f f' hole slot e hnext hlt rest ih =>
    have hslot : (slot + 1) % n < n := Nat.mod_lt _ (by omega)
    have hmove := displacement_move home hslot hhole hnext hf hlt
    exact (ih hslot (Function.update_self _ _ _)).trans (Nat.le_of_lt hmove)

/-- Every entry is reached when the hole counts as occupied. -/
def ReachedAcross (f : Arrangement ε) (n : Nat) (home : ε → Nat) (hole : Nat) : Prop :=
  ∀ i < n, ∀ e, f i = some e → ∀ k < ringDistance n (home e) i,
    f ((home e + k) % n) ≠ none ∨ (home e + k) % n = hole

theorem Reached.evict {f : Arrangement ε} {hole : Nat}
    (h : ∀ i < n, i ≠ hole → ∀ e, f i = some e → f.Unbroken n (home e) i) :
    ReachedAcross (Function.update f hole none) n home hole := by
  intro i hi e he k hk
  have hne : i ≠ hole := by
    rintro rfl
    rw [Function.update_self] at he
    cases he
  rw [Function.update_of_ne hne] at he
  by_cases hpos : (home e + k) % n = hole
  · exact .inr hpos
  · rw [Function.update_of_ne hpos]
    exact .inl (h i hi hne e he k hk)

/-- A walk that ends at a vacant slot leaves every entry reached. The entries up to `slot` have
been seen to avoid the hole, and an entry further on has the vacant slot on its path as well. -/
theorem ReachedAcross.stop {f : Arrangement ε} {hole slot : Nat} (h : f.ReachedAcross n home hole)
    (hhomes : ∀ e ∈ f.entries n, home e < n) (hhole : hole < n) (hslot : slot < n)
    (hnext : f ((slot + 1) % n) = none)
    (hseen : ∀ i < n, ringDistance n hole i ≤ ringDistance n hole slot → ∀ e, f i = some e →
      ringDistance n (home e) i ≤ ringDistance n (home e) hole) : f.Reached n home := by
  intro i hi e he k hk
  have hhome := hhomes e (mem_entries.mpr ⟨i, hi, he⟩)
  rcases h i hi e he k hk with hpos | hpos
  · exact hpos
  -- the path crosses the hole, so it goes on past `slot` and meets the vacant slot behind it
  have hdist : ringDistance n (home e) hole = k := by
    rw [← hpos, ringDistance_add hhome (hk.trans (ringDistance_lt (by omega) _ _))]
  have hfar : ringDistance n hole slot < ringDistance n hole i := by
    by_contra hnear
    have := hseen i hi (by omega) e he
    omega
  have hsplit := ringDistance_split hhome hhole hi (by omega)
  have hend : (slot + 1) % n ≠ hole := by
    intro hwrap
    have hlt := ringDistance_lt (by omega : 0 < n) hole i
    have hlast := ringDistance_last hhole hslot hwrap
    omega
  have hstep := ringDistance_succ hhole hslot hend
  have hnextlt : (slot + 1) % n < n := Nat.mod_lt _ (by omega)
  have hne : ringDistance n hole ((slot + 1) % n) ≠ ringDistance n hole i := by
    intro heq
    have : (slot + 1) % n = i := by
      rw [← add_ringDistance hhole hnextlt, heq, add_ringDistance hhole hi]
    rw [← this, hnext] at he
    cases he
  have hcross := h i hi e he (ringDistance n (home e) hole + ringDistance n hole ((slot + 1) % n))
    (by omega)
  rw [ringDistance_chain hhome hhole, add_ringDistance hhole hnextlt] at hcross
  rcases hcross with hocc | hwrap
  · exact (hocc hnext).elim
  · exact (hend hwrap).elim

/-- A move across the hole keeps every entry reached across the new hole. -/
theorem ReachedAcross.move {f : Arrangement ε} {hole slot : Nat} {e : ε}
    (h : f.ReachedAcross n home hole) (hhome : home e < n) (hhole : hole < n) (hslot : slot < n)
    (hf : f hole = none) (he : f slot = some e)
    (hlt : ringDistance n (home e) hole < ringDistance n (home e) slot) :
    ReachedAcross (Function.update (Function.update f hole (some e)) slot none) n home slot := by
  intro i hi e' he' k hk
  have hne : i ≠ slot := by
    rintro rfl
    rw [Function.update_self] at he'
    cases he'
  rw [Function.update_of_ne hne] at he'
  by_cases hpos : (home e' + k) % n = slot
  · exact .inr hpos
  rw [Function.update_of_ne hpos]
  by_cases hih : i = hole
  · -- the entry that has moved has a shorter path than before
    subst hih
    rw [Function.update_self] at he'
    cases he'
    rcases h slot hslot e he k (hk.trans hlt) with hocc | hat
    · exact .inl (fill_ne_none e hocc)
    · have hlast := ringDistance_lt (by omega : 0 < n) (home e) slot
      have hdist := ringDistance_add (d := k) hhome (by omega)
      rw [hat] at hdist
      omega
  · rw [Function.update_of_ne hih] at he'
    rcases h i hi e' he' k hk with hocc | hat
    · exact .inl (fill_ne_none e hocc)
    · rw [hat, Function.update_self]
      exact .inl (Option.some_ne_none e)

/-- At its start a walk has seen the hole alone. -/
theorem seen_hole {f : Arrangement ε} {hole : Nat} (hhole : hole < n) (hf : f hole = none) :
    ∀ i < n, ringDistance n hole i ≤ ringDistance n hole hole → ∀ e, f i = some e →
      ringDistance n (home e) i ≤ ringDistance n (home e) hole := by
  intro i hi hnear e he
  rw [ringDistance_self hhole, Nat.le_zero, ringDistance_eq_zero hhole hi] at hnear
  rw [← hnear, hf] at he
  cases he

/-- A shift leaves every entry reached that was reached across the hole. -/
theorem Shifts.reached_of_seen {f f' : Arrangement ε} {hole slot k : Nat}
    (h : Shifts n home f hole slot f') (hn : n = 2 ^ k) (hk : k ≤ 64) (hhole : hole < n)
    (hslot : slot < n) (hf : f hole = none) (hhomes : ∀ e ∈ f.entries n, home e < n)
    (hacross : f.ReachedAcross n home hole)
    (hseen : ∀ i < n, ringDistance n hole i ≤ ringDistance n hole slot → ∀ e, f i = some e →
      ringDistance n (home e) i ≤ ringDistance n (home e) hole) : f'.Reached n home := by
  induction h with
  | stop hnext => exact hacross.stop hhomes hhole hslot hnext hseen
  | @keep f f' hole slot e hnext hle rest ih =>
    have hnextlt : (slot + 1) % n < n := Nat.mod_lt _ (by omega)
    have hhome := hhomes e (mem_entries.mpr ⟨_, hnextlt, hnext⟩)
    have hne : (slot + 1) % n ≠ hole := by
      intro heq
      rw [heq, hf] at hnext
      cases hnext
    refine ih hhole hnextlt hf hhomes hacross fun i hi hnear e' he' => ?_
    rw [ringDistance_succ hhole hslot hne] at hnear
    by_cases hold : ringDistance n hole i ≤ ringDistance n hole slot
    · exact hseen i hi hold e' he'
    · have hat : i = (slot + 1) % n := by
        rw [← add_ringDistance hhole hi, ← add_ringDistance hhole hnextlt,
          ringDistance_succ hhole hslot hne]
        congr 2
        omega
      rw [hat, hnext] at he'
      cases he'
      rwa [hat, ← probeDistance_eq hn hk hhome, ← probeDistance_eq hn hk hhome]
  | @move f f' hole slot e hnext hlt rest ih =>
    have hnextlt : (slot + 1) % n < n := Nat.mod_lt _ (by omega)
    have hhome := hhomes e (mem_entries.mpr ⟨_, hnextlt, hnext⟩)
    rw [probeDistance_eq hn hk hhome, probeDistance_eq hn hk hhome] at hlt
    -- the slot that is left is the hole of a walk that starts anew
    refine ih hnextlt hnextlt (Function.update_self _ _ _) ?_
      (hacross.move hhome hhole hnextlt hf hnext hlt)
      (seen_hole hnextlt (Function.update_self _ _ _))
    intro e' he'
    exact hhomes e' ((entries_move hnextlt hhole hnext hf).subset he')

/-- Closing the hole of an evicted entry leaves every entry reached. The evicted entry itself need
not have been reached. -/
theorem Shifts.reached {f f' : Arrangement ε} {hole k : Nat}
    (h : Shifts n home (Function.update f hole none) hole hole f') (hn : n = 2 ^ k) (hk : k ≤ 64)
    (hhole : hole < n) (hhomes : ∀ e ∈ entries (Function.update f hole none) n, home e < n)
    (hreached : ∀ i < n, i ≠ hole → ∀ e, f i = some e → f.Unbroken n (home e) i) :
    f'.Reached n home := by
  exact h.reached_of_seen hn hk hhole hhole (Function.update_self _ _ _) hhomes
    (Reached.evict hreached) (seen_hole hhole (Function.update_self _ _ _))

end Arrangement

namespace Slots

variable {τ ε : Type} [Slots τ ε] [LawfulSlots τ]

/-- The walk ends on every table with a vacancy whose homes can be read: between two moves it
meets each slot once, and each move lowers the displacement. -/
theorem shiftFrom_spec (home : ε → Except Fault Nat) (h : ε → Nat) (steps : Nat) (t : τ)
    (hole slot : Nat) (hhole : hole < capacity t) (hslot : slot < capacity t)
    (hf : entryAt t hole = none) (hhome : ∀ e ∈ entries t, home e = .ok (h e))
    (hsteps : Arrangement.displacement (entryAt t) (capacity t) h * capacity t +
      (capacity t - ringDistance (capacity t) hole slot) ≤ steps) :
    ∃ t', shiftFrom home steps t hole slot = .ok t' ∧ capacity t' = capacity t ∧
      (∀ e, LawfulSlots.Fits t' e ↔ LawfulSlots.Fits t e) ∧
      Arrangement.Shifts (capacity t) h (entryAt t) hole slot (entryAt t') := by
  induction steps generalizing t hole slot with
  | zero =>
    have := ringDistance_lt (by omega : 0 < capacity t) hole slot
    omega
  | succ steps ih =>
    have hnextlt : next t slot < capacity t := next_lt (by omega) slot
    rw [shiftFrom, fetch_of_lt hnextlt]
    simp only [ok_bind]
    cases hnext : entryAt t (next t slot) with
    | none => exact ⟨t, rfl, rfl, fun _ => .rfl, .stop hnext⟩
    | some e =>
      simp only [hhome e (mem_entries.mpr ⟨_, hnextlt, hnext⟩), ok_bind, inProbeRange_eq,
        decide_eq_true_eq]
      have hne : next t slot ≠ hole := by
        intro heq
        rw [heq, hf] at hnext
        cases hnext
      have hdist : ringDistance (capacity t) hole slot + 1 ≤ capacity t :=
        ringDistance_lt (by omega) hole slot
      by_cases hlt : probeDistance (capacity t) (h e) hole <
          probeDistance (capacity t) (h e) (next t slot)
      · rw [if_pos hlt]
        have hfits := LawfulSlots.fits_entryAt t _ e hnext
        have hentries := entryAt_relocate hnextlt hhole hfits
        -- a move pays for the whole round that the next walk may take
        have hdrop := Arrangement.displacement_move h hnextlt hhole hnext hf hlt
        have hmul := Nat.mul_le_mul_right (capacity t) hdrop
        rw [Nat.succ_mul] at hmul
        obtain ⟨t', hrun, hcap, hfits', hshifts⟩ :=
          ih (relocate t (next t slot) hole e) (next t slot) (next t slot)
            (by rwa [capacity_relocate]) (by rwa [capacity_relocate])
            (by rw [hentries, Function.update_self])
            (by
              intro e' he'
              rw [entries_eq, hentries, capacity_relocate] at he'
              exact hhome e' ((Arrangement.entries_move hnextlt hhole hnext hf).subset he'))
            (by
              rw [hentries, capacity_relocate, ringDistance_self hnextlt]
              omega)
        rw [capacity_relocate] at hcap hshifts
        rw [hentries] at hshifts
        exact ⟨t', hrun, hcap, fun e' => (hfits' e').trans (fits_relocate t _ _ _ _),
          .move hnext hlt hshifts⟩
      · rw [if_neg hlt]
        have hstep := ringDistance_succ hhole hslot hne
        have hdist' := ringDistance_lt (by omega : 0 < capacity t) hole (next t slot)
        obtain ⟨t', hrun, hcap, hfits', hshifts⟩ :=
          ih t hole (next t slot) hhole hnextlt hf hhome (by
            rw [next] at hdist' ⊢
            omega)
        exact ⟨t', hrun, hcap, hfits', .keep hnext (by rw [next] at hlt; omega) hshifts⟩

/-- Closing a vacant slot succeeds on every table whose homes can be read. -/
theorem backwardShift_spec (home : ε → Except Fault Nat) (h : ε → Nat) {t : τ} {hole : Nat}
    (hhole : hole < capacity t) (hvacant : entryAt t hole = none)
    (hhome : ∀ e ∈ entries t, home e = .ok (h e)) :
    ∃ t', backwardShift t home hole = .ok t' ∧ capacity t' = capacity t ∧
      (∀ e, LawfulSlots.Fits t' e ↔ LawfulSlots.Fits t e) ∧
      Arrangement.Shifts (capacity t) h (entryAt t) hole hole (entryAt t') := by
  have hbound := Arrangement.displacement_bound h hhole hvacant
  exact shiftFrom_spec home h (capacity t ^ 3) t hole hole hhole hhole hvacant hhome
    (by rwa [ringDistance_self hhole, Nat.sub_zero])

/-- Deleting an entry succeeds on every table whose other homes can be read. -/
theorem delete_spec (home : ε → Except Fault Nat) (h : ε → Nat) {t : τ} {slot : Nat}
    (hslot : slot < capacity t)
    (hhome : ∀ e ∈ Arrangement.entries (Function.update (entryAt t) slot none) (capacity t),
      home e = .ok (h e)) :
    ∃ t', delete t home slot = .ok t' ∧ capacity t' = capacity t ∧
      (∀ e, LawfulSlots.Fits t' e ↔ LawfulSlots.Fits t e) ∧
      Arrangement.Shifts (capacity t) h (Function.update (entryAt t) slot none) slot slot
        (entryAt t') := by
  have hentries := entryAt_vacate hslot
  have hvacant : entryAt (vacate t slot) slot = none := by rw [hentries, Function.update_self]
  have hcap : capacity (vacate t slot) = capacity t := capacity_vacate t slot
  obtain ⟨t', hrun, hcap', hfits, hshifts⟩ := backwardShift_spec home h (t := vacate t slot)
    (by rwa [hcap]) hvacant (by rwa [entries_eq, hentries, hcap])
  rw [hcap] at hcap' hshifts
  rw [hentries] at hshifts
  refine ⟨t', ?_, hcap', fun e => (hfits e).trans (LawfulSlots.fits_vacate t slot e), hshifts⟩
  rw [delete, evict, if_pos hslot, ok_bind, hrun]

/-- Closing a hole reads the homes of entries that are there, so two readings that agree on them
lead to the same table. -/
theorem shiftFrom_congr {home home' : ε → Except Fault Nat} (steps : Nat) {t : τ}
    {hole slot : Nat} (hhole : hole < capacity t) (hf : entryAt t hole = none)
    (hhome : ∀ e ∈ entries t, home e = home' e) :
    shiftFrom home steps t hole slot = shiftFrom home' steps t hole slot := by
  induction steps generalizing t hole slot with
  | zero => rfl
  | succ steps ih =>
    have hnextlt : next t slot < capacity t := next_lt (by omega) slot
    rw [shiftFrom, shiftFrom, fetch_of_lt hnextlt, ok_bind, ok_bind]
    cases hnext : entryAt t (next t slot) with
    | none => rfl
    | some e =>
      have hfits := LawfulSlots.fits_entryAt t _ e hnext
      have hentries := entryAt_relocate hnextlt hhole hfits
      dsimp only
      rw [hhome e (mem_entries.mpr ⟨_, hnextlt, hnext⟩)]
      refine bind_congr fun start => ?_
      -- the walk goes on alike after a move, which keeps the entries, and after none
      have hmove : shiftFrom home steps (relocate t (next t slot) hole e) (next t slot)
          (next t slot) = shiftFrom home' steps (relocate t (next t slot) hole e) (next t slot)
          (next t slot) := by
        refine ih (by rwa [capacity_relocate]) (by rw [hentries, Function.update_self]) ?_
        intro e' he'
        rw [entries_eq, hentries, capacity_relocate] at he'
        exact hhome e' ((Arrangement.entries_move hnextlt hhole hnext hf).subset he')
      rw [hmove, ih hhole hf hhome]

/-- Deleting an entry never reads the home of the deleted one. -/
theorem delete_congr {home home' : ε → Except Fault Nat} {t : τ} {slot : Nat}
    (hhome : ∀ e ∈ Arrangement.entries (Function.update (entryAt t) slot none) (capacity t),
      home e = home' e) : delete t home slot = delete t home' slot := by
  rw [delete, delete, evict]
  split
  · next hslot =>
    have hentries := entryAt_vacate hslot
    rw [ok_bind, ok_bind]
    refine shiftFrom_congr _ (by rwa [capacity_vacate]) (by rw [hentries, Function.update_self]) ?_
    rwa [entries_eq, hentries, capacity_vacate]
  · rfl

end Slots

end RecordArena
