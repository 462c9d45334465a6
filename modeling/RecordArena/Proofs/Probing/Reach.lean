import Mathlib.Data.Nat.Find
import RecordArena.Probing.Walk
import RecordArena.Proofs.Outcome
import RecordArena.Proofs.Probing.Arrangement
import RecordArena.Proofs.Probing.Distance

/-!
# Reaching entries by probing

A probe finds an entry exactly when no vacant slot lies between the home of the entry and its
slot. `Arrangement.Reached` says so of every entry. A probe of a table with a vacancy ends, and
where it ends is described by `ProbeEnd.EndsProbe`.

## Main statements

* `Slots.probe_spec` – a probe of a table with a vacancy ends at a match or at a vacant slot.
* `ProbeEnd.EndsProbe.no_match_of_unbroken` – a vacant end rules out a match at the end of an
  unbroken path.
* `ProbeEnd.EndsProbe.no_match` – when all entries are reached, a vacant end rules out a match.
* `Arrangement.Reached.fill` – an entry stored where its probe ended is reached, and so are the
  others still.
-/

namespace RecordArena

namespace Arrangement

variable {ε : Type} {f : Arrangement ε} {n : Nat} {home : ε → Nat}

/-- The slots from `start` up to `slot`, itself left out, are occupied. -/
def Unbroken (f : Arrangement ε) (n start slot : Nat) : Prop :=
  ∀ k < ringDistance n start slot, f ((start + k) % n) ≠ none

/-- Every entry is met on its probe path before any vacant slot. -/
def Reached (f : Arrangement ε) (n : Nat) (home : ε → Nat) : Prop :=
  ∀ i < n, ∀ e, f i = some e → f.Unbroken n (home e) i

theorem fill_ne_none {i j : Nat} (e : ε) (h : f j ≠ none) :
    Function.update f i (some e) j ≠ none := by
  by_cases hij : j = i
  · subst hij
    rw [Function.update_self]
    exact Option.some_ne_none e
  · rwa [Function.update_of_ne hij]

theorem Unbroken.fill {start slot i : Nat} {e : ε} (h : f.Unbroken n start slot) :
    Unbroken (Function.update f i (some e)) n start slot :=
  fun k hk => fill_ne_none e (h k hk)

/-- Storing an entry at the end of an unbroken path keeps every entry reached. -/
theorem Reached.fill {i : Nat} {e : ε} (h : f.Reached n home)
    (he : f.Unbroken n (home e) i) : Reached (Function.update f i (some e)) n home := by
  intro j hj e' he'
  by_cases hij : j = i
  · subst hij
    rw [Function.update_self] at he'
    cases he'
    exact he.fill
  · rw [Function.update_of_ne hij] at he'
    exact (h j hj e' he').fill

theorem Reached.vacant (h : ∀ i < n, f i = none) : f.Reached n home := by
  intro i hi e he
  rw [h i hi] at he
  cases he

theorem Reached.congr {home' : ε → Nat} (h : f.Reached n home)
    (hhome : ∀ e ∈ f.entries n, home' e = home e) : f.Reached n home' := by
  intro i hi e he
  rw [hhome e (mem_entries.mpr ⟨i, hi, he⟩)]
  exact h i hi e he

end Arrangement

/-- What the end of a probe from `start` says: occupied slots without a match were passed. -/
def ProbeEnd.EndsProbe {ε : Type} (r : ProbeEnd ε) (f : Arrangement ε) (n : Nat)
    (isMatch : ε → Bool) (start : Nat) : Prop :=
  r.slot < n ∧
  (∀ k < ringDistance n start r.slot, ∃ e, f ((start + k) % n) = some e ∧ isMatch e = false) ∧
  match r with
  | .found slot e => f slot = some e ∧ isMatch e = true
  | .vacant slot => f slot = none

namespace ProbeEnd.EndsProbe

variable {ε : Type} {f : Arrangement ε} {n : Nat} {isMatch : ε → Bool} {start slot : Nat}
  {r : ProbeEnd ε}

theorem unbroken (h : r.EndsProbe f n isMatch start) : f.Unbroken n start r.slot := by
  intro k hk
  obtain ⟨e, he, -⟩ := h.2.1 k hk
  rw [he]
  exact Option.some_ne_none e

/-- A probe that ends at a vacant slot has passed every slot that an unbroken path leads to. -/
theorem no_match_of_unbroken (h : (ProbeEnd.vacant slot : ProbeEnd ε).EndsProbe f n isMatch start)
    (hstart : start < n) {i : Nat} (hi : i < n) {e : ε} (hf : f i = some e)
    (hpath : f.Unbroken n start i) : isMatch e = false := by
  have hvacant : f slot = none := h.2.2
  have hslot : slot < n := h.1
  -- either the probe has passed the entry, or the path of the entry has a vacant slot
  rcases Nat.lt_trichotomy (ringDistance n start i) (ringDistance n start slot) with hlt | heq | hgt
  · obtain ⟨e', he', hno⟩ := h.2.1 _ hlt
    rw [add_ringDistance hstart hi, hf] at he'
    cases he'
    exact hno
  · rw [(ringDistance_inj hstart hi hslot).mp heq, hvacant] at hf
    cases hf
  · have := hpath _ hgt
    rw [add_ringDistance hstart hslot] at this
    exact (this hvacant).elim

/-- A probe that ends at a vacant slot has passed every entry with the home it started from. -/
theorem no_match {home : ε → Nat} (hr : f.Reached n home) (hstart : start < n)
    (h : (ProbeEnd.vacant slot : ProbeEnd ε).EndsProbe f n isMatch start) {e : ε}
    (he : e ∈ f.entries n) (hhome : home e = start) : isMatch e = false := by
  obtain ⟨i, hi, hf⟩ := Arrangement.mem_entries.mp he
  exact h.no_match_of_unbroken hstart hi hf (hhome ▸ hr i hi e hf)

end ProbeEnd.EndsProbe

namespace Slots

variable {τ ε : Type} [Slots τ ε] {t : τ}

theorem fetch_of_lt {slot : Nat} (h : slot < capacity t) : fetch t slot = .ok (entryAt t slot) :=
  if_pos h

theorem next_lt (h : 0 < capacity t) (slot : Nat) : next t slot < capacity t := Nat.mod_lt _ h

/-- A walk that passes `d` slots without a match gives the same answer from where it stands. -/
theorem probeFrom_passed {isMatch : ε → Except Fault Bool} {start : Nat} (steps d : Nat)
    (hpass : ∀ k < d, ∃ e, fetch t ((start + k) % capacity t) = .ok (some e) ∧
      isMatch e = .ok false) (hstart : start < capacity t) :
    probeFrom t isMatch (steps + d) start =
      probeFrom t isMatch steps ((start + d) % capacity t) := by
  -- on the slots that are passed, the first one first
  induction d generalizing start with
  | zero => rw [Nat.add_zero, Nat.add_zero, Nat.mod_eq_of_lt hstart]
  | succ d ih =>
    obtain ⟨e, he, hno⟩ := hpass 0 (Nat.succ_pos d)
    rw [Nat.add_zero, Nat.mod_eq_of_lt hstart] at he
    have hnext : (next t start + d) % capacity t = (start + (d + 1)) % capacity t := by
      rw [next, Nat.mod_add_mod, Nat.add_assoc, Nat.add_comm 1]
    rw [← Nat.add_assoc, probeFrom, he]
    simp only [ok_bind, hno, Bool.false_eq_true, if_false]
    rw [ih _ (next_lt (by omega) start), hnext]
    intro k hk
    obtain ⟨e', he', hno'⟩ := hpass (k + 1) (by omega)
    refine ⟨e', ?_, hno'⟩
    rw [← he', next, Nat.mod_add_mod, Nat.add_assoc, Nat.add_comm 1]

theorem probe_spec (isMatch : ε → Except Fault Bool) (p : ε → Bool) {start : Nat}
    (hstart : start < capacity t) (hmatch : ∀ e ∈ entries t, isMatch e = .ok (p e))
    (hvacant : ∃ i < capacity t, entryAt t i = none) :
    ∃ r, probe t isMatch start = .ok r ∧ r.EndsProbe (entryAt t) (capacity t) p start := by
  -- the first slot on the path that is vacant or matches
  let stops (d : Nat) : Prop := ∀ e, entryAt t ((start + d) % capacity t) = some e → p e = true
  have hstops : ∃ d, d < capacity t ∧ stops d := by
    obtain ⟨i, hi, hnone⟩ := hvacant
    refine ⟨ringDistance (capacity t) start i, ringDistance_lt (by omega) _ _, ?_⟩
    intro e he
    rw [add_ringDistance hstart hi, hnone] at he
    cases he
  classical
  obtain ⟨hd, hstop⟩ := Nat.find_spec hstops
  have hfirst := fun k (hk : k < Nat.find hstops) => Nat.find_min hstops hk
  generalize Nat.find hstops = d at hd hstop hfirst
  have hlt : ∀ k, (start + k) % capacity t < capacity t := fun k => Nat.mod_lt _ (by omega)
  have hpass : ∀ k < d, ∃ e, entryAt t ((start + k) % capacity t) = some e ∧ p e = false := by
    intro k hk
    have hno : ¬ stops k := fun h => hfirst k hk ⟨by omega, h⟩
    simp only [stops, not_forall] at hno
    obtain ⟨e, he, hp⟩ := hno
    exact ⟨e, he, by simpa using hp⟩
  have hwalk : probe t isMatch start =
      probeFrom t isMatch (capacity t - d) ((start + d) % capacity t) := by
    rw [probe, ← probeFrom_passed (capacity t - d) d _ hstart, Nat.sub_add_cancel (by omega)]
    intro k hk
    obtain ⟨e, he, hp⟩ := hpass k hk
    refine ⟨e, by rw [fetch_of_lt (hlt k), he], ?_⟩
    rw [hmatch e (mem_entries.mpr ⟨_, hlt k, he⟩), hp]
  obtain ⟨steps, hsteps⟩ : ∃ steps, capacity t - d = steps + 1 := ⟨capacity t - d - 1, by omega⟩
  rw [hsteps, probeFrom, fetch_of_lt (hlt d), ok_bind] at hwalk
  cases hslot : entryAt t ((start + d) % capacity t) with
  | none =>
    rw [hslot] at hwalk
    refine ⟨_, hwalk, hlt d, ?_, hslot⟩
    rwa [ProbeEnd.slot, ringDistance_add hstart hd]
  | some e =>
    rw [hslot] at hwalk
    simp only [hmatch e (mem_entries.mpr ⟨_, hlt d, hslot⟩), hstop e hslot, ok_bind,
      if_true] at hwalk
    refine ⟨_, hwalk, hlt d, ?_, hslot, hstop e hslot⟩
    rwa [ProbeEnd.slot, ringDistance_add hstart hd]

/-- The first vacant slot from a home is the end of an unbroken path. -/
theorem firstVacant_spec {start : Nat} (hstart : start < capacity t)
    (hvacant : ∃ i < capacity t, entryAt t i = none) :
    ∃ slot < capacity t, firstVacant t start = .ok slot ∧ entryAt t slot = none ∧
      Arrangement.Unbroken (entryAt t) (capacity t) start slot := by
  obtain ⟨r, hr, hend⟩ := probe_spec (fun _ => pure false) (fun _ => false) hstart
    (fun _ _ => rfl) hvacant
  cases r with
  | found slot e => exact (Bool.false_ne_true hend.2.2.2).elim
  | vacant slot =>
    refine ⟨slot, hend.1, ?_, hend.2.2, hend.unbroken⟩
    rw [firstVacant, hr]
    rfl

end Slots

end RecordArena
