import RecordArena.Proofs.Probing.Reach

/-!
# The slots that a probe visits

A probe that keeps a record of the slots it looks at makes the same tests and goes the same way.
The slots of an answered probe are the positions from its start to its end, in order, so two probes
with the same start and the same end visit the same slots.

## Main definitions

* `Slots.probeVisiting` – a probe with the slots that it looks at.
* `ringWay` – the positions from one to another around a ring.

## Main statements

* `Slots.probeVisiting_probe` – without its record it is a probe.
* `Slots.probeVisiting_eq` – the slots of an answered probe.
-/

namespace RecordArena

/-- The positions from `start` up to `stop` around a ring of `n` slots. -/
def ringWay (n start stop : Nat) : List Nat :=
  (List.range (ringDistance n start stop + 1)).map fun k => (start + k) % n

theorem ringWay_self {n a : Nat} (ha : a < n) : ringWay n a a = [a] := by
  rw [ringWay, ringDistance_self ha]
  simp [Nat.mod_eq_of_lt ha]

/-- A way that does not end where it starts goes on from the next position. -/
theorem ringWay_next {n a b : Nat} (ha : a < n) (hb : b < n) (hne : a ≠ b) :
    ringWay n a b = a :: ringWay n ((a + 1) % n) b := by
  rw [ringWay, ringDistance_next ha hb hne, List.range_succ_eq_map, List.map_cons, List.map_map,
    Nat.add_zero, Nat.mod_eq_of_lt ha]
  congr 1
  apply List.map_congr_left
  intro k _
  rw [Function.comp_apply, Nat.mod_add_mod, Nat.succ_eq_add_one, Nat.add_assoc, Nat.add_comm 1]

namespace Slots

variable {τ ε : Type} [Slots τ ε] {t : τ} {isMatch : ε → Except Fault Bool}

/-- Walks forward from `slot` like a probe, and answers the slots that were looked at as well. -/
def probeVisiting (t : τ) (isMatch : ε → Except Fault Bool) :
    (steps : Nat) → (slot : Nat) → Except Fault (ProbeEnd ε × List Nat)
  | 0, _ => .error .endless
  | steps + 1, slot => do
    match ← fetch t slot with
    | none => pure (.vacant slot, [slot])
    | some e =>
      if ← isMatch e then pure (.found slot e, [slot])
      else do
        let (r, visited) ← probeVisiting t isMatch steps (next t slot)
        pure (r, slot :: visited)

/-- The record does not change the probe. -/
theorem probeVisiting_probe (t : τ) (isMatch : ε → Except Fault Bool) (steps slot : Nat) :
    Prod.fst <$> probeVisiting t isMatch steps slot = probeFrom t isMatch steps slot := by
  induction steps generalizing slot with
  | zero => rfl
  | succ steps ih =>
    rw [probeVisiting, probeFrom]
    cases fetch t slot with
    | error fault => rfl
    | ok content =>
      cases content with
      | none => rfl
      | some e =>
        rw [ok_bind, ok_bind]
        dsimp only
        cases isMatch e with
        | error fault => rfl
        | ok matched =>
          cases matched with
          | true => rfl
          | false =>
            rw [← ih]
            cases probeVisiting t isMatch steps (next t slot) <;> rfl

/-- A probe of no more steps than there are slots visits the way from its start to its end. -/
theorem visited_eq {steps slot : Nat} {r : ProbeEnd ε} {visited : List Nat}
    (h : probeVisiting t isMatch steps slot = .ok (r, visited)) (hsteps : steps ≤ capacity t)
    (hslot : slot < capacity t) :
    r.slot < capacity t ∧ ringDistance (capacity t) slot r.slot < steps ∧
      visited = ringWay (capacity t) slot r.slot := by
  induction steps generalizing slot visited with
  | zero => cases h
  | succ steps ih =>
    have hhere : ringDistance (capacity t) slot slot < steps + 1 ∧
        [slot] = ringWay (capacity t) slot slot := by
      rw [ringDistance_self hslot, ringWay_self hslot]
      exact ⟨Nat.succ_pos steps, rfl⟩
    rw [probeVisiting] at h
    obtain ⟨content, -, h⟩ := bind_eq_ok h
    cases content with
    | none =>
      cases h
      exact ⟨hslot, hhere⟩
    | some e =>
      obtain ⟨matched, -, h⟩ := bind_eq_ok h
      cases matched with
      | true =>
        cases h
        exact ⟨hslot, hhere⟩
      | false =>
        obtain ⟨⟨r', rest⟩, hrest, h⟩ := bind_eq_ok h
        cases h
        obtain ⟨hend, hdist, hvisited⟩ := ih hrest (by omega) (next_lt (by omega) slot)
        rw [next] at hdist hvisited
        -- too few steps are left to come back here
        have hne : slot ≠ r.slot := by
          intro heq
          rw [← heq] at hdist
          have hnextlt : (slot + 1) % capacity t < capacity t := Nat.mod_lt _ (by omega)
          have hround := ringDistance_last hnextlt hslot rfl
          omega
        have hnext := ringDistance_next hslot hend hne
        exact ⟨hend, by omega, by rw [hvisited, ringWay_next hslot hend hne]⟩

/-- An answered probe visits the way from its start to its end. -/
theorem probeVisiting_eq {start : Nat} {r : ProbeEnd ε} (h : probe t isMatch start = .ok r)
    (hstart : start < capacity t) :
    probeVisiting t isMatch (capacity t) start =
      .ok (r, ringWay (capacity t) start r.slot) := by
  rw [probe, ← probeVisiting_probe] at h
  obtain ⟨⟨r', visited⟩, hrun, rfl⟩ := map_eq_ok h
  obtain ⟨-, -, rfl⟩ := visited_eq hrun (Nat.le_refl _) hstart
  exact hrun

end Slots

end RecordArena
