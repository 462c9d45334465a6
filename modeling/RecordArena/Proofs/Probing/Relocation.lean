import RecordArena.Proofs.Probing.Shift

/-!
# The relocations of a backward shift

A backward shift ends on every table with a vacancy, whatever the homes of its entries are. To see
what it does on the way, it is run on a table that records every change of a slot together with
what the slot held before. All it does is to relocate entries: into a vacant slot, out of an
occupied one.

## Main definitions

* `Recorded` – a table with a record of its changes, which is a slot table itself.
* `Relocation` – moving an entry from an occupied slot to a vacant one.

## Main statements

* `Slots.shiftFrom_recorded` – the walk on a recorded table takes the same way and only relocates.
* `Slots.backwardShift_relocates` – closing a vacant slot ends, and what it leaves.
-/

namespace RecordArena

/-- A change of a slot, with what the slot held before. -/
inductive SlotChange (ε : Type) where
  | stored (slot : Nat) (entry : ε) (before : Option ε)
  | vacated (slot : Nat) (before : Option ε)

/-- A table with the changes of its slots, the first one first. -/
structure Recorded (τ ε : Type) where
  table : τ
  changes : List (SlotChange ε)

/-- Changes are made to the table and recorded. -/
instance {τ ε : Type} [Slots τ ε] : Slots (Recorded τ ε) ε where
  capacity r := Slots.capacity r.table
  entryAt r slot := Slots.entryAt r.table slot
  store r slot e :=
    ⟨Slots.store r.table slot e, r.changes ++ [.stored slot e (Slots.entryAt r.table slot)]⟩
  vacate r slot :=
    ⟨Slots.vacate r.table slot, r.changes ++ [.vacated slot (Slots.entryAt r.table slot)]⟩

/-- The move of an entry to another slot. -/
structure Relocation (ε : Type) where
  source : Nat
  target : Nat
  entry : ε

/-- The changes that relocate an entry: it is stored in a slot that was vacant, and vacated where it
was. -/
def Relocation.changes {ε : Type} (r : Relocation ε) : List (SlotChange ε) :=
  [.stored r.target r.entry none, .vacated r.source (some r.entry)]

namespace Slots

variable {τ ε : Type} [Slots τ ε] {t t' : τ}

@[simp] theorem capacity_recorded (t : τ) (changes : List (SlotChange ε)) :
    capacity (⟨t, changes⟩ : Recorded τ ε) = capacity t := rfl

@[simp] theorem next_recorded (t : τ) (changes : List (SlotChange ε)) (slot : Nat) :
    next (⟨t, changes⟩ : Recorded τ ε) slot = next t slot := rfl

@[simp] theorem fetch_recorded (t : τ) (changes : List (SlotChange ε)) (slot : Nat) :
    fetch (⟨t, changes⟩ : Recorded τ ε) slot = fetch t slot := rfl

variable [LawfulSlots τ]

theorem relocate_recorded (changes : List (SlotChange ε)) {source target : Nat} {e : ε}
    (htarget : target < capacity t) (he : entryAt t source = some e)
    (hvacant : entryAt t target = none) :
    relocate (⟨t, changes⟩ : Recorded τ ε) source target e =
      ⟨relocate t source target e, changes ++ Relocation.changes ⟨source, target, e⟩⟩ := by
  have hne : source ≠ target := Arrangement.ne_of_vacant he hvacant
  -- storing the entry has not changed where it comes from
  have hkeep : entryAt (store t target e) source = some e := by
    rw [entryAt_store htarget (LawfulSlots.fits_entryAt t source e he), Function.update_of_ne hne,
      he]
  change (⟨_, (changes ++ [.stored target e (entryAt t target)]) ++
    [.vacated source (entryAt (store t target e) source)]⟩ : Recorded τ ε) = _
  rw [hvacant, hkeep, List.append_assoc]
  rfl

/-- A walk that is answered takes the same way on a recorded table, where it does nothing but
relocate entries within the table. -/
theorem shiftFrom_recorded {home : ε → Except Fault Nat} {steps hole slot : Nat}
    (changes : List (SlotChange ε)) (hhole : hole < capacity t) (hf : entryAt t hole = none)
    (hrun : shiftFrom home steps t hole slot = .ok t') :
    ∃ moves : List (Relocation ε),
      shiftFrom home steps (⟨t, changes⟩ : Recorded τ ε) hole slot =
        .ok ⟨t', changes ++ moves.flatMap Relocation.changes⟩ ∧
      ∀ m ∈ moves, m.source < capacity t ∧ m.target < capacity t := by
  -- along the walk on the table itself
  induction steps generalizing t hole slot changes with
  | zero => cases hrun
  | succ steps ih =>
    have hnextlt : next t slot < capacity t := next_lt (by omega) slot
    rw [shiftFrom, fetch_of_lt hnextlt, ok_bind] at hrun
    rw [shiftFrom, next_recorded, fetch_recorded, fetch_of_lt hnextlt, ok_bind, capacity_recorded]
    cases hnext : entryAt t (next t slot) with
    | none =>
      rw [hnext] at hrun
      cases hrun
      refine ⟨[], ?_, fun m hm => absurd hm List.not_mem_nil⟩
      rw [List.flatMap_nil, List.append_nil]
      rfl
    | some e =>
      rw [hnext] at hrun
      obtain ⟨start, hstart, hrun⟩ := bind_eq_ok hrun
      dsimp only at hrun ⊢
      rw [hstart, ok_bind]
      split at hrun
      · next hin =>
        rw [if_pos hin, relocate_recorded changes hhole hnext hf]
        have hvacant : entryAt (relocate t (next t slot) hole e) (next t slot) = none := by
          rw [entryAt_relocate hnextlt hhole (LawfulSlots.fits_entryAt t _ e hnext),
            Function.update_self]
        obtain ⟨moves, hmoves, hlt⟩ := ih _ (by rwa [capacity_relocate]) hvacant hrun
        rw [capacity_relocate] at hlt
        refine ⟨⟨next t slot, hole, e⟩ :: moves, ?_,
          List.forall_mem_cons.mpr ⟨⟨hnextlt, hhole⟩, hlt⟩⟩
        rw [hmoves, List.flatMap_cons, List.append_assoc]
      · next hout =>
        rw [if_neg hout]
        exact ih changes hhole hf hrun

/-- Closing a vacant slot ends on every table, whatever the homes of its entries are and however few
slots are vacant. On the way it does nothing but relocate entries, each from an occupied slot to a
vacant one, and it leaves the same entries, together no further from home. Slot numbers are machine
words, so a capacity is at most `2 ^ 64`. -/
theorem backwardShift_relocates {home : ε → Except Fault Nat} {start : ε → Nat} {k hole : Nat}
    (hcapacity : capacity t = 2 ^ k) (hk : k ≤ 64) (hhome : ∀ e ∈ entries t, home e = .ok (start e))
    (hhole : hole < capacity t) (hvacant : entryAt t hole = none) :
    ∃ (t' : τ) (moves : List (Relocation ε)), backwardShift t home hole = .ok t' ∧
      backwardShift (⟨t, []⟩ : Recorded τ ε) home hole =
        .ok ⟨t', moves.flatMap Relocation.changes⟩ ∧
      (∀ m ∈ moves, m.source < capacity t ∧ m.target < capacity t) ∧
      capacity t' = capacity t ∧ (entries t').Perm (entries t) ∧
      Arrangement.totalDistance (entryAt t') (capacity t) start ≤
        Arrangement.totalDistance (entryAt t) (capacity t) start := by
  obtain ⟨t', hrun, hcap, -, hshifts⟩ := backwardShift_spec home start hhole hvacant hhome
  obtain ⟨moves, hmoves, hlt⟩ := shiftFrom_recorded [] hhole hvacant hrun
  have hperm := hshifts.entries_perm hhole hvacant
  have hdistance := hshifts.displacement_le hhole hvacant
  rw [← hcap, ← entries_eq, hcap] at hperm
  refine ⟨t', moves, hrun, hmoves, hlt, hcap, hperm, ?_⟩
  rw [← Arrangement.displacement_eq_totalDistance start hcapacity hk,
    ← Arrangement.displacement_eq_totalDistance start hcapacity hk]
  exact_mod_cast hdistance

/-- A table of four slots with one vacancy, and an entry that no probe reaches: its home is slot 2,
and it sits in slot 1, beyond the vacancy. -/
theorem backwardShift_relocates_twice :
    ∃ (t t' : Array (Option Nat)) (home : Nat → Except Fault Nat)
      (moves : List (Relocation Nat)),
      capacity t = 2 ^ 2 ∧ (∀ e ∈ entries t, home e = .ok (id e)) ∧ 0 < capacity t ∧
      entryAt t 0 = none ∧ allReachable t home = .ok false ∧ backwardShift t home 0 = .ok t' ∧
      backwardShift (⟨t, []⟩ : Recorded (Array (Option Nat)) Nat) home 0 =
        .ok ⟨t', moves.flatMap Relocation.changes⟩ ∧
      moves.length = 3 ∧ (entries t').Perm (entries t) ∧
      Arrangement.totalDistance (entryAt t') 4 id ≤ Arrangement.totalDistance (entryAt t) 4 id := by
  obtain ⟨t, home, hcapacity, hhome, hhole, hvacant, hunreached, hevaluated⟩ :
      ∃ (t : Array (Option Nat)) (home : Nat → Except Fault Nat),
        capacity t = 2 ^ 2 ∧ (∀ e ∈ entries t, home e = .ok (id e)) ∧ 0 < capacity t ∧
        entryAt t 0 = none ∧ allReachable t home = .ok false ∧
        backwardShift (⟨t, []⟩ : Recorded (Array (Option Nat)) Nat) home 0 =
          .ok ⟨#[none, some 1, some 2, some 3], [.stored 0 2 none, .vacated 1 (some 2),
            .stored 1 1 none, .vacated 2 (some 1), .stored 2 2 none, .vacated 0 (some 2)]⟩ :=
    ⟨#[none, some 2, some 1, some 3], fun e => .ok e, rfl, fun _ _ => rfl, by decide, rfl, rfl, rfl⟩
  obtain ⟨t', moves, hrun, hmoves, -, -, hperm, hdistance⟩ :=
    backwardShift_relocates hcapacity (by decide) hhome hhole hvacant
  rw [hcapacity] at hdistance
  refine ⟨t, t', home, moves, hcapacity, hhome, hhole, hvacant, hunreached, hrun, hmoves, ?_, hperm,
    hdistance⟩
  -- the entry of home 2 is moved twice, by way of slot 0
  rw [hevaluated] at hmoves
  injection hmoves with hmoves
  have hlength := congrArg (fun r => r.changes.length) hmoves
  simp only [List.length_flatMap, Relocation.changes, List.length_cons, List.length_nil,
    List.map_const', List.sum_replicate_nat] at hlength
  omega

end Slots

end RecordArena
