import RecordArena.Probing.Table
import RecordArena.Proofs.Probing.Growth
import RecordArena.Proofs.Probing.Shift

/-!
# Tables that grow

`Table.Tallied` says that the counters of a table are right. It needs nothing of the order of the
entries, and a tallied table within its limit has a vacancy, so probes, removals and growth of it
end. Where every entry is reached from its home as well, it stays so.

## Main statements

* `Table.locate_spec` – a probe ends at a match or a vacant slot.
* `Table.add_tallied` – an entry more.
* `Table.take_spec` – an entry less, and what has moved is a shift.
* `Table.settle_spec` – growth keeps the entries and leaves them reached.
* `Table.add_meets`, `Table.Settled.meets` – a new entry is met, whatever the order of the others.
-/

namespace RecordArena

theorem homeSlot_lt {capacity k : Nat} (h : capacity = 2 ^ k) (hash : Int32) :
    homeSlot capacity hash < capacity := by
  have hpos : 0 < capacity := h ▸ Nat.two_pow_pos k
  rw [homeSlot, spread]
  exact Numeric.toNat_and_lt hpos _

namespace Table

variable {τ ε : Type} [Slots τ ε]

/-- The home slots of entries with the given hashes. -/
def homes (t : Table τ) (h : ε → Int32) (e : ε) : Nat := homeSlot t.capacity (h e)

/-- The counters of a table are right. -/
structure Tallied (t : Table τ) : Prop where
  capacity_eq : ∃ k, t.capacity = 2 ^ k
  isLoadFactor : t.loadFactor.isLoadFactor = true
  limit_eq : t.limit = resizeLimit t.capacity t.loadFactor
  count_eq : t.count = (Slots.entries t.slots).length

/-- Every entry is met on the probe path from its home. -/
def Reached (t : Table τ) (h : ε → Int32) : Prop :=
  Arrangement.Reached (Slots.entryAt t.slots) t.capacity (t.homes h)

/-- The probe path from the home of `e` leads to an entry `e`. -/
def Meets (t : Table τ) (h : ε → Int32) (e : ε) : Prop :=
  ∃ slot < t.capacity, Slots.entryAt t.slots slot = some e ∧
    Arrangement.Unbroken (Slots.entryAt t.slots) t.capacity (t.homes h e) slot

theorem Meets.mem_entries {t : Table τ} {h : ε → Int32} {e : ε} (hmeets : t.Meets h e) :
    e ∈ Slots.entries t.slots := by
  obtain ⟨slot, hslot, hentry, -⟩ := hmeets
  exact Slots.mem_entries.mpr ⟨slot, hslot, hentry⟩

theorem Reached.meets {t : Table τ} {h : ε → Int32} {e : ε} (hr : t.Reached h)
    (he : e ∈ Slots.entries t.slots) : t.Meets h e := by
  obtain ⟨slot, hslot, hentry⟩ := Slots.mem_entries.mp he
  exact ⟨slot, hslot, hentry, hr slot hslot e hentry⟩

namespace Tallied

variable {t : Table τ}

theorem homes_lt (ht : t.Tallied) (h : ε → Int32) (e : ε) : t.homes h e < t.capacity := by
  obtain ⟨k, hk⟩ := ht.capacity_eq
  exact homeSlot_lt hk _

theorem limit_lt (ht : t.Tallied) : t.limit < t.capacity := by
  obtain ⟨k, hk⟩ := ht.capacity_eq
  rw [ht.limit_eq, hk]
  exact resizeLimit_lt ht.isLoadFactor k

theorem exists_vacant (ht : t.Tallied) (hle : t.count ≤ t.limit) :
    ∃ i < Slots.capacity t.slots, Slots.entryAt t.slots i = none := by
  apply Arrangement.exists_vacant
  have hlt : t.limit < Slots.capacity t.slots := ht.limit_lt
  rw [← Slots.entries_eq, ← ht.count_eq]
  omega

theorem ofSlots {slots : τ} {k : Nat} {factor : Binary32} (hcap : Slots.capacity slots = 2 ^ k)
    (hf : factor.isLoadFactor = true)
    (hvacant : ∀ i < Slots.capacity slots, Slots.entryAt slots i = none) :
    (Table.ofSlots slots factor).Tallied where
  capacity_eq := ⟨k, hcap⟩
  isLoadFactor := hf
  limit_eq := rfl
  count_eq := by
    change 0 = (Slots.entries slots).length
    rw [Slots.entries_eq, Arrangement.entries_vacant hvacant, List.length_nil]

end Tallied

theorem locate_spec {t : Table τ} (ht : t.Tallied) (hle : t.count ≤ t.limit) (hash : Int32)
    (isMatch : ε → Except Fault Bool) (p : ε → Bool)
    (hmatch : ∀ e ∈ Slots.entries t.slots, isMatch e = .ok (p e)) :
    ∃ r, t.locate hash isMatch = .ok r ∧
      r.EndsProbe (Slots.entryAt t.slots) t.capacity p (homeSlot t.capacity hash) := by
  obtain ⟨k, hk⟩ := ht.capacity_eq
  exact Slots.probe_spec isMatch p (homeSlot_lt hk hash) hmatch (ht.exists_vacant hle)

/-- A table that was past its limit and has settled was given larger slots. -/
theorem fresh_of_settle {t t' : Table τ} {hash : ε → Except Fault Int32} {fresh : Nat → Traced τ}
    {report : (capacity len : Nat) → Event} (h : (t.settle hash fresh report).outcome = .ok t')
    (hlt : t.limit < t.count) :
    ∃ slots, (fresh (grownCapacity t.capacity t.count t.loadFactor)).outcome = .ok slots := by
  rw [settle, if_pos hlt] at h
  obtain ⟨slots, hslots, -⟩ := Traced.outcome_bind_eq_ok h
  exact ⟨slots, hslots⟩

/-- A table that is past its limit fails when larger slots cannot be had. -/
theorem settle_eq_error {t : Table τ} {hash : ε → Except Fault Int32} {fresh : Nat → Traced τ}
    {report : (capacity len : Nat) → Event} {failure : Failure} (hlt : t.limit < t.count)
    (h : (fresh (grownCapacity t.capacity t.count t.loadFactor)).outcome = .error failure) :
    (t.settle hash fresh report).outcome = .error failure := by
  rw [settle, if_pos hlt, rehash, Traced.outcome_bind, h]
  rfl

variable [LawfulSlots τ]

theorem entryAt_add {t : Table τ} {slot : Nat} {e : ε} (hslot : slot < t.capacity)
    (he : LawfulSlots.Fits t.slots e) : Slots.entryAt (t.add slot e).slots =
      Function.update (Slots.entryAt t.slots) slot (some e) :=
  Slots.entryAt_store hslot he

theorem capacity_add (t : Table τ) (slot : Nat) (e : ε) : (t.add slot e).capacity = t.capacity :=
  Slots.capacity_store t.slots slot e

theorem entries_add {t : Table τ} {slot : Nat} {e : ε} (hslot : slot < t.capacity)
    (hvacant : Slots.entryAt t.slots slot = none) (he : LawfulSlots.Fits t.slots e) :
    (Slots.entries (t.add slot e).slots).Perm (e :: Slots.entries t.slots) := by
  have hcap : Slots.capacity (t.add slot e).slots = t.capacity := capacity_add t slot e
  rw [Slots.entries_eq, entryAt_add hslot he, hcap]
  exact Arrangement.entries_fill hslot hvacant e

theorem add_tallied {t : Table τ} (ht : t.Tallied) {slot : Nat} {e : ε} (hslot : slot < t.capacity)
    (hvacant : Slots.entryAt t.slots slot = none) (he : LawfulSlots.Fits t.slots e) :
    (t.add slot e).Tallied where
  capacity_eq := by rw [capacity_add]; exact ht.capacity_eq
  isLoadFactor := ht.isLoadFactor
  limit_eq := by rw [capacity_add]; exact ht.limit_eq
  count_eq := by
    rw [(entries_add hslot hvacant he).length_eq, List.length_cons, ← ht.count_eq]
    rfl

/-- Storing an entry where a probe for its hash ended keeps every entry reached. -/
theorem add_reached {t : Table τ} {h : ε → Int32} (hr : t.Reached h) {slot : Nat} {e : ε}
    (hslot : slot < t.capacity) (he : LawfulSlots.Fits t.slots e)
    (hpath : Arrangement.Unbroken (Slots.entryAt t.slots) t.capacity (t.homes h e) slot) :
    (t.add slot e).Reached h := by
  rw [Reached, entryAt_add hslot he, capacity_add]
  have hhomes : (t.add slot e).homes h = t.homes h := by
    funext e'
    rw [homes, homes, capacity_add]
  rw [hhomes]
  exact Arrangement.Reached.fill hr hpath

/-- An entry is met where a probe for its hash ended, whether or not the others are reached. -/
theorem add_meets {t : Table τ} {h : ε → Int32} {slot : Nat} {e : ε} (hslot : slot < t.capacity)
    (he : LawfulSlots.Fits t.slots e)
    (hpath : Arrangement.Unbroken (Slots.entryAt t.slots) t.capacity (t.homes h e) slot) :
    (t.add slot e).Meets h e := by
  refine ⟨slot, (capacity_add t slot e).symm ▸ hslot, ?_, ?_⟩
  · rw [entryAt_add hslot he, Function.update_self]
  · rw [entryAt_add hslot he, homes, capacity_add]
    exact hpath.fill

theorem entries_overwrite {t : Table τ} {slot : Nat} {old e : ε} (hslot : slot < t.capacity)
    (hold : Slots.entryAt t.slots slot = some old) (he : LawfulSlots.Fits t.slots e) :
    ∃ rest, (Slots.entries t.slots).Perm (old :: rest) ∧
      (Slots.entries (Slots.store t.slots slot e)).Perm (e :: rest) := by
  obtain ⟨rest, hbefore, hafter⟩ := Arrangement.entries_overwrite hslot hold e
  refine ⟨rest, hbefore, ?_⟩
  rw [Slots.entries_eq, Slots.entryAt_store hslot he, Slots.capacity_store]
  exact hafter

theorem overwrite_tallied {t : Table τ} (ht : t.Tallied) {slot : Nat} {old e : ε}
    (hslot : slot < t.capacity) (hold : Slots.entryAt t.slots slot = some old)
    (he : LawfulSlots.Fits t.slots e) :
    ({ t with slots := Slots.store t.slots slot e } : Table τ).Tallied where
  capacity_eq := by
    obtain ⟨k, hk⟩ := ht.capacity_eq
    exact ⟨k, (Slots.capacity_store t.slots slot e).trans hk⟩
  isLoadFactor := ht.isLoadFactor
  limit_eq := by
    rw [capacity, Slots.capacity_store]
    exact ht.limit_eq
  count_eq := by
    obtain ⟨rest, hbefore, hafter⟩ := entries_overwrite hslot hold he
    rw [hafter.length_eq, List.length_cons, ← List.length_cons (a := old), ← hbefore.length_eq]
    exact ht.count_eq

/-- An entry in the place of one with the same hash is reached. -/
theorem overwrite_reached {t : Table τ} {h : ε → Int32} (hr : t.Reached h) {slot : Nat}
    {old e : ε} (hslot : slot < t.capacity) (hold : Slots.entryAt t.slots slot = some old)
    (he : LawfulSlots.Fits t.slots e) (hhash : h e = h old) :
    ({ t with slots := Slots.store t.slots slot e } : Table τ).Reached h := by
  have hpath := hr slot hslot old hold
  rw [homes, ← hhash] at hpath
  exact add_reached hr hslot he hpath

/-- What removing the entry `e` of `slot` leaves of a table. -/
structure Taken (t : Table τ) (h : ε → Int32) (slot : Nat) (e : ε) (t' : Table τ) : Prop where
  tallied : t'.Tallied
  capacity_eq : t'.capacity = t.capacity
  limit_eq : t'.limit = t.limit
  loadFactor_eq : t'.loadFactor = t.loadFactor
  count_eq : t'.count = t.count - 1
  fits : ∀ e', LawfulSlots.Fits t'.slots e' ↔ LawfulSlots.Fits t.slots e'
  entries_perm : (Slots.entries t.slots).Perm (e :: Slots.entries t'.slots)
  shifts : Arrangement.Shifts t.capacity (t.homes h)
    (Function.update (Slots.entryAt t.slots) slot none) slot slot (Slots.entryAt t'.slots)

/-- Removing an entry succeeds when the hashes of the other entries can be read. -/
theorem take_spec {t : Table τ} (ht : t.Tallied) (hash : ε → Except Fault Int32) (h : ε → Int32)
    {slot : Nat} {e : ε} (hslot : slot < t.capacity) (he : Slots.entryAt t.slots slot = some e)
    (hhash : ∀ e' ∈ Arrangement.entries (Function.update (Slots.entryAt t.slots) slot none)
      t.capacity, hash e' = .ok (h e')) :
    ∃ t', t.take hash slot = .ok t' ∧ Taken t h slot e t' := by
  -- only hashes of entries that may have to move are read, never the one that goes
  obtain ⟨slots, hrun, hcap, hfits, hshifts⟩ := Slots.delete_spec
    (fun e => homeSlot t.capacity <$> hash e) (t.homes h) hslot
    (fun e' he' => by rw [hhash e' he']; rfl)
  have hperm : (Slots.entries t.slots).Perm (e :: Slots.entries slots) := by
    have hkeep := hshifts.entries_perm hslot (Function.update_self _ _ _)
    rw [← hcap, ← Slots.entries_eq] at hkeep
    refine (Arrangement.entries_clear hslot he).trans (.cons e ?_)
    rw [hcap] at hkeep
    exact hkeep.symm
  have hcount : t.count - 1 = (Slots.entries slots).length := by
    rw [ht.count_eq, hperm.length_eq, List.length_cons, Nat.add_sub_cancel]
  refine ⟨{ t with slots, count := t.count - 1 }, ?_, ?_⟩
  · rw [take, hrun]
    rfl
  · exact {
      tallied := ⟨by obtain ⟨k, hk⟩ := ht.capacity_eq; exact ⟨k, hcap.trans hk⟩, ht.isLoadFactor,
        ht.limit_eq.trans (by rw [capacity, capacity, hcap]), hcount⟩
      capacity_eq := hcap
      limit_eq := rfl
      loadFactor_eq := rfl
      count_eq := rfl
      fits := hfits
      entries_perm := hperm
      shifts := hshifts }

/-- Removing an entry never reads the hash of the removed one. -/
theorem take_congr {hash hash' : ε → Except Fault Int32} {t : Table τ} {slot : Nat}
    (hhash : ∀ e ∈ Arrangement.entries (Function.update (Slots.entryAt t.slots) slot none)
      t.capacity, hash e = hash' e) : t.take hash slot = t.take hash' slot := by
  have hdelete : Slots.delete t.slots (fun e => homeSlot t.capacity <$> hash e) slot =
      Slots.delete t.slots (fun e => homeSlot t.capacity <$> hash' e) slot :=
    Slots.delete_congr fun e he => by rw [hhash e he]
  rw [take, take, hdelete]

namespace Taken

variable {t t' : Table τ} {h : ε → Int32} {slot : Nat} {e : ε}

theorem homes_eq (htaken : Taken t h slot e t') (h' : ε → Int32) : t'.homes h' = t.homes h' := by
  funext e'
  rw [homes, homes, htaken.capacity_eq]

/-- Removing an entry leaves the others reached, whether or not it was reached itself. -/
theorem reached (htaken : Taken t h slot e t') (ht : t.Tallied) (hcap : t.capacity ≤ 2 ^ 64)
    (hslot : slot < t.capacity)
    (hr : ∀ i < t.capacity, i ≠ slot → ∀ e', Slots.entryAt t.slots i = some e' →
      Arrangement.Unbroken (Slots.entryAt t.slots) t.capacity (t.homes h e') i) :
    t'.Reached h := by
  obtain ⟨k, hk⟩ := ht.capacity_eq
  have hk64 : k ≤ 64 := by
    rw [hk] at hcap
    exact (Nat.pow_le_pow_iff_right (by omega)).mp hcap
  rw [Reached, htaken.homes_eq, htaken.capacity_eq]
  exact htaken.shifts.reached hk hk64 hslot (fun e' _ => ht.homes_lt h e') hr

end Taken

/-- Refilling puts every entry into the table and leaves all entries reached. There is room for
one more all along, so the search for a vacant slot ends. -/
theorem refill_spec (hash : ε → Except Fault Int32) (h : ε → Int32) (list : List ε) {slots : τ}
    {k : Nat} (hcap : Slots.capacity slots = 2 ^ k)
    (hroom : (Slots.entries slots).length + list.length < Slots.capacity slots)
    (hhash : ∀ e ∈ list, hash e = .ok (h e)) (hfits : ∀ e ∈ list, LawfulSlots.Fits slots e)
    (hr : Arrangement.Reached (Slots.entryAt slots) (Slots.capacity slots)
      fun e => homeSlot (Slots.capacity slots) (h e)) :
    ∃ slots', refill hash slots list = .ok slots' ∧
      Slots.capacity slots' = Slots.capacity slots ∧
      (∀ e, LawfulSlots.Fits slots' e ↔ LawfulSlots.Fits slots e) ∧
      (Slots.entries slots').Perm (list ++ Slots.entries slots) ∧
      Arrangement.Reached (Slots.entryAt slots') (Slots.capacity slots)
        fun e => homeSlot (Slots.capacity slots) (h e) := by
  -- along the list; the table that is being filled is reached at every step
  induction list generalizing slots with
  | nil => exact ⟨slots, rfl, rfl, fun _ => .rfl, .refl _, hr⟩
  | cons e rest ih =>
    rw [List.length_cons] at hroom
    have hvacancy : ∃ i < Slots.capacity slots, Slots.entryAt slots i = none :=
      Arrangement.exists_vacant (by rw [← Slots.entries_eq]; omega)
    obtain ⟨slot, hslot, hfirst, hvacant, hpath⟩ :=
      Slots.firstVacant_spec (homeSlot_lt hcap (h e)) hvacancy
    have he := hfits e List.mem_cons_self
    have hentry := Slots.entryAt_store hslot he
    have hcap' := Slots.capacity_store slots slot e
    have hperm : (Slots.entries (Slots.store slots slot e)).Perm (e :: Slots.entries slots) := by
      rw [Slots.entries_eq, hentry, hcap']
      exact Arrangement.entries_fill hslot hvacant e
    obtain ⟨slots', hrun, hcap'', hfits', hentries, hreached⟩ := ih (hcap'.trans hcap)
      (by rw [hperm.length_eq, List.length_cons, hcap']; omega)
      (fun e' he' => hhash e' (List.mem_cons_of_mem _ he'))
      (fun e' he' => (LawfulSlots.fits_store slots slot e e').mpr
        (hfits e' (List.mem_cons_of_mem _ he')))
      (by rw [hentry, hcap']; exact hr.fill hpath)
    rw [hcap'] at hreached
    refine ⟨slots', ?_, hcap''.trans hcap', fun e' => (hfits' e').trans
      (LawfulSlots.fits_store slots slot e e'), ?_, hreached⟩
    · rw [refill, hhash e List.mem_cons_self, ok_bind, hfirst, ok_bind, hrun]
    · exact hentries.trans ((hperm.append_left rest).trans List.perm_middle)

/-- A growth policy yields vacant slots that hold the same kind of entries. -/
def FreshAt (t : Table τ) (fresh : Nat → Traced τ) (capacity : Nat) : Prop :=
  ∃ slots, (fresh capacity).outcome = .ok slots ∧ Slots.capacity slots = capacity ∧
    (∀ i < capacity, Slots.entryAt slots i = none) ∧
    ∀ e, LawfulSlots.Fits slots e ↔ LawfulSlots.Fits t.slots e

/-- What growing leaves of a table. -/
structure Regrown (t : Table τ) (h : ε → Int32) (t' : Table τ) : Prop where
  tallied : t'.Tallied
  capacity_eq : t'.capacity = grownCapacity t.capacity t.count t.loadFactor
  loadFactor_eq : t'.loadFactor = t.loadFactor
  count_eq : t'.count = t.count
  count_le : t'.count ≤ t'.limit
  fits : ∀ e, LawfulSlots.Fits t'.slots e ↔ LawfulSlots.Fits t.slots e
  entries_perm : (Slots.entries t'.slots).Perm (Slots.entries t.slots)
  reached : t'.Reached h

/-- Rehashing succeeds whatever the order of the entries was, and leaves them all reached. -/
theorem rehash_spec {t : Table τ} (ht : t.Tallied) (hle : t.count ≤ t.capacity)
    (hcount : t.count ≤ Numeric.maxCount) (hash : ε → Except Fault Int32) (h : ε → Int32)
    (fresh : Nat → Traced τ) (report : (capacity len : Nat) → Event)
    (hfresh : t.FreshAt fresh (grownCapacity t.capacity t.count t.loadFactor))
    (hhash : ∀ e ∈ Slots.entries t.slots, hash e = .ok (h e)) :
    ∃ t', (t.rehash hash fresh report).outcome = .ok t' ∧ Regrown t h t' := by
  obtain ⟨k, hk⟩ := ht.capacity_eq
  obtain ⟨slots, hslots, hcap, hvacant, hfits⟩ := hfresh
  obtain ⟨j, hj, hhold, -⟩ := grownCapacity_spec ht.isLoadFactor (hk ▸ hle) hcount
  rw [← hk] at hj
  have hlimit : t.count < 2 ^ (k + (j + 1)) := hhold.trans_lt (resizeLimit_lt ht.isLoadFactor _)
  have hempty : Slots.entries slots = [] := Arrangement.entries_vacant (hcap ▸ hvacant)
  obtain ⟨slots', hrun, hcap', hfits', hentries, hreached⟩ :=
    refill_spec hash h (Slots.entries t.slots) (hcap.trans hj)
      (by rw [hempty, List.length_nil, ← ht.count_eq, hcap, hj]; omega) hhash
      (fun e he => by
        obtain ⟨i, -, hi⟩ := Slots.mem_entries.mp he
        exact (hfits e).mpr (LawfulSlots.fits_entryAt t.slots i e hi))
      (.vacant (hcap ▸ hvacant))
  rw [hempty, List.append_nil] at hentries
  have hcapacity := hcap'.trans hcap
  let limit := resizeLimit (grownCapacity t.capacity t.count t.loadFactor) t.loadFactor
  refine ⟨{ t with slots := slots', limit }, ?_, ?_⟩
  · simp [rehash, hslots, hrun, limit]
  · exact {
      tallied := ⟨⟨_, hcapacity.trans hj⟩, ht.isLoadFactor, by rw [capacity, hcapacity],
        ht.count_eq.trans hentries.length_eq.symm⟩
      capacity_eq := hcapacity
      loadFactor_eq := rfl
      count_eq := rfl
      count_le := by
        change t.count ≤ resizeLimit (grownCapacity t.capacity t.count t.loadFactor) t.loadFactor
        rwa [hj]
      fits := fun e => (hfits' e).trans (hfits e)
      entries_perm := hentries
      reached := by
        rw [← hcap'] at hreached
        exact hreached }

/-- What settling leaves of a table: the table itself within its limit, or one that has grown. -/
structure Settled (t : Table τ) (h : ε → Int32) (t' : Table τ) : Prop where
  tallied : t'.Tallied
  capacity_eq : t'.capacity =
    if t.limit < t.count then grownCapacity t.capacity t.count t.loadFactor else t.capacity
  loadFactor_eq : t'.loadFactor = t.loadFactor
  count_eq : t'.count = t.count
  count_le : t'.count ≤ t'.limit
  fits : ∀ e, LawfulSlots.Fits t'.slots e ↔ LawfulSlots.Fits t.slots e
  entries_perm : (Slots.entries t'.slots).Perm (Slots.entries t.slots)
  eq_or_reached : t' = t ∨ t'.Reached h

theorem Settled.reached {t t' : Table τ} {h : ε → Int32} (hs : Settled t h t')
    (hr : t.Reached h) : t'.Reached h := by
  rcases hs.eq_or_reached with rfl | hr'
  · exact hr
  · exact hr'

/-- What was met is met after settling: growth leaves every entry reached. -/
theorem Settled.meets {t t' : Table τ} {h : ε → Int32} {e : ε} (hs : Settled t h t')
    (hmeets : t.Meets h e) : t'.Meets h e := by
  rcases hs.eq_or_reached with rfl | hr
  · exact hmeets
  · exact hr.meets (hs.entries_perm.mem_iff.mpr hmeets.mem_entries)

/-- Settling moves the capacity as the peak of the counts says. -/
theorem Settled.settlesAt {t t' : Table τ} {h : ε → Int32} (hs : Settled t h t') (ht : t.Tallied)
    (hle : t.count ≤ t.capacity) (hcount : t.count ≤ Numeric.maxCount) {start peak : Nat}
    (hpeak : SettlesAt start t.loadFactor peak t.capacity) :
    SettlesAt start t'.loadFactor (max peak t'.count) t'.capacity := by
  obtain ⟨k, hk⟩ := ht.capacity_eq
  have hlimit := ht.limit_eq
  obtain ⟨-, -, hhold, -⟩ := id hpeak
  rw [hs.loadFactor_eq, hs.count_eq, hs.capacity_eq]
  split
  · next hlt =>
    rw [hk] at hpeak hlimit hle hhold ⊢
    rw [Nat.max_eq_right (by omega)]
    exact hpeak.grow ht.isLoadFactor (by omega) hle hcount (by omega)
  · exact hpeak.of_le (Nat.le_max_left _ _) (by omega)

/-- Growing stays within a factor of the entries. -/
theorem Settled.capacity_le {t t' : Table τ} {h : ε → Int32} (hs : Settled t h t')
    (ht : t.Tallied) (hle : t.count ≤ t.capacity) (hcount : t.count ≤ Numeric.maxCount)
    {bound : Nat} (hcap : t.capacity ≤ bound) (hbound : t.count * 2 ^ 17 ≤ bound) :
    t'.capacity ≤ bound := by
  obtain ⟨k, hk⟩ := ht.capacity_eq
  have hlimit := ht.limit_eq
  rw [hs.capacity_eq]
  split
  · next hlt =>
    rw [hk] at hle hlimit ⊢
    have := grownCapacity_lt ht.isLoadFactor hle hcount (by omega)
    omega
  · exact hcap

/-- Settling succeeds when larger slots can be had whenever the limit is passed. -/
theorem settle_spec {t : Table τ} (ht : t.Tallied) (hle : t.count ≤ t.limit + 1)
    (hcount : t.count ≤ Numeric.maxCount) (hash : ε → Except Fault Int32) (h : ε → Int32)
    (fresh : Nat → Traced τ) (report : (capacity len : Nat) → Event)
    (hfresh : t.limit < t.count →
      t.FreshAt fresh (grownCapacity t.capacity t.count t.loadFactor))
    (hhash : ∀ e ∈ Slots.entries t.slots, hash e = .ok (h e)) :
    ∃ t', (t.settle hash fresh report).outcome = .ok t' ∧ Settled t h t' := by
  rw [settle]
  by_cases hlt : t.limit < t.count
  · rw [if_pos hlt]
    have hcap := ht.limit_lt
    obtain ⟨t', hrun, hgrown⟩ := rehash_spec ht (by omega) hcount hash h fresh report (hfresh hlt)
      hhash
    refine ⟨t', hrun, ?_⟩
    exact {
      tallied := hgrown.tallied
      capacity_eq := by rw [if_pos hlt, hgrown.capacity_eq]
      loadFactor_eq := hgrown.loadFactor_eq
      count_eq := hgrown.count_eq
      count_le := hgrown.count_le
      fits := hgrown.fits
      entries_perm := hgrown.entries_perm
      eq_or_reached := .inr hgrown.reached }
  · rw [if_neg hlt]
    refine ⟨t, rfl, ?_⟩
    exact {
      tallied := ht
      capacity_eq := by rw [if_neg hlt]
      loadFactor_eq := rfl
      count_eq := rfl
      count_le := by omega
      fits := fun _ => .rfl
      entries_perm := .refl _
      eq_or_reached := .inl rfl }

end Table

end RecordArena
