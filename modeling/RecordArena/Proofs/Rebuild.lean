import RecordArena.Proofs.InlineMap.Represents
import RecordArena.Proofs.KeyIndex.Calls
import RecordArena.Proofs.Probing.Deletion

/-!
# Rebuilding a table

A rehash reads the old slots from the first to the last and never probes them. So it keeps the
entries of any table whose count is right, also of one where probes miss entries because the keys
of registered records have changed, and leaves all of them reachable under the hashes that it read.

## Main definitions

* `Table.Counted` – what a rehash needs of a table: nothing of the order of its entries.
* `Table.Rebuilt` – what a rehash leaves of it.

## Main statements

* `Table.rehash_rebuilds` – for any table, any hash and any way to make larger slots.
* `rehash_conserves` – for the table of a map and of a key index.
-/

namespace RecordArena

namespace Table

variable {τ ε : Type} [Slots τ ε] {t : Table τ}

/-- The count of a table is the number of its occupied slots, and it may have to grow. Its limit
may be any. -/
structure Counted (t : Table τ) : Prop where
  capacity_eq : ∃ k, t.capacity = 2 ^ k
  isLoadFactor : t.loadFactor.isLoadFactor = true
  count_eq : t.count = (Slots.entries t.slots).length
  count_le : t.count ≤ Numeric.maxCount

/-- `t'` holds the entries of `t` in the capacity that they need, each of them reachable from the
home that `hash` gives it now. -/
structure Rebuilt (t : Table τ) (hash : ε → Except Fault Int32) (t' : Table τ) : Prop where
  capacity_eq : t'.capacity = grownCapacity t.capacity t.count t.loadFactor
  loadFactor_eq : t'.loadFactor = t.loadFactor
  entries_perm : (Slots.entries t'.slots).Perm (Slots.entries t.slots)
  reachable : Slots.allReachable t'.slots (fun e => homeSlot t'.capacity <$> hash e) = .ok true
  count_eq : t'.count = t.count
  limit_eq : t'.limit = resizeLimit t'.capacity t'.loadFactor
  count_le : t'.count ≤ t'.limit
  limit_lt : t'.limit < t'.capacity

theorem count_le_capacity (h : t.count = (Slots.entries t.slots).length) :
    t.count ≤ t.capacity := by
  rw [h]
  exact (List.length_filterMap_le _ _).trans_eq List.length_range

/-- A rehash that is answered has reported itself last. -/
theorem rehash_eq {t' : Table τ} {hash : ε → Except Fault Int32} {fresh : Nat → Traced τ}
    {report : (capacity len : Nat) → Event} {slots : τ}
    (hfresh : fresh (grownCapacity t.capacity t.count t.loadFactor) = pure slots)
    (h : (t.rehash hash fresh report).outcome = .ok t') :
    t.rehash hash fresh report =
      ⟨[report (grownCapacity t.capacity t.count t.loadFactor) t.count], .ok t'⟩ := by
  rw [rehash, hfresh, pure_bind] at h ⊢
  obtain ⟨filled, hfilled, h⟩ := Traced.outcome_bind_eq_ok h
  have hfilled := Traced.outcome_liftFault_eq_ok hfilled
  rw [hfilled, Traced.liftFault_ok_bind]
  cases h
  rfl

variable [LawfulSlots τ]

/-- A rehash succeeds when larger slots can be had and every hash can be read. -/
theorem rehash_rebuilds (ht : t.Counted) {hash : ε → Except Fault Int32} {fresh : Nat → Traced τ}
    (report : (capacity len : Nat) → Event)
    (hhash : ∀ e ∈ Slots.entries t.slots, ∃ h, hash e = .ok h) {slots : τ}
    (hfresh : fresh (grownCapacity t.capacity t.count t.loadFactor) = pure slots)
    (hfreshAt : t.FreshAt fresh (grownCapacity t.capacity t.count t.loadFactor)) :
    ∃ t', t.rehash hash fresh report = ⟨[report t'.capacity t'.count], .ok t'⟩ ∧
      Rebuilt t hash t' := by
  choose! h hread using hhash
  -- a rehash reads the count but not the limit, so any limit serves as well as the right one
  let tallied := { t with limit := resizeLimit t.capacity t.loadFactor }
  have htallied : tallied.Tallied :=
    ⟨ht.capacity_eq, ht.isLoadFactor, rfl, ht.count_eq⟩
  obtain ⟨t', hrun, hgrown⟩ := rehash_spec htallied (count_le_capacity ht.count_eq) ht.count_le
    hash h fresh report hfreshAt hread
  refine ⟨t', ?_, ?_⟩
  · rw [hgrown.capacity_eq, hgrown.count_eq]
    exact rehash_eq hfresh hrun
  · have hhome : ∀ e ∈ Slots.entries t'.slots, homeSlot t'.capacity <$> hash e =
        .ok (t'.homes h e) ∧ t'.homes h e < Slots.capacity t'.slots := fun e he => by
      rw [hread e (hgrown.entries_perm.mem_iff.mp he)]
      exact ⟨rfl, hgrown.tallied.homes_lt h e⟩
    exact {
      capacity_eq := hgrown.capacity_eq
      loadFactor_eq := hgrown.loadFactor_eq
      entries_perm := hgrown.entries_perm
      reachable := (Slots.allReachable_iff hhome).mpr hgrown.reached
      count_eq := hgrown.count_eq
      limit_eq := hgrown.tallied.limit_eq
      count_le := hgrown.count_le
      limit_lt := hgrown.tallied.limit_lt }

end Table

/-- Rehashing the table of a map or of a key index whose count is right, whatever the order of its
entries. It ends, and its one event says so; the entries are the same, byte for byte in a map, each
is reachable under its present hash, and the new limit holds them and is below the new capacity. A
map needs a block within the limit of its backing, and an index needs the hashes of its records to
be there, which they are whenever their pages are. -/
theorem rehash_conserves :
    (∀ (V : Type) [FixedWidth V] (m : InlineMap V), m.table.Counted →
      m.table.slots.width = InlineMap.payloadWidth V m.layout →
      grownCapacity m.capacity m.len m.table.loadFactor *
        (InlineMap.payloadWidth V m.layout + 1) ≤ m.backing.limit →
      ∃ t', m.table.rehash (InlineMap.hashOf m.layout)
          (fun capacity => Rows.allocate m.backing capacity (InlineMap.payloadWidth V m.layout))
          .mapRehashed = ⟨[.mapRehashed t'.capacity t'.count], .ok t'⟩ ∧
        m.table.Rebuilt (InlineMap.hashOf m.layout) t') ∧
    ∀ (s : Slab) (x : KeyIndex), x.table.Counted →
      (∀ index ∈ x.indices, ∃ hash, s.keyHash index = .ok hash) →
      ∃ t', x.table.rehash s.keyHash (fun capacity => pure (Cells.vacant capacity))
          .indexRehashed = ⟨[.indexRehashed t'.capacity t'.count], .ok t'⟩ ∧
        x.table.Rebuilt s.keyHash t' := by
  refine ⟨?_, ?_⟩
  · intro V _ m hcounted hwidth hblock
    have hfresh := Rows.allocate_eq_pure hblock
    exact Table.rehash_rebuilds hcounted .mapRehashed (fun e _ => ⟨_, rfl⟩) hfresh
      (InlineMap.freshAt_of_allocate hwidth (Rows.allocate_of_le hblock))
  · intro s x hcounted hread
    exact Table.rehash_rebuilds hcounted .indexRehashed hread rfl (Cells.freshAt _ _)

/-- Four slots hold three entries past their limit of two, some of them where no probe comes: the
keys of the map are in the wrong order, and the index has a vacant slot between the home of its
records, whose keys are all the same, and one of them. -/
theorem rehash_conserves_unreachable :
    ∃ (m : InlineMap Int32) (rows : Table Rows) (s : Slab) (x : KeyIndex) (cells : Table Cells),
      m.table.limit < m.len ∧
      Slots.allReachable m.table.slots
        (fun e => homeSlot m.capacity <$> InlineMap.hashOf m.layout e) = .ok false ∧
      m.table.rehash (InlineMap.hashOf m.layout)
          (fun capacity => Rows.allocate m.backing capacity (InlineMap.payloadWidth Int32 m.layout))
          .mapRehashed = ⟨[.mapRehashed rows.capacity rows.count], .ok rows⟩ ∧
      m.table.Rebuilt (InlineMap.hashOf m.layout) rows ∧
      x.table.limit < x.len ∧
      Slots.allReachable x.table.slots (fun e => homeSlot x.capacity <$> s.keyHash e) =
        .ok false ∧
      x.table.rehash s.keyHash (fun capacity => pure (Cells.vacant capacity)) .indexRehashed =
        ⟨[.indexRehashed cells.capacity cells.count], .ok cells⟩ ∧
      x.table.Rebuilt s.keyHash cells := by
  obtain ⟨m, hm, hmlimit, hmwidth, hmblock, hmreach⟩ : ∃ m : InlineMap Int32, m.table.Counted ∧
      m.table.limit < m.len ∧ m.table.slots.width = InlineMap.payloadWidth Int32 m.layout ∧
      grownCapacity m.capacity m.len m.table.loadFactor *
        (InlineMap.payloadWidth Int32 m.layout + 1) ≤ m.backing.limit ∧
      Slots.allReachable m.table.slots
        (fun e => homeSlot m.capacity <$> InlineMap.hashOf m.layout e) = .ok false := by
    let entry := fun (key : UInt8) => InlineMap.payload #[key] (7 : Int32)
    let rows := Slots.store (Slots.store (Slots.store (Rows.vacant 4 5) 0 (entry 1)) 1 (entry 2)) 2
      (entry 3)
    exact ⟨⟨{ size := 1 }, .heap, ⟨rows, 3, 2, .half⟩⟩,
      ⟨⟨2, rfl⟩, by decide, by decide +kernel, by decide⟩, by decide, rfl, by decide +kernel,
      by decide +kernel⟩
  obtain ⟨s, x, hx, hxlimit, hxread, hxreach⟩ : ∃ (s : Slab) (x : KeyIndex), x.table.Counted ∧
      x.table.limit < x.len ∧ (∀ index ∈ x.indices, s.keyHash index = .ok 19) ∧
      Slots.allReachable x.table.slots (fun e => homeSlot x.capacity <$> s.keyHash e) =
        .ok false := by
    obtain ⟨s, -, hread, hreach⟩ : ∃ s : Slab,
        (Slab.new { size := 8 } { pageSize := 4, initialPages := 1 } .heap).outcome = .ok s ∧
        [0, 1, 2].map s.keyHash = [.ok 19, .ok 19, .ok 19] ∧
        Slots.allReachable (⟨#[0, Cells.vacantMark, 1, 2]⟩ : Cells)
          (fun e => homeSlot 4 <$> s.keyHash e) = .ok false :=
      ⟨_, rfl, by decide +kernel, by decide +kernel⟩
    let x : KeyIndex := ⟨⟨⟨#[0, Cells.vacantMark, 1, 2]⟩, 3, 2, .half⟩⟩
    have hindices : x.indices = [0, 1, 2] := by decide
    refine ⟨s, x, ⟨⟨2, rfl⟩, by decide, by decide +kernel, by decide⟩, by decide, ?_, hreach⟩
    simpa [hindices] using hread
  obtain ⟨rows, hrows, hmrebuilt⟩ := rehash_conserves.1 Int32 m hm hmwidth hmblock
  obtain ⟨cells, hcells, hxrebuilt⟩ := rehash_conserves.2 s x hx fun e he => ⟨19, hxread e he⟩
  exact ⟨m, rows, s, x, cells, hmlimit, hmreach, hrows, hmrebuilt, hxlimit, hxreach, hcells,
    hxrebuilt⟩

end RecordArena
