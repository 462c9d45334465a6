import RecordArena.Proofs.InlineMap.Runs
import RecordArena.Proofs.Probing.Occupancy
import RecordArena.Proofs.Probing.Visits

/-!
# History independence

Maps with the same keys and the same capacity may keep a key in different slots, but they occupy
the same slots. So nothing that was removed, overwritten or cleared before can be told from how
far the keys are from their homes together, or from how far a probe for an absent key goes.

## Main definitions

* `InlineMap.occupied`, `InlineMap.totalDistance` – what does not depend on the history.
* `InlineMap.locateVisiting` – locating a key with the slots that are looked at.

## Main statements

* `InlineMap.Represents.homes_perm` – the same keys have the same homes.
* `InlineMap.Runs.history_independent` – two runs that end with the same keys and capacity.
-/

namespace RecordArena.InlineMap

variable {V W : Type} [FixedWidth V] [FixedWidth W]

/-- The slots that hold a key. -/
def occupied (m : InlineMap V) : Finset Nat :=
  (Finset.range m.capacity).filter fun slot => (Slots.entryAt m.table.slots slot).isSome

/-- The distances of all keys from their home slots together. -/
def totalDistance (m : InlineMap V) : Int :=
  Arrangement.totalDistance (Slots.entryAt m.table.slots) m.capacity
    (m.table.homes (keyHashOf m.layout))

/-- Locates a key, and answers the slots that were looked at as well. -/
def locateVisiting (m : InlineMap V) (key : Bytes) : Except Fault (ProbeEnd Bytes × List Nat) :=
  Slots.probeVisiting m.table.slots (fun p => pure ((keyOf m.layout p).sameKey key)) m.capacity
    (homeSlot m.capacity (m.layout.hashKey key))

omit [FixedWidth V] in
theorem locateVisiting_locate (m : InlineMap V) (key : Bytes) :
    Prod.fst <$> m.locateVisiting key = m.locate key :=
  Slots.probeVisiting_probe _ _ _ _

namespace Represents

variable {c c' : MapSetting} {peak peak' : Nat} {m : InlineMap V} {m' : InlineMap W}
  {map : KeyMap V} {map' : KeyMap W}

theorem parked (h : Represents c peak m map) :
    Arrangement.Parked (Slots.entryAt m.table.slots) m.capacity
      (m.table.homes (keyHashOf c.layout)) where
  reached := h.reached
  home_lt := fun p _ => h.tallied.homes_lt (keyHashOf c.layout) p
  vacancy := h.tallied.exists_vacant h.count_le

/-- Locating an absent key looks at the slots from its home to a vacant one. -/
theorem locateVisiting (h : Represents c peak m map) {key : Bytes} (hkey : key ∉ map.keys) :
    ∃ slot < m.capacity, Slots.entryAt m.table.slots slot = none ∧
      Arrangement.Unbroken (Slots.entryAt m.table.slots) m.capacity
        (homeSlot m.capacity (c.layout.hashKey key)) slot ∧
      m.locateVisiting key = .ok (.vacant slot,
        ringWay m.capacity (homeSlot m.capacity (c.layout.hashKey key)) slot) := by
  obtain ⟨k, hk⟩ := h.tallied.capacity_eq
  obtain ⟨slot, p, -, -, -, -, hlookup⟩ | ⟨slot, hrun, hslot, hvacant, -, hpath⟩ := h.locate key
  · exact (hkey (Finmap.mem_keys.mpr (Finmap.mem_of_lookup_eq_some hlookup))).elim
  · refine ⟨slot, hslot, hvacant, hpath, ?_⟩
    rw [← h.layout_eq]
    exact Slots.probeVisiting_eq hrun (homeSlot_lt hk _)

/-- The homes of the payloads are those of the keys. -/
theorem homes_eq (h : Represents c peak m map) :
    Multiset.ofList ((Slots.entries m.table.slots).map (m.table.homes (keyHashOf c.layout))) =
      map.keys.val.map fun key => homeSlot m.capacity (c.layout.hashKey key) := by
  have hkeys : map.keys.val =
      Multiset.ofList ((Slots.entries m.table.slots).map (keyOf c.layout)) := by
    change map.entries.map Sigma.fst = _
    rw [h.holds.entries_eq, Multiset.map_coe, List.map_map]
    rfl
  rw [hkeys, Multiset.map_coe, List.map_map]
  rfl

/-- The same keys at the same capacity have the same homes. -/
theorem homes_perm (h : Represents c peak m map) (h' : Represents c' peak' m' map')
    (hlayout : c.layout = c'.layout) (hkeys : map.keys = map'.keys)
    (hcapacity : m.capacity = m'.capacity) :
    ((Slots.entries m.table.slots).map (m.table.homes (keyHashOf c.layout))).Perm
      ((Slots.entries m'.table.slots).map (m'.table.homes (keyHashOf c'.layout))) := by
  rw [← Multiset.coe_eq_coe, h.homes_eq, h'.homes_eq, hkeys, hcapacity, hlayout]

end Represents

/-- Two runs that end with the same keys at the same capacity, whatever they did before: the same
slots are occupied, the keys are as far from home in total, and locating an absent key looks at the
same slots. -/
theorem Runs.history_independent [DecidableEq V] [DecidableEq W] {layout : RecordLayout}
    {config config' : TableConfig} {backing backing' : Backing} {m : InlineMap V}
    {m' : InlineMap W} {peak peak' : Nat} (h : Runs layout config backing m peak)
    (h' : Runs layout config' backing' m' peak') (hkeys : ∀ key, m.hasKey key = m'.hasKey key)
    (hcapacity : m.capacity = m'.capacity) :
    m.occupied = m'.occupied ∧ m.totalDistance = m'.totalDistance ∧
      ∀ key, m.hasKey key = .ok false → ∃ slot visited,
        m.locateVisiting key = .ok (.vacant slot, visited) ∧
        m'.locateVisiting key = .ok (.vacant slot, visited) := by
  obtain ⟨start, map, -, -, h, -⟩ := h.represents
  obtain ⟨start', map', -, -, h', -⟩ := h'.represents
  have hmap : map.keys = map'.keys := by
    ext key
    have hkey := hkeys key
    rw [h.hasKey_eq, h'.hasKey_eq, Except.ok.injEq, decide_eq_decide] at hkey
    exact hkey
  have hparked := h.parked
  have hparked' := h'.parked
  have hperm := h.homes_perm h' rfl hmap hcapacity
  have hslots : Slots.capacity m'.table.slots = Slots.capacity m.table.slots := hcapacity.symm
  rw [Slots.entries_eq, Slots.entries_eq m'.table.slots, hslots] at hperm
  rw [← hcapacity] at hparked'
  refine ⟨?_, ?_, fun key hkey => ?_⟩
  · rw [occupied, occupied, ← hcapacity]
    apply Finset.filter_congr
    intro slot hslot
    rw [hparked.isSome_congr hparked' hperm (Finset.mem_range.mp hslot)]
  · rw [totalDistance, totalDistance, ← hcapacity, h.layout_eq, h'.layout_eq]
    exact hparked.totalDistance_congr hparked' hperm
  · have habsent : key ∉ map.keys := by
      rw [h.hasKey_eq, Except.ok.injEq, decide_eq_false_iff_not] at hkey
      exact hkey
    obtain ⟨k, hk⟩ := h.tallied.capacity_eq
    obtain ⟨slot, hslot, hvacant, hpath, hrun⟩ := h.locateVisiting habsent
    obtain ⟨slot', hslot', hvacant', hpath', hrun'⟩ := h'.locateVisiting (hmap ▸ habsent)
    rw [← hcapacity] at hslot' hpath' hrun'
    -- both stop where the way from the home of the key first meets a vacant slot
    have hsame := hparked.ends_congr hparked' hperm (homeSlot_lt hk (layout.hashKey key)) hslot
      hvacant hpath hslot' hvacant' hpath'
    rw [← hsame] at hrun'
    exact ⟨slot, _, hrun, hrun'⟩

/-- Three keys of one home and the first one removed, or the last two put in reverse: the two keys
that are left have changed places, in the same two slots. -/
theorem Runs.history_independent_removed :
    ∃ (layout : RecordLayout) (m m' : InlineMap Int32) (peak peak' : Nat),
      Runs layout {} .heap m peak ∧ Runs layout {} .heap m' peak' ∧
      (∀ key, m.hasKey key = m'.hasKey key) ∧ m.capacity = m'.capacity ∧ m.slots ≠ m'.slots ∧
      m.occupied = m'.occupied ∧ m.totalDistance = m'.totalDistance ∧
      ∀ key, m.hasKey key = .ok false → ∃ slot visited,
        m.locateVisiting key = .ok (.vacant slot, visited) ∧
        m'.locateVisiting key = .ok (.vacant slot, visited) := by
  let layout : RecordLayout := { size := 1, hashKey := fun _ => 0 }
  let empty : InlineMap Int32 := ⟨layout, .heap, Table.ofSlots (Rows.vacant 8 5) .half⟩
  have hnew : (InlineMap.new Int32 layout {} .heap).outcome = .ok empty := rfl
  have hruns := fun (calls : List (MapCall Int32))
      (hpeak : MapCall.peak layout ∅ calls ≤ resizeLimit 8 .half) =>
    Runs.exists_of_room (m := empty) calls rfl rfl hnew (.of_le_limit hpeak (by decide))
  obtain ⟨answers, m, peak, hrun, h, hkeys⟩ := hruns
    [.put #[1] 1, .put #[2] 2, .put #[3] 3, .remove #[1]] (by decide +kernel)
  obtain ⟨answers', m', peak', hrun', h', hkeys'⟩ := hruns [.put #[3] 3, .put #[2] 2]
    (by decide +kernel)
  have heval : (fun r => (r.2.capacity, r.2.slots)) <$> MapCall.performAll empty
      [.put #[1] 1, .put #[2] 2, .put #[3] 3, .remove #[1]] =
      .ok (8, [some (#[2], 2), some (#[3], 3), none, none, none, none, none, none]) := by
    decide +kernel
  have heval' : (fun r => (r.2.capacity, r.2.slots)) <$> MapCall.performAll empty
      [.put #[3] 3, .put #[2] 2] =
      .ok (8, [some (#[3], 3), some (#[2], 2), none, none, none, none, none, none]) := by
    decide +kernel
  rw [hrun, ok_map, Except.ok.injEq, Prod.mk.injEq] at heval
  rw [hrun', ok_map, Except.ok.injEq, Prod.mk.injEq] at heval'
  have hcapacity : m.capacity = m'.capacity := heval.1.trans heval'.1.symm
  have hmap : (MapCall.expectedAll layout ∅ [.put #[1] (1 : Int32), .put #[2] 2, .put #[3] 3,
      .remove #[1]]).2.keys =
      (MapCall.expectedAll layout ∅ [.put #[3] (3 : Int32), .put #[2] 2]).2.keys := by
    decide +kernel
  have hsame : ∀ key, m.hasKey key = m'.hasKey key := fun key => by rw [hkeys, hkeys', hmap]
  have hmoved : m.slots ≠ m'.slots := by
    rw [heval.2, heval'.2]
    decide
  exact ⟨layout, m, m', peak, peak', h, h', hsame, hcapacity, hmoved,
    h.history_independent h' hsame hcapacity⟩

end RecordArena.InlineMap
