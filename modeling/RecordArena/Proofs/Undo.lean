import RecordArena.Proofs.Capacity
import RecordArena.Proofs.KeyIndex.IndexSet
import RecordArena.Proofs.Probing.Occupancy

/-!
# Taking an addition back

Adding an entry may join two clusters, so removing it walks over entries that were behind a vacant
slot before. None of them moves: an entry that is reached has no path across a slot that was vacant
without the new entry. What was added and is removed again leaves no trace in the slots.

## Main definitions

* `Table.Restored` – the same entries in the same slots, and the same counters.

## Main statements

* `Arrangement.Shifts.eq_self` – closing a slot that was vacant before moves nothing.
* `Table.take_add` – removing what was added restores a table.
* `removal_undoes_addition` – for the calls of a map and of a key index.
-/

namespace RecordArena

/-- When every entry is reached, no path passes a vacant slot, so none is pulled back into it. -/
theorem Arrangement.Shifts.eq_self {ε : Type} {n k hole slot : Nat} {home : ε → Nat}
    {f f' : Arrangement ε} (h : Shifts n home f hole slot f') (hn : n = 2 ^ k) (hk : k ≤ 64)
    (hr : f.Reached n home) (hhomes : ∀ e ∈ f.entries n, home e < n) (hhole : hole < n)
    (hf : f hole = none) : f' = f := by
  induction h with
  | stop => rfl
  | keep _ _ _ ih => exact ih hr hhomes hhole hf
  | @move f f' hole slot e hnext hlt rest ih =>
    have hslot : (slot + 1) % n < n := Nat.mod_lt _ (by omega)
    have hhome := hhomes e (mem_entries.mpr ⟨_, hslot, hnext⟩)
    have hpath := (hr _ hslot e hnext).le_of_vacant hhome hhole hf
    rw [probeDistance_eq hn hk hhome, probeDistance_eq hn hk hhome] at hlt
    omega

namespace Table

variable {τ ε : Type} [Slots τ ε] {t t' : Table τ}

/-- `t'` holds the entries of `t` in the same slots, and its counters are those of `t`. -/
structure Restored (t t' : Table τ) : Prop where
  entryAt_eq : Slots.entryAt t'.slots = Slots.entryAt t.slots
  capacity_eq : t'.capacity = t.capacity
  count_eq : t'.count = t.count
  limit_eq : t'.limit = t.limit
  loadFactor_eq : t'.loadFactor = t.loadFactor

theorem Restored.toList_eq (h : Restored t t') :
    Slots.toList t'.slots = Slots.toList t.slots := by
  have hcap : Slots.capacity t'.slots = Slots.capacity t.slots := h.capacity_eq
  rw [Slots.toList, Slots.toList, h.entryAt_eq, hcap]

variable [LawfulSlots τ]

/-- Storing an entry in a vacant slot and vacating the slot again changes no slot. -/
theorem vacate_add {slot : Nat} {e : ε} (hslot : slot < t.capacity)
    (hvacant : Slots.entryAt t.slots slot = none) (he : LawfulSlots.Fits t.slots e) :
    Function.update (Slots.entryAt (t.add slot e).slots) slot none = Slots.entryAt t.slots := by
  rw [entryAt_add hslot he, Function.update_idem, ← hvacant, Function.update_eq_self]

/-- Removing an entry that was added to a table whose entries are reached restores the table. The
entry itself need not be where a probe for it ends. -/
theorem take_add {h : ε → Int32} (hash : ε → Except Fault Int32) {slot : Nat} {e : ε}
    (ht : t.Tallied) (hcap : t.capacity ≤ 2 ^ 64) (hr : t.Reached h) (hslot : slot < t.capacity)
    (hvacant : Slots.entryAt t.slots slot = none) (he : LawfulSlots.Fits t.slots e)
    (hhash : ∀ e' ∈ Slots.entries t.slots, hash e' = .ok (h e')) :
    ∃ t', (t.add slot e).take hash slot = .ok t' ∧ Restored t t' := by
  have hkeep := vacate_add hslot hvacant he
  have hcapadd : (t.add slot e).capacity = t.capacity := capacity_add t slot e
  have hentry : Slots.entryAt (t.add slot e).slots slot = some e := by
    rw [entryAt_add hslot he, Function.update_self]
  obtain ⟨t', htake, htaken⟩ := take_spec (add_tallied ht hslot hvacant he) hash h
    (hslot.trans_eq hcapadd.symm) hentry (by
      rw [hkeep, hcapadd]
      exact hhash)
  have hhomes : (t.add slot e).homes h = t.homes h := by
    funext e'
    rw [homes, homes, hcapadd]
  have hshifts := htaken.shifts
  rw [hkeep, hhomes, hcapadd] at hshifts
  obtain ⟨k, hk⟩ := ht.capacity_eq
  have hk64 : k ≤ 64 := by
    rw [hk] at hcap
    exact (Nat.pow_le_pow_iff_right (by omega)).mp hcap
  refine ⟨t', htake, ?_⟩
  exact {
    entryAt_eq := hshifts.eq_self hk hk64 hr (fun e' _ => ht.homes_lt h e') hslot hvacant
    capacity_eq := htaken.capacity_eq.trans hcapadd
    count_eq := htaken.count_eq
    limit_eq := htaken.limit_eq
    loadFactor_eq := htaken.loadFactor_eq }

/-- An entry that nothing in the table matches is found in the slot where its own probe ended. -/
theorem locate_add {h : ε → Int32} {slot : Nat} {e : ε} (isMatch : ε → Except Fault Bool)
    (p : ε → Bool) (ht : t.Tallied) (hlt : t.count < t.limit) (hr : t.Reached h)
    (hslot : slot < t.capacity) (hvacant : Slots.entryAt t.slots slot = none)
    (he : LawfulSlots.Fits t.slots e)
    (hpath : Arrangement.Unbroken (Slots.entryAt t.slots) t.capacity (t.homes h e) slot)
    (hmatch : ∀ e', isMatch e' = .ok (p e')) (hself : p e = true)
    (hother : ∀ e' ∈ Slots.entries t.slots, p e' = false) :
    (t.add slot e).locate (h e) isMatch = .ok (.found slot e) := by
  have hadded := add_tallied ht hslot hvacant he
  have hcapadd : (t.add slot e).capacity = t.capacity := capacity_add t slot e
  obtain ⟨r, hrun, hend⟩ := locate_spec hadded hlt (h e) isMatch p fun e' _ => hmatch e'
  cases r with
  | found found e' =>
    obtain ⟨hfound, -, hentry, hp⟩ := hend
    rw [entryAt_add hslot he] at hentry
    by_cases hat : found = slot
    · rw [hat, Function.update_self] at hentry
      rw [hrun, hat, Option.some.inj hentry]
    · rw [Function.update_of_ne hat] at hentry
      have hno := hother e' (Slots.mem_entries.mpr ⟨found, hfound.trans_eq hcapadd, hentry⟩)
      rw [hno] at hp
      cases hp
  | vacant stop =>
    have hmem : e ∈ Slots.entries (t.add slot e).slots :=
      (entries_add hslot hvacant he).mem_iff.mpr List.mem_cons_self
    have hno := hend.no_match (add_reached hr hslot he hpath) (hadded.homes_lt h e) hmem rfl
    rw [hself] at hno
    cases hno

/-- A table that has settled at its old capacity was within its limit. -/
theorem count_le_of_settle {hash : ε → Except Fault Int32} {fresh : Nat → Traced τ}
    {report : (capacity len : Nat) → Event} (hfresh : FreshSlots fresh) (ht : t.Tallied)
    (hle : t.count ≤ t.capacity) (hcount : t.count ≤ Numeric.maxCount)
    (h : (t.settle hash fresh report).outcome = .ok t') (hcap : t'.capacity = t.capacity) :
    t.count ≤ t.limit := by
  by_contra hlt
  obtain ⟨-, -, hgrown⟩ := settle_eq_ok hfresh h
  rw [if_pos (Nat.lt_of_not_le hlt), hcap] at hgrown
  -- growing at least doubles the capacity
  obtain ⟨k, hk⟩ := ht.capacity_eq
  rw [hk] at hle hgrown
  obtain ⟨j, hj, -, -⟩ := grownCapacity_spec ht.isLoadFactor hle hcount
  rw [hj] at hgrown
  have := Nat.pow_right_injective (Nat.le_refl 2) hgrown.1
  omega

omit [LawfulSlots τ] in
theorem settle_of_le {hash : ε → Except Fault Int32} {fresh : Nat → Traced τ}
    {report : (capacity len : Nat) → Event} (hle : t.count ≤ t.limit) :
    t.settle hash fresh report = pure t :=
  if_neg (Nat.not_lt.mpr hle)

end Table

/-- Cells hold nothing but their entries. -/
theorem Cells.ext_entryAt {cells cells' : Cells} (hsize : cells'.words.size = cells.words.size)
    (h : Slots.entryAt cells' = Slots.entryAt cells) : cells' = cells := by
  obtain ⟨words⟩ := cells
  obtain ⟨words'⟩ := cells'
  congr 1
  refine Array.ext hsize fun i hi' hi => ?_
  have hentry : words'[i]?.filter (· ≠ vacantMark) = words[i]?.filter (· ≠ vacantMark) :=
    congrFun h i
  simp only [Array.getElem?_eq_getElem hi', Array.getElem?_eq_getElem hi, Option.filter_some,
    decide_eq_true_eq] at hentry
  by_cases hmark : words'[i] = vacantMark
  · by_cases hmark' : words[i] = vacantMark
    · rw [hmark, hmark']
    · simp [hmark, hmark'] at hentry
  · by_cases hmark' : words[i] = vacantMark
    · simp [hmark, hmark'] at hentry
    · simpa [hmark, hmark'] using hentry

theorem Table.Restored.eq_of_cells {t t' : Table Cells} (h : t.Restored t') : t' = t := by
  have hslots := Cells.ext_entryAt h.capacity_eq h.entryAt_eq
  obtain ⟨cells, count, limit, factor⟩ := t
  obtain ⟨cells', count', limit', factor'⟩ := t'
  cases hslots
  cases h.count_eq
  cases h.limit_eq
  cases h.loadFactor_eq
  rfl

namespace InlineMap

variable {V : Type} [FixedWidth V] {c : MapSetting} {peak : Nat} {m m' : InlineMap V}
  {map : KeyMap V} {key : Bytes}

theorem slots_eq_of_restored (hlayout : m'.layout = m.layout)
    (h : m.table.Restored m'.table) : m'.slots = m.slots := by
  rw [slots, slots, h.toList_eq, hlayout]

namespace Represents

/-- Putting a new key within the limit and removing it again. -/
theorem put_remove (h : Represents c peak m map) (hcap : m.table.capacity ≤ 2 ^ 64)
    (hkey : key.size = c.layout.keyLen) (hnew : key ∉ map) (value : V)
    (hlt : m.table.count < m.table.limit) :
    ∃ m' m'', (m.put key value).outcome = .ok (none, m') ∧ m'.capacity = m.capacity ∧
      m'.remove key = .ok (some value, m'') ∧ m''.layout = m.layout ∧
      m.table.Restored m''.table := by
  have hsize : key.size = m.layout.keyLen := by rw [h.layout_eq, hkey]
  obtain ⟨slot, old, -, -, -, -, hlookup⟩ | ⟨slot, hrun, hslot, hvacant, -, hpath⟩ := h.locate key
  · rw [Finmap.lookup_eq_none.mpr hnew] at hlookup
    cases hlookup
  have hfits : LawfulSlots.Fits m.table.slots (payload key value) :=
    (size_payload hkey value).trans h.width_eq.symm
  have hkeyof : keyOf c.layout (payload key value) = key := keyOf_payload hkey value
  let added : InlineMap V := { m with table := m.table.add slot (payload key value) }
  have hwithin : added.table.count ≤ added.table.limit := hlt
  have hput : m.put key value = pure (none, added) := by
    rw [put_of_vacant hsize hrun, withEntry, Table.settle_of_le hwithin, map_pure]
  have hlocate : added.locate key = .ok (.found slot (payload key value)) := by
    have hlocate := Table.locate_add
      (fun p => pure ((keyOf c.layout p).sameKey key))
      (fun p => decide (keyOf c.layout p = key)) h.tallied hlt h.reached hslot hvacant hfits
      (by rwa [Table.homes, keyHashOf, hkeyof]) (fun p => by rw [Bytes.sameKey_eq]; rfl)
      (decide_eq_true hkeyof) fun p hp => decide_eq_false fun hpkey => by
        have hlookup := h.holds.lookup_of_mem hp
        rw [hpkey, Finmap.lookup_eq_none.mpr hnew] at hlookup
        cases hlookup
    rw [keyHashOf, hkeyof, ← h.layout_eq] at hlocate
    exact hlocate
  obtain ⟨t', htake, hrestored⟩ := Table.take_add (hashOf m.layout) h.tallied hcap h.reached hslot
    hvacant hfits fun _ _ => by rw [h.layout_eq]; rfl
  refine ⟨added, { m with table := t' }, by rw [hput]; rfl, Table.capacity_add _ _ _, ?_, rfl,
    hrestored⟩
  rw [remove_of_found (m := added) hsize hlocate, htake, ok_map, h.layout_eq, valueOf_payload hkey]

/-- A new key that did not make the table grow was within its limit. -/
theorem count_lt_of_put (h : Represents c peak m map) (hcap : m.table.capacity < 2 ^ 64)
    (hkey : key.size = c.layout.keyLen) (hnew : key ∉ map) {value : V} {previous : Option V}
    (hput : (m.put key value).outcome = .ok (previous, m')) (hgrown : m'.capacity = m.capacity) :
    m.table.count < m.table.limit := by
  obtain ⟨slot, old, -, -, -, -, hlookup⟩ | ⟨slot, hrun, hslot, hvacant, -, -⟩ := h.locate key
  · rw [Finmap.lookup_eq_none.mpr hnew] at hlookup
    cases hlookup
  have hfits : LawfulSlots.Fits m.table.slots (payload key value) :=
    (size_payload hkey value).trans h.width_eq.symm
  have hle := h.count_le
  have hlimit := h.tallied.limit_lt
  rw [put_of_vacant (by rw [h.layout_eq, hkey]) hrun, Traced.outcome_map] at hput
  obtain ⟨t', hsettle, heq⟩ := map_eq_ok hput
  cases heq
  refine Table.count_le_of_settle (Rows.freshSlots _ _)
    (Table.add_tallied h.tallied hslot hvacant hfits) ?_ ?_ hsettle ?_
  · rw [Table.capacity_add]
    exact hle.trans_lt hlimit
  · change m.table.count + 1 ≤ Numeric.maxCount
    rw [Numeric.maxCount]
    omega
  · rw [Table.capacity_add]
    exact hgrown

end Represents

end InlineMap

namespace KeyIndex.Exact

variable {s : Slab} {x x' : KeyIndex} {S : Finset UInt32} {index : UInt32}

/-- A probe for an index that is not registered ends at a vacant slot. -/
theorem locate_new (h : Exact s x S) (hnew : index ∉ S) :
    ∃ slot, x.table.locate (s.hashAt index) (fun i => pure (i == index)) = .ok (.vacant slot) ∧
      x.Probed (· == index) (s.hashAt index) (.vacant slot) := by
  obtain ⟨r, hrun, hprobe⟩ := h.probeIndex index (s.hashAt index)
  have hnone := h.locate_iff hprobe
  rw [decide_eq_false hnew] at hnone
  cases r with
  | found slot i => cases hnone
  | vacant slot => exact ⟨slot, hrun, hprobe⟩

/-- Registering a new index within the limit and removing it again. -/
theorem insert_remove (h : Exact s x S) (hpage : s.HasPage index)
    (hmark : index ≠ Cells.vacantMark) (hnew : index ∉ S)
    (hlt : x.table.count < x.table.limit) :
    ∃ x', (x.insert s index).outcome = .ok x' ∧ x'.capacity = x.capacity ∧
      x'.removeIndex s index = .ok (true, x) := by
  obtain ⟨slot, hrun, hprobe⟩ := h.locate_new hnew
  have hslot : slot < x.table.capacity := hprobe.1
  have hvacant : Slots.entryAt x.table.slots slot = none := hprobe.2.2
  have hhash := h.shaped.keyHash_eq hpage
  let added : KeyIndex := ⟨x.table.add slot index⟩
  have hwithin : added.table.count ≤ added.table.limit := hlt
  have hinsert : x.insert s index = pure added := by
    rw [insert_of_vacant hhash hrun, withEntry, Table.settle_of_le hwithin, map_pure]
  have hlocate : added.table.locate (s.hashAt index) (fun i => pure (i == index)) =
      .ok (.found slot index) :=
    Table.locate_add _ (· == index) h.tallied hlt h.reached hslot hvacant hmark
      hprobe.unbroken (fun _ => rfl) (beq_self_eq_true index) fun i hi =>
        beq_false_of_ne fun heq => hnew ((h.mem_iff index).mp (heq ▸ hi))
  have hcap := h.capacity_le
  obtain ⟨t', htake, hrestored⟩ := Table.take_add s.keyHash h.tallied (by omega)
    h.reached hslot hvacant hmark fun i hi => h.shaped.keyHash_eq (h.hasPage i hi)
  obtain rfl := hrestored.eq_of_cells
  refine ⟨added, by rw [hinsert]; rfl, Table.capacity_add _ _ _, ?_⟩
  have hfound : added.locateIndex index (s.hashAt index) = .ok (some (slot, index)) := by
    rw [KeyIndex.locateIndex, hlocate]
    rfl
  have htaken : added.takeFound s (some (slot, index)) = .ok (some index, x) := by
    change added.table.take s.keyHash slot = .ok x.table at htake
    simp only [takeFound, htake, ok_bind]
    rfl
  rw [removeIndex, hhash, ok_bind, removeIndexHashed, ← Slab.hashAt, hfound, ok_bind, htaken]
  rfl

/-- A new index that did not make the table grow was within its limit. -/
theorem count_lt_of_insert (h : Exact s x S) (hpage : s.HasPage index)
    (hmark : index ≠ Cells.vacantMark) (hnew : index ∉ S)
    (hinsert : (x.insert s index).outcome = .ok x') (hgrown : x'.capacity = x.capacity) :
    x.table.count < x.table.limit := by
  obtain ⟨slot, hrun, hprobe⟩ := h.locate_new hnew
  have hle := h.count_le
  have hlimit := h.tallied.limit_lt
  rw [insert_of_vacant (h.shaped.keyHash_eq hpage) hrun, Traced.outcome_map] at hinsert
  obtain ⟨t', hsettle, heq⟩ := map_eq_ok hinsert
  cases heq
  refine Table.count_le_of_settle Cells.freshSlots
    (Table.add_tallied h.tallied hprobe.1 hprobe.2.2 hmark) ?_ h.len_lt hsettle ?_
  · rw [Table.capacity_add]
    exact hle.trans_lt hlimit
  · rw [Table.capacity_add]
    exact hgrown

end KeyIndex.Exact

/-- Adding and then removing, in any state of a run. A map that a new key does not make grow gives
the value back and has every pair in its old slot, byte for byte; a key index whose registered keys
have not changed is the same again, slot by slot, once a new index that did not make it grow is
removed. An addition within the limit makes neither grow and always succeeds. -/
theorem removal_undoes_addition :
    (∀ (V : Type) [FixedWidth V] [DecidableEq V] (layout : RecordLayout) (config : TableConfig)
      (backing : Backing) (m : InlineMap V) (peak : Nat),
      InlineMap.Runs layout config backing m peak →
      ∀ (key : Bytes) (value : V), key.size = layout.keyLen → m.hasKey key = .ok false →
        (m.len < m.table.limit → ∃ m', (m.put key value).outcome = .ok (none, m') ∧
          m'.capacity = m.capacity) ∧
        ∀ previous m', (m.put key value).outcome = .ok (previous, m') →
          m'.capacity = m.capacity →
          previous = none ∧ ∃ m'', m'.remove key = .ok (some value, m'') ∧
            Slots.toList m''.table.slots = Slots.toList m.table.slots ∧ m''.slots = m.slots ∧
            m''.len = m.len ∧ m''.capacity = m.capacity) ∧
    ∀ (config : TableConfig) (s : Slab) (x : KeyIndex) (S : Finset UInt32),
      KeyIndex.Tracks config s x S →
      ∀ index ∉ S, s.HasPage index → index ≠ Cells.vacantMark →
        (x.len < x.table.limit → ∃ x', (x.insert s index).outcome = .ok x' ∧
          x'.capacity = x.capacity) ∧
        ∀ x', (x.insert s index).outcome = .ok x' → x'.capacity = x.capacity →
          x'.removeIndex s index = .ok (true, x) := by
  refine ⟨?_, ?_⟩
  · intro V _ _ layout config backing m peak hruns key value hkey habsent
    obtain ⟨start, map, -, -, h, hroom⟩ := hruns.represents
    have hcap := h.capacity_lt hroom
    have hnew : key ∉ map := by
      rw [h.hasKey_eq] at habsent
      exact fun hmem => of_decide_eq_false (Except.ok.inj habsent) (Finmap.mem_keys.mpr hmem)
    refine ⟨fun hlt => ?_, fun previous m' hput hgrown => ?_⟩
    · obtain ⟨m', -, hput, hgrown, -⟩ := h.put_remove (by omega) hkey hnew value hlt
      exact ⟨m', hput, hgrown⟩
    · have hlt := h.count_lt_of_put (by omega) hkey hnew hput hgrown
      obtain ⟨m₁, m'', hput', -, hremove, hlayout, hrestored⟩ :=
        h.put_remove (by omega) hkey hnew value hlt
      cases hput.symm.trans hput'
      exact ⟨rfl, m'', hremove, hrestored.toList_eq,
        InlineMap.slots_eq_of_restored hlayout hrestored, hrestored.count_eq,
        hrestored.capacity_eq⟩
  · intro config s x S htracks index hnew hpage hmark
    have h := htracks.exact
    refine ⟨fun hlt => ?_, fun x' hinsert hgrown => ?_⟩
    · obtain ⟨x', hinsert, hgrown, -⟩ := h.insert_remove hpage hmark hnew hlt
      exact ⟨x', hinsert, hgrown⟩
    · obtain ⟨x₁, hinsert', -, hremove⟩ := h.insert_remove hpage hmark hnew
        (h.count_lt_of_insert hpage hmark hnew hinsert hgrown)
      cases hinsert.symm.trans hinsert'
      exact hremove

/-- The new key of the map lands between two others and joins their clusters; the new index has the
key of one that is registered. -/
theorem removal_undoes_addition_joined :
    ∃ (m m' m'' : InlineMap Int32) (s : Slab) (x x' : KeyIndex),
      InlineMap.Runs { size := 1 } {} .heap m 2 ∧
      (Slots.toList m.table.slots).map Option.isSome =
        [false, true, false, true, false, false, false, false] ∧
      (m.put #[4] 4).outcome = .ok (none, m') ∧
      (Slots.entryAt m'.table.slots 2).isSome = true ∧
      m'.remove #[4] = .ok (some 4, m'') ∧ m''.slots = m.slots ∧ m''.len = m.len ∧
      KeyIndex.Tracks {} s x {0} ∧ (x.insert s 1).outcome = .ok x' ∧
      x'.removeIndex s 1 = .ok (true, x) := by
  obtain ⟨m₀, hm₀, hmaps⟩ : ∃ m₀ : InlineMap Int32,
      (InlineMap.new Int32 { size := 1 } {} .heap).outcome = .ok m₀ ∧
      ((MapCall.put #[1] 1).perform m₀ >>= fun r =>
        (fun r' => ((r.2.len, r'.2.len, r'.2.capacity),
          (Slots.toList r'.2.table.slots).map Option.isSome, decide (r'.2.hasKey #[4] = .ok false),
          decide ((fun r'' => (r''.2.capacity, (Slots.entryAt r''.2.table.slots 2).isSome)) <$>
            (r'.2.put #[4] 4).outcome = .ok (8, true)))) <$>
        (MapCall.put #[2] 2).perform r.2) =
      .ok ((1, 2, 8), [false, true, false, true, false, false, false, false], true, true) :=
    ⟨_, rfl, by decide +kernel⟩
  obtain ⟨s, x₀, hs, hx₀, hpage₀, hpage₁, hindexes⟩ : ∃ (s : Slab) (x₀ : KeyIndex),
      (Slab.new { size := 8 } { pageSize := 2, initialPages := 1 } .heap).outcome = .ok s ∧
      KeyIndex.new {} = .ok x₀ ∧ s.HasPage 0 ∧ s.HasPage 1 ∧
      ((IndexCall.insert 0).perform x₀ s >>= fun r =>
        (fun x' => (r.2.capacity, x'.capacity)) <$> (r.2.insert s 1).outcome) = .ok (8, 8) :=
    ⟨_, _, rfl, rfl, rfl, rfl, by decide +kernel⟩
  obtain ⟨⟨_, m₁⟩, hm₁, hmaps⟩ := bind_eq_ok hmaps
  obtain ⟨⟨_, m⟩, hm, hmaps⟩ := map_eq_ok hmaps
  obtain ⟨⟨_, x⟩, hx, hindexes⟩ := bind_eq_ok hindexes
  obtain ⟨x', hx', hindexes⟩ := map_eq_ok hindexes
  simp only [Prod.mk.injEq, decide_eq_true_eq] at hmaps hindexes
  obtain ⟨⟨hlen₁, hlen, hcap⟩, hslots, habsent, hmaps⟩ := hmaps
  obtain ⟨⟨previous, m'⟩, hm', hmaps⟩ := map_eq_ok hmaps
  obtain ⟨hcap', hjoined⟩ := Prod.mk.inj hmaps
  have hruns := ((InlineMap.Runs.new hm₀).call hm₁).call hm
  rw [hlen₁, hlen] at hruns
  have hfaithful : (IndexCall.insert 0).Faithful s := ⟨hpage₀, by decide⟩
  have htracks : KeyIndex.Tracks {} s x {0} := (KeyIndex.Tracks.new hs hx₀).call hfaithful hx
  obtain ⟨hmap, hindex⟩ := removal_undoes_addition
  obtain ⟨rfl, m'', hremove, -, hback, hlen', -⟩ :=
    (hmap Int32 _ _ _ m 2 hruns #[4] 4 rfl habsent).2 previous m' hm' (hcap'.trans hcap.symm)
  have hremoveIndex := (hindex _ s x {0} htracks 1 (by decide) hpage₁ (by decide)).2 x'
    hx' (hindexes.2.trans hindexes.1.symm)
  exact ⟨m, m', m'', s, x, x', hruns, hslots, hm', hjoined, hremove, hback, hlen', htracks, hx',
    hremoveIndex⟩

end RecordArena
