import RecordArena.Proofs.InlineMap.Entries
import RecordArena.Proofs.Probing.Table

/-!
# Inline maps as finite maps

`InlineMap.Represents` is the invariant of an inline map: its payloads are the entries of a finite
map, and each is met on the probe path of its key. The capacity is the one that the peak of the
number of keys settles at, so `MapSetting.Room` says beforehand that every block can be had.

## Main statements

* `InlineMap.Represents.locate` – a probe finds exactly the keys of the map.
* `InlineMap.Represents.put`, `InlineMap.Represents.remove`, `InlineMap.Represents.clear` – what a
  change answers and represents.
-/

namespace RecordArena

/-- What stays the same during the life of an inline map. -/
structure MapSetting where
  layout : RecordLayout
  backing : Backing
  factor : Binary32
  start : Nat

/-- Every table that `peak` keys may need is within the limit of the backing. -/
def MapSetting.Room (V : Type) [FixedWidth V] (c : MapSetting) (peak : Nat) : Prop :=
  ∀ len ≤ peak, ∀ capacity, SettlesAt c.start c.factor len capacity →
    capacity * (InlineMap.payloadWidth V c.layout + 1) ≤ c.backing.limit

theorem Rows.width_eq_of_fits {rows rows' : Rows}
    (h : ∀ e, LawfulSlots.Fits rows' e ↔ LawfulSlots.Fits rows e) : rows'.width = rows.width := by
  have hsize : (Bytes.zeros rows.width).size = rows.width := Array.size_replicate
  exact ((h (Bytes.zeros rows.width)).mpr hsize).symm.trans hsize

theorem Rows.entryAt_vacant (count width i : Nat) :
    Slots.entryAt (Rows.vacant count width) i = none :=
  if_neg fun hi => Bool.false_ne_true ((Rows.isOccupied_vacant count width i).symm.trans hi.2)

theorem MapSetting.Room.mono {V : Type} [FixedWidth V] {c : MapSetting} {peak peak' : Nat}
    (h : c.Room V peak') (hle : peak ≤ peak') : c.Room V peak :=
  fun len hlen => h len (hlen.trans hle)

/-- The largest table that is needed is the one that the peak settles at. -/
theorem MapSetting.Room.of_settlesAt {V : Type} [FixedWidth V] {c : MapSetting}
    {peak capacity : Nat} (h : SettlesAt c.start c.factor peak capacity)
    (hblock : capacity * (InlineMap.payloadWidth V c.layout + 1) ≤ c.backing.limit) :
    c.Room V peak :=
  fun _ hlen _ hsettles =>
    (Nat.mul_le_mul_right _ (hsettles.capacity_le h hlen)).trans hblock

/-- Keys within the limit of the first table need room for that table alone. -/
theorem MapSetting.Room.of_le_limit {V : Type} [FixedWidth V] {c : MapSetting} {peak : Nat}
    (hpeak : peak ≤ resizeLimit c.start c.factor)
    (hblock : c.start * (InlineMap.payloadWidth V c.layout + 1) ≤ c.backing.limit) :
    c.Room V peak :=
  .of_settlesAt ((SettlesAt.zero c.start c.factor).of_le (Nat.zero_le peak) hpeak) hblock

namespace InlineMap

variable {V : Type} [FixedWidth V]

/-- The hash of the key in a payload, which is always there. -/
def keyHashOf (layout : RecordLayout) (p : Bytes) : Int32 := layout.hashKey (keyOf layout p)

/-- The table of a map with one payload more, grown when that passes its limit. -/
def withEntry (m : InlineMap V) (slot : Nat) (p : Bytes) : Traced (Table Rows) :=
  (m.table.add slot p).settle (hashOf m.layout)
    (fun capacity => Rows.allocate m.backing capacity (payloadWidth V m.layout)) .mapRehashed

section Cases

variable {m : InlineMap V} {key p : Bytes} {slot : Nat}

omit [FixedWidth V] in
theorem checkKey_eq_ok (hkey : key.size = m.layout.keyLen) : m.checkKey key = .ok () := by
  rw [checkKey, if_neg (by omega), if_neg (by omega)]

omit [FixedWidth V] in
theorem size_of_checkKey (h : m.checkKey key = .ok ()) : key.size = m.layout.keyLen := by
  rw [checkKey] at h
  split at h
  · cases h
  split at h
  · cases h
  omega

theorem put_of_found (hkey : key.size = m.layout.keyLen) (h : m.locate key = .ok (.found slot p))
    (value : V) : m.put key value = pure (some (valueOf m.layout p),
      { m with table := { m.table with
        slots := Slots.store m.table.slots slot (payload key value) } }) := by
  rw [put, checkKey_eq_ok hkey, Traced.liftError_ok_bind, h, Traced.liftFault_ok_bind]

theorem put_of_vacant (hkey : key.size = m.layout.keyLen) (h : m.locate key = .ok (.vacant slot))
    (value : V) : m.put key value =
      (fun t => (none, { m with table := t })) <$> m.withEntry slot (payload key value) := by
  rw [put, checkKey_eq_ok hkey, Traced.liftError_ok_bind, h, Traced.liftFault_ok_bind,
    map_eq_pure_bind, withEntry]

theorem remove_of_found (hkey : key.size = m.layout.keyLen)
    (h : m.locate key = .ok (.found slot p)) : m.remove key =
      (fun t => (some (valueOf m.layout p), { m with table := t })) <$>
        m.table.take (hashOf m.layout) slot := by
  rw [remove, locate?, if_pos hkey, h, map_eq_pure_bind]
  rfl

theorem remove_of_vacant (hkey : key.size = m.layout.keyLen)
    (h : m.locate key = .ok (.vacant slot)) : m.remove key = .ok (none, m) := by
  rw [remove, locate?, if_pos hkey, h]
  rfl

/-- An allocated block is vacant, so a table can grow into it. -/
theorem freshAt_of_allocate {t : Table Rows} {backing : Backing} {width capacity : Nat}
    {rows : Rows} (hwidth : t.slots.width = width)
    (h : (Rows.allocate backing capacity width).outcome = .ok rows) :
    t.FreshAt (fun capacity => Rows.allocate backing capacity width) capacity := by
  obtain ⟨_, -, hrows⟩ := Traced.outcome_bind_eq_ok h
  cases hrows
  refine ⟨_, h, rfl, fun i _ => Rows.entryAt_vacant _ _ i, fun e => ?_⟩
  change e.size = width ↔ e.size = t.slots.width
  rw [hwidth]

end Cases

/-- The map `m` holds the pairs of `map`, after `peak` keys at most. -/
structure Represents (c : MapSetting) (peak : Nat) (m : InlineMap V) (map : KeyMap V) : Prop where
  layout_eq : m.layout = c.layout
  backing_eq : m.backing = c.backing
  loadFactor_eq : m.table.loadFactor = c.factor
  width_eq : m.table.slots.width = payloadWidth V c.layout
  tallied : m.table.Tallied
  count_le : m.table.count ≤ m.table.limit
  reached : m.table.Reached (keyHashOf c.layout)
  holds : Holds c.layout (Slots.entries m.table.slots) map
  settlesAt : SettlesAt c.start c.factor peak m.table.capacity
  count_le_peak : m.table.count ≤ peak

namespace Represents

variable {c : MapSetting} {peak : Nat} {m : InlineMap V} {map : KeyMap V} {key : Bytes}

theorem count_eq (h : Represents c peak m map) : m.table.count = map.keys.card :=
  h.tallied.count_eq.trans h.holds.length_eq

theorem size_entry (h : Represents c peak m map) {slot : Nat} {p : Bytes}
    (hp : Slots.entryAt m.table.slots slot = some p) : p.size = payloadWidth V c.layout :=
  (LawfulSlots.fits_entryAt m.table.slots slot p hp).trans h.width_eq

theorem size_key (h : Represents c peak m map) (hkey : key ∈ map) :
    key.size = c.layout.keyLen := by
  obtain ⟨value, hvalue⟩ := Finmap.mem_iff.mp hkey
  obtain ⟨p, hp, rfl, -⟩ := h.holds.mem_of_lookup hvalue
  obtain ⟨slot, -, hslot⟩ := Slots.mem_entries.mp hp
  exact size_keyOf (h.size_entry hslot)

/-- The block of a table within the room is shorter than `2 ^ 63` bytes. -/
theorem capacity_lt (h : Represents c peak m map) (hroom : c.Room V peak) :
    m.table.capacity < 2 ^ 63 := by
  calc m.table.capacity
      ≤ m.table.capacity * (payloadWidth V c.layout + 1) :=
        Nat.le_mul_of_pos_right _ (Nat.succ_pos _)
    _ ≤ c.backing.limit := hroom peak (Nat.le_refl peak) _ h.settlesAt
    _ < 2 ^ 63 := c.backing.limit_lt

/-- A probe ends at the payload of a key, or at the vacant slot where its payload belongs. -/
theorem locate (h : Represents c peak m map) (key : Bytes) :
    (∃ slot p, m.locate key = .ok (.found slot p) ∧ slot < m.table.capacity ∧
      Slots.entryAt m.table.slots slot = some p ∧ keyOf c.layout p = key ∧
      map.lookup key = some (valueOf c.layout p)) ∨
    ∃ slot, m.locate key = .ok (.vacant slot) ∧ slot < m.table.capacity ∧
      Slots.entryAt m.table.slots slot = none ∧ key ∉ map ∧
      Arrangement.Unbroken (Slots.entryAt m.table.slots) m.table.capacity
        (homeSlot m.table.capacity (c.layout.hashKey key)) slot := by
  obtain ⟨r, hrun, hend⟩ := Table.locate_spec h.tallied h.count_le (c.layout.hashKey key)
    (fun p => pure ((keyOf c.layout p).sameKey key)) (fun p => decide (keyOf c.layout p = key))
    (fun p _ => by rw [Bytes.sameKey_eq]; rfl)
  rw [← h.layout_eq] at hrun
  obtain ⟨k, hk⟩ := h.tallied.capacity_eq
  cases r with
  | found slot p =>
    refine .inl ⟨slot, p, hrun, hend.1, hend.2.2.1, of_decide_eq_true hend.2.2.2, ?_⟩
    have hp : p ∈ Slots.entries m.table.slots := Slots.mem_entries.mpr ⟨slot, hend.1, hend.2.2.1⟩
    rw [← h.holds.lookup_of_mem hp, of_decide_eq_true hend.2.2.2]
  | vacant slot =>
    refine .inr ⟨slot, hrun, hend.1, hend.2.2, ?_, hend.unbroken⟩
    rw [← Finmap.lookup_eq_none]
    apply h.holds.lookup_eq_none
    intro p hp hpkey
    have hno := hend.no_match h.reached (homeSlot_lt hk _) hp
      (by rw [Table.homes, keyHashOf, hpkey])
    exact of_decide_eq_false hno hpkey

/-- Looking a key up answers its value. A key of another width has none. -/
theorem get (h : Represents c peak m map) (key : Bytes) : m.get key = .ok (map.lookup key) := by
  rw [InlineMap.get, locate?, h.layout_eq]
  by_cases hsize : key.size = c.layout.keyLen
  · rw [if_pos hsize]
    obtain ⟨slot, p, hrun, -, -, -, hlookup⟩ | ⟨slot, hrun, -, -, hkey, -⟩ := h.locate key
    · rw [hrun, hlookup]
      rfl
    · rw [hrun, Finmap.lookup_eq_none.mpr hkey]
      rfl
  · rw [if_neg hsize, Finmap.lookup_eq_none.mpr fun hkey => hsize (h.size_key hkey)]
    rfl

theorem hasValue [DecidableEq V] (h : Represents c peak m map) (value : V) :
    m.hasValue value = decide (∃ key ∈ map.keys, map.lookup key = some value) := by
  rw [Bool.eq_iff_iff, InlineMap.hasValue, List.any_eq_true, decide_eq_true_eq, h.layout_eq]
  constructor
  · rintro ⟨p, hp, hvalue⟩
    have hlookup := h.holds.lookup_of_mem hp
    rw [of_decide_eq_true hvalue] at hlookup
    exact ⟨_, Finmap.mem_keys.mpr (Finmap.mem_of_lookup_eq_some hlookup), hlookup⟩
  · rintro ⟨key, -, hlookup⟩
    obtain ⟨p, hp, -, hvalue⟩ := h.holds.mem_of_lookup hlookup
    exact ⟨p, hp, decide_eq_true hvalue⟩

theorem vacant (rows : Rows) {k : Nat} (hlayout : m.layout = c.layout)
    (hbacking : m.backing = c.backing) (htable : m.table = Table.ofSlots rows c.factor)
    (hfactor : c.factor.isLoadFactor = true) (hwidth : rows.width = payloadWidth V c.layout)
    (hcount : rows.count = 2 ^ k) (hvacant : ∀ i, rows.isOccupied i = false)
    (hsettles : SettlesAt c.start c.factor peak rows.count) :
    Represents c peak m (∅ : KeyMap V) := by
  have hentry : ∀ i, Slots.entryAt rows i = none := fun i =>
    if_neg fun hi => Bool.false_ne_true ((hvacant i).symm.trans hi.2)
  have hentries : Slots.entries rows = [] := Arrangement.entries_vacant fun i _ => hentry i
  have htallied : (Table.ofSlots rows c.factor).Tallied :=
    .ofSlots hcount hfactor fun i _ => hentry i
  rw [← htable] at htallied
  exact {
    layout_eq := hlayout
    backing_eq := hbacking
    loadFactor_eq := by rw [htable]; rfl
    width_eq := by rw [htable]; exact hwidth
    tallied := htallied
    count_le := by rw [htable]; exact Nat.zero_le _
    reached := by rw [htable]; exact .vacant fun i _ => hentry i
    holds := by rw [htable]; exact hentries ▸ .empty c.layout
    settlesAt := by rw [htable]; exact hsettles
    count_le_peak := by rw [htable]; exact Nat.zero_le _ }

theorem clear (h : Represents c peak m map) : Represents c peak m.clear ∅ := by
  obtain ⟨k, hk⟩ := h.tallied.capacity_eq
  refine vacant m.table.slots.clear h.layout_eq h.backing_eq ?_
    (h.loadFactor_eq ▸ h.tallied.isLoadFactor) h.width_eq hk (Rows.isOccupied_clear _) h.settlesAt
  rw [← h.loadFactor_eq]
  exact congrArg (fun limit => (⟨m.table.slots.clear, 0, limit, m.table.loadFactor⟩ : Table Rows))
    h.tallied.limit_eq

/-- Removing answers the value of a key, which is gone then. Any other key has none to remove. -/
theorem remove (h : Represents c peak m map) (hroom : c.Room V peak) (key : Bytes) :
    ∃ m', m.remove key = .ok (map.lookup key, m') ∧
      Represents c peak m' (map.erase key) := by
  by_cases hsize : key.size = c.layout.keyLen
  · have hsize' := h.layout_eq ▸ hsize
    obtain ⟨slot, p, hrun, hslot, hp, rfl, hlookup⟩ | ⟨slot, hrun, -, -, hkey, -⟩ := h.locate key
    · obtain ⟨t', htake, htaken⟩ := Table.take_spec h.tallied (hashOf m.layout)
        (keyHashOf m.layout) hslot hp fun _ _ => rfl
      refine ⟨{ m with table := t' }, ?_, ?_⟩
      · rw [remove_of_found hsize' hrun, htake, hlookup, h.layout_eq, ok_map]
      · have hwidth : t'.slots.width = m.table.slots.width := Rows.width_eq_of_fits htaken.fits
        have hcap := h.capacity_lt hroom
        have hle := h.count_le
        rw [h.layout_eq] at htaken
        exact {
          layout_eq := h.layout_eq
          backing_eq := h.backing_eq
          loadFactor_eq := htaken.loadFactor_eq.trans h.loadFactor_eq
          width_eq := hwidth.trans h.width_eq
          tallied := htaken.tallied
          count_le := by rw [htaken.count_eq, htaken.limit_eq]; omega
          reached := htaken.reached h.tallied (by omega) hslot fun i hi _ => h.reached i hi
          holds := (h.holds.perm htaken.entries_perm.symm).erase
          settlesAt := by rw [htaken.capacity_eq]; exact h.settlesAt
          count_le_peak := by
            have := h.count_le_peak
            rw [htaken.count_eq]
            omega }
    · refine ⟨m, ?_, (KeyMap.erase_of_notMem hkey).symm ▸ h⟩
      rw [remove_of_vacant hsize' hrun, Finmap.lookup_eq_none.mpr hkey]
  · have hkey : key ∉ map := fun hkey => hsize (h.size_key hkey)
    refine ⟨m, ?_, (KeyMap.erase_of_notMem hkey).symm ▸ h⟩
    rw [InlineMap.remove, locate?, h.layout_eq, if_neg hsize, Finmap.lookup_eq_none.mpr hkey]
    rfl

/-- A table that is full grows to where one key more settles. -/
theorem settlesAt_grown (h : Represents c peak m map)
    (hcount : m.table.count + 1 ≤ Numeric.maxCount)
    (hlt : m.table.limit < m.table.count + 1) :
    SettlesAt c.start c.factor (max peak (m.table.count + 1))
      (grownCapacity m.table.capacity (m.table.count + 1) m.table.loadFactor) := by
  obtain ⟨k, hk⟩ := h.tallied.capacity_eq
  have hle := h.count_le
  have hlimit := h.tallied.limit_lt
  have hlimit_eq := h.tallied.limit_eq
  have hsettles := h.settlesAt
  obtain ⟨-, -, hhold, -⟩ := id hsettles
  rw [← h.loadFactor_eq, hk] at hsettles hhold
  rw [hk] at hlimit hlimit_eq
  rw [Nat.max_eq_right (by omega), hk, ← h.loadFactor_eq]
  exact hsettles.grow h.tallied.isLoadFactor (by omega) (by omega) hcount (by omega)

/-- The block that a table grows to is within the room. -/
theorem freshAt (h : Represents c peak m map) (hroom : c.Room V (max peak (m.table.count + 1)))
    (hcount : m.table.count + 1 ≤ Numeric.maxCount) (slot : Nat) (p : Bytes)
    (hlt : m.table.limit < m.table.count + 1) :
    (m.table.add slot p).FreshAt
      (fun capacity => Rows.allocate c.backing capacity (payloadWidth V c.layout))
      (grownCapacity m.table.capacity (m.table.count + 1) m.table.loadFactor) :=
  freshAt_of_allocate h.width_eq (Rows.allocate_of_le
    (hroom _ (Nat.le_refl _) _ (h.settlesAt_grown hcount hlt)))

/-- A payload in the place of one with the same key. -/
theorem overwrite (h : Represents c peak m map) (hkey : key.size = c.layout.keyLen) (value : V)
    {slot : Nat} {old : Bytes} (hslot : slot < m.table.capacity)
    (hold : Slots.entryAt m.table.slots slot = some old) (hkeyold : keyOf c.layout old = key) :
    (map.insert key value).keys.card = m.table.count ∧
      Represents c peak { m with table := { m.table with
        slots := Slots.store m.table.slots slot (payload key value) } } (map.insert key value) := by
  have hfits : LawfulSlots.Fits m.table.slots (payload key value) :=
    (size_payload hkey value).trans h.width_eq.symm
  obtain ⟨rest, hbefore, hafter⟩ := Table.entries_overwrite hslot hold hfits
  have hsame : keyOf c.layout (payload key value) = keyOf c.layout old := by
    rw [keyOf_payload hkey, hkeyold]
  have hholds : Holds c.layout (Slots.entries (Slots.store m.table.slots slot
      (payload key value))) (map.insert key value) := by
    have hreplace := (h.holds.perm hbefore.symm).replace hsame
    rw [keyOf_payload hkey, valueOf_payload hkey] at hreplace
    exact hreplace.perm hafter
  refine ⟨?_, ?_⟩
  · rw [← hholds.length_eq, hafter.length_eq, h.tallied.count_eq, hbefore.length_eq]
    rfl
  · exact {
      layout_eq := h.layout_eq
      backing_eq := h.backing_eq
      loadFactor_eq := h.loadFactor_eq
      width_eq := h.width_eq
      tallied := Table.overwrite_tallied h.tallied hslot hold hfits
      count_le := h.count_le
      reached := Table.overwrite_reached h.reached hslot hold hfits
        (by rw [keyHashOf, keyHashOf, hsame])
      holds := hholds
      settlesAt := by
        rw [Table.capacity, Slots.capacity_store]
        exact h.settlesAt
      count_le_peak := h.count_le_peak }

/-- A payload with a new key where its probe ended, and room for it. -/
theorem add (h : Represents c peak m map) (hkey : key.size = c.layout.keyLen) (value : V)
    {slot : Nat} (hslot : slot < m.table.capacity)
    (hvacant : Slots.entryAt m.table.slots slot = none) (hnew : key ∉ map)
    (hpath : Arrangement.Unbroken (Slots.entryAt m.table.slots) m.table.capacity
      (homeSlot m.table.capacity (c.layout.hashKey key)) slot) :
    (map.insert key value).keys.card = m.table.count + 1 ∧
      (c.Room V (max peak (m.table.count + 1)) → ∃ t',
        (m.withEntry slot (payload key value)).outcome = .ok t' ∧
        Represents c (max peak (m.table.count + 1)) { m with table := t' }
          (map.insert key value)) := by
  have hfits : LawfulSlots.Fits m.table.slots (payload key value) :=
    (size_payload hkey value).trans h.width_eq.symm
  have hadded := Table.add_tallied h.tallied hslot hvacant hfits
  have hkeyof : keyOf c.layout (payload key value) = key := keyOf_payload hkey value
  have hholds : Holds c.layout (Slots.entries (m.table.add slot (payload key value)).slots)
      (map.insert key value) := by
    have hinsert := h.holds.insert (p := payload key value) (hkeyof.symm ▸ hnew)
    rw [hkeyof, valueOf_payload hkey] at hinsert
    exact hinsert.perm (Table.entries_add hslot hvacant hfits)
  refine ⟨hholds.length_eq.symm.trans hadded.count_eq.symm, fun hroom => ?_⟩
  have hcap := h.capacity_lt (hroom.mono (Nat.le_max_left _ _))
  have hlimit := h.tallied.limit_lt
  have hle := h.count_le
  have hcount : m.table.count + 1 ≤ Numeric.maxCount := by
    rw [Numeric.maxCount]
    omega
  obtain ⟨t', hsettle, hsettled⟩ := Table.settle_spec hadded (Nat.succ_le_succ hle) hcount
    (hashOf c.layout) (keyHashOf c.layout)
    (fun capacity => Rows.allocate c.backing capacity (payloadWidth V c.layout)) .mapRehashed
    (h.freshAt hroom hcount slot _) fun _ _ => rfl
  refine ⟨t', by rw [withEntry, h.layout_eq, h.backing_eq, hsettle], ?_⟩
  have hpeak : SettlesAt c.start m.table.loadFactor peak
      (m.table.add slot (payload key value)).capacity := by
    rw [Table.capacity_add, h.loadFactor_eq]
    exact h.settlesAt
  have hroomy : m.table.count + 1 ≤ (m.table.add slot (payload key value)).capacity := by
    rw [Table.capacity_add]
    omega
  have hsettles := hsettled.settlesAt hadded hroomy hcount hpeak
  have hcount' : t'.count = m.table.count + 1 := hsettled.count_eq
  have hfactor : t'.loadFactor = c.factor := hsettled.loadFactor_eq.trans h.loadFactor_eq
  have hwidth : t'.slots.width = m.table.slots.width := Rows.width_eq_of_fits hsettled.fits
  rw [hfactor, hcount'] at hsettles
  exact {
    layout_eq := h.layout_eq
    backing_eq := h.backing_eq
    loadFactor_eq := hfactor
    width_eq := hwidth.trans h.width_eq
    tallied := hsettled.tallied
    count_le := hsettled.count_le
    reached := hsettled.reached (Table.add_reached h.reached hslot hfits
      (by rwa [Table.homes, keyHashOf, hkeyof]))
    holds := hholds.perm hsettled.entries_perm
    settlesAt := hsettles
    count_le_peak := hcount' ▸ Nat.le_max_right _ _ }

/-- Putting a value answers the previous one and overwrites it, or adds a key and makes room for
it. -/
theorem put (h : Represents c peak m map) (hkey : key.size = c.layout.keyLen) (value : V)
    (hroom : c.Room V (max peak (map.insert key value).keys.card)) :
    ∃ m', (m.put key value).outcome = .ok (map.lookup key, m') ∧
      Represents c (max peak (map.insert key value).keys.card) m' (map.insert key value) := by
  have hsize : key.size = m.layout.keyLen := by rw [h.layout_eq, hkey]
  obtain ⟨slot, old, hrun, hslot, hold, hkeyold, hlookup⟩ |
    ⟨slot, hrun, hslot, hvacant, hnew, hpath⟩ := h.locate key
  · obtain ⟨hcard, hrepresents⟩ := h.overwrite hkey value hslot hold hkeyold
    rw [hcard, Nat.max_eq_left h.count_le_peak]
    refine ⟨_, ?_, hrepresents⟩
    rw [put_of_found hsize hrun, hlookup, h.layout_eq, Traced.outcome_pure]
  · obtain ⟨hcard, hadd⟩ := h.add hkey value hslot hvacant hnew hpath
    rw [hcard] at hroom ⊢
    obtain ⟨t', hadded, hrepresents⟩ := hadd hroom
    refine ⟨{ m with table := t' }, ?_, hrepresents⟩
    rw [put_of_vacant hsize hrun, Traced.outcome_map, hadded, ok_map,
      Finmap.lookup_eq_none.mpr hnew]

end Represents

end InlineMap

end RecordArena
