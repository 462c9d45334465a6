import RecordArena.Proofs.KeyIndex.IndexSet
import RecordArena.Proofs.Slab.Sound

/-!
# Registries

A slab and a key index are a registry when every live record is registered, each under a key of its
own. A key is registered by creating a record with the key, and unregistered by freeing the record
that the index gives back, so an index is registered for exactly as long as its record lives.

## Main definitions

* `Slab.Indexed` – every place has an index, and no record has the one that marks a vacant cell.
* `Registry` – a slab and an index whose registered indices are the live ones.

## Main statements

* `Registry.probeKey` – a search ends at the one index of a key.
* `Registry.create`, `Registry.insert` – a record with a new key is created and registered.
* `Registry.take` – a key is unregistered and its record freed.
-/

namespace RecordArena

/-- Every place of the slab has an index, and no record has the one that marks a vacant cell. -/
def Slab.Indexed (s : Slab) : Prop :=
  s.pageCount * s.pageCapacity ≤ 2 ^ 32 ∧ s.isLive Cells.vacantMark = .ok false

instance (s : Slab) : Decidable s.Indexed := inferInstanceAs (Decidable (_ ∧ _))

/-- The index registers the live records, each under a key of its own. -/
structure Registry (s : Slab) (x : KeyIndex) (S : Finset UInt32) : Prop where
  sound : s.Sound
  exact : KeyIndex.Exact s x S
  live_iff : ∀ index, s.Live index ↔ index ∈ S
  keyAt_inj : ∀ i ∈ S, ∀ j ∈ S, s.keyAt i = s.keyAt j → i = j

/-- What creating a record with a key does to a slab, all of whose live indices are in `S`. -/
structure Slab.Adds (s : Slab) (S : Finset UInt32) (key : Bytes) (s' : Slab) : Prop where
  sound : s'.Sound
  fresh : s.upcoming.index ∉ S
  live_iff : ∀ index, s'.Live index ↔ index ∈ Insert.insert s.upcoming.index S
  keyAt_new : s'.keyAt s.upcoming.index = key
  keyAt_eq : ∀ index ∈ S, s'.keyAt index = s.keyAt index

namespace Registry

variable {s s' : Slab} {x x' : KeyIndex} {S : Finset UInt32} {key record : Bytes}

theorem new {layout : RecordLayout} {slabConfig : SlabConfig} {backing : Backing}
    {config : TableConfig} (hs : (Slab.new layout slabConfig backing).outcome = .ok s)
    (hx : KeyIndex.new config = .ok x) (hfits : s.pageCount * s.pageCapacity ≤ 2 ^ 32) :
    Registry s x ∅ := by
  obtain ⟨hsound, hnone, -⟩ := Slab.Sound.new hs hfits
  exact {
    sound := hsound
    exact := .new hsound.toShaped hx
    live_iff := fun index => iff_of_false (hnone index) (Finset.notMem_empty index)
    keyAt_inj := fun i hi => absurd hi (Finset.notMem_empty i) }

theorem live_of_entry (h : Registry s x S) {slot : Nat} {index : UInt32}
    (hslot : slot < x.table.capacity) (hindex : Slots.entryAt x.table.slots slot = some index) :
    s.Live index :=
  (h.live_iff index).mpr
    ((h.exact.mem_iff index).mp (KeyIndex.Backed.mem_indices hslot hindex))

/-- A search for a key ends at its index, or at a vacant slot when no live record has the key. -/
theorem probeKey (h : Registry s x S) (key : Bytes) :
    ∃ r, x.table.locate (s.layout.hashKey key) (fun i => s.hasKey i key) = .ok r ∧
      x.Probed (fun i => decide (s.keyAt i = key)) (s.layout.hashKey key) r ∧
      match r with
      | .found _ index => index ∈ S ∧ s.keyAt index = key
      | .vacant _ => ∀ index ∈ S, s.keyAt index ≠ key := by
  obtain ⟨r, hrun, hprobe⟩ := h.exact.probeKey key (s.layout.hashKey key)
  have hfind := h.exact.find_iff hprobe
  refine ⟨r, hrun, hprobe, ?_⟩
  cases r with
  | found slot index => exact hfind
  | vacant slot => exact hfind

/-- A record is created at the upcoming index and filled with `record`. -/
theorem create (h : Registry s x S) (hrecord : record.size ≤ s.layout.size)
    (hkey : s.layout.keyOffset + s.layout.keyLen ≤ record.size) :
    ∃ s₁ s₂, s.create.outcome = .ok (s.upcoming, s₁) ∧
      s₁.writeAt s.upcoming.place record = .ok s₂ ∧ s.Extends s₂ ∧
      s₂.HasPage s.upcoming.index ∧
      (s₂.pageCount * s₂.pageCapacity ≤ 2 ^ 32 → s.Adds S (s.layout.keyIn record) s₂) := by
  obtain ⟨s₁, s₂, view, hcreate, hwrite, -, hfilled⟩ := h.sound.create_write hrecord
  have hkept := (Slab.create_extends hcreate).trans (Slab.writeAt_extends hwrite)
  have hpage : s.HasPage s.upcoming.index := by
    have hplace : s.place s.upcoming.index = s.cursor.place := h.sound.place_cursor
    rw [Slab.HasPage, hplace]
    exact decide_eq_true (h.sound.ordered.current_lt _ rfl)
  refine ⟨s₁, s₂, hcreate, hwrite, hkept, hkept.hasPage hpage, fun hfits => ?_⟩
  obtain ⟨hc, hw, -⟩ := hfilled hfits
  have hfresh : s.upcoming.index ∉ S := fun hmem => hc.fresh ((h.live_iff _).mpr hmem)
  have hlive : ∀ i, s₂.Live i ↔ i ∈ Insert.insert s.upcoming.index S := by
    intro i
    rw [hw.live_iff, hc.live_iff, h.live_iff, Finset.mem_insert]
  have hkeyAt : ∀ i, s₂.Live i → s₂.keyAt i = s.layout.keyIn (s₂.bytesOf i) := by
    intro i hi
    rw [hw.sound.keyAt_eq hi.hasPage, hkept.layout_eq]
  exact {
    sound := hw.sound
    fresh := hfresh
    live_iff := hlive
    keyAt_new := by
      have hnew : s₁.Live s.upcoming.index := (hc.live_iff _).mpr (.inl rfl)
      have hwidth := hc.sound.size_bytesOf hnew.hasPage
      rw [hc.kept.layout_eq] at hwidth
      rw [hkeyAt _ ((hlive _).mpr (Finset.mem_insert_self _ _)), hw.bytes_eq, if_pos rfl,
        RecordLayout.keyIn_overwrite hkey (hwidth ▸ hrecord)]
    keyAt_eq := by
      intro i hi
      have hold := (h.live_iff i).mpr hi
      have hne : i ≠ s.upcoming.index := fun heq => hfresh (heq ▸ hi)
      rw [hkeyAt i ((hlive i).mpr (Finset.mem_insert_of_mem hi)), hw.bytes_eq, if_neg hne,
        hc.bytes_eq i ((hc.live_iff i).mpr (.inr hold)), h.sound.keyAt_eq hold.hasPage] }

/-- The record that was created is registered under a key that no other one has. -/
theorem insert (h : Registry s x S) (hkept : s.Extends s') (hadds : s.Adds S key s')
    (hnew : ∀ index ∈ S, s.keyAt index ≠ key) (hmark : s.upcoming.index ≠ Cells.vacantMark)
    (hrun : (x.insert s' s.upcoming.index).outcome = .ok x') :
    Registry s' x' (Insert.insert s.upcoming.index S) := by
  have hexact : KeyIndex.Exact s' x S := h.exact.extend hkept hadds.keyAt_eq
  have hlive := (hadds.live_iff _).mpr (Finset.mem_insert_self s.upcoming.index S)
  obtain ⟨x₁, hrun₁, hinserted, hbacked⟩ := hexact.toBacked.insert hlive.hasPage hmark hexact.len_lt
  cases hrun.symm.trans hrun₁
  have hother : ∀ i ∈ S, s'.keyAt i ≠ s'.keyAt s.upcoming.index := by
    intro i hi
    rw [hadds.keyAt_eq i hi, hadds.keyAt_new]
    exact hnew i hi
  exact {
    sound := hadds.sound
    exact := hexact.insert hinserted hbacked
    live_iff := hadds.live_iff
    keyAt_inj := by
      intro i hi j hj heq
      rcases Finset.mem_insert.mp hi with rfl | hi'
      · rcases Finset.mem_insert.mp hj with rfl | hj'
        · rfl
        · exact (hother j hj' heq.symm).elim
      · rcases Finset.mem_insert.mp hj with rfl | hj'
        · exact (hother i hi' heq).elim
        · rw [hadds.keyAt_eq i hi', hadds.keyAt_eq j hj'] at heq
          exact h.keyAt_inj i hi' j hj' heq }

/-- A registered index is taken out of the table, and its record is freed. -/
theorem take (h : Registry s x S) {isMatch : UInt32 → Bool} {hash : Int32} {slot : Nat}
    {index : UInt32} (hprobe : x.Probed isMatch hash (.found slot index)) :
    ∃ t' s', x.table.take s.keyHash slot = .ok t' ∧ (s.free index).outcome = .ok s' ∧
      s.Extends s' ∧ Registry s' ⟨t'⟩ (S.erase index) ∧
      ∀ i ∈ S.erase index, s'.keyAt i = s.keyAt i := by
  obtain ⟨x', hrun, hremoved, hbacked⟩ := h.exact.takeFound hprobe
  obtain ⟨t', htake, hdone⟩ := bind_eq_ok hrun
  cases hdone
  obtain ⟨s', hfree, hfrees⟩ := h.sound.free (h.live_of_entry hprobe.1 hprobe.2.2.1)
  have hlive : ∀ i, s'.Live i ↔ i ∈ S.erase index := by
    intro i
    rw [hfrees.live_iff, h.live_iff, Finset.mem_erase]
  have hkeys : ∀ i ∈ S.erase index, s'.keyAt i = s.keyAt i := by
    intro i hi
    have hlive' := (hlive i).mpr hi
    have hold := (h.live_iff i).mpr (Finset.mem_of_mem_erase hi)
    rw [hfrees.sound.keyAt_eq hlive'.hasPage, hfrees.bytes_eq i hlive', hfrees.kept.layout_eq,
      h.sound.keyAt_eq hold.hasPage]
  have hexact : KeyIndex.Exact s ⟨t'⟩ (S.erase index) := h.exact.remove hremoved hbacked
  refine ⟨t', s', htake, hfree, hfrees.kept, ?_, hkeys⟩
  exact {
    sound := hfrees.sound
    exact := hexact.extend hfrees.kept hkeys
    live_iff := hlive
    keyAt_inj := by
      intro i hi j hj heq
      rw [hkeys i hi, hkeys j hj] at heq
      exact h.keyAt_inj i (Finset.mem_of_mem_erase hi) j (Finset.mem_of_mem_erase hj) heq }

end Registry

end RecordArena
