import RecordArena.Proofs.InlineMap.Represents
import RecordArena.Proofs.KeyIndex.Registry
import RecordArena.Proofs.Probing.Parallel
import RecordArena.Proofs.Rehashes

/-!
# A map and a registry in lock step

An inline map keeps its keys in its own block, a key index reads them in a slab. Apart from that
they are the same table: used by the same keys, they have the same slots occupied, by payloads on
the one side and by the indices of the records with these keys on the other, and they grow together.

The payload and the index in a slot are related by `Slab.SameKey`. A call that reaches the index
through the key meets related entries all the way. The probe of a registration does not look for
the key but for the index itself; it goes the same way because the key is new and so is the index.

## Main definitions

* `KeyCall` – one call of both sides, which `KeyCall.onBoth` makes.
* `InStep` – the invariant of a map and a registry.
* `LockStep` – the maps, slabs and indexes that arise.

## Main statements

* `InStep.perform` – a call is answered on both sides, which rehash alike and stay in step.
* `LockStep.same_slots` – after any run, both have the same keys in the same slots.
-/

namespace RecordArena

/-- One call of an inline map and of a slab with a key index over it. -/
inductive KeyCall (V : Type) where
  /-- Puts a value by a key, and registers a record with the key unless there is one. -/
  | add (key : Bytes) (value : V) (record : Bytes)
  /-- Removes a key, and ends the record with the key. -/
  | drop (key : Bytes)

namespace KeyCall

variable {V : Type}

def onMap [FixedWidth V] (m : InlineMap V) : KeyCall V → Traced (InlineMap V)
  | add key value _ => Prod.snd <$> m.put key value
  | drop key => do
    let (_, m) ← m.remove key
    pure m

def onStore (s : Slab) (x : KeyIndex) : KeyCall V → Traced (Slab × KeyIndex)
  | add key _ record => do
    match ← x.find s key with
    | some _ => pure (s, x)
    | none =>
      let (created, s) ← s.create
      let s ← s.writeAt created.place record
      pure (s, ← x.insert s created.index)
  | drop key => do
    match ← x.removeKey s key with
    | (some index, x) => pure (← s.free index, x)
    | (none, x) => pure (s, x)

/-- Keys have the width of the layout, and the record of a key has the key. -/
def Proper (layout : RecordLayout) : KeyCall V → Prop
  | add key _ record =>
    key.size = layout.keyLen ∧ record.size ≤ layout.size ∧ layout.keyIn record = key
  | drop key => key.size = layout.keyLen

instance (layout : RecordLayout) : (call : KeyCall V) → Decidable (call.Proper layout)
  | add _ _ _ => inferInstanceAs (Decidable (_ ∧ _ ∧ _))
  | drop _ => inferInstanceAs (Decidable (_ = _))

/-- Both sides after a call, if it is proper, both answer it and it leaves all places an index. -/
def onBoth [FixedWidth V] (both : InlineMap V × Slab × KeyIndex) (call : KeyCall V) :
    Option (InlineMap V × Slab × KeyIndex) :=
  match (call.onMap both.1).outcome, (call.onStore both.2.1 both.2.2).outcome with
  | .ok m, .ok (s, x) => if call.Proper both.2.1.layout ∧ s.Indexed then some (m, s, x) else none
  | _, _ => none

theorem onBoth_eq_some [FixedWidth V] {call : KeyCall V} {m m' : InlineMap V} {s s' : Slab}
    {x x' : KeyIndex} (h : call.onBoth (m, s, x) = some (m', s', x')) :
    call.Proper s.layout ∧ (call.onMap m).outcome = .ok m' ∧
      (call.onStore s x).outcome = .ok (s', x') ∧ s'.Indexed := by
  rw [onBoth] at h
  split at h
  case h_1 hm hs =>
    obtain ⟨⟨hcall, hindexed⟩, h⟩ := Option.ite_none_right_eq_some.mp h
    cases h
    exact ⟨hcall, hm, hs, hindexed⟩
  case h_2 => cases h

end KeyCall

/-- The block that one key more may need is within the limit of the backing. -/
def InlineMap.HasRoom {V : Type} [FixedWidth V] (m : InlineMap V) : Prop :=
  m.table.limit < m.len + 1 →
    grownCapacity m.capacity (m.len + 1) m.table.loadFactor * (payloadWidth V m.layout + 1) ≤
      m.backing.limit

instance {V : Type} [FixedWidth V] (m : InlineMap V) : Decidable m.HasRoom :=
  inferInstanceAs (Decidable (_ → _))

/-- The payload has the key of the record at the index, which is one of `S`. -/
def Slab.SameKey (s : Slab) (S : Finset UInt32) (p : Bytes) (index : UInt32) : Prop :=
  index ∈ S ∧ InlineMap.keyOf s.layout p = s.keyAt index

/-- The record at the index is live and has the key, and no other live record has it. -/
def Slab.IsRecordOf (s : Slab) (key : Bytes) (index : UInt32) : Prop :=
  s.isLive index = .ok true ∧ s.hasKey index key = .ok true ∧
    ∀ other, s.isLive other = .ok true → s.hasKey other key = .ok true → other = index

/-- A map and a registry with the same keys in the same slots. -/
structure InStep {V : Type} [FixedWidth V] (m : InlineMap V) (s : Slab) (x : KeyIndex)
    (S : Finset UInt32) : Prop where
  layout_eq : m.layout = s.layout
  width_eq : m.table.slots.width = InlineMap.payloadWidth V s.layout
  registry : Registry s x S
  tables : m.table.Matches (s.SameKey S) x.table

/-- What a call does on both sides. The map answers as long as its block can grow, and the slab as
long as the record that it creates can be registered. -/
structure KeyCall.Serves {V : Type} [FixedWidth V] (call : KeyCall V) (m : InlineMap V) (s : Slab)
    (x : KeyIndex) : Prop where
  onMap_ok : m.HasRoom → ∃ m', (call.onMap m).outcome = .ok m'
  onStore_ok : s.cursorIndex ≠ Cells.vacantMark →
    ∃ s' x', (call.onStore s x).outcome = .ok (s', x')
  together : ∀ m' s' x', (call.onMap m).outcome = .ok m' →
    (call.onStore s x).outcome = .ok (s', x') → s'.Indexed →
    (call.onMap m).rehashes = (call.onStore s x).rehashes ∧ ∃ S', InStep m' s' x' S'

/-- A call serves when the map answers at once, and the store without a rehash. -/
theorem KeyCall.Serves.of_answers {V : Type} [FixedWidth V] {call : KeyCall V}
    {m m' : InlineMap V} {s s' : Slab} {x x' : KeyIndex} {S' : Finset UInt32}
    (hmap : call.onMap m = pure m') (hstore : (call.onStore s x).outcome = .ok (s', x'))
    (hquiet : (call.onStore s x).rehashes = []) (hstep : InStep m' s' x' S') :
    call.Serves m s x where
  onMap_ok := fun _ => ⟨m', by rw [hmap, Traced.outcome_pure]⟩
  onStore_ok := fun _ => ⟨s', x', hstore⟩
  together := by
    intro m₁ s₁ x₁ hm hs _
    rw [hmap, Traced.outcome_pure] at hm
    cases hm
    cases hstore.symm.trans hs
    exact ⟨by rw [hmap, hquiet, Traced.rehashes_pure], S', hstep⟩

theorem Registry.hash_agree {s : Slab} {x : KeyIndex} {S : Finset UInt32} (h : Registry s x S)
    {p : Bytes} {index : UInt32} (hsame : s.SameKey S p index) :
    Agree Eq (InlineMap.hashOf s.layout p) (s.keyHash index) := by
  have hlive := (h.live_iff index).mpr hsame.1
  rw [h.sound.keyHash_eq hlive.hasPage, ← hsame.2]
  exact .ok rfl

namespace InStep

variable {V : Type} [FixedWidth V] {m : InlineMap V} {s s' : Slab} {x : KeyIndex}
  {S : Finset UInt32} {key record : Bytes} {value : V} {slot : Nat} {index : UInt32}

theorem tallied (h : InStep m s x S) : m.table.Tallied := h.tables.tallied h.registry.exact.tallied

theorem count_le (h : InStep m s x S) : m.table.count ≤ m.table.limit := by
  rw [h.tables.count_eq, h.tables.limit_eq]
  exact h.registry.exact.count_le

theorem count_lt (h : InStep m s x S) : m.table.count + 1 ≤ Numeric.maxCount := by
  rw [h.tables.count_eq]
  exact h.registry.exact.len_lt

theorem size_key (h : InStep m s x S) (hkey : key.size = s.layout.keyLen) :
    key.size = m.layout.keyLen := by
  rw [h.layout_eq, hkey]

theorem fits (h : InStep m s x S) (hkey : key.size = s.layout.keyLen) (value : V) :
    LawfulSlots.Fits m.table.slots (InlineMap.payload key value) :=
  (InlineMap.size_payload hkey value).trans h.width_eq.symm

/-- A probe of the map for a key and a probe of the index for the same entries end alike. -/
theorem locate (h : InStep m s x S) (key : Bytes) (isMatch : UInt32 → Except Fault Bool)
    (hmatch : ∀ p i, s.SameKey S p i →
      isMatch i = .ok (decide (InlineMap.keyOf s.layout p = key))) :
    Agree (ProbeEnd.Matches (s.SameKey S) m.table.capacity) (m.locate key)
      (x.table.locate (s.layout.hashKey key) isMatch) := by
  rw [InlineMap.locate, h.layout_eq]
  refine h.tables.locate (fun p i hsame => ?_) _
  rw [Bytes.sameKey_eq, hmatch p i hsame]
  exact .ok rfl

theorem locateKey (h : InStep m s x S) {r : ProbeEnd UInt32}
    (hrun : x.table.locate (s.layout.hashKey key) (fun i => s.hasKey i key) = .ok r) :
    ∃ r', m.locate key = .ok r' ∧ r'.Matches (s.SameKey S) m.table.capacity r := by
  have hagree := h.locate key (fun i => s.hasKey i key) fun p i hsame => by
    have hlive := (h.registry.live_iff i).mpr hsame.1
    rw [hsame.2]
    exact h.registry.sound.hasKey_eq hlive.hasPage key
  rw [hrun] at hagree
  exact hagree.of_ok_right

theorem find_eq {r : ProbeEnd UInt32}
    (hrun : x.table.locate (s.layout.hashKey key) (fun i => s.hasKey i key) = .ok r) :
    x.find s key = .ok r.index? := by
  rw [KeyIndex.find, KeyIndex.findHashed, KeyIndex.locateKey, hrun]
  rfl

/-- A value is put by a key that is there; nothing else changes. -/
theorem add_found (h : InStep m s x S) (hkey : key.size = s.layout.keyLen)
    (hrun : x.table.locate (s.layout.hashKey key) (fun i => s.hasKey i key) =
      .ok (.found slot index))
    (hindex : Slots.entryAt x.table.slots slot = some index) (hkeyAt : s.keyAt index = key) :
    (KeyCall.add key value record).Serves m s x := by
  obtain ⟨r, hlocate, hmatches⟩ := h.locateKey hrun
  cases hmatches with
  | @found _ p _ hslot hsame =>
    have hmap : (KeyCall.add key value record).onMap m = pure { m with table := { m.table with
        slots := Slots.store m.table.slots slot (InlineMap.payload key value) } } := by
      rw [KeyCall.onMap, InlineMap.put_of_found (h.size_key hkey) hlocate, map_pure]
    have hstore : (KeyCall.add key value record).onStore s x = pure (s, x) := by
      rw [KeyCall.onStore, find_eq hrun]
      rfl
    have hpayload : InlineMap.keyOf s.layout (InlineMap.payload key value) = s.keyAt index := by
      rw [InlineMap.keyOf_payload hkey, hkeyAt]
    have hslots := h.tables.slots.overwrite hslot (h.fits hkey value) hindex ⟨hsame.1, hpayload⟩
    have hstep : InStep ({ m with table := { m.table with
        slots := Slots.store m.table.slots slot (InlineMap.payload key value) } } : InlineMap V)
        s x S := {
      layout_eq := h.layout_eq
      width_eq := h.width_eq
      registry := h.registry
      tables := ⟨hslots, h.tables.count_eq, h.tables.limit_eq, h.tables.loadFactor_eq⟩ }
    exact .of_answers hmap (by rw [hstore]; rfl) (by rw [hstore]; rfl) hstep

theorem freshAt (h : InStep m s x S) (slot : Nat) (p : Bytes) {capacity : Nat} {rows : Rows}
    (hblock : (Rows.allocate m.backing capacity
      (InlineMap.payloadWidth V m.layout)).outcome = .ok rows) :
    (m.table.add slot p).FreshAt
      (fun capacity => Rows.allocate m.backing capacity (InlineMap.payloadWidth V m.layout))
      capacity :=
  InlineMap.freshAt_of_allocate (h.width_eq.trans (by rw [h.layout_eq])) hblock

/-- The map takes one payload more if a larger block can be had when it is needed, and the width of
its rows stays. -/
theorem withEntry (h : InStep m s x S) (hkey : key.size = s.layout.keyLen) (value : V)
    (hslot : slot < m.table.capacity) (hvacant : Slots.entryAt m.table.slots slot = none)
    (hblock : m.table.limit < m.len + 1 → ∃ rows, (Rows.allocate m.backing
      (grownCapacity m.capacity (m.len + 1) m.table.loadFactor)
      (InlineMap.payloadWidth V m.layout)).outcome = .ok rows) :
    ∃ t', (m.withEntry slot (InlineMap.payload key value)).outcome = .ok t' ∧
      t'.slots.width = InlineMap.payloadWidth V s.layout := by
  obtain ⟨t', hsettle, hsettled⟩ := Table.settle_spec
    (Table.add_tallied h.tallied hslot hvacant (h.fits hkey value)) (Nat.succ_le_succ h.count_le)
    h.count_lt (InlineMap.hashOf m.layout) (InlineMap.keyHashOf m.layout) _ .mapRehashed
    (fun hlt => by
      obtain ⟨rows, hrows⟩ := hblock hlt
      exact h.freshAt slot (InlineMap.payload key value) hrows)
    (fun _ _ => rfl)
  exact ⟨t', hsettle, (Rows.width_eq_of_fits hsettled.fits).trans h.width_eq⟩

/-- A payload and an index that go into the same slot are related in a slab with the record. -/
theorem add_tables (h : InStep m s x S) (hkey : key.size = s.layout.keyLen) (value : V)
    (hkept : s.Extends s') (hadds : s.Adds S key s')
    (hmark : s.upcoming.index ≠ Cells.vacantMark) (hslot : slot < m.table.capacity) :
    (m.table.add slot (InlineMap.payload key value)).Matches
      (s'.SameKey (Insert.insert s.upcoming.index S)) (x.table.add slot s.upcoming.index) := by
  have htables : m.table.Matches (s'.SameKey (Insert.insert s.upcoming.index S)) x.table := by
    refine h.tables.imp fun i _ p j _ _ hsame => ⟨Finset.mem_insert_of_mem hsame.1, ?_⟩
    rw [hkept.layout_eq, hsame.2, hadds.keyAt_eq j hsame.1]
  refine htables.add hslot (h.fits hkey value) hmark ⟨Finset.mem_insert_self _ _, ?_⟩
  rw [hkept.layout_eq, InlineMap.keyOf_payload hkey, hadds.keyAt_new]

/-- The new index is registered in the slot where the map puts its payload. -/
theorem insert_eq (h : InStep m s x S) (hlocate : m.locate key = .ok (.vacant slot))
    (hkept : s.Extends s') (hadds : s.Adds S key s') (hnew : ∀ i ∈ S, s.keyAt i ≠ key) :
    x.insert s' s.upcoming.index = KeyIndex.mk <$> x.withEntry s' slot s.upcoming.index := by
  have hlive := (hadds.live_iff _).mpr (Finset.mem_insert_self s.upcoming.index S)
  have hhash : s'.keyHash s.upcoming.index = .ok (s.layout.hashKey key) := by
    rw [hadds.sound.keyHash_eq hlive.hasPage, hadds.keyAt_new, hkept.layout_eq]
  -- no entry has the new key, and none is the new index
  have hagree := h.locate key (fun i => pure (i == s.upcoming.index)) fun p i hsame => by
    have hkey : InlineMap.keyOf s.layout p ≠ key := hsame.2 ▸ hnew i hsame.1
    have hindex : i ≠ s.upcoming.index := fun heq => hadds.fresh (heq ▸ hsame.1)
    rw [decide_eq_false hkey, beq_false_of_ne hindex]
    rfl
  rw [hlocate] at hagree
  obtain ⟨r, hrun, hmatches⟩ := hagree.of_ok
  cases hmatches
  exact KeyIndex.insert_of_vacant hhash hrun

/-- The map and the index grow together when the new key goes into both. -/
theorem insert_together (h : InStep m s x S) (hkey : key.size = s.layout.keyLen)
    (hlocate : m.locate key = .ok (.vacant slot)) (hslot : slot < m.table.capacity)
    (hvacant : Slots.entryAt m.table.slots slot = none) (hkept : s.Extends s')
    (hadds : s.Adds S key s') (hnew : ∀ i ∈ S, s.keyAt i ≠ key) (hindexed : s'.Indexed)
    {t' : Table Rows} {x' : KeyIndex}
    (hm : (m.withEntry slot (InlineMap.payload key value)).outcome = .ok t')
    (hx : (x.insert s' s.upcoming.index).outcome = .ok x') :
    (m.withEntry slot (InlineMap.payload key value)).rehashes =
        (x.insert s' s.upcoming.index).rehashes ∧
      InStep ({ m with table := t' } : InlineMap V) s' x'
        (Insert.insert s.upcoming.index S) := by
  have hmark : s.upcoming.index ≠ Cells.vacantMark := by
    intro heq
    have hlive := (hadds.live_iff _).mpr (Finset.mem_insert_self s.upcoming.index S)
    have hdead := hindexed.2
    rw [← heq, hadds.sound.isLive_eq, hlive] at hdead
    cases hdead
  have hregistry := h.registry.insert hkept hadds hnew hmark hx
  have hadded := h.add_tables hkey value hkept hadds hmark hslot
  have hlayout : m.layout = s'.layout := h.layout_eq.trans hkept.layout_eq.symm
  rw [h.insert_eq hlocate hkept hadds hnew] at hx ⊢
  rw [Traced.outcome_map] at hx
  obtain ⟨u', hu, rfl⟩ := map_eq_ok hx
  have hblock := Table.fresh_of_settle hm
  constructor
  · rw [Traced.rehashes_map, InlineMap.withEntry, KeyIndex.withEntry,
      Table.rehashes_settle (fun _ _ => rfl) (fun _ => Rows.rehashes_allocate _ _ _) hm,
      Table.rehashes_settle (fun _ _ => rfl) (fun _ => Traced.rehashes_pure _) hu,
      hadded.capacity_eq, hadded.count_eq, hadded.limit_eq, hadded.loadFactor_eq]
  · obtain ⟨t₁, hm₁, hwidth⟩ := h.withEntry hkey value hslot hvacant hblock
    cases hm.symm.trans hm₁
    exact {
      layout_eq := hlayout
      width_eq := hwidth.trans (by rw [hkept.layout_eq])
      registry := hregistry
      tables := by
        refine hadded.settle (fun p i hsame => ?_) (fun hlt => ?_) (fun _ => Cells.freshAt _ _)
          hm hu
        · rw [hlayout]
          exact hregistry.hash_agree hsame
        · obtain ⟨rows, hrows⟩ := hblock hlt
          exact h.freshAt slot (InlineMap.payload key value) hrows }

omit [FixedWidth V] in
/-- A record that is created for a new key is written and registered. Only the index rehashes. -/
theorem onStore_new (value : V) {created : Created} {s₁ s₂ : Slab}
    (hrun : x.table.locate (s.layout.hashKey key) (fun i => s.hasKey i key) = .ok (.vacant slot))
    (hcreate : s.create.outcome = .ok (created, s₁))
    (hwrite : s₁.writeAt created.place record = .ok s₂) :
    ((KeyCall.add key value record).onStore s x).outcome =
        Prod.mk s₂ <$> (x.insert s₂ created.index).outcome ∧
      ∀ x', (x.insert s₂ created.index).outcome = .ok x' →
        ((KeyCall.add key value record).onStore s x).rehashes =
          (x.insert s₂ created.index).rehashes := by
  have hstore : (KeyCall.add key value record).onStore s x = (do
      let (created, s) ← s.create
      let s ← s.writeAt created.place record
      pure (s, ← x.insert s created.index)) := by
    rw [KeyCall.onStore, find_eq hrun]
    rfl
  constructor
  · simp only [hstore, Traced.outcome_bind, hcreate, ok_bind, Traced.outcome_liftFault, hwrite,
      mapError_ok, map_eq_pure_bind, Traced.outcome_pure, pure_eq_ok]
  · intro x' hx
    rw [hstore, Traced.rehashes_bind_of_ok hcreate, Slab.rehashes_create]
    dsimp only
    rw [hwrite, Traced.liftFault_ok_bind, Traced.rehashes_bind_of_ok hx, Traced.rehashes_pure,
      List.nil_append, List.append_nil]

/-- A new key is put on the one side, and a record is created and registered on the other. -/
theorem add_new (h : InStep m s x S) (hkey : key.size = s.layout.keyLen)
    (hrecord : record.size ≤ s.layout.size) (hrecordKey : s.layout.keyIn record = key)
    (hrun : x.table.locate (s.layout.hashKey key) (fun i => s.hasKey i key) = .ok (.vacant slot))
    (hindex : Slots.entryAt x.table.slots slot = none) (hnew : ∀ i ∈ S, s.keyAt i ≠ key) :
    (KeyCall.add key value record).Serves m s x := by
  obtain ⟨r, hlocate, hmatches⟩ := h.locateKey hrun
  cases hmatches with
  | vacant hslot =>
    have hvacant := h.tables.slots.vacant_left hslot hindex
    have hrange := RecordLayout.range_le_of_size_keyIn h.registry.sound.valid
      (hrecordKey ▸ hkey : (s.layout.keyIn record).size = s.layout.keyLen)
    obtain ⟨s₁, s₂, hcreate, hwrite, hkept, hpage, hadds⟩ := h.registry.create hrecord hrange
    rw [hrecordKey] at hadds
    have hmap : (KeyCall.add key value record).onMap m =
        (fun t => { m with table := t }) <$> m.withEntry slot (InlineMap.payload key value) := by
      rw [KeyCall.onMap, InlineMap.put_of_vacant (h.size_key hkey) hlocate, ← comp_map]
      rfl
    obtain ⟨hstore, hquiet⟩ := onStore_new value hrun hcreate hwrite
    constructor
    · intro hroom
      obtain ⟨t', hm, -⟩ := h.withEntry hkey value hslot hvacant fun hlt =>
        ⟨_, Rows.allocate_of_le (hroom hlt)⟩
      exact ⟨_, by rw [hmap, Traced.outcome_map, hm]; rfl⟩
    · intro hmark
      obtain ⟨x', hx, -⟩ := (h.registry.exact.toBacked.extend hkept).insert hpage hmark
        h.registry.exact.len_lt
      exact ⟨s₂, x', by rw [hstore, hx]; rfl⟩
    · intro m' s' x' hm hs hindexed
      rw [hmap, Traced.outcome_map] at hm
      rw [hstore] at hs
      obtain ⟨t', ht', rfl⟩ := map_eq_ok hm
      obtain ⟨_, hx, hpair⟩ := map_eq_ok hs
      cases hpair
      obtain ⟨hrehashes, hstep⟩ := h.insert_together hkey hlocate hslot hvacant hkept
        (hadds hindexed.1) hnew hindexed ht' hx
      exact ⟨by rw [hmap, Traced.rehashes_map, hrehashes, hquiet _ hx], _, hstep⟩

theorem removeKey_eq {r : ProbeEnd UInt32}
    (hrun : x.table.locate (s.layout.hashKey key) (fun i => s.hasKey i key) = .ok r) :
    x.removeKey s key = x.takeFound s r.found? := by
  rw [KeyIndex.removeKey, KeyIndex.removeKeyHashed, KeyIndex.locateKey, hrun]
  rfl

theorem drop_vacant (h : InStep m s x S) (hkey : key.size = s.layout.keyLen)
    (hrun : x.table.locate (s.layout.hashKey key) (fun i => s.hasKey i key) =
      .ok (.vacant slot)) : (KeyCall.drop key : KeyCall V).Serves m s x := by
  obtain ⟨r, hlocate, hmatches⟩ := h.locateKey hrun
  cases hmatches with
  | vacant hslot =>
    have hmap : (KeyCall.drop key : KeyCall V).onMap m = pure m := by
      rw [KeyCall.onMap, InlineMap.remove_of_vacant (h.size_key hkey) hlocate]
      rfl
    have hstore : (KeyCall.drop key : KeyCall V).onStore s x = pure (s, x) := by
      rw [KeyCall.onStore, removeKey_eq hrun]
      rfl
    exact .of_answers hmap (by rw [hstore]; rfl) (by rw [hstore]; rfl) h

/-- A key is removed on the one side, and on the other its index is taken out and freed. -/
theorem drop_found (h : InStep m s x S) (hkey : key.size = s.layout.keyLen)
    (hrun : x.table.locate (s.layout.hashKey key) (fun i => s.hasKey i key) =
      .ok (.found slot index))
    (hprobe : x.Probed (fun i => decide (s.keyAt i = key)) (s.layout.hashKey key)
      (.found slot index)) : (KeyCall.drop key : KeyCall V).Serves m s x := by
  obtain ⟨r, hlocate, hmatches⟩ := h.locateKey hrun
  cases hmatches with
  | @found _ p _ hslot hsame =>
    obtain ⟨u', s₁, hu, hfree, hkept, hregistry, hkeys⟩ := h.registry.take hprobe
    have hagree := h.tables.take (fun p i hsame => h.registry.hash_agree hsame) slot
    rw [hu] at hagree
    obtain ⟨t', ht, htables⟩ := hagree.of_ok_right
    rw [← h.layout_eq] at ht
    have hmap : (KeyCall.drop key : KeyCall V).onMap m = pure { m with table := t' } := by
      rw [KeyCall.onMap, InlineMap.remove_of_found (h.size_key hkey) hlocate, ht]
      rfl
    have hstore : (KeyCall.drop key : KeyCall V).onStore s x =
        (fun s => (s, ⟨u'⟩)) <$> s.free index := by
      rw [KeyCall.onStore, removeKey_eq hrun, ProbeEnd.found?, KeyIndex.takeFound, hu, ok_bind,
        pure_eq_ok, Traced.liftFault_ok_bind, map_eq_pure_bind]
    have hwidth : t'.slots.width = m.table.slots.width := by
      obtain ⟨e, he, -⟩ := h.tables.slots.occupied_left hslot hprobe.2.2.1
      obtain ⟨t₁, ht₁, htaken⟩ := Table.take_spec h.tallied (InlineMap.hashOf m.layout)
        (InlineMap.keyHashOf m.layout) hslot he fun _ _ => rfl
      cases ht.symm.trans ht₁
      exact Rows.width_eq_of_fits htaken.fits
    have hstep : InStep ({ m with table := t' } : InlineMap V) s₁ ⟨u'⟩ (S.erase index) := {
      layout_eq := h.layout_eq.trans hkept.layout_eq.symm
      width_eq := hwidth.trans (h.width_eq.trans (by rw [hkept.layout_eq]))
      registry := hregistry
      tables := htables.imp fun j hj p i _ hi hsame => by
        have hmem : i ∈ S.erase index := (hregistry.exact.mem_iff i).mp
          (KeyIndex.Backed.mem_indices (htables.capacity_eq ▸ hj) hi)
        exact ⟨hmem, by rw [hkept.layout_eq, hsame.2, hkeys i hmem]⟩ }
    exact .of_answers hmap (by rw [hstore, Traced.outcome_map, hfree]; rfl)
      (by rw [hstore, Traced.rehashes_map, Slab.rehashes_free]) hstep

/-- A proper call is answered on both sides, which rehash alike and stay in step. -/
theorem perform (h : InStep m s x S) {call : KeyCall V} (hcall : call.Proper s.layout) :
    call.Serves m s x := by
  cases call with
  | add key value record =>
    obtain ⟨hkey, hrecord, hrecordKey⟩ := hcall
    obtain ⟨r, hrun, hprobe, hfind⟩ := h.registry.probeKey key
    cases r with
    | found slot index => exact h.add_found hkey hrun hprobe.2.2.1 hfind.2
    | vacant slot => exact h.add_new hkey hrecord hrecordKey hrun hprobe.2.2 hfind
  | drop key =>
    obtain ⟨r, hrun, hprobe, -⟩ := h.registry.probeKey key
    cases r with
    | found slot index => exact h.drop_found hcall hrun hprobe
    | vacant slot => exact h.drop_vacant hcall hrun

theorem isLive_iff (h : InStep m s x S) : s.isLive index = .ok true ↔ index ∈ S := by
  rw [← h.registry.live_iff, Slab.Live, h.registry.sound.isLive_eq, Except.ok.injEq]

theorem hasKey_iff (h : InStep m s x S) (hindex : index ∈ S) :
    s.hasKey index key = .ok true ↔ s.keyAt index = key := by
  have hlive := (h.registry.live_iff index).mpr hindex
  rw [h.registry.sound.hasKey_eq hlive.hasPage key, Except.ok.injEq, decide_eq_true_eq]

/-- The record of a registered index is the only one with its key. -/
theorem isRecordOf_iff (h : InStep m s x S) (hindex : index ∈ S) :
    s.IsRecordOf key index ↔ s.keyAt index = key := by
  constructor
  · rintro ⟨-, hkey, -⟩
    exact (h.hasKey_iff hindex).mp hkey
  · rintro rfl
    refine ⟨h.isLive_iff.mpr hindex, (h.hasKey_iff hindex).mpr rfl, fun other hlive hkey => ?_⟩
    have hother := h.isLive_iff.mp hlive
    exact h.registry.keyAt_inj other hother index hindex ((h.hasKey_iff hother).mp hkey)

/-- A slot of the map holds a key exactly when the slot of the index holds the record of the key. -/
theorem slot_iff (h : InStep m s x S) (hslot : slot < m.capacity) :
    (∃ p, Slots.entryAt m.table.slots slot = some p ∧ InlineMap.keyOf m.layout p = key) ↔
      ∃ index, Slots.entryAt x.table.slots slot = some index ∧ s.IsRecordOf key index := by
  rw [h.layout_eq]
  obtain ⟨he, hi⟩ | ⟨p, i, he, hi, hindex, hsame⟩ := h.tables.slots.cases hslot
  · simp only [he, hi, reduceCtorEq, false_and, exists_false]
  · simp only [he, hi, Option.some.injEq, exists_eq_left', h.isRecordOf_iff hindex, hsame]

theorem new {layout : RecordLayout} {config : TableConfig} {slabConfig : SlabConfig}
    {backing slabBacking : Backing}
    (hm : (InlineMap.new V layout config backing).outcome = .ok m)
    (hs : (Slab.new layout slabConfig slabBacking).outcome = .ok s)
    (hx : KeyIndex.new config = .ok x) (hfits : s.pageCount * s.pageCapacity ≤ 2 ^ 32) :
    InStep m s x ∅ := by
  have hlayout := Slab.new_layout hs
  have hregistry := Registry.new hs hx hfits
  obtain ⟨_, -, hm⟩ := Traced.outcome_bind_eq_ok hm
  obtain ⟨capacity, hcapacity, hm⟩ := Traced.outcome_bind_eq_ok hm
  obtain ⟨_, -, hm⟩ := Traced.outcome_bind_eq_ok hm
  obtain ⟨rows, hrows, hm⟩ := Traced.outcome_bind_eq_ok hm
  obtain ⟨_, -, hrows⟩ := Traced.outcome_bind_eq_ok hrows
  obtain ⟨capacity', hcapacity', hx⟩ := bind_eq_ok hx
  cases (Traced.outcome_liftError_eq_ok hcapacity).symm.trans hcapacity'
  cases hrows
  cases hm
  cases hx
  exact {
    layout_eq := hlayout.symm
    width_eq := by rw [hlayout]; rfl
    registry := hregistry
    tables := .ofSlots (.vacant (Cells.capacity_vacant capacity).symm
      (fun i _ => Rows.entryAt_vacant capacity _ i) fun i _ => Cells.entryAt_vacant capacity i) _ }

end InStep

/-- The maps, slabs and indexes that arise when a map and a registry are used by the same proper
calls, all of them answered. Slab indices stay below the mark of a vacant cell. -/
inductive LockStep {V : Type} [FixedWidth V] (config : TableConfig) :
    InlineMap V → Slab → KeyIndex → Prop where
  | new {layout : RecordLayout} {slabConfig : SlabConfig} {backing slabBacking : Backing}
      {m : InlineMap V} {s : Slab} {x : KeyIndex}
      (hm : (InlineMap.new V layout config backing).outcome = .ok m)
      (hs : (Slab.new layout slabConfig slabBacking).outcome = .ok s)
      (hx : KeyIndex.new config = .ok x) (hindexed : s.Indexed) : LockStep config m s x
  | call {m m' : InlineMap V} {s s' : Slab} {x x' : KeyIndex} {call : KeyCall V}
      (h : LockStep config m s x) (hcall : call.Proper s.layout)
      (hm : (call.onMap m).outcome = .ok m') (hs : (call.onStore s x).outcome = .ok (s', x'))
      (hindexed : s'.Indexed) : LockStep config m' s' x'

namespace LockStep

variable {V : Type} [FixedWidth V] {config : TableConfig} {m : InlineMap V} {s : Slab}
  {x : KeyIndex}

theorem inStep (h : LockStep config m s x) : ∃ S, InStep m s x S := by
  induction h with
  | new hm hs hx hindexed => exact ⟨∅, .new hm hs hx hindexed.1⟩
  | call h hcall hm hs hindexed ih =>
    obtain ⟨S, hin⟩ := ih
    exact ((hin.perform hcall).together _ _ _ hm hs hindexed).2

/-- A map and a key index over a slab are the same table. After any calls, they have the same
capacity and length, and a slot of the map is occupied by a key exactly when the slot of the index
holds the index of the record with that key. The next call is answered by the map when its block can
grow, and by the slab and the index when there is an index left; it makes both rehash, to the same
capacity, or neither of them. -/
theorem same_slots (h : LockStep config m s x) :
    m.capacity = x.capacity ∧ m.len = x.len ∧
    (∀ slot < m.capacity, ∀ key,
      (∃ p, Slots.entryAt m.table.slots slot = some p ∧ InlineMap.keyOf m.layout p = key) ↔
      ∃ index, Slots.entryAt x.table.slots slot = some index ∧ s.IsRecordOf key index) ∧
    ∀ call : KeyCall V, call.Proper s.layout →
      (m.HasRoom → ∃ m', (call.onMap m).outcome = .ok m') ∧
      (s.cursorIndex ≠ Cells.vacantMark →
        ∃ s' x', (call.onStore s x).outcome = .ok (s', x')) ∧
      ∀ m' s' x', (call.onMap m).outcome = .ok m' →
        (call.onStore s x).outcome = .ok (s', x') → s'.Indexed →
        (call.onMap m).rehashes = (call.onStore s x).rehashes ∧ LockStep config m' s' x' := by
  obtain ⟨S, hin⟩ := h.inStep
  refine ⟨hin.tables.capacity_eq, hin.tables.count_eq, fun slot hslot key => hin.slot_iff hslot,
    fun call hcall => ?_⟩
  obtain ⟨hmap, hstore, htogether⟩ := hin.perform hcall
  refine ⟨hmap, hstore, fun m' s' x' hm hs hindexed => ?_⟩
  exact ⟨(htogether m' s' x' hm hs hindexed).1, h.call hcall hm hs hindexed⟩

/-- With one key in two slots, a second key makes both tables rehash to four. -/
theorem same_slots_grown : ∃ (call : KeyCall Int16) (m m' : InlineMap Int16) (s s' : Slab)
    (x x' : KeyIndex), LockStep { initialCapacity := 2 } m s x ∧
    (m.capacity = 2 ∧ x.capacity = 2 ∧ m.len = 1 ∧ x.len = 1) ∧
    (∀ slot < 2, ∀ key,
      (∃ p, Slots.entryAt m.table.slots slot = some p ∧ InlineMap.keyOf m.layout p = key) ↔
      ∃ index, Slots.entryAt x.table.slots slot = some index ∧ s.IsRecordOf key index) ∧
    (call.Proper s.layout ∧ m.HasRoom ∧ s.cursorIndex ≠ Cells.vacantMark) ∧
    (call.onMap m).outcome = .ok m' ∧ (call.onStore s x).outcome = .ok (s', x') ∧ s'.Indexed ∧
    (call.onMap m).rehashes = [(4, 2)] ∧ (call.onStore s x).rehashes = [(4, 2)] ∧
    LockStep { initialCapacity := 2 } m' s' x' := by
  obtain ⟨m₀, s₀, x₀, call, hm, hs, hx, hindexed, hrun⟩ :
      ∃ (m₀ : InlineMap Int16) (s₀ : Slab) (x₀ : KeyIndex) (call : KeyCall Int16),
        (InlineMap.new Int16 { size := 4 } { initialCapacity := 2 } .heap).outcome = .ok m₀ ∧
        (Slab.new { size := 4 } { pageSize := 2, initialPages := 1 } .heap).outcome = .ok s₀ ∧
        KeyIndex.new { initialCapacity := 2 } = .ok x₀ ∧ s₀.Indexed ∧
        (((KeyCall.add #[1, 0, 0, 0] 7 #[1, 0, 0, 0]).onBoth (m₀, s₀, x₀)).map fun (m, s, x) =>
          decide (m.capacity = 2 ∧ x.len = 1 ∧ m.HasRoom ∧ s.cursorIndex ≠ Cells.vacantMark ∧
            (call.onMap m).rehashes = [(4, 2)] ∧ (call.onBoth (m, s, x)).isSome)) = some true :=
    ⟨_, _, _, .add #[2, 0, 0, 0] 8 #[2, 0, 0, 0], rfl, rfl, rfl, by decide, by decide +kernel⟩
  obtain ⟨⟨m, s, x⟩, hfirst, hfacts⟩ := Option.map_eq_some_iff.mp hrun
  obtain ⟨hcapacity, hlen, hroom, hcursor, hgrown, hsecond⟩ := of_decide_eq_true hfacts
  obtain ⟨hproper, hm₁, hs₁, hindexed₁⟩ := KeyCall.onBoth_eq_some hfirst
  have hstep := (LockStep.new hm hs hx hindexed).call hproper hm₁ hs₁ hindexed₁
  obtain ⟨⟨m', s', x'⟩, hsecond⟩ := Option.isSome_iff_exists.mp hsecond
  obtain ⟨hcall, hm', hs', hindexed'⟩ := KeyCall.onBoth_eq_some hsecond
  obtain ⟨hcapacities, hlens, hslots, hcalls⟩ := same_slots hstep
  obtain ⟨-, -, htogether⟩ := hcalls call hcall
  obtain ⟨hrehashes, hstep'⟩ := htogether m' s' x' hm' hs' hindexed'
  exact ⟨call, m, m', s, s', x, x', hstep,
    ⟨hcapacity, hcapacities ▸ hcapacity, hlens.trans hlen, hlen⟩,
    fun slot hslot => hslots slot (hcapacity ▸ hslot), ⟨hcall, hroom, hcursor⟩, hm', hs',
    hindexed', hgrown, hrehashes ▸ hgrown, hstep'⟩

end LockStep

end RecordArena
