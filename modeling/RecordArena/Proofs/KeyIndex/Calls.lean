import RecordArena.KeyIndex.Basic
import RecordArena.Proofs.Probing.Table
import RecordArena.Proofs.Slab.Shape

/-!
# Calls of a key index

What a call of a key index does when the pages of all registered indices are there. The keys that
the records hold may be any: `KeyIndex.Backed` says nothing of the order of the table, and a probe
may end at a vacant slot although a matching index is registered.

Every call comes down to one of few requests, once the keys and hashes it needs are read.
`IndexRequest.Does` says all that a request can do.

## Main definitions

* `IndexCall`, `IndexAnswer`, `IndexCall.perform` – the calls, with the answers of the index.
* `IndexRequest.Does` – what an answered request did.

## Main statements

* `KeyIndex.Backed.perform` – an admissible call is answered, and the index stays backed.
-/

namespace RecordArena

namespace Cells

theorem capacity_vacant (capacity : Nat) : Slots.capacity (Cells.vacant capacity) = capacity :=
  Array.size_replicate

theorem entryAt_vacant (capacity slot : Nat) :
    Slots.entryAt (Cells.vacant capacity) slot = none := by
  change ((Array.replicate capacity vacantMark)[slot]?).filter (· ≠ vacantMark) = none
  rw [Array.getElem?_replicate]
  split
  · rfl
  · rfl

/-- Vacant cells can always be had. -/
theorem freshAt (t : Table Cells) (capacity : Nat) :
    t.FreshAt (fun capacity => pure (Cells.vacant capacity)) capacity :=
  ⟨Cells.vacant capacity, rfl, capacity_vacant capacity, fun i _ => entryAt_vacant capacity i,
    fun _ => .rfl⟩

end Cells

/-- One call of a key index. -/
inductive IndexCall where
  | insert (index : UInt32)
  | find (key : Bytes)
  | findHashed (key : Bytes) (hash : Int32)
  | findRecord (view : Bytes)
  | removeKey (key : Bytes)
  | removeKeyHashed (key : Bytes) (hash : Int32)
  | removeKeyOf (view : Bytes)
  | removeIndex (index : UInt32)
  | removeIndexAs (index : UInt32) (view : Bytes)
  deriving DecidableEq

inductive IndexAnswer where
  | done
  /-- The index that was found or removed. -/
  | index (index : Option UInt32)
  | flag (removed : Bool)
  deriving DecidableEq

def IndexCall.perform (x : KeyIndex) (s : Slab) :
    IndexCall → Except Failure (IndexAnswer × KeyIndex)
  | insert index => do pure (.done, ← (x.insert s index).outcome)
  | find key => do pure (.index (← x.find s key), x)
  | findHashed key hash => do pure (.index (← x.findHashed s key hash), x)
  | findRecord view => do pure (.index (← x.findRecord s view), x)
  | removeKey key => do
    let (index, x) ← x.removeKey s key
    pure (.index index, x)
  | removeKeyHashed key hash => do
    let (index, x) ← x.removeKeyHashed s key hash
    pure (.index index, x)
  | removeKeyOf view => do
    let (index, x) ← x.removeKeyOf s view
    pure (.index index, x)
  | removeIndex index => do
    let (removed, x) ← x.removeIndex s index
    pure (.flag removed, x)
  | removeIndexAs index view => do
    let (removed, x) ← x.removeIndexAs s index view
    pure (.flag removed, x)

/-- The hash of the key that the record at an index has. -/
def Slab.hashAt (s : Slab) (index : UInt32) : Int32 := s.layout.hashKey (s.keyAt index)

/-- What a call comes down to. -/
inductive IndexRequest where
  | insert (index : UInt32)
  | find (key : Bytes) (hash : Int32)
  | removeKey (key : Bytes) (hash : Int32)
  | removeIndex (index : UInt32) (hash : Int32)
  /-- The view of the call is too short to have a key. -/
  | keyless (answer : IndexAnswer)

def IndexCall.request (s : Slab) : IndexCall → IndexRequest
  | insert index => .insert index
  | find key => .find key (s.layout.hashKey key)
  | findHashed key hash => .find key hash
  | findRecord view =>
    if view.size < s.layout.size then .keyless (.index none)
    else .find (s.layout.keyIn view) (s.layout.hashKey (s.layout.keyIn view))
  | removeKey key => .removeKey key (s.layout.hashKey key)
  | removeKeyHashed key hash => .removeKey key hash
  | removeKeyOf view =>
    if view.size < s.layout.size then .keyless (.index none)
    else .removeKey (s.layout.keyIn view) (s.layout.hashKey (s.layout.keyIn view))
  | removeIndex index => .removeIndex index (s.hashAt index)
  | removeIndexAs index view =>
    if view.size < s.layout.size then .keyless (.flag false)
    else .removeIndex index (s.layout.hashKey (s.layout.keyIn view))

namespace KeyIndex

/-- The table of an index with one entry more, grown when that passes its limit. -/
def withEntry (x : KeyIndex) (s : Slab) (slot : Nat) (index : UInt32) : Traced (Table Cells) :=
  (x.table.add slot index).settle s.keyHash (fun capacity => pure (Cells.vacant capacity))
    .indexRehashed

theorem insert_of_found {s : Slab} {x : KeyIndex} {index e : UInt32} {hash : Int32} {slot : Nat}
    (hhash : s.keyHash index = .ok hash)
    (h : x.table.locate hash (fun i => pure (i == index)) = .ok (.found slot e)) :
    x.insert s index = pure x := by
  rw [insert, hhash, Traced.liftFault_ok_bind, h, Traced.liftFault_ok_bind]

theorem insert_of_vacant {s : Slab} {x : KeyIndex} {index : UInt32} {hash : Int32} {slot : Nat}
    (hhash : s.keyHash index = .ok hash)
    (h : x.table.locate hash (fun i => pure (i == index)) = .ok (.vacant slot)) :
    x.insert s index = mk <$> x.withEntry s slot index := by
  rw [insert, hhash, Traced.liftFault_ok_bind, h, Traced.liftFault_ok_bind, map_eq_pure_bind,
    withEntry]

/-- The indices in the table, in the order of their slots. -/
def indices (x : KeyIndex) : List UInt32 := Slots.entries x.table.slots

/-- A table of indices whose pages are there. -/
structure Backed (s : Slab) (x : KeyIndex) : Prop where
  shaped : s.Shaped
  tallied : x.table.Tallied
  count_le : x.table.count ≤ x.table.limit
  hasPage : ∀ index ∈ x.indices, s.HasPage index

/-- A probe from `hash` for the indices that match has ended at `r`. -/
def Probed (x : KeyIndex) (isMatch : UInt32 → Bool) (hash : Int32) (r : ProbeEnd UInt32) : Prop :=
  r.EndsProbe (Slots.entryAt x.table.slots) x.table.capacity isMatch
    (homeSlot x.table.capacity hash)

/-- An index is found by itself, and an index with its key is found by the key. -/
def Findable (s : Slab) (x : KeyIndex) (index : UInt32) : Prop :=
  (∃ slot, x.locateIndex index (s.hashAt index) = .ok (some (slot, index))) ∧
  ∃ other, x.find s (s.keyAt index) = .ok (some other) ∧ s.keyAt other = s.keyAt index

/-- What registering an index leaves. -/
inductive Inserted (s : Slab) (x : KeyIndex) (index : UInt32) : KeyIndex → Prop where
  | present (hmeets : x.table.Meets s.hashAt index) : Inserted s x index x
  /-- It was put where the probe for it ended. -/
  | added {slot : Nat} {t' : Table Cells}
      (hprobe : x.Probed (· == index) (s.hashAt index) (.vacant slot))
      (hmark : index ≠ Cells.vacantMark)
      (hsettled : Table.Settled (x.table.add slot index) s.hashAt t') : Inserted s x index ⟨t'⟩

/-- What removing what a probe ended at leaves. -/
inductive Removed (s : Slab) (x : KeyIndex) : ProbeEnd UInt32 → KeyIndex → Prop where
  | vacant (slot : Nat) : Removed s x (.vacant slot) x
  | found {slot : Nat} {index : UInt32} {t' : Table Cells} (hslot : slot < x.table.capacity)
      (htaken : Table.Taken x.table s.hashAt slot index t') : Removed s x (.found slot index) ⟨t'⟩

end KeyIndex

def ProbeEnd.index? (r : ProbeEnd UInt32) : Option UInt32 := r.found?.map Prod.snd

/-- What an answered request did. -/
inductive IndexRequest.Does (s : Slab) (x : KeyIndex) :
    IndexRequest → IndexAnswer → KeyIndex → Prop where
  | insert {index : UInt32} {x' : KeyIndex} (h : x.Inserted s index x') :
      Does s x (.insert index) .done x'
  | find {key : Bytes} {hash : Int32} {r : ProbeEnd UInt32}
      (hprobe : x.Probed (fun i => decide (s.keyAt i = key)) hash r) :
      Does s x (.find key hash) (.index r.index?) x
  | removeKey {key : Bytes} {hash : Int32} {r : ProbeEnd UInt32} {x' : KeyIndex}
      (hfind : x.findHashed s key hash = .ok r.index?)
      (hprobe : x.Probed (fun i => decide (s.keyAt i = key)) hash r) (h : x.Removed s r x') :
      Does s x (.removeKey key hash) (.index r.index?) x'
  | removeIndex {index : UInt32} {hash : Int32} {r : ProbeEnd UInt32} {x' : KeyIndex}
      (hlocate : x.locateIndex index hash = .ok r.found?)
      (hprobe : x.Probed (· == index) hash r) (h : x.Removed s r x') :
      Does s x (.removeIndex index hash) (.flag r.index?.isSome) x'
  | keyless (answer : IndexAnswer) : Does s x (.keyless answer) answer x

/-- The page of an index that a call reads is there, an index that it inserts is no vacancy mark,
and the length of the index has room for one more in its 64 bits. -/
def IndexCall.Admissible (s : Slab) (x : KeyIndex) : IndexCall → Prop
  | insert index => s.HasPage index ∧ index ≠ Cells.vacantMark ∧ x.len < Numeric.maxCount
  | removeIndex index => s.HasPage index
  | _ => True

namespace KeyIndex.Backed

variable {s : Slab} {x : KeyIndex}

theorem mem_indices {slot : Nat} {index : UInt32} (hslot : slot < x.table.capacity)
    (h : Slots.entryAt x.table.slots slot = some index) : index ∈ x.indices :=
  Slots.mem_entries.mpr ⟨slot, hslot, h⟩

theorem probeKey (h : Backed s x) (key : Bytes) (hash : Int32) :
    ∃ r, x.table.locate hash (fun i => s.hasKey i key) = .ok r ∧
      x.Probed (fun i => decide (s.keyAt i = key)) hash r :=
  Table.locate_spec h.tallied h.count_le hash _ _
    fun i hi => h.shaped.hasKey_eq (h.hasPage i hi) key

theorem probeIndex (h : Backed s x) (index : UInt32) (hash : Int32) :
    ∃ r, x.table.locate hash (fun i => pure (i == index)) = .ok r ∧
      x.Probed (· == index) hash r :=
  Table.locate_spec h.tallied h.count_le hash _ _ fun _ _ => rfl

theorem locateKey (h : Backed s x) (key : Bytes) (hash : Int32) :
    ∃ r, x.locateKey s key hash = .ok r.found? ∧
      x.Probed (fun i => decide (s.keyAt i = key)) hash r := by
  obtain ⟨r, hrun, hend⟩ := h.probeKey key hash
  exact ⟨r, by rw [KeyIndex.locateKey, hrun]; rfl, hend⟩

theorem locateIndex (h : Backed s x) (index : UInt32) (hash : Int32) :
    ∃ r, x.locateIndex index hash = .ok r.found? ∧ x.Probed (· == index) hash r := by
  obtain ⟨r, hrun, hend⟩ := h.probeIndex index hash
  exact ⟨r, by rw [KeyIndex.locateIndex, hrun]; rfl, hend⟩

/-- What the probe path of an index leads to is found, whether or not the others are reached. -/
theorem findable (h : Backed s x) {index : UInt32} (hmeets : x.table.Meets s.hashAt index) :
    x.Findable s index := by
  obtain ⟨slot, hslot, hentry, hpath⟩ := hmeets
  have hhome : x.table.homes s.hashAt index < x.table.capacity := h.tallied.homes_lt _ _
  constructor
  · obtain ⟨r, hrun, hprobe⟩ := h.locateIndex index (s.hashAt index)
    cases r with
    | vacant end' =>
      have hno := hprobe.no_match_of_unbroken hhome hslot hentry hpath
      rw [beq_self_eq_true] at hno
      cases hno
    | found end' i =>
      obtain rfl : i = index := eq_of_beq hprobe.2.2.2
      exact ⟨end', hrun⟩
  · obtain ⟨r, hrun, hprobe⟩ := h.locateKey (s.keyAt index) (s.hashAt index)
    cases r with
    | vacant end' =>
      have hno := hprobe.no_match_of_unbroken hhome hslot hentry hpath
      exact (of_decide_eq_false hno rfl).elim
    | found end' i =>
      rw [Slab.hashAt] at hrun
      refine ⟨i, ?_, of_decide_eq_true hprobe.2.2.2⟩
      rw [KeyIndex.find, KeyIndex.findHashed, hrun]
      rfl

/-- What a probe ended at can be removed, whether or not the others are reached. -/
theorem takeFound (h : Backed s x) {isMatch : UInt32 → Bool} {hash : Int32}
    {r : ProbeEnd UInt32} (hprobe : x.Probed isMatch hash r) :
    ∃ x', x.takeFound s r.found? = .ok (r.index?, x') ∧ x.Removed s r x' ∧ Backed s x' := by
  cases r with
  | vacant slot => exact ⟨x, rfl, .vacant slot, h⟩
  | found slot index =>
    have hslot : slot < x.table.capacity := hprobe.1
    -- the hashes of the others can be read because their pages are there
    obtain ⟨t', htake, htaken⟩ := Table.take_spec h.tallied s.keyHash s.hashAt hslot hprobe.2.2.1
      (by
        intro i hi
        have hmem : i ∈ x.indices :=
          (Arrangement.entries_clear hslot hprobe.2.2.1).mem_iff.mpr (List.mem_cons_of_mem _ hi)
        exact h.shaped.keyHash_eq (h.hasPage i hmem))
    refine ⟨⟨t'⟩, ?_, .found hslot htaken, ?_⟩
    · rw [KeyIndex.takeFound.eq_def]
      simp [ProbeEnd.found?, ProbeEnd.index?, htake]
    · have hle := h.count_le
      exact {
        shaped := h.shaped
        tallied := htaken.tallied
        count_le := by rw [htaken.count_eq, htaken.limit_eq]; omega
        hasPage := fun i hi =>
          h.hasPage i (htaken.entries_perm.mem_iff.mpr (List.mem_cons_of_mem _ hi)) }

theorem insert (h : Backed s x) {index : UInt32} (hpage : s.HasPage index)
    (hmark : index ≠ Cells.vacantMark) (hlen : x.len < Numeric.maxCount) :
    ∃ x', (x.insert s index).outcome = .ok x' ∧ x.Inserted s index x' ∧ Backed s x' := by
  obtain ⟨r, hrun, hend⟩ := h.probeIndex index (s.hashAt index)
  have hhash := h.shaped.keyHash_eq hpage
  cases r with
  | found slot e =>
    obtain rfl : e = index := eq_of_beq hend.2.2.2
    refine ⟨x, ?_, .present ⟨slot, hend.1, hend.2.2.1, hend.unbroken⟩, h⟩
    rw [insert_of_found hhash hrun]
    rfl
  | vacant slot =>
    have hslot : slot < x.table.capacity := hend.1
    have hadded := Table.add_tallied h.tallied hslot hend.2.2 hmark
    have hperm : (Slots.entries (x.table.add slot index).slots).Perm (index :: x.indices) :=
      Table.entries_add hslot hend.2.2 hmark
    have hpages : ∀ i ∈ Slots.entries (x.table.add slot index).slots, s.HasPage i := by
      intro i hi
      rcases List.mem_cons.mp (hperm.mem_iff.mp hi) with rfl | hmem
      · exact hpage
      · exact h.hasPage i hmem
    obtain ⟨t', hsettle, hsettled⟩ := Table.settle_spec hadded (Nat.succ_le_succ h.count_le) hlen
      s.keyHash s.hashAt (fun capacity => pure (Cells.vacant capacity)) .indexRehashed
      (fun _ => Cells.freshAt _ _)
      (fun i hi => h.shaped.keyHash_eq (hpages i hi))
    refine ⟨⟨t'⟩, ?_, .added hend hmark hsettled, ?_⟩
    · rw [insert_of_vacant hhash hrun, Traced.outcome_map, withEntry, hsettle]
      rfl
    · exact {
        shaped := h.shaped
        tallied := hsettled.tallied
        count_le := hsettled.count_le
        hasPage := fun i hi => hpages i (hsettled.entries_perm.mem_iff.mp hi) }

theorem findHashed (h : Backed s x) (key : Bytes) (hash : Int32) :
    ∃ r, x.findHashed s key hash = .ok r ∧
      (IndexRequest.find key hash).Does s x (.index r) x := by
  obtain ⟨r, hrun, hprobe⟩ := h.locateKey key hash
  exact ⟨r.index?, by rw [KeyIndex.findHashed, hrun]; rfl, .find hprobe⟩

theorem removeKeyHashed (h : Backed s x) (key : Bytes) (hash : Int32) :
    ∃ r x', x.removeKeyHashed s key hash = .ok (r, x') ∧
      (IndexRequest.removeKey key hash).Does s x (.index r) x' ∧ Backed s x' := by
  obtain ⟨r, hrun, hprobe⟩ := h.locateKey key hash
  obtain ⟨x', htake, hremoved, h'⟩ := h.takeFound hprobe
  refine ⟨r.index?, x', ?_, .removeKey (by rw [KeyIndex.findHashed, hrun]; rfl) hprobe hremoved, h'⟩
  rw [KeyIndex.removeKeyHashed, hrun, ok_bind, htake]

theorem removeIndexHashed (h : Backed s x) (index : UInt32) (hash : Int32) :
    ∃ r x', x.removeIndexHashed s index hash = .ok (r, x') ∧
      (IndexRequest.removeIndex index hash).Does s x (.flag r) x' ∧ Backed s x' := by
  obtain ⟨r, hrun, hprobe⟩ := h.locateIndex index hash
  obtain ⟨x', htake, hremoved, h'⟩ := h.takeFound hprobe
  refine ⟨r.index?.isSome, x', ?_, .removeIndex hrun hprobe hremoved, h'⟩
  rw [KeyIndex.removeIndexHashed, hrun, ok_bind, htake]
  rfl

/-- An admissible call is answered. -/
theorem perform (h : Backed s x) {call : IndexCall} (hcall : call.Admissible s x) :
    ∃ answer x', call.perform x s = .ok (answer, x') ∧
      (call.request s).Does s x answer x' ∧ Backed s x' := by
  cases call with
  | insert index =>
    obtain ⟨x', hrun, hinserted, h'⟩ := h.insert hcall.1 hcall.2.1 hcall.2.2
    exact ⟨.done, x', by rw [IndexCall.perform, hrun]; rfl, .insert hinserted, h'⟩
  | find key =>
    obtain ⟨r, hrun, hdoes⟩ := h.findHashed key (s.layout.hashKey key)
    exact ⟨.index r, x, by rw [IndexCall.perform, find, hrun]; rfl, hdoes, h⟩
  | findHashed key hash =>
    obtain ⟨r, hrun, hdoes⟩ := h.findHashed key hash
    exact ⟨.index r, x, by rw [IndexCall.perform, hrun]; rfl, hdoes, h⟩
  | findRecord view =>
    rw [IndexCall.request, IndexCall.perform, findRecord, RecordLayout.key?_eq h.shaped.valid]
    split
    · exact ⟨.index none, x, rfl, .keyless _, h⟩
    · obtain ⟨r, hrun, hdoes⟩ :=
        h.findHashed (s.layout.keyIn view) (s.layout.hashKey (s.layout.keyIn view))
      exact ⟨.index r, x, by simp [find, hrun], hdoes, h⟩
  | removeKey key =>
    obtain ⟨r, x', hrun, hdoes, h'⟩ := h.removeKeyHashed key (s.layout.hashKey key)
    exact ⟨.index r, x', by rw [IndexCall.perform, removeKey, hrun]; rfl, hdoes, h'⟩
  | removeKeyHashed key hash =>
    obtain ⟨r, x', hrun, hdoes, h'⟩ := h.removeKeyHashed key hash
    exact ⟨.index r, x', by rw [IndexCall.perform, hrun]; rfl, hdoes, h'⟩
  | removeKeyOf view =>
    rw [IndexCall.request, IndexCall.perform, removeKeyOf, RecordLayout.key?_eq h.shaped.valid]
    split
    · exact ⟨.index none, x, rfl, .keyless _, h⟩
    · obtain ⟨r, x', hrun, hdoes, h'⟩ :=
        h.removeKeyHashed (s.layout.keyIn view) (s.layout.hashKey (s.layout.keyIn view))
      exact ⟨.index r, x', by simp [removeKey, hrun], hdoes, h'⟩
  | removeIndex index =>
    obtain ⟨r, x', hrun, hdoes, h'⟩ := h.removeIndexHashed index (s.hashAt index)
    refine ⟨.flag r, x', ?_, hdoes, h'⟩
    rw [Slab.hashAt] at hrun
    simp [IndexCall.perform, removeIndex, h.shaped.keyHash_eq hcall, hrun]
  | removeIndexAs index view =>
    rw [IndexCall.request, IndexCall.perform, removeIndexAs, RecordLayout.key?_eq h.shaped.valid]
    split
    · exact ⟨.flag false, x, rfl, .keyless _, h⟩
    · obtain ⟨r, x', hrun, hdoes, h'⟩ :=
        h.removeIndexHashed index (s.layout.hashKey (s.layout.keyIn view))
      exact ⟨.flag r, x', by simp [hrun], hdoes, h'⟩

/-- Creating, writing and freeing records takes no page away. -/
theorem extend {s' : Slab} (h : Backed s x) (hs : s.Extends s') : Backed s' x where
  shaped := hs.shaped h.shaped
  tallied := h.tallied
  count_le := h.count_le
  hasPage index hindex := hs.hasPage (h.hasPage index hindex)

theorem new {config : TableConfig} (hs : s.Shaped) (h : KeyIndex.new config = .ok x) :
    Backed s x ∧ x.indices = [] ∧ x.table.loadFactor = config.loadFactor := by
  obtain ⟨capacity, hcapacity, h⟩ := bind_eq_ok h
  cases h
  obtain ⟨hfactor, k, -, hk⟩ := TableConfig.capacity_eq_ok hcapacity
  have hvacant : ∀ i, Slots.entryAt (Cells.vacant capacity) i = none :=
    Cells.entryAt_vacant capacity
  let x : KeyIndex := ⟨Table.ofSlots (Cells.vacant capacity) config.loadFactor⟩
  have hindices : x.indices = [] := Arrangement.entries_vacant fun i _ => hvacant i
  refine ⟨?_, hindices, rfl⟩
  exact {
    shaped := hs
    tallied := .ofSlots ((Cells.capacity_vacant capacity).trans hk) hfactor fun i _ => hvacant i
    count_le := Nat.zero_le _
    hasPage := fun i hi => absurd (hindices ▸ hi : i ∈ []) List.not_mem_nil }

end KeyIndex.Backed

end RecordArena
