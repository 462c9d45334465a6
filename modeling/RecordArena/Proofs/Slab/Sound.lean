import RecordArena.Proofs.Slab.Addressing
import RecordArena.Proofs.Slab.Pages

/-!
# Sound slabs

`Slab.Sound` is the invariant of a slab whose pages are filled by its cursor: the slots from the
cursor on are vacant, and all places have indices. On sound slabs an index that is created was not
live, and creating, writing and freeing touch the record of their own index and no other live one.

## Main definitions

* `Slab.Live`, `Slab.bytesOf` – the flag and the bytes of an index.
* `Slab.Sound` – the invariant.

## Main statements

* `Slab.Sound.create`, `Slab.Sound.write`, `Slab.Sound.free` – what the operations do to the flags
  and the bytes of all indices.
* `Slab.Sound.new` – a fresh slab is sound and has no live record.
-/

namespace RecordArena

theorem Backing.pageBlock_le (backing : Backing) :
    maxPageSlots * (maxRecordSize + 1) ≤ backing.limit := by
  cases backing with
  | heap => decide
  | mapped limit => exact limit.pageBlock_le

namespace PageTable

variable {t : PageTable} {c : Cursor}

theorem block_le (hslots : ∃ k ≤ 15, t.slots = 2 ^ k) (hsize : t.recordSize ≤ maxRecordSize) :
    t.slots * (t.recordSize + 1) ≤ t.backing.limit := by
  obtain ⟨k, hk, hslots⟩ := hslots
  have hcount : t.slots ≤ maxPageSlots := hslots ▸ Nat.pow_le_pow_right (by omega) hk
  calc t.slots * (t.recordSize + 1)
      ≤ maxPageSlots * (maxRecordSize + 1) := Nat.mul_le_mul hcount (Nat.succ_le_succ hsize)
    _ ≤ t.backing.limit := t.backing.pageBlock_le

/-- Stepping past a place that has just been occupied. The page that is left behind has a live
record and is not queued. -/
theorem Ordered.advance (h : t.Ordered (some c.place.page))
    (hblock : t.slots * (t.recordSize + 1) ≤ t.backing.limit) (hslots : c.slots = t.slots)
    (hslot : c.place.slot < t.slots) (hocc : t.occupiedAt c.place = true)
    (hvacant : ∀ slot, c.place.slot < slot → slot < t.slots →
      t.occupiedAt ⟨c.place.page, slot⟩ = false) :
    ∃ c' t', (c.advance t).outcome = .ok (c', t') ∧ c'.slots = c.slots ∧ c'.shift = c.shift ∧
      c'.place.slot < t.slots ∧
      (∀ place, t'.occupiedAt place = t.occupiedAt place ∧
        (t.occupiedAt place = true → t'.bytesAt place = t.bytesAt place)) ∧
      (t'.pages.size ≤ 2 ^ 32 → t'.Ordered (some c'.place.page) ∧
        ∀ slot, c'.place.slot ≤ slot → slot < t.slots →
          t'.occupiedAt ⟨c'.place.page, slot⟩ = false) := by
  by_cases hnext : c.place.slot + 1 < t.slots
  · refine ⟨{ c with place := ⟨c.place.page, c.place.slot + 1⟩ }, t, ?_, rfl, rfl, hnext,
      fun place => ⟨rfl, fun _ => rfl⟩, fun _ => ⟨h, fun slot hge hlt => hvacant slot hge hlt⟩⟩
    rw [Cursor.advance, if_pos (hslots ▸ hnext)]
    rfl
  · obtain ⟨p, t', hfree, hkept, hframe, hfilled⟩ := h.nextFree hblock
    obtain ⟨page, hpage⟩ : ∃ page, t.pages[c.place.page.toNat]? = some page :=
      ⟨_, Array.getElem?_eq_getElem (h.current_lt _ rfl)⟩
    have hlive := h.live_ne_zero hpage hslot hocc
    refine ⟨{ c with place := ⟨p, 0⟩ }, t', ?_, rfl, rfl, Nat.zero_lt_of_lt hslot, hframe,
      fun hfits => ⟨(hfilled hfits).1, fun slot _ => (hfilled hfits).2 slot⟩⟩
    rw [Cursor.advance, if_neg (hslots ▸ hnext)]
    simp [hfree, page_eq (hkept _ page hpage), hlive]

theorem Ordered.empty {initial slots recordSize : Nat} {resetOnFree : Bool} {backing : Backing}
    (h : PageTable.empty initial slots recordSize resetOnFree backing = .ok t) :
    t.Ordered none ∧ ∀ place, t.occupiedAt place = false := by
  cases empty_eq_ok h
  refine ⟨?_, fun place => rfl⟩
  exact {
    shaped := fun page hpage => absurd hpage (Array.not_mem_empty page)
    counted := fun i page hpage => by cases hpage
    current_lt := fun p hp => by cases hp
    free_nodup := List.nodup_nil
    free_empty := fun p hp => absurd hp List.not_mem_nil }

/-- Pages that are generated one after the other all wait, and nothing in them is occupied. -/
theorem Ordered.generateMany {n : Nat} {t' : PageTable} (h : t.Ordered none)
    (hslots : ∃ k ≤ 15, t.slots = 2 ^ k) (hsize : t.recordSize ≤ maxRecordSize)
    (hrun : (PageTable.generateMany n t).outcome = .ok t') (hfits : t'.pages.size ≤ 2 ^ 32) :
    t'.Ordered none ∧ ∀ place, t'.occupiedAt place = t.occupiedAt place := by
  induction n generalizing t with
  | zero =>
    cases hrun
    exact ⟨h, fun place => rfl⟩
  | succ n ih =>
    obtain ⟨⟨q, t₁⟩, hgenerate, hrun⟩ := Traced.outcome_bind_eq_ok hrun
    obtain ⟨p, t₂, hgenerate', hextends, hframe, hordered⟩ := h.generate (block_le hslots hsize)
    cases hgenerate.symm.trans hgenerate'
    have hle : t₁.pages.size ≤ t'.pages.size := (generateMany_extends hrun).size_le
    obtain ⟨hordered', hframe'⟩ := ih (hordered (hle.trans hfits)) (hextends.slots_eq ▸ hslots)
      (hextends.recordSize_eq ▸ hsize) hrun
    exact ⟨hordered', fun place => (hframe' place).trans (hframe place)⟩

end PageTable

namespace Slab

def Live (s : Slab) (index : UInt32) : Prop := s.pages.occupiedAt (s.place index) = true

/-- The bytes of the record at an index, live or not. -/
def bytesOf (s : Slab) (index : UInt32) : Bytes := s.pages.bytesAt (s.place index)

/-- A slab that is filled by its cursor. -/
structure Sound (s : Slab) : Prop extends s.Shaped where
  ordered : s.pages.Ordered (some s.cursor.place.page)
  cursor_slots : s.cursor.slots = s.pages.slots
  cursor_shift : s.cursor.shift = s.addressing.shift
  cursor_lt : s.cursor.place.slot < s.pages.slots
  cursor_vacant : ∀ slot, s.cursor.place.slot ≤ slot → slot < s.pages.slots →
    s.pages.occupiedAt ⟨s.cursor.place.page, slot⟩ = false
  fits : s.pageCount * s.pageCapacity ≤ 2 ^ 32

variable {s : Slab} {index : UInt32}

namespace Shaped

theorem pageCapacity_eq (hs : s.Shaped) : s.pageCapacity = s.pages.slots := by
  obtain ⟨k, hk, hslots⟩ := hs.slots_eq
  rw [pageCapacity, hs.addressing_eq, hslots, Addressing.slots_ofSlots (by omega)]

theorem size_le (hs : s.Shaped) (hfits : s.pageCount * s.pageCapacity ≤ 2 ^ 32) :
    s.pages.pages.size ≤ 2 ^ 32 := by
  obtain ⟨k, hk, hslots⟩ := hs.slots_eq
  rw [hs.pageCapacity_eq, hslots] at hfits
  exact (Nat.le_mul_of_pos_right _ (Nat.two_pow_pos k)).trans hfits

/-- The pages that a slab began with are as large as those that it has, and can be allocated. -/
theorem block_le_of_extends (hs : s.Shaped) {t : PageTable} (h : t.Extends s.pages) :
    t.slots * (t.recordSize + 1) ≤ t.backing.limit := by
  obtain ⟨-, hsize, -⟩ := RecordLayout.validate_eq_ok.mp hs.valid
  exact PageTable.block_le (h.slots_eq ▸ hs.slots_eq)
    (h.recordSize_eq ▸ hs.recordSize_eq.trans_le hsize)

theorem block_le (hs : s.Shaped) :
    s.pages.slots * (s.pages.recordSize + 1) ≤ s.pages.backing.limit :=
  hs.block_le_of_extends (.refl _)

theorem place_inj (hs : s.Shaped) {index' : UInt32} :
    s.place index = s.place index' ↔ index = index' := by
  obtain ⟨k, hk, hslots⟩ := hs.slots_eq
  refine ⟨fun h => ?_, congrArg s.place⟩
  rw [place, place, hs.addressing_eq, hslots] at h
  exact Addressing.decode_inj (by omega) h

theorem page_lt (hpage : s.HasPage index) : (s.place index).page.toNat < s.pages.pages.size :=
  of_decide_eq_true hpage

theorem toNat_lt (hs : s.Shaped) (hpage : s.HasPage index) :
    index.toNat < s.pageCount * s.pageCapacity := by
  obtain ⟨k, hk, hslots⟩ := hs.slots_eq
  have hlt := page_lt hpage
  rw [place, hs.addressing_eq, hslots, Addressing.page_decode (by omega)] at hlt
  rw [hs.pageCapacity_eq, hslots]
  exact (Nat.div_lt_iff_lt_mul (Nat.two_pow_pos k)).mp hlt

theorem record_bytesOf (hs : s.Shaped) (hpage : s.HasPage index) :
    s.record index = .ok (s.bytesOf index) :=
  hs.pages.record_eq (page_lt hpage) (hs.slot_lt index)

theorem size_bytesOf (hs : s.Shaped) (hpage : s.HasPage index) :
    (s.bytesOf index).size = s.layout.size := by
  obtain ⟨record, hrecord, hwidth⟩ := hs.record_eq hpage
  rw [hs.record_bytesOf hpage] at hrecord
  cases hrecord
  exact hwidth

theorem keyAt_eq (hs : s.Shaped) (hpage : s.HasPage index) :
    s.keyAt index = s.layout.keyIn (s.bytesOf index) := by
  rw [keyAt, hs.record_bytesOf hpage]

theorem write_isOk (hs : s.Shaped) (hpage : s.HasPage index) {src : Bytes}
    (hsrc : src.size ≤ s.layout.size) : ∃ s', s.write index src = .ok s' := by
  rw [write, writeAt, hs.pages.write_eq (page_lt hpage) (hs.slot_lt index)
    (hs.recordSize_eq ▸ hsrc)]
  exact ⟨_, rfl⟩

/-- A write replaces the front of one record and leaves all others. -/
theorem bytesOf_write (hs : s.Shaped) {s' : Slab} {src : Bytes}
    (hwrite : s.write index src = .ok s') (other : UInt32) :
    s'.bytesOf other =
      if other = index then (s.bytesOf other).overwrite 0 src.toList else s.bytesOf other := by
  obtain ⟨t, hwrite', hdone⟩ := bind_eq_ok hwrite
  cases hdone
  obtain ⟨hp, hslot, hsrc⟩ := hs.pages.of_write hwrite'
  cases hwrite'.symm.trans (hs.pages.write_eq hp hslot hsrc)
  refine (hs.pages.written hp (hs.slot_lt other)).2.trans ?_
  simp only [hs.place_inj]
  rfl

theorem isLive_eq (hs : s.Shaped) : s.isLive index = .ok (s.pages.occupiedAt (s.place index)) := by
  rw [isLive]
  split
  · next hpage =>
    exact hs.pages.isOccupied_eq (page_lt hpage) (hs.slot_lt index)
  · next hpage =>
    have hnone : s.pages.pages[(s.place index).page.toNat]? = none := by
      rw [PageTable.contains, decide_eq_true_eq] at hpage
      exact Array.getElem?_eq_none (Nat.not_lt.mp hpage)
    rw [PageTable.occupiedAt, hnone]
    rfl

/-- The place under the cursor is occupied first, and then the cursor moves on to a vacant one. -/
theorem occupy_advance (hs : s.Shaped) (hpages : s.pages.Ordered (some s.cursor.place.page))
    (hslots : s.cursor.slots = s.pages.slots) (hslot : s.cursor.place.slot < s.pages.slots)
    (hvacant : ∀ slot, s.cursor.place.slot ≤ slot → slot < s.pages.slots →
      s.pages.occupiedAt ⟨s.cursor.place.page, slot⟩ = false) :
    ∃ t c' t', s.pages.occupy s.cursor.place = .ok t ∧
    (s.cursor.advance t).outcome = .ok (c', t') ∧ c'.slots = s.cursor.slots ∧
    c'.shift = s.cursor.shift ∧ c'.place.slot < s.pages.slots ∧
    (∀ place : Place, place.slot < s.pages.slots →
      t'.occupiedAt place = (decide (place = s.cursor.place) || s.pages.occupiedAt place) ∧
      (t'.occupiedAt place = true → t'.bytesAt place = s.pages.bytesAt place)) ∧
    (t'.pages.size ≤ 2 ^ 32 → t'.Ordered (some c'.place.page) ∧
      ∀ slot, c'.place.slot ≤ slot → slot < s.pages.slots →
        t'.occupiedAt ⟨c'.place.page, slot⟩ = false) := by
  have hunder := hvacant _ (Nat.le_refl _) hslot
  obtain ⟨hordered, hframe⟩ := hpages.occupy hslot hunder
  have hahead := hpages.occupy_ahead hslot hunder fun slot hgt hlt =>
    hvacant slot (Nat.le_of_lt hgt) hlt
  have hoccupy : s.pages.occupy s.cursor.place = .ok _ :=
    PageTable.modify_eq (hpages.current_lt _ rfl) (·.occupy s.cursor.place.slot)
  generalize s.pages.withPage s.cursor.place.page (·.occupy s.cursor.place.slot) = t
    at hordered hframe hahead hoccupy
  have hkept : s.pages.Extends t := PageTable.modify_extends hoccupy fun _ => ⟨rfl, rfl⟩
  have hshaped := (⟨rfl, rfl, hkept⟩ : s.Extends { s with pages := t }).shaped hs
  obtain ⟨c', t', hadvance, hslots', hshift, hlt, hframe', hfilled⟩ := hordered.advance
    hshaped.block_le (hslots.trans hkept.slots_eq.symm) (hkept.slots_eq ▸ hslot)
    (by rw [(hframe _ hslot).1]; simp)
    (fun slot hgt hlt => hahead slot hgt (hkept.slots_eq ▸ hlt))
  rw [hkept.slots_eq] at hlt hfilled
  refine ⟨t, c', t', hoccupy, hadvance, hslots', hshift, hlt, fun place hplace => ?_, hfilled⟩
  obtain ⟨hocc, hbytes⟩ := hframe place hplace
  obtain ⟨hocc', hbytes'⟩ := hframe' place
  exact ⟨hocc'.trans hocc, fun hlive => (hbytes' (hocc'.symm.trans hlive)).trans hbytes⟩

end Shaped

theorem Live.hasPage (h : s.Live index) : s.HasPage index :=
  decide_eq_true (PageTable.Ordered.lt_of_occupiedAt h)

/-- The record that is created next. -/
def upcoming (s : Slab) : Created := ⟨s.cursor.index, s.cursor.place⟩

/-- What creating a record does. -/
structure Creates (s s' : Slab) : Prop where
  place_eq : s.place s.upcoming.index = s.upcoming.place
  fresh : ¬ s.Live s.upcoming.index
  live_iff : ∀ i, s'.Live i ↔ i = s.upcoming.index ∨ s.Live i
  bytes_eq : ∀ i, s'.Live i → s'.bytesOf i = s.bytesOf i
  live_eq : s'.live = s.live + 1
  kept : s.Extends s'
  sound : s'.Sound

/-- What replacing the front of a record does. -/
structure Writes (s : Slab) (index : UInt32) (src : Bytes) (s' : Slab) : Prop where
  live_iff : ∀ i, s'.Live i ↔ s.Live i
  bytes_eq : ∀ i, s'.bytesOf i =
    if i = index then (s.bytesOf i).overwrite 0 src.toList else s.bytesOf i
  live_eq : s'.live = s.live
  kept : s.Extends s'
  sound : s'.Sound

/-- What ending a record does. -/
structure Frees (s : Slab) (index : UInt32) (s' : Slab) : Prop where
  live_iff : ∀ i, s'.Live i ↔ i ≠ index ∧ s.Live i
  bytes_eq : ∀ i, s'.Live i → s'.bytesOf i = s.bytesOf i
  live_eq : s'.live = s.live - 1
  kept : s.Extends s'
  sound : s'.Sound

/-- A fresh slab has generated its pages and turned to the first one that waits. -/
theorem new_cases {layout : RecordLayout} {config : SlabConfig} {backing : Backing}
    (h : (new layout config backing).outcome = .ok s) :
    ∃ t₀ t₁ p, PageTable.empty config.initialPages s.pages.slots layout.size config.resetOnFree
        backing = .ok t₀ ∧
      (PageTable.generateMany config.initialPages t₀).outcome = .ok t₁ ∧
      t₁.nextFree.outcome = .ok (p, s.pages) ∧
      s.cursor = ⟨⟨p, 0⟩, s.pages.slots, UInt32.ofNat s.pages.slots.log2⟩ ∧ s.live = 0 := by
  obtain ⟨_, -, h⟩ := Traced.outcome_bind_eq_ok h
  obtain ⟨slots, -, h⟩ := Traced.outcome_bind_eq_ok h
  obtain ⟨t₁, hnew, h⟩ := Traced.outcome_bind_eq_ok h
  obtain ⟨⟨c, t₂⟩, hattach, h⟩ := Traced.outcome_bind_eq_ok h
  obtain ⟨_, -, h⟩ := Traced.outcome_bind_eq_ok h
  cases h
  obtain ⟨t₀, hempty, hmany⟩ := Traced.outcome_bind_eq_ok hnew
  obtain ⟨⟨p, t₂⟩, hnext, hattach⟩ := Traced.outcome_bind_eq_ok hattach
  cases hattach
  have hslots := (PageTable.nextFree_extends hnext).slots_eq.trans (PageTable.new_shaped hnew).2.1
  refine ⟨t₀, t₁, p, ?_, hmany, hnext, rfl, rfl⟩
  rw [hslots]
  exact Traced.outcome_liftFault_eq_ok hempty

/-- In a fresh slab the pages are in order and no place is occupied. -/
theorem new_ordered {layout : RecordLayout} {config : SlabConfig} {backing : Backing}
    (h : (new layout config backing).outcome = .ok s) (hsize : s.pageCount ≤ 2 ^ 32) :
    s.pages.Ordered (some s.cursor.place.page) ∧ (∀ place, s.pages.occupiedAt place = false) ∧
      s.cursor.slots = s.pages.slots ∧ s.cursor.shift = s.addressing.shift ∧
      s.cursor.place.slot = 0 ∧ s.live = 0 := by
  have hshaped := new_shaped h
  obtain ⟨-, hlayout, -⟩ := RecordLayout.validate_eq_ok.mp hshaped.valid
  obtain ⟨t₀, t₁, p, hempty, hmany, hnext, hcursor, hlive⟩ := new_cases h
  -- no pages at first, then the initial ones, all queued, then one that is taken from the queue
  obtain ⟨hordered₀, hvacant₀⟩ := PageTable.Ordered.empty hempty
  have hextends₁ := PageTable.generateMany_extends hmany
  have hextends₂ := PageTable.nextFree_extends hnext
  have hextends := hextends₁.trans hextends₂
  have hwidth := hshaped.recordSize_eq.trans_le hlayout
  obtain ⟨hordered₁, hvacant₁⟩ := hordered₀.generateMany (hextends.slots_eq ▸ hshaped.slots_eq)
    (hextends.recordSize_eq ▸ hwidth) hmany (hextends₂.size_le.trans hsize)
  obtain ⟨q, t₂, hnext', -, hframe, hfilled⟩ :=
    hordered₁.nextFree (hshaped.block_le_of_extends hextends₂)
  cases hnext.symm.trans hnext'
  rw [hcursor, hshaped.addressing_eq]
  exact ⟨(hfilled hsize).1, fun place => ((hframe place).1.trans (hvacant₁ place)).trans
    (hvacant₀ place), rfl, rfl, rfl, hlive⟩

namespace Sound

/-- Every slot of a page has an index. -/
theorem place_encode (h : s.Sound) {place : Place} (hp : place.page.toNat < s.pages.pages.size)
    (hslot : place.slot < s.pages.slots) : s.place (s.addressing.encode place) = place := by
  obtain ⟨k, hk, hslots⟩ := h.slots_eq
  have hfits := h.fits
  rw [hslots] at hslot
  rw [pageCount, h.pageCapacity_eq, hslots] at hfits
  have hle := Nat.mul_le_mul_right (2 ^ k) (Nat.succ_le_of_lt hp)
  rw [Nat.succ_mul] at hle
  rw [Slab.place, h.addressing_eq, hslots]
  exact Addressing.decode_encode (by omega) hslot (by omega)

theorem place_cursor (h : s.Sound) : s.place s.cursor.index = s.cursor.place := by
  have hindex : s.cursor.index = s.addressing.encode s.cursor.place := by
    rw [Cursor.index, h.cursor_shift]
    rfl
  rw [hindex]
  exact h.place_encode (h.ordered.current_lt _ rfl) h.cursor_lt

/-- A slab stays sound when its pages change and none of its places becomes occupied. -/
theorem repage {t : PageTable} {live : Nat} (h : s.Sound) (hkept : s.pages.Extends t)
    (hordered : t.Ordered (some s.cursor.place.page)) (hsize : t.pages.size = s.pages.pages.size)
    (hocc : ∀ place : Place, place.slot < s.pages.slots → s.pages.occupiedAt place = false →
      t.occupiedAt place = false) :
    ({ s with pages := t, live := live } : Slab).Sound where
  toShaped :=
    (⟨rfl, rfl, hkept⟩ : s.Extends { s with pages := t, live := live }).shaped h.toShaped
  ordered := hordered
  cursor_slots := h.cursor_slots.trans hkept.slots_eq.symm
  cursor_shift := h.cursor_shift
  cursor_lt := hkept.slots_eq ▸ h.cursor_lt
  cursor_vacant := by
    intro slot hge hlt
    rw [hkept.slots_eq] at hlt
    exact hocc _ hlt (h.cursor_vacant slot hge hlt)
  fits := by
    change t.pages.size * s.pageCapacity ≤ 2 ^ 32
    rw [hsize]
    exact h.fits

/-- A record is always created. As long as all places have indices, it is a new one. -/
theorem create (h : s.Sound) : ∃ s', s.create.outcome = .ok (s.upcoming, s') ∧
    (s'.pageCount * s'.pageCapacity ≤ 2 ^ 32 → s.Creates s') := by
  obtain ⟨t, c', t', hoccupy, hadvance, hslots, hshift, hlt, hframe, hfilled⟩ :=
    h.toShaped.occupy_advance h.ordered h.cursor_slots h.cursor_lt h.cursor_vacant
  have hrun : s.create.outcome = .ok (s.upcoming,
      { s with pages := t', cursor := c', live := s.live + 1 }) := by
    simp [Slab.create, hoccupy, hadvance, upcoming]
  refine ⟨_, hrun, fun hfits => ?_⟩
  have hextends := create_extends hrun
  have hshaped' := hextends.shaped h.toShaped
  obtain ⟨hordered', hvacant'⟩ := hfilled (hshaped'.size_le hfits)
  have hslots' : t'.slots = s.pages.slots := hextends.pages.slots_eq
  exact {
    place_eq := h.place_cursor
    fresh := by
      rw [Live, upcoming, h.place_cursor, h.cursor_vacant _ (Nat.le_refl _) h.cursor_lt]
      exact Bool.false_ne_true
    live_iff := fun i => by
      change t'.occupiedAt (s.place i) = true ↔ _
      rw [(hframe _ (h.slot_lt i)).1, Bool.or_eq_true, decide_eq_true_eq, ← h.place_cursor,
        h.place_inj]
      rfl
    bytes_eq := fun i hi => (hframe _ (h.slot_lt i)).2 hi
    live_eq := rfl
    kept := hextends
    sound := {
      toShaped := hshaped'
      ordered := hordered'
      cursor_slots := (hslots.trans h.cursor_slots).trans hslots'.symm
      cursor_shift := hshift.trans h.cursor_shift
      cursor_lt := hslots' ▸ hlt
      cursor_vacant := fun slot hge hlt => hvacant' slot hge (hslots' ▸ hlt)
      fits := hfits } }

/-- The front of any record can be replaced, live or not. -/
theorem write {src : Bytes} (h : s.Sound) (hpage : s.HasPage index)
    (hsrc : src.size ≤ s.layout.size) :
    ∃ s', s.write index src = .ok s' ∧ s.Writes index src s' := by
  obtain ⟨hwrite, hordered, hframe⟩ := h.ordered.write (Shaped.page_lt hpage) (h.slot_lt index)
    (hsrc.trans_eq h.recordSize_eq.symm)
  have hkept := PageTable.write_extends hwrite
  refine ⟨_, by rw [Slab.write, writeAt, hwrite]; rfl, ?_⟩
  exact {
    live_iff := fun i => by
      rw [Live, Live, ← (hframe _ (h.slot_lt i)).1]
      rfl
    bytes_eq := fun i => by
      refine (hframe _ (h.slot_lt i)).2.trans ?_
      simp only [h.place_inj]
      rfl
    live_eq := rfl
    kept := ⟨rfl, rfl, hkept⟩
    sound := h.repage hkept hordered (PageTable.size_withPage _ _ _) fun place hslot hvacant => by
      rw [(hframe place hslot).1, hvacant] }

theorem free (h : s.Sound) (hlive : s.Live index) :
    ∃ s', (s.free index).outcome = .ok s' ∧ s.Frees index s' := by
  obtain ⟨page, hpage, hvacate, hnotfree, hordered, hframe⟩ :=
    h.ordered.vacate (h.slot_lt index) hlive
  have hkept := PageTable.vacate_extends hvacate
  have hsize := PageTable.size_withPage s.pages (s.place index).page (·.vacate (s.place index).slot)
  have hnotfree' : (s.place index).page ∉ (s.pages.withPage (s.place index).page
      (·.vacate (s.place index).slot)).free.toList := hnotfree
  generalize s.pages.withPage (s.place index).page (·.vacate (s.place index).slot) = t
    at hpage hvacate hordered hframe hkept hsize hnotfree'
  -- the page is queued when it is left empty behind the cursor, and stays as it is otherwise
  obtain ⟨t', hrun, hordered', hsize', hframe'⟩ : ∃ t', (s.free index).outcome =
      .ok { s with pages := t', live := s.live - 1 } ∧
      t'.Ordered (some s.cursor.place.page) ∧ t'.pages.size = t.pages.size ∧
      ∀ place : Place, place.slot < t.slots → t'.occupiedAt place = t.occupiedAt place ∧
        (t.occupiedAt place = true → t'.bytesAt place = t.bytesAt place) := by
    by_cases hrelease : page.live = 0 ∧ (s.place index).page ≠ s.cursor.place.page
    · obtain ⟨t', hrun, hordered', hframe'⟩ := hordered.release hpage hrelease.1
        (fun heq => hrelease.2 (Option.mem_some_iff.mp heq).symm) hnotfree'
      exact ⟨t', by simp [Slab.free, hvacate, hrelease, hrun], hordered', hframe'⟩
    · exact ⟨t, by simp [Slab.free, hvacate, hrelease], hordered, rfl,
        fun place _ => ⟨rfl, fun _ => rfl⟩⟩
  have hextends := free_extends hrun
  have hocc : ∀ place : Place, place.slot < s.pages.slots → t'.occupiedAt place =
      (decide (place ≠ s.place index) && s.pages.occupiedAt place) := fun place hslot => by
    rw [(hframe' place (hkept.slots_eq ▸ hslot)).1, (hframe place hslot).1]
  refine ⟨_, hrun, ?_⟩
  exact {
    live_iff := fun i => by
      change t'.occupiedAt (s.place i) = true ↔ _
      rw [hocc _ (h.slot_lt i), Bool.and_eq_true, decide_eq_true_eq, Ne, h.place_inj]
      rfl
    bytes_eq := fun i hi => by
      change t'.bytesAt (s.place i) = _
      have hi : t'.occupiedAt (s.place i) = true := hi
      obtain ⟨hsame, hbytes⟩ := hframe' _ (hkept.slots_eq ▸ h.slot_lt i)
      rw [hsame] at hi
      rw [hbytes hi, (hframe _ (h.slot_lt i)).2]
      rfl
    live_eq := rfl
    kept := hextends
    sound := h.repage hextends.pages hordered' (hsize'.trans hsize) fun place hslot hvacant => by
      rw [hocc place hslot, hvacant, Bool.and_false] }

/-- A record is created and its front is written through the view that comes with it. -/
theorem create_write {src : Bytes} (h : s.Sound) (hsrc : src.size ≤ s.layout.size) :
    ∃ s₁ s₂ view, s.create.outcome = .ok (s.upcoming, s₁) ∧
      s₁.writeAt s.upcoming.place src = .ok s₂ ∧ s₂.recordAt s.upcoming.place = .ok view ∧
      (s₂.pageCount * s₂.pageCapacity ≤ 2 ^ 32 → s.Creates s₁ ∧
        s₁.Writes s.upcoming.index src s₂ ∧ s₂.bytesOf s.upcoming.index = view) := by
  obtain ⟨s₁, hcreate, hcreates⟩ := h.create
  have hkept := create_extends hcreate
  have hshaped := hkept.shaped h.toShaped
  have hpage : s.upcoming.place.page.toNat < s₁.pages.pages.size :=
    (h.ordered.current_lt _ rfl).trans_le hkept.pages.size_le
  have hslot : s.upcoming.place.slot < s₁.pages.slots := hkept.pages.slots_eq ▸ h.cursor_lt
  have hwrite := hshaped.pages.write_eq hpage hslot
    (by rwa [hshaped.recordSize_eq, hkept.layout_eq] : src.size ≤ s₁.pages.recordSize)
  have hwritten := PageTable.write_extends hwrite
  have hsize := PageTable.size_withPage s₁.pages s.upcoming.place.page
    (·.write s.upcoming.place.slot src)
  generalize s₁.pages.withPage s.upcoming.place.page (·.write s.upcoming.place.slot src) = t
    at hwrite hwritten hsize
  have hread := (hwritten.shaped hshaped.pages).record_eq (hpage.trans_le hwritten.size_le)
    (hwritten.slots_eq ▸ hslot)
  refine ⟨s₁, { s₁ with pages := t }, _, hcreate, by rw [writeAt, hwrite]; rfl, hread,
    fun hfits => ?_⟩
  have hcount : s₁.pageCount * s₁.pageCapacity ≤ 2 ^ 32 := by
    change t.pages.size * s₁.pageCapacity ≤ 2 ^ 32 at hfits
    rwa [hsize] at hfits
  have hc := hcreates hcount
  have hnew : s₁.Live s.upcoming.index := (hc.live_iff _).mpr (.inl rfl)
  have hplace : s₁.place s.upcoming.index = s.upcoming.place :=
    (hkept.place_eq _).trans hc.place_eq
  -- the view of the new record is the one of its index
  obtain ⟨s₂, hrun, hw⟩ := hc.sound.write hnew.hasPage (hkept.layout_eq ▸ hsrc)
  rw [Slab.write, hplace, writeAt, hwrite] at hrun
  cases hrun
  refine ⟨hc, hw, ?_⟩
  rw [bytesOf, (hw.kept.place_eq _).trans hplace]

/-- A fresh slab is sound and empty. -/
theorem new {layout : RecordLayout} {config : SlabConfig} {backing : Backing}
    (h : (Slab.new layout config backing).outcome = .ok s)
    (hfits : s.pageCount * s.pageCapacity ≤ 2 ^ 32) :
    s.Sound ∧ (∀ index, ¬ s.Live index) ∧ s.live = 0 := by
  have hshaped := new_shaped h
  obtain ⟨hordered, hvacant, hslots, hshift, hslot, hlive⟩ := new_ordered h (hshaped.size_le hfits)
  refine ⟨?_, fun index hocc => Bool.false_ne_true ((hvacant _).symm.trans hocc), hlive⟩
  exact {
    toShaped := hshaped
    ordered := hordered
    cursor_slots := hslots
    cursor_shift := hshift
    cursor_lt := by
      obtain ⟨k, -, hpow⟩ := hshaped.slots_eq
      rw [hslot, hpow]
      exact Nat.two_pow_pos k
    cursor_vacant := fun slot _ _ => hvacant _
    fits := hfits }

end Sound

end Slab

end RecordArena
