import Mathlib.Logic.Relation
import RecordArena.Proofs.Outcome
import RecordArena.Proofs.Bytes.Compare
import RecordArena.Proofs.Probing.Growth
import RecordArena.Proofs.Record.Layout
import RecordArena.Slab.Basic

/-!
# The shape of a slab

Every page of a slab has the same number of rows, each as wide as a record, and an index addresses
a row of a page whatever its bits are. No operation changes that, and none takes a page away, so
the record, the key and the hash of an index can be read for as long as its page has been there.
Nothing is said about which rows are occupied.

## Main statements

* `Slab.Step.shaped` – creating, writing and freeing keep the shape.
* `Slab.Shaped.record_eq`, `Slab.Shaped.keyHash_eq`, `Slab.Shaped.hasKey_eq` – what an index of a
  page reads.
-/

namespace RecordArena

/-- Both pages have as many rows, and rows as wide. -/
def Page.SameShape (page page' : Page) : Prop :=
  page'.rows.count = page.rows.count ∧ page'.rows.width = page.rows.width

namespace PageTable

/-- Every page has the rows that the table says. -/
def Shaped (t : PageTable) : Prop :=
  ∀ page ∈ t.pages, page.rows.count = t.slots ∧ page.rows.width = t.recordSize

/-- The table `t'` has the pages of `t` and may have more, all of one shape. -/
structure Extends (t t' : PageTable) : Prop where
  slots_eq : t'.slots = t.slots
  recordSize_eq : t'.recordSize = t.recordSize
  size_le : t.pages.size ≤ t'.pages.size
  shaped : t.Shaped → t'.Shaped

variable {t t' t'' : PageTable} {p : UInt32}

namespace Extends

theorem refl (t : PageTable) : t.Extends t := ⟨rfl, rfl, Nat.le_refl _, id⟩

theorem trans (h : t.Extends t') (h' : t'.Extends t'') : t.Extends t'' where
  slots_eq := h'.slots_eq.trans h.slots_eq
  recordSize_eq := h'.recordSize_eq.trans h.recordSize_eq
  size_le := h.size_le.trans h'.size_le
  shaped hshaped := h'.shaped (h.shaped hshaped)

/-- The pages are the same and the queue or the room may differ. -/
theorem of_pages_eq (hslots : t'.slots = t.slots) (hsize : t'.recordSize = t.recordSize)
    (hpages : t'.pages = t.pages) : t.Extends t' where
  slots_eq := hslots
  recordSize_eq := hsize
  size_le := by rw [hpages]
  shaped hshaped := by rwa [Shaped, hslots, hsize, hpages]

end Extends

theorem modify_extends {change : Page → Page} (h : t.modify p change = .ok t')
    (hchange : ∀ page : Page, page.SameShape (change page)) : t.Extends t' := by
  unfold modify at h
  split at h
  · cases h
    refine ⟨rfl, rfl, by simp, fun hshaped page hpage => ?_⟩
    obtain ⟨i, hi, rfl⟩ := Array.mem_iff_getElem.mp hpage
    rw [Array.size_modify] at hi
    obtain ⟨hcount, hwidth⟩ := hshaped _ (Array.getElem_mem hi)
    rw [Array.getElem_modify]
    split
    · obtain ⟨hcount', hwidth'⟩ := hchange t.pages[i]
      exact ⟨hcount'.trans hcount, hwidth'.trans hwidth⟩
    · exact ⟨hcount, hwidth⟩
  · cases h

theorem reserve_extends (h : t.reserve.outcome = .ok t') : t.Extends t' := by
  unfold reserve at h
  split at h
  · cases h
    exact .of_pages_eq rfl rfl rfl
  · cases h
    exact .refl t

theorem addPage_extends {index : UInt32} (h : t.addPage.outcome = .ok (index, t')) :
    t.Extends t' := by
  obtain ⟨t₁, hreserve, h⟩ := Traced.outcome_bind_eq_ok h
  have hextends := reserve_extends hreserve
  obtain ⟨page, hpage, h⟩ := Traced.outcome_bind_eq_ok h
  obtain ⟨rows, hrows, hpage⟩ := Traced.outcome_bind_eq_ok hpage
  obtain ⟨_, -, hrows⟩ := Traced.outcome_bind_eq_ok hrows
  cases hrows
  cases hpage
  cases h
  refine hextends.trans ⟨rfl, rfl, by simp, fun hshaped page hpage => ?_⟩
  rcases Array.mem_push.mp hpage with hold | rfl
  · exact hshaped page hold
  · exact ⟨rfl, rfl⟩

theorem nextFree_extends {index : UInt32} (h : t.nextFree.outcome = .ok (index, t')) :
    t.Extends t' := by
  unfold nextFree at h
  split at h
  · cases h
    exact .of_pages_eq rfl rfl rfl
  · exact addPage_extends h

/-- Queueing a page changes that page alone and keeps its shape. -/
theorem release_cases (h : (t.release p).outcome = .ok t') :
    ∃ change t₁, t.modify p change = .ok t₁ ∧ (∀ page : Page, page.SameShape (change page)) ∧
      t' = { t₁ with free := t₁.free.push p } := by
  unfold release at h
  split at h
  · obtain ⟨t₁, hmodify, h⟩ := Traced.outcome_bind_eq_ok h
    obtain ⟨_, -, h⟩ := Traced.outcome_bind_eq_ok h
    obtain ⟨_, -, h⟩ := Traced.outcome_bind_eq_ok h
    cases h
    exact ⟨Page.clear, t₁, Traced.outcome_liftFault_eq_ok hmodify, fun _ => ⟨rfl, rfl⟩, rfl⟩
  · obtain ⟨t₁, hmodify, h⟩ := Traced.outcome_bind_eq_ok h
    obtain ⟨_, -, h⟩ := Traced.outcome_bind_eq_ok h
    obtain ⟨_, -, h⟩ := Traced.outcome_bind_eq_ok h
    cases h
    exact ⟨id, t₁, Traced.outcome_liftFault_eq_ok hmodify, fun _ => ⟨rfl, rfl⟩, rfl⟩

theorem release_extends (h : (t.release p).outcome = .ok t') : t.Extends t' := by
  obtain ⟨change, t₁, hmodify, hchange, rfl⟩ := release_cases h
  exact (modify_extends hmodify hchange).trans (.of_pages_eq rfl rfl rfl)

theorem vacate_extends {place : Place} {remaining : Option Nat}
    (h : t.vacate place = .ok (remaining, t')) : t.Extends t' := by
  obtain ⟨occupied, -, h⟩ := bind_eq_ok h
  split at h
  · obtain ⟨t₁, hmodify, h⟩ := bind_eq_ok h
    obtain ⟨page, -, h⟩ := bind_eq_ok h
    cases h
    exact modify_extends hmodify fun _ => ⟨rfl, rfl⟩
  · cases h
    exact .refl t

/-- Where nothing is vacated, nothing changes. -/
theorem vacate_none {place : Place} (h : t.vacate place = .ok (none, t')) : t' = t := by
  obtain ⟨occupied, -, h⟩ := bind_eq_ok h
  cases occupied with
  | false =>
    cases h
    rfl
  | true =>
    obtain ⟨t₁, -, h⟩ := bind_eq_ok h
    obtain ⟨left, -, h⟩ := bind_eq_ok h
    cases h

theorem write_extends {place : Place} {src : Bytes} (h : t.write place src = .ok t') :
    t.Extends t' := by
  obtain ⟨page, -, h⟩ := bind_eq_ok h
  split at h
  · exact modify_extends h fun _ => ⟨rfl, rfl⟩
  · cases h

theorem generateMany_extends {n : Nat} (h : (generateMany n t).outcome = .ok t') :
    t.Extends t' := by
  induction n generalizing t with
  | zero =>
    cases h
    exact .refl _
  | succ n ih =>
    obtain ⟨⟨index, t₁⟩, hgenerate, h⟩ := Traced.outcome_bind_eq_ok h
    obtain ⟨⟨index', t₂⟩, hadd, hqueue⟩ := Traced.outcome_bind_eq_ok hgenerate
    cases hqueue
    have hqueued : t₂.Extends { t₂ with free := t₂.free.push index } :=
      .of_pages_eq rfl rfl rfl
    exact ((addPage_extends hadd).trans hqueued).trans (ih h)

theorem empty_eq_ok {initial slots recordSize : Nat} {resetOnFree : Bool} {backing : Backing}
    (h : empty initial slots recordSize resetOnFree backing = .ok t) :
    t = ⟨#[], #[], max initial 1, slots, recordSize, resetOnFree, backing⟩ := by
  unfold empty at h
  dsimp only at h
  split at h
  · cases h
    rfl
  · cases h

theorem new_shaped {initial slots recordSize : Nat} {resetOnFree : Bool} {backing : Backing}
    (h : (new initial slots recordSize resetOnFree backing).outcome = .ok t) :
    t.Shaped ∧ t.slots = slots ∧ t.recordSize = recordSize := by
  obtain ⟨t₀, hempty, h⟩ := Traced.outcome_bind_eq_ok h
  have hextends := generateMany_extends h
  cases empty_eq_ok (Traced.outcome_liftFault_eq_ok hempty)
  exact ⟨hextends.shaped fun page hpage => absurd hpage (Array.not_mem_empty page),
    hextends.slots_eq, hextends.recordSize_eq⟩

end PageTable

namespace Cursor

theorem attach_extends {t t' : PageTable} {cursor : Cursor}
    (h : (attach t).outcome = .ok (cursor, t')) : t.Extends t' := by
  obtain ⟨⟨page, t₁⟩, hnext, h⟩ := Traced.outcome_bind_eq_ok h
  cases h
  exact PageTable.nextFree_extends hnext

theorem advance_extends {c c' : Cursor} {t t' : PageTable}
    (h : (c.advance t).outcome = .ok (c', t')) : t.Extends t' := by
  unfold advance at h
  dsimp only at h
  split at h
  · cases h
    exact .refl t
  · obtain ⟨⟨page, t₁⟩, hnext, h⟩ := Traced.outcome_bind_eq_ok h
    obtain ⟨left, -, h⟩ := Traced.outcome_bind_eq_ok h
    split at h
    · obtain ⟨t₂, hrelease, h⟩ := Traced.outcome_bind_eq_ok h
      cases h
      exact (PageTable.nextFree_extends hnext).trans (PageTable.release_extends hrelease)
    · cases h
      exact PageTable.nextFree_extends hnext

end Cursor

namespace Slab

/-- A slab whose pages all have the rows that indices address. -/
structure Shaped (s : Slab) : Prop where
  valid : s.layout.validate = .ok ()
  addressing_eq : s.addressing = Addressing.ofSlots s.pages.slots
  slots_eq : ∃ k ≤ 15, s.pages.slots = 2 ^ k
  recordSize_eq : s.pages.recordSize = s.layout.size
  pages : s.pages.Shaped

/-- One change of a slab that has succeeded. -/
inductive Step : Slab → Slab → Prop where
  | create {s s' : Slab} {created : Created} (h : s.create.outcome = .ok (created, s')) : Step s s'
  | write {s s' : Slab} (place : Place) (src : Bytes) (h : s.writeAt place src = .ok s') : Step s s'
  | free {s s' : Slab} (index : UInt32) (h : (s.free index).outcome = .ok s') : Step s s'

/-- The page of an index is there. -/
def HasPage (s : Slab) (index : UInt32) : Prop := s.pages.contains (s.place index).page = true

/-- What the slab `s'` has kept of `s`. -/
structure Extends (s s' : Slab) : Prop where
  layout_eq : s'.layout = s.layout
  addressing_eq : s'.addressing = s.addressing
  pages : s.pages.Extends s'.pages

variable {s s' : Slab}

/-- Creating a record occupies the place under the cursor and then moves the cursor on. -/
theorem create_cases {created : Created} (h : s.create.outcome = .ok (created, s')) :
    ∃ t c t', s.pages.occupy s.cursor.place = .ok t ∧
      (s.cursor.advance t).outcome = .ok (c, t') ∧ created = ⟨s.cursor.index, s.cursor.place⟩ ∧
      s' = { s with pages := t', cursor := c, live := s.live + 1 } := by
  obtain ⟨t, hoccupy, h⟩ := Traced.outcome_bind_eq_ok h
  obtain ⟨⟨c, t'⟩, hadvance, h⟩ := Traced.outcome_bind_eq_ok h
  cases h
  exact ⟨t, c, t', Traced.outcome_liftFault_eq_ok hoccupy, hadvance, rfl, rfl⟩

theorem create_extends {created : Created} (h : s.create.outcome = .ok (created, s')) :
    s.Extends s' := by
  obtain ⟨t, c, t', hoccupy, hadvance, -, rfl⟩ := create_cases h
  have hoccupy := PageTable.modify_extends hoccupy fun _ => ⟨rfl, rfl⟩
  exact ⟨rfl, rfl, hoccupy.trans (Cursor.advance_extends hadvance)⟩

/-- Ends the record at a place, by the rule by which `free` ends the one at an index. -/
def freeAt (s : Slab) (place : Place) : Traced Slab := do
  match ← s.pages.vacate place with
  | (none, pages) => pure { s with pages }
  | (some remaining, pages) =>
    let pages ←
      if remaining = 0 ∧ place.page ≠ s.cursor.place.page then pages.release place.page
      else pure pages
    pure { s with pages, live := s.live - 1 }

theorem free_eq (s : Slab) (index : UInt32) : s.free index = s.freeAt (s.place index) := rfl

theorem freeAt_extends {place : Place} (h : (s.freeAt place).outcome = .ok s') : s.Extends s' := by
  obtain ⟨⟨remaining, t₁⟩, hvacate, h⟩ := Traced.outcome_bind_eq_ok h
  have hkept := PageTable.vacate_extends (Traced.outcome_liftFault_eq_ok hvacate)
  cases remaining with
  | none =>
    cases h
    exact ⟨rfl, rfl, hkept⟩
  | some remaining =>
    dsimp only at h
    split at h
    · obtain ⟨t₂, hrelease, h⟩ := Traced.outcome_bind_eq_ok h
      cases h
      exact ⟨rfl, rfl, hkept.trans (PageTable.release_extends hrelease)⟩
    · cases h
      exact ⟨rfl, rfl, hkept⟩

theorem free_extends {index : UInt32} (h : (s.free index).outcome = .ok s') : s.Extends s' :=
  freeAt_extends (s.free_eq index ▸ h)

theorem writeAt_extends {place : Place} {src : Bytes} (h : s.writeAt place src = .ok s') :
    s.Extends s' := by
  obtain ⟨t₁, hwrite, h⟩ := bind_eq_ok h
  cases h
  exact ⟨rfl, rfl, PageTable.write_extends hwrite⟩

theorem Step.extends (h : s.Step s') : s.Extends s' := by
  cases h with
  | create h => exact create_extends h
  | write place src h => exact writeAt_extends h
  | free index h => exact free_extends h

namespace Extends

theorem refl (s : Slab) : s.Extends s := ⟨rfl, rfl, .refl _⟩

theorem trans {s'' : Slab} (h : s.Extends s') (h' : s'.Extends s'') : s.Extends s'' where
  layout_eq := h'.layout_eq.trans h.layout_eq
  addressing_eq := h'.addressing_eq.trans h.addressing_eq
  pages := h.pages.trans h'.pages

/-- Any number of changes keeps what one keeps. -/
theorem of_steps (h : Relation.ReflTransGen Step s s') : s.Extends s' := by
  induction h with
  | refl => exact refl s
  | tail hsteps hstep ih => exact ih.trans hstep.extends

theorem shaped (h : s.Extends s') (hs : s.Shaped) : s'.Shaped where
  valid := by rw [h.layout_eq]; exact hs.valid
  addressing_eq := by rw [h.addressing_eq, h.pages.slots_eq]; exact hs.addressing_eq
  slots_eq := by rw [h.pages.slots_eq]; exact hs.slots_eq
  recordSize_eq := by rw [h.pages.recordSize_eq, h.layout_eq]; exact hs.recordSize_eq
  pages := h.pages.shaped hs.pages

theorem place_eq (h : s.Extends s') (index : UInt32) : s'.place index = s.place index := by
  rw [place, h.addressing_eq]
  rfl

theorem hasPage (h : s.Extends s') {index : UInt32} (hpage : s.HasPage index) :
    s'.HasPage index := by
  have hlt : (s.place index).page.toNat < s.pages.pages.size := of_decide_eq_true hpage
  rw [HasPage, h.place_eq]
  exact decide_eq_true (hlt.trans_le h.pages.size_le)

end Extends

theorem new_shaped {layout : RecordLayout} {config : SlabConfig} {backing : Backing}
    (h : (new layout config backing).outcome = .ok s) : s.Shaped := by
  obtain ⟨_, hvalid, h⟩ := Traced.outcome_bind_eq_ok h
  obtain ⟨slots, hslots, h⟩ := Traced.outcome_bind_eq_ok h
  obtain ⟨t₀, hnew, h⟩ := Traced.outcome_bind_eq_ok h
  obtain ⟨⟨c, t₁⟩, hattach, h⟩ := Traced.outcome_bind_eq_ok h
  obtain ⟨_, -, h⟩ := Traced.outcome_bind_eq_ok h
  cases h
  obtain ⟨hshaped, hslots', hsize⟩ := PageTable.new_shaped hnew
  have hextends := Cursor.attach_extends hattach
  have hpow : ∃ k ≤ 15, slots = 2 ^ k := by
    have hslots := Traced.outcome_liftError_eq_ok hslots
    unfold pageSlots at hslots
    split at hslots
    · cases hslots
    · next hrange =>
      cases hslots
      exact Numeric.ceilPowerOfTwo_eq (by rw [maxPageSlots] at hrange; omega)
  have heq : t₁.slots = slots := hextends.slots_eq.trans hslots'
  exact {
    valid := Traced.outcome_liftError_eq_ok hvalid
    addressing_eq := by rw [heq]
    slots_eq := by rw [heq]; exact hpow
    recordSize_eq := hextends.recordSize_eq.trans hsize
    pages := hextends.shaped hshaped }

theorem new_layout {layout : RecordLayout} {config : SlabConfig} {backing : Backing}
    (h : (new layout config backing).outcome = .ok s) : s.layout = layout := by
  obtain ⟨_, -, h⟩ := Traced.outcome_bind_eq_ok h
  obtain ⟨slots, -, h⟩ := Traced.outcome_bind_eq_ok h
  obtain ⟨t₀, -, h⟩ := Traced.outcome_bind_eq_ok h
  obtain ⟨⟨c, t₁⟩, -, h⟩ := Traced.outcome_bind_eq_ok h
  obtain ⟨_, -, h⟩ := Traced.outcome_bind_eq_ok h
  cases h
  rfl

/-- The key of the record at an index of a page. -/
def keyAt (s : Slab) (index : UInt32) : Bytes :=
  match s.record index with
  | .ok record => s.layout.keyIn record
  | .error _ => #[]

namespace Shaped

variable {index : UInt32}

theorem slot_lt (hs : s.Shaped) (index : UInt32) : (s.place index).slot < s.pages.slots := by
  obtain ⟨k, hk, hslots⟩ := hs.slots_eq
  have hpos : 0 < 2 ^ k := Nat.two_pow_pos k
  have hmask : (UInt32.ofNat (s.pages.slots - 1)).toNat ≤ s.pages.slots - 1 := by
    rw [UInt32.toNat_ofNat']
    exact Nat.mod_le _ _
  rw [place, hs.addressing_eq]
  change (index &&& UInt32.ofNat (s.pages.slots - 1)).toNat < _
  rw [UInt32.toNat_and]
  exact Nat.and_le_right.trans_lt (by omega)

/-- The record at an index of a page can be read and has the size of the layout. -/
theorem record_eq (hs : s.Shaped) (hpage : s.HasPage index) :
    ∃ record, s.record index = .ok record ∧ record.size = s.layout.size := by
  have hlt : (s.place index).page.toNat < s.pages.pages.size := of_decide_eq_true hpage
  obtain ⟨hcount, hwidth⟩ := hs.pages _ (Array.getElem_mem hlt)
  have hslot := hs.slot_lt index
  refine ⟨s.pages.pages[(s.place index).page.toNat].rows.payload (s.place index).slot, ?_, ?_⟩
  · rw [record, recordAt, PageTable.record, PageTable.page, dif_pos hlt, ok_bind, Page.record,
      if_pos (by rwa [hcount])]
  · rw [Rows.size_payload (by rwa [hcount]), hwidth, hs.recordSize_eq]

theorem key_eq (hs : s.Shaped) (hpage : s.HasPage index) :
    ∃ record, s.record index = .ok record ∧ s.layout.key record = .ok (s.keyAt index) := by
  obtain ⟨record, hrecord, hsize⟩ := hs.record_eq hpage
  refine ⟨record, hrecord, ?_⟩
  rw [RecordLayout.key_eq hs.valid hsize.ge, keyAt, hrecord]

theorem size_keyAt (hs : s.Shaped) (hpage : s.HasPage index) :
    (s.keyAt index).size = s.layout.keyLen := by
  obtain ⟨record, hrecord, hsize⟩ := hs.record_eq hpage
  rw [keyAt, hrecord]
  exact RecordLayout.size_keyIn hs.valid hsize.ge

theorem keyHash_eq (hs : s.Shaped) (hpage : s.HasPage index) :
    s.keyHash index = .ok (s.layout.hashKey (s.keyAt index)) := by
  obtain ⟨record, hrecord, hkey⟩ := hs.key_eq hpage
  rw [keyHash, hrecord, ok_bind, RecordLayout.keyHash, hkey]
  rfl

theorem hasKey_eq (hs : s.Shaped) (hpage : s.HasPage index) (key : Bytes) :
    s.hasKey index key = .ok (decide (s.keyAt index = key)) := by
  obtain ⟨record, hrecord, hkey⟩ := hs.key_eq hpage
  rw [hasKey, hrecord, ok_bind, hkey, ok_bind, Bytes.sameKey_eq]
  rfl

end Shaped

end Slab

end RecordArena
