import RecordArena.Proofs.Slab.Isolation
import RecordArena.Proofs.Slab.Numbering
import RecordArena.Proofs.Slab.Transitions

/-!
# Residue of records

Creating and freeing records leaves all bytes as they are, but for pages that are zeroed when they
are queued. So under the reset policy, the places that wait to be filled hold zeros as long as
nothing is written to them, which no one does who writes only to live records and to the view that
comes with a new one. Without the policy every place holds what was written to it last.

## Main definitions

* `Slab.OwnedStep` – the changes that write only to live records.
* `Slab.Scrubbed` – the places that are filled next hold zeros.
* `Slab.contents` – the bytes of an index, zeros before its page is there.

## Main statements

* `Slab.Scrubbed.ownedSteps` – changes that write only to live records leave a slab scrubbed.
* `SlabCall.contents_performAll` – the bytes of an index are what calls have written to it.
-/

namespace RecordArena

theorem Rows.payload_of_zeros {rows : Rows} {len i : Nat} (h : rows.block = Bytes.zeros len)
    (hi : i < rows.count) : rows.payload i = Bytes.zeros rows.width := by
  have hsize : rows.block.size = len := by rw [h, Bytes.zeros, Array.size_replicate]
  apply Array.ext_getElem?
  intro k
  rw [getElem?_payload hi, h, Bytes.zeros, Bytes.zeros, Array.getElem?_replicate,
    Array.getElem?_replicate]
  by_cases hk : k < rows.width
  · have hlt : rows.flagPosition i + (k + 1) < len :=
      hsize ▸ flagPosition_add_lt hi (Nat.succ_lt_succ hk)
    rw [if_pos hk, if_pos hk, if_pos hlt]
  · rw [if_neg hk, if_neg hk]

namespace PageTable

variable {t t' : PageTable} {p : UInt32} {page : Page} {events : List Event} {place : Place}

/-- A page that is allocated holds zeros, and the others keep their bytes. -/
theorem bytesAt_grown (hslot : place.slot < t.slots) : t.grown.bytesAt place =
    if place.page.toNat = t.pages.size then Bytes.zeros t.recordSize else t.bytesAt place := by
  rw [bytesAt, grown, Array.getElem?_push]
  by_cases hnew : place.page.toNat = t.pages.size
  · rw [if_pos hnew, if_pos hnew]
    exact Rows.payload_of_zeros rfl hslot
  · rw [if_neg hnew, if_neg hnew]
    rfl

/-- Taking the next page keeps all bytes, and a page that is new then holds zeros. -/
theorem Turns.bytesAt_eq (h : t.Turns events p t') (hslot : place.slot < t.slots) :
    t'.bytesAt place =
      if t.pages.size ≤ place.page.toNat ∧ place.page.toNat < t'.pages.size then
        Bytes.zeros t.recordSize
      else t.bytesAt place := by
  cases h with
  | queued =>
    rw [if_neg fun hnew => Nat.not_lt.mpr hnew.1 hnew.2]
    rfl
  | new =>
    rw [bytesAt_grown hslot]
    congr 1
    rw [size_grown, Nat.lt_succ_iff, ← Nat.le_antisymm_iff, eq_iff_iff]
    exact eq_comm

/-- No step of a slab changes the policy. -/
theorem Turns.resetOnFree_eq (h : t.Turns events p t') : t'.resetOnFree = t.resetOnFree := by
  cases h with
  | queued => rfl
  | new => rfl

/-- A page that is queued holds zeros under the reset policy; all other bytes are kept. -/
theorem bytesAt_released (h : t.Shaped) (hpage : t.pages[p.toNat]? = some page)
    (hslot : place.slot < t.slots) : (t.released p).bytesAt place =
      if t.resetOnFree = true ∧ place.page = p then Bytes.zeros t.recordSize
      else t.bytesAt place := by
  obtain ⟨hcount, hwidth⟩ := h.rows_eq hpage
  change (t.withPage p t.recycle).bytesAt place = _
  rw [bytesAt_withPage hpage]
  by_cases hsame : place.page = p
  · rw [if_pos hsame, recycle]
    by_cases hreset : t.resetOnFree = true
    · rw [if_pos hreset, if_pos ⟨hreset, hsame⟩, ← hwidth]
      exact Rows.payload_of_zeros rfl (hcount ▸ hslot)
    · rw [if_neg hreset, if_neg fun h => hreset h.1, bytesAt, hsame, hpage]
      rfl
  · rw [if_neg hsame, if_neg fun h => hsame h.2]

/-- Every place of every page holds zeros. -/
def Blank (t : PageTable) : Prop :=
  ∀ place : Place, place.page.toNat < t.pages.size → place.slot < t.slots →
    t.bytesAt place = Bytes.zeros t.recordSize

namespace Blank

theorem grown (h : t.Blank) : t.grown.Blank := by
  intro place hp hslot
  refine (bytesAt_grown (t := t) hslot).trans ?_
  split
  · rfl
  · next hold =>
    rw [size_grown] at hp
    exact h place (by omega) hslot

/-- Pages that are generated are blank. -/
theorem generateMany {n : Nat} (h : t.Blank)
    (hblock : t.slots * (t.recordSize + 1) ≤ t.backing.limit)
    (hrun : (generateMany n t).outcome = .ok t') :
    t'.Blank ∧ t'.resetOnFree = t.resetOnFree := by
  induction n generalizing t with
  | zero =>
    cases hrun
    exact ⟨h, rfl⟩
  | succ n ih =>
    obtain ⟨⟨q, t₂⟩, hgenerate, hrun⟩ := Traced.outcome_bind_eq_ok hrun
    obtain ⟨⟨p, t₁⟩, hadd, hgenerate⟩ := Traced.outcome_bind_eq_ok hgenerate
    cases hgenerate
    cases hadd.symm.trans (congrArg Traced.outcome (addPage_run hblock))
    exact ih (t := { t.grown with free := t.grown.free.push (UInt32.ofNat t.pages.size) })
      h.grown hblock hrun

theorem turns (h : t.Blank) (hturns : t.Turns events p t') : t'.Blank := by
  cases hturns with
  | queued => exact h
  | new => exact h.grown

end Blank

end PageTable

namespace Slab

variable {s s' : Slab} {events : List Event} {place : Place}

theorem Fills.resetOnFree_eq (h : s.Fills events s') :
    s'.pages.resetOnFree = s.pages.resetOnFree := by
  cases h with
  | next => rfl
  | turn _ hturns => exact hturns.resetOnFree_eq

theorem Vacates.resetOnFree_eq (h : s.Vacates place events s') :
    s'.pages.resetOnFree = s.pages.resetOnFree := by
  cases h with
  | vain => rfl
  | keep => rfl
  | drain => rfl

namespace Divided

theorem bytesAt_occupiedPages (h : s.Divided) (hparked : s.Parked)
    (hslot : place.slot < s.pages.slots) : s.occupiedPages.bytesAt place = s.pages.bytesAt place :=
  ((h.partitioned.toOrdered.occupy h.cursor_lt hparked).2 place hslot).2

theorem bytesAt_vacatedPages (h : s.Divided) (hplace : place.slot < s.pages.slots)
    (hocc : s.pages.occupiedAt place = true) {place' : Place}
    (hslot : place'.slot < s.pages.slots) :
    (s.vacatedPages place).bytesAt place' = s.pages.bytesAt place' := by
  obtain ⟨-, -, -, -, -, hframe⟩ := h.partitioned.toOrdered.vacate hplace hocc
  exact (hframe place' hslot).2

/-- Creating a record keeps all bytes, and a page that is new then holds zeros. -/
theorem fills_bytesAt (h : s.Divided) (hparked : s.Parked) (hfills : s.Fills events s')
    (hslot : place.slot < s.pages.slots) : s'.pages.bytesAt place =
      if s.pageCount ≤ place.page.toNat ∧ place.page.toNat < s'.pageCount then
        Bytes.zeros s.pages.recordSize
      else s.pages.bytesAt place := by
  have hsize := s.size_occupiedPages
  have hkept := h.bytesAt_occupiedPages hparked hslot
  cases hfills with
  | next =>
    rw [if_neg fun hnew => Nat.not_lt.mpr hnew.1 (hnew.2.trans_eq hsize)]
    exact hkept
  | turn _ hturns =>
    rw [← hkept, ← hsize]
    exact hturns.bytesAt_eq hslot

/-- Freeing keeps all bytes, except that a page that is queued is zeroed under the reset policy. -/
theorem vacates_bytesAt (h : s.Divided) (hplace : place.slot < s.pages.slots)
    (hvacates : s.Vacates place events s') {place' : Place} (hslot : place'.slot < s.pages.slots) :
    s'.pages.bytesAt place' = s.pages.bytesAt place' ∨
      s.pages.resetOnFree = true ∧ s'.pages.bytesAt place' = Bytes.zeros s.pages.recordSize := by
  cases hvacates with
  | vain => exact .inl rfl
  | keep hocc => exact .inl (h.bytesAt_vacatedPages hplace hocc hslot)
  | drain hocc hpage =>
    obtain ⟨_, -, hvacate, -, hordered, -⟩ := h.partitioned.toOrdered.vacate hplace hocc
    have hbytes : ((s.vacatedPages place).released place.page).bytesAt place' = _ :=
      PageTable.bytesAt_released hordered.shaped hpage hslot
    split at hbytes
    · next hreset => exact .inr ⟨hreset.1, hbytes⟩
    · exact .inl (hbytes.trans (h.bytesAt_vacatedPages hplace hocc hslot))

/-- A record that is created holds the bytes that its place held before. -/
theorem create_record (h : s.Divided) (hparked : s.Parked) : ∃ s',
    s.create.outcome = .ok (s.upcoming, s') ∧
      s'.recordAt s.upcoming.place = .ok (s.pages.bytesAt s.upcoming.place) := by
  obtain ⟨events, s', hcreate, hfills⟩ := h.create_fills
  have hrun := congrArg Traced.outcome hcreate
  have hextends := create_extends hrun
  have hpage : s.upcoming.place.page.toNat < s.pageCount := h.cursor_page_lt
  have hslot : s.upcoming.place.slot < s.pages.slots := h.cursor_lt
  refine ⟨s', hrun, ?_⟩
  rw [recordAt, (hextends.shaped h.toShaped).pages.record_eq
    (hpage.trans_le hextends.pages.size_le) (hextends.pages.slots_eq ▸ hslot),
    h.fills_bytesAt hparked hfills hslot, if_neg fun hnew => Nat.not_le.mpr hpage hnew.1]

end Divided

/-- One change by someone who writes only to live records, or through the view that comes with a
new one. -/
inductive OwnedStep : Slab → Slab → Prop where
  | create {s s' : Slab} {created : Created} (h : s.create.outcome = .ok (created, s')) :
      OwnedStep s s'
  | view {s s₁ s' : Slab} {created : Created} {src : Bytes}
      (h : s.create.outcome = .ok (created, s₁)) (hwrite : s₁.writeAt created.place src = .ok s') :
      OwnedStep s s'
  | write {s s' : Slab} {index : UInt32} {src : Bytes} (hlive : s.isLive index = .ok true)
      (h : s.write index src = .ok s') : OwnedStep s s'
  | free {s s' : Slab} (index : UInt32) (h : (s.free index).outcome = .ok s') : OwnedStep s s'

theorem OwnedStep.steps (h : s.OwnedStep s') : Relation.ReflTransGen Step s s' := by
  cases h with
  | create h => exact .single (.create h)
  | view h hwrite => exact .tail (.single (.create h)) (.write _ _ hwrite)
  | write _ h => exact .single (.write _ _ h)
  | free index h => exact .single (.free index h)

theorem steps_of_ownedSteps (h : Relation.ReflTransGen OwnedStep s s') :
    Relation.ReflTransGen Step s s' := by
  induction h with
  | refl => exact .refl
  | tail _ hstep ih => exact ih.trans hstep.steps

/-- Pages are zeroed when they are queued, and the places of the pages that wait hold zeros, as do
those that are left in the page under the cursor. -/
structure Scrubbed (s : Slab) : Prop where
  resetOnFree : s.pages.resetOnFree = true
  waiting : ∀ place : Place, place.page ∈ s.pages.free.toList → place.slot < s.pages.slots →
    s.pages.bytesAt place = Bytes.zeros s.pages.recordSize
  ahead : ∀ slot, s.cursor.place.slot ≤ slot → slot < s.pages.slots →
    s.pages.bytesAt ⟨s.cursor.place.page, slot⟩ = Bytes.zeros s.pages.recordSize

namespace Scrubbed

variable (h : s.Scrubbed) (hs : s.Divided)
include h hs

theorem fills (hparked : s.Parked) (hfills : s.Fills events s') (hsize : s'.pageCount ≤ 2 ^ 32) :
    s'.Scrubbed := by
  have hkept : ∀ place : Place, place.slot < s.pages.slots →
      s.occupiedPages.bytesAt place = s.pages.bytesAt place :=
    fun _ => hs.bytesAt_occupiedPages hparked
  cases hfills with
  | next =>
    refine ⟨h.resetOnFree, fun place hfree hslot => ?_, fun slot hge hslot => ?_⟩
    · exact (hkept place hslot).trans (h.waiting place hfree hslot)
    · exact (hkept _ hslot).trans (h.ahead slot (Nat.le_of_succ_le hge) hslot)
  | @turn _ p t _ hturns =>
    cases hturns with
    | queued hqueue =>
      have hqueue : s.pages.free.toList = _ := hqueue
      refine ⟨h.resetOnFree, fun place hfree hslot => ?_, fun slot _ hslot => ?_⟩
      · exact (hkept place hslot).trans
          (h.waiting place (hqueue ▸ List.mem_cons_of_mem _ hfree) hslot)
      · exact (hkept _ hslot).trans (h.waiting ⟨p, slot⟩ (hqueue ▸ List.mem_cons_self) hslot)
    | new hempty =>
      refine ⟨h.resetOnFree, fun place hfree hslot => ?_, fun slot _ hslot => ?_⟩
      · have hnone : place.page ∈ s.occupiedPages.free.toList := hfree
        rw [hempty] at hnone
        cases hnone
      · have hroom : s.occupiedPages.pages.size + 1 ≤ 2 ^ 32 := by
          rw [pageCount, PageTable.size_grown] at hsize
          exact hsize
        refine (PageTable.bytesAt_grown hslot).trans (if_pos ?_)
        rw [UInt32.toNat_ofNat', Nat.mod_eq_of_lt hroom]

theorem vacates (hplace : place.slot < s.pages.slots) (hvacates : s.Vacates place events s') :
    s'.Scrubbed := by
  cases hvacates with
  | vain => exact h
  | keep hocc =>
    have hkept : ∀ place' : Place, place'.slot < s.pages.slots →
        (s.vacatedPages place).bytesAt place' = s.pages.bytesAt place' :=
      fun _ => hs.bytesAt_vacatedPages hplace hocc
    refine ⟨h.resetOnFree, fun place' hfree hslot => ?_, fun slot hge hslot => ?_⟩
    · exact (hkept place' hslot).trans (h.waiting place' hfree hslot)
    · exact (hkept _ hslot).trans (h.ahead slot hge hslot)
  | drain hocc hpage =>
    obtain ⟨_, -, hvacate, -, hordered, -⟩ := hs.partitioned.toOrdered.vacate hplace hocc
    have hbytes : ∀ place' : Place, place'.slot < s.pages.slots →
        (place'.page ≠ place.page →
          s.pages.bytesAt place' = Bytes.zeros s.pages.recordSize) →
        ((s.vacatedPages place).released place.page).bytesAt place' =
          Bytes.zeros s.pages.recordSize := by
      intro place' hslot hold
      refine (PageTable.bytesAt_released hordered.shaped hpage hslot).trans ?_
      split
      · rfl
      · next hother =>
        exact (hs.bytesAt_vacatedPages hplace hocc hslot).trans
          (hold fun heq => hother ⟨h.resetOnFree, heq⟩)
    refine ⟨h.resetOnFree, fun place' hfree hslot => hbytes place' hslot fun hne => ?_,
      fun slot hge hslot => hbytes _ hslot fun _ => h.ahead slot hge hslot⟩
    have hfree : place'.page ∈ (s.pages.free.push place.page).toList := hfree
    rw [Array.toList_push, List.mem_append, List.mem_singleton] at hfree
    exact h.waiting place' (hfree.resolve_right hne) hslot

/-- A live record is neither in a page that waits nor ahead of the cursor. -/
theorem writeAt (hparked : s.Parked) {src : Bytes} (hocc : s.pages.occupiedAt place = true)
    (hrun : s.writeAt place src = .ok s') : s'.Scrubbed := by
  obtain ⟨-, rfl, hframe⟩ := hs.writes_of_writeAt hrun
  have hkept : ∀ place' : Place, place'.slot < s.pages.slots →
      s.pages.occupiedAt place' = false → s.pages.bytesAt place' = Bytes.zeros s.pages.recordSize →
      (s.pages.withPage place.page (·.write place.slot src)).bytesAt place' =
        Bytes.zeros s.pages.recordSize := by
    intro place' hslot hvacant hzeros
    rw [(hframe place' hslot).2, if_neg, hzeros]
    rintro rfl
    exact Bool.false_ne_true (hvacant.symm.trans hocc)
  refine ⟨h.resetOnFree, fun place' hfree hslot => ?_, fun slot hge hslot => ?_⟩
  · exact hkept place' hslot (hs.partitioned.toOrdered.occupiedAt_of_free hfree hslot)
      (h.waiting place' hfree hslot)
  · refine hkept _ hslot ?_ (h.ahead slot hge hslot)
    rcases Nat.eq_or_lt_of_le hge with rfl | hgt
    · exact hparked
    · exact hs.ahead_vacant slot hgt hslot

/-- A change that writes only to live records leaves a slab scrubbed. -/
theorem ownedStep (hparked : s.Parked) (hstep : s.OwnedStep s') (hsize : s'.pageCount ≤ 2 ^ 32) :
    s'.Scrubbed := by
  have hcreated : ∀ {created s₁}, s.create.outcome = .ok (created, s₁) → s₁.pageCount ≤ 2 ^ 32 →
      s₁.Scrubbed := by
    intro created s₁ hrun hsize
    obtain ⟨events, hfills⟩ := hs.fills_of_create hrun
    exact h.fills hs hparked hfills hsize
  cases hstep with
  | create hrun => exact hcreated hrun hsize
  | @view s₁ _ created src hrun hwrite =>
    have hsize₁ := (writeAt_extends hwrite).pages.size_le.trans hsize
    obtain ⟨hs₁, hparked₁⟩ := hs.step hparked (.create hrun) hsize₁
    have hocc : s₁.pages.occupiedAt created.place = true := by
      obtain ⟨-, -, -, -, -, rfl, -⟩ := create_cases hrun
      rw [hs.create_occupiedAt hparked hrun hs.cursor_lt, decide_eq_true rfl, Bool.true_or]
    exact (hcreated hrun hsize₁).writeAt hs₁ hparked₁ hocc hwrite
  | write hlive hwrite =>
    exact h.writeAt hs hparked (Except.ok.inj (hs.isLive_eq.symm.trans hlive)) hwrite
  | free index hrun =>
    obtain ⟨events, hvacates⟩ := hs.vacates_of_free hrun
    exact h.vacates hs (hs.slot_lt index) hvacates

theorem ownedSteps (hparked : s.Parked) (hsteps : Relation.ReflTransGen OwnedStep s s')
    (hsize : s'.pageCount ≤ 2 ^ 32) : s'.Scrubbed ∧ s'.Divided ∧ s'.Parked := by
  induction hsteps with
  | refl => exact ⟨h, hs, hparked⟩
  | tail _ hstep ih =>
    obtain ⟨h₁, hs₁, hparked₁⟩ := ih ((Extends.of_steps hstep.steps).pages.size_le.trans hsize)
    exact ⟨h₁.ownedStep hs₁ hparked₁ hstep hsize, hs₁.steps hparked₁ hstep.steps hsize⟩

/-- The record that is created next holds zeros. -/
theorem create (hparked : s.Parked) : ∃ created s', s.create.outcome = .ok (created, s') ∧
    s'.recordAt created.place = .ok (Bytes.zeros s.layout.size) := by
  obtain ⟨s', hcreate, hrecord⟩ := hs.create_record hparked
  refine ⟨s.upcoming, s', hcreate, ?_⟩
  rw [hrecord, ← hs.recordSize_eq]
  exact congrArg Except.ok (h.ahead _ (Nat.le_refl _) hs.cursor_lt)

end Scrubbed

variable {layout : RecordLayout} {config : SlabConfig} {backing : Backing}

/-- The pages of a fresh slab hold zeros. -/
theorem new_blank (h : (new layout config backing).outcome = .ok s) :
    s.pages.Blank ∧ s.pages.resetOnFree = config.resetOnFree := by
  have hshaped := new_shaped h
  obtain ⟨t₀, t₁, p, hempty, hmany, hnext, -, -⟩ := new_cases h
  have hextends₁ := PageTable.generateMany_extends hmany
  have hextends₂ := PageTable.nextFree_extends hnext
  have hblock := hshaped.block_le_of_extends (hextends₁.trans hextends₂)
  cases PageTable.empty_eq_ok hempty
  have hnone : PageTable.Blank ⟨#[], #[], max config.initialPages 1, s.pages.slots, layout.size,
      config.resetOnFree, backing⟩ := fun place hp => (Nat.not_lt_zero _ hp).elim
  obtain ⟨hblank, hreset⟩ := hnone.generateMany hblock hmany
  obtain ⟨events, q, t, hturns⟩ := t₁.exists_turns
  cases hnext.symm.trans
    (congrArg Traced.outcome (hturns.run (hshaped.block_le_of_extends hextends₂)))
  exact ⟨hblank.turns hturns, hturns.resetOnFree_eq.trans hreset⟩

/-- The places of a blank slab that resets its pages hold zeros. -/
theorem Divided.scrubbed (hs : s.Divided) (hblank : s.pages.Blank)
    (hreset : s.pages.resetOnFree = true) : s.Scrubbed where
  resetOnFree := hreset
  waiting := fun place hfree hslot =>
    hblank place (hs.partitioned.toOrdered.lt_of_free hfree) hslot
  ahead := fun _ _ hslot => hblank _ hs.cursor_page_lt hslot

/-- The bytes of an index, and zeros as long as its page is not there. -/
def contents (s : Slab) (index : UInt32) : Bytes :=
  if (s.place index).page.toNat < s.pageCount then s.bytesOf index else Bytes.zeros s.layout.size

/-- Nothing has been written to a blank slab. -/
theorem Shaped.contents_of_blank (hs : s.Shaped) (hblank : s.pages.Blank) (index : UInt32) :
    s.contents index = Bytes.zeros s.layout.size := by
  rw [contents]
  split
  · next hp => rw [bytesOf, hblank _ hp (hs.slot_lt index), hs.recordSize_eq]
  · rfl

/-- As long as all places have indices, the next index leads to its record. -/
theorem Divided.contents_upcoming (hs : s.Divided) (hshift : s.cursor.shift = s.addressing.shift)
    (hfits : s.pageCount * s.pageCapacity ≤ 2 ^ 32) :
    s.contents s.upcoming.index = s.pages.bytesAt s.upcoming.place := by
  have hpage : s.upcoming.place.page.toNat < s.pageCount := hs.cursor_page_lt
  have hslot : s.upcoming.place.slot < s.pageCapacity := hs.pageCapacity_eq ▸ hs.cursor_lt
  have hnumber : s.number s.upcoming.place < 2 ^ 32 := by
    calc s.number s.upcoming.place
        < (s.upcoming.place.page.toNat + 1) * s.pageCapacity := by
          rw [number, Nat.succ_mul]
          exact Nat.add_lt_add_left hslot _
      _ ≤ s.pageCount * s.pageCapacity := Nat.mul_le_mul_right _ hpage
      _ ≤ 2 ^ 32 := hfits
  rw [contents, bytesOf, (hs.upcoming_index hshift).2.mpr hnumber, if_pos hpage]

theorem Extends.contents_eq (h : s.Extends s') (index : UInt32) : s'.contents index =
    if (s.place index).page.toNat < s'.pageCount then s'.pages.bytesAt (s.place index)
    else Bytes.zeros s.layout.size := by
  rw [contents, bytesOf, h.place_eq, h.layout_eq]

/-- The page that is new for a record holds zeros, as an index of it did before. -/
theorem Divided.fills_contents (hs : s.Divided) (hparked : s.Parked) (hextends : s.Extends s')
    (hfills : s.Fills events s') (index : UInt32) : s'.contents index = s.contents index := by
  have hle : s.pageCount ≤ s'.pageCount := hextends.pages.size_le
  rw [hextends.contents_eq, hs.fills_bytesAt hparked hfills (hs.slot_lt index), hs.recordSize_eq,
    contents, bytesOf]
  by_cases hold : (s.place index).page.toNat < s.pageCount
  · rw [if_pos hold, if_pos (hold.trans_le hle), if_neg fun hnew => Nat.not_lt.mpr hnew.1 hold]
  · rw [if_neg hold]
    split
    · next hnew => rw [if_pos ⟨Nat.not_lt.mp hold, hnew⟩]
    · rfl

theorem Divided.write_contents (hs : s.Divided) {i : UInt32} {src : Bytes}
    (hrun : s.write i src = .ok s') (index : UInt32) :
    s'.contents index = (SlabCall.write i src).writeTo index (s.contents index) := by
  have hextends := writeAt_extends hrun
  obtain ⟨hp, hwritten, hframe⟩ := hs.writes_of_writeAt hrun
  have hsize : s'.pageCount = s.pageCount := by
    rw [hwritten]
    exact PageTable.size_withPage _ _ _
  rw [hextends.contents_eq, hsize, (hframe _ (hs.slot_lt index)).2, SlabCall.writeTo, contents,
    bytesOf]
  by_cases heq : i = index
  · subst heq
    rw [if_pos hp, if_pos hp, if_pos rfl, if_pos rfl]
  · rw [if_neg heq, if_neg fun h => heq (hs.place_inj.mp h).symm]

theorem Divided.free_contents (hs : s.Divided) (hreset : s.pages.resetOnFree = false) {i : UInt32}
    (hrun : (s.free i).outcome = .ok s') (index : UInt32) :
    s'.contents index = s.contents index := by
  obtain ⟨events, hvacates⟩ := hs.vacates_of_free hrun
  have hsize : s'.pageCount = s.pageCount := freeAt_pageCount (s.free_eq i ▸ hrun)
  have hbytes := (hs.vacates_bytesAt (hs.slot_lt i) hvacates (hs.slot_lt index)).resolve_right
    fun h => Bool.false_ne_true (hreset.symm.trans h.1)
  rw [(free_extends hrun).contents_eq, hsize, hbytes, contents, bytesOf]

end Slab

namespace SlabCall

variable {s s' : Slab} {call : SlabCall} {answer : SlabAnswer}

/-- Unless pages are zeroed, a call changes the bytes of an index only by writing to it. -/
theorem contents_perform (hs : s.Divided) (hparked : s.Parked)
    (hreset : s.pages.resetOnFree = false) (hrun : call.perform s = .ok (answer, s')) :
    s'.pages.resetOnFree = false ∧
      ∀ index, s'.contents index = call.writeTo index (s.contents index) := by
  cases call with
  | create =>
    obtain ⟨⟨created, s₁⟩, hcreate, hrun⟩ := bind_eq_ok hrun
    cases hrun
    obtain ⟨events, hfills⟩ := hs.fills_of_create hcreate
    exact ⟨hfills.resetOnFree_eq.trans hreset,
      hs.fills_contents hparked (Slab.create_extends hcreate) hfills⟩
  | write i src =>
    obtain ⟨s₁, hwrite, hrun⟩ := bind_eq_ok hrun
    cases hrun
    have hwrite := mapError_eq_ok hwrite
    obtain ⟨-, rfl, -⟩ := hs.writes_of_writeAt hwrite
    exact ⟨hreset, hs.write_contents hwrite⟩
  | free i =>
    obtain ⟨s₁, hfree, hrun⟩ := bind_eq_ok hrun
    cases hrun
    obtain ⟨events, hvacates⟩ := hs.vacates_of_free hfree
    exact ⟨hvacates.resetOnFree_eq.trans hreset, hs.free_contents hreset hfree⟩
  | read i =>
    obtain ⟨record, -, hrun⟩ := bind_eq_ok hrun
    cases hrun
    exact ⟨hreset, fun index => rfl⟩

/-- The bytes of an index are what calls have written to it. -/
theorem contents_performAll {calls : List SlabCall} (hs : s.Divided) (hparked : s.Parked)
    (hreset : s.pages.resetOnFree = false) (hrun : performAll s calls = .ok s')
    (hsize : s'.pageCount ≤ 2 ^ 32) (index : UInt32) :
    s'.contents index = calls.foldl (writeTo index) (s.contents index) := by
  induction calls generalizing s with
  | nil =>
    cases hrun
    rfl
  | cons call calls ih =>
    obtain ⟨⟨answer, s₁⟩, hcall, hrest⟩ := bind_eq_ok hrun
    have hsize₁ := (performAll_extends hrest).pages.size_le.trans hsize
    obtain ⟨hreset₁, hcontents⟩ := contents_perform hs hparked hreset hcall
    obtain ⟨hs₁, hparked₁⟩ := hs.perform hparked hcall hsize₁
    rw [List.foldl_cons, ← hcontents]
    exact ih hs₁ hparked₁ hreset₁ hrest

end SlabCall

end RecordArena
