import RecordArena.Proofs.Slab.Calls
import RecordArena.Proofs.Slab.Partition

/-!
# Slabs by their pages

A slab is changed in moves that are finer than its operations: the slot under the cursor is
occupied, the cursor moves on, a slot of any page is vacated, a record is written. In any order, the
moves keep every page in one class: it is being filled, or it waits without live records, or it has
live records and does not wait. A page is queued once whichever of its last record and the cursor
leaves it first, and is never lost.

## Main definitions

* `Slab.Move` – the changes of a slab in their smallest parts.
* `PageClass`, `Slab.InClass` – the classes of pages.
* `Slab.Divided` – the invariant.

## Main statements

* `Slab.Divided.occupy`, `Slab.Divided.advance`, `Slab.Divided.freeAt`, `Slab.Divided.writeAt` –
  every move can be made, and keeps the invariant.
* `Slab.pages_classified` – the classes and the counts of the pages after any run.
-/

namespace RecordArena

/-- What a page is there for. -/
inductive PageClass where
  /-- The page under the cursor. -/
  | filling
  | waiting
  | inUse
  deriving DecidableEq, Repr

namespace Slab

/-- One part of a change of a slab. Only a vacant slot is occupied. -/
inductive Move : Slab → Slab → Prop where
  | occupy {s : Slab} {t : PageTable} (hvacant : s.pages.isOccupied s.cursor.place = .ok false)
      (h : s.pages.occupy s.cursor.place = .ok t) :
      Move s { s with pages := t, live := s.live + 1 }
  | advance {s : Slab} {c : Cursor} {t : PageTable}
      (h : (s.cursor.advance s.pages).outcome = .ok (c, t)) :
      Move s { s with pages := t, cursor := c }
  | vacate {s s' : Slab} (place : Place) (h : (s.freeAt place).outcome = .ok s') : Move s s'
  | write {s s' : Slab} (place : Place) (src : Bytes) (h : s.writeAt place src = .ok s') : Move s s'

/-- The class of a page: under the cursor and not queued; queued once and without live records; or
neither, with live records. -/
def InClass (s : Slab) (p : UInt32) (page : Page) : PageClass → Prop
  | .filling => p = s.cursor.place.page ∧ p ∉ s.pages.free.toList
  | .waiting => s.pages.free.toList.count p = 1 ∧ page.live = 0
  | .inUse => p ≠ s.cursor.place.page ∧ p ∉ s.pages.free.toList ∧ 1 ≤ page.live

/-- Every page has one class and counts its occupied slots, and the slots that the cursor has yet to
reach are vacant. -/
structure Classified (s : Slab) : Prop where
  existsUnique_class : ∀ p page, s.pages.page p = .ok page → ∃! c, s.InClass p page c
  live_eq_card : ∀ p page, s.pages.page p = .ok page → page.live =
    ((Finset.range s.pageCapacity).filter fun slot => page.isOccupied slot = .ok true).card
  live_le : ∀ p page, s.pages.page p = .ok page → page.live ≤ s.pageCapacity
  cursor_page : ∃ page, s.pages.page s.cursor.place.page = .ok page
  ahead_vacant : ∀ slot, s.cursor.place.slot < slot → slot < s.pageCapacity →
    s.pages.isOccupied ⟨s.cursor.place.page, slot⟩ = .ok false

/-- A slab whose pages are partitioned, between any two moves. -/
structure Divided (s : Slab) : Prop extends s.Shaped where
  partitioned : s.pages.Partitioned s.cursor.place.page
  cursor_slots : s.cursor.slots = s.pages.slots
  cursor_lt : s.cursor.place.slot < s.pages.slots
  ahead_vacant : ∀ slot, s.cursor.place.slot < slot → slot < s.pages.slots →
    s.pages.occupiedAt ⟨s.cursor.place.page, slot⟩ = false
  live_eq : s.live = s.pages.liveTotal

/-- The slot under the cursor is vacant, as it is between any two operations. -/
def Parked (s : Slab) : Prop := s.pages.occupiedAt s.cursor.place = false

variable {s s' : Slab}

theorem Move.extends (h : s.Move s') : s.Extends s' := by
  cases h with
  | occupy hvacant h => exact ⟨rfl, rfl, PageTable.modify_extends h fun _ => ⟨rfl, rfl⟩⟩
  | advance h => exact ⟨rfl, rfl, Cursor.advance_extends h⟩
  | vacate place h => exact freeAt_extends h
  | write place src h => exact writeAt_extends h

namespace Divided

theorem cursor_page_lt (h : s.Divided) : s.cursor.place.page.toNat < s.pages.pages.size :=
  h.partitioned.current_lt _ rfl

/-- The pages of a slab may change in ways that occupy nothing ahead of the cursor. -/
theorem repage (h : s.Divided) {t : PageTable} {live : Nat} (hkept : s.pages.Extends t)
    (hpartitioned : t.Partitioned s.cursor.place.page) (hlive : live = t.liveTotal)
    (hahead : ∀ slot, s.cursor.place.slot < slot → slot < s.pages.slots →
      t.occupiedAt ⟨s.cursor.place.page, slot⟩ = false) :
    ({ s with pages := t, live := live } : Slab).Divided where
  toShaped :=
    (⟨rfl, rfl, hkept⟩ : s.Extends { s with pages := t, live := live }).shaped h.toShaped
  partitioned := hpartitioned
  cursor_slots := h.cursor_slots.trans hkept.slots_eq.symm
  cursor_lt := hkept.slots_eq ▸ h.cursor_lt
  ahead_vacant := fun slot hgt hlt => hahead slot hgt (hkept.slots_eq ▸ hlt)
  live_eq := hlive

/-- The slot under the cursor can be occupied while it is vacant. -/
theorem occupy (h : s.Divided) (hparked : s.Parked) :
    ∃ t, s.pages.occupy s.cursor.place = .ok t ∧
      ({ s with pages := t, live := s.live + 1 } : Slab).Divided := by
  obtain ⟨hpartitioned, htotal⟩ := h.partitioned.occupy h.cursor_lt hparked
  have hoccupy : s.pages.occupy s.cursor.place = .ok _ :=
    PageTable.modify_eq h.cursor_page_lt (·.occupy s.cursor.place.slot)
  exact ⟨_, hoccupy, h.repage (PageTable.modify_extends hoccupy fun _ => ⟨rfl, rfl⟩)
    hpartitioned (by rw [htotal, h.live_eq])
    (h.partitioned.toOrdered.occupy_ahead h.cursor_lt hparked h.ahead_vacant)⟩

/-- The cursor can move on at any time, and is then on a vacant slot. -/
theorem advance (h : s.Divided) : ∃ c t, (s.cursor.advance s.pages).outcome = .ok (c, t) ∧
    (t.pages.size ≤ 2 ^ 32 → ({ s with pages := t, cursor := c } : Slab).Divided ∧
      ({ s with pages := t, cursor := c } : Slab).Parked) := by
  obtain ⟨c, t, hrun⟩ := h.partitioned.toOrdered.advance_isOk h.toShaped.block_le
  have hkept := Cursor.advance_extends hrun
  refine ⟨c, t, hrun, fun hsize => ?_⟩
  obtain ⟨hpartitioned, htotal, hslots, hlt, hvacant⟩ := h.partitioned.advance
    h.toShaped.block_le hrun h.cursor_slots h.cursor_lt hsize h.ahead_vacant
  refine ⟨?_, hvacant _ (Nat.le_refl _) hlt⟩
  exact {
    toShaped := (⟨rfl, rfl, hkept⟩ : s.Extends { s with pages := t, cursor := c }).shaped
      h.toShaped
    partitioned := hpartitioned
    cursor_slots := (hslots.trans h.cursor_slots).trans hkept.slots_eq.symm
    cursor_lt := hkept.slots_eq ▸ hlt
    ahead_vacant := fun slot hgt hlt => hvacant slot (Nat.le_of_lt hgt) (hkept.slots_eq ▸ hlt)
    live_eq := h.live_eq.trans htotal.symm }

/-- A slot of any page can be vacated, whether it is occupied or not. -/
theorem freeAt (h : s.Divided) {place : Place} (hp : place.page.toNat < s.pages.pages.size)
    (hslot : place.slot < s.pages.slots) : ∃ s', (s.freeAt place).outcome = .ok s' ∧
      s'.Divided ∧ (s.Parked → s'.Parked) := by
  have hcursor : (⟨s.cursor.place.page, s.cursor.place.slot⟩ : Place) = s.cursor.place := rfl
  cases hocc : s.pages.occupiedAt place with
  | false =>
    have hvacate : s.pages.vacate place = .ok (none, s.pages) := by
      simp [PageTable.vacate, h.pages.isOccupied_eq hp hslot, hocc]
    exact ⟨s, by simp [Slab.freeAt, hvacate], h, id⟩
  | true =>
    obtain ⟨page, t₁, hvacate, htotal, hvacant, hkeep, hlost⟩ := h.partitioned.vacate hslot hocc
    have hkept := PageTable.vacate_extends hvacate
    have hlive := h.live_eq
    -- the page is queued when it is left empty behind the cursor, and stays as it is otherwise
    by_cases hrelease : page.live = 0 ∧ place.page ≠ s.cursor.place.page
    · obtain ⟨t₂, hrun, hpartitioned, htotal₂, hvacant₂⟩ := hlost hrelease.1 hrelease.2
      refine ⟨{ s with pages := t₂, live := s.live - 1 },
        by simp [Slab.freeAt, hvacate, hrelease, hrun],
        h.repage (hkept.trans (PageTable.release_extends hrun)) hpartitioned (by omega) ?_,
        hvacant₂ _ h.cursor_lt⟩
      exact fun slot hgt hlt => hvacant₂ ⟨_, slot⟩ hlt (h.ahead_vacant slot hgt hlt)
    · refine ⟨{ s with pages := t₁, live := s.live - 1 },
        by simp [Slab.freeAt, hvacate, hrelease],
        h.repage hkept (hkeep (by tauto)) (by omega) ?_, hvacant _ h.cursor_lt⟩
      exact fun slot hgt hlt => hvacant ⟨_, slot⟩ hlt (h.ahead_vacant slot hgt hlt)

/-- The front of the record in any slot can be replaced. -/
theorem writeAt (h : s.Divided) {place : Place} {src : Bytes}
    (hp : place.page.toNat < s.pages.pages.size) (hslot : place.slot < s.pages.slots)
    (hsrc : src.size ≤ s.pages.recordSize) : ∃ s', s.writeAt place src = .ok s' ∧
      s'.Divided ∧ (s.Parked → s'.Parked) := by
  obtain ⟨hwrite, -, hframe⟩ := h.partitioned.toOrdered.write hp hslot hsrc
  obtain ⟨hpartitioned, htotal⟩ := h.partitioned.write hp hslot hsrc
  refine ⟨_, by rw [Slab.writeAt, hwrite]; rfl, h.repage (PageTable.write_extends hwrite)
    hpartitioned (h.live_eq.trans htotal.symm) fun slot hgt hlt => ?_,
    (hframe s.cursor.place h.cursor_lt).1.trans⟩
  rw [(hframe ⟨_, slot⟩ hlt).1]
  exact h.ahead_vacant slot hgt hlt

theorem of_freeAt (h : s.Divided) {place : Place} (hrun : (s.freeAt place).outcome = .ok s') :
    s'.Divided ∧ (s.Parked → s'.Parked) := by
  obtain ⟨vacated, hvacate, -⟩ := Traced.outcome_bind_eq_ok hrun
  obtain ⟨hp, hslot⟩ := h.pages.of_vacate (Traced.outcome_liftFault_eq_ok hvacate)
  obtain ⟨s₁, hrun', hdone⟩ := h.freeAt hp hslot
  cases hrun.symm.trans hrun'
  exact hdone

theorem of_writeAt (h : s.Divided) {place : Place} {src : Bytes}
    (hrun : s.writeAt place src = .ok s') : s'.Divided ∧ (s.Parked → s'.Parked) := by
  obtain ⟨t, hwrite, -⟩ := bind_eq_ok hrun
  obtain ⟨hp, hslot, hsrc⟩ := h.pages.of_write hwrite
  obtain ⟨s₁, hrun', hdone⟩ := h.writeAt hp hslot hsrc
  cases hrun.symm.trans hrun'
  exact hdone

theorem move (h : s.Divided) (hmove : s.Move s') (hsize : s'.pageCount ≤ 2 ^ 32) :
    s'.Divided := by
  cases hmove with
  | occupy hvacant hrun =>
    rw [h.pages.isOccupied_eq h.cursor_page_lt h.cursor_lt] at hvacant
    obtain ⟨t, hrun', hdivided⟩ := h.occupy (Except.ok.inj hvacant)
    cases hrun.symm.trans hrun'
    exact hdivided
  | advance hrun =>
    obtain ⟨c, t, hrun', hdivided⟩ := h.advance
    cases hrun.symm.trans hrun'
    exact (hdivided hsize).1
  | vacate place hrun => exact (h.of_freeAt hrun).1
  | write place src hrun => exact (h.of_writeAt hrun).1

/-- The moves may come in any order. -/
theorem moves (h : s.Divided) (hmoves : Relation.ReflTransGen Move s s')
    (hsize : s'.pageCount ≤ 2 ^ 32) : s'.Divided := by
  induction hmoves with
  | refl => exact h
  | tail _ hmove ih => exact (ih (hmove.extends.pages.size_le.trans hsize)).move hmove hsize

/-- An operation is a few moves, and leaves the cursor on a vacant slot. -/
theorem step (h : s.Divided) (hparked : s.Parked) (hstep : s.Step s')
    (hsize : s'.pageCount ≤ 2 ^ 32) : s'.Divided ∧ s'.Parked := by
  cases hstep with
  | create hrun =>
    obtain ⟨t, c, t', hoccupy, hadvance, -, rfl⟩ := create_cases hrun
    obtain ⟨t₁, hoccupy', hoccupied⟩ := h.occupy hparked
    cases hoccupy.symm.trans hoccupy'
    obtain ⟨c', t₂, hadvance', hdone⟩ := hoccupied.advance
    cases hadvance.symm.trans hadvance'
    exact hdone hsize
  | write place src hrun => exact (h.of_writeAt hrun).imp_right fun hkept => hkept hparked
  | free index hrun => exact (h.of_freeAt hrun).imp_right fun hkept => hkept hparked

theorem steps (h : s.Divided) (hparked : s.Parked) (hsteps : Relation.ReflTransGen Step s s')
    (hsize : s'.pageCount ≤ 2 ^ 32) : s'.Divided ∧ s'.Parked := by
  induction hsteps with
  | refl => exact ⟨h, hparked⟩
  | tail _ hstep ih =>
    obtain ⟨hdivided, hparked'⟩ := ih (hstep.extends.pages.size_le.trans hsize)
    exact hdivided.step hparked' hstep hsize

/-- A record can be created whenever the cursor is on a vacant slot. -/
theorem create (h : s.Divided) (hparked : s.Parked) :
    ∃ s', s.create.outcome = .ok (s.upcoming, s') := by
  obtain ⟨t, hoccupy, hoccupied⟩ := h.occupy hparked
  obtain ⟨c, t', hadvance, -⟩ := hoccupied.advance
  exact ⟨_, by simp [Slab.create, hoccupy, hadvance, upcoming]; rfl⟩

theorem live_eq_card (h : s.Divided) {p : UInt32} {page : Page}
    (hpage : s.pages.page p = .ok page) : page.live =
      ((Finset.range s.pageCapacity).filter fun slot => page.isOccupied slot = .ok true).card := by
  have hget := PageTable.getElem?_of_page hpage
  have hcount := (h.pages.rows_eq hget).1
  rw [h.partitioned.counted _ page hget, Rows.occupied, hcount, h.pageCapacity_eq]
  congr 1
  apply Finset.filter_congr
  intro slot hslot
  rw [Page.isOccupied, hcount, if_pos (Finset.mem_range.mp hslot), Except.ok.injEq]

/-- The class of a page is read off the cursor and the queue. -/
theorem existsUnique_class (h : s.Divided) {p : UInt32} {page : Page}
    (hpage : s.pages.page p = .ok page) : ∃! c, s.InClass p page c := by
  have hget := PageTable.getElem?_of_page hpage
  by_cases hcursor : p = s.cursor.place.page
  · subst hcursor
    refine ⟨.filling, ⟨rfl, h.partitioned.notMem_free⟩, fun c hc => ?_⟩
    cases c with
    | filling => rfl
    | waiting =>
      have hmem := List.count_pos_iff.mp (Nat.lt_of_lt_of_eq Nat.one_pos hc.1.symm)
      exact (h.partitioned.notMem_free hmem).elim
    | inUse => exact (hc.1 rfl).elim
  by_cases hfree : p ∈ s.pages.free.toList
  · obtain ⟨-, page', hpage', hlive⟩ := h.partitioned.free_empty p hfree
    cases hget.symm.trans hpage'
    refine ⟨.waiting, ⟨List.count_eq_one_of_mem h.partitioned.free_nodup hfree, hlive⟩,
      fun c hc => ?_⟩
    cases c with
    | filling => exact (hcursor hc.1).elim
    | waiting => rfl
    | inUse => exact (hc.2.1 hfree).elim
  · -- a page without live records would be under the cursor or in the queue
    have hlive : page.live ≠ 0 := fun hzero => by
      rcases h.partitioned.tracked p page hget hzero with hp | hp
      · exact hcursor (List.mem_singleton.mp hp)
      · exact hfree hp
    refine ⟨.inUse, ⟨hcursor, hfree, Nat.one_le_iff_ne_zero.mpr hlive⟩, fun c hc => ?_⟩
    cases c with
    | filling => exact (hcursor hc.1).elim
    | waiting => exact (hlive hc.2).elim
    | inUse => rfl

theorem classified (h : s.Divided) : s.Classified where
  existsUnique_class := fun _ _ hpage => h.existsUnique_class hpage
  live_eq_card := fun _ _ hpage => h.live_eq_card hpage
  live_le := by
    intro p page hpage
    rw [h.live_eq_card hpage]
    exact (Finset.card_filter_le _ _).trans_eq (Finset.card_range _)
  cursor_page := ⟨_, PageTable.page_eq (Array.getElem?_eq_getElem h.cursor_page_lt)⟩
  ahead_vacant := by
    intro slot hgt hlt
    rw [h.pageCapacity_eq] at hlt
    have hread : s.pages.isOccupied ⟨s.cursor.place.page, slot⟩ = .ok _ :=
      h.pages.isOccupied_eq h.cursor_page_lt hlt
    rw [hread, h.ahead_vacant slot hgt hlt]

end Divided

/-- A fresh slab has lost none of its pages, and they hold no records. -/
theorem new_tracked {layout : RecordLayout} {config : SlabConfig} {backing : Backing}
    (h : (new layout config backing).outcome = .ok s) (hsize : s.pageCount ≤ 2 ^ 32) :
    s.pages.Tracked [s.cursor.place.page] ∧ s.pages.liveTotal = 0 ∧
      s.pageCount ≤ max config.initialPages 1 := by
  have hshaped := new_shaped h
  obtain ⟨-, hlayout, -⟩ := RecordLayout.validate_eq_ok.mp hshaped.valid
  obtain ⟨t₀, t₁, p, hempty, hmany, hnext, hcursor, -⟩ := new_cases h
  have hextends₁ := PageTable.generateMany_extends hmany
  have hextends₂ := PageTable.nextFree_extends hnext
  have hslots := hextends₂.slots_eq ▸ hshaped.slots_eq
  have hwidth : t₁.recordSize ≤ maxRecordSize := by
    rw [← hextends₂.recordSize_eq, hshaped.recordSize_eq]
    exact hlayout
  obtain ⟨htracked₀, htotal₀, hnone⟩ := PageTable.Tracked.empty hempty
  obtain ⟨htracked₁, htotal₁, hcount⟩ := htracked₀.generateMany (hextends₁.slots_eq ▸ hslots)
    (hextends₁.recordSize_eq ▸ hwidth) hmany
  have hblock := PageTable.block_le hslots hwidth
  rw [hcursor]
  refine ⟨htracked₁.nextFree hblock hnext,
    ((PageTable.liveTotal_nextFree hblock hnext).trans htotal₁).trans htotal₀, ?_⟩
  rw [hnone, Nat.zero_add] at hcount
  rcases PageTable.nextFree_cases hblock hnext with ⟨-, hpages⟩ | ⟨hfree, -, -, hpages⟩
  · rw [pageCount, hpages, hcount]
    exact Nat.le_max_left _ _
  · -- none of the initial pages waits, so there were none
    rw [pageCount, hpages, Array.size_push] at hsize
    have hle := htracked₁.size_le_liveTotal hfree (Nat.le_of_succ_le hsize)
    rw [pageCount, hpages, Array.size_push]
    omega

theorem Divided.new {layout : RecordLayout} {config : SlabConfig} {backing : Backing}
    (h : (Slab.new layout config backing).outcome = .ok s) (hsize : s.pageCount ≤ 2 ^ 32) :
    s.Divided ∧ s.Parked := by
  have hshaped := new_shaped h
  obtain ⟨hordered, hvacant, hslots, -, hslot, hlive⟩ := new_ordered h hsize
  obtain ⟨htracked, htotal, -⟩ := new_tracked h hsize
  refine ⟨?_, hvacant _⟩
  exact {
    toShaped := hshaped
    partitioned := ⟨hordered, htracked⟩
    cursor_slots := hslots
    cursor_lt := by
      obtain ⟨k, -, hpow⟩ := hshaped.slots_eq
      rw [hslot, hpow]
      exact Nat.two_pow_pos k
    ahead_vacant := fun slot _ _ => hvacant _
    live_eq := hlive.trans htotal.symm }

/-- As long as all places have indices, a slab counts the live ones. -/
theorem live_eq_ncard {layout : RecordLayout} {config : SlabConfig} {backing : Backing}
    {s₀ : Slab} (h : (new layout config backing).outcome = .ok s₀)
    (hsteps : Relation.ReflTransGen Step s₀ s) (hfits : s.pageCount * s.pageCapacity ≤ 2 ^ 32) :
    s.live = {index | s.isLive index = .ok true}.ncard := by
  suffices hsound : s.Sound ∧ s.live = {index | s.Live index}.ncard by
    rw [hsound.2]
    simp only [hsound.1.isLive_eq, Except.ok.injEq, Live]
  induction hsteps with
  | refl =>
    obtain ⟨hsound, hnone, hlive⟩ := Sound.new h hfits
    have hset : {index | s₀.Live index} = ∅ := Set.eq_empty_of_forall_notMem hnone
    exact ⟨hsound, by rw [hset, Set.ncard_empty, hlive]⟩
  | tail _ hstep ih =>
    obtain ⟨hsound, hlive⟩ := ih (hstep.extends.fits hfits)
    obtain ⟨call, answer, hrun⟩ := hsound.exists_call hstep
    have hdoes := hsound.does hrun hfits
    exact ⟨hdoes.sound hsound, hdoes.live_eq_ncard hlive⟩

/-- No page is lost and none is queued twice. After any moves from a fresh slab, every page is of
one class and counts its occupied slots, and the slots ahead of the cursor are vacant. Between
operations the slot under the cursor is vacant too, the slab counts the records of all pages and,
where all places have indices, the live indices; and the next operation is answered. -/
theorem pages_classified {layout : RecordLayout} {config : SlabConfig} {backing : Backing}
    {s₀ : Slab} (h : (new layout config backing).outcome = .ok s₀) :
    (∀ s, Relation.ReflTransGen Move s₀ s → s.pageCount ≤ 2 ^ 32 → s.Classified) ∧
    ∀ s, Relation.ReflTransGen Step s₀ s → s.pageCount ≤ 2 ^ 32 →
      s.Classified ∧ s.pages.isOccupied s.cursor.place = .ok false ∧
      s.live = s.pages.liveTotal ∧
      (s.pageCount * s.pageCapacity ≤ 2 ^ 32 →
        s.live = {index | s.isLive index = .ok true}.ncard) ∧
      (∃ s', s.create.outcome = .ok (s.upcoming, s')) ∧
      ∀ index, s.HasPage index → ∃ s', (s.free index).outcome = .ok s' := by
  refine ⟨fun s hmoves hsize => ?_, fun s hsteps hsize => ?_⟩
  · have hle : s₀.pageCount ≤ s.pageCount := by
      induction hmoves with
      | refl => exact Nat.le_refl _
      | tail _ hmove ih =>
        have hle := hmove.extends.pages.size_le
        exact (ih (hle.trans hsize)).trans hle
    exact ((Divided.new h (hle.trans hsize)).1.moves hmoves hsize).classified
  · have hle := (Extends.of_steps hsteps).pages.size_le
    obtain ⟨hnew, hparked⟩ := Divided.new h (hle.trans hsize)
    obtain ⟨hdivided, hparked⟩ := hnew.steps hparked hsteps hsize
    refine ⟨hdivided.classified, ?_, hdivided.live_eq, live_eq_ncard h hsteps,
      hdivided.create hparked, fun index hpage => ?_⟩
    · rw [hdivided.pages.isOccupied_eq hdivided.cursor_page_lt hdivided.cursor_lt, hparked]
    · obtain ⟨s', hrun, -⟩ := hdivided.freeAt (Shaped.page_lt hpage) (hdivided.slot_lt index)
      exact ⟨s', hrun⟩

/-- A page is queued when its last record ends behind the cursor, and freeing that record again does
not queue it twice; it is also queued when the cursor leaves it after its last record. -/
theorem pages_classified_recycled : ∃ s₀ s s' : Slab,
    (new { size := 4 } { pageSize := 2, initialPages := 1 } .heap).outcome = .ok s₀ ∧
    (Relation.ReflTransGen Step s₀ s ∧ s.pages.free.toList = [0] ∧ s.cursor.place.page = 1 ∧
      s.Classified ∧ s.live = {index | s.isLive index = .ok true}.ncard) ∧
    Relation.ReflTransGen Move s₀ s' ∧ s'.pages.free.toList = [0] ∧ s'.cursor.place.page = 1 ∧
      s'.Classified := by
  obtain ⟨s₀, s₁, s₂, s₃, s₄, s₅, h, h₁, h₂, h₃, h₄, h₅, hfree, hpage, hfits, hsize⟩ :
      ∃ s₀ s₁ s₂ s₃ s₄ s₅ : Slab,
        (new { size := 4 } { pageSize := 2, initialPages := 1 } .heap).outcome = .ok s₀ ∧
        s₀.create.outcome = .ok (s₀.upcoming, s₁) ∧ s₁.create.outcome = .ok (s₁.upcoming, s₂) ∧
        (s₂.free 0).outcome = .ok s₃ ∧ (s₃.free 1).outcome = .ok s₄ ∧
        (s₄.free 1).outcome = .ok s₅ ∧ s₅.pages.free.toList = [0] ∧ s₅.cursor.place.page = 1 ∧
        s₅.pageCount * s₅.pageCapacity ≤ 2 ^ 32 ∧ s₅.pageCount ≤ 2 ^ 32 :=
    ⟨_, _, _, _, _, _, rfl, rfl, rfl, rfl, rfl, rfl, by decide, by decide, by decide, by decide⟩
  have hsteps : Relation.ReflTransGen Step s₀ s₅ :=
    ((((Relation.ReflTransGen.single (.create h₁)).tail (.create h₂)).tail (.free 0 h₃)).tail
      (.free 1 h₄)).tail (.free 1 h₅)
  obtain ⟨hclassified, -, -, hlive, -⟩ := (pages_classified h).2 s₅ hsteps hsize
  obtain ⟨s', hmoves, hfree', hpage', hsize'⟩ : ∃ s', Relation.ReflTransGen Move s₀ s' ∧
      s'.pages.free.toList = [0] ∧ s'.cursor.place.page = 1 ∧ s'.pageCount ≤ 2 ^ 32 := by
    cases h
    exact ⟨_, (((Relation.ReflTransGen.single (.occupy rfl rfl)).tail (.vacate ⟨0, 0⟩ rfl)).tail
      (.advance rfl)).tail (.advance rfl), by decide, by decide, by decide⟩
  exact ⟨s₀, s₅, s', h, ⟨hsteps, hfree, hpage, hclassified, hlive hfits⟩, hmoves, hfree', hpage',
    (pages_classified h).1 s' hmoves hsize'⟩

end Slab

end RecordArena
