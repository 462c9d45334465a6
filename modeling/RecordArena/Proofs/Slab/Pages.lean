import Mathlib.Data.Finset.Card
import RecordArena.Proofs.Rows
import RecordArena.Proofs.Slab.Shape

/-!
# Pages in order

`PageTable.Ordered` is the invariant of a page table whose pages are filled one after the other:
every page counts its occupied rows, and the queue holds empty pages, each once and never the one
that is being filled. Each operation is described by what it does to the flag and the bytes of
every place.

## Main statements

* `PageTable.Ordered.occupy`, `PageTable.Ordered.vacate`, `PageTable.Ordered.write` – one place
  changes.
* `PageTable.Ordered.release`, `PageTable.Ordered.nextFree` – no live record changes.
-/

namespace RecordArena

namespace Rows

variable {rows : Rows} {i j : Nat}

def occupied (rows : Rows) : Finset Nat :=
  (Finset.range rows.count).filter fun i => rows.isOccupied i = true

theorem mem_occupied : i ∈ rows.occupied ↔ i < rows.count ∧ rows.isOccupied i = true := by
  rw [occupied, Finset.mem_filter, Finset.mem_range]

theorem isOccupied_occupy (hi : i < rows.count) (j : Nat) :
    (rows.occupy i).isOccupied j = (decide (i = j) || rows.isOccupied j) := by
  rw [occupy, isOccupied_setFlag hi]
  by_cases h : i = j
  · rw [if_pos h, decide_eq_true h]
    rfl
  · rw [if_neg h, decide_eq_false h, Bool.false_or]

theorem isOccupied_vacate (hi : i < rows.count) (j : Nat) :
    (rows.vacate i).isOccupied j = (decide (i ≠ j) && rows.isOccupied j) := by
  rw [vacate, isOccupied_setFlag hi]
  by_cases h : i = j
  · rw [if_pos h, decide_eq_false (not_not.mpr h)]
    rfl
  · rw [if_neg h, decide_eq_true h, Bool.true_and]

theorem occupied_occupy (hi : i < rows.count) :
    (rows.occupy i).occupied = insert i rows.occupied := by
  ext j
  rw [mem_occupied, Finset.mem_insert, mem_occupied, isOccupied_occupy hi, Bool.or_eq_true,
    decide_eq_true_eq]
  change j < rows.count ∧ _ ↔ _
  constructor
  · rintro ⟨hj, rfl | hocc⟩
    · exact .inl rfl
    · exact .inr ⟨hj, hocc⟩
  · rintro (rfl | ⟨hj, hocc⟩)
    · exact ⟨hi, .inl rfl⟩
    · exact ⟨hj, .inr hocc⟩

theorem occupied_vacate (hi : i < rows.count) :
    (rows.vacate i).occupied = rows.occupied.erase i := by
  ext j
  rw [mem_occupied, Finset.mem_erase, mem_occupied, isOccupied_vacate hi, Bool.and_eq_true,
    decide_eq_true_eq]
  change j < rows.count ∧ _ ↔ _
  constructor
  · rintro ⟨hj, hne, hocc⟩
    exact ⟨fun heq => hne heq.symm, hj, hocc⟩
  · rintro ⟨hne, hj, hocc⟩
    exact ⟨hj, fun heq => hne heq.symm, hocc⟩

theorem occupied_setPayload (i : Nat) (src : Bytes) :
    (rows.setPayload i src).occupied = rows.occupied := by
  ext j
  rw [mem_occupied, mem_occupied]
  change j < rows.count ∧ _ ↔ _
  constructor
  · rintro ⟨hj, hocc⟩
    exact ⟨hj, by rwa [isOccupied_setPayload i src hj] at hocc⟩
  · rintro ⟨hj, hocc⟩
    exact ⟨hj, by rwa [isOccupied_setPayload i src hj]⟩

theorem occupied_eq_empty (h : ∀ i, rows.isOccupied i = false) : rows.occupied = ∅ := by
  rw [occupied, Finset.filter_eq_empty_iff]
  intro i hi
  rw [h i]
  exact Bool.false_ne_true

/-- Writing the front of a payload overwrites the front of its bytes and no other payload. -/
theorem payload_setPayload_front (i : Nat) (src : Bytes) (hj : j < rows.count) :
    (rows.setPayload i src).payload j =
      if i = j then (rows.payload j).overwrite 0 src.toList else rows.payload j := by
  apply Array.ext_getElem?
  intro k
  rw [getElem?_payload (show j < (rows.setPayload i src).count from hj)]
  change (if k < rows.width then (rows.setPayload i src).block[
    rows.flagPosition j + (k + 1)]? else none) = _
  have hsize := size_payload hj
  -- byte `k` is in the front of the payload that is written, in another payload, or past the end
  by_cases hk : k < rows.width
  · rw [if_pos hk, getElem?_setPayload src hj (Nat.succ_lt_succ hk)]
    by_cases hij : i = j
    · rw [if_pos hij, Bytes.getElem?_overwrite, Nat.sub_zero, Nat.succ_sub_one]
      by_cases hfront : k < src.size
      · rw [if_pos ⟨hij, by omega, by omega⟩, if_pos ⟨by omega, by simpa using hfront, by omega⟩,
          Array.getElem?_toList]
      · rw [if_neg (by omega), if_neg (by rw [Array.length_toList]; omega), getElem?_payload hj,
          if_pos hk]
    · rw [if_neg fun h => hij h.1, if_neg hij, getElem?_payload hj, if_pos hk]
  · rw [if_neg hk]
    by_cases hij : i = j
    · rw [if_pos hij, Array.getElem?_eq_none (by rw [Bytes.size_overwrite]; omega)]
    · rw [if_neg hij, getElem?_payload hj, if_neg hk]

end Rows

namespace Page

variable {page : Page} {slot : Nat}

/-- The count of live records is right. -/
def Counted (page : Page) : Prop := page.live = page.rows.occupied.card

theorem Counted.occupy (h : page.Counted) (hslot : slot < page.rows.count)
    (hvacant : page.rows.isOccupied slot = false) : (page.occupy slot).Counted := by
  have hnew : slot ∉ page.rows.occupied := by
    rw [Rows.mem_occupied, hvacant]
    exact fun hmem => Bool.false_ne_true hmem.2
  change page.live + 1 = (page.rows.occupy slot).occupied.card
  rw [Rows.occupied_occupy hslot, Finset.card_insert_of_notMem hnew, h]

theorem Counted.vacate (h : page.Counted) (hslot : slot < page.rows.count)
    (hocc : page.rows.isOccupied slot = true) : (page.vacate slot).Counted := by
  change page.live - 1 = (page.rows.vacate slot).occupied.card
  rw [Rows.occupied_vacate hslot, Finset.card_erase_of_mem (Rows.mem_occupied.mpr ⟨hslot, hocc⟩), h]

theorem Counted.write (h : page.Counted) (src : Bytes) : (page.write slot src).Counted := by
  change page.live = (page.rows.setPayload slot src).occupied.card
  rw [Rows.occupied_setPayload, h]

theorem Counted.of_vacant (hlive : page.live = 0) (h : ∀ i, page.rows.isOccupied i = false) :
    page.Counted := by
  rw [Counted, Rows.occupied_eq_empty h, hlive, Finset.card_empty]

/-- No row of a page without live records is occupied. -/
theorem Counted.vacant (h : page.Counted) (hlive : page.live = 0) (hslot : slot < page.rows.count) :
    page.rows.isOccupied slot = false := by
  rw [Counted, hlive, eq_comm, Finset.card_eq_zero] at h
  by_contra hocc
  have hmem : slot ∈ page.rows.occupied :=
    Rows.mem_occupied.mpr ⟨hslot, Bool.not_eq_false _ ▸ hocc⟩
  rw [h] at hmem
  exact Finset.notMem_empty slot hmem

end Page

namespace PageTable

/-- Whether a place is occupied; a place of no page is not. -/
def occupiedAt (t : PageTable) (place : Place) : Bool :=
  match t.pages[place.page.toNat]? with
  | some page => page.rows.isOccupied place.slot
  | none => false

/-- The bytes of a place, occupied or not; a place of no page has none. -/
def bytesAt (t : PageTable) (place : Place) : Bytes :=
  match t.pages[place.page.toNat]? with
  | some page => page.rows.payload place.slot
  | none => #[]

def withPage (t : PageTable) (p : UInt32) (change : Page → Page) : PageTable :=
  { t with pages := t.pages.modify p.toNat change }

/-- The invariant of a table. The page that is being filled, if there is one, is `current`. -/
structure Ordered (t : PageTable) (current : Option UInt32) : Prop where
  shaped : t.Shaped
  counted : ∀ (i : Nat) (page : Page), t.pages[i]? = some page → page.Counted
  current_lt : ∀ p ∈ current, p.toNat < t.pages.size
  free_nodup : t.free.toList.Nodup
  free_empty : ∀ p ∈ t.free.toList,
    p ∉ current ∧ ∃ page, t.pages[p.toNat]? = some page ∧ page.live = 0

variable {t : PageTable} {p : UInt32} {current : Option UInt32} {page : Page}
  {change : Page → Page}

theorem page_eq (hpage : t.pages[p.toNat]? = some page) : t.page p = .ok page := by
  obtain ⟨hp, rfl⟩ := Array.getElem?_eq_some_iff.mp hpage
  exact dif_pos hp

theorem modify_eq (hp : p.toNat < t.pages.size) (change : Page → Page) :
    t.modify p change = .ok (t.withPage p change) :=
  if_pos (decide_eq_true hp)

theorem getElem?_withPage (t : PageTable) (p : UInt32) (change : Page → Page) (i : Nat) :
    (t.withPage p change).pages[i]? =
      if p.toNat = i then t.pages[i]?.map change else t.pages[i]? :=
  Array.getElem?_modify

theorem size_withPage (t : PageTable) (p : UInt32) (change : Page → Page) :
    (t.withPage p change).pages.size = t.pages.size :=
  Array.size_modify

theorem occupiedAt_withPage (hpage : t.pages[p.toNat]? = some page) (place : Place) :
    (t.withPage p change).occupiedAt place =
      if place.page = p then (change page).rows.isOccupied place.slot else t.occupiedAt place := by
  rw [occupiedAt, getElem?_withPage]
  by_cases h : place.page = p
  · rw [if_pos h, h, if_pos rfl, hpage]
    rfl
  · rw [if_neg h, if_neg fun heq => h (UInt32.toNat_inj.mp heq.symm)]
    rfl

theorem bytesAt_withPage (hpage : t.pages[p.toNat]? = some page) (place : Place) :
    (t.withPage p change).bytesAt place =
      if place.page = p then (change page).rows.payload place.slot else t.bytesAt place := by
  rw [bytesAt, getElem?_withPage]
  by_cases h : place.page = p
  · rw [if_pos h, h, if_pos rfl, hpage]
    rfl
  · rw [if_neg h, if_neg fun heq => h (UInt32.toNat_inj.mp heq.symm)]
    rfl

/-- What happens to a page when it is queued. -/
def recycle (t : PageTable) : Page → Page := if t.resetOnFree then Page.clear else id

/-- Recycling an empty page leaves it empty, zeroed or not. -/
theorem recycle_spec (t : PageTable) (hlive : page.live = 0) :
    page.SameShape (t.recycle page) ∧ (t.recycle page).live = 0 ∧
      ∀ slot, page.rows.isOccupied slot = false →
        (t.recycle page).rows.isOccupied slot = false := by
  rw [recycle]
  split
  · exact ⟨⟨rfl, rfl⟩, rfl, fun slot _ => Rows.isOccupied_clear page.rows slot⟩
  · exact ⟨⟨rfl, rfl⟩, hlive, fun slot hslot => hslot⟩

theorem release_eq (hp : p.toNat < t.pages.size) : (t.release p).outcome =
    .ok { t.withPage p t.recycle with free := t.free.push p } := by
  have hsize : ∀ change, p.toNat < (t.withPage p change).pages.size := fun change => by
    rw [size_withPage]
    exact hp
  have hpage : ∀ change, ∃ page, (t.withPage p change).page p = .ok page := fun change =>
    ⟨_, page_eq (Array.getElem?_eq_getElem (hsize change))⟩
  rw [PageTable.release, recycle]
  cases hreset : t.resetOnFree with
  | true =>
    obtain ⟨page, hread⟩ := hpage Page.clear
    simp [PageTable.clear, modify_eq hp, hread]
    rfl
  | false =>
    obtain ⟨page, hread⟩ := hpage id
    simp [modify_eq hp, hread]
    rfl

/-- The page that is allocated next. -/
def freshPage (t : PageTable) : Page :=
  ⟨UInt32.ofNat t.pages.size, 0, Rows.vacant t.slots t.recordSize⟩

/-- Allocating a page changes the pages and the room for them, and nothing else. -/
theorem addPage_eq (hblock : t.slots * (t.recordSize + 1) ≤ t.backing.limit) :
    ∃ reserved, t.addPage.outcome = .ok (UInt32.ofNat t.pages.size,
      { t with pages := t.pages.push t.freshPage, reserved := reserved }) := by
  have hreserve : ∃ reserved, t.reserve.outcome = .ok { t with reserved := reserved } := by
    rw [reserve]
    split
    · exact ⟨_, rfl⟩
    · exact ⟨t.reserved, rfl⟩
  obtain ⟨reserved, hreserve⟩ := hreserve
  refine ⟨reserved, ?_⟩
  simp [addPage, hreserve, Page.allocate, Rows.allocate_of_le hblock, freshPage]

/-- The next page to fill is the first of the queue, or a new one when the queue is empty. -/
theorem nextFree_eq (t : PageTable) :
    (∃ p, t.free.toList = p :: (t.free.extract 1 t.free.size).toList ∧
      t.nextFree = pure (p, { t with free := t.free.extract 1 t.free.size })) ∨
    (t.free.toList = [] ∧ t.nextFree = t.addPage) := by
  rw [nextFree, Array.toList_extract, ← Array.length_toList, ← Array.getElem?_toList]
  cases t.free.toList with
  | nil => exact .inr ⟨rfl, rfl⟩
  | cons p rest => exact .inl ⟨p, by simp, rfl⟩

theorem Shaped.rows_eq {i : Nat} (h : t.Shaped) (hpage : t.pages[i]? = some page) :
    page.rows.count = t.slots ∧ page.rows.width = t.recordSize := by
  obtain ⟨hi, rfl⟩ := Array.getElem?_eq_some_iff.mp hpage
  exact h _ (Array.getElem_mem hi)

theorem Shaped.record_eq (h : t.Shaped) {place : Place} (hp : place.page.toNat < t.pages.size)
    (hslot : place.slot < t.slots) : t.record place = .ok (t.bytesAt place) := by
  have hpage := Array.getElem?_eq_getElem hp
  rw [PageTable.record, page_eq hpage, ok_bind, Page.record, if_pos (by rwa [(h.rows_eq hpage).1]),
    bytesAt, hpage]

theorem Shaped.isOccupied_eq (h : t.Shaped) {place : Place}
    (hp : place.page.toNat < t.pages.size) (hslot : place.slot < t.slots) :
    t.isOccupied place = .ok (t.occupiedAt place) := by
  have hpage := Array.getElem?_eq_getElem hp
  rw [PageTable.isOccupied, page_eq hpage, ok_bind, Page.isOccupied,
    if_pos (by rwa [(h.rows_eq hpage).1]), occupiedAt, hpage]

/-- What fits a record can be written to any place of a page that is there. -/
theorem Shaped.write_eq (h : t.Shaped) {place : Place} {src : Bytes}
    (hp : place.page.toNat < t.pages.size) (hslot : place.slot < t.slots)
    (hsrc : src.size ≤ t.recordSize) :
    t.write place src = .ok (t.withPage place.page (·.write place.slot src)) := by
  have hpage := Array.getElem?_eq_getElem hp
  obtain ⟨hcount, hwidth⟩ := h.rows_eq hpage
  have haccepts : (t.pages[place.page.toNat]).accepts place.slot src = true := by
    rw [Page.accepts, Bool.and_eq_true, decide_eq_true_eq, decide_eq_true_eq, hcount, hwidth]
    exact ⟨hslot, hsrc⟩
  rw [PageTable.write, page_eq hpage, ok_bind, if_pos haccepts, modify_eq hp]

/-- Writing the front of the bytes of a place leaves every flag and the bytes of all other
places. -/
theorem Shaped.written (h : t.Shaped) {place place' : Place} {src : Bytes}
    (hp : place.page.toNat < t.pages.size) (hslot : place'.slot < t.slots) :
    (t.withPage place.page (·.write place.slot src)).occupiedAt place' = t.occupiedAt place' ∧
      (t.withPage place.page (·.write place.slot src)).bytesAt place' =
        if place' = place then (t.bytesAt place').overwrite 0 src.toList
        else t.bytesAt place' := by
  obtain ⟨page, hpage⟩ : ∃ page, t.pages[place.page.toNat]? = some page :=
    ⟨_, Array.getElem?_eq_getElem hp⟩
  have hcount := (h.rows_eq hpage).1
  obtain ⟨p', i⟩ := place'
  obtain ⟨p, slot⟩ := place
  rw [occupiedAt_withPage hpage, bytesAt_withPage hpage]
  by_cases hsame : p' = p
  · subst hsame
    rw [if_pos rfl, if_pos rfl, occupiedAt, bytesAt, hpage]
    constructor
    · exact Rows.isOccupied_setPayload slot src (by rwa [hcount])
    · change (page.rows.setPayload slot src).payload i = _
      rw [Rows.payload_setPayload_front slot src (by rwa [hcount])]
      simp [eq_comm]
  · rw [if_neg hsame, if_neg hsame, if_neg (by rintro ⟨⟩; exact hsame rfl)]
    exact ⟨rfl, rfl⟩

theorem getElem?_of_page (h : t.page p = .ok page) : t.pages[p.toNat]? = some page := by
  unfold PageTable.page at h
  split at h
  · next hp =>
    cases h
    exact Array.getElem?_eq_getElem hp
  · cases h

/-- A flag that can be read is the one of a place. -/
theorem Shaped.of_isOccupied (h : t.Shaped) {place : Place} {occupied : Bool}
    (hrun : t.isOccupied place = .ok occupied) :
    place.page.toNat < t.pages.size ∧ place.slot < t.slots := by
  obtain ⟨page, hread, hrun⟩ := bind_eq_ok hrun
  have hpage := getElem?_of_page hread
  unfold Page.isOccupied at hrun
  split at hrun
  · next hslot =>
    rw [(h.rows_eq hpage).1] at hslot
    exact ⟨(Array.getElem?_eq_some_iff.mp hpage).1, hslot⟩
  · cases hrun

/-- What has been written was written to a place and fits a record. -/
theorem Shaped.of_write (h : t.Shaped) {place : Place} {src : Bytes} {t' : PageTable}
    (hrun : t.write place src = .ok t') :
    place.page.toNat < t.pages.size ∧ place.slot < t.slots ∧ src.size ≤ t.recordSize := by
  obtain ⟨page, hread, hrun⟩ := bind_eq_ok hrun
  have hpage := getElem?_of_page hread
  obtain ⟨hcount, hwidth⟩ := h.rows_eq hpage
  split at hrun
  · next haccepts =>
    rw [Page.accepts, Bool.and_eq_true, decide_eq_true_eq, decide_eq_true_eq, hcount,
      hwidth] at haccepts
    exact ⟨(Array.getElem?_eq_some_iff.mp hpage).1, haccepts⟩
  · cases hrun

theorem Shaped.of_vacate (h : t.Shaped) {place : Place} {answer : Option Nat × PageTable}
    (hrun : t.vacate place = .ok answer) :
    place.page.toNat < t.pages.size ∧ place.slot < t.slots := by
  obtain ⟨occupied, hread, -⟩ := bind_eq_ok hrun
  exact h.of_isOccupied hread

namespace Ordered

/-- A page may change as long as it counts its rows and is empty if it waits. -/
theorem withPage (h : t.Ordered current) (hpage : t.pages[p.toNat]? = some page)
    (hshape : page.SameShape (change page)) (hcounted : (change page).Counted)
    (hfree : p ∈ t.free.toList → (change page).live = 0) :
    (t.withPage p change).Ordered current where
  shaped := by
    intro page' hpage'
    obtain ⟨i, hget⟩ := Array.mem_iff_getElem?.mp hpage'
    rw [getElem?_withPage] at hget
    split at hget
    · next heq =>
      rw [← heq, hpage] at hget
      cases hget
      obtain ⟨hcount, hwidth⟩ := h.shaped.rows_eq hpage
      exact ⟨hshape.1.trans hcount, hshape.2.trans hwidth⟩
    · exact h.shaped.rows_eq hget
  counted := by
    intro i page' hpage'
    rw [getElem?_withPage] at hpage'
    split at hpage'
    · next heq =>
      rw [← heq, hpage] at hpage'
      cases hpage'
      exact hcounted
    · exact h.counted i page' hpage'
  current_lt := by
    intro q hq
    rw [size_withPage]
    exact h.current_lt q hq
  free_nodup := h.free_nodup
  free_empty := by
    intro q hq
    obtain ⟨hne, page', hpage', hlive⟩ := h.free_empty q hq
    rw [getElem?_withPage]
    by_cases heq : p = q
    · subst heq
      rw [if_pos rfl, hpage]
      exact ⟨hne, change page, rfl, hfree hq⟩
    · rw [if_neg fun h => heq (UInt32.toNat_inj.mp h)]
      exact ⟨hne, page', hpage', hlive⟩

/-- A page without live records has no occupied place. -/
theorem occupiedAt_of_live (h : t.Ordered current) (hpage : t.pages[p.toNat]? = some page)
    (hlive : page.live = 0) {slot : Nat} (hslot : slot < t.slots) :
    t.occupiedAt ⟨p, slot⟩ = false := by
  rw [occupiedAt, hpage]
  exact (h.counted _ page hpage).vacant hlive (by rwa [(h.shaped.rows_eq hpage).1])

theorem occupiedAt_of_free (h : t.Ordered current) (hp : p ∈ t.free.toList) {slot : Nat}
    (hslot : slot < t.slots) : t.occupiedAt ⟨p, slot⟩ = false := by
  obtain ⟨-, page, hpage, hlive⟩ := h.free_empty p hp
  exact h.occupiedAt_of_live hpage hlive hslot

theorem live_ne_zero (h : t.Ordered current) {place : Place}
    (hpage : t.pages[place.page.toNat]? = some page) (hslot : place.slot < t.slots)
    (hocc : t.occupiedAt place = true) : page.live ≠ 0 := fun hzero =>
  Bool.false_ne_true ((h.occupiedAt_of_live hpage hzero hslot).symm.trans hocc)

theorem lt_of_occupiedAt {place : Place} (h : t.occupiedAt place = true) :
    place.page.toNat < t.pages.size := by
  rw [occupiedAt] at h
  split at h
  · next page hpage => exact (Array.getElem?_eq_some_iff.mp hpage).1
  · cases h

/-- Occupying a vacant place of the page being filled. -/
theorem occupy (h : t.Ordered (some p)) {slot : Nat} (hslot : slot < t.slots)
    (hvacant : t.occupiedAt ⟨p, slot⟩ = false) :
    (t.withPage p (·.occupy slot)).Ordered (some p) ∧
      ∀ place : Place, place.slot < t.slots →
        (t.withPage p (·.occupy slot)).occupiedAt place =
          (decide (place = ⟨p, slot⟩) || t.occupiedAt place) ∧
        (t.withPage p (·.occupy slot)).bytesAt place = t.bytesAt place := by
  obtain ⟨page, hpage⟩ : ∃ page, t.pages[p.toNat]? = some page :=
    ⟨_, Array.getElem?_eq_getElem (h.current_lt p rfl)⟩
  have hcount := (h.shaped.rows_eq hpage).1
  rw [occupiedAt, hpage] at hvacant
  refine ⟨?_, fun place hplace => ?_⟩
  · exact h.withPage hpage ⟨rfl, rfl⟩
      ((h.counted _ page hpage).occupy (by rwa [hcount]) hvacant)
      fun hfree => ((h.free_empty p hfree).1 rfl).elim
  · obtain ⟨p', i⟩ := place
    rw [occupiedAt_withPage hpage, bytesAt_withPage hpage]
    by_cases hsame : p' = p
    · subst hsame
      rw [if_pos rfl, if_pos rfl, occupiedAt, bytesAt, hpage]
      constructor
      · change (page.rows.occupy slot).isOccupied i = _
        rw [Rows.isOccupied_occupy (by rwa [hcount])]
        simp [eq_comm]
      · exact Rows.payload_setFlag slot 1 (by rwa [hcount])
    · rw [if_neg hsame, if_neg hsame, decide_eq_false (by rintro ⟨⟩; exact hsame rfl),
        Bool.false_or]
      exact ⟨rfl, rfl⟩

/-- The places behind one that is occupied stay vacant. -/
theorem occupy_ahead (h : t.Ordered (some p)) {slot : Nat} (hslot : slot < t.slots)
    (hvacant : t.occupiedAt ⟨p, slot⟩ = false)
    (hahead : ∀ i, slot < i → i < t.slots → t.occupiedAt ⟨p, i⟩ = false) :
    ∀ i, slot < i → i < t.slots →
      (t.withPage p (·.occupy slot)).occupiedAt ⟨p, i⟩ = false := by
  intro i hgt hlt
  obtain ⟨-, hframe⟩ := h.occupy hslot hvacant
  have hne : (⟨p, i⟩ : Place) ≠ ⟨p, slot⟩ := fun heq => by
    have hi : i = slot := congrArg Place.slot heq
    omega
  rw [(hframe ⟨p, i⟩ hlt).1, decide_eq_false hne, hahead i hgt hlt, Bool.or_false]

/-- Vacating an occupied place of any page. -/
theorem vacate (h : t.Ordered current) {place : Place} (hslot : place.slot < t.slots)
    (hocc : t.occupiedAt place = true) :
    ∃ page, (t.withPage place.page (·.vacate place.slot)).pages[place.page.toNat]? = some page ∧
      t.vacate place = .ok (some page.live, t.withPage place.page (·.vacate place.slot)) ∧
      place.page ∉ t.free.toList ∧
      (t.withPage place.page (·.vacate place.slot)).Ordered current ∧
      ∀ place' : Place, place'.slot < t.slots →
        (t.withPage place.page (·.vacate place.slot)).occupiedAt place' =
          (decide (place' ≠ place) && t.occupiedAt place') ∧
        (t.withPage place.page (·.vacate place.slot)).bytesAt place' = t.bytesAt place' := by
  have hp := lt_of_occupiedAt hocc
  obtain ⟨page, hpage⟩ : ∃ page, t.pages[place.page.toNat]? = some page :=
    ⟨_, Array.getElem?_eq_getElem hp⟩
  have hcount := (h.shaped.rows_eq hpage).1
  -- a page that waits has no occupied place
  have hnotfree : place.page ∉ t.free.toList := by
    intro hfree
    have hvacant := h.occupiedAt_of_free hfree hslot
    rw [hvacant] at hocc
    cases hocc
  have hpage' : (t.withPage place.page (·.vacate place.slot)).pages[place.page.toNat]? =
      some (page.vacate place.slot) := by
    rw [getElem?_withPage, if_pos rfl, hpage]
    rfl
  refine ⟨page.vacate place.slot, hpage', ?_, hnotfree, ?_, fun place' hplace' => ?_⟩
  · rw [PageTable.vacate, h.shaped.isOccupied_eq hp hslot, hocc, ok_bind, if_pos rfl,
      modify_eq hp, ok_bind, page_eq hpage']
    rfl
  · rw [occupiedAt, hpage] at hocc
    exact h.withPage hpage ⟨rfl, rfl⟩
      ((h.counted _ page hpage).vacate (by rwa [hcount]) hocc)
      fun hfree => (hnotfree hfree).elim
  · obtain ⟨p', i⟩ := place'
    obtain ⟨p, slot⟩ := place
    rw [occupiedAt_withPage hpage, bytesAt_withPage hpage]
    by_cases hsame : p' = p
    · subst hsame
      rw [if_pos rfl, if_pos rfl, occupiedAt, bytesAt, hpage]
      constructor
      · change (page.rows.vacate slot).isOccupied i = _
        rw [Rows.isOccupied_vacate (by rwa [hcount])]
        simp [eq_comm]
      · exact Rows.payload_setFlag slot 0 (by rwa [hcount])
    · rw [if_neg hsame, if_neg hsame, decide_eq_true (by rintro ⟨⟩; exact hsame rfl),
        Bool.true_and]
      exact ⟨rfl, rfl⟩

/-- Writing the front of the bytes of any place. -/
theorem write (h : t.Ordered current) {place : Place} {src : Bytes}
    (hp : place.page.toNat < t.pages.size) (hslot : place.slot < t.slots)
    (hsrc : src.size ≤ t.recordSize) :
    t.write place src = .ok (t.withPage place.page (·.write place.slot src)) ∧
      (t.withPage place.page (·.write place.slot src)).Ordered current ∧
      ∀ place' : Place, place'.slot < t.slots →
        (t.withPage place.page (·.write place.slot src)).occupiedAt place' =
          t.occupiedAt place' ∧
        (t.withPage place.page (·.write place.slot src)).bytesAt place' =
          if place' = place then (t.bytesAt place').overwrite 0 src.toList
          else t.bytesAt place' := by
  obtain ⟨page, hpage⟩ : ∃ page, t.pages[place.page.toNat]? = some page :=
    ⟨_, Array.getElem?_eq_getElem hp⟩
  refine ⟨h.shaped.write_eq hp hslot hsrc, ?_, fun place' => h.shaped.written hp⟩
  exact h.withPage hpage ⟨rfl, rfl⟩ ((h.counted _ page hpage).write src) fun hfree => by
    obtain ⟨-, page', hpage', hlive⟩ := h.free_empty _ hfree
    cases hpage.symm.trans hpage'
    exact hlive

/-- An empty page joins the queue once. -/
theorem queue (h : t.Ordered current) (hpage : t.pages[p.toNat]? = some page)
    (hlive : page.live = 0) (hne : p ∉ current) (hnotfree : p ∉ t.free.toList) :
    ({ t with free := t.free.push p } : PageTable).Ordered current where
  shaped := h.shaped
  counted := h.counted
  current_lt := h.current_lt
  free_nodup := by
    rw [Array.toList_push, List.nodup_append]
    refine ⟨h.free_nodup, List.nodup_singleton p, fun a ha b hb => ?_⟩
    rw [List.mem_singleton.mp hb]
    rintro rfl
    exact hnotfree ha
  free_empty := by
    intro q hq
    rw [Array.toList_push, List.mem_append, List.mem_singleton] at hq
    rcases hq with hq | rfl
    · exact h.free_empty q hq
    · exact ⟨hne, page, hpage, hlive⟩

/-- Queueing a page whose last record has ended. No live record changes. -/
theorem release (h : t.Ordered current) (hpage : t.pages[p.toNat]? = some page)
    (hlive : page.live = 0) (hne : p ∉ current) (hnotfree : p ∉ t.free.toList) :
    ∃ t', (t.release p).outcome = .ok t' ∧ t'.Ordered current ∧
      t'.pages.size = t.pages.size ∧ ∀ place : Place, place.slot < t.slots →
        t'.occupiedAt place = t.occupiedAt place ∧
        (t.occupiedAt place = true → t'.bytesAt place = t.bytesAt place) := by
  have hp : p.toNat < t.pages.size := (Array.getElem?_eq_some_iff.mp hpage).1
  have hcount := (h.shaped.rows_eq hpage).1
  have hvacant : ∀ slot < t.slots, page.rows.isOccupied slot = false := fun slot hslot =>
    (h.counted _ page hpage).vacant hlive (by rwa [hcount])
  obtain ⟨hshape, hlive', hvacant'⟩ := t.recycle_spec hlive
  have hrecycled : (t.withPage p t.recycle).Ordered current := by
    refine h.withPage hpage hshape ?_ fun _ => hlive'
    rw [Page.Counted, hlive', eq_comm, Finset.card_eq_zero, Rows.occupied,
      Finset.filter_eq_empty_iff]
    intro slot hslot
    rw [Finset.mem_range, hshape.1, hcount] at hslot
    rw [hvacant' slot (hvacant slot hslot)]
    exact Bool.false_ne_true
  refine ⟨_, release_eq hp, ?_, size_withPage t p _, fun place hplace => ?_⟩
  · refine hrecycled.queue ?_ hlive' hne hnotfree
    rw [getElem?_withPage, if_pos rfl, hpage]
    rfl
  · change (t.withPage p t.recycle).occupiedAt place = _ ∧
      (_ → (t.withPage p t.recycle).bytesAt place = _)
    rw [occupiedAt_withPage hpage, bytesAt_withPage hpage]
    -- a recycled page had no occupied place before and has none now
    by_cases hsame : place.page = p
    · have hold : t.occupiedAt place = false := by
        rw [occupiedAt, hsame, hpage]
        exact hvacant place.slot hplace
      rw [if_pos hsame, hold]
      exact ⟨hvacant' place.slot (hvacant place.slot hplace), fun hocc => by cases hocc⟩
    · rw [if_neg hsame, if_neg hsame]
      exact ⟨rfl, fun _ => rfl⟩

/-- Turning to a page that does not wait. -/
theorem fill (h : t.Ordered current) (hp : p.toNat < t.pages.size) (hnotfree : p ∉ t.free.toList) :
    t.Ordered (some p) where
  shaped := h.shaped
  counted := h.counted
  current_lt := by
    rintro q ⟨⟩
    exact hp
  free_nodup := h.free_nodup
  free_empty := by
    intro q hq
    refine ⟨?_, (h.free_empty q hq).2⟩
    rintro ⟨⟩
    exact hnotfree hq

theorem lt_of_free (h : t.Ordered current) (hp : p ∈ t.free.toList) :
    p.toNat < t.pages.size := by
  obtain ⟨-, page, hpage, -⟩ := h.free_empty p hp
  exact (Array.getElem?_eq_some_iff.mp hpage).1

/-- Allocating a page neither queues it nor fills it, and changes no other page. -/
theorem addPage (h : t.Ordered current)
    (hblock : t.slots * (t.recordSize + 1) ≤ t.backing.limit) :
    ∃ p t', t.addPage.outcome = .ok (p, t') ∧
      (t.pages.size < 2 ^ 32 → p.toNat = t.pages.size) ∧ t'.Ordered current ∧
      t'.free = t.free ∧ t'.pages = t.pages.push t.freshPage ∧
      ∀ place, t'.occupiedAt place = t.occupiedAt place ∧
        (t.occupiedAt place = true → t'.bytesAt place = t.bytesAt place) := by
  have hindex : t.pages.size < 2 ^ 32 → (UInt32.ofNat t.pages.size).toNat = t.pages.size :=
    fun hroom => by rw [UInt32.toNat_ofNat', Nat.mod_eq_of_lt hroom]
  obtain ⟨reserved, hadd⟩ := addPage_eq hblock
  have hlookup : ∀ i, (t.pages.push t.freshPage)[i]? =
      if i = t.pages.size then some t.freshPage else t.pages[i]? := fun i => Array.getElem?_push
  have hvacant : ∀ slot, t.freshPage.rows.isOccupied slot = false := Rows.isOccupied_vacant _ _
  refine ⟨_, _, hadd, hindex, ?_, rfl, rfl, fun place => ?_⟩
  · exact {
      shaped := (addPage_extends hadd).shaped h.shaped
      counted := fun i page hpage => by
        rw [hlookup] at hpage
        split at hpage
        · cases hpage
          exact .of_vacant rfl hvacant
        · exact h.counted i page hpage
      current_lt := fun q hq => by
        rw [Array.size_push]
        exact (h.current_lt q hq).trans (Nat.lt_succ_self _)
      free_nodup := h.free_nodup
      free_empty := fun q hq => by
        obtain ⟨hne, page, hpage, hlive⟩ := h.free_empty q hq
        refine ⟨hne, page, ?_, hlive⟩
        rw [hlookup, if_neg (Nat.ne_of_lt (h.lt_of_free hq)), hpage] }
  · rw [occupiedAt, bytesAt, hlookup]
    by_cases hnew : place.page.toNat = t.pages.size
    · have hnone : t.pages[place.page.toNat]? = none :=
        Array.getElem?_eq_none (Nat.le_of_eq hnew.symm)
      rw [if_pos hnew, occupiedAt, hnone]
      exact ⟨hvacant place.slot, fun hocc => by cases hocc⟩
    · rw [if_neg hnew]
      exact ⟨rfl, fun _ => rfl⟩

/-- Taking the next page to fill, or a new one as long as there are page numbers. No live record
changes. -/
theorem nextFree (h : t.Ordered current)
    (hblock : t.slots * (t.recordSize + 1) ≤ t.backing.limit) :
    ∃ p t', t.nextFree.outcome = .ok (p, t') ∧
      (∀ (i : Nat) (page : Page), t.pages[i]? = some page → t'.pages[i]? = some page) ∧
      (∀ place, t'.occupiedAt place = t.occupiedAt place ∧
        (t.occupiedAt place = true → t'.bytesAt place = t.bytesAt place)) ∧
      (t'.pages.size ≤ 2 ^ 32 → t'.Ordered (some p) ∧
        ∀ slot < t.slots, t'.occupiedAt ⟨p, slot⟩ = false) := by
  obtain ⟨p, hlist, hnext⟩ | ⟨hempty, hnext⟩ := nextFree_eq t
  · have hmem : p ∈ t.free.toList := hlist ▸ List.mem_cons_self
    obtain ⟨hnotmem, hnodup⟩ := List.nodup_cons.mp (hlist ▸ h.free_nodup)
    -- the rest of the queue is in order, and the page that leaves it is not in it twice
    have hdequeued : ({ t with free := t.free.extract 1 t.free.size } : PageTable).Ordered
        current := {
      shaped := h.shaped
      counted := h.counted
      current_lt := h.current_lt
      free_nodup := hnodup
      free_empty := fun q hq => h.free_empty q (hlist ▸ List.mem_cons_of_mem p hq) }
    refine ⟨p, { t with free := t.free.extract 1 t.free.size }, ?_, fun i page hpage => hpage,
      fun place => ⟨rfl, fun _ => rfl⟩, fun _ => ⟨hdequeued.fill (h.lt_of_free hmem) hnotmem,
        fun slot => h.occupiedAt_of_free hmem⟩⟩
    rw [hnext]
    rfl
  · obtain ⟨p, t', hadd, hindex, hordered, hfree', hpages, hframe⟩ := h.addPage hblock
    refine ⟨p, t', hnext ▸ hadd, ?_, hframe, fun hfits => ?_⟩
    · intro i page hpage
      obtain ⟨hi, -⟩ := Array.getElem?_eq_some_iff.mp hpage
      rw [hpages, Array.getElem?_push, if_neg (Nat.ne_of_lt hi), hpage]
    · rw [hpages, Array.size_push] at hfits
      have hp := hindex hfits
      have hnew : p.toNat < t'.pages.size := by
        rw [hpages, Array.size_push, hp]
        exact Nat.lt_succ_self _
      refine ⟨hordered.fill hnew ?_, fun slot _ => ?_⟩
      · rw [hfree', hempty]
        exact List.not_mem_nil
      · rw [occupiedAt, hp, hpages, Array.getElem?_push, if_pos rfl]
        exact Rows.isOccupied_vacant _ _ slot

theorem generate (h : t.Ordered none)
    (hblock : t.slots * (t.recordSize + 1) ≤ t.backing.limit) :
    ∃ p t', t.generate.outcome = .ok (p, t') ∧ t.Extends t' ∧
      (∀ place, t'.occupiedAt place = t.occupiedAt place) ∧
      (t'.pages.size ≤ 2 ^ 32 → t'.Ordered none) := by
  obtain ⟨p, t', hadd, hindex, hordered, hfree, hpages, hframe⟩ := h.addPage hblock
  refine ⟨p, { t' with free := t'.free.push p }, ?_,
    (addPage_extends hadd).trans (.of_pages_eq rfl rfl rfl), fun place => (hframe place).1,
    fun hfits => ?_⟩
  · simp [PageTable.generate, hadd]
  · have hp : p.toNat = t.pages.size := by
      change t'.pages.size ≤ 2 ^ 32 at hfits
      rw [hpages, Array.size_push] at hfits
      exact hindex hfits
    refine hordered.queue (by rw [hpages, hp, Array.getElem?_push_size]) rfl
      (Option.not_mem_none p) fun hmem => ?_
    rw [hfree] at hmem
    exact Nat.lt_irrefl _ (hp ▸ h.lt_of_free hmem)

end Ordered

end PageTable

end RecordArena
