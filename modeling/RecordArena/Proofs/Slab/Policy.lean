import RecordArena.Proofs.Probing.Parallel
import RecordArena.Proofs.Slab.Residue

/-!
# The reset policy

Whether pages are zeroed when they are queued decides what new records hold, and nothing else. Two
slabs that differ in that, given the same calls, stay alike in all but the bytes of records: they
hand out the same indices, count the same, report the same and refuse the same.

## Main definitions

* `Page.Alike`, `PageTable.Alike`, `Slab.Alike` – equal but for the policy and the bytes of records.
* `Slab.Indistinct` – what can be told of two slabs without reading records is the same.

## Main statements

* `Slab.Alike.performAll` – the same calls leave alike slabs alike.
* `Slab.reset_clears_only_bytes` – what the policy does and what it does not.
-/

namespace RecordArena

/-- Computations that fault alike fail alike. -/
theorem Agree.liftFault {α β : Type} {S : α → β → Prop} {x : Except Fault α} {y : Except Fault β}
    (h : Agree S x y) : Agree S (liftM x : Except Failure α) (liftM y : Except Failure β) := by
  cases h with
  | ok h => exact .ok h
  | error fault => exact .error (Failure.faulted fault)

theorem Agree.imp {φ α β : Type} {S S' : α → β → Prop} {x : Except φ α} {y : Except φ β}
    (h : Agree S x y) (hS : ∀ a b, S a b → S' a b) : Agree S' x y := by
  cases h with
  | ok h => exact .ok (hS _ _ h)
  | error e => exact .error e

/-- Both pages have the same number and the same live records, whose bytes may differ. -/
structure Page.Alike (page page' : Page) : Prop where
  index_eq : page'.index = page.index
  live_eq : page'.live = page.live
  shape : page.SameShape page'
  occupied_eq : ∀ i < page.rows.count, page'.rows.isOccupied i = page.rows.isOccupied i

namespace Page.Alike

variable {page page' : Page} {slot : Nat}

theorem refl (page : Page) : page.Alike page := ⟨rfl, rfl, ⟨rfl, rfl⟩, fun _ _ => rfl⟩

theorem occupy (h : page.Alike page') (hslot : slot < page.rows.count) :
    (page.occupy slot).Alike (page'.occupy slot) where
  index_eq := h.index_eq
  live_eq := congrArg (· + 1) h.live_eq
  shape := h.shape
  occupied_eq := fun i hi => by
    change (page'.rows.occupy slot).isOccupied i = (page.rows.occupy slot).isOccupied i
    rw [Rows.isOccupied_occupy (hslot.trans_eq h.shape.1.symm), Rows.isOccupied_occupy hslot,
      h.occupied_eq i hi]

theorem vacate (h : page.Alike page') (hslot : slot < page.rows.count) :
    (page.vacate slot).Alike (page'.vacate slot) where
  index_eq := h.index_eq
  live_eq := congrArg (· - 1) h.live_eq
  shape := h.shape
  occupied_eq := fun i hi => by
    change (page'.rows.vacate slot).isOccupied i = (page.rows.vacate slot).isOccupied i
    rw [Rows.isOccupied_vacate (hslot.trans_eq h.shape.1.symm), Rows.isOccupied_vacate hslot,
      h.occupied_eq i hi]

theorem write (h : page.Alike page') (slot : Nat) (src : Bytes) :
    (page.write slot src).Alike (page'.write slot src) where
  index_eq := h.index_eq
  live_eq := h.live_eq
  shape := h.shape
  occupied_eq := fun i hi => by
    change (page'.rows.setPayload slot src).isOccupied i =
      (page.rows.setPayload slot src).isOccupied i
    have hlt : i < page.rows.count := hi
    rw [Rows.isOccupied_setPayload slot src (hlt.trans_eq h.shape.1.symm),
      Rows.isOccupied_setPayload slot src hlt, h.occupied_eq i hlt]

/-- Pages without records stay alike when they are queued, whether or not they are zeroed. -/
theorem recycle {t u : PageTable} (h : page.Alike page') (hlive : page.live = 0)
    (hvacant : ∀ i < page.rows.count, page.rows.isOccupied i = false) :
    (t.recycle page).Alike (u.recycle page') := by
  obtain ⟨hshape, hzero, hnone⟩ := t.recycle_spec hlive
  obtain ⟨hshape', hzero', hnone'⟩ := u.recycle_spec (h.live_eq.trans hlive)
  refine ⟨?_, hzero'.trans hzero.symm, ⟨?_, ?_⟩, fun i hi => ?_⟩
  · rw [PageTable.index_recycle, PageTable.index_recycle, h.index_eq]
  · rw [hshape'.1, hshape.1, h.shape.1]
  · rw [hshape'.2, hshape.2, h.shape.2]
  · rw [hshape.1] at hi
    rw [hnone i (hvacant i hi), hnone' i ((h.occupied_eq i hi).trans (hvacant i hi))]

end Page.Alike

namespace PageTable

/-- Both tables have alike pages in the same order, and the same of them wait. -/
structure Alike (t u : PageTable) : Prop where
  free_eq : u.free = t.free
  reserved_eq : u.reserved = t.reserved
  slots_eq : u.slots = t.slots
  recordSize_eq : u.recordSize = t.recordSize
  size_eq : u.pages.size = t.pages.size
  alike : ∀ (i : Nat) (page page' : Page), t.pages[i]? = some page → u.pages[i]? = some page' →
    page.Alike page'

namespace Alike

variable {t u : PageTable} {p : UInt32} {place : Place}

/-- The pages with the same number are there in both tables or in none. -/
theorem page (h : t.Alike u) (p : UInt32) : Agree Page.Alike (t.page p) (u.page p) := by
  by_cases hp : p.toNat < t.pages.size
  · have hpage := Array.getElem?_eq_getElem hp
    have hpage' := Array.getElem?_eq_getElem (h.size_eq.symm ▸ hp)
    rw [page_eq hpage, page_eq hpage']
    exact .ok (h.alike _ _ _ hpage hpage')
  · have hp' : ¬ p.toNat < u.pages.size := h.size_eq.symm ▸ hp
    have hnone : t.page p = .error (.missingPage p) := dif_neg hp
    have hnone' : u.page p = .error (.missingPage p) := dif_neg hp'
    rw [hnone, hnone']
    exact .error _

/-- Pages change alike when each is changed to an alike page. -/
theorem withPage (h : t.Alike u) {change change' : Page → Page}
    (hchange : ∀ page page', t.pages[p.toNat]? = some page → page.Alike page' →
      (change page).Alike (change' page')) :
    (t.withPage p change).Alike (u.withPage p change') := by
  refine ⟨h.free_eq, h.reserved_eq, h.slots_eq, h.recordSize_eq, ?_, ?_⟩
  · rw [size_withPage, size_withPage, h.size_eq]
  · intro i page page' hpage hpage'
    rw [getElem?_withPage] at hpage hpage'
    split at hpage
    · next heq =>
      subst heq
      rw [if_pos rfl] at hpage'
      obtain ⟨old, hold, rfl⟩ := Option.map_eq_some_iff.mp hpage
      obtain ⟨old', hold', rfl⟩ := Option.map_eq_some_iff.mp hpage'
      exact hchange old old' hold (h.alike _ _ _ hold hold')
    · next hne =>
      rw [if_neg hne] at hpage'
      exact h.alike i page page' hpage hpage'

theorem modify (h : t.Alike u) {change change' : Page → Page}
    (hchange : ∀ page page', t.pages[p.toNat]? = some page → page.Alike page' →
      (change page).Alike (change' page')) :
    Agree Alike (t.modify p change) (u.modify p change') := by
  rw [PageTable.modify, PageTable.modify, contains, contains, h.size_eq]
  split
  · exact .ok (h.withPage hchange)
  · exact .error _

theorem occupiedAt (h : t.Alike u) (hs : t.Shaped) (hslot : place.slot < t.slots) :
    u.occupiedAt place = t.occupiedAt place := by
  by_cases hp : place.page.toNat < t.pages.size
  · have hpage := Array.getElem?_eq_getElem hp
    have hpage' := Array.getElem?_eq_getElem (h.size_eq.symm ▸ hp)
    rw [PageTable.occupiedAt, PageTable.occupiedAt, hpage, hpage']
    exact (h.alike _ _ _ hpage hpage').occupied_eq _ ((hs.rows_eq hpage).1 ▸ hslot)
  · have hnone : t.pages[place.page.toNat]? = none := Array.getElem?_eq_none (Nat.not_lt.mp hp)
    have hnone' : u.pages[place.page.toNat]? = none :=
      Array.getElem?_eq_none (h.size_eq ▸ Nat.not_lt.mp hp)
    rw [PageTable.occupiedAt, PageTable.occupiedAt, hnone, hnone']

theorem grown (h : t.Alike u) : t.grown.Alike u.grown := by
  refine ⟨h.free_eq, ?_, h.slots_eq, h.recordSize_eq, ?_, fun i page page' hpage hpage' => ?_⟩
  · rw [PageTable.grown, PageTable.grown, h.size_eq, h.reserved_eq]
  · rw [size_grown, size_grown, h.size_eq]
  · rw [PageTable.grown, Array.getElem?_push] at hpage hpage'
    rw [h.size_eq] at hpage'
    split at hpage
    · next hnew =>
      rw [if_pos hnew] at hpage'
      cases hpage
      cases hpage'
      rw [freshPage, freshPage, h.size_eq, h.slots_eq, h.recordSize_eq]
      exact .refl _
    · next hold =>
      rw [if_neg hold] at hpage'
      exact h.alike i page page' hpage hpage'

/-- Both tables turn to the same page and report the same. -/
theorem turns {events : List Event} {t' : PageTable} (h : t.Alike u)
    (hturns : t.Turns events p t') : ∃ u', u.Turns events p u' ∧ t'.Alike u' := by
  have hfree := h.free_eq
  cases hturns with
  | queued hlist =>
    refine ⟨{ u with free := u.free.extract 1 u.free.size }, .queued (hfree ▸ hlist), ?_⟩
    exact ⟨by rw [hfree], h.reserved_eq, h.slots_eq, h.recordSize_eq, h.size_eq, h.alike⟩
  | new hempty =>
    have hgrowth : u.growth = t.growth := by
      rw [growth, growth, h.size_eq, h.reserved_eq]
    refine ⟨u.grown, ?_, h.grown⟩
    rw [← hgrowth, ← h.size_eq]
    exact .new (hfree ▸ hempty)

/-- Both tables queue a page that has no records in either. -/
theorem released (h : t.Alike u) (hlive : ∀ page, t.pages[p.toNat]? = some page → page.live = 0 ∧
      ∀ i < page.rows.count, page.rows.isOccupied i = false) :
    (t.released p).Alike (u.released p) := by
  have hrecycled : (t.withPage p t.recycle).Alike (u.withPage p u.recycle) :=
    h.withPage fun page page' hpage halike =>
      halike.recycle (hlive page hpage).1 (hlive page hpage).2
  exact ⟨congrArg (·.push p) h.free_eq, h.reserved_eq, h.slots_eq, h.recordSize_eq,
    hrecycled.size_eq, hrecycled.alike⟩

end Alike

end PageTable

namespace SlabAnswer

/-- The record that an answer names. -/
def created? : SlabAnswer → Option Created
  | created c => some c
  | done => none
  | record _ => none

end SlabAnswer

/-- What a call reports. Writing and reading report nothing. -/
def SlabCall.report (s : Slab) : SlabCall → List Event
  | create => s.create.events
  | free index => (s.free index).events
  | write _ _ => []
  | read _ => []

namespace Slab

/-- Both slabs are equal but for the policy and the bytes of records. -/
structure Alike (s r : Slab) : Prop where
  layout_eq : r.layout = s.layout
  cursor_eq : r.cursor = s.cursor
  addressing_eq : r.addressing = s.addressing
  live_eq : r.live = s.live
  pages : s.pages.Alike r.pages

/-- The counts, the cursor and the live indices of both slabs are the same, and so are the report of
every call, the indices it hands out, and the failures. -/
structure Indistinct (s r : Slab) : Prop where
  live_eq : r.live = s.live
  pageCount_eq : r.pageCount = s.pageCount
  freePageCount_eq : r.freePageCount = s.freePageCount
  cursorIndex_eq : r.cursorIndex = s.cursorIndex
  isLive_eq : ∀ index, r.isLive index = s.isLive index
  report_eq : ∀ call : SlabCall, call.report r = call.report s
  answers : ∀ call : SlabCall, Agree (fun a b => b.1.created? = a.1.created?) (call.perform s)
    (call.perform r)

namespace Alike

variable {s r s' : Slab} {events : List Event} {place : Place} (h : s.Alike r)
include h

theorem place_eq (index : UInt32) : r.place index = s.place index := by
  rw [place, h.addressing_eq]
  rfl

theorem upcoming_eq : r.upcoming = s.upcoming := by
  rw [upcoming, upcoming, h.cursor_eq]

theorem parked (hs : s.Divided) (hparked : s.Parked) : r.Parked := by
  rw [Parked, h.cursor_eq, h.pages.occupiedAt hs.pages hs.cursor_lt]
  exact hparked

/-- Creating a record fills the same place on both sides. -/
theorem fills (hs : s.Divided) (hfills : s.Fills events s') :
    ∃ r', r.Fills events r' ∧ s'.Alike r' := by
  have hpages : s.occupiedPages.Alike r.occupiedPages := by
    rw [occupiedPages, occupiedPages, h.cursor_eq]
    refine h.pages.withPage fun page page' hpage halike => halike.occupy ?_
    rw [(hs.pages.rows_eq hpage).1]
    exact hs.cursor_lt
  cases hfills with
  | next hnext =>
    refine ⟨_, .next (h.cursor_eq ▸ hnext), ⟨h.layout_eq, ?_, h.addressing_eq, ?_, hpages⟩⟩
    · rw [h.cursor_eq]
    · rw [h.live_eq]
  | turn hlast hturns =>
    obtain ⟨u, hturns', halike⟩ := hpages.turns hturns
    refine ⟨_, .turn (h.cursor_eq ▸ hlast) hturns', ⟨h.layout_eq, ?_, h.addressing_eq, ?_, halike⟩⟩
    · rw [h.cursor_eq]
    · rw [h.live_eq]

/-- Freeing vacates the same place on both sides, and queues the same page if any. -/
theorem vacates (hs : s.Divided) (hslot : place.slot < s.pages.slots)
    (hvacates : s.Vacates place events s') : ∃ r', r.Vacates place events r' ∧ s'.Alike r' := by
  have hocc := h.pages.occupiedAt hs.pages hslot
  have hpages : (s.vacatedPages place).Alike (r.vacatedPages place) :=
    h.pages.withPage fun page page' hpage halike => halike.vacate
      ((hs.pages.rows_eq hpage).1 ▸ hslot)
  have hcursor : r.cursor.place.page = s.cursor.place.page := by rw [h.cursor_eq]
  have hlive : r.live - 1 = s.live - 1 := by rw [h.live_eq]
  have hpage : ∀ page, (s.vacatedPages place).pages[place.page.toNat]? = some page →
      ∃ page', (r.vacatedPages place).pages[place.page.toNat]? = some page' ∧ page.Alike page' := by
    intro page hpage
    have hp := (Array.getElem?_eq_some_iff.mp hpage).1
    have hpage' := Array.getElem?_eq_getElem (hpages.size_eq.symm ▸ hp)
    exact ⟨_, hpage', hpages.alike _ _ _ hpage hpage'⟩
  cases hvacates with
  | vain hvain => exact ⟨r, .vain (hocc.trans hvain), h⟩
  | keep hold hleft hkeep =>
    obtain ⟨page', hleft', halike⟩ := hpage _ hleft
    refine ⟨_, .keep (hocc.trans hold) hleft' ?_,
      ⟨h.layout_eq, h.cursor_eq, h.addressing_eq, hlive, hpages⟩⟩
    rw [halike.live_eq, hcursor]
    exact hkeep
  | @drain page hold hleft hzero hne =>
    obtain ⟨page', hleft', halike⟩ := hpage _ hleft
    obtain ⟨_, -, -, -, hordered, -⟩ := hs.partitioned.toOrdered.vacate hslot hold
    have hne' : place.page ≠ r.cursor.place.page := hcursor ▸ hne
    have hdrain := Vacates.drain (hocc.trans hold) hleft' (halike.live_eq.trans hzero) hne'
    rw [halike.index_eq] at hdrain
    refine ⟨_, hdrain, ⟨h.layout_eq, h.cursor_eq, h.addressing_eq, hlive, hpages.released ?_⟩⟩
    intro page₁ hpage₁
    cases hleft.symm.trans hpage₁
    exact ⟨hzero, fun i hi => (hordered.counted _ _ hleft).vacant hzero hi⟩

/-- The same can be written on both sides. -/
theorem writeAt (place : Place) (src : Bytes) :
    Agree Slab.Alike (s.writeAt place src) (r.writeAt place src) := by
  refine Agree.bind (S := PageTable.Alike) ?_ fun t u halike =>
    .ok ⟨h.layout_eq, h.cursor_eq, h.addressing_eq, h.live_eq, halike⟩
  refine Agree.bind (h.pages.page place.page) fun page page' halike => ?_
  have haccepts : page'.accepts place.slot src = page.accepts place.slot src := by
    rw [Page.accepts, Page.accepts, halike.shape.1, halike.shape.2]
  rw [haccepts]
  split
  · exact h.pages.modify fun page page' _ halike => halike.write place.slot src
  · exact .error _

/-- The same records can be read on both sides. -/
theorem recordAt (place : Place) :
    Agree (fun _ _ => True) (s.recordAt place) (r.recordAt place) := by
  refine Agree.bind (h.pages.page place.page) fun page page' halike => ?_
  rw [Page.record, Page.record, halike.shape.1]
  split
  · exact .ok trivial
  · exact .error _

theorem free (hs : s.Divided) (hr : r.Divided) (index : UInt32) :
    (r.free index).events = (s.free index).events ∧
      Agree Slab.Alike (s.free index).outcome (r.free index).outcome := by
  rw [s.free_eq, r.free_eq, h.place_eq]
  have hslot := hs.slot_lt index
  by_cases hp : (s.place index).page.toNat < s.pages.pages.size
  · obtain ⟨events, s', hfree, hvacates⟩ := hs.freeAt_vacates hp hslot
    obtain ⟨r', hvacates', halike⟩ := h.vacates hs hslot hvacates
    have hfree' := hr.vacates_run (h.pages.size_eq.symm ▸ hp) (h.pages.slots_eq.symm ▸ hslot)
      hvacates'
    rw [hfree, hfree']
    exact ⟨rfl, .ok halike⟩
  · have hp' : ¬ (s.place index).page.toNat < r.pages.pages.size := h.pages.size_eq.symm ▸ hp
    rw [freeAt_missing hp, freeAt_missing hp']
    exact ⟨rfl, .error _⟩

theorem create (hs : s.Divided) (hr : r.Divided) : ∃ events s' r',
    s.create = ⟨events, .ok (s.upcoming, s')⟩ ∧ r.create = ⟨events, .ok (s.upcoming, r')⟩ ∧
      s'.Alike r' := by
  obtain ⟨events, s', hcreate, hfills⟩ := hs.create_fills
  obtain ⟨r', hfills', halike⟩ := h.fills hs hfills
  exact ⟨events, s', r', hcreate, h.upcoming_eq ▸ hr.fills_run hfills', halike⟩

/-- A call reports and answers the same on both sides, and leaves them alike. -/
theorem perform (hs : s.Divided) (hr : r.Divided) (call : SlabCall) :
    call.report r = call.report s ∧
      Agree (fun a b => b.1.created? = a.1.created? ∧ a.2.Alike b.2) (call.perform s)
        (call.perform r) := by
  cases call with
  | create =>
    obtain ⟨events, s', r', hcreate, hcreate', halike⟩ := h.create hs hr
    rw [SlabCall.report, SlabCall.report, SlabCall.perform, SlabCall.perform, hcreate, hcreate']
    exact ⟨rfl, .ok ⟨rfl, halike⟩⟩
  | write index src =>
    have hwrite : Agree Slab.Alike (s.write index src) (r.write index src) := by
      rw [write, write, h.place_eq]
      exact h.writeAt (s.place index) src
    exact ⟨rfl, hwrite.liftFault.bind fun s' r' halike => .ok ⟨rfl, halike⟩⟩
  | free index =>
    obtain ⟨hevents, hfree⟩ := h.free hs hr index
    exact ⟨hevents, hfree.bind fun s' r' halike => .ok ⟨rfl, halike⟩⟩
  | read index =>
    have hread : Agree (fun _ _ => True) (s.record index) (r.record index) := by
      rw [record, record, h.place_eq]
      exact h.recordAt (s.place index)
    exact ⟨rfl, hread.liftFault.bind fun _ _ _ => .ok ⟨rfl, h⟩⟩

/-- Alike slabs cannot be told apart. -/
theorem indistinct (hs : s.Divided) (hr : r.Divided) : s.Indistinct r where
  live_eq := h.live_eq
  pageCount_eq := h.pages.size_eq
  freePageCount_eq := congrArg Array.size h.pages.free_eq
  cursorIndex_eq := congrArg Cursor.index h.cursor_eq
  isLive_eq := fun index => by
    rw [hr.isLive_eq, hs.isLive_eq, h.place_eq,
      h.pages.occupiedAt hs.pages (hs.slot_lt index)]
  report_eq := fun call => (h.perform hs hr call).1
  answers := fun call => (h.perform hs hr call).2.imp fun _ _ hboth => hboth.1

/-- The same calls leave alike slabs alike. -/
theorem performAll (hs : s.Divided) (hparked : s.Parked) (hr : r.Divided) {calls : List SlabCall}
    (hrun : SlabCall.performAll s calls = .ok s') (hsize : s'.pageCount ≤ 2 ^ 32) :
    ∃ r', SlabCall.performAll r calls = .ok r' ∧ s'.Indistinct r' := by
  induction calls generalizing s r with
  | nil =>
    cases hrun
    exact ⟨r, rfl, h.indistinct hs hr⟩
  | cons call calls ih =>
    obtain ⟨⟨answer, s₁⟩, hcall, hrest⟩ := bind_eq_ok hrun
    have hsize₁ := (SlabCall.performAll_extends hrest).pages.size_le.trans hsize
    have hagree := (h.perform hs hr call).2
    rw [hcall] at hagree
    obtain ⟨⟨answer', r₁⟩, hcall', -, halike⟩ := hagree.of_ok
    obtain ⟨hs₁, hparked₁⟩ := hs.perform hparked hcall hsize₁
    obtain ⟨hr₁, -⟩ := hr.perform (h.parked hs hparked) hcall'
      (halike.pages.size_eq.trans_le hsize₁)
    obtain ⟨r', hrest', hindistinct⟩ := ih halike hs₁ hparked₁ hr₁ hrest
    refine ⟨r', ?_, hindistinct⟩
    rw [SlabCall.performAll, hcall']
    exact hrest'

end Alike

end Slab

namespace PageTable

variable {t t' : PageTable} {p : UInt32} {events : List Event}

/-- The same table under another policy. -/
def withReset (t : PageTable) (reset : Bool) : PageTable := { t with resetOnFree := reset }

theorem Turns.withReset (h : t.Turns events p t') (reset : Bool) :
    (t.withReset reset).Turns events p (t'.withReset reset) := by
  cases h with
  | queued hlist => exact .queued hlist
  | new hempty => exact .new hempty

theorem empty_withReset {initial slots recordSize : Nat} {reset : Bool} {backing : Backing}
    (h : empty initial slots recordSize reset backing = .ok t) (reset' : Bool) :
    empty initial slots recordSize reset' backing = .ok (t.withReset reset') := by
  unfold empty at h ⊢
  dsimp only at h ⊢
  split at h
  · next hroom =>
    cases h
    rw [if_pos hroom]
    rfl
  · cases h

/-- Pages are generated in the same way under any policy. -/
theorem generateMany_withReset (hblock : t.slots * (t.recordSize + 1) ≤ t.backing.limit)
    (n : Nat) : ∃ events t', generateMany n t = ⟨events, .ok t'⟩ ∧
      ∀ reset, generateMany n (t.withReset reset) = ⟨events, .ok (t'.withReset reset)⟩ := by
  induction n generalizing t with
  | zero => exact ⟨[], t, rfl, fun _ => rfl⟩
  | succ n ih =>
    obtain ⟨events, t', hrun, hreset⟩ := ih
      (t := { t.grown with free := t.free.push (UInt32.ofNat t.pages.size) }) hblock
    refine ⟨t.growth ++ events, t', ?_, fun reset => ?_⟩
    · rw [generateMany, generate_run hblock]
      exact Traced.mk_ok_bind_mk hrun
    · rw [generateMany, generate_run (t := t.withReset reset) hblock]
      exact Traced.mk_ok_bind_mk (hreset reset)

end PageTable

namespace Slab

variable {s s' r : Slab} {layout : RecordLayout} {config : SlabConfig} {backing : Backing}
  {s₀ : Slab}

def withReset (s : Slab) (reset : Bool) : Slab := { s with pages := s.pages.withReset reset }

theorem alike_withReset (s : Slab) (reset : Bool) : s.Alike (s.withReset reset) := by
  refine ⟨rfl, rfl, rfl, rfl, ⟨rfl, rfl, rfl, rfl, rfl, fun i page page' hpage hpage' => ?_⟩⟩
  cases hpage.symm.trans hpage'
  exact .refl page

theorem pageSlots_of_new (h : (new layout config backing).outcome = .ok s) :
    pageSlots config = .ok s.pages.slots := by
  obtain ⟨_, -, h⟩ := Traced.outcome_bind_eq_ok h
  obtain ⟨slots, hslots, h⟩ := Traced.outcome_bind_eq_ok h
  obtain ⟨t, hnew, h⟩ := Traced.outcome_bind_eq_ok h
  obtain ⟨⟨c, t'⟩, hattach, h⟩ := Traced.outcome_bind_eq_ok h
  obtain ⟨_, -, h⟩ := Traced.outcome_bind_eq_ok h
  cases h
  rw [Traced.outcome_liftError_eq_ok hslots, (Cursor.attach_extends hattach).slots_eq,
    (PageTable.new_shaped hnew).2.1]

/-- A slab is made by generating its pages and taking the first one. -/
theorem new_run {t₀ t₁ t : PageTable} {p : UInt32} {events₁ events₂ : List Event}
    (hvalid : layout.validate = .ok ()) (hslots : pageSlots config = .ok t.slots)
    (hempty : PageTable.empty config.initialPages t.slots layout.size config.resetOnFree backing =
      .ok t₀)
    (hmany : PageTable.generateMany config.initialPages t₀ = ⟨events₁, .ok t₁⟩)
    (hnext : t₁.nextFree = ⟨events₂, .ok (p, t)⟩) :
    new layout config backing = ⟨events₁ ++ events₂ ++
      [.slabCreated layout.size t.slots config.initialPages config.resetOnFree],
      .ok ⟨layout, t, ⟨⟨p, 0⟩, t.slots, UInt32.ofNat t.slots.log2⟩, Addressing.ofSlots t.slots,
        0⟩⟩ := by
  have hpages : PageTable.new config.initialPages t.slots layout.size config.resetOnFree backing =
      ⟨events₁, .ok t₁⟩ := by
    rw [PageTable.new, hempty, Traced.liftFault_ok_bind, hmany]
  have hattach : Cursor.attach t₁ =
      ⟨events₂, .ok (⟨⟨p, 0⟩, t.slots, UInt32.ofNat t.slots.log2⟩, t)⟩ := by
    rw [Cursor.attach, hnext]
    exact Traced.mk_ok_bind rfl
  rw [Slab.new, hvalid, Traced.liftError_ok_bind, hslots, Traced.liftError_ok_bind, hpages,
    List.append_assoc]
  refine Traced.mk_ok_bind_mk ?_
  rw [hattach]
  exact Traced.mk_ok_bind_mk rfl

/-- Making a slab generates its pages, each of which can be allocated, and turns to the first. -/
theorem new_turns (h : (new layout config backing).outcome = .ok s) :
    ∃ t₀ t₁ events p,
      PageTable.empty config.initialPages s.pages.slots layout.size config.resetOnFree backing =
        .ok t₀ ∧
      t₀.slots * (t₀.recordSize + 1) ≤ t₀.backing.limit ∧
      (PageTable.generateMany config.initialPages t₀).outcome = .ok t₁ ∧
      t₁.slots * (t₁.recordSize + 1) ≤ t₁.backing.limit ∧ t₁.Turns events p s.pages ∧
      s = ⟨layout, s.pages, ⟨⟨p, 0⟩, s.pages.slots, UInt32.ofNat s.pages.slots.log2⟩,
        Addressing.ofSlots s.pages.slots, 0⟩ := by
  have hshaped := new_shaped h
  have hlayout := new_layout h
  obtain ⟨t₀, t₁, p, hempty, hmany, hnext, hcursor, hlive⟩ := new_cases h
  have hextends := PageTable.nextFree_extends hnext
  have hblock₀ := hshaped.block_le_of_extends
    ((PageTable.generateMany_extends hmany).trans hextends)
  have hblock₁ := hshaped.block_le_of_extends hextends
  obtain ⟨events, q, t, hturns⟩ := t₁.exists_turns
  obtain ⟨rfl, rfl⟩ : p = q ∧ s.pages = t :=
    Prod.mk.inj (Except.ok.inj (hnext.symm.trans (congrArg Traced.outcome (hturns.run hblock₁))))
  refine ⟨t₀, t₁, events, p, hempty, hblock₀, hmany, hblock₁, hturns, ?_⟩
  rw [← hlayout, ← hcursor, ← hshaped.addressing_eq, ← hlive]

/-- A slab is made in the same way under any policy, and reports the policy last. -/
theorem new_withReset (h : (new layout config backing).outcome = .ok s) :
    ∃ events, ∀ reset, new layout { config with resetOnFree := reset } backing = ⟨events ++
      [.slabCreated layout.size s.pageCapacity config.initialPages reset],
      .ok (s.withReset reset)⟩ := by
  have hshaped := new_shaped h
  obtain ⟨t₀, t₁, events₂, p, hempty, hblock₀, hmany, hblock₁, hturns, hslab⟩ := new_turns h
  obtain ⟨events₁, t₁', hrun, hmanyReset⟩ := PageTable.generateMany_withReset hblock₀
    config.initialPages
  cases hmany.symm.trans (congrArg Traced.outcome hrun)
  refine ⟨events₁ ++ events₂, fun reset => ?_⟩
  have hslots : pageSlots { config with resetOnFree := reset } =
      .ok (s.pages.withReset reset).slots := by
    refine Eq.trans ?_ (pageSlots_of_new h)
    rfl
  have hreset : s.withReset reset = ⟨layout, s.pages.withReset reset,
      ⟨⟨p, 0⟩, s.pages.slots, UInt32.ofNat s.pages.slots.log2⟩, Addressing.ofSlots s.pages.slots,
      0⟩ := congrArg (withReset · reset) hslab
  rw [hreset, hshaped.pageCapacity_eq]
  exact new_run (new_layout h ▸ hshaped.valid) hslots (PageTable.empty_withReset hempty reset)
    (hmanyReset reset) ((hturns.withReset reset).run hblock₁)

/-- Under the reset policy a new record holds zeros, whatever was in its place before, as long as
writes go to live records and to the views of new ones. The policy has no other effect: with and
without it a slab reports the same when it is made, but for the policy, and the same calls are
answered with the same indices, counts and reports. Without it a new record holds what was written
to its index last. -/
theorem reset_clears_only_bytes (h : (new layout config backing).outcome = .ok s₀) :
    (config.resetOnFree = true → ∀ s, Relation.ReflTransGen OwnedStep s₀ s →
      s.pageCount * s.pageCapacity ≤ 2 ^ 32 → ∃ created s', s.create.outcome = .ok (created, s') ∧
        s'.recordAt created.place = .ok (Bytes.zeros layout.size)) ∧
    (∀ reset, ∃ r₀ events,
      (new layout config backing).events = events ++
        [.slabCreated layout.size s₀.pageCapacity config.initialPages config.resetOnFree] ∧
      new layout { config with resetOnFree := reset } backing = ⟨events ++
        [.slabCreated layout.size s₀.pageCapacity config.initialPages reset], .ok r₀⟩ ∧
      ∀ calls s, SlabCall.performAll s₀ calls = .ok s → s.pageCount * s.pageCapacity ≤ 2 ^ 32 →
        ∃ r, SlabCall.performAll r₀ calls = .ok r ∧ s.Indistinct r) ∧
    (config.resetOnFree = false → ∀ calls s, SlabCall.performAll s₀ calls = .ok s →
      s.pageCount * s.pageCapacity ≤ 2 ^ 32 → ∃ created s', s.create.outcome = .ok (created, s') ∧
        s'.recordAt created.place = .ok
          (calls.foldl (SlabCall.writeTo created.index) (Bytes.zeros layout.size))) := by
  have hlayout := new_layout h
  obtain ⟨hblank, hpolicy⟩ := new_blank h
  have hsize : ∀ {s}, s₀.Extends s → s.pageCount * s.pageCapacity ≤ 2 ^ 32 →
      s.pageCount ≤ 2 ^ 32 ∧ s₀.pageCount ≤ 2 ^ 32 := fun hextends hfits => by
    have hle := (hextends.shaped (new_shaped h)).size_le hfits
    exact ⟨hle, hextends.pages.size_le.trans hle⟩
  refine ⟨fun hreset s hsteps hfits => ?_, fun reset => ?_, fun hreset calls s hrun hfits => ?_⟩
  · have hextends := Extends.of_steps (steps_of_ownedSteps hsteps)
    obtain ⟨hle, hle₀⟩ := hsize hextends hfits
    obtain ⟨hs₀, hparked₀⟩ := Divided.new h hle₀
    obtain ⟨hscrubbed, hs, hparked⟩ := (hs₀.scrubbed hblank (hpolicy.trans hreset)).ownedSteps hs₀
      hparked₀ hsteps hle
    rw [← hlayout, ← hextends.layout_eq]
    exact hscrubbed.create hs hparked
  · obtain ⟨events, hnew⟩ := new_withReset h
    refine ⟨s₀.withReset reset, events, congrArg Traced.events (hnew config.resetOnFree),
      hnew reset, fun calls s hrun hfits => ?_⟩
    obtain ⟨hle, hle₀⟩ := hsize (SlabCall.performAll_extends hrun) hfits
    obtain ⟨hs₀, hparked₀⟩ := Divided.new h hle₀
    obtain ⟨hr₀, -⟩ := Divided.new (congrArg Traced.outcome (hnew reset)) hle₀
    exact (s₀.alike_withReset reset).performAll hs₀ hparked₀ hr₀ hrun hle
  · obtain ⟨hle, hle₀⟩ := hsize (SlabCall.performAll_extends hrun) hfits
    obtain ⟨hs₀, hparked₀⟩ := Divided.new h hle₀
    obtain ⟨hs, hparked, hshift⟩ := reachable h (SlabCall.steps_of_performAll hrun) hle
    obtain ⟨s', hcreate, hrecord⟩ := hs.create_record hparked
    refine ⟨s.upcoming, s', hcreate, ?_⟩
    rw [hrecord, ← hs.contents_upcoming hshift hfits, SlabCall.contents_performAll hs₀ hparked₀
      (hpolicy.trans hreset) hrun hle, (new_shaped h).contents_of_blank hblank, hlayout]

/-- Index 0 is written, freed and handed out again: its record holds zeros under the reset policy
and the byte that was written without it, and nothing else differs. -/
theorem reset_clears_only_bytes_recycled : ∃ s₀ s s' r₀ r r' : Slab, ∃ created created' : Created,
    (new { size := 4 } { pageSize := 1, initialPages := 1 } .heap).outcome = .ok s₀ ∧
    SlabCall.performAll s₀ [.create, .write 0 #[81], .free 0, .create] = .ok s ∧
    s.create.outcome = .ok (created, s') ∧ created.index = 0 ∧
    s'.recordAt created.place = .ok #[0, 0, 0, 0] ∧
    (new { size := 4 } { pageSize := 1, initialPages := 1, resetOnFree := false } .heap).outcome =
      .ok r₀ ∧
    SlabCall.performAll r₀ [.create, .write 0 #[81], .free 0, .create] = .ok r ∧ s.Indistinct r ∧
    r.create.outcome = .ok (created', r') ∧ created'.index = 0 ∧
    r'.recordAt created'.place = .ok #[81, 0, 0, 0] := by
  obtain ⟨s₀, s₁, s₂, s₃, s₄, h, h₁, hlive, h₂, h₃, h₄, hrun, hfits, hindex⟩ :
      ∃ s₀ s₁ s₂ s₃ s₄ : Slab,
        (new { size := 4 } { pageSize := 1, initialPages := 1 } .heap).outcome = .ok s₀ ∧
        s₀.create.outcome = .ok (s₀.upcoming, s₁) ∧ s₁.isLive 0 = .ok true ∧
        s₁.write 0 #[81] = .ok s₂ ∧ (s₂.free 0).outcome = .ok s₃ ∧
        s₃.create.outcome = .ok (s₃.upcoming, s₄) ∧
        SlabCall.performAll s₀ [.create, .write 0 #[81], .free 0, .create] = .ok s₄ ∧
        s₄.pageCount * s₄.pageCapacity ≤ 2 ^ 32 ∧ s₄.cursorIndex = 0 :=
    ⟨_, _, _, _, _, rfl, rfl, rfl, rfl, rfl, rfl, rfl, by decide, by decide⟩
  have hsteps : Relation.ReflTransGen OwnedStep s₀ s₄ :=
    (((Relation.ReflTransGen.single (.create h₁)).tail (.write hlive h₂)).tail (.free 0 h₃)).tail
      (.create h₄)
  obtain ⟨hzeros, hpolicy, -⟩ := reset_clears_only_bytes h
  obtain ⟨created, s', hcreate, hrecord⟩ := hzeros rfl s₄ hsteps hfits
  obtain ⟨r₀, events, -, hnew, hsame⟩ := hpolicy false
  obtain ⟨r, hrun', hindistinct⟩ := hsame _ s₄ hrun hfits
  have hnew' := congrArg Traced.outcome hnew
  obtain ⟨r₀', r₁, hmade, hdone, hfits'⟩ : ∃ r₀ r : Slab,
      (new { size := 4 } { pageSize := 1, initialPages := 1, resetOnFree := false }
        .heap).outcome = .ok r₀ ∧
      SlabCall.performAll r₀ [.create, .write 0 #[81], .free 0, .create] = .ok r ∧
      r.pageCount * r.pageCapacity ≤ 2 ^ 32 := ⟨_, _, rfl, rfl, by decide⟩
  cases hnew'.symm.trans hmade
  cases hrun'.symm.trans hdone
  obtain ⟨-, -, hkept⟩ := reset_clears_only_bytes hnew'
  obtain ⟨created', r', hcreate', hrecord'⟩ := hkept rfl _ r hrun' hfits'
  obtain ⟨-, -, -, -, -, hcreated, -⟩ := create_cases hcreate
  obtain ⟨-, -, -, -, -, hcreated', -⟩ := create_cases hcreate'
  have hzero : created.index = 0 := hcreated ▸ hindex
  have hzero' : created'.index = 0 := hcreated' ▸ hindistinct.cursorIndex_eq.trans hindex
  rw [hzero'] at hrecord'
  exact ⟨s₀, s₄, s', r₀, r, r', created, created', h, hrun, hcreate, hzero, hrecord, hnew', hrun',
    hindistinct, hcreate', hzero', hrecord'⟩

end Slab

end RecordArena
