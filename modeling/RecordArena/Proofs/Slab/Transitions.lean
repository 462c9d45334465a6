import RecordArena.Proofs.Slab.Bound

/-!
# Transitions of a slab

What an operation of a slab does is written out as a whole: the events, the queue, the room for
pages, the pages and the cursor. Creating a record occupies the place under the cursor and steps
within the page, or turns to the page that waits first or to a new one. It queues no page, because
the page that the cursor leaves holds the record that has just been created. Freeing queues a page
when its last record goes, unless the cursor is still filling it.

## Main definitions

* `PageTable.Turns` – taking the next page to fill.
* `Slab.Fills`, `Slab.Vacates` – creating and freeing a record.

## Main statements

* `Slab.Divided.create_fills`, `Slab.Divided.freeAt_vacates` – the operations make these
  transitions.
* `Slab.Divided.fills_of_create`, `Slab.Divided.vacates_of_free`, `Slab.Divided.writes_of_writeAt` –
  an operation that was answered has made its transition.
-/

namespace RecordArena

/-- What two steps report is put together. -/
theorem Traced.mk_ok_bind_mk {α β : Type} {events later : List Event} {a : α} {next : α → Traced β}
    {outcome : Except Failure β} (h : next a = ⟨later, outcome⟩) :
    ((⟨events, .ok a⟩ : Traced α) >>= next) = ⟨events ++ later, outcome⟩ := by
  change (⟨events ++ (next a).events, (next a).outcome⟩ : Traced β) = _
  rw [h]

/-- An answer is passed on with what was reported before it. -/
theorem Traced.mk_ok_bind {α β : Type} {events : List Event} {a : α} {next : α → Traced β} {b : β}
    (h : next a = pure b) : ((⟨events, .ok a⟩ : Traced α) >>= next) = ⟨events, .ok b⟩ := by
  rw [mk_ok_bind_mk h, List.append_nil]

namespace PageTable

variable {t : PageTable} {p : UInt32} {page : Page}

/-- The table with one more page; when the room is used up, it is doubled first. -/
def grown (t : PageTable) : PageTable :=
  { t with
    pages := t.pages.push t.freshPage
    reserved :=
      if t.pages.size = t.reserved then t.pages.size + max t.pages.size 1 else t.reserved }

theorem size_grown (t : PageTable) : t.grown.pages.size = t.pages.size + 1 :=
  Array.size_push _

/-- What allocating a page reports. -/
def growth (t : PageTable) : List Event :=
  (if t.pages.size = t.reserved then
    [.pageTableGrown t.pages.size (t.pages.size + max t.pages.size 1)] else []) ++
  [.pageGenerated (UInt32.ofNat t.pages.size)]

theorem addPage_run (hblock : t.slots * (t.recordSize + 1) ≤ t.backing.limit) :
    t.addPage = ⟨t.growth, .ok (UInt32.ofNat t.pages.size, t.grown)⟩ := by
  have hallocate : ∀ index, Page.allocate t.backing index t.slots t.recordSize =
      pure ⟨index, 0, Rows.vacant t.slots t.recordSize⟩ := fun index => by
    rw [Page.allocate, Rows.allocate_eq_pure hblock, pure_bind]
  rw [addPage, reserve, growth, grown]
  split
  · simp only [bind_assoc, pure_bind, hallocate]
    rfl
  · simp only [pure_bind, hallocate]
    rfl

theorem generate_run (hblock : t.slots * (t.recordSize + 1) ≤ t.backing.limit) :
    t.generate = ⟨t.growth, .ok (UInt32.ofNat t.pages.size,
      { t.grown with free := t.free.push (UInt32.ofNat t.pages.size) })⟩ := by
  rw [generate, addPage_run hblock]
  exact Traced.mk_ok_bind rfl

/-- The page that is taken next waits first in the queue, or is new when no page waits. -/
inductive Turns (t : PageTable) : List Event → UInt32 → PageTable → Prop where
  | queued {p : UInt32} (h : t.free.toList = p :: (t.free.extract 1 t.free.size).toList) :
      Turns t [] p { t with free := t.free.extract 1 t.free.size }
  | new (h : t.free.toList = []) : Turns t t.growth (UInt32.ofNat t.pages.size) t.grown

theorem Turns.run {events : List Event} {t' : PageTable} (h : t.Turns events p t')
    (hblock : t.slots * (t.recordSize + 1) ≤ t.backing.limit) :
    t.nextFree = ⟨events, .ok (p, t')⟩ := by
  obtain ⟨q, hlist, hnext⟩ | ⟨hempty, hnext⟩ := nextFree_eq t
  · cases h with
    | queued hqueue =>
      cases hlist.symm.trans hqueue
      exact hnext
    | new hnone => cases hlist.symm.trans hnone
  · cases h with
    | queued hqueue => cases hempty.symm.trans hqueue
    | new _ => exact hnext.trans (addPage_run hblock)

/-- Taking the next page touches no page that is there. -/
theorem Turns.getElem?_pages (hturns : t.Turns events p t') {i : Nat} (hi : i < t.pages.size) :
    t'.pages[i]? = t.pages[i]? := by
  cases hturns with
  | queued _ => rfl
  | new _ => rw [grown, Array.getElem?_push_lt hi, Array.getElem?_eq_getElem hi]

theorem exists_turns (t : PageTable) : ∃ events p t', t.Turns events p t' := by
  obtain ⟨p, hlist, -⟩ | ⟨hempty, -⟩ := nextFree_eq t
  · exact ⟨[], p, _, .queued hlist⟩
  · exact ⟨t.growth, _, _, .new hempty⟩

/-- The table once a page is queued, zeroed first under the reset policy. -/
def released (t : PageTable) (p : UInt32) : PageTable :=
  { t.withPage p t.recycle with free := t.free.push p }

/-- A page keeps its number when it is queued. -/
theorem index_recycle (t : PageTable) (page : Page) : (t.recycle page).index = page.index := by
  rw [recycle]
  split
  · rfl
  · rfl

theorem release_run (hpage : t.pages[p.toNat]? = some page) :
    t.release p = ⟨[.pageRecycled page.index], .ok (t.released p)⟩ := by
  have hp := (Array.getElem?_eq_some_iff.mp hpage).1
  have hread : (t.withPage p t.recycle).page p = .ok (t.recycle page) := page_eq (by
    rw [getElem?_withPage, if_pos rfl, hpage]
    rfl)
  rw [PageTable.release]
  split
  · next hreset =>
    have hclear : t.clear p = .ok (t.withPage p t.recycle) := by
      rw [recycle, if_pos hreset]
      exact modify_eq hp Page.clear
    rw [hclear, Traced.liftFault_ok_bind]
    dsimp only
    rw [hread, Traced.liftFault_ok_bind, index_recycle]
    rfl
  · next hreset =>
    have hkept : t.modify p id = .ok (t.withPage p t.recycle) := by
      rw [recycle, if_neg hreset]
      exact modify_eq hp id
    rw [hkept, Traced.liftFault_ok_bind]
    dsimp only
    rw [hread, Traced.liftFault_ok_bind, index_recycle]
    rfl

end PageTable

namespace SlabCall

variable {s s' : Slab} {call : SlabCall} {answer : SlabAnswer}

/-- A call that is answered changes nothing, or makes one change. -/
theorem step_of_perform (h : call.perform s = .ok (answer, s')) : s' = s ∨ s.Step s' := by
  cases call with
  | create =>
    obtain ⟨⟨created, s₁⟩, hcreate, h⟩ := bind_eq_ok h
    cases h
    exact .inr (.create hcreate)
  | write index src =>
    obtain ⟨s₁, hwrite, h⟩ := bind_eq_ok h
    cases h
    exact .inr (.write _ src (mapError_eq_ok hwrite))
  | free index =>
    obtain ⟨s₁, hfree, h⟩ := bind_eq_ok h
    cases h
    exact .inr (.free index hfree)
  | read index =>
    obtain ⟨record, -, h⟩ := bind_eq_ok h
    cases h
    exact .inl rfl

theorem steps_of_performAll {calls : List SlabCall} (h : performAll s calls = .ok s') :
    Relation.ReflTransGen Slab.Step s s' := by
  induction calls generalizing s with
  | nil =>
    cases h
    exact .refl
  | cons call calls ih =>
    obtain ⟨⟨answer, s₁⟩, hcall, hrest⟩ := bind_eq_ok h
    rcases step_of_perform hcall with rfl | hstep
    · exact ih hrest
    · exact .head hstep (ih hrest)

end SlabCall

namespace Slab

variable {s s' : Slab} {place : Place}

/-- The pages once the place under the cursor is occupied. -/
def occupiedPages (s : Slab) : PageTable :=
  s.pages.withPage s.cursor.place.page (·.occupy s.cursor.place.slot)

theorem size_occupiedPages (s : Slab) : s.occupiedPages.pages.size = s.pageCount :=
  PageTable.size_withPage _ _ _

/-- The pages once a place is vacated. -/
def vacatedPages (s : Slab) (place : Place) : PageTable :=
  s.pages.withPage place.page (·.vacate place.slot)

/-- Creating a record, with what it reports. -/
inductive Fills (s : Slab) : List Event → Slab → Prop where
  /-- The cursor steps within its page. -/
  | next (h : s.cursor.place.slot + 1 < s.cursor.slots) :
      Fills s [] { s with
        pages := s.occupiedPages
        cursor := { s.cursor with place := ⟨s.cursor.place.page, s.cursor.place.slot + 1⟩ }
        live := s.live + 1 }
  /-- The cursor leaves a full page for the next one. -/
  | turn {events : List Event} {p : UInt32} {t : PageTable}
      (h : s.cursor.slots ≤ s.cursor.place.slot + 1) (hturns : s.occupiedPages.Turns events p t) :
      Fills s events { s with
        pages := t
        cursor := { s.cursor with place := ⟨p, 0⟩ }
        live := s.live + 1 }

/-- Vacating a place, with what it reports. -/
inductive Vacates (s : Slab) (place : Place) : List Event → Slab → Prop where
  | vain (h : s.pages.occupiedAt place = false) : Vacates s place [] s
  /-- The page keeps a record, or is still being filled. -/
  | keep {page : Page} (h : s.pages.occupiedAt place = true)
      (hpage : (s.vacatedPages place).pages[place.page.toNat]? = some page)
      (hkeep : page.live ≠ 0 ∨ place.page = s.cursor.place.page) :
      Vacates s place [] { s with pages := s.vacatedPages place, live := s.live - 1 }
  /-- The page has lost its last record and is queued. -/
  | drain {page : Page} (h : s.pages.occupiedAt place = true)
      (hpage : (s.vacatedPages place).pages[place.page.toNat]? = some page)
      (hlive : page.live = 0) (hne : place.page ≠ s.cursor.place.page) :
      Vacates s place [.pageRecycled page.index]
        { s with pages := (s.vacatedPages place).released place.page, live := s.live - 1 }

namespace Divided

theorem occupy_eq (h : s.Divided) : s.pages.occupy s.cursor.place = .ok s.occupiedPages :=
  PageTable.modify_eq h.cursor_page_lt (·.occupy s.cursor.place.slot)

theorem occupiedPages_block_le (h : s.Divided) :
    s.occupiedPages.slots * (s.occupiedPages.recordSize + 1) ≤ s.occupiedPages.backing.limit :=
  h.toShaped.block_le

/-- Creating a record queues no page, because the page that the cursor leaves holds a record. -/
theorem fills_run (h : s.Divided) {events : List Event} (hfills : s.Fills events s') :
    s.create = ⟨events, .ok (s.upcoming, s')⟩ := by
  have hcreate : s.create = (do
      let moved ← s.cursor.advance s.occupiedPages
      pure (s.upcoming, { s with pages := moved.2, cursor := moved.1, live := s.live + 1 })) := by
    rw [Slab.create, h.occupy_eq, Traced.liftFault_ok_bind]
    rfl
  cases hfills with
  | next hnext =>
    rw [hcreate, Cursor.advance, if_pos hnext]
    rfl
  | @turn _ p t hlast hturns =>
    have hturn := hturns.run h.occupiedPages_block_le
    obtain ⟨page, hpage, hlive⟩ := h.occupied_page h.occupy_eq
    have hkept : t.page s.cursor.place.page = .ok page := PageTable.page_eq
      (PageTable.getElem?_nextFree h.occupiedPages_block_le (congrArg Traced.outcome hturn) hpage)
    have hadvance : s.cursor.advance s.occupiedPages =
        ⟨events, .ok ({ s.cursor with place := ⟨p, 0⟩ }, t)⟩ := by
      rw [Cursor.advance, if_neg (Nat.not_lt.mpr hlast), hturn]
      refine Traced.mk_ok_bind ?_
      simp only [hkept, Traced.liftFault_ok_bind, if_neg hlive, pure_bind]
    rw [hcreate, hadvance]
    exact Traced.mk_ok_bind rfl

theorem create_fills (h : s.Divided) :
    ∃ events s', s.create = ⟨events, .ok (s.upcoming, s')⟩ ∧ s.Fills events s' := by
  by_cases hnext : s.cursor.place.slot + 1 < s.cursor.slots
  · exact ⟨_, _, h.fills_run (.next hnext), .next hnext⟩
  · obtain ⟨events, p, t, hturns⟩ := s.occupiedPages.exists_turns
    have hlast := Nat.not_lt.mp hnext
    exact ⟨_, _, h.fills_run (.turn hlast hturns), .turn hlast hturns⟩

theorem vacates_run (h : s.Divided) (hp : place.page.toNat < s.pages.pages.size)
    (hslot : place.slot < s.pages.slots) {events : List Event}
    (hvacates : s.Vacates place events s') : s.freeAt place = ⟨events, .ok s'⟩ := by
  have hvacated : s.pages.occupiedAt place = true → ∀ page,
      (s.vacatedPages place).pages[place.page.toNat]? = some page →
      s.pages.vacate place = .ok (some page.live, s.vacatedPages place) := by
    intro hocc page hpage
    obtain ⟨page', hpage', hvacate, -⟩ := h.partitioned.toOrdered.vacate hslot hocc
    cases hpage.symm.trans hpage'
    exact hvacate
  cases hvacates with
  | vain hocc =>
    have hvacate : s.pages.vacate place = .ok (none, s.pages) := by
      rw [PageTable.vacate, h.pages.isOccupied_eq hp hslot, hocc]
      rfl
    rw [Slab.freeAt, hvacate, Traced.liftFault_ok_bind]
    rfl
  | keep hocc hpage hkeep =>
    have hdrain : ¬ (_ ∧ place.page ≠ s.cursor.place.page) :=
      not_and_or.mpr (hkeep.imp_right not_not.mpr)
    rw [Slab.freeAt, hvacated hocc _ hpage, Traced.liftFault_ok_bind]
    simp only [if_neg hdrain]
    rfl
  | drain hocc hpage hlive hne =>
    rw [Slab.freeAt, hvacated hocc _ hpage, Traced.liftFault_ok_bind]
    simp only [if_pos (And.intro hlive hne), PageTable.release_run hpage]
    rfl

theorem freeAt_vacates (h : s.Divided) (hp : place.page.toNat < s.pages.pages.size)
    (hslot : place.slot < s.pages.slots) :
    ∃ events s', s.freeAt place = ⟨events, .ok s'⟩ ∧ s.Vacates place events s' := by
  suffices hvacates : ∃ events s', s.Vacates place events s' by
    obtain ⟨events, s', hvacates⟩ := hvacates
    exact ⟨events, s', h.vacates_run hp hslot hvacates, hvacates⟩
  cases hocc : s.pages.occupiedAt place with
  | false => exact ⟨_, _, .vain hocc⟩
  | true =>
    obtain ⟨page, hpage, -⟩ := h.partitioned.toOrdered.vacate hslot hocc
    by_cases hdrain : page.live = 0 ∧ place.page ≠ s.cursor.place.page
    · exact ⟨_, _, .drain hocc hpage hdrain.1 hdrain.2⟩
    · exact ⟨_, _, .keep hocc hpage (by tauto)⟩

theorem fills_of_create (h : s.Divided) {created : Created}
    (hrun : s.create.outcome = .ok (created, s')) : ∃ events, s.Fills events s' := by
  obtain ⟨events, s₁, hcreate, hfills⟩ := h.create_fills
  cases hrun.symm.trans (congrArg Traced.outcome hcreate)
  exact ⟨events, hfills⟩

/-- A record that was freed was vacated, and the reports are those of that. -/
theorem free_vacates (h : s.Divided) {index : UInt32} (hrun : (s.free index).outcome = .ok s') :
    ∃ events, s.free index = ⟨events, .ok s'⟩ ∧ s.Vacates (s.place index) events s' := by
  rw [s.free_eq] at hrun ⊢
  obtain ⟨vacated, hvacate, -⟩ := Traced.outcome_bind_eq_ok hrun
  obtain ⟨hp, hslot⟩ := h.pages.of_vacate (Traced.outcome_liftFault_eq_ok hvacate)
  obtain ⟨events, s₁, hfree, hvacates⟩ := h.freeAt_vacates hp hslot
  cases hrun.symm.trans (congrArg Traced.outcome hfree)
  exact ⟨events, hfree, hvacates⟩

theorem vacates_of_free (h : s.Divided) {index : UInt32}
    (hrun : (s.free index).outcome = .ok s') :
    ∃ events, s.Vacates (s.place index) events s' := by
  obtain ⟨events, -, hvacates⟩ := h.free_vacates hrun
  exact ⟨events, hvacates⟩

/-- Writing to a place of a page changes its bytes and nothing else. -/
theorem writes_of_writeAt (h : s.Divided) {src : Bytes} (hrun : s.writeAt place src = .ok s') :
    place.page.toNat < s.pageCount ∧
      s' = { s with pages := s.pages.withPage place.page (·.write place.slot src) } ∧
      ∀ place' : Place, place'.slot < s.pages.slots →
        s'.pages.occupiedAt place' = s.pages.occupiedAt place' ∧
        s'.pages.bytesAt place' =
          if place' = place then (s.pages.bytesAt place').overwrite 0 src.toList
          else s.pages.bytesAt place' := by
  obtain ⟨t, hwrite, hdone⟩ := bind_eq_ok hrun
  cases hdone
  obtain ⟨hp, hslot, hsrc⟩ := h.pages.of_write hwrite
  obtain ⟨hwrite', -, hframe⟩ := h.partitioned.toOrdered.write hp hslot hsrc
  cases hwrite.symm.trans hwrite'
  exact ⟨hp, rfl, hframe⟩

end Divided

/-- An answered call leaves the cursor on a vacant slot of a divided slab. -/
theorem Divided.perform (h : s.Divided) (hparked : s.Parked) {call : SlabCall}
    {answer : SlabAnswer} (hrun : call.perform s = .ok (answer, s'))
    (hsize : s'.pageCount ≤ 2 ^ 32) : s'.Divided ∧ s'.Parked := by
  rcases SlabCall.step_of_perform hrun with rfl | hstep
  · exact ⟨h, hparked⟩
  · exact h.step hparked hstep hsize

/-- Freeing in a page that is not there faults and does nothing else. -/
theorem freeAt_missing (h : ¬ place.page.toNat < s.pages.pages.size) :
    s.freeAt place = ⟨[], .error (.faulted (.missingPage place.page))⟩ := by
  have hread : s.pages.page place.page = .error (.missingPage place.page) := dif_neg h
  rw [freeAt, PageTable.vacate, PageTable.isOccupied, hread]
  rfl

end Slab

end RecordArena
