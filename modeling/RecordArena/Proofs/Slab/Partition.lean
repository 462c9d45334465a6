import Mathlib.Algebra.BigOperators.Group.List.Basic
import RecordArena.Proofs.Slab.Sound

/-!
# Classes of pages

Every page of a table belongs to one class: it is being filled, or it waits in the queue without
live records, or it has live records and does not wait. `PageTable.Partitioned` adds to the order
of a table that no page without live records is lost, which is neither being filled nor waiting.

Two rules share the work of queueing. Vacating a place queues a page whose last record goes, unless
it is being filled; the cursor queues a page that it leaves empty behind.

## Main definitions

* `PageTable.liveTotal` – the live records that all pages count.
* `PageTable.Tracked` – the pages without live records, in the queue or named apart.
* `PageTable.Partitioned` – the order of a table that has lost no page.

## Main statements

* `PageTable.Partitioned.occupy`, `PageTable.Partitioned.vacate`, `PageTable.Partitioned.write`,
  `PageTable.Partitioned.advance` – what changes a table keeps it partitioned.
-/

namespace RecordArena

/-- Changing one element of a list changes the sum by what it counts for. -/
theorem sum_map_modify {α : Type} (count : α → Nat) (change : α → α) {list : List α} {i : Nat}
    {a : α} (h : list[i]? = some a) :
    ((list.modify i change).map count).sum + count a =
      (list.map count).sum + count (change a) := by
  induction list generalizing i with
  | nil => cases h
  | cons b rest ih =>
    cases i with
    | zero =>
      cases h
      simp only [List.modify_zero_cons, List.map_cons, List.sum_cons]
      omega
    | succ i =>
      have hrest := ih h
      simp only [List.modify_succ_cons, List.map_cons, List.sum_cons]
      omega

namespace PageTable

variable {t t' : PageTable} {p filling : UInt32} {page : Page} {change : Page → Page}

/-- The live records that the pages count. -/
def liveTotal (t : PageTable) : Nat := (t.pages.toList.map Page.live).sum

theorem liveTotal_withPage (hpage : t.pages[p.toNat]? = some page) (change : Page → Page) :
    (t.withPage p change).liveTotal + page.live = t.liveTotal + (change page).live := by
  rw [liveTotal, withPage, Array.toList_modify]
  exact sum_map_modify Page.live change (by rwa [Array.getElem?_toList])

/-- Taking the next page to fill takes the first one that waits, or allocates one when none does. -/
theorem nextFree_cases (hblock : t.slots * (t.recordSize + 1) ≤ t.backing.limit)
    (h : t.nextFree.outcome = .ok (p, t')) :
    (t.free.toList = p :: t'.free.toList ∧ t'.pages = t.pages) ∨
      (t.free.toList = [] ∧ t'.free.toList = [] ∧ p = UInt32.ofNat t.pages.size ∧
        t'.pages = t.pages.push t.freshPage) := by
  obtain ⟨q, hlist, hnext⟩ | ⟨hempty, hnext⟩ := nextFree_eq t
  · cases hnext ▸ h
    exact .inl ⟨hlist, rfl⟩
  · obtain ⟨reserved, hadd⟩ := addPage_eq hblock
    cases (hnext ▸ h).symm.trans hadd
    exact .inr ⟨hempty, hempty, rfl, rfl⟩

/-- Pages that are there stay as they are. -/
theorem getElem?_nextFree (hblock : t.slots * (t.recordSize + 1) ≤ t.backing.limit)
    (h : t.nextFree.outcome = .ok (p, t')) {i : Nat} (hpage : t.pages[i]? = some page) :
    t'.pages[i]? = some page := by
  obtain ⟨hi, -⟩ := Array.getElem?_eq_some_iff.mp hpage
  rcases nextFree_cases hblock h with ⟨-, hpages⟩ | ⟨-, -, -, hpages⟩
  · rw [hpages, hpage]
  · rw [hpages, Array.getElem?_push, if_neg (Nat.ne_of_lt hi), hpage]

theorem liveTotal_push (hpages : t'.pages = t.pages.push t.freshPage) :
    t'.liveTotal = t.liveTotal := by
  rw [liveTotal, hpages, Array.toList_push, List.map_append, List.sum_append]
  rfl

theorem liveTotal_nextFree (hblock : t.slots * (t.recordSize + 1) ≤ t.backing.limit)
    (h : t.nextFree.outcome = .ok (p, t')) : t'.liveTotal = t.liveTotal := by
  rcases nextFree_cases hblock h with ⟨-, hpages⟩ | ⟨-, -, -, hpages⟩
  · rw [liveTotal, hpages, liveTotal]
  · exact liveTotal_push hpages

/-- Queueing a page without live records leaves the count of live records. -/
theorem liveTotal_release (hpage : t.pages[p.toNat]? = some page) (hlive : page.live = 0)
    (h : (t.release p).outcome = .ok t') : t'.liveTotal = t.liveTotal := by
  have hp := (Array.getElem?_eq_some_iff.mp hpage).1
  cases h.symm.trans (release_eq hp)
  have htotal := liveTotal_withPage hpage t.recycle
  rw [hlive, (t.recycle_spec hlive).2.1] at htotal
  exact htotal

/-- Every page without live records is one of `spare` or waits in the queue. -/
def Tracked (t : PageTable) (spare : List UInt32) : Prop :=
  ∀ p page, t.pages[p.toNat]? = some page → page.live = 0 → p ∈ spare ∨ p ∈ t.free.toList

namespace Tracked

variable {spare : List UInt32}

theorem mono {spare' : List UInt32} (h : t.Tracked spare) (hspare : ∀ q ∈ spare, q ∈ spare') :
    t.Tracked spare' :=
  fun q page hpage hlive => (h q page hpage hlive).imp_left (hspare q)

/-- A changed page may have lost its last record. -/
theorem withPage (h : t.Tracked spare) (p : UInt32) (change : Page → Page) :
    (t.withPage p change).Tracked (p :: spare) := by
  intro q page hpage hlive
  by_cases heq : p = q
  · subst heq
    exact .inl List.mem_cons_self
  · rw [getElem?_withPage, if_neg fun h => heq (UInt32.toNat_inj.mp h)] at hpage
    exact (h q page hpage hlive).imp_left (List.mem_cons_of_mem p)

/-- A page with live records needs no tracking. -/
theorem drop (h : t.Tracked (p :: spare)) (hpage : t.pages[p.toNat]? = some page)
    (hlive : page.live ≠ 0) : t.Tracked spare := by
  intro q page' hpage' hlive'
  rcases h q page' hpage' hlive' with hq | hq
  · rcases List.mem_cons.mp hq with rfl | hq
    · cases hpage.symm.trans hpage'
      exact (hlive hlive').elim
    · exact .inl hq
  · exact .inr hq

/-- A page that is queued waits. -/
theorem release (h : t.Tracked (p :: spare)) (hp : p.toNat < t.pages.size)
    (hrelease : (t.release p).outcome = .ok t') : t'.Tracked spare := by
  cases hrelease.symm.trans (release_eq hp)
  intro q page hpage hlive
  rw [Array.toList_push, List.mem_append, List.mem_singleton]
  by_cases heq : p = q
  · exact .inr (.inr heq.symm)
  · have hold : t.pages[q.toNat]? = some page := by
      rwa [getElem?_withPage, if_neg fun h => heq (UInt32.toNat_inj.mp h)] at hpage
    rcases h q page hold hlive with hq | hq
    · exact .inl ((List.mem_cons.mp hq).resolve_left fun hqp => heq hqp.symm)
    · exact .inr (.inl hq)

/-- A page that is allocated neither waits nor is filled yet. -/
theorem push (h : t.Tracked spare) (hfree : t'.free = t.free)
    (hpages : t'.pages = t.pages.push t.freshPage) :
    t'.Tracked (UInt32.ofNat t.pages.size :: spare) := by
  intro q page hpage hlive
  rw [hpages, Array.getElem?_push] at hpage
  split at hpage
  · next hnew =>
    rw [← hnew, UInt32.ofNat_toNat]
    exact .inl List.mem_cons_self
  · rw [hfree]
    exact (h q page hpage hlive).imp_left (List.mem_cons_of_mem _)

/-- The page that is turned to waits no more. -/
theorem nextFree (h : t.Tracked spare) (hblock : t.slots * (t.recordSize + 1) ≤ t.backing.limit)
    (hnext : t.nextFree.outcome = .ok (p, t')) : t'.Tracked (p :: spare) := by
  rcases nextFree_cases hblock hnext with ⟨hfree, hpages⟩ | ⟨hfree, hfree', rfl, hpages⟩
  · intro q page hpage hlive
    rw [hpages] at hpage
    have hq := h q page hpage hlive
    rw [hfree, List.mem_cons] at hq
    rw [List.mem_cons]
    tauto
  · exact h.push (Array.toList_inj.mp (hfree'.trans hfree.symm)) hpages

/-- When no page waits or is spare, all have live records. -/
theorem live_ne_zero (h : t.Tracked []) (hfree : t.free.toList = [])
    (hpage : t.pages[p.toNat]? = some page) : page.live ≠ 0 := by
  intro hlive
  rcases h p page hpage hlive with hp | hp
  · cases hp
  · rw [hfree] at hp
    cases hp

/-- There are then no more pages than live records. -/
theorem size_le_liveTotal (h : t.Tracked []) (hfree : t.free.toList = [])
    (hsize : t.pages.size ≤ 2 ^ 32) : t.pages.size ≤ t.liveTotal := by
  rw [← Array.length_toList, ← List.length_map Page.live, liveTotal]
  refine List.length_le_sum_of_one_le _ fun n hn => ?_
  obtain ⟨page, hpage, rfl⟩ := List.mem_map.mp hn
  obtain ⟨i, hi, rfl⟩ := List.mem_iff_getElem.mp hpage
  rw [Array.length_toList] at hi
  refine Nat.one_le_iff_ne_zero.mpr (h.live_ne_zero hfree (p := UInt32.ofNat i) ?_)
  rw [UInt32.toNat_ofNat', Nat.mod_eq_of_lt (hi.trans_le hsize), Array.getElem_toList,
    Array.getElem?_eq_getElem hi]

theorem empty {initial slots recordSize : Nat} {resetOnFree : Bool} {backing : Backing}
    (h : PageTable.empty initial slots recordSize resetOnFree backing = .ok t) :
    t.Tracked [] ∧ t.liveTotal = 0 ∧ t.pages.size = 0 := by
  cases empty_eq_ok h
  exact ⟨fun p page hpage => (by cases hpage), rfl, rfl⟩

/-- Pages that are generated all wait, and none of them has a live record. -/
theorem generateMany {n : Nat} (h : t.Tracked []) (hslots : ∃ k ≤ 15, t.slots = 2 ^ k)
    (hsize : t.recordSize ≤ maxRecordSize) (hrun : (generateMany n t).outcome = .ok t') :
    t'.Tracked [] ∧ t'.liveTotal = t.liveTotal ∧ t'.pages.size = t.pages.size + n := by
  induction n generalizing t with
  | zero =>
    cases hrun
    exact ⟨h, rfl, rfl⟩
  | succ n ih =>
    obtain ⟨⟨q, t₂⟩, hgenerate, hrun⟩ := Traced.outcome_bind_eq_ok hrun
    obtain ⟨⟨p, t₁⟩, hadd, hgenerate⟩ := Traced.outcome_bind_eq_ok hgenerate
    cases hgenerate
    obtain ⟨reserved, hadd'⟩ := addPage_eq (block_le hslots hsize)
    cases hadd.symm.trans hadd'
    have hpushed : ({ t with pages := t.pages.push t.freshPage, reserved } : PageTable).Tracked
        (UInt32.ofNat t.pages.size :: []) := h.push rfl rfl
    obtain ⟨htracked, htotal, hcount⟩ := ih (t := { t with
      pages := t.pages.push t.freshPage
      reserved := reserved
      free := t.free.push (UInt32.ofNat t.pages.size) }) (fun q page hpage hlive => by
        rw [Array.toList_push, List.mem_append, List.mem_singleton]
        rcases hpushed q page hpage hlive with hq | hq
        · exact .inr (.inr (List.mem_singleton.mp hq))
        · exact .inr (.inl hq)) hslots hsize hrun
    refine ⟨htracked, htotal.trans (liveTotal_push rfl), ?_⟩
    rw [hcount, Array.size_push]
    omega

end Tracked

/-- A table in order in which no page is lost: each one is being filled, waits or has live
records. -/
structure Partitioned (t : PageTable) (filling : UInt32) : Prop
    extends t.Ordered (some filling) where
  tracked : t.Tracked [filling]

namespace Partitioned

theorem notMem_free (h : t.Partitioned filling) : filling ∉ t.free.toList :=
  fun hfree => (h.free_empty filling hfree).1 rfl

/-- The page that is being filled is never lost, whatever becomes of it. -/
theorem of_ordered (h : t.Partitioned filling)
    (hordered : (t.withPage filling change).Ordered (some filling)) :
    (t.withPage filling change).Partitioned filling :=
  ⟨hordered, (h.tracked.withPage filling change).mono fun q hq => by simpa using hq⟩

theorem write (h : t.Partitioned filling) {place : Place} {src : Bytes}
    (hp : place.page.toNat < t.pages.size) (hslot : place.slot < t.slots)
    (hsrc : src.size ≤ t.recordSize) :
    (t.withPage place.page (·.write place.slot src)).Partitioned filling ∧
      (t.withPage place.page (·.write place.slot src)).liveTotal = t.liveTotal := by
  refine ⟨⟨(h.toOrdered.write hp hslot hsrc).2.1, fun q page hpage hlive => ?_⟩, ?_⟩
  · rw [getElem?_withPage] at hpage
    split at hpage
    · obtain ⟨page', hpage', rfl⟩ := Option.map_eq_some_iff.mp hpage
      exact h.tracked q page' hpage' hlive
    · exact h.tracked q page hpage hlive
  · exact Nat.add_right_cancel
      (liveTotal_withPage (Array.getElem?_eq_getElem hp) (·.write place.slot src))

/-- Occupying a vacant place of the page that is being filled. -/
theorem occupy (h : t.Partitioned filling) {slot : Nat} (hslot : slot < t.slots)
    (hvacant : t.occupiedAt ⟨filling, slot⟩ = false) :
    (t.withPage filling (·.occupy slot)).Partitioned filling ∧
      (t.withPage filling (·.occupy slot)).liveTotal = t.liveTotal + 1 := by
  obtain ⟨page, hpage⟩ : ∃ page, t.pages[filling.toNat]? = some page :=
    ⟨_, Array.getElem?_eq_getElem (h.current_lt filling rfl)⟩
  have htotal := liveTotal_withPage hpage (·.occupy slot)
  change _ = t.liveTotal + (page.live + 1) at htotal
  exact ⟨h.of_ordered (h.toOrdered.occupy hslot hvacant).1, by omega⟩

/-- Vacating an occupied place of any page. A page that loses its last record is not lost when it
is being filled or is queued. -/
theorem vacate (h : t.Partitioned filling) {place : Place} (hslot : place.slot < t.slots)
    (hocc : t.occupiedAt place = true) :
    ∃ (page : Page) (t₁ : PageTable), t.vacate place = .ok (some page.live, t₁) ∧
      t₁.liveTotal + 1 = t.liveTotal ∧
      (∀ place' : Place, place'.slot < t.slots → t.occupiedAt place' = false →
        t₁.occupiedAt place' = false) ∧
      (page.live ≠ 0 ∨ place.page = filling → t₁.Partitioned filling) ∧
      (page.live = 0 → place.page ≠ filling → ∃ t₂, (t₁.release place.page).outcome = .ok t₂ ∧
        t₂.Partitioned filling ∧ t₂.liveTotal = t₁.liveTotal ∧
        ∀ place' : Place, place'.slot < t.slots → t.occupiedAt place' = false →
          t₂.occupiedAt place' = false) := by
  obtain ⟨page, hpage, hvacate, hnotfree, hordered, hframe⟩ := h.toOrdered.vacate hslot hocc
  obtain ⟨old, hold⟩ : ∃ old, t.pages[place.page.toNat]? = some old :=
    ⟨_, Array.getElem?_eq_getElem (Ordered.lt_of_occupiedAt hocc)⟩
  have hpos := h.toOrdered.live_ne_zero hold hslot hocc
  have htotal := liveTotal_withPage hold (·.vacate place.slot)
  change _ = t.liveTotal + (old.live - 1) at htotal
  have htracked := h.tracked.withPage place.page (·.vacate place.slot)
  have hkept := vacate_extends hvacate
  have hnotfree' : place.page ∉ (t.withPage place.page (·.vacate place.slot)).free.toList :=
    hnotfree
  generalize t.withPage place.page (·.vacate place.slot) = t₁ at *
  have hvacant : ∀ place' : Place, place'.slot < t.slots → t.occupiedAt place' = false →
      t₁.occupiedAt place' = false := fun place' hplace hnone => by
    rw [(hframe place' hplace).1, hnone, Bool.and_false]
  refine ⟨page, t₁, hvacate, by omega, hvacant, fun hkeep => ⟨hordered, ?_⟩, fun hlive hne => ?_⟩
  · rcases hkeep with hlive | rfl
    · exact htracked.drop hpage hlive
    · exact htracked.mono fun q hq => by simpa using hq
  · obtain ⟨t₂, hrelease, hordered', -, hframe'⟩ := hordered.release hpage hlive
      (fun heq => hne (Option.mem_some_iff.mp heq).symm) hnotfree'
    have hp := (Array.getElem?_eq_some_iff.mp hpage).1
    refine ⟨t₂, hrelease, ⟨hordered', htracked.release hp hrelease⟩,
      liveTotal_release hpage hlive hrelease, fun place' hplace hnone => ?_⟩
    rw [(hframe' place' (hkept.slots_eq ▸ hplace)).1]
    exact hvacant place' hplace hnone

/-- The page that was being filled is neither the next one nor queued. -/
theorem nextFree_ne (h : t.Partitioned filling)
    (hblock : t.slots * (t.recordSize + 1) ≤ t.backing.limit)
    (hnext : t.nextFree.outcome = .ok (p, t')) (hsize : t'.pages.size ≤ 2 ^ 32) :
    p ≠ filling ∧ filling ∉ t'.free.toList := by
  rcases nextFree_cases hblock hnext with ⟨hfree, -⟩ | ⟨-, hfree, hp, hpages⟩
  · have hnotmem := h.notMem_free
    rw [hfree, List.mem_cons, not_or] at hnotmem
    exact ⟨fun heq => hnotmem.1 heq.symm, hnotmem.2⟩
  · refine ⟨fun heq => ?_, hfree ▸ List.not_mem_nil⟩
    have hlt : filling.toNat < t.pages.size := h.current_lt _ rfl
    rw [hpages, Array.size_push] at hsize
    rw [← heq, hp, UInt32.toNat_ofNat', Nat.mod_eq_of_lt hsize] at hlt
    exact Nat.lt_irrefl _ hlt

end Partitioned

end PageTable

namespace Cursor

/-- A cursor steps within its page, or turns to the next page and queues the one behind it if that
is left without live records. -/
theorem advance_cases {c c' : Cursor} {t t' : PageTable}
    (h : (c.advance t).outcome = .ok (c', t')) :
    (c.place.slot + 1 < c.slots ∧ c' = { c with place := ⟨c.place.page, c.place.slot + 1⟩ } ∧
      t' = t) ∨
    c.slots ≤ c.place.slot + 1 ∧ ∃ p t₁ left, t.nextFree.outcome = .ok (p, t₁) ∧
      c' = { c with place := ⟨p, 0⟩ } ∧ t₁.page c.place.page = .ok left ∧
      (left.live ≠ 0 ∧ t' = t₁ ∨ left.live = 0 ∧ (t₁.release c.place.page).outcome = .ok t') := by
  unfold advance at h
  dsimp only at h
  split at h
  · next hlt =>
    cases h
    exact .inl ⟨hlt, rfl, rfl⟩
  · next hge =>
    obtain ⟨⟨p, t₁⟩, hnext, h⟩ := Traced.outcome_bind_eq_ok h
    obtain ⟨left, hleft, h⟩ := Traced.outcome_bind_eq_ok h
    refine .inr ⟨Nat.not_lt.mp hge, p, t₁, left, hnext, ?_⟩
    split at h
    · next hlive =>
      obtain ⟨t₂, hrelease, h⟩ := Traced.outcome_bind_eq_ok h
      cases h
      exact ⟨rfl, Traced.outcome_liftFault_eq_ok hleft, .inr ⟨hlive, hrelease⟩⟩
    · next hlive =>
      cases h
      exact ⟨rfl, Traced.outcome_liftFault_eq_ok hleft, .inl ⟨hlive, rfl⟩⟩

end Cursor

namespace PageTable

variable {t t' : PageTable} {c c' : Cursor}

/-- The cursor can always be moved on. -/
theorem Ordered.advance_isOk (h : t.Ordered (some c.place.page))
    (hblock : t.slots * (t.recordSize + 1) ≤ t.backing.limit) :
    ∃ c' t', (c.advance t).outcome = .ok (c', t') := by
  by_cases hnext : c.place.slot + 1 < c.slots
  · exact ⟨_, t, by rw [Cursor.advance, if_pos hnext]; rfl⟩
  · obtain ⟨p, t₁, hfree, hkept, -, -⟩ := h.nextFree hblock
    obtain ⟨page, hpage⟩ : ∃ page, t.pages[c.place.page.toNat]? = some page :=
      ⟨_, Array.getElem?_eq_getElem (h.current_lt _ rfl)⟩
    have hpage₁ := hkept _ page hpage
    have hleft := page_eq hpage₁
    by_cases hlive : page.live = 0
    · exact ⟨{ c with place := ⟨p, 0⟩ }, _, by
        rw [Cursor.advance, if_neg hnext]
        simp [hfree, hleft, hlive, release_eq (Array.getElem?_eq_some_iff.mp hpage₁).1]
        rfl⟩
    · exact ⟨{ c with place := ⟨p, 0⟩ }, t₁, by
        rw [Cursor.advance, if_neg hnext]
        simp [hfree, hleft, hlive]⟩

/-- Moving the cursor on, whether or not the place under it has been occupied. A page that is left
without live records is queued, and was neither queued before nor is it the next one. -/
theorem Partitioned.advance (h : t.Partitioned c.place.page)
    (hblock : t.slots * (t.recordSize + 1) ≤ t.backing.limit)
    (hadvance : (c.advance t).outcome = .ok (c', t')) (hslots : c.slots = t.slots)
    (hslot : c.place.slot < t.slots) (hsize : t'.pages.size ≤ 2 ^ 32)
    (hahead : ∀ slot, c.place.slot < slot → slot < t.slots →
      t.occupiedAt ⟨c.place.page, slot⟩ = false) :
    t'.Partitioned c'.place.page ∧ t'.liveTotal = t.liveTotal ∧ c'.slots = c.slots ∧
      c'.place.slot < t.slots ∧ ∀ slot, c'.place.slot ≤ slot → slot < t.slots →
        t'.occupiedAt ⟨c'.place.page, slot⟩ = false := by
  rcases Cursor.advance_cases hadvance with
    ⟨hnext, rfl, rfl⟩ | ⟨-, p, t₁, left, hnext, rfl, hleft, hrest⟩
  · exact ⟨h, rfl, rfl, hslots ▸ hnext, fun slot hge hlt => hahead slot hge hlt⟩
  obtain ⟨q, t₁', hnext', hkept, -, hfilled⟩ := h.toOrdered.nextFree hblock
  cases hnext.symm.trans hnext'
  -- the page behind is the one it was
  obtain ⟨page, hpage⟩ : ∃ page, t.pages[c.place.page.toNat]? = some page :=
    ⟨_, Array.getElem?_eq_getElem (h.current_lt _ rfl)⟩
  have hpage₁ := hkept _ page hpage
  cases hleft.symm.trans (page_eq hpage₁)
  have htracked : t₁.Tracked [c.place.page, p] :=
    (h.tracked.nextFree hblock hnext).mono fun q hq => by simpa [or_comm] using hq
  have htotal := liveTotal_nextFree hblock hnext
  have hslots₁ := (nextFree_extends hnext).slots_eq
  rcases hrest with ⟨hlive, rfl⟩ | ⟨hlive, hrelease⟩
  · obtain ⟨hordered, hvacant⟩ := hfilled hsize
    exact ⟨⟨hordered, htracked.drop hpage₁ hlive⟩, htotal, rfl, Nat.zero_lt_of_lt hslot,
      fun slot _ => hvacant slot⟩
  · obtain ⟨hordered, hvacant⟩ := hfilled ((release_extends hrelease).size_le.trans hsize)
    have hbehind := h.nextFree_ne hblock hnext ((release_extends hrelease).size_le.trans hsize)
    obtain ⟨t₂, hrelease', hordered', -, hframe⟩ := hordered.release hpage₁ hlive
      (fun heq => hbehind.1 (Option.mem_some_iff.mp heq)) hbehind.2
    cases hrelease.symm.trans hrelease'
    have hp := (Array.getElem?_eq_some_iff.mp hpage₁).1
    refine ⟨⟨hordered', htracked.release hp hrelease⟩,
      (liveTotal_release hpage₁ hlive hrelease).trans htotal, rfl, Nat.zero_lt_of_lt hslot,
      fun slot _ hlt => ?_⟩
    rw [(hframe ⟨p, slot⟩ (hslots₁ ▸ hlt)).1]
    exact hvacant slot hlt

end PageTable

end RecordArena
