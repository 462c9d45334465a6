import RecordArena.Proofs.Slab.Classes

/-!
# Slabs bounded by their peak

A slab allocates a page only when no page waits, and then every page it has is needed: after the
call that allocates, each of the older pages holds a live record. So a slab never has more pages
than it began with, or than the most records that were live at once and one page to fill.

## Main definitions

* `Slab.Loaded` – the slabs that arise, with the most records that were live at once.
* `Slab.Grows` – what it takes to allocate a page.

## Main statements

* `Slab.Divided.growth` – one change allocates no page, or all older pages hold records.
* `Slab.Loaded.pageCount_le_peak` – the bound, after any run.
-/

namespace RecordArena

/-- A page that counts live records has an occupied row. -/
theorem Page.Counted.exists_occupied {page : Page} (h : page.Counted) (hlive : page.live ≠ 0) :
    ∃ slot < page.rows.count, page.rows.isOccupied slot = true := by
  rw [Page.Counted] at h
  rw [h, Finset.card_ne_zero] at hlive
  obtain ⟨slot, hmem⟩ := hlive
  exact ⟨slot, Rows.mem_occupied.mp hmem⟩

namespace PageTable

variable {t t' : PageTable} {p : UInt32}

theorem size_modify {change : Page → Page} (h : t.modify p change = .ok t') :
    t'.pages.size = t.pages.size := by
  unfold modify at h
  split at h
  · cases h
    exact Array.size_modify
  · cases h

theorem size_write {place : Place} {src : Bytes} (h : t.write place src = .ok t') :
    t'.pages.size = t.pages.size := by
  obtain ⟨page, -, h⟩ := bind_eq_ok h
  split at h
  · exact size_modify h
  · cases h

theorem size_vacate {place : Place} {remaining : Option Nat}
    (h : t.vacate place = .ok (remaining, t')) : t'.pages.size = t.pages.size := by
  obtain ⟨occupied, -, h⟩ := bind_eq_ok h
  split at h
  · obtain ⟨t₁, hmodify, h⟩ := bind_eq_ok h
    obtain ⟨page, -, h⟩ := bind_eq_ok h
    cases h
    exact size_modify hmodify
  · cases h
    rfl

theorem size_release (h : (t.release p).outcome = .ok t') : t'.pages.size = t.pages.size := by
  obtain ⟨change, t₁, hmodify, -, rfl⟩ := release_cases h
  have hsize : t₁.pages.size = t.pages.size := size_modify hmodify
  exact hsize

/-- When no page waits and none is lost, every page has a live record. -/
theorem Ordered.exists_occupied {current : Option UInt32} (h : t.Ordered current)
    (htracked : t.Tracked []) (hfree : t.free.toList = []) {p : UInt32}
    (hp : p.toNat < t.pages.size) : ∃ slot < t.slots, t.occupiedAt ⟨p, slot⟩ = true := by
  have hpage := Array.getElem?_eq_getElem hp
  obtain ⟨slot, hslot, hocc⟩ := (h.counted _ _ hpage).exists_occupied
    (htracked.live_ne_zero hfree hpage)
  refine ⟨slot, (h.shaped.rows_eq hpage).1 ▸ hslot, ?_⟩
  rw [occupiedAt, hpage]
  exact hocc

end PageTable

/-- A cursor that leaves live records behind queues nothing, and a page is allocated for it only
when none waits. -/
theorem Cursor.advance_keeps {c c' : Cursor} {t t' : PageTable} {page : Page}
    (hblock : t.slots * (t.recordSize + 1) ≤ t.backing.limit)
    (hadvance : (c.advance t).outcome = .ok (c', t'))
    (hpage : t.pages[c.place.page.toNat]? = some page) (hlive : page.live ≠ 0) :
    t'.pages = t.pages ∨ t.free.toList = [] ∧ t'.pages = t.pages.push t.freshPage := by
  rcases advance_cases hadvance with ⟨-, -, rfl⟩ | ⟨-, p, t₁, left, hnext, -, hleft, hrest⟩
  · exact .inl rfl
  have hpages := PageTable.nextFree_cases hblock hnext
  have hkept := PageTable.getElem?_nextFree hblock hnext hpage
  cases hkept.symm.trans (PageTable.getElem?_of_page hleft)
  obtain ⟨-, rfl⟩ | ⟨hzero, -⟩ := hrest
  · exact hpages.imp (fun h => h.2) fun h => ⟨h.1, h.2.2.2⟩
  · exact (hlive hzero).elim

namespace Slab

/-- The slabs that arise from a configuration, with the most records that were live at once. -/
inductive Loaded (config : SlabConfig) : Slab → Nat → Prop where
  | new {layout : RecordLayout} {backing : Backing} {s : Slab}
      (h : (new layout config backing).outcome = .ok s) : Loaded config s s.live
  | step {s s' : Slab} {peak : Nat} (h : Loaded config s peak) (hstep : s.Step s') :
      Loaded config s' (max peak s'.live)

/-- One page was allocated, for a new record, and every older page holds a live record. -/
structure Grows (s s' : Slab) : Prop where
  pageCount_eq : s'.pageCount = s.pageCount + 1
  create_eq : s.create.outcome = .ok (s.upcoming, s')
  exists_live : ∀ p, s.pages.contains p = true → ∃ slot, s'.pages.isOccupied ⟨p, slot⟩ = .ok true

variable {s s' : Slab}

theorem freeAt_pageCount {place : Place} (h : (s.freeAt place).outcome = .ok s') :
    s'.pageCount = s.pageCount := by
  obtain ⟨⟨remaining, t₁⟩, hvacate, h⟩ := Traced.outcome_bind_eq_ok h
  have hsize := PageTable.size_vacate (Traced.outcome_liftFault_eq_ok hvacate)
  cases remaining with
  | none =>
    cases h
    exact hsize
  | some remaining =>
    dsimp only at h
    split at h
    · obtain ⟨t₂, hrelease, h⟩ := Traced.outcome_bind_eq_ok h
      cases h
      exact (PageTable.size_release hrelease).trans hsize
    · cases h
      exact hsize

namespace Divided

/-- The page under the cursor has a live record once the slot under the cursor is occupied. -/
theorem occupied_page (h : s.Divided) {t : PageTable}
    (hrun : s.pages.occupy s.cursor.place = .ok t) :
    ∃ page, t.pages[s.cursor.place.page.toNat]? = some page ∧ page.live ≠ 0 := by
  have hlt := h.cursor_page_lt
  cases hrun.symm.trans (PageTable.modify_eq hlt (·.occupy s.cursor.place.slot))
  refine ⟨s.pages.pages[s.cursor.place.page.toNat].occupy s.cursor.place.slot, ?_,
    Nat.succ_ne_zero _⟩
  rw [PageTable.getElem?_withPage, if_pos rfl, Array.getElem?_eq_getElem hlt]
  rfl

/-- A page is allocated when the last slot of a page has been taken and no page waits. -/
theorem create_grows {created : Created} (h : s.Divided) (hparked : s.Parked)
    (hrun : s.create.outcome = .ok (created, s')) (hsize : s'.pageCount ≤ 2 ^ 32)
    (hne : s'.pageCount ≠ s.pageCount) : s.Grows s' ∧ s'.pageCount ≤ 1 + s'.live := by
  obtain ⟨t, c, t', hoccupy, hadvance, rfl, rfl⟩ := create_cases hrun
  obtain ⟨t₀, hoccupy', hoccupied⟩ := h.occupy hparked
  cases hoccupy.symm.trans hoccupy'
  have hcount := PageTable.size_modify hoccupy
  obtain ⟨page, hpage, hlive⟩ := h.occupied_page hoccupy
  have htracked : t.Tracked [] := hoccupied.partitioned.tracked.drop hpage hlive
  rcases Cursor.advance_keeps hoccupied.toShaped.block_le hadvance hpage hlive with
    hpages | ⟨hfree, hpages⟩
  · exact (hne ((congrArg Array.size hpages).trans hcount)).elim
  have hgrown : t'.pages.size = t.pages.size + 1 := by rw [hpages, Array.size_push]
  refine ⟨⟨hgrown.trans (congrArg (· + 1) hcount), hrun, fun p hp => ?_⟩, ?_⟩
  · have hp : p.toNat < t.pages.size := by
      rw [hcount]
      exact of_decide_eq_true hp
    obtain ⟨slot, hslot, hocc⟩ :=
      hoccupied.partitioned.toOrdered.exists_occupied htracked hfree hp
    have hkept := Cursor.advance_extends hadvance
    have hread : t'.isOccupied ⟨p, slot⟩ = .ok _ :=
      (hkept.shaped hoccupied.pages).isOccupied_eq (hp.trans_le hkept.size_le)
        (hkept.slots_eq ▸ hslot)
    refine ⟨slot, hread.trans ?_⟩
    rw [PageTable.occupiedAt, hpages, Array.getElem?_push, if_neg (Nat.ne_of_lt hp)]
    exact congrArg Except.ok hocc
  · have hroom : t'.pages.size ≤ 2 ^ 32 := hsize
    have hle := htracked.size_le_liveTotal hfree (by omega)
    have htotal : s.live + 1 = t.liveTotal := hoccupied.live_eq
    change t'.pages.size ≤ 1 + (s.live + 1)
    omega

/-- One change leaves the pages as they are, or allocates one because all others hold records. -/
theorem growth (h : s.Divided) (hparked : s.Parked) (hstep : s.Step s')
    (hsize : s'.pageCount ≤ 2 ^ 32) :
    s'.pageCount = s.pageCount ∨ s.Grows s' ∧ s'.pageCount ≤ 1 + s'.live := by
  cases hstep with
  | create hrun =>
    by_cases heq : s'.pageCount = s.pageCount
    · exact .inl heq
    · exact .inr (h.create_grows hparked hrun hsize heq)
  | write place src hrun =>
    obtain ⟨t, hwrite, hdone⟩ := bind_eq_ok hrun
    cases hdone
    exact .inl (PageTable.size_write hwrite)
  | free index hrun => exact .inl (freeAt_pageCount (s.free_eq index ▸ hrun))

end Divided

namespace Loaded

variable {config : SlabConfig} {peak : Nat}

theorem divided (h : Loaded config s peak) (hsize : s.pageCount ≤ 2 ^ 32) :
    s.Divided ∧ s.Parked ∧ s.pageCount ≤ max config.initialPages (1 + peak) := by
  induction h with
  | new h =>
    obtain ⟨hdivided, hparked⟩ := Divided.new h hsize
    obtain ⟨-, -, hcount⟩ := new_tracked h hsize
    exact ⟨hdivided, hparked, by omega⟩
  | step _ hstep ih =>
    obtain ⟨hdivided, hparked, hbound⟩ := ih (hstep.extends.pages.size_le.trans hsize)
    obtain ⟨hdivided', hparked'⟩ := hdivided.step hparked hstep hsize
    refine ⟨hdivided', hparked', ?_⟩
    rcases hdivided.growth hparked hstep hsize with heq | ⟨-, hle⟩
    · omega
    · omega

/-- A slab never has more pages than it began with, or than the most records that were live at once
and one more. It never gives a page up, and allocates one only when, with the new record, each of
the older pages holds a live record. -/
theorem pageCount_le_peak (h : Loaded config s peak) (hsize : s.pageCount ≤ 2 ^ 32) :
    s.pageCount ≤ max config.initialPages (1 + peak) ∧ s.live ≤ peak ∧
      ∀ s', s.Step s' → s.pageCount ≤ s'.pageCount ∧
        (s'.pageCount ≤ 2 ^ 32 → s'.pageCount = s.pageCount ∨ s.Grows s') := by
  obtain ⟨hdivided, hparked, hbound⟩ := h.divided hsize
  refine ⟨hbound, ?_, fun s' hstep => ⟨hstep.extends.pages.size_le, fun hsize' => ?_⟩⟩
  · cases h with
    | new h => exact Nat.le_refl _
    | step _ _ => exact Nat.le_max_right _ _
  · rcases hdivided.growth hparked hstep hsize' with heq | ⟨hgrows, -⟩
    · exact .inl heq
    · exact .inr hgrows

/-- With one record on a page, a record is freed before the next one is created. There was one live
record at a time and there are two pages, which is as many as the bound allows. A second live record
begins the first page anew and takes a third one. -/
theorem pageCount_le_peak_churned : ∃ s s' : Slab,
    Loaded { pageSize := 1, initialPages := 1 } s 1 ∧ s.isLive 0 = .ok false ∧
      s.isLive 1 = .ok true ∧ s.pageCount ≤ max 1 (1 + 1) ∧ s.pageCount = 2 ∧ s.Step s' ∧
      s'.isLive 0 = .ok true ∧ s'.pageCount = 3 ∧ s.Grows s' := by
  have hall : (do
      let s₀ ← (Slab.new { size := 4 } { pageSize := 1, initialPages := 1 } .heap).outcome
      let first ← s₀.create.outcome
      let s₂ ← (first.2.free 0).outcome
      let second ← s₂.create.outcome
      let third ← second.2.create.outcome
      pure (decide ([s₀, first.2, s₂, second.2].map Slab.live = [0, 1, 0, 1] ∧
        second.2.isLive 0 = .ok false ∧ second.2.isLive 1 = .ok true ∧
        second.2.pageCount = 2 ∧ third.2.isLive 0 = .ok true ∧ third.2.pageCount = 3)) :
          Except Failure Bool) = .ok true := by decide +kernel
  obtain ⟨s₀, h₀, hall⟩ := bind_eq_ok hall
  obtain ⟨⟨_, s₁⟩, h₁, hall⟩ := bind_eq_ok hall
  obtain ⟨s₂, h₂, hall⟩ := bind_eq_ok hall
  obtain ⟨⟨_, s⟩, h₃, hall⟩ := bind_eq_ok hall
  obtain ⟨⟨_, s'⟩, h₄, hall⟩ := bind_eq_ok hall
  obtain ⟨hlives, hfreed, hlive, hcount, hagain, hcount'⟩ := of_decide_eq_true (Except.ok.inj hall)
  dsimp only at hcount hcount'
  simp only [List.map_cons, List.map_nil, List.cons.injEq] at hlives
  obtain ⟨hlive₀, hlive₁, hlive₂, hlive₃, -⟩ := hlives
  have hloaded : Loaded { pageSize := 1, initialPages := 1 } s _ :=
    (((new h₀).step (.create h₁)).step (.free 0 h₂)).step (.create h₃)
  rw [hlive₀, hlive₁, hlive₂, hlive₃] at hloaded
  have hstep : s.Step s' := .create h₄
  obtain ⟨hbound, -, hsteps⟩ := pageCount_le_peak hloaded (by omega)
  refine ⟨s, s', hloaded, hfreed, hlive, hbound, hcount, hstep, hagain, hcount', ?_⟩
  rcases (hsteps s' hstep).2 (by omega) with heq | hgrows
  · omega
  · exact hgrows

end Loaded

end Slab

end RecordArena
