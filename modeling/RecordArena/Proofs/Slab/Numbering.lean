import RecordArena.KeyIndex.Cells
import RecordArena.Proofs.Slab.Bound

/-!
# Numbers of places

The places of a slab are numbered page after page. The index of a record is the number of its place,
of which 32 bits are kept, and nothing stops a slab from filling places whose numbers need more. Up
to there an index leads back to its place and is not live when it is handed out, and only the last
of these numbers is the mark of a vacant slot of a key index. Beyond, an index leads to another
place, whose record may be live still.

Records that are created one after the other fill the places in the order of their numbers, so both
limits are met by runs that only create records.

## Main definitions

* `Slab.number` – the number of a place.
* `PageTable.Sequential` – the pages that have not been filled yet wait in order.
* `Slab.Filled` – the slabs that arise by creating records only.

## Main statements

* `Slab.create_numbered` – the index of the record that is created next, after any run.
* `Slab.exists_filled` – the run that fills the first places.
* `Slab.create_repeats_live_index` – the runs in which an index is handed out wrongly.
-/

namespace RecordArena

namespace Cursor

variable {c c' : Cursor} {t t' : PageTable}

theorem advance_shift (h : (c.advance t).outcome = .ok (c', t')) : c'.shift = c.shift := by
  rcases advance_cases h with ⟨-, rfl, -⟩ | ⟨-, p, t₁, left, -, rfl, -⟩
  · rfl
  · rfl

end Cursor

namespace Slab

variable {s s' : Slab} {layout : RecordLayout} {config : SlabConfig} {backing : Backing} {s₀ : Slab}

/-- The places of all earlier pages come first, and then the earlier slots of the page. -/
def number (s : Slab) (place : Place) : Nat := place.page.toNat * s.pageCapacity + place.slot

theorem Extends.number_eq (h : s.Extends s') (place : Place) :
    s'.number place = s.number place := by
  rw [number, pageCapacity, h.addressing_eq]
  rfl

theorem number_inj {a b : Place} (ha : a.slot < s.pageCapacity) (hb : b.slot < s.pageCapacity)
    (h : s.number a = s.number b) : a = b := by
  have hpos := Nat.zero_lt_of_lt ha
  have hquotient : ∀ place : Place, place.slot < s.pageCapacity →
      s.number place / s.pageCapacity = place.page.toNat := by
    intro place hlt
    rw [number, Nat.mul_comm, Nat.mul_add_div hpos, Nat.div_eq_of_lt hlt, Nat.add_zero]
  have hpage : a.page.toNat = b.page.toNat := by rw [← hquotient a ha, ← hquotient b hb, h]
  rw [number, number, hpage] at h
  exact Place.eq_of_toNat_eq hpage (Nat.add_left_cancel h)

theorem freeAt_cursor {place : Place} (h : (s.freeAt place).outcome = .ok s') :
    s'.cursor = s.cursor := by
  obtain ⟨⟨remaining, t₁⟩, -, h⟩ := Traced.outcome_bind_eq_ok h
  cases remaining with
  | none =>
    cases h
    rfl
  | some remaining =>
    dsimp only at h
    split at h
    · obtain ⟨t₂, -, h⟩ := Traced.outcome_bind_eq_ok h
      cases h
      rfl
    · cases h
      rfl

/-- No change of a slab changes how its cursor forms indices. -/
theorem Step.cursor_shift (h : s.Step s') : s'.cursor.shift = s.cursor.shift := by
  cases h with
  | create h =>
    obtain ⟨t, c, t', -, hadvance, -, rfl⟩ := create_cases h
    exact Cursor.advance_shift hadvance
  | write place src h =>
    obtain ⟨t, -, h⟩ := bind_eq_ok h
    cases h
    rfl
  | free index h => rw [freeAt_cursor (s.free_eq index ▸ h)]

/-- After any run the pages are divided into classes, the slot under the cursor is vacant, and the
cursor forms indices in the way in which the slab splits them. -/
theorem reachable (h : (new layout config backing).outcome = .ok s₀)
    (hsteps : Relation.ReflTransGen Step s₀ s) (hsize : s.pageCount ≤ 2 ^ 32) :
    s.Divided ∧ s.Parked ∧ s.cursor.shift = s.addressing.shift := by
  have hextends := Extends.of_steps hsteps
  have hsize₀ := hextends.pages.size_le.trans hsize
  obtain ⟨hnew, hparked⟩ := Divided.new h hsize₀
  obtain ⟨hdivided, hparked⟩ := hnew.steps hparked hsteps hsize
  refine ⟨hdivided, hparked, ?_⟩
  rw [hextends.addressing_eq, ← (new_ordered h hsize₀).2.2.2.1]
  clear hsize hextends hdivided hparked
  induction hsteps with
  | refl => rfl
  | tail _ hstep ih => rw [hstep.cursor_shift, ih]

/-- A cursor that shifts as the slab does forms the index that the slab would. -/
theorem index_eq_encode (hshift : s.cursor.shift = s.addressing.shift) (place : Place) :
    ({ s.cursor with place } : Cursor).index = s.addressing.encode place := by
  rw [Cursor.index, hshift]
  rfl

namespace Divided

theorem upcoming_index (h : s.Divided) (hshift : s.cursor.shift = s.addressing.shift) :
    s.upcoming.index.toNat = s.number s.upcoming.place % 2 ^ 32 ∧
      (s.place s.upcoming.index = s.upcoming.place ↔ s.number s.upcoming.place < 2 ^ 32) := by
  obtain ⟨k, hk, hslots⟩ := h.slots_eq
  have hslot := h.cursor_lt
  have hindex : s.upcoming.index = s.addressing.encode s.upcoming.place :=
    index_eq_encode hshift s.upcoming.place
  rw [hslots] at hslot
  rw [hindex, place, number, h.pageCapacity_eq, h.addressing_eq, hslots]
  exact ⟨Addressing.toNat_encode_mod (by omega) hslot,
    Addressing.decode_encode_iff (by omega) hslot⟩

/-- Creating a record occupies the place under the cursor and no other. -/
theorem create_occupiedAt (h : s.Divided) (hparked : s.Parked) {created : Created}
    (hrun : s.create.outcome = .ok (created, s')) {place : Place}
    (hslot : place.slot < s.pages.slots) : s'.pages.occupiedAt place =
      (decide (place = s.cursor.place) || s.pages.occupiedAt place) := by
  have hvacant : ∀ slot, s.cursor.place.slot ≤ slot → slot < s.pages.slots →
      s.pages.occupiedAt ⟨s.cursor.place.page, slot⟩ = false := by
    intro slot hge hlt
    rcases Nat.eq_or_lt_of_le hge with rfl | hgt
    · exact hparked
    · exact h.ahead_vacant slot hgt hlt
  obtain ⟨t, c, t', hoccupy, hadvance, -, -, -, hframe, -⟩ := h.toShaped.occupy_advance
    h.partitioned.toOrdered h.cursor_slots h.cursor_lt hvacant
  obtain ⟨t₁, c₁, t₁', hoccupy₁, hadvance₁, -, rfl⟩ := create_cases hrun
  cases hoccupy.symm.trans hoccupy₁
  cases hadvance.symm.trans hadvance₁
  exact (hframe place hslot).1

end Divided

/-- After any run a record is created in a vacant place, and its index is the number of the place,
of which 32 bits are kept. The index leads back to the place exactly when the number fits, and then
the index was not live; it is the mark of a vacant slot of a key index exactly when all bits that
are kept are set. -/
theorem create_numbered (h : (new layout config backing).outcome = .ok s₀)
    (hsteps : Relation.ReflTransGen Step s₀ s) (hsize : s.pageCount ≤ 2 ^ 32) :
    ∃ created s', s.create.outcome = .ok (created, s') ∧
      s.pages.isOccupied created.place = .ok false ∧
      s'.pages.isOccupied created.place = .ok true ∧
      created.index.toNat = s.number created.place % 2 ^ 32 ∧
      (s.place created.index = created.place ↔ s.number created.place < 2 ^ 32) ∧
      (created.index = Cells.vacantMark ↔ s.number created.place % 2 ^ 32 = 2 ^ 32 - 1) ∧
      (s.number created.place < 2 ^ 32 →
        s.isLive created.index = .ok false ∧ s'.isLive created.index = .ok true) := by
  obtain ⟨hdivided, hparked, hshift⟩ := reachable h hsteps hsize
  obtain ⟨s', hrun⟩ := hdivided.create hparked
  obtain ⟨hindex, hplace⟩ := hdivided.upcoming_index hshift
  have hextends := create_extends hrun
  have hshaped' := hextends.shaped hdivided.toShaped
  have hp : s.upcoming.place.page.toNat < s.pages.pages.size := hdivided.cursor_page_lt
  have hlt : s.upcoming.place.slot < s.pages.slots := hdivided.cursor_lt
  have hoccupied : s'.pages.occupiedAt s.upcoming.place = true := by
    rw [hdivided.create_occupiedAt hparked hrun hlt, Bool.or_eq_true, decide_eq_true_eq]
    exact .inl rfl
  have hvacant : s.pages.occupiedAt s.upcoming.place = false := hparked
  refine ⟨s.upcoming, s', hrun, ?_, ?_, hindex, hplace, ?_, fun hfits => ?_⟩
  · rw [hdivided.pages.isOccupied_eq hp hlt, hvacant]
  · rw [hshaped'.pages.isOccupied_eq (PageTable.Ordered.lt_of_occupiedAt hoccupied)
      (hextends.pages.slots_eq ▸ hlt), hoccupied]
  · rw [← hindex, ← UInt32.toNat_inj]
    rfl
  · rw [hdivided.isLive_eq, hshaped'.isLive_eq, hextends.place_eq, hplace.mpr hfits, hvacant,
      hoccupied]
    exact ⟨rfl, rfl⟩

/-- Index 0 is handed out again after both records of its page were freed and two more created. -/
theorem create_numbered_recycled : ∃ s₀ s s' : Slab, ∃ created : Created,
    (new { size := 4 } { pageSize := 2, initialPages := 1 } .heap).outcome = .ok s₀ ∧
    Relation.ReflTransGen Step s₀ s ∧ s.pageCount ≤ 2 ^ 32 ∧
    s.create.outcome = .ok (created, s') ∧ created.place = ⟨0, 0⟩ ∧
    created.index.toNat = s.number created.place % 2 ^ 32 ∧ created.index ≠ Cells.vacantMark ∧
    s.isLive created.index = .ok false ∧ s'.isLive created.index = .ok true := by
  obtain ⟨s₀, s₁, s₂, s₃, s₄, s₅, s₆, h, h₁, h₂, h₃, h₄, h₅, h₆, hsize, hplace, hnumber⟩ :
      ∃ s₀ s₁ s₂ s₃ s₄ s₅ s₆ : Slab,
        (new { size := 4 } { pageSize := 2, initialPages := 1 } .heap).outcome = .ok s₀ ∧
        s₀.create.outcome = .ok (s₀.upcoming, s₁) ∧ s₁.create.outcome = .ok (s₁.upcoming, s₂) ∧
        (s₂.free 0).outcome = .ok s₃ ∧ (s₃.free 1).outcome = .ok s₄ ∧
        s₄.create.outcome = .ok (s₄.upcoming, s₅) ∧ s₅.create.outcome = .ok (s₅.upcoming, s₆) ∧
        s₆.pageCount ≤ 2 ^ 32 ∧ s₆.upcoming.place = ⟨0, 0⟩ ∧ s₆.number ⟨0, 0⟩ = 0 :=
    ⟨_, _, _, _, _, _, _, rfl, rfl, rfl, rfl, rfl, rfl, rfl, by decide, by decide, by decide⟩
  have hsteps : Relation.ReflTransGen Step s₀ s₆ :=
    (((((Relation.ReflTransGen.single (.create h₁)).tail (.create h₂)).tail (.free 0 h₃)).tail
      (.free 1 h₄)).tail (.create h₅)).tail (.create h₆)
  obtain ⟨created, s', hcreate, -, -, hindex, -, hmark, hlive⟩ :=
    create_numbered h hsteps hsize
  obtain ⟨-, -, -, -, -, hcreated, -⟩ := create_cases hcreate
  have hplace : created.place = ⟨0, 0⟩ := by rw [← hplace, hcreated, upcoming]
  have hzero : s₆.number created.place = 0 := by rw [hplace, hnumber]
  rw [hzero] at hmark hlive
  obtain ⟨hvacant, hoccupied⟩ := hlive (by decide)
  exact ⟨s₀, s₆, s', created, h, hsteps, hsize, hcreate, hplace, hindex,
    fun heq => absurd (hmark.mp heq) (by decide), hvacant, hoccupied⟩

end Slab

namespace PageTable

variable {t t' : PageTable} {p : UInt32} {initial next : Nat}

/-- The pages from `next` on wait in order, and there are more than `initial` pages only if they
have all been taken. -/
structure Sequential (t : PageTable) (initial next : Nat) : Prop where
  waiting : t.free.toList.map UInt32.toNat = List.range' next (t.pages.size - next)
  size_eq : t.pages.size = max initial next

theorem Sequential.withPage (h : t.Sequential initial next) (p : UInt32) (change : Page → Page) :
    (t.withPage p change).Sequential initial next := by
  refine ⟨?_, ?_⟩
  · rw [size_withPage]
    exact h.waiting
  · rw [size_withPage, h.size_eq]

/-- Pages that are generated one after the other wait in order. -/
theorem Sequential.generateMany {n : Nat} (h : t.Sequential t.pages.size 0)
    (hblock : t.slots * (t.recordSize + 1) ≤ t.backing.limit)
    (hrun : (generateMany n t).outcome = .ok t') (hsize : t'.pages.size ≤ 2 ^ 32) :
    t'.Sequential (t.pages.size + n) 0 := by
  induction n generalizing t with
  | zero =>
    cases hrun
    exact h
  | succ n ih =>
    obtain ⟨⟨q, t₂⟩, hgenerate, hrun⟩ := Traced.outcome_bind_eq_ok hrun
    obtain ⟨⟨p, t₁⟩, hadd, hgenerate⟩ := Traced.outcome_bind_eq_ok hgenerate
    cases hgenerate
    obtain ⟨reserved, hadd'⟩ := addPage_eq hblock
    cases hadd.symm.trans hadd'
    have hgrown := (generateMany_extends hrun).size_le
    rw [Array.size_push] at hgrown
    have hqueued := ih (t := { t with
      pages := t.pages.push t.freshPage
      reserved := reserved
      free := t.free.push (UInt32.ofNat t.pages.size) }) ⟨?_, by rw [Nat.max_zero]⟩ hblock hrun
    · rw [Array.size_push] at hqueued
      rwa [Nat.add_comm n 1, ← Nat.add_assoc]
    · rw [Array.toList_push, List.map_append, h.waiting, Array.size_push, List.map_singleton,
        UInt32.toNat_ofNat', Nat.mod_eq_of_lt (by omega), Nat.sub_zero, Nat.sub_zero,
        List.range'_1_concat, Nat.zero_add]

/-- The page that is taken next is the first one that waits, or a new one behind all others. -/
theorem Sequential.nextFree (h : t.Sequential initial next)
    (hblock : t.slots * (t.recordSize + 1) ≤ t.backing.limit)
    (hnext : t.nextFree.outcome = .ok (p, t')) (hroom : max initial (next + 1) ≤ 2 ^ 32) :
    p.toNat = next ∧ t'.Sequential initial (next + 1) := by
  have hsize := h.size_eq
  have hwaiting := h.waiting
  rcases nextFree_cases hblock hnext with ⟨hfree, hpages⟩ | ⟨hfree, hfree', rfl, hpages⟩
  · obtain ⟨m, hm⟩ : ∃ m, t.pages.size - next = m + 1 := by
      refine Nat.exists_eq_add_one_of_ne_zero fun hzero => ?_
      rw [hfree, hzero] at hwaiting
      cases hwaiting
    rw [hfree, hm, List.range'_succ, List.map_cons, List.cons.injEq] at hwaiting
    refine ⟨hwaiting.1, ?_, ?_⟩
    · rw [hwaiting.2, hpages]
      congr 1
      omega
    · rw [hpages]
      omega
  · have hzero : t.pages.size - next = 0 := by
      rw [hfree, List.map_nil, eq_comm, List.range'_eq_nil_iff] at hwaiting
      exact hwaiting
    refine ⟨?_, ?_, ?_⟩
    · rw [UInt32.toNat_ofNat', Nat.mod_eq_of_lt (by omega)]
      omega
    · rw [hfree', hpages, Array.size_push, (by omega : t.pages.size + 1 - (next + 1) = 0)]
      rfl
    · rw [hpages, Array.size_push]
      omega

theorem Sequential.empty {slots recordSize : Nat} {resetOnFree : Bool} {backing : Backing}
    (h : PageTable.empty initial slots recordSize resetOnFree backing = .ok t) :
    t.Sequential t.pages.size 0 ∧ t.pages.size = 0 := by
  cases empty_eq_ok h
  exact ⟨⟨rfl, rfl⟩, rfl⟩

end PageTable

/-- A cursor that leaves live records behind steps to the next number. -/
theorem Cursor.advance_sequential {c c' : Cursor} {t t' : PageTable} {page : Page} {initial : Nat}
    (h : t.Sequential initial (c.place.page.toNat + 1))
    (hblock : t.slots * (t.recordSize + 1) ≤ t.backing.limit)
    (hadvance : (c.advance t).outcome = .ok (c', t'))
    (hpage : t.pages[c.place.page.toNat]? = some page) (hlive : page.live ≠ 0)
    (hslot : c.place.slot < c.slots) (hroom : max initial (c.place.page.toNat + 2) ≤ 2 ^ 32) :
    t'.Sequential initial (c'.place.page.toNat + 1) ∧
      c'.place.page.toNat ≤ c.place.page.toNat + 1 ∧
      c'.place.page.toNat * c.slots + c'.place.slot =
        c.place.page.toNat * c.slots + c.place.slot + 1 := by
  rcases advance_cases hadvance with ⟨-, rfl, rfl⟩ | ⟨hlast, p, t₁, left, hnext, rfl, hleft, hrest⟩
  · exact ⟨h, Nat.le_succ _, rfl⟩
  obtain ⟨hp, hsequential⟩ := h.nextFree hblock hnext hroom
  have hkept := PageTable.getElem?_nextFree hblock hnext hpage
  cases hkept.symm.trans (PageTable.getElem?_of_page hleft)
  obtain ⟨-, rfl⟩ | ⟨hzero, -⟩ := hrest
  · refine ⟨hp ▸ hsequential, Nat.le_of_eq hp, ?_⟩
    change p.toNat * c.slots + 0 = _
    rw [hp, Nat.succ_mul]
    omega
  · exact (hlive hzero).elim

namespace Slab

variable {s s' : Slab} {layout : RecordLayout} {config : SlabConfig} {backing : Backing} {s₀ : Slab}
  {initial n : Nat}

/-- The slab after `n` records have been created and none freed. They fill the first places. -/
structure Filled (s : Slab) (initial n : Nat) : Prop extends s.Divided where
  parked : s.Parked
  cursor_shift : s.cursor.shift = s.addressing.shift
  sequential : s.pages.Sequential initial (s.cursor.place.page.toNat + 1)
  number_eq : s.number s.cursor.place = n
  occupied : ∀ place : Place, place.slot < s.pages.slots → s.number place < n →
    s.pages.occupiedAt place = true

namespace Filled

theorem new (h : (Slab.new layout config backing).outcome = .ok s)
    (hsize : s.pageCount ≤ 2 ^ 32) : s.Filled config.initialPages 0 := by
  obtain ⟨hdivided, hparked⟩ := Divided.new h hsize
  obtain ⟨t₀, t₁, p, hempty, hmany, hnext, hcursor, -⟩ := new_cases h
  obtain ⟨hsequential₀, hnone⟩ := PageTable.Sequential.empty hempty
  have hextends₁ := PageTable.generateMany_extends hmany
  have hextends₂ := PageTable.nextFree_extends hnext
  have hsize₁ := hextends₂.size_le.trans hsize
  have hsequential₁ := hsequential₀.generateMany
    (hdivided.block_le_of_extends (hextends₁.trans hextends₂)) hmany hsize₁
  rw [hnone, Nat.zero_add] at hsequential₁
  have hcount := hsequential₁.size_eq
  obtain ⟨hp, hsequential⟩ := hsequential₁.nextFree
    (hdivided.block_le_of_extends hextends₂) hnext (by omega)
  exact {
    toDivided := hdivided
    parked := hparked
    cursor_shift := (new_ordered h hsize).2.2.2.1
    sequential := by rwa [hcursor, hp]
    number_eq := by rw [hcursor, number, hp, Nat.zero_mul, Nat.zero_add]
    occupied := fun place _ hlt => absurd hlt (Nat.not_lt_zero _) }

/-- One more record takes the next place. -/
theorem create (h : s.Filled initial n)
    (hroom : max initial (s.cursor.place.page.toNat + 2) ≤ 2 ^ 32) :
    ∃ s', s.create.outcome = .ok (s.upcoming, s') ∧ s'.Filled initial (n + 1) := by
  obtain ⟨s', hrun⟩ := h.toDivided.create h.parked
  refine ⟨s', hrun, ?_⟩
  have hextends := create_extends hrun
  have hcount := h.pageCapacity_eq
  -- the cursor leaves a live record behind, so it steps to the next number
  obtain ⟨hsequential, hpage, hnext⟩ :
      s'.pages.Sequential initial (s'.cursor.place.page.toNat + 1) ∧
      s'.cursor.place.page.toNat ≤ s.cursor.place.page.toNat + 1 ∧
      s'.number s'.cursor.place = n + 1 := by
    obtain ⟨t, c, t', hoccupy, hadvance, -, rfl⟩ := create_cases hrun
    obtain ⟨page, hpage, hlive⟩ := h.occupied_page hoccupy
    cases hoccupy.symm.trans (PageTable.modify_eq h.cursor_page_lt (·.occupy s.cursor.place.slot))
    obtain ⟨hsequential, hle, hnext⟩ := Cursor.advance_sequential
      (h.sequential.withPage s.cursor.place.page (·.occupy s.cursor.place.slot))
      h.toShaped.block_le hadvance hpage hlive (h.cursor_slots ▸ h.cursor_lt) hroom
    rw [h.cursor_slots, ← hcount] at hnext
    exact ⟨hsequential, hle, hnext.trans (congrArg (· + 1) h.number_eq)⟩
  have hsize : s'.pages.pages.size ≤ 2 ^ 32 := by
    rw [hsequential.size_eq]
    omega
  obtain ⟨hdivided, hparked⟩ := h.toDivided.step h.parked (.create hrun) hsize
  exact {
    toDivided := hdivided
    parked := hparked
    cursor_shift := by rw [Step.cursor_shift (.create hrun), h.cursor_shift, hextends.addressing_eq]
    sequential := hsequential
    number_eq := hnext
    occupied := by
      intro place hslot hlt
      rw [hextends.pages.slots_eq] at hslot
      rw [hextends.number_eq] at hlt
      rw [h.create_occupiedAt h.parked hrun hslot, Bool.or_eq_true, decide_eq_true_eq]
      rcases Nat.lt_succ_iff_lt_or_eq.mp hlt with hlt | heq
      · exact .inr (h.occupied place hslot hlt)
      · exact .inl (number_inj (hcount ▸ hslot) (hcount ▸ h.cursor_lt)
          (heq.trans h.number_eq.symm)) }

/-- Creating records one after the other fills the next places. -/
theorem exists_run (h : s.Filled initial n) (m : Nat) (hinitial : initial ≤ 2 ^ 32)
    (hroom : (n + m) / s.pageCapacity + 2 ≤ 2 ^ 32) : ∃ s',
      SlabCall.performAll s (List.replicate m .create) = .ok s' ∧ s'.Filled initial (n + m) := by
  induction m generalizing s n with
  | zero => exact ⟨s, rfl, h⟩
  | succ m ih =>
    have hpage : s.cursor.place.page.toNat ≤ (n + (m + 1)) / s.pageCapacity := by
      have hpos : 0 < s.pageCapacity := Nat.succ_pos _
      rw [Nat.le_div_iff_mul_le hpos, ← h.number_eq, number]
      omega
    obtain ⟨s₁, hcreate, hfilled⟩ := h.create (by omega)
    have hcapacity : s₁.pageCapacity = s.pageCapacity := by
      rw [pageCapacity, (create_extends hcreate).addressing_eq]
      rfl
    obtain ⟨s', hrun, hfilled'⟩ := ih hfilled (by
      rw [hcapacity, Nat.add_assoc, Nat.add_comm 1 m]
      exact hroom)
    rw [Nat.add_assoc, Nat.add_comm 1 m] at hfilled'
    refine ⟨s', ?_, hfilled'⟩
    rw [List.replicate_succ, SlabCall.performAll, SlabCall.perform, hcreate]
    exact hrun

/-- The record that is created next, by its number. -/
theorem upcoming_eq (h : s.Filled initial n) (place : Place) (hslot : place.slot < s.pageCapacity)
    (hnumber : s.number place = n) :
    s.upcoming.place = place ∧ s.upcoming.index.toNat = n % 2 ^ 32 := by
  have hplace : s.upcoming.place = place := number_inj (h.pageCapacity_eq ▸ h.cursor_lt) hslot
    (h.number_eq.trans hnumber.symm)
  have hindex := (h.toDivided.upcoming_index h.cursor_shift).1
  rw [hplace, hnumber] at hindex
  exact ⟨hplace, hindex⟩

end Filled

/-- From a fresh slab, creating `n` records fills the first `n` places. -/
theorem exists_filled (h : (new layout config backing).outcome = .ok s₀)
    (hsize : s₀.pageCount ≤ 2 ^ 32) (hroom : n / s₀.pageCapacity + 2 ≤ 2 ^ 32) :
    ∃ s, SlabCall.performAll s₀ (List.replicate n .create) = .ok s ∧
      s.Filled config.initialPages n := by
  have hfilled := Filled.new h hsize
  have hcount : s₀.pageCount = max config.initialPages _ := hfilled.sequential.size_eq
  have hrun := hfilled.exists_run n (by omega)
  rw [Nat.zero_add] at hrun
  exact hrun hroom

/-- A slab with pages of 32768 slots has places for more than `2 ^ 32` records. The last record
whose number fits gets the mark of a vacant slot as its index, and the one after it gets the index
of the first record, which is live and in another place. -/
theorem create_repeats_live_index : ∃ s₀ s s' s'' : Slab,
    (new { size := 1 } { pageSize := 32768, initialPages := 0 } .heap).outcome = .ok s₀ ∧
    SlabCall.performAll s₀ (List.replicate (2 ^ 32 - 1) .create) = .ok s ∧
    s.create.outcome = .ok (⟨Cells.vacantMark, ⟨131071, 32767⟩⟩, s') ∧
    s'.isLive 0 = .ok true ∧ s'.place 0 = ⟨0, 0⟩ ∧
    s'.create.outcome = .ok (⟨0, ⟨131072, 0⟩⟩, s'') := by
  obtain ⟨s₀, h, hsize, haddressing⟩ : ∃ s₀ : Slab,
      (new { size := 1 } { pageSize := 32768, initialPages := 0 } .heap).outcome = .ok s₀ ∧
      s₀.pageCount ≤ 2 ^ 32 ∧ s₀.addressing = .ofSlots 32768 :=
    ⟨_, rfl, by decide, by decide⟩
  have hcapacity : ∀ s : Slab, s.addressing = .ofSlots 32768 → s.pageCapacity = 32768 := by
    intro s hs
    rw [pageCapacity, hs]
    decide
  have hroom : (2 ^ 32 - 1) / s₀.pageCapacity + 2 ≤ 2 ^ 32 := by
    rw [hcapacity s₀ haddressing]
    decide
  obtain ⟨s, hrun, hfilled⟩ := exists_filled h hsize hroom
  have hs := (SlabCall.performAll_extends hrun).addressing_eq.trans haddressing
  obtain ⟨hplace, hindex⟩ := hfilled.upcoming_eq ⟨131071, 32767⟩
    (by rw [hcapacity s hs]; decide) (by rw [number, hcapacity s hs]; decide)
  have hpage : s.cursor.place.page = 131071 := congrArg Place.page hplace
  obtain ⟨s', hcreate, hfilled'⟩ := hfilled.create (by rw [hpage]; decide)
  have hs' := (create_extends hcreate).addressing_eq.trans hs
  obtain ⟨hplace', hindex'⟩ := hfilled'.upcoming_eq ⟨131072, 0⟩
    (by rw [hcapacity s' hs']; decide) (by rw [number, hcapacity s' hs']; decide)
  obtain ⟨s'', hcreate'⟩ := hfilled'.toDivided.create hfilled'.parked
  have hfirst : s'.place 0 = ⟨0, 0⟩ := by
    rw [place, hs']
    decide
  have hmark : s.upcoming = ⟨Cells.vacantMark, ⟨131071, 32767⟩⟩ := by
    rw [← hplace, ← UInt32.toNat_inj.mp (hindex.trans rfl : _ = Cells.vacantMark.toNat)]
  have hrepeat : s'.upcoming = ⟨0, ⟨131072, 0⟩⟩ := by
    rw [← hplace', ← UInt32.toNat_inj.mp (hindex'.trans rfl : _ = (0 : UInt32).toNat)]
  have hlive : s'.isLive 0 = .ok true := by
    rw [hfilled'.isLive_eq, hfirst, hfilled'.occupied ⟨0, 0⟩ ?_ ?_]
    · rw [← hfilled'.pageCapacity_eq, hcapacity s' hs']
      decide
    · rw [number, Nat.add_zero]
      exact (Nat.zero_mul _).trans_lt (Nat.succ_pos _)
  exact ⟨s₀, s, s', s'', h, hrun, hmark ▸ hcreate, hlive, hfirst, hrepeat ▸ hcreate'⟩

end Slab

end RecordArena
