import RecordArena.Proofs.Slab.FillOrder
import RecordArena.Proofs.Slab.Numbering
import RecordArena.Proofs.Slab.Transitions

/-!
# Recycling in order

A slab fills its pages in the order of the machine `FillOrder`, whatever calls it gets: creating,
freeing and freeing again, writing and reading. So pages are filled again in the order in which they
were drained, and the index of a record that was freed is handed out again only after all records of
its page have been freed and the page has been queued.

## Main definitions

* `Slab.Follows` – the state of a slab as that of the machine.

## Main statements

* `Slab.Follows.create`, `Slab.Follows.free`, `Slab.Follows.performAll` – calls are steps of the
  machine.
* `Slab.create_in_fill_order` – the record that is created next, after any calls, and the calls that
  go before an index is handed out again.
-/

namespace RecordArena

namespace Slab

variable {s s' : Slab} {o : FillOrder} {place : Place} {events : List Event}

/-- The number of the place of an index is the index. -/
theorem Shaped.number_place (hs : s.Shaped) (index : UInt32) :
    s.number (s.place index) = index.toNat := by
  obtain ⟨k, hk, hslots⟩ := hs.slots_eq
  rw [number, hs.pageCapacity_eq, place, hs.addressing_eq, hslots,
    Addressing.page_decode (by omega), Addressing.slot_decode (by omega), Nat.div_add_mod']

theorem number_div (hslot : place.slot < s.pageCapacity) :
    s.number place / s.pageCapacity = place.page.toNat := by
  rw [number, Nat.mul_comm, Nat.mul_add_div (Nat.zero_lt_of_lt hslot), Nat.div_eq_of_lt hslot,
    Nat.add_zero]

namespace Divided

/-- Vacating a place leaves the flags of all others. -/
theorem vacates_occupiedAt (h : s.Divided) (hvacates : s.Vacates place events s')
    (hplace : place.slot < s.pages.slots) {place' : Place} (hslot : place'.slot < s.pages.slots) :
    s'.pages.occupiedAt place' = (decide (place' ≠ place) && s.pages.occupiedAt place') := by
  cases hvacates with
  | vain hocc =>
    by_cases heq : place' = place
    · rw [heq, hocc, Bool.and_false]
    · rw [decide_eq_true heq, Bool.true_and]
  | keep hocc =>
    obtain ⟨-, -, -, -, -, hframe⟩ := h.partitioned.toOrdered.vacate hplace hocc
    exact (hframe place' hslot).1
  | drain hocc hpage hlive hne =>
    obtain ⟨_, -, hvacate, hnotfree, hordered, hframe⟩ :=
      h.partitioned.toOrdered.vacate hplace hocc
    have hkept := PageTable.vacate_extends hvacate
    obtain ⟨t, hrelease, -, -, hframe'⟩ := hordered.release hpage hlive
      (fun heq => hne (Option.mem_some_iff.mp heq).symm) hnotfree
    cases hrelease.symm.trans (congrArg Traced.outcome (PageTable.release_run hpage))
    exact (hframe' place' (hkept.slots_eq ▸ hslot)).1.trans (hframe place' hslot).1

/-- A page loses its last record when no other place of it is occupied. -/
theorem vacated_live_eq_zero (h : s.Divided) (hplace : place.slot < s.pages.slots)
    (hocc : s.pages.occupiedAt place = true) {page : Page}
    (hpage : (s.vacatedPages place).pages[place.page.toNat]? = some page) :
    page.live = 0 ↔ ∀ slot < s.pages.slots, slot ≠ place.slot →
      s.pages.occupiedAt ⟨place.page, slot⟩ = false := by
  obtain ⟨_, -, hvacate, -, hordered, hframe⟩ := h.partitioned.toOrdered.vacate hplace hocc
  have hslots : (s.vacatedPages place).slots = s.pages.slots :=
    (PageTable.vacate_extends hvacate).slots_eq
  have hother : ∀ slot < s.pages.slots, slot ≠ place.slot →
      (s.vacatedPages place).occupiedAt ⟨place.page, slot⟩ =
        s.pages.occupiedAt ⟨place.page, slot⟩ := fun slot hslot hne => by
    refine (hframe ⟨place.page, slot⟩ hslot).1.trans ?_
    have hplaces : (⟨place.page, slot⟩ : Place) ≠ place := fun heq => hne (congrArg Place.slot heq)
    rw [decide_eq_true hplaces, Bool.true_and]
  constructor
  · intro hlive slot hslot hne
    rw [← hother slot hslot hne]
    exact hordered.occupiedAt_of_live hpage hlive (hslots.symm ▸ hslot)
  · intro hnone
    by_contra hlive
    obtain ⟨slot, hslot, hrow⟩ := (hordered.counted _ page hpage).exists_occupied hlive
    rw [(hordered.shaped.rows_eq hpage).1] at hslot
    have hslot : slot < s.pages.slots := hslots ▸ hslot
    have hrow : (s.vacatedPages place).occupiedAt ⟨place.page, slot⟩ = true := by
      rw [PageTable.occupiedAt, hpage]
      exact hrow
    by_cases hne : slot = place.slot
    · subst hne
      have hself := (hframe place hplace).1
      rw [decide_eq_false (not_not.mpr rfl), Bool.false_and] at hself
      exact Bool.false_ne_true (hself.symm.trans hrow)
    · rw [hother slot hslot hne, hnone slot hslot hne] at hrow
      exact Bool.false_ne_true hrow

end Divided

/-- The slab is where the machine is: at the same place, with the same pages waiting in the same
order, and with the same live records. -/
structure Follows (s : Slab) (o : FillOrder) : Prop where
  slots_eq : s.pageCapacity = o.slots
  page_eq : s.cursor.place.page.toNat = o.page
  slot_eq : s.cursor.place.slot = o.slot
  pageCount_eq : s.pageCount = o.pageCount
  free_eq : s.pages.free.toList.map UInt32.toNat = o.waiting
  occupied_iff : ∀ place : Place, place.slot < s.pageCapacity →
    (s.pages.occupiedAt place = true ↔ s.number place ∈ o.live)

namespace Follows

/-- The machine starts where a fresh slab is. -/
theorem new {layout : RecordLayout} {config : SlabConfig} {backing : Backing}
    (h : (Slab.new layout config backing).outcome = .ok s) (hsize : s.pageCount ≤ 2 ^ 32) :
    s.Follows (.start config.initialPages s.pageCapacity) := by
  have hfilled := Filled.new h hsize
  obtain ⟨-, hvacant, -, -, hslot, -⟩ := new_ordered h hsize
  have hpos : 0 < s.pageCapacity := Nat.succ_pos _
  have hpage : s.cursor.place.page.toNat = 0 := by
    have hnumber := hfilled.number_eq
    rw [number, Nat.add_eq_zero_iff, Nat.mul_eq_zero] at hnumber
    exact hnumber.1.resolve_right (Nat.ne_of_gt hpos)
  have hwaiting := hfilled.sequential.waiting
  have hcount := hfilled.sequential.size_eq
  rw [hpage, Nat.zero_add] at hwaiting hcount
  refine ⟨rfl, hpage, hslot, hcount, ?_, fun place _ => ?_⟩
  · rw [hwaiting, hcount, FillOrder.waiting, FillOrder.supply]
    change List.range' 1 (max config.initialPages 1 - 1) =
      List.range' 1 (config.initialPages - 1) ++ []
    rw [List.append_nil]
    congr 1
    omega
  · rw [hvacant]
    exact iff_of_false Bool.false_ne_true (Finset.notMem_empty _)

variable (h : s.Follows o)
include h

theorem number_cursor : s.number s.cursor.place = o.index := by
  rw [number, FillOrder.index, h.page_eq, h.slot_eq, h.slots_eq]

/-- The slab turns to the page to which the machine turns. -/
theorem turns {t : PageTable} {p : UInt32} (hturns : s.occupiedPages.Turns events p t)
    (hsize : t.pages.size ≤ 2 ^ 32) :
    p.toNat = o.fill.turn.page ∧ o.fill.turn.slot = 0 ∧ t.pages.size = o.fill.turn.pageCount ∧
      t.free.toList.map UInt32.toNat = o.fill.turn.waiting := by
  have hfree : s.occupiedPages.free.toList.map UInt32.toNat = o.fill.waiting := h.free_eq
  have hcount : s.occupiedPages.pages.size = o.fill.pageCount :=
    (PageTable.size_withPage _ _ _).trans h.pageCount_eq
  generalize s.occupiedPages = u at hturns hfree hcount
  cases hturns with
  | queued hlist =>
    rw [hlist, List.map_cons] at hfree
    rcases o.fill.turn_cases with ⟨page, hwaiting, -, hturn⟩ | ⟨hwaiting, -⟩
    · rw [hwaiting, List.cons.injEq] at hfree
      rw [hturn]
      exact ⟨hfree.1, rfl, hcount, hfree.2⟩
    · rw [hwaiting] at hfree
      cases hfree
  | new hempty =>
    rw [hempty, List.map_nil] at hfree
    rcases o.fill.turn_cases with ⟨page, hwaiting, -, -⟩ | ⟨hwaiting, hturn⟩
    · rw [hwaiting] at hfree
      cases hfree
    · have hroom : u.pages.size + 1 ≤ 2 ^ 32 := by
        rw [PageTable.size_grown] at hsize
        exact hsize
      rw [hturn]
      refine ⟨?_, rfl, ?_, ?_⟩
      · rw [UInt32.toNat_ofNat', Nat.mod_eq_of_lt hroom, hcount]
      · rw [PageTable.size_grown, hcount]
      · change u.free.toList.map UInt32.toNat = o.fill.waiting
        rw [hempty, hwaiting, List.map_nil]

theorem slots_cursor (hs : s.Divided) : s.cursor.slots = o.slots :=
  hs.cursor_slots.trans (hs.pageCapacity_eq.symm.trans h.slots_eq)

/-- Creating a record is a step of the machine. -/
theorem create (hs : s.Divided) (hparked : s.Parked) {created : Created}
    (hrun : s.create.outcome = .ok (created, s')) (hsize : s'.pageCount ≤ 2 ^ 32) :
    s'.Follows o.create := by
  have hextends := create_extends hrun
  have hcapacity : s'.pageCapacity = s.pageCapacity := by
    rw [pageCapacity, hextends.addressing_eq]
    rfl
  have hoccupied : ∀ place : Place, place.slot < s'.pageCapacity →
      (s'.pages.occupiedAt place = true ↔ s'.number place ∈ o.create.live) := by
    intro place hslot
    rw [hcapacity] at hslot
    have hplace : place = s.cursor.place ↔ s.number place = o.index := by
      rw [← h.number_cursor]
      exact ⟨congrArg s.number, number_inj hslot (hs.pageCapacity_eq ▸ hs.cursor_lt)⟩
    rw [hextends.number_eq, o.create_live, Finset.mem_insert,
      hs.create_occupiedAt hparked hrun (hs.pageCapacity_eq ▸ hslot), Bool.or_eq_true,
      decide_eq_true_eq, h.occupied_iff place hslot, hplace]
  have hslots := h.slots_cursor hs
  have hslot := h.slot_eq
  obtain ⟨events, hfills⟩ := hs.fills_of_create hrun
  cases hfills with
  | next hnext =>
    have hfill : o.create = o.fill := if_pos (by omega)
    rw [hfill] at hoccupied ⊢
    exact ⟨h.slots_eq, h.page_eq, congrArg (· + 1) hslot,
      (PageTable.size_withPage _ _ _).trans h.pageCount_eq, h.free_eq, hoccupied⟩
  | turn hlast hturns =>
    have hturn : o.create = o.fill.turn := if_neg (by omega)
    obtain ⟨hpage, hzero, hcount, hfree⟩ := h.turns hturns hsize
    rw [hturn] at hoccupied ⊢
    exact ⟨h.slots_eq.trans o.fill.turn_kept.1.symm, hpage, hzero.symm, hcount, hfree, hoccupied⟩

/-- The machine drains a page when the slab has vacated the last occupied place of it. -/
theorem live_eq_zero_iff (hs : s.Divided) (hslot : place.slot < s.pageCapacity)
    (hocc : s.pages.occupiedAt place = true) {page : Page}
    (hpage : (s.vacatedPages place).pages[place.page.toNat]? = some page) :
    page.live = 0 ↔
      ∀ m ∈ o.live.erase (s.number place), m / o.slots ≠ s.number place / o.slots := by
  have hcount := hs.pageCapacity_eq
  rw [hs.vacated_live_eq_zero (hcount ▸ hslot) hocc hpage, ← h.slots_eq, number_div hslot]
  constructor
  · rintro hnone m hm hdiv
    obtain ⟨hne, hm⟩ := Finset.mem_erase.mp hm
    have hnumber : s.number ⟨place.page, m % s.pageCapacity⟩ = m := by
      rw [number, ← hdiv, Nat.div_add_mod']
    have hlt : m % s.pageCapacity < s.pageCapacity := Nat.mod_lt m (Nat.zero_lt_of_lt hslot)
    have hvacant := hnone (m % s.pageCapacity) (hcount ▸ hlt) fun heq => hne (by
      rw [← hnumber, heq])
    rw [← hnumber, ← h.occupied_iff _ hlt, hvacant] at hm
    exact Bool.false_ne_true hm
  · intro hnone slot hlt hne
    rw [← hcount] at hlt
    by_contra hoccupied
    refine hnone (s.number ⟨place.page, slot⟩) (Finset.mem_erase.mpr ⟨fun heq => ?_, ?_⟩)
      (number_div hlt)
    · exact hne (congrArg Place.slot (number_inj hlt hslot heq))
    · exact (h.occupied_iff _ hlt).mp (Bool.eq_true_of_not_eq_false hoccupied)

/-- A page is drained in the slab when it is in the machine. -/
theorem drains_iff (hs : s.Divided) (hslot : place.slot < s.pageCapacity)
    (hocc : s.pages.occupiedAt place = true) {page : Page}
    (hpage : (s.vacatedPages place).pages[place.page.toNat]? = some page) :
    (s.number place / o.slots ≠ o.page ∧
        ∀ m ∈ o.live.erase (s.number place), m / o.slots ≠ s.number place / o.slots) ↔
      place.page ≠ s.cursor.place.page ∧ page.live = 0 := by
  have hcurrent : s.number place / o.slots = o.page ↔ place.page = s.cursor.place.page := by
    rw [← h.slots_eq, number_div hslot, ← h.page_eq, UInt32.toNat_inj]
  rw [h.live_eq_zero_iff hs hslot hocc hpage, ne_eq, hcurrent]

/-- Vacating a place is a step of the machine. -/
theorem vacates (hs : s.Divided) (horderly : o.Orderly) (hslot : place.slot < s.pageCapacity)
    (hextends : s.Extends s') (hvacates : s.Vacates place events s') :
    s'.Follows (o.free (s.number place)) := by
  have hcount := hs.pageCapacity_eq
  have hcapacity : s'.pageCapacity = s.pageCapacity := by
    rw [pageCapacity, hextends.addressing_eq]
    rfl
  have hoccupied : ∀ place' : Place, place'.slot < s'.pageCapacity →
      (s'.pages.occupiedAt place' = true ↔ s'.number place' ∈ (o.free (s.number place)).live) := by
    intro place' hslot'
    rw [hcapacity] at hslot'
    have hplace : place' ≠ place ↔ s.number place' ≠ s.number place :=
      not_congr ⟨congrArg s.number, number_inj hslot' hslot⟩
    rw [hextends.number_eq, o.free_live, Finset.mem_erase,
      hs.vacates_occupiedAt hvacates (hcount ▸ hslot) (hcount ▸ hslot'), Bool.and_eq_true,
      decide_eq_true_eq, h.occupied_iff place' hslot', hplace]
  have hmem := h.occupied_iff place hslot
  cases hvacates with
  | vain hocc =>
    have hstep : o.free (s.number place) = o :=
      if_neg fun hlive => Bool.false_ne_true (hocc.symm.trans (hmem.mpr hlive))
    rw [hstep]
    exact h
  | keep hocc hleft hkeep =>
    have hdrain := mt (h.drains_iff hs hslot hocc hleft).mp (by tauto)
    have hstep : o.free (s.number place) = { o with live := o.live.erase (s.number place) } :=
      (if_pos (hmem.mp hocc)).trans (if_neg hdrain)
    rw [hstep] at hoccupied ⊢
    exact ⟨h.slots_eq, h.page_eq, h.slot_eq, (PageTable.size_withPage _ _ _).trans h.pageCount_eq,
      h.free_eq, hoccupied⟩
  | drain hocc hleft hzero hne =>
    have hdrain := (h.drains_iff hs hslot hocc hleft).mpr ⟨hne, hzero⟩
    have hstep : o.free (s.number place) = { o with
        live := o.live.erase (s.number place)
        drained := o.drained ++ [s.number place / o.slots] } :=
      (if_pos (hmem.mp hocc)).trans (if_pos hdrain)
    rw [hstep] at hoccupied ⊢
    refine ⟨h.slots_eq, h.page_eq, h.slot_eq, ?_, ?_, hoccupied⟩
    · exact (PageTable.size_withPage _ _ _).trans ((PageTable.size_withPage _ _ _).trans
        h.pageCount_eq)
    · rw [FillOrder.waiting_drained horderly.taken_le, ← h.free_eq, ← h.slots_eq, number_div hslot]
      change (s.pages.free.push place.page).toList.map UInt32.toNat = _
      rw [Array.toList_push, List.map_append, List.map_singleton]

/-- Freeing is a step of the machine. -/
theorem free (hs : s.Divided) (horderly : o.Orderly) {index : UInt32}
    (hrun : (s.free index).outcome = .ok s') : s'.Follows (o.free index.toNat) := by
  obtain ⟨events, hvacates⟩ := hs.vacates_of_free hrun
  rw [← hs.toShaped.number_place index]
  exact h.vacates hs horderly (hs.pageCapacity_eq ▸ hs.slot_lt index) (free_extends hrun) hvacates

/-- Writing does not concern the machine. -/
theorem writeAt (hs : s.Divided) {src : Bytes} (hrun : s.writeAt place src = .ok s') :
    s'.Follows o := by
  have hextends := writeAt_extends hrun
  obtain ⟨-, rfl, hframe⟩ := hs.writes_of_writeAt hrun
  refine ⟨h.slots_eq, h.page_eq, h.slot_eq, (PageTable.size_withPage _ _ _).trans h.pageCount_eq,
    h.free_eq, fun place' hslot' => ?_⟩
  have hkept := (hframe place' (hs.pageCapacity_eq ▸ hslot')).1
  rw [hextends.number_eq, ← h.occupied_iff place' hslot', ← hkept]

/-- An answered call is a step of the machine. -/
theorem perform (hs : s.Divided) (hparked : s.Parked) (horderly : o.Orderly) {call : SlabCall}
    {answer : SlabAnswer} (hrun : call.perform s = .ok (answer, s'))
    (hsize : s'.pageCount ≤ 2 ^ 32) : s'.Follows (o.perform call) := by
  cases call with
  | create =>
    obtain ⟨⟨created, s₁⟩, hcreate, hrun⟩ := bind_eq_ok hrun
    cases hrun
    exact h.create hs hparked hcreate hsize
  | write index src =>
    obtain ⟨s₁, hwrite, hrun⟩ := bind_eq_ok hrun
    cases hrun
    exact h.writeAt hs (mapError_eq_ok hwrite)
  | free index =>
    obtain ⟨s₁, hfree, hrun⟩ := bind_eq_ok hrun
    cases hrun
    exact h.free hs horderly hfree
  | read index =>
    obtain ⟨record, -, hrun⟩ := bind_eq_ok hrun
    cases hrun
    exact h

theorem performAll (hs : s.Divided) (hparked : s.Parked) (horderly : o.Orderly)
    {calls : List SlabCall} (hrun : SlabCall.performAll s calls = .ok s')
    (hsize : s'.pageCount ≤ 2 ^ 32) : s'.Follows (o.performAll calls) := by
  induction calls generalizing s o with
  | nil =>
    cases hrun
    exact h
  | cons call calls ih =>
    obtain ⟨⟨answer, s₁⟩, hcall, hrest⟩ := bind_eq_ok hrun
    have hsize₁ := (SlabCall.performAll_extends hrest).pages.size_le.trans hsize
    have hfollows := h.perform hs hparked horderly hcall hsize₁
    obtain ⟨hs₁, hparked₁⟩ := hs.perform hparked hcall hsize₁
    exact ih hfollows hs₁ hparked₁ (horderly.perform call) hrest

end Follows

/-- Creating a record never queues a page. -/
theorem Divided.not_recycled_of_create (hs : s.Divided) (p : UInt32) :
    .pageRecycled p ∉ s.create.events := by
  obtain ⟨events, s', hcreate, hfills⟩ := hs.create_fills
  rw [hcreate]
  cases hfills with
  | next => exact List.not_mem_nil
  | turn _ hturns =>
    cases hturns with
    | queued => exact List.not_mem_nil
    | new =>
      rw [PageTable.growth, List.mem_append, not_or]
      split
      · simp
      · simp

variable {layout : RecordLayout} {config : SlabConfig} {backing : Backing} {s₀ : Slab}
  {calls : List SlabCall}

/-- After any calls, the next record is created where the machine is: at the slot that follows the
previous one in the page, or at the start of the page that waited first, or of a new page when none
waited. Its index is the number of this place, of which 32 bits are kept, and no page is queued for
it. An index that is live is handed out again only after its page was drained, as long as the
numbers of places fit 32 bits. -/
theorem create_in_fill_order (h : (new layout config backing).outcome = .ok s₀)
    (hrun : SlabCall.performAll s₀ calls = .ok s) (hsize : s.pageCount ≤ 2 ^ 32) (o : FillOrder)
    (ho : o = (FillOrder.start config.initialPages s₀.pageCapacity).performAll calls) :
    s.Follows o ∧
    (∃ created s', s.create.outcome = .ok (created, s') ∧
      created.place.page.toNat = o.page ∧ created.place.slot = o.slot ∧
      created.index.toNat = o.index % 2 ^ 32) ∧
    (∀ p, .pageRecycled p ∉ s.create.events) ∧
    ∀ index, s.isLive index = .ok true →
      ∀ calls' s' created s'', SlabCall.performAll s calls' = .ok s' → s'.pageCount ≤ 2 ^ 32 →
        s'.create.outcome = .ok (created, s'') → s'.number created.place < 2 ^ 32 →
        created.index = index →
        (s.place index).page.toNat ∈ (o.performAll calls').drained.drop o.drained.length := by
  have hsteps := SlabCall.steps_of_performAll hrun
  obtain ⟨hs, hparked, hshift⟩ := reachable h hsteps hsize
  have hsize₀ := (Extends.of_steps hsteps).pages.size_le.trans hsize
  obtain ⟨hs₀, hparked₀⟩ := Divided.new h hsize₀
  have hstart : (FillOrder.start config.initialPages s₀.pageCapacity).Orderly :=
    .start (Nat.succ_pos _)
  have hfollows := (Follows.new h hsize₀).performAll hs₀ hparked₀ hstart hrun hsize
  have horderly := hstart.performAll calls
  rw [← ho] at hfollows horderly
  obtain ⟨s', hcreate⟩ := hs.create hparked
  refine ⟨hfollows, ⟨s.upcoming, s', hcreate, hfollows.page_eq, hfollows.slot_eq, ?_⟩,
    hs.not_recycled_of_create, ?_⟩
  · rw [(hs.upcoming_index hshift).1, upcoming, hfollows.number_cursor]
  · rintro index hlive calls' s' created s'' hrun' hsize' hcreate' hfits rfl
    have hlive : s.pages.occupiedAt (s.place created.index) = true :=
      Except.ok.inj (hs.isLive_eq.symm.trans hlive)
    have hslot : (s.place created.index).slot < s.pageCapacity :=
      hs.pageCapacity_eq ▸ hs.slot_lt created.index
    rw [hfollows.occupied_iff _ hslot, hs.number_place] at hlive
    -- the index that comes up is the number at which the machine is
    have hfollows' := hfollows.performAll hs hparked horderly hrun' hsize'
    obtain ⟨hs', -, hshift'⟩ :=
      reachable h (hsteps.trans (SlabCall.steps_of_performAll hrun')) hsize'
    obtain ⟨-, -, -, -, -, rfl, -⟩ := create_cases hcreate'
    have hindex : (o.performAll calls').index = s'.upcoming.index.toNat := by
      rw [(hs'.upcoming_index hshift').1, ← hfollows'.number_cursor]
      exact (Nat.mod_eq_of_lt hfits).symm
    have hmem := (horderly.live_behind _ hlive).mem_drained horderly hindex
    rwa [← hfollows.slots_eq, ← hs.number_place, number_div hslot] at hmem

/-- Page 0 is drained while page 1 is being filled, and is filled again after it, so index 0 comes
up again. -/
theorem create_in_fill_order_recycled : ∃ s₀ s s' s'' : Slab, ∃ created : Created, ∃ o : FillOrder,
    (new { size := 4 } { pageSize := 2, initialPages := 2 } .heap).outcome = .ok s₀ ∧
    SlabCall.performAll s₀ [.create, .create, .create] = .ok s ∧ s.isLive 0 = .ok true ∧
    o = (FillOrder.start 2 s₀.pageCapacity).performAll [.create, .create, .create] ∧
    s.Follows o ∧ (∀ p, .pageRecycled p ∉ s.create.events) ∧
    SlabCall.performAll s [.free 0, .free 1, .create] = .ok s' ∧
    s'.create.outcome = .ok (created, s'') ∧ created.index = 0 ∧
    0 ∈ (o.performAll [.free 0, .free 1, .create]).drained.drop o.drained.length := by
  have hall : (do
      let s₀ ← (new { size := 4 } { pageSize := 2, initialPages := 2 } .heap).outcome
      let s ← SlabCall.performAll s₀ [.create, .create, .create]
      let live ← s.isLive 0
      let s' ← SlabCall.performAll s [.free 0, .free 1, .create]
      let made ← s'.create.outcome
      pure (live, s.pageCount, s'.pageCount, made.1.index, s'.number made.1.place,
        (s.place 0).page.toNat)) = .ok (true, 2, 2, 0, 0, 0) := by decide +kernel
  obtain ⟨s₀, h, hall⟩ := bind_eq_ok hall
  obtain ⟨s, hrun, hall⟩ := bind_eq_ok hall
  obtain ⟨live, hlive, hall⟩ := bind_eq_ok hall
  obtain ⟨s', hrun', hall⟩ := bind_eq_ok hall
  obtain ⟨⟨created, s''⟩, hcreate, hall⟩ := bind_eq_ok hall
  have hall := Except.ok.inj hall
  simp only [Prod.mk.injEq] at hall
  obtain ⟨rfl, hcount, hcount', hindex, hnumber, hpage⟩ := hall
  have hlive := mapError_eq_ok hlive
  obtain ⟨hfollows, -, hnone, hreuse⟩ :=
    create_in_fill_order h hrun (by omega) _ rfl
  have hmem := hreuse 0 hlive _ s' created s'' hrun' (by omega) hcreate
    (by omega) hindex
  rw [hpage] at hmem
  exact ⟨s₀, s, s', s'', created, _, h, hrun, hlive, rfl, hfollows, hnone, hrun', hcreate, hindex,
    hmem⟩

end Slab

end RecordArena
