import Mathlib.Order.Bounds.Basic
import RecordArena.Proofs.Slab.Policy

/-!
# Growth of the page table

Pages are generated when a slab is made, when its cursor is put on a table without pages, and when
a full page is left while none waits. Wherever that happens, the number of pages and the room for
them follow one law, which can be read off the reports alone: pages are numbered as they come, and
the room is doubled and reported just before the page that would not fit. No other call reports
either.

## Main definitions

* `PageTable.RoomFor` – the room of a table with that many pages.
* `PageTable.GrowthLog` – what has been reported by the time a table has its pages and its room.
* `PageTable.Enlarges` – one step of the table, with what it reports.
* `SlabCall.runAll`, `Slab.history` – a run of calls with what it reports.
* `Slab.GrowthLaw` – the law, for all reports of a run.

## Main statements

* `PageTable.Enlarges.growthLog` – a step keeps the log.
* `Slab.Divided.enlarges`, `Slab.Divided.growthLog_runAll` – calls are steps, and a run keeps the
  log.
* `Slab.page_table_growth` – the law holds after any run, and growth touches no page.
-/

namespace RecordArena

namespace Event

/-- The number of the page that was generated. -/
def generated? : Event → Option UInt32
  | pageGenerated p => some p
  | _ => none

/-- Whether pages or the room for them have become more. -/
def ofGrowth : Event → Bool
  | pageTableGrown _ _ => true
  | pageGenerated _ => true
  | _ => false

theorem generated?_eq_none {event : Event} (h : event.ofGrowth = false) :
    event.generated? = none := by
  cases event with
  | pageGenerated p => cases h
  | _ => rfl

end Event

namespace PageTable

variable {initial n room : Nat} {log events : List Event}

/-- A table that had room for `initial` pages at first, and for one at least, has doubled its room
as often as it takes for the pages. -/
def RoomFor (initial pages room : Nat) : Prop :=
  IsLeast {c | ∃ j, c = max initial 1 * 2 ^ j ∧ pages ≤ c} room

namespace RoomFor

theorem empty (initial : Nat) : RoomFor initial 0 (max initial 1) := by
  refine ⟨⟨0, (Nat.mul_one _).symm, Nat.zero_le _⟩, ?_⟩
  rintro c ⟨j, rfl, -⟩
  exact Nat.le_mul_of_pos_right _ (Nat.two_pow_pos j)

theorem le (h : RoomFor initial n room) : n ≤ room := by
  obtain ⟨⟨j, -, hle⟩, -⟩ := h
  exact hle

theorem pos (h : RoomFor initial n room) : 0 < room := by
  obtain ⟨⟨j, rfl, -⟩, -⟩ := h
  exact Nat.mul_pos (by omega) (Nat.two_pow_pos j)

/-- A page that still fits takes no more room. -/
theorem succ (h : RoomFor initial n room) (hne : n ≠ room) : RoomFor initial (n + 1) room := by
  have hle := h.le
  obtain ⟨⟨j, hroom, -⟩, hleast⟩ := h
  refine ⟨⟨j, hroom, by omega⟩, ?_⟩
  rintro c ⟨i, hc, hfits⟩
  exact hleast ⟨i, hc, by omega⟩

/-- One page more than there is room for takes twice the room. -/
theorem double (h : RoomFor initial n n) : RoomFor initial (n + 1) (2 * n) := by
  have hpos := h.pos
  obtain ⟨⟨j, hroom, -⟩, -⟩ := h
  refine ⟨⟨j + 1, ?_, by omega⟩, ?_⟩
  · rw [Nat.pow_succ, ← Nat.mul_assoc, ← hroom, Nat.mul_comm]
  · rintro c ⟨i, rfl, hfits⟩
    -- a smaller power would not be more than the room there was
    have hlt : j < i := by
      by_contra hge
      have hpow : 2 ^ i ≤ 2 ^ j := Nat.pow_le_pow_right (by decide) (Nat.le_of_not_lt hge)
      have hmul := Nat.mul_le_mul_left (max initial 1) hpow
      omega
    have hpow : 2 ^ (j + 1) ≤ 2 ^ i := Nat.pow_le_pow_right (by decide) hlt
    calc 2 * n = max initial 1 * 2 ^ (j + 1) := by
          rw [Nat.pow_succ, ← Nat.mul_assoc, ← hroom, Nat.mul_comm]
      _ ≤ max initial 1 * 2 ^ i := Nat.mul_le_mul_left _ hpow

end RoomFor

/-- What has been reported by the time there are so many pages and so much room. A page that fits is
reported alone, and one that does not fit after the room that was made for it. -/
inductive GrowthLog (initial : Nat) : (pages room : Nat) → List Event → Prop where
  | empty : GrowthLog initial 0 (max initial 1) []
  | page {n room : Nat} {log : List Event} (h : GrowthLog initial n room log) (hroom : n ≠ room) :
    GrowthLog initial (n + 1) room (log ++ [.pageGenerated (UInt32.ofNat n)])
  | double {n : Nat} {log : List Event} (h : GrowthLog initial n n log) :
    GrowthLog initial (n + 1) (2 * n)
      (log ++ [.pageTableGrown n (2 * n)] ++ [.pageGenerated (UInt32.ofNat n)])
  | other {n room : Nat} {log : List Event} {event : Event} (h : GrowthLog initial n room log)
    (hevent : event.ofGrowth = false) : GrowthLog initial n room (log ++ [event])

namespace GrowthLog

theorem roomFor (h : GrowthLog initial n room log) : RoomFor initial n room := by
  induction h with
  | empty => exact .empty initial
  | page _ hroom ih => exact ih.succ hroom
  | double _ ih => exact ih.double
  | other _ _ ih => exact ih

/-- Pages are numbered as they come. -/
theorem generated (h : GrowthLog initial n room log) (hsize : n ≤ 2 ^ 32) :
    (log.filterMap Event.generated?).map UInt32.toNat = List.range n := by
  induction h with
  | empty => rfl
  | page _ _ ih =>
    simp [Event.generated?, ih (by omega), List.range_succ, UInt32.toNat_ofNat_of_lt' hsize]
  | double _ ih =>
    simp [List.filterMap_cons, Event.generated?, ih (by omega), List.range_succ,
      UInt32.toNat_ofNat_of_lt' hsize]
  | other _ hevent ih =>
    simp [Event.generated?_eq_none hevent, ih hsize]

/-- No report ends with the room that was made; the page follows. -/
theorem getLast?_ne (h : GrowthLog initial n room log) (pages capacity : Nat) :
    log.getLast? ≠ some (.pageTableGrown pages capacity) := by
  cases h with
  | empty => simp
  | page _ _ => simp
  | double _ => simp
  | other _ hevent =>
    rw [List.getLast?_concat]
    rintro heq
    cases heq
    cases hevent

theorem concat_prefix_concat_iff {α : Type} {l m : List α} {x y : α} :
    l ++ [x] <+: m ++ [y] ↔ (l = m ∧ x = y) ∨ l ++ [x] <+: m := by
  rw [List.prefix_concat_iff, List.append_singleton_inj]

/-- The room that was made is reported just before a page exactly when the table was full. -/
theorem getLast?_of_generated (h : GrowthLog initial n room log) (hsize : n ≤ 2 ^ 32)
    {earlier : List Event} {p : UInt32} (hfront : earlier ++ [.pageGenerated p] <+: log)
    (pages capacity : Nat) :
    earlier.getLast? = some (.pageTableGrown pages capacity) ↔
      pages = p.toNat ∧ capacity = 2 * pages ∧ RoomFor initial pages pages := by
  induction h with
  | empty => simp at hfront
  | page h hroom ih =>
    rcases concat_prefix_concat_iff.mp hfront with ⟨rfl, heq⟩ | hfront
    · cases heq
      rw [UInt32.toNat_ofNat_of_lt' hsize]
      constructor
      · intro hlast
        exact absurd hlast (h.getLast?_ne _ _)
      · rintro ⟨rfl, -, hfull⟩
        exact absurd (hfull.unique h.roomFor) hroom
    · exact ih (by omega) hfront
  | double h ih =>
    rcases concat_prefix_concat_iff.mp hfront with ⟨rfl, heq⟩ | hfront
    · cases heq
      rw [UInt32.toNat_ofNat_of_lt' hsize, List.getLast?_concat, Option.some.injEq,
        Event.pageTableGrown.injEq]
      constructor
      · rintro ⟨rfl, rfl⟩
        exact ⟨rfl, rfl, h.roomFor⟩
      · rintro ⟨rfl, rfl, -⟩
        exact ⟨rfl, rfl⟩
    · rcases concat_prefix_concat_iff.mp hfront with ⟨-, heq⟩ | hfront
      · cases heq
      · exact ih (by omega) hfront
  | other _ hevent ih =>
    rcases concat_prefix_concat_iff.mp hfront with ⟨-, rfl⟩ | hfront
    · cases hevent
    · exact ih hsize hfront

/-- A page follows where room was made. -/
theorem generated_of_grown (h : GrowthLog initial n room log) {earlier : List Event}
    {pages capacity : Nat} (hfront : earlier ++ [.pageTableGrown pages capacity] <+: log) :
    ∃ p, earlier ++ [.pageTableGrown pages capacity, .pageGenerated p] <+: log := by
  induction h with
  | empty => simp at hfront
  | page _ _ ih =>
    rcases concat_prefix_concat_iff.mp hfront with ⟨-, heq⟩ | hfront
    · cases heq
    · obtain ⟨p, hp⟩ := ih hfront
      exact ⟨p, hp.trans (List.prefix_append _ _)⟩
  | double _ ih =>
    rcases concat_prefix_concat_iff.mp hfront with ⟨-, heq⟩ | hfront
    · cases heq
    · rcases concat_prefix_concat_iff.mp hfront with ⟨rfl, heq⟩ | hfront
      · cases heq
        refine ⟨UInt32.ofNat pages, ?_⟩
        rw [List.append_assoc]
        exact List.prefix_rfl
      · obtain ⟨p, hp⟩ := ih hfront
        refine ⟨p, hp.trans ?_⟩
        rw [List.append_assoc]
        exact List.prefix_append _ _
  | other _ hevent ih =>
    rcases concat_prefix_concat_iff.mp hfront with ⟨-, rfl⟩ | hfront
    · cases hevent
    · obtain ⟨p, hp⟩ := ih hfront
      exact ⟨p, hp.trans (List.prefix_append _ _)⟩

/-- Reports of other things change nothing. -/
theorem quiet (h : GrowthLog initial n room log) (hquiet : ∀ e ∈ events, e.ofGrowth = false) :
    GrowthLog initial n room (log ++ events) := by
  induction events generalizing log with
  | nil =>
    rw [List.append_nil]
    exact h
  | cons e events ih =>
    rw [List.forall_mem_cons] at hquiet
    rw [List.append_cons]
    exact ih (h.other hquiet.1) hquiet.2

end GrowthLog

variable {t t' u : PageTable} {p : UInt32}

/-- What a step does to the number of pages and the room for them, and what it reports of that. -/
inductive Enlarges (t : PageTable) : List Event → PageTable → Prop where
  | stays {events : List Event} {t' : PageTable} (hquiet : ∀ e ∈ events, e.ofGrowth = false)
    (hsize : t'.pages.size = t.pages.size) (hroom : t'.reserved = t.reserved) :
    Enlarges t events t'
  /-- The new page fits. -/
  | fits {t' : PageTable} (hfits : t.pages.size < t.reserved)
    (hsize : t'.pages.size = t.pages.size + 1) (hroom : t'.reserved = t.reserved) :
    Enlarges t [.pageGenerated (UInt32.ofNat t.pages.size)] t'
  /-- The table is full, and its room is doubled before the new page comes. -/
  | doubles {t' : PageTable} (hfull : t.pages.size = t.reserved)
    (hsize : t'.pages.size = t.pages.size + 1) (hroom : t'.reserved = 2 * t.reserved) :
    Enlarges t [.pageTableGrown t.reserved (2 * t.reserved),
      .pageGenerated (UInt32.ofNat t.pages.size)] t'

/-- A step that keeps both reports neither. -/
theorem Enlarges.of_silent (hsize : t'.pages.size = t.pages.size)
    (hroom : t'.reserved = t.reserved) : t.Enlarges [] t' :=
  .stays (fun _ he => absurd he List.not_mem_nil) hsize hroom

/-- A step depends on the number of pages and the room there were, and on nothing else. -/
theorem Enlarges.congr (h : t.Enlarges events t') (hsize : u.pages.size = t.pages.size)
    (hroom : u.reserved = t.reserved) : u.Enlarges events t' := by
  cases h with
  | stays hquiet hsize' hroom' =>
    exact .stays hquiet (hsize'.trans hsize.symm) (hroom'.trans hroom.symm)
  | fits hfits hsize' hroom' =>
    rw [← hsize] at hfits hsize' ⊢
    rw [← hroom] at hfits hroom'
    exact .fits hfits hsize' hroom'
  | doubles hfull hsize' hroom' =>
    rw [← hsize] at hfull hsize' ⊢
    rw [← hroom] at hfull hroom' ⊢
    exact .doubles hfull hsize' hroom'

/-- A step keeps the log of the table. -/
theorem Enlarges.growthLog (hstep : t.Enlarges events t')
    (h : GrowthLog initial t.pages.size t.reserved log) :
    GrowthLog initial t'.pages.size t'.reserved (log ++ events) := by
  cases hstep with
  | stays hquiet hsize hroom =>
    rw [hsize, hroom]
    exact h.quiet hquiet
  | fits hfits hsize hroom =>
    rw [hsize, hroom]
    exact h.page (Nat.ne_of_lt hfits)
  | doubles hfull hsize hroom =>
    rw [← hfull] at h hroom ⊢
    rw [hsize, hroom, List.append_cons]
    exact h.double

/-- A table that is full doubles its room before it takes one more page. -/
theorem enlarges_grown (h : RoomFor initial t.pages.size t.reserved) :
    t.Enlarges t.growth t.grown := by
  have hpos := h.pos
  rw [growth]
  by_cases hfull : t.pages.size = t.reserved
  · have hdouble : t.pages.size + max t.pages.size 1 = 2 * t.reserved := by omega
    have hroom : t.grown.reserved = 2 * t.reserved := (if_pos hfull).trans hdouble
    rw [if_pos hfull, hdouble]
    nth_rewrite 1 [hfull]
    exact .doubles hfull t.size_grown hroom
  · have hroom : t.grown.reserved = t.reserved := if_neg hfull
    rw [if_neg hfull]
    exact .fits (Nat.lt_of_le_of_ne h.le hfull) t.size_grown hroom

/-- The page that is taken next is reported when it is new. -/
theorem Turns.enlarges (hturns : t.Turns events p t')
    (h : RoomFor initial t.pages.size t.reserved) : t.Enlarges events t' := by
  cases hturns with
  | queued _ => exact .of_silent rfl rfl
  | new _ => exact enlarges_grown h

theorem GrowthLog.generateMany (h : GrowthLog initial t.pages.size t.reserved log)
    (hblock : t.slots * (t.recordSize + 1) ≤ t.backing.limit)
    (hrun : (PageTable.generateMany n t).outcome = .ok t') :
    GrowthLog initial t'.pages.size t'.reserved (log ++ (PageTable.generateMany n t).events) := by
  induction n generalizing t log with
  | zero =>
    change GrowthLog initial t'.pages.size t'.reserved (log ++ [])
    cases hrun
    rw [List.append_nil]
    exact h
  | succ n ih =>
    rw [PageTable.generateMany, generate_run hblock] at hrun ⊢
    rw [Traced.events_bind_of_ok rfl, ← List.append_assoc]
    exact ih (t := { t.grown with free := t.free.push (UInt32.ofNat t.pages.size) })
      ((enlarges_grown h.roomFor).growthLog h) hblock hrun

/-- Generating a page touches no page that is there. -/
theorem getElem?_addPage (h : t.addPage.outcome = .ok (p, t')) {i : Nat}
    (hi : i < t.pages.size) : t'.pages[i]? = t.pages[i]? := by
  obtain ⟨t₁, hreserve, h⟩ := Traced.outcome_bind_eq_ok h
  obtain ⟨page, -, h⟩ := Traced.outcome_bind_eq_ok h
  cases h
  have hpages : t₁.pages = t.pages := by
    rw [reserve] at hreserve
    split at hreserve
    · cases hreserve
      rfl
    · cases hreserve
      rfl
  rw [hpages, Array.getElem?_push_lt hi, Array.getElem?_eq_getElem hi]

end PageTable

namespace SlabCall

/-- A call with what it reports. -/
def run (s : Slab) (call : SlabCall) : Traced (SlabAnswer × Slab) :=
  ⟨call.report s, call.perform s⟩

/-- The slab after calls that are all answered, with what they report. -/
def runAll (s : Slab) : List SlabCall → Traced Slab
  | [] => pure s
  | call :: calls => do
    let (_, s) ← call.run s
    runAll s calls

theorem outcome_runAll (s : Slab) (calls : List SlabCall) :
    (runAll s calls).outcome = performAll s calls := by
  induction calls generalizing s with
  | nil => rfl
  | cons call calls ih =>
    rw [runAll, Traced.outcome_bind]
    exact congrArg (call.perform s >>= ·) (funext fun answered => ih answered.2)

end SlabCall

namespace Slab

variable {s s' : Slab} {layout : RecordLayout} {config : SlabConfig} {backing : Backing}
  {initial : Nat} {log events : List Event} {place : Place} {call : SlabCall}
  {answer : SlabAnswer} {calls : List SlabCall}

open PageTable (GrowthLog RoomFor)

/-- A slab from its making on, through calls that are all answered. -/
def history (layout : RecordLayout) (config : SlabConfig) (backing : Backing)
    (calls : List SlabCall) : Traced Slab := do
  SlabCall.runAll (← new layout config backing) calls

/-- Making a slab reports its pages as the law says. -/
theorem new_growthLog (h : (new layout config backing).outcome = .ok s) :
    GrowthLog config.initialPages s.pageCount s.pages.reserved
      (new layout config backing).events := by
  obtain ⟨t₀, t₁, events, p, hempty, hblock₀, hmany, hblock₁, hturns, -⟩ := new_turns h
  have hmany' : PageTable.generateMany config.initialPages t₀ =
      ⟨(PageTable.generateMany config.initialPages t₀).events, .ok t₁⟩ := by
    rw [← hmany]
  have hrun := new_run (new_layout h ▸ (new_shaped h).valid) (pageSlots_of_new h) hempty hmany'
    (hturns.run hblock₁)
  have hlog₀ : GrowthLog config.initialPages t₀.pages.size t₀.reserved [] := by
    cases PageTable.empty_eq_ok hempty
    exact .empty
  rw [hrun]
  have hlog₁ := hlog₀.generateMany hblock₀ hmany
  exact ((hturns.enlarges hlog₁.roomFor).growthLog hlog₁).other rfl

/-- Creating a record takes a page when it turns to a new one. -/
theorem Fills.enlarges (hfills : s.Fills events s')
    (h : RoomFor initial s.pageCount s.pages.reserved) : s.pages.Enlarges events s'.pages := by
  have hsize := s.size_occupiedPages
  cases hfills with
  | next _ => exact .of_silent hsize rfl
  | turn _ hturns =>
    rw [← hsize] at h
    exact (hturns.enlarges h).congr hsize.symm rfl

/-- Freeing a record takes no page. -/
theorem Vacates.enlarges (hvacates : s.Vacates place events s') :
    s.pages.Enlarges events s'.pages := by
  have hsize : (s.vacatedPages place).pages.size = s.pages.pages.size :=
    PageTable.size_withPage _ _ _
  cases hvacates with
  | vain _ => exact .of_silent rfl rfl
  | keep _ _ _ => exact .of_silent hsize rfl
  | drain _ _ _ _ =>
    refine .stays ?_ ((PageTable.size_withPage _ _ _).trans hsize) rfl
    intro e he
    rw [List.mem_singleton.mp he]
    rfl

/-- An answered call is a step of the table. -/
theorem Divided.enlarges (hs : s.Divided) (hrun : call.perform s = .ok (answer, s'))
    (h : RoomFor initial s.pageCount s.pages.reserved) :
    s.pages.Enlarges (call.report s) s'.pages := by
  cases call with
  | create =>
    obtain ⟨⟨created, s₁⟩, hcreate, hanswer⟩ := bind_eq_ok hrun
    cases hanswer
    obtain ⟨events, s₁, hrun', hfills⟩ := hs.create_fills
    rw [hrun'] at hcreate
    cases hcreate
    rw [SlabCall.report, hrun']
    exact hfills.enlarges h
  | write index src =>
    obtain ⟨s₁, hwrite, hanswer⟩ := bind_eq_ok hrun
    cases hanswer
    obtain ⟨-, rfl, -⟩ := hs.writes_of_writeAt (mapError_eq_ok hwrite)
    exact .of_silent (PageTable.size_withPage _ _ _) rfl
  | free index =>
    obtain ⟨s₁, hfree, hanswer⟩ := bind_eq_ok hrun
    cases hanswer
    obtain ⟨events, hrun', hvacates⟩ := hs.free_vacates hfree
    rw [SlabCall.report, hrun']
    exact hvacates.enlarges
  | read index =>
    obtain ⟨record, -, hanswer⟩ := bind_eq_ok hrun
    cases hanswer
    exact .of_silent rfl rfl

/-- A run of answered calls keeps the law. -/
theorem Divided.growthLog_runAll (hs : s.Divided) (hparked : s.Parked)
    (hrun : SlabCall.performAll s calls = .ok s') (hsize : s'.pageCount ≤ 2 ^ 32)
    (h : GrowthLog initial s.pageCount s.pages.reserved log) :
    GrowthLog initial s'.pageCount s'.pages.reserved (log ++ (SlabCall.runAll s calls).events) := by
  induction calls generalizing s log with
  | nil =>
    cases hrun
    change GrowthLog initial s'.pageCount s'.pages.reserved (log ++ [])
    rw [List.append_nil]
    exact h
  | cons call calls ih =>
    obtain ⟨⟨answer, s₁⟩, hcall, hrest⟩ := bind_eq_ok hrun
    have hsize₁ := (SlabCall.performAll_extends hrest).pages.size_le.trans hsize
    obtain ⟨hs₁, hparked₁⟩ := hs.perform hparked hcall hsize₁
    have hanswered : (call.run s).outcome = .ok (answer, s₁) := hcall
    rw [SlabCall.runAll, Traced.events_bind_of_ok hanswered, ← List.append_assoc]
    exact ih hs₁ hparked₁ hrest ((hs.enlarges hcall h.roomFor).growthLog h)

/-- All reports of a run, from the making of the slab on, and the table that they are of. -/
structure GrowthLaw (s : Slab) (initial : Nat) (events : List Event) : Prop where
  /-- Pages 0, 1, 2 and so on were reported, each once and in this order. -/
  generated : (events.filterMap Event.generated?).map UInt32.toNat = List.range s.pageCount
  roomFor : RoomFor initial s.pageCount s.pages.reserved
  /-- Just before a page, room is reported when the pages before it filled the table, and then it
  is doubled. -/
  grown_before : ∀ earlier p, earlier ++ [.pageGenerated p] <+: events → ∀ pages capacity,
    earlier.getLast? = some (.pageTableGrown pages capacity) ↔
      pages = p.toNat ∧ capacity = 2 * pages ∧ RoomFor initial pages pages
  /-- Where room is reported, a page follows. -/
  generated_after : ∀ earlier pages capacity,
    earlier ++ [.pageTableGrown pages capacity] <+: events →
      ∃ p, earlier ++ [.pageTableGrown pages capacity, .pageGenerated p] <+: events
  /-- Every further call finds the table full and doubles its room, or finds it with room, or takes
  no page. -/
  enlarges : ∀ call answer s', SlabCall.perform s call = .ok (answer, s') →
    s.pages.Enlarges (call.report s) s'.pages
  /-- Creating a record, with a new page or without, occupies a slot and touches no page else. -/
  create_keeps : ∀ created s', s.create.outcome = .ok (created, s') → ∀ i < s.pageCount,
    s'.pages.pages[i]? =
      if s.cursor.place.page.toNat = i then s.pages.pages[i]?.map (·.occupy s.cursor.place.slot)
      else s.pages.pages[i]?

/-- Creating a record touches the page under the cursor only. -/
theorem Fills.getElem?_pages (hfills : s.Fills events s') {i : Nat} (hi : i < s.pageCount) :
    s'.pages.pages[i]? =
      if s.cursor.place.page.toNat = i then s.pages.pages[i]?.map (·.occupy s.cursor.place.slot)
      else s.pages.pages[i]? := by
  have hoccupied := s.pages.getElem?_withPage s.cursor.place.page
    (·.occupy s.cursor.place.slot) i
  cases hfills with
  | next _ => exact hoccupied
  | turn _ hturns =>
    rw [← size_occupiedPages] at hi
    exact (hturns.getElem?_pages hi).trans hoccupied

theorem Divided.growthLaw (hs : s.Divided)
    (h : GrowthLog initial s.pageCount s.pages.reserved events) (hsize : s.pageCount ≤ 2 ^ 32) :
    s.GrowthLaw initial events where
  generated := h.generated hsize
  roomFor := h.roomFor
  grown_before _ _ hfront := h.getLast?_of_generated hsize hfront
  generated_after _ _ _ hfront := h.generated_of_grown hfront
  enlarges _ _ _ hrun := hs.enlarges hrun h.roomFor
  create_keeps created s' hcreate i hi := by
    obtain ⟨events, hfills⟩ := hs.fills_of_create hcreate
    exact hfills.getElem?_pages hi

/-- Pages and the room for them grow by one law. Of all that is reported from the making of a slab
on, pages are reported in order, each once, and the room for them is the least that doubling gives.
It is doubled and reported just before the pages that find the table full and at no other time. No
page that is there is touched by that. -/
theorem page_table_growth :
    (∀ {layout : RecordLayout} {config : SlabConfig} {backing : Backing} {calls : List SlabCall}
      {events : List Event} {s : Slab},
      history layout config backing calls = ⟨events, .ok s⟩ →
      s.pageCount ≤ 2 ^ 32 → s.GrowthLaw config.initialPages events) ∧
    ∀ {t t' : PageTable} {p : UInt32}, t.addPage.outcome = .ok (p, t') →
      ∀ i < t.pages.size, t'.pages[i]? = t.pages[i]? := by
  refine ⟨?_, fun hadd i hi => PageTable.getElem?_addPage hadd hi⟩
  intro layout config backing calls events s hrun hsize
  obtain ⟨s₀, hnew, hcalls⟩ := Traced.outcome_bind_eq_ok (congrArg Traced.outcome hrun)
  have hevents := congrArg Traced.events hrun
  rw [history, Traced.events_bind_of_ok hnew] at hevents
  rw [SlabCall.outcome_runAll] at hcalls
  have hextends := SlabCall.performAll_extends hcalls
  obtain ⟨hs₀, hparked₀⟩ := Divided.new hnew (hextends.pages.size_le.trans hsize)
  have hs := (reachable hnew (SlabCall.steps_of_performAll hcalls) hsize).1
  have hlog := hs₀.growthLog_runAll hparked₀ hcalls hsize (new_growthLog hnew)
  rw [hevents] at hlog
  exact hs.growthLaw hlog hsize

/-- A slab that begins without pages takes its first page into the room for one, and doubles the
room for the second and for the third. -/
theorem page_table_growth_doubled : ∃ events : List Event, ∃ s : Slab, ∃ p t,
    events = [.pageGenerated 0, .slabCreated 4 1 0 true, .pageTableGrown 1 2, .pageGenerated 1,
      .pageTableGrown 2 4, .pageGenerated 2, .pageRecycled 0] ∧
    history { size := 4 } { pageSize := 1, initialPages := 0 } .heap
      [.create, .create, .free 0, .create] = ⟨events, .ok s⟩ ∧
    s.pageCount = 3 ∧ s.pages.reserved = 4 ∧ s.GrowthLaw 0 events ∧
    s.pages.addPage.outcome = .ok (p, t) ∧ t.pages[0]? = s.pages.pages[0]? := by
  obtain ⟨events, s, p, t, hevents, hrun, hcount, hroom, hadd⟩ :
      ∃ events : List Event, ∃ s : Slab, ∃ p t,
        events = [.pageGenerated 0, .slabCreated 4 1 0 true, .pageTableGrown 1 2, .pageGenerated 1,
          .pageTableGrown 2 4, .pageGenerated 2, .pageRecycled 0] ∧
        history { size := 4 } { pageSize := 1, initialPages := 0 } .heap
          [.create, .create, .free 0, .create] = ⟨events, .ok s⟩ ∧
        s.pageCount = 3 ∧ s.pages.reserved = 4 ∧ s.pages.addPage.outcome = .ok (p, t) :=
    ⟨_, _, _, _, rfl, rfl, by decide, by decide, rfl⟩
  have hlaw : s.GrowthLaw 0 events := page_table_growth.1 hrun (by rw [hcount]; decide)
  have hkept := page_table_growth.2 hadd 0 (show 0 < s.pageCount by rw [hcount]; decide)
  exact ⟨events, s, p, t, hevents, hrun, hcount, hroom, hlaw, hadd, hkept⟩

end Slab

end RecordArena
