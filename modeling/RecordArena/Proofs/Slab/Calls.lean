import Mathlib.Data.FinEnum
import Mathlib.Data.Set.Card
import RecordArena.Proofs.Slab.Sound

/-!
# Calls of a slab

A slab is used through calls: records are created, written, freed and read, by index. Any index of a
page that is there may be given, whether it holds a record, never did, or does no longer. Such calls
are always answered, and what each does to the flags and the bytes of all indices depends on nothing
else.

## Main definitions

* `SlabCall`, `SlabCall.perform` – the calls and their answers.
* `SlabCall.Proper` – the calls that stay within the pages.
* `SlabCall.Does` – what a call does.

## Main statements

* `Slab.Sound.perform` – a proper call is answered and does what it should.
* `Slab.Sound.does` – so does any call that was answered.
-/

namespace RecordArena

/-- One call of a slab. -/
inductive SlabCall where
  | create
  /-- Replaces the front of the record at an index; a view that was changed anywhere is written back
  as a whole. -/
  | write (index : UInt32) (src : Bytes)
  | free (index : UInt32)
  | read (index : UInt32)
  deriving DecidableEq

inductive SlabAnswer where
  | created (created : Created)
  | done
  | record (bytes : Bytes)
  deriving DecidableEq

namespace SlabCall

def perform (s : Slab) : SlabCall → Except Failure (SlabAnswer × Slab)
  | create => do
    let (created, s) ← s.create.outcome
    pure (.created created, s)
  | write index src => do pure (.done, ← s.write index src)
  | free index => do pure (.done, ← (s.free index).outcome)
  | read index => do pure (.record (← s.record index), s)

/-- The slab after calls that are all answered. -/
def performAll (s : Slab) : List SlabCall → Except Failure Slab
  | [] => pure s
  | call :: calls => do
    let (_, s) ← call.perform s
    performAll s calls

/-- Calls that name an index of a page, and write no more than a record. -/
def Proper (s : Slab) : SlabCall → Prop
  | create => True
  | write index src => s.HasPage index ∧ src.size ≤ s.layout.size
  | free index => s.HasPage index
  | read index => s.HasPage index

/-- What an answered call does to a slab. Freeing an index without a record does nothing. -/
inductive Does (s : Slab) : SlabCall → SlabAnswer → Slab → Prop where
  | create {s' : Slab} (h : s.Creates s') : Does s .create (.created s.upcoming) s'
  | write {s' : Slab} {index : UInt32} {src : Bytes} (h : s.Writes index src s') :
    Does s (.write index src) .done s'
  | free {s' : Slab} {index : UInt32} (hlive : s.Live index) (h : s.Frees index s') :
    Does s (.free index) .done s'
  | vain {index : UInt32} (hvacant : ¬ s.Live index) : Does s (.free index) .done s
  | read {index : UInt32} : Does s (.read index) (.record (s.bytesOf index)) s

variable {s s' : Slab} {call : SlabCall} {answer : SlabAnswer}

/-- A call that was answered was proper. -/
theorem proper_of_perform (hs : s.Shaped) (h : call.perform s = .ok (answer, s')) :
    call.Proper s := by
  cases call with
  | create => trivial
  | write index src =>
    obtain ⟨s₁, hwrite, -⟩ := bind_eq_ok h
    obtain ⟨t, hwrite, -⟩ := bind_eq_ok (mapError_eq_ok hwrite)
    obtain ⟨hp, -, hsrc⟩ := hs.pages.of_write hwrite
    exact ⟨decide_eq_true hp, hsrc.trans_eq hs.recordSize_eq⟩
  | free index =>
    obtain ⟨s₁, hfree, -⟩ := bind_eq_ok h
    obtain ⟨vacated, hvacate, -⟩ := Traced.outcome_bind_eq_ok hfree
    exact decide_eq_true (hs.pages.of_vacate (Traced.outcome_liftFault_eq_ok hvacate)).1
  | read index =>
    obtain ⟨record, hread, -⟩ := bind_eq_ok h
    obtain ⟨page, hpage, -⟩ := bind_eq_ok (mapError_eq_ok hread)
    exact decide_eq_true
      (Array.getElem?_eq_some_iff.mp (PageTable.getElem?_of_page hpage)).1

theorem perform_extends (h : call.perform s = .ok (answer, s')) : s.Extends s' := by
  cases call with
  | create =>
    obtain ⟨⟨created, s₁⟩, hcreate, h⟩ := bind_eq_ok h
    cases h
    exact Slab.create_extends hcreate
  | write index src =>
    obtain ⟨s₁, hwrite, h⟩ := bind_eq_ok h
    cases h
    exact Slab.writeAt_extends (mapError_eq_ok hwrite)
  | free index =>
    obtain ⟨s₁, hfree, h⟩ := bind_eq_ok h
    cases h
    exact Slab.free_extends hfree
  | read index =>
    obtain ⟨record, -, h⟩ := bind_eq_ok h
    cases h
    exact .refl s

theorem performAll_extends {calls : List SlabCall} (h : performAll s calls = .ok s') :
    s.Extends s' := by
  induction calls generalizing s with
  | nil =>
    cases h
    exact .refl _
  | cons call calls ih =>
    obtain ⟨⟨answer, s₁⟩, hcall, hrest⟩ := bind_eq_ok h
    exact (perform_extends hcall).trans (ih hrest)

theorem Does.sound (h : call.Does s answer s') (hs : s.Sound) : s'.Sound := by
  cases h with
  | create h => exact h.sound
  | write h => exact h.sound
  | free _ h => exact h.sound
  | vain _ => exact hs
  | read => exact hs

/-- A slab that counts its live indices does so after a call. -/
theorem Does.live_eq_ncard (h : call.Does s answer s')
    (hlive : s.live = {index | s.Live index}.ncard) :
    s'.live = {index | s'.Live index}.ncard := by
  cases h with
  | create h =>
    have hset : {index | s'.Live index} = insert s.upcoming.index {index | s.Live index} :=
      Set.ext h.live_iff
    have hfresh : s.upcoming.index ∉ {index | s.Live index} := h.fresh
    rw [hset, Set.ncard_insert_of_notMem hfresh, h.live_eq, hlive]
  | write h =>
    have hset : {index | s'.Live index} = {index | s.Live index} := Set.ext h.live_iff
    rw [hset, h.live_eq, hlive]
  | @free _ index hmem h =>
    have hset : {index | s'.Live index} = {index | s.Live index} \ {index} :=
      Set.ext fun i => (h.live_iff i).trans and_comm
    have hmem : index ∈ {index | s.Live index} := hmem
    rw [hset, Set.ncard_sdiff_singleton_of_mem hmem, h.live_eq, hlive]
  | vain _ => exact hlive
  | read => exact hlive

end SlabCall

namespace Slab

variable {s s' : Slab} {call : SlabCall} {answer : SlabAnswer} {index : UInt32}

/-- Pages are never taken away, so places that have indices in the end have had them all along. -/
theorem Extends.fits (h : s.Extends s') (hfits : s'.pageCount * s'.pageCapacity ≤ 2 ^ 32) :
    s.pageCount * s.pageCapacity ≤ 2 ^ 32 := by
  refine le_trans (Nat.mul_le_mul h.pages.size_le (Nat.le_of_eq ?_)) hfits
  rw [pageCapacity, pageCapacity, h.addressing_eq]

namespace Sound

/-- Freeing an index without a record does nothing. -/
theorem free_vacant (h : s.Sound) (hpage : s.HasPage index) (hvacant : ¬ s.Live index) :
    (s.free index).outcome = .ok s := by
  have hvacate : s.pages.vacate (s.place index) = .ok (none, s.pages) := by
    rw [PageTable.vacate, h.pages.isOccupied_eq (Shaped.page_lt hpage) (h.slot_lt index)]
    simp [Bool.eq_false_of_not_eq_true hvacant]
  simp [Slab.free, hvacate]

/-- A call within the pages is answered. As long as all places have indices, it does what it
should. -/
theorem perform (h : s.Sound) (hcall : call.Proper s) :
    ∃ answer s', call.perform s = .ok (answer, s') ∧
      (s'.pageCount * s'.pageCapacity ≤ 2 ^ 32 → call.Does s answer s') := by
  cases call with
  | create =>
    obtain ⟨s', hrun, hcreates⟩ := h.create
    exact ⟨_, s', by rw [SlabCall.perform, hrun]; rfl, fun hfits => .create (hcreates hfits)⟩
  | write index src =>
    obtain ⟨s', hrun, hwrites⟩ := h.write hcall.1 hcall.2
    exact ⟨_, s', by rw [SlabCall.perform, hrun]; rfl, fun _ => .write hwrites⟩
  | free index =>
    by_cases hlive : s.Live index
    · obtain ⟨s', hrun, hfrees⟩ := h.free hlive
      exact ⟨_, s', by rw [SlabCall.perform, hrun]; rfl, fun _ => .free hlive hfrees⟩
    · exact ⟨_, s, by rw [SlabCall.perform, h.free_vacant hcall hlive]; rfl,
        fun _ => .vain hlive⟩
  | read index =>
    exact ⟨_, s, by rw [SlabCall.perform, h.record_bytesOf hcall]; rfl, fun _ => .read⟩

theorem does (h : s.Sound) (hrun : call.perform s = .ok (answer, s'))
    (hfits : s'.pageCount * s'.pageCapacity ≤ 2 ^ 32) : call.Does s answer s' := by
  obtain ⟨answer', s₁, hrun', hdoes⟩ := h.perform (call.proper_of_perform h.toShaped hrun)
  cases hrun.symm.trans hrun'
  exact hdoes hfits

/-- Any number of answered calls leaves a sound slab. -/
theorem performAll {calls : List SlabCall} (h : s.Sound)
    (hrun : SlabCall.performAll s calls = .ok s')
    (hfits : s'.pageCount * s'.pageCapacity ≤ 2 ^ 32) : s'.Sound := by
  induction calls generalizing s with
  | nil =>
    cases hrun
    exact h
  | cons call calls ih =>
    obtain ⟨⟨answer, s₁⟩, hcall, hrest⟩ := bind_eq_ok hrun
    have hfits₁ := (SlabCall.performAll_extends hrest).fits hfits
    exact ih ((h.does hcall hfits₁).sound h) hrest

/-- A change of a slab is a call that was answered: every place that is written has an index. -/
theorem exists_call (h : s.Sound) (hstep : s.Step s') :
    ∃ call answer, SlabCall.perform s call = .ok (answer, s') := by
  cases hstep with
  | create hrun => exact ⟨.create, _, by rw [SlabCall.perform, hrun]; rfl⟩
  | write place src hrun =>
    obtain ⟨t, hwrite, -⟩ := bind_eq_ok hrun
    obtain ⟨hp, hslot, -⟩ := h.pages.of_write hwrite
    refine ⟨.write (s.addressing.encode place) src, .done, ?_⟩
    rw [SlabCall.perform, Slab.write, h.place_encode hp hslot, hrun]
    rfl
  | free index hrun => exact ⟨.free index, .done, by rw [SlabCall.perform, hrun]; rfl⟩

end Sound

end Slab

end RecordArena
