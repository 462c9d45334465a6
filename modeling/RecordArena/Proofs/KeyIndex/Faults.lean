import RecordArena.Proofs.InPlace.Slab
import RecordArena.Proofs.InPlace.Table
import RecordArena.Proofs.KeyIndex.Stale
import RecordArena.Proofs.Slab.Counts

/-!
# Faults of slabs and key indexes

The only fault that a slab meets at an index, and a key index with it, is that the page of the
index is missing. It is met before anything is written. An index of a page that is there is served
whatever its record has been through, because no page goes away and every slot that an index names
lies inside its page; a key index names such pages only, so a call that names no index meets no
fault at all.

## Main definitions

* `KeyIndex.FaultsAt`, `KeyIndex.ServesAt` – what an index of no page meets, and one of a page.
* `Slab.InBounds` – the ranges of a slab lie inside their blocks.

## Main statements

* `Slab.Shaped.free_isOk` – a record of a page that is there can be ended.
* `KeyIndex.Reaches.faults_only_without_page` – after any calls and any slab operations, the calls
  that fault are the ones that name a missing page.
-/

namespace RecordArena

namespace Slab

variable {s : Slab} {index : UInt32}

/-- The fault of an index whose page is missing. -/
def pageFault (s : Slab) (index : UInt32) : Fault := .missingPage (s.place index).page

/-- Flags, records and keys lie inside what holds them. -/
structure InBounds (s : Slab) : Prop where
  slot_lt (index : UInt32) : (s.place index).slot < s.pageCapacity
  flag_lt (page : Page) (slot : Nat) : page ∈ s.pages.pages → slot < s.pageCapacity →
    page.rows.flagPosition slot < page.rows.block.size
  record_le (page : Page) (slot : Nat) : page ∈ s.pages.pages → slot < s.pageCapacity →
    page.rows.payloadPosition slot + s.layout.size ≤ page.rows.block.size
  key_le : s.layout.keyOffset + s.layout.keyLen ≤ s.layout.size

theorem Shaped.inBounds (hs : s.Shaped) : s.InBounds where
  slot_lt index := by
    rw [hs.pageCapacity_eq]
    exact hs.slot_lt index
  flag_lt page slot hpage hslot := by
    obtain ⟨hcount, -⟩ := hs.pages page hpage
    rw [hs.pageCapacity_eq, ← hcount] at hslot
    exact Rows.flagPosition_add_lt hslot page.rows.stride_pos
  record_le page slot hpage hslot := by
    obtain ⟨hcount, hwidth⟩ := hs.pages page hpage
    rw [hs.pageCapacity_eq, ← hcount] at hslot
    have hlast := Rows.flagPosition_add_lt hslot (Nat.lt_succ_self page.rows.width)
    rw [hwidth, hs.recordSize_eq] at hlast
    rw [Rows.payloadPosition]
    omega
  key_le := (RecordLayout.validate_eq_ok.mp hs.valid).2.2.2

theorem page_eq_error (h : s.pageCount ≤ (s.place index).page.toNat) :
    s.pages.page (s.place index).page = .error (s.pageFault index) :=
  dif_neg (Nat.not_lt.mpr h)

theorem record_eq_error (h : s.pageCount ≤ (s.place index).page.toNat) :
    s.record index = .error (s.pageFault index) := by
  rw [record, recordAt, PageTable.record, page_eq_error h]
  rfl

theorem write_eq_error (h : s.pageCount ≤ (s.place index).page.toNat) (src : Bytes) :
    s.write index src = .error (s.pageFault index) := by
  rw [write, writeAt, PageTable.write, page_eq_error h]
  rfl

theorem vacate_eq_error (h : s.pageCount ≤ (s.place index).page.toNat) :
    s.pages.vacate (s.place index) = .error (s.pageFault index) := by
  rw [PageTable.vacate, PageTable.isOccupied, page_eq_error h]
  rfl

theorem keyHash_eq_error (h : s.pageCount ≤ (s.place index).page.toNat) :
    s.keyHash index = .error (s.pageFault index) := by
  rw [keyHash, record_eq_error h]
  rfl

/-- Ending a record needs its page alone. -/
theorem Shaped.free_isOk (hs : s.Shaped) (hpage : s.HasPage index) :
    ∃ s', (s.free index).outcome = .ok s' := by
  have hp := page_lt hpage
  have hflag := hs.pages.isOccupied_eq hp (hs.slot_lt index)
  cases hocc : s.pages.occupiedAt (s.place index) with
  | false =>
    have hvacate : s.pages.vacate (s.place index) = .ok (none, s.pages) := by
      rw [PageTable.vacate, hflag, hocc]
      rfl
    rw [free, hvacate]
    exact ⟨_, rfl⟩
  | true =>
    let t := s.pages.withPage (s.place index).page (·.vacate (s.place index).slot)
    have hp' : (s.place index).page.toNat < t.pages.size := by
      rwa [PageTable.size_withPage]
    obtain ⟨left, hleft⟩ : ∃ left, t.page (s.place index).page = .ok left :=
      ⟨_, PageTable.page_eq (Array.getElem?_eq_getElem hp')⟩
    have hvacate : s.pages.vacate (s.place index) = .ok (some left.live, t) := by
      rw [PageTable.vacate, hflag, hocc, ok_bind, if_pos rfl, PageTable.modify_eq hp, ok_bind,
        hleft]
      rfl
    rw [free, hvacate, Traced.liftFault_ok_bind]
    dsimp only
    split
    · rw [Traced.outcome_bind, PageTable.release_eq hp']
      exact ⟨_, rfl⟩
    · exact ⟨_, rfl⟩

end Slab

/-- The index whose record a call of a key index reads. -/
def IndexCall.read? : IndexCall → Option UInt32
  | insert index => some index
  | removeIndex index => some index
  | _ => none

namespace KeyIndex

open InPlace (Answered Faulted)

/-- At the index every call meets the fault that its page is missing, and changes nothing. -/
structure FaultsAt (s : Slab) (x : KeyIndex) (index : UInt32) : Prop where
  record : s.record index = .error (s.pageFault index)
  keyHash : s.keyHash index = .error (s.pageFault index)
  hasKey (key : Bytes) : s.hasKey index key = .error (s.pageFault index)
  write (src : Bytes) : Faulted (InPlace.writeRecord index src)
    (Prod.mk () <$> liftM (s.write index src)) (s.pageFault index) s
  free : Faulted (InPlace.free index) (Prod.mk () <$> s.free index) (s.pageFault index) s
  insert : Faulted (InPlace.insert s index) (Prod.mk () <$> x.insert s index) (s.pageFault index) x
  removeIndex : Faulted (InPlace.removeIndex s index) (liftM (x.removeIndex s index))
    (s.pageFault index) x

/-- At the index every call is answered, as long as what is written fits a record, and what is
inserted is no vacancy mark and can be counted. The counts that ending a live record lowers are not
zero. -/
structure ServesAt (s : Slab) (x : KeyIndex) (index : UInt32) : Prop where
  record : ∃ record, s.record index = .ok record ∧ record.size = s.layout.size
  keyHash : ∃ hash, s.keyHash index = .ok hash
  hasKey (key : Bytes) : ∃ same, s.hasKey index key = .ok same
  write (src : Bytes) : src.size ≤ s.layout.size → Answered (InPlace.writeRecord index src)
    (Prod.mk () <$> liftM (s.write index src)) s
  free : Answered (InPlace.free index) (Prod.mk () <$> s.free index) s
  counted : s.isLive index = .ok true →
    ∃ page, s.pages.page (s.place index).page = .ok page ∧ 0 < page.live ∧ page.live ≤ s.live
  insert : index ≠ Cells.vacantMark → x.len < Numeric.maxCount →
    Answered (InPlace.insert s index) (Prod.mk () <$> x.insert s index) x
  removeIndex : Answered (InPlace.removeIndex s index) (liftM (x.removeIndex s index)) x

variable {s : Slab} {x : KeyIndex} {index : UInt32}

theorem faultsAt (h : s.pageCount ≤ (s.place index).page.toNat) : FaultsAt s x index where
  record := Slab.record_eq_error h
  keyHash := Slab.keyHash_eq_error h
  hasKey key := by
    rw [Slab.hasKey, Slab.record_eq_error h]
    rfl
  write src := by
    refine ⟨by rw [Slab.write_eq_error h]; rfl, ?_⟩
    rw [InPlace.writeRecord, InPlace.look_bind, Slab.write_eq_error h]
    rfl
  free := by
    refine ⟨by rw [Slab.free, Slab.vacate_eq_error h]; rfl, ?_⟩
    rw [InPlace.free, InPlace.look_bind, Slab.vacate_eq_error h]
    rfl
  insert := by
    refine ⟨by rw [KeyIndex.insert, Slab.keyHash_eq_error h]; rfl, ?_⟩
    rw [InPlace.insert, InPlace.look_bind, Slab.keyHash_eq_error h]
    rfl
  removeIndex := by
    refine ⟨by rw [KeyIndex.removeIndex, Slab.keyHash_eq_error h]; rfl, ?_⟩
    rw [InPlace.removeIndex, InPlace.look_bind, Slab.keyHash_eq_error h]
    rfl

theorem Backed.servesAt (h : Backed s x) (hcounts : s.pages.Counts s.live)
    (hpage : s.HasPage index) : ServesAt s x index where
  record := h.shaped.record_eq hpage
  keyHash := ⟨_, h.shaped.keyHash_eq hpage⟩
  hasKey key := ⟨_, h.shaped.hasKey_eq hpage key⟩
  write src hsrc := by
    obtain ⟨s', hwrite⟩ := h.shaped.write_isOk hpage hsrc
    exact ⟨InPlace.writeRecord_performs index src s, (), s', by rw [hwrite]; rfl⟩
  free := by
    obtain ⟨s', hfree⟩ := h.shaped.free_isOk hpage
    exact ⟨InPlace.free_performs index s, (), s', by rw [Traced.outcome_map, hfree]; rfl⟩
  counted := Slab.counts_pos hcounts
  insert hmark hlen := by
    obtain ⟨x', hrun, -⟩ := h.insert hpage hmark hlen
    exact ⟨InPlace.insert_performs s index x, (), x', by rw [Traced.outcome_map, hrun]; rfl⟩
  removeIndex := by
    obtain ⟨removed, x', hrun, -⟩ := h.removeIndexHashed index (s.layout.hashKey (s.keyAt index))
    refine ⟨InPlace.removeIndex_performs s index x, removed, x', ?_⟩
    rw [KeyIndex.removeIndex, h.shaped.keyHash_eq hpage, ok_bind, hrun]
    rfl

namespace Reaches

variable {config : TableConfig}

theorem counts (h : Reaches config s x) : s.pages.Counts s.live := by
  induction h with
  | new hs hx => exact Slab.new_counts hs
  | slab h hstep ih => exact hstep.counts h.backed.1.shaped ih
  | call h hcall hrun ih => exact ih

/-- After any calls and any slab operations, an index whose page is missing faults and nothing is
changed, and an index whose page is there is served. Whether an index is live is always answered,
and so is every call of the key index that reads the record of no index. -/
theorem faults_only_without_page (h : Reaches config s x) :
    s.InBounds ∧ x.len = x.indices.length ∧
    (∀ index, if s.pageCount ≤ (s.place index).page.toNat then FaultsAt s x index
      else ServesAt s x index) ∧
    (∀ index, ∃ live, s.isLive index = .ok live) ∧
    ∀ call : IndexCall, call.read? = none →
      ∃ answer x', call.perform x s = .ok (answer, x') := by
  obtain ⟨hbacked, -⟩ := h.backed
  refine ⟨hbacked.shaped.inBounds, hbacked.tallied.count_eq, fun index => ?_,
    fun index => ⟨_, hbacked.shaped.isLive_eq⟩, fun call hread => ?_⟩
  · split
    · next hmissing => exact faultsAt hmissing
    · next hpage =>
      exact hbacked.servesAt h.counts (decide_eq_true (Nat.lt_of_not_le hpage))
  · have hcall : call.Admissible s x := by
      cases call with
      | insert index => cases hread
      | removeIndex index => cases hread
      | _ => trivial
    obtain ⟨answer, x', hrun, -⟩ := hbacked.perform hcall
    exact ⟨answer, x', hrun⟩

/-- Two records of one key are registered, one is written over and both are freed, so that their
page waits to be filled again. Their indices are still served; an index of the third page, which is
missing, faults. -/
theorem faults_only_without_page_queued :
    ∃ s x, Reaches {} s x ∧ s.freePageCount = 1 ∧ x.indices.Perm [1, 0] ∧ x.len = 2 ∧
      ServesAt s x 0 ∧ ServesAt s x 1 ∧ FaultsAt s x 4 ∧
      ∃ answer x', IndexCall.perform x s (.removeIndexAs 4 (Bytes.zeros 8)) = .ok (answer, x') := by
  obtain ⟨s₀, s₁, s₂, s₃, s₄, s, x₀, hs, hcreate₀, hcreate₁, hwrite, hfree₀, hfree₁, hx, hempty,
      hpage₀, hpage₁, hplaces, hcount, hwaiting⟩ : ∃ s₀ s₁ s₂ s₃ s₄ s x₀,
        (Slab.new { size := 8 } { pageSize := 2, initialPages := 1 } .heap).outcome = .ok s₀ ∧
        s₀.create.outcome = .ok (⟨0, ⟨0, 0⟩⟩, s₁) ∧ s₁.create.outcome = .ok (⟨1, ⟨0, 1⟩⟩, s₂) ∧
        s₂.writeAt ⟨0, 0⟩ #[7, 7] = .ok s₃ ∧ (s₃.free 0).outcome = .ok s₄ ∧
        (s₄.free 1).outcome = .ok s ∧ KeyIndex.new {} = .ok x₀ ∧ x₀.indices = [] ∧
        s₂.HasPage 0 ∧ s₂.HasPage 1 ∧
        ((s.place 0).page = 0 ∧ (s.place 1).page = 0 ∧ (s.place 4).page = 2) ∧
        s.pageCount = 2 ∧ s.freePageCount = 1 :=
    ⟨_, _, _, _, _, _, _, rfl, rfl, rfl, rfl, rfl, rfl, rfl, rfl, rfl, rfl, ⟨rfl, rfl, rfl⟩, rfl,
      rfl⟩
  have h₀ : Reaches {} s₂ x₀ := ((new hs hx).slab (.create hcreate₀)).slab (.create hcreate₁)
  obtain ⟨x₁, -, h₁, hone⟩ :=
    h₀.register hpage₀ (by decide) (by rw [hempty]; decide) (by rw [hempty]; exact List.not_mem_nil)
  rw [hempty, List.perm_singleton] at hone
  obtain ⟨x, -, h₂, htwo⟩ :=
    h₁.register hpage₁ (by decide) (by rw [hone]; decide) (by rw [hone]; decide)
  rw [hone] at htwo
  have h : Reaches {} s x :=
    ((h₂.slab (.write _ _ hwrite)).slab (.free 0 hfree₀)).slab (.free 1 hfree₁)
  obtain ⟨-, hlen, hindices, -, hcalls⟩ := faults_only_without_page h
  have hserves₀ := hindices 0
  have hserves₁ := hindices 1
  have hfaults := hindices 4
  rw [hcount, hplaces.1, if_neg (by decide)] at hserves₀
  rw [hcount, hplaces.2.1, if_neg (by decide)] at hserves₁
  rw [hcount, hplaces.2.2, if_pos (by decide)] at hfaults
  exact ⟨s, x, h, hwaiting, htwo, hlen.trans htwo.length_eq, hserves₀, hserves₁, hfaults,
    hcalls _ rfl⟩

end Reaches

end KeyIndex

end RecordArena
