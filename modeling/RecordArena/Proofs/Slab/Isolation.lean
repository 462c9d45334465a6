import Mathlib.Data.Set.Card
import Mathlib.Order.CompletePartialOrder
import RecordArena.Proofs.Slab.Calls

/-!
# Isolation of records

The memory of a slab is the bytes of its pages. An index stands for the bytes of one record: two
indices share no byte, and none of these bytes is the flag of a slot. From the call that creates a
record to the call that frees it, the record stays live and its bytes change through its own index
only, while pages are queued, zeroed, filled again and allocated around it, and indices without a
record are written and freed.

## Main definitions

* `ByteAddress`, `Slab.byteAt`, `Slab.footprint` – the bytes of a slab, and those of an index.
* `Slab.Separated` – indices do not share bytes, with one another or with flags.
* `SlabCall.writeTo` – what a call writes to the record at an index.

## Main statements

* `Slab.Shaped.separated` – the bytes of indices are apart.
* `SlabCall.Does.keeps`, `Slab.Sound.keeps` – a live record is kept by a call, and by any calls.
* `Slab.create_isolated` – both, for a record that is created after any run.
-/

namespace RecordArena

/-- A byte of a slab: a position in the block of a page. -/
structure ByteAddress where
  page : UInt32
  position : Nat
  deriving DecidableEq, Repr

namespace SlabCall

/-- The bytes of the record at an index after a call that keeps the record. -/
def writeTo (index : UInt32) (bytes : Bytes) : SlabCall → Bytes
  | write i src => if i = index then bytes.overwrite 0 src.toList else bytes
  | _ => bytes

end SlabCall

namespace Slab

def byteAt (s : Slab) (a : ByteAddress) : Option UInt8 :=
  s.pages.pages[a.page.toNat]?.bind fun page => page.rows.block[a.position]?

def flagAddress (s : Slab) (place : Place) : ByteAddress :=
  ⟨place.page, place.slot * (s.layout.size + 1)⟩

/-- The address of byte `k` of the record at a place. -/
def recordAddress (s : Slab) (place : Place) (k : Nat) : ByteAddress :=
  ⟨place.page, place.slot * (s.layout.size + 1) + (k + 1)⟩

/-- The bytes that an index stands for. -/
def footprint (s : Slab) (index : UInt32) : Set ByteAddress :=
  {a | ∃ k < s.layout.size, a = s.recordAddress (s.place index) k}

/-- Every index of a page reads the bytes it stands for and a flag of its own, and writes no other
bytes; no two indices stand for the same byte, and none for a flag. -/
structure Separated (s : Slab) : Prop where
  record_eq : ∀ index, s.HasPage index → ∃ bytes, s.record index = .ok bytes ∧
    bytes.size = s.layout.size ∧
    ∀ k < s.layout.size, s.byteAt (s.recordAddress (s.place index) k) = bytes[k]?
  isLive_eq : ∀ index, s.HasPage index → ∃ flag,
    s.byteAt (s.flagAddress (s.place index)) = some flag ∧ s.isLive index = .ok (flag != 0)
  write_eq : ∀ index src s', s.write index src = .ok s' →
    ∀ a ∉ s.footprint index, s'.byteAt a = s.byteAt a
  disjoint : ∀ index index', index ≠ index' →
    Disjoint (s.footprint index) (s.footprint index')
  flag_notMem : ∀ place index, s.flagAddress place ∉ s.footprint index

variable {s s' : Slab} {index : UInt32}

/-- Positions in rows of one width differ when the rows do. -/
theorem position_inj {width i j k l : Nat} (hk : k ≤ width) (hl : l ≤ width)
    (h : i * (width + 1) + k = j * (width + 1) + l) : i = j ∧ k = l := by
  have hrows : (Rows.vacant 0 width).flagPosition i + k =
      (Rows.vacant 0 width).flagPosition j + l := h
  exact Rows.flagPosition_add_inj (Nat.lt_succ_of_le hk) (Nat.lt_succ_of_le hl) hrows

namespace Shaped

theorem byteAt_eq (hs : s.Shaped) {page : Page} {place : Place}
    (hpage : s.pages.pages[place.page.toNat]? = some page) (k : Nat) :
    s.byteAt ⟨place.page, place.slot * (s.layout.size + 1) + k⟩ =
      page.rows.block[page.rows.flagPosition place.slot + k]? := by
  have hwidth := (hs.pages.rows_eq hpage).2
  rw [byteAt, hpage, Rows.flagPosition, Rows.stride, hwidth, hs.recordSize_eq]
  rfl

/-- The page of an index, and where the index is in it. -/
theorem exists_page (hs : s.Shaped) (hindex : s.HasPage index) :
    ∃ page, s.pages.pages[(s.place index).page.toNat]? = some page ∧
      (s.place index).slot < page.rows.count ∧ page.rows.width = s.layout.size := by
  have hpage := Array.getElem?_eq_getElem (page_lt hindex)
  obtain ⟨hcount, hwidth⟩ := hs.pages.rows_eq hpage
  exact ⟨_, hpage, hcount ▸ hs.slot_lt index, hwidth.trans hs.recordSize_eq⟩

/-- A write changes no byte but those of its index. -/
theorem byteAt_write (hs : s.Shaped) {src : Bytes} (hwrite : s.write index src = .ok s')
    {a : ByteAddress} (ha : a ∉ s.footprint index) : s'.byteAt a = s.byteAt a := by
  obtain ⟨t, hwrite', hdone⟩ := bind_eq_ok hwrite
  cases hdone
  obtain ⟨hp, hslot, hsrc⟩ := hs.pages.of_write hwrite'
  cases hwrite'.symm.trans (hs.pages.write_eq hp hslot hsrc)
  obtain ⟨page, hpage, -, hwidth⟩ := hs.exists_page (decide_eq_true hp)
  obtain ⟨p, position⟩ := a
  rw [byteAt, byteAt, PageTable.getElem?_withPage]
  by_cases heq : (s.place index).page = p
  · subst heq
    rw [if_pos rfl, hpage]
    change (page.rows.setPayload (s.place index).slot src).block[position]? =
      page.rows.block[position]?
    rw [Rows.setPayload, Bytes.getElem?_overwrite, if_neg]
    rintro ⟨hge, hlt, -⟩
    -- the position would be one that the index stands for
    obtain ⟨k, rfl⟩ := Nat.exists_eq_add_of_le hge
    rw [Nat.add_lt_add_iff_left, List.length_take, hwidth] at hlt
    refine ha ⟨k, hlt.trans_le (Nat.min_le_left _ _), ?_⟩
    rw [recordAddress, Rows.payloadPosition, Rows.flagPosition, Rows.stride, hwidth,
      Nat.add_assoc, Nat.add_comm 1 k]
  · rw [if_neg fun h => heq (UInt32.toNat_inj.mp h)]

theorem separated (hs : s.Shaped) : s.Separated where
  record_eq := by
    intro index hindex
    refine ⟨s.bytesOf index, hs.record_bytesOf hindex, hs.size_bytesOf hindex, fun k hk => ?_⟩
    obtain ⟨page, hpage, hslot, hwidth⟩ := hs.exists_page hindex
    rw [recordAddress, hs.byteAt_eq hpage, bytesOf, PageTable.bytesAt, hpage,
      Rows.getElem?_payload hslot, if_pos (hwidth ▸ hk)]
  isLive_eq := by
    intro index hindex
    obtain ⟨page, hpage, hslot, -⟩ := hs.exists_page hindex
    obtain ⟨flag, hflag⟩ : ∃ flag,
        page.rows.block[page.rows.flagPosition (s.place index).slot]? = some flag :=
      ⟨_, Array.getElem?_eq_getElem (Rows.flagPosition_add_lt hslot page.rows.stride_pos)⟩
    refine ⟨flag, (hs.byteAt_eq hpage 0).trans hflag, ?_⟩
    rw [hs.isLive_eq, PageTable.occupiedAt, hpage]
    simp [Rows.isOccupied, Array.getD_eq_getD_getElem?, hflag]
  write_eq := fun _ _ _ hwrite _ ha => hs.byteAt_write hwrite ha
  disjoint := by
    intro index index' hne
    rw [Set.disjoint_left]
    rintro a ⟨k, hk, rfl⟩ ⟨l, hl, heq⟩
    have hpage : (s.place index).page = (s.place index').page := congrArg ByteAddress.page heq
    obtain ⟨hslot, -⟩ := position_inj (Nat.succ_le_of_lt hk) (Nat.succ_le_of_lt hl)
      (congrArg ByteAddress.position heq)
    exact hne (hs.place_inj.mp (Place.eq_of_toNat_eq (congrArg UInt32.toNat hpage) hslot))
  flag_notMem := by
    rintro place index ⟨k, hk, heq⟩
    obtain ⟨-, hzero⟩ := position_inj (Nat.zero_le _) (Nat.succ_le_of_lt hk)
      (congrArg ByteAddress.position heq)
    exact Nat.succ_ne_zero k hzero.symm

end Shaped

end Slab

/-- A call that does not free a live record keeps it, and changes its bytes only by writing to its
index. -/
theorem SlabCall.Does.keeps {s s' : Slab} {call : SlabCall} {answer : SlabAnswer} {index : UInt32}
    (h : call.Does s answer s') (hlive : s.Live index) (hne : call ≠ .free index) :
    s'.Live index ∧ s'.bytesOf index = call.writeTo index (s.bytesOf index) := by
  cases h with
  | create h =>
    have hlive' := (h.live_iff index).mpr (.inr hlive)
    exact ⟨hlive', h.bytes_eq index hlive'⟩
  | @write _ i src h =>
    refine ⟨(h.live_iff index).mpr hlive, (h.bytes_eq index).trans ?_⟩
    rw [SlabCall.writeTo]
    simp only [eq_comm]
  | free _ h =>
    have hlive' := (h.live_iff index).mpr ⟨fun heq => hne (heq ▸ rfl), hlive⟩
    exact ⟨hlive', h.bytes_eq index hlive'⟩
  | vain _ => exact ⟨hlive, rfl⟩
  | read => exact ⟨hlive, rfl⟩

namespace Slab

variable {s s' : Slab} {index : UInt32}

/-- Calls that do not free a live record keep it. -/
theorem Sound.keeps {calls : List SlabCall} (h : s.Sound)
    (hrun : SlabCall.performAll s calls = .ok s')
    (hfits : s'.pageCount * s'.pageCapacity ≤ 2 ^ 32) (hlive : s.Live index)
    (hkept : .free index ∉ calls) :
    s'.Live index ∧
      s'.bytesOf index = calls.foldl (SlabCall.writeTo index) (s.bytesOf index) := by
  induction calls generalizing s with
  | nil =>
    cases hrun
    exact ⟨hlive, rfl⟩
  | cons call calls ih =>
    obtain ⟨⟨answer, s₁⟩, hcall, hrest⟩ := bind_eq_ok hrun
    rw [List.mem_cons, not_or] at hkept
    have hdoes := h.does hcall ((SlabCall.performAll_extends hrest).fits hfits)
    obtain ⟨hlive₁, hbytes⟩ := hdoes.keeps hlive fun heq => hkept.1 heq.symm
    rw [List.foldl_cons, ← hbytes]
    exact ih (hdoes.sound h) hrest hlive₁ hkept.2

/-- A record is isolated from all others. After any calls of a fresh slab, the next record is
created at an index that was not live. As long as all places have indices, that index stands for
the bytes of the view that came with the record, which no other index stands for and none of which
is a flag. Until the record is freed it is live, and its bytes are what was written to its index
since; calls within the pages are always answered. -/
theorem create_isolated {layout : RecordLayout} {config : SlabConfig} {backing : Backing}
    {s₀ : Slab} {calls : List SlabCall} (h : (new layout config backing).outcome = .ok s₀)
    (hrun : SlabCall.performAll s₀ calls = .ok s)
    (hfits : s.pageCount * s.pageCapacity ≤ 2 ^ 32) :
    s.Separated ∧
    (∀ call : SlabCall, call.Proper s → ∃ answer s', call.perform s = .ok (answer, s')) ∧
    ∃ created s₁, s.create.outcome = .ok (created, s₁) ∧
      (s₁.pageCount * s₁.pageCapacity ≤ 2 ^ 32 →
        s.isLive created.index = .ok false ∧ s₁.isLive created.index = .ok true ∧
        ∃ view, s₁.recordAt created.place = .ok view ∧
          ∀ calls' s₂, SlabCall.performAll s₁ calls' = .ok s₂ →
            s₂.pageCount * s₂.pageCapacity ≤ 2 ^ 32 →
            s₂.record created.index = s₂.recordAt created.place ∧
            (∀ src, s₂.write created.index src = s₂.writeAt created.place src) ∧
            (.free created.index ∉ calls' → s₂.isLive created.index = .ok true ∧
              s₂.record created.index =
                .ok (calls'.foldl (SlabCall.writeTo created.index) view))) := by
  have hle := (SlabCall.performAll_extends hrun).fits hfits
  have hsound := (Sound.new h hle).1.performAll hrun hfits
  obtain ⟨s₁, hcreate, hcreates⟩ := hsound.create
  refine ⟨hsound.toShaped.separated, fun call hcall => ?_, s.upcoming, s₁, hcreate,
    fun hfits₁ => ?_⟩
  · obtain ⟨answer, s', hperform, -⟩ := hsound.perform hcall
    exact ⟨answer, s', hperform⟩
  have hc := hcreates hfits₁
  have hlive₁ : s₁.Live s.upcoming.index := (hc.live_iff _).mpr (.inl rfl)
  have hplace₁ : s₁.place s.upcoming.index = s.upcoming.place :=
    (hc.kept.place_eq _).trans hc.place_eq
  refine ⟨?_, ?_, s₁.bytesOf s.upcoming.index, ?_, fun calls' s₂ hrun' hfits₂ => ?_⟩
  · rw [hsound.isLive_eq, Bool.eq_false_of_not_eq_true hc.fresh]
  · rw [hc.sound.isLive_eq, hlive₁]
  · rw [← hplace₁]
    exact hc.sound.record_bytesOf hlive₁.hasPage
  have hplace₂ : s₂.place s.upcoming.index = s.upcoming.place :=
    ((SlabCall.performAll_extends hrun').place_eq _).trans hplace₁
  have hsound₂ := hc.sound.performAll hrun' hfits₂
  refine ⟨by rw [record, hplace₂], fun src => by rw [write, hplace₂], fun hkept => ?_⟩
  obtain ⟨hlive₂, hbytes⟩ := hc.sound.keeps hrun' hfits₂ hlive₁ hkept
  rw [hsound₂.isLive_eq, hlive₂, hsound₂.record_bytesOf hlive₂.hasPage, hbytes]
  exact ⟨rfl, rfl⟩

/-- Index 0 is freed, twice, and its page is queued and zeroed; the index is then handed out again.
The new record keeps what is written to it while its neighbours come and go. -/
theorem create_isolated_recycled : ∃ s₀ s s₁ s₂ : Slab, ∃ created view,
    (new { size := 4 } { pageSize := 2, initialPages := 1 } .heap).outcome = .ok s₀ ∧
    SlabCall.performAll s₀ [.create, .create, .write 0 #[7], .free 1, .free 0, .free 0, .create,
      .create] = .ok s ∧
    s.create.outcome = .ok (created, s₁) ∧ created.index = 0 ∧ s.isLive 0 = .ok false ∧
    s₁.recordAt created.place = .ok view ∧
    SlabCall.performAll s₁ [.write 0 #[1, 2], .write 1 #[9], .free 2, .free 3, .create] = .ok s₂ ∧
    s₂.isLive 0 = .ok true ∧ s₂.record 0 = .ok (view.overwrite 0 [1, 2]) := by
  have hall : (do
      let s₀ ← (new { size := 4 } { pageSize := 2, initialPages := 1 } .heap).outcome
      let s ← SlabCall.performAll s₀ [.create, .create, .write 0 #[7], .free 1, .free 0, .free 0,
        .create, .create]
      let made ← s.create.outcome
      let s₂ ← SlabCall.performAll made.2 [.write 0 #[1, 2], .write 1 #[9], .free 2, .free 3,
        .create]
      pure (made.1.index, s₂.pageCount * s₂.pageCapacity)) = .ok (0, 4) := by decide +kernel
  obtain ⟨s₀, h, hall⟩ := bind_eq_ok hall
  obtain ⟨s, hrun, hall⟩ := bind_eq_ok hall
  obtain ⟨⟨created, s₁⟩, hcreate, hall⟩ := bind_eq_ok hall
  obtain ⟨s₂, hrun', hall⟩ := bind_eq_ok hall
  obtain ⟨hindex, hcount⟩ := Prod.mk.inj (Except.ok.inj hall)
  have hfits₂ : s₂.pageCount * s₂.pageCapacity ≤ 2 ^ 32 := by omega
  have hfits₁ := (SlabCall.performAll_extends hrun').fits hfits₂
  obtain ⟨-, -, created', s₁', hcreate', hisolated⟩ :=
    create_isolated h hrun ((create_extends hcreate).fits hfits₁)
  cases hcreate.symm.trans hcreate'
  obtain ⟨hfresh, -, view, hview, hlater⟩ := hisolated hfits₁
  obtain ⟨-, -, hkept⟩ := hlater _ s₂ hrun' hfits₂
  rw [hindex] at hfresh hkept
  obtain ⟨hlive, hrecord⟩ := hkept (by decide)
  exact ⟨s₀, s, s₁, s₂, created, view, h, hrun, hcreate, hindex, hfresh, hview, hrun', hlive,
    hrecord⟩

end Slab

end RecordArena
