import RecordArena.Proofs.Slab.Numbering

/-!
# The cursor and the addressing

An index is formed by the cursor and split by the addressing of the slab, and each shifts on its
own. After any run the two shifts are the same. So while all places of a slab fit 32 bits, the
cursor codes every place as the addressing does, and the index under the cursor leads to the slot
that the next record occupies.

## Main definitions

* `Slab.CursorCodes` – the cursor forms the indices that the slab splits.

## Main statements

* `Slab.address_coding` – indices and places that fit correspond, and cursors agree on it.
-/

namespace RecordArena.Slab

variable {s s' : Slab}

/-- The cursor of the slab forms the indices that the slab splits, and the one that it is on leads
to the slot that is occupied next. -/
structure CursorCodes (s : Slab) : Prop where
  codes : ∃ k ≤ 15, s.addressing.Codes k
  index_eq : ∀ place : Place, place.page.toNat < s.pageCount → place.slot < s.pageCapacity →
    ({ s.cursor with place } : Cursor).index = s.addressing.encode place ∧
      s.place (s.addressing.encode place) = place
  cursor_place : s.cursor.place.page.toNat < s.pageCount ∧ s.cursor.place.slot < s.pageCapacity ∧
    s.place s.cursorIndex = s.cursor.place
  create_occupies : ∃ s', s.create.outcome = .ok (⟨s.cursorIndex, s.cursor.place⟩, s') ∧
    s.isLive s.cursorIndex = .ok false ∧
    ∀ index, s'.isLive index = if index = s.cursorIndex then .ok true else s.isLive index

namespace Divided

/-- The addressing of a slab codes the places of its pages. -/
theorem codes (h : s.Divided) : ∃ k ≤ 15, s.addressing.Codes k := by
  obtain ⟨k, hk, hslots⟩ := h.slots_eq
  refine ⟨k, hk, ?_⟩
  rw [h.addressing_eq, hslots]
  exact Addressing.codes_ofSlots (by omega)

/-- All places fit when their number does. -/
theorem fits {k : Nat} (hk : k ≤ 15) (hcodes : s.addressing.Codes k)
    (hsize : s.pageCount * s.pageCapacity ≤ 2 ^ 32) {place : Place}
    (hpage : place.page.toNat < s.pageCount) (hslot : place.slot < s.pageCapacity) :
    place.Fits k := by
  have hcapacity : s.pageCapacity = 2 ^ k := hcodes.slots_eq
  have hpages : s.pageCount ≤ 2 ^ (32 - k) := by
    apply Nat.le_of_mul_le_mul_right _ (Nat.two_pow_pos k)
    rwa [← Nat.pow_add, Nat.sub_add_cancel (by omega), ← hcapacity]
  exact ⟨hpage.trans_le hpages, hcapacity ▸ hslot⟩

/-- Creating a record makes the index under the cursor live and no other. -/
theorem isLive_create {k : Nat} (h : s.Divided) (hparked : s.Parked)
    (hcodes : s.addressing.Codes k) (hplace : s.place s.cursorIndex = s.cursor.place)
    {created : Created} (hrun : s.create.outcome = .ok (created, s')) (index : UInt32) :
    s'.isLive index = if index = s.cursorIndex then .ok true else s.isLive index := by
  -- an index is that of the cursor when its place is
  have hiff : s.place index = s.cursor.place ↔ index = s.cursorIndex := by
    rw [← hplace]
    constructor
    · intro heq
      rw [← hcodes.encode_decode index, ← hcodes.encode_decode s.cursorIndex]
      exact congrArg s.addressing.encode heq
    · exact congrArg s.place
  have hextends := create_extends hrun
  rw [(hextends.shaped h.toShaped).isLive_eq, h.isLive_eq, hextends.place_eq,
    h.create_occupiedAt hparked hrun (h.slot_lt index)]
  by_cases heq : index = s.cursorIndex
  · rw [decide_eq_true (hiff.mpr heq), if_pos heq, Bool.true_or]
  · rw [decide_eq_false (mt hiff.mp heq), if_neg heq, Bool.false_or]

theorem cursorCodes (h : s.Divided) (hparked : s.Parked)
    (hshift : s.cursor.shift = s.addressing.shift)
    (hsize : s.pageCount * s.pageCapacity ≤ 2 ^ 32) : s.CursorCodes := by
  obtain ⟨k, hk, hcodes⟩ := h.codes
  have hdecode : ∀ place : Place, place.page.toNat < s.pageCount → place.slot < s.pageCapacity →
      s.place (s.addressing.encode place) = place := fun place hpage hslot =>
    hcodes.decode_encode place (fits hk hcodes hsize hpage hslot)
  have hcursor : s.cursor.place.page.toNat < s.pageCount := h.cursor_page_lt
  have hslot : s.cursor.place.slot < s.pageCapacity := h.pageCapacity_eq ▸ h.cursor_lt
  have hindex : s.cursorIndex = s.addressing.encode s.cursor.place :=
    index_eq_encode hshift s.cursor.place
  have hplace : s.place s.cursorIndex = s.cursor.place := by
    rw [hindex]
    exact hdecode s.cursor.place hcursor hslot
  obtain ⟨s', hrun⟩ := h.create hparked
  have hvacant : s.isLive s.cursorIndex = .ok false := by
    rw [h.isLive_eq, hplace]
    exact congrArg Except.ok hparked
  exact {
    codes := ⟨k, hk, hcodes⟩
    index_eq := fun place hpage hslot => ⟨index_eq_encode hshift place, hdecode place hpage hslot⟩
    cursor_place := ⟨hcursor, hslot, hplace⟩
    create_occupies := ⟨s', hrun, hvacant, h.isLive_create hparked hcodes hplace hrun⟩ }

end Divided

/-- Coding is exact. Pages with `2 ^ k` slots have as their places that fit one for each index, in
the order of the indices. In a slab whose places all fit, after any run, cursors on its pages form
the indices that the slab splits, and the index under the cursor leads to the slot that the next
record occupies. -/
theorem address_coding :
    (∀ k ≤ 31, (Addressing.ofSlots (2 ^ k)).Codes k) ∧
    ∀ {layout : RecordLayout} {config : SlabConfig} {backing : Backing} {s₀ s : Slab},
      (new layout config backing).outcome = .ok s₀ → Relation.ReflTransGen Step s₀ s →
      s.pageCount * s.pageCapacity ≤ 2 ^ 32 → s.CursorCodes := by
  refine ⟨fun k hk => Addressing.codes_ofSlots (by omega), ?_⟩
  intro layout config backing s₀ s h hsteps hsize
  have hcount : s.pageCount ≤ 2 ^ 32 :=
    (Nat.le_mul_of_pos_right _ (Nat.succ_pos _)).trans hsize
  obtain ⟨hdivided, hparked, hshift⟩ := reachable h hsteps hcount
  exact hdivided.cursorCodes hparked hshift hsize

/-- With the largest pages an index has one bit for the page. With pages of two slots, the third
record goes to index 2 while index 1 is vacant. -/
theorem address_coding_third :
    (Addressing.ofSlots (2 ^ 31)).decode ((Addressing.ofSlots (2 ^ 31)).encode ⟨1, 5⟩) = ⟨1, 5⟩ ∧
    ∃ s₀ s : Slab, (new { size := 4 } { pageSize := 2, initialPages := 1 } .heap).outcome = .ok s₀ ∧
      Relation.ReflTransGen Step s₀ s ∧ s.pageCount * s.pageCapacity ≤ 2 ^ 32 ∧
      s.cursorIndex = 2 ∧ s.cursor.place = ⟨1, 0⟩ ∧ s.place s.cursorIndex = s.cursor.place ∧
      ∃ s', s.create.outcome = .ok (⟨2, ⟨1, 0⟩⟩, s') ∧ s'.isLive 2 = .ok true ∧
        s'.isLive 1 = .ok false := by
  have hfits : Place.Fits ⟨1, 5⟩ 31 := ⟨by decide, by decide⟩
  refine ⟨(address_coding.1 31 (by decide)).decode_encode _ hfits, ?_⟩
  obtain ⟨s₀, s₁, s₂, s₃, h, h₁, h₂, h₃, hsize, hindex, hplace, hvacant⟩ :
      ∃ s₀ s₁ s₂ s₃ : Slab,
        (new { size := 4 } { pageSize := 2, initialPages := 1 } .heap).outcome = .ok s₀ ∧
        s₀.create.outcome = .ok (s₀.upcoming, s₁) ∧ s₁.create.outcome = .ok (s₁.upcoming, s₂) ∧
        (s₂.free 1).outcome = .ok s₃ ∧ s₃.pageCount * s₃.pageCapacity ≤ 2 ^ 32 ∧
        s₃.cursorIndex = 2 ∧ s₃.cursor.place = ⟨1, 0⟩ ∧
        s₃.isLive 1 = .ok false :=
    ⟨_, _, _, _, rfl, rfl, rfl, rfl, by decide, by decide, by decide, rfl⟩
  have hsteps : Relation.ReflTransGen Step s₀ s₃ :=
    ((Relation.ReflTransGen.single (.create h₁)).tail (.create h₂)).tail (.free 1 h₃)
  have hcodes : s₃.CursorCodes := address_coding.2 h hsteps hsize
  obtain ⟨s', hrun, -, hlive⟩ := hcodes.create_occupies
  rw [hindex, hplace] at hrun
  rw [hindex] at hlive
  refine ⟨s₀, s₃, h, hsteps, hsize, hindex, hplace, hcodes.cursor_place.2.2, s', hrun, ?_, ?_⟩
  · exact (hlive 2).trans (if_pos rfl)
  · rw [hlive 1, if_neg (by decide), hvacant]

end RecordArena.Slab
