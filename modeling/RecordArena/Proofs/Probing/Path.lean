import Mathlib.Data.Set.Card
import RecordArena.Proofs.Probing.Distance

/-!
# The range test as a walk

The range test compares two masked differences of 64-bit words. What it decides is which of two
slots a walk around the table meets first: the walk starts at the home of an entry, goes forward
one slot at a time and continues at the front after the last slot.

## Main definitions

* `MeetsFirst` – a walk meets one position strictly before another.

## Main statements

* `meetsFirst_iff` – the position that is met first is the one at the smaller distance.
* `card_nearer` – how many positions are nearer than a distance.
* `inProbeRange_follows_walk` – what the range test decides, and for how many slots it holds.
-/

namespace RecordArena

/-- A walk forward around a ring of `n` positions from the last argument on meets `hole` strictly
before it first meets `slot`. -/
inductive MeetsFirst (n hole slot : Nat) : (start : Nat) → Prop where
  /-- The walk is at `hole`. -/
  | here (hne : hole ≠ slot) : MeetsFirst n hole slot hole
  /-- The walk has not come to `slot` and goes on. -/
  | onward {i : Nat} (hne : i ≠ slot) (hrest : MeetsFirst n hole slot ((i + 1) % n)) :
      MeetsFirst n hole slot i

section Ring

variable {n home hole slot : Nat}

/-- What a walk meets first is nearer. -/
theorem MeetsFirst.nearer (h : MeetsFirst n hole slot home) (hhome : home < n) (hhole : hole < n)
    (hslot : slot < n) : ringDistance n home hole < ringDistance n home slot := by
  induction h with
  | here hne =>
    rw [ringDistance_self hhole]
    exact Nat.pos_of_ne_zero fun hzero => hne ((ringDistance_eq_zero hhole hslot).mp hzero)
  | @onward i hne _ ih =>
    have hnearer := ih (Nat.mod_lt _ (by omega))
    have hto := ringDistance_next hhome hslot hne
    by_cases hat : i = hole
    · subst hat
      rw [ringDistance_self hhole, hto]
      exact Nat.succ_pos _
    · rw [hto, ringDistance_next hhome hhole hat]
      omega

/-- A walk meets the nearer position first. -/
theorem meetsFirst_of_nearer (hhome : home < n) (hhole : hole < n) (hslot : slot < n)
    (h : ringDistance n home hole < ringDistance n home slot) : MeetsFirst n hole slot home := by
  induction hdist : ringDistance n home hole generalizing home with
  | zero =>
    obtain rfl := (ringDistance_eq_zero hhome hhole).mp hdist
    refine .here fun heq => ?_
    rw [heq] at h
    exact Nat.lt_irrefl _ h
  | succ d ih =>
    have hnotSlot : home ≠ slot := by
      rintro rfl
      rw [ringDistance_self hhome] at h
      exact Nat.not_lt_zero _ h
    have hnotHole : home ≠ hole := by
      rintro rfl
      rw [ringDistance_self hhome] at hdist
      cases hdist
    -- the next position is one step nearer to both
    have htoSlot := ringDistance_next hhome hslot hnotSlot
    have htoHole := ringDistance_next hhome hhole hnotHole
    exact .onward hnotSlot (ih (Nat.mod_lt _ (by omega)) (by omega) (by omega))

theorem meetsFirst_iff (hhome : home < n) (hhole : hole < n) (hslot : slot < n) :
    MeetsFirst n hole slot home ↔ ringDistance n home hole < ringDistance n home slot :=
  ⟨fun h => h.nearer hhome hhole hslot, meetsFirst_of_nearer hhome hhole hslot⟩

/-- As many positions of a ring are nearer than `d` steps as there are numbers below `d`. -/
theorem card_nearer {d : Nat} (hhome : home < n) (hd : d ≤ n) :
    {b ∈ Finset.range n | ringDistance n home b < d}.card = d := by
  have himage : {b ∈ Finset.range n | ringDistance n home b < d} =
      (Finset.range d).image fun j => (home + j) % n := by
    ext b
    simp only [Finset.mem_filter, Finset.mem_range, Finset.mem_image]
    constructor
    · rintro ⟨hb, hnear⟩
      exact ⟨ringDistance n home b, hnear, add_ringDistance hhome hb⟩
    · rintro ⟨j, hj, rfl⟩
      refine ⟨Nat.mod_lt _ (by omega), ?_⟩
      rwa [ringDistance_add hhome (by omega)]
  rw [himage, Finset.card_image_of_injOn, Finset.card_range]
  intro i hi j hj heq
  have hi := Finset.mem_range.mp hi
  have hj := Finset.mem_range.mp hj
  have hsteps := congrArg (ringDistance n home) heq
  dsimp only at hsteps
  rwa [ringDistance_add hhome (by omega), ringDistance_add hhome (by omega)] at hsteps

end Ring

section Test

variable {home hole slot mask : UInt64} {k : Nat}

/-- The range test compares distances around the ring. -/
theorem inProbeRange_iff (hmask : mask.toNat + 1 = 2 ^ k) (hhome : home ≤ mask) :
    inProbeRange home hole slot mask = true ↔
      ringDistance (2 ^ k) home.toNat hole.toNat < ringDistance (2 ^ k) home.toNat slot.toNat := by
  have hhome' := (Numeric.le_mask_iff hmask).mp hhome
  have hk : k ≤ 64 := by
    rw [← Nat.pow_le_pow_iff_right Nat.one_lt_two, ← hmask]
    exact mask.toNat_lt
  have hwords := inProbeRange_eq (2 ^ k) home.toNat hole.toNat slot.toNat
  rw [← hmask, Nat.add_sub_cancel, UInt64.ofNat_toNat, UInt64.ofNat_toNat, UInt64.ofNat_toNat,
    UInt64.ofNat_toNat, hmask] at hwords
  rw [hwords, decide_eq_true_iff, probeDistance_eq rfl hk hhome', probeDistance_eq rfl hk hhome']

/-- The slots that pass are counted by their numbers, which are those nearer than `slot`. -/
theorem ncard_inProbeRange (hmask : mask.toNat + 1 = 2 ^ k) (hhome : home ≤ mask) :
    {hole | hole ≤ mask ∧ inProbeRange home hole slot mask = true}.ncard =
      ringDistance (2 ^ k) home.toNat slot.toNat := by
  have hhome' := (Numeric.le_mask_iff hmask).mp hhome
  have hnumbers : UInt64.toNat '' {hole | hole ≤ mask ∧ inProbeRange home hole slot mask = true} =
      {b ∈ Finset.range (2 ^ k) |
        ringDistance (2 ^ k) home.toNat b < ringDistance (2 ^ k) home.toNat slot.toNat} := by
    ext b
    simp only [Set.mem_image, Set.mem_ofPred_eq, Finset.coe_filter, Finset.mem_range,
      Numeric.le_mask_iff hmask, inProbeRange_iff hmask hhome]
    constructor
    · rintro ⟨hole, hpass, rfl⟩
      exact hpass
    · intro hb
      have hword : (UInt64.ofNat b).toNat = b := by
        rw [UInt64.toNat_ofNat', Nat.mod_eq_of_lt]
        have := mask.toNat_lt
        omega
      exact ⟨UInt64.ofNat b, hword.symm ▸ hb, hword⟩
  rw [← Set.ncard_image_of_injective _ fun a b => UInt64.toNat_inj.mp, hnumbers,
    Set.ncard_coe_finset, card_nearer hhome' (Nat.le_of_lt (ringDistance_lt (by omega) _ _))]

/-- In a table of a power of two of slots the range test asks whether a walk from `home` meets
`hole` before it comes to `slot`. So it fails when `slot` is `home` or `hole`, and as many slots
pass as there are steps from `home` to `slot`. -/
theorem inProbeRange_follows_walk (hmask : mask.toNat + 1 = 2 ^ k) (hhome : home ≤ mask)
    (hslot : slot ≤ mask) :
    (∀ hole ≤ mask, inProbeRange home hole slot mask = true ↔
        MeetsFirst (2 ^ k) hole.toNat slot.toNat home.toNat) ∧
      (∀ hole, inProbeRange home hole home mask = false) ∧
      inProbeRange home slot slot mask = false ∧
      ({hole | hole ≤ mask ∧ inProbeRange home hole slot mask = true}.ncard : Int) =
        ((slot.toNat : Int) - home.toNat) % (2 ^ k : Nat) := by
  have hhome' := (Numeric.le_mask_iff hmask).mp hhome
  have hslot' := (Numeric.le_mask_iff hmask).mp hslot
  refine ⟨fun hole hhole => ?_, fun hole => ?_, ?_, ?_⟩
  · have hhole' := (Numeric.le_mask_iff hmask).mp hhole
    rw [inProbeRange_iff hmask hhome, meetsFirst_iff hhome' hhole' hslot']
  · rw [← Bool.not_eq_true, inProbeRange_iff hmask hhome, ringDistance_self hhome']
    exact Nat.not_lt_zero _
  · rw [← Bool.not_eq_true, inProbeRange_iff hmask hhome]
    exact Nat.lt_irrefl _
  · rw [ncard_inProbeRange hmask hhome, ringDistance_eq_emod hhome']

/-- The home is the last slot of `2 ^ 63` and the entry sits in slot 1, two steps ahead. A hole in
slot 0 is on the way and one in slot 2 is not. -/
theorem inProbeRange_follows_walk_wrapped :
    ∃ last : UInt64, last.toNat + 1 = 2 ^ 63 ∧
      inProbeRange last 0 1 last = true ∧ MeetsFirst (2 ^ 63) 0 1 last.toNat ∧
      ¬ MeetsFirst (2 ^ 63) 2 1 last.toNat ∧
      {hole | hole ≤ last ∧ inProbeRange last hole 1 last = true}.ncard = 2 := by
  have hmask : (0x7FFFFFFFFFFFFFFF : UInt64).toNat + 1 = 2 ^ 63 := by decide
  obtain ⟨hwalk, -, -, hcount⟩ :=
    inProbeRange_follows_walk hmask (UInt64.le_refl _) (by decide : (1 : UInt64) ≤ _)
  refine ⟨_, hmask, by decide, (hwalk 0 (by decide)).mp (by decide), fun h => ?_, ?_⟩
  · exact absurd ((hwalk 2 (by decide)).mpr h) (by decide)
  · exact Int.ofNat.inj (hcount.trans (by decide))

end Test

end RecordArena
