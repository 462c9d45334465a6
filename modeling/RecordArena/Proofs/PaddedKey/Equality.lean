import RecordArena.PaddedKey
import RecordArena.Proofs.Bytes.Significant
import RecordArena.Proofs.Outcome

/-!
# Equality and hash of padded keys

Keys are compared over the smaller of their capacities, while the hash of a key reads its whole
buffer up to the first zero word. For keys that are padded with zeros, equality is agreement of the
contents over the smaller capacity. It is equality of the contents when each content fits into the
other key, and then the hashes are equal too. A key whose content fills its buffer is equal to
every longer key that begins with it.

## Main definitions

* `PaddedKey.WellPadded` – only zeros follow the content.

## Main statements

* `PaddedKey.beq_iff` – equality is agreement over the smaller capacity.
* `PaddedKey.content_eq_iff` – equal contents are equality of keys that fit into each other.
* `PaddedKey.keyHash_eq` – the hash depends on the content alone.
* `PaddedKey.equality_over_smaller_capacity` – the laws of equality and hash together.
-/

namespace RecordArena.PaddedKey

variable {a b c key : PaddedKey}

/-- Only zeros follow the content. -/
def WellPadded (key : PaddedKey) : Prop := key.raw = padded key.content key.capacity

theorem content_ne_zero {x : UInt8} (hx : x ∈ key.content) : x ≠ 0 := by
  have hall : key.content.all (· ≠ 0) = true := Array.all_takeWhile
  simpa using Array.all_eq_true_iff_forall_mem.mp hall x hx

theorem len_le_capacity (key : PaddedKey) : key.len ≤ key.capacity := by
  rw [len, content, capacity, ← Array.length_toList, ← Array.length_toList, Array.toList_takeWhile]
  exact (List.takeWhile_prefix _).length_le

/-- Content and padding are told apart again when the source is free of zeros. -/
theorem takeWhile_padded {src : Bytes} (hsrc : ∀ x ∈ src, x ≠ 0) (capacity : Nat) :
    (padded src capacity).takeWhile (· ≠ 0) = src := by
  rw [padded, Array.takeWhile_append_of_pos fun x hx => decide_eq_true (hsrc x hx), Bytes.zeros,
    Array.takeWhile_replicate, if_neg (by decide), Array.append_empty]

/-- A buffer made of a source free of zeros and its padding holds that source. -/
theorem wellPadded_of_raw {src : Bytes} (hsrc : ∀ x ∈ src, x ≠ 0)
    (hraw : key.raw = padded src key.capacity) : key.WellPadded ∧ key.content = src := by
  have hcontent : key.content = src := by
    rw [content, hraw, takeWhile_padded hsrc]
  refine ⟨?_, hcontent⟩
  rwa [WellPadded, hcontent]

theorem set_eq_ok {key' : PaddedKey} {src : Bytes} (h : key.set src = .ok key') :
    src.size ≤ key.capacity ∧ key'.capacity = key.capacity ∧
      key'.raw = padded src key.capacity := by
  rw [set] at h
  split at h
  case isTrue hfit =>
    cases h
    exact ⟨hfit, size_padded hfit, rfl⟩
  case isFalse => cases h

/-- A key that is given a source free of zeros is padded and holds the source. -/
theorem wellPadded_of_set {key' : PaddedKey} {src : Bytes} (hsrc : ∀ x ∈ src, x ≠ 0)
    (h : key.set src = .ok key') : key'.WellPadded ∧ key'.content = src := by
  obtain ⟨-, hcapacity, hraw⟩ := set_eq_ok h
  rw [← hcapacity] at hraw
  exact wellPadded_of_raw hsrc hraw

theorem wellPadded_of_withContent (capacity : Nat) (src : Bytes) (hsrc : ∀ x ∈ src, x ≠ 0)
    (h : withContent capacity src = .ok key) : key.WellPadded ∧ key.content = src := by
  obtain ⟨fresh, -, hset⟩ := bind_eq_ok h
  exact wellPadded_of_set hsrc (mapError_eq_ok hset)

namespace WellPadded

theorem getD_raw (h : key.WellPadded) (i : Nat) : key.raw.getD i 0 = key.content.getD i 0 := by
  rw [h, padded, Bytes.zeros, Array.getD_eq_getD_getElem?, Array.getD_eq_getD_getElem?,
    Array.getElem?_append]
  split
  · rfl
  · rw [Array.getElem?_replicate, Array.getElem?_eq_none (show key.content.size ≤ i by omega)]
    split
    · rfl
    · rfl

theorem zerosLast (h : key.WellPadded) : key.raw.ZerosLast := by
  intro i j hij hzero
  rw [h.getD_raw, Array.getD_eq_getD_getElem?] at hzero ⊢
  have hi : key.content.size ≤ i := by
    by_contra hlt
    rw [Array.getElem?_eq_getElem (by omega)] at hzero
    exact content_ne_zero (Array.getElem_mem (by omega)) hzero
  rw [Array.getElem?_eq_none (by omega)]
  rfl

/-- The front of the buffer is the front of the content, padded. -/
theorem extract_raw (h : key.WellPadded) {m : Nat} (hm : m ≤ key.capacity) :
    key.raw.extract 0 m = padded (key.content.extract 0 m) m := by
  rw [h, padded, padded, Bytes.zeros, Bytes.zeros, Array.extract_append, Array.size_extract,
    Array.extract_replicate]
  congr 2
  have hlen := key.len_le_capacity
  rw [len] at hlen
  omega

end WellPadded

theorem extract_content (key : PaddedKey) (m : Nat) :
    key.content.extract 0 m = (key.raw.extract 0 m).takeWhile (· ≠ 0) :=
  Array.extract_takeWhile

/-- Padded keys are equal when their contents agree over the smaller capacity. -/
theorem beq_iff (ha : a.WellPadded) (hb : b.WellPadded) :
    (a == b) = true ↔
      a.content.extract 0 (min a.capacity b.capacity) =
        b.content.extract 0 (min a.capacity b.capacity) := by
  change a.raw.paddedEq b.raw = true ↔ _
  rw [Bytes.paddedEq_iff ha.zerosLast hb.zerosLast a.aligned b.aligned]
  change a.raw.extract 0 (min a.capacity b.capacity) = b.raw.extract 0 (min a.capacity b.capacity) ↔
    _
  constructor
  · intro h
    rw [extract_content, extract_content, h]
  · intro h
    rw [ha.extract_raw (Nat.min_le_left _ _), hb.extract_raw (Nat.min_le_right _ _), h]

/-- Contents that agree over some length agree over every shorter one. -/
theorem agree_mono {x y : Bytes} {m n : Nat} (hmn : m ≤ n) (h : x.extract 0 n = y.extract 0 n) :
    x.extract 0 m = y.extract 0 m := by
  have hfront : ∀ z : Bytes, (z.extract 0 n).extract 0 m = z.extract 0 m := by
    intro z
    rw [Array.extract_extract, Nat.zero_add, Nat.zero_add, Nat.min_eq_left hmn]
  rw [← hfront x, ← hfront y, h]

/-- Equal contents are equality of keys whose contents fit into each other. -/
theorem content_eq_iff (ha : a.WellPadded) (hb : b.WellPadded) :
    a.content = b.content ↔ (a == b) = true ∧ a.len ≤ b.capacity ∧ b.len ≤ a.capacity := by
  rw [beq_iff ha hb]
  have halen := a.len_le_capacity
  have hblen := b.len_le_capacity
  rw [len] at halen hblen
  constructor
  · intro h
    rw [len, len]
    exact ⟨by rw [h], h ▸ hblen, h ▸ halen⟩
  · rintro ⟨h, hab, hba⟩
    rw [len] at hab hba
    rwa [Array.extract_eq_self_of_le (by omega), Array.extract_eq_self_of_le (by omega)] at h

/-- Bytes padded to whole words have one hash, however long the padding is. -/
theorem keyHash_padded {src : Bytes} {m n : Nat} (hm : src.size ≤ m) (hn : src.size ≤ n)
    (hmwhole : m % keyAlignment = 0) (hnwhole : n % keyAlignment = 0) :
    (padded src m).keyHash = (padded src n).keyHash := by
  -- the longer buffer is the shorter one followed by whole zero words
  have hlonger : ∀ p q, src.size ≤ p → p % keyAlignment = 0 → q % keyAlignment = 0 → p ≤ q →
      (padded src p).keyHash = (padded src q).keyHash := by
    intro p q hp hpwhole hqwhole hle
    obtain ⟨k, hk⟩ : ∃ k, q = p + k * Bytes.wordSize := by
      refine ⟨(q - p) / 8, ?_⟩
      rw [keyAlignment] at hpwhole hqwhole
      rw [Bytes.wordSize]
      omega
    have hsplit : padded src q = padded src p ++ Bytes.zeros (k * Bytes.wordSize) := by
      rw [hk, padded, padded, Array.append_assoc, Bytes.zeros, Bytes.zeros, Bytes.zeros,
        Array.replicate_append_replicate, Nat.sub_add_comm hp]
    have hwhole : (padded src p).size % Bytes.wordSize = 0 := by
      rw [size_padded hp]
      exact hpwhole
    rw [hsplit]
    exact (Bytes.keyHash_append_zeros hwhole k).symm
  rcases Nat.le_total m n with hle | hle
  · exact hlonger m n hm hmwhole hnwhole hle
  · exact (hlonger n m hn hnwhole hmwhole hle).symm

/-- The hash depends on the content alone. -/
theorem keyHash_eq (ha : a.WellPadded) (hb : b.WellPadded) (h : a.content = b.content) :
    a.keyHash = b.keyHash := by
  rw [keyHash, keyHash, ha, hb, h]
  exact keyHash_padded (h ▸ a.len_le_capacity) b.len_le_capacity a.aligned b.aligned

theorem beq_comm (ha : a.WellPadded) (hb : b.WellPadded) : (a == b) = (b == a) := by
  rw [Bool.eq_iff_iff, beq_iff ha hb, beq_iff hb ha, Nat.min_comm b.capacity, eq_comm]

/-- A key that agrees with a content that does not fill its buffer holds that content. -/
theorem content_eq_of_agree {x y : Bytes} {m : Nat} (hy : y.size < m)
    (h : x.extract 0 m = y.extract 0 m) : x = y := by
  have hsize := congrArg Array.size h
  rw [Array.size_extract, Array.size_extract] at hsize
  rwa [Array.extract_eq_self_of_le (by omega), Array.extract_eq_self_of_le (by omega)] at h

/-- Equality passes through a key that does not cut off what the outer two can hold. -/
theorem beq_trans (ha : a.WellPadded) (hb : b.WellPadded) (hc : c.WellPadded)
    (hmiddle : b.len < b.capacity ∨ min a.capacity c.capacity ≤ b.capacity)
    (hab : (a == b) = true) (hbc : (b == c) = true) : (a == c) = true := by
  rw [beq_iff ha hb] at hab
  rw [beq_iff hb hc] at hbc
  rw [beq_iff ha hc]
  by_cases hcut : min a.capacity c.capacity ≤ b.capacity
  · exact (agree_mono (by omega) hab).trans (agree_mono (by omega) hbc)
  · have hfree : b.content.size < b.capacity := by
      rcases hmiddle with hfree | hle
      · exact hfree
      · exact absurd hle hcut
    rw [Nat.min_eq_right (by omega)] at hab
    rw [Nat.min_eq_left (by omega)] at hbc
    rw [content_eq_of_agree hfree hab, content_eq_of_agree hfree hbc.symm]

/-- Equality of padded keys is agreement of their contents over the smaller capacity. It is
reflexive and symmetric, it passes through a key that does not cut off what the outer two can hold,
and for keys that fit into each other it is equality of the contents and implies equal hashes. -/
theorem equality_over_smaller_capacity (ha : a.WellPadded) (hb : b.WellPadded)
    (hc : c.WellPadded) :
    ((a == b) = true ↔
      a.content.extract 0 (min a.capacity b.capacity) =
        b.content.extract 0 (min a.capacity b.capacity)) ∧
    (a.content = b.content ↔ (a == b) = true ∧ a.len ≤ b.capacity ∧ b.len ≤ a.capacity) ∧
    (a == a) = true ∧ (a == b) = (b == a) ∧
    (b.len < b.capacity ∨ min a.capacity c.capacity ≤ b.capacity →
      (a == b) = true → (b == c) = true → (a == c) = true) ∧
    ((a == b) = true → a.len ≤ b.capacity → b.len ≤ a.capacity →
      a.keyHash = b.keyHash ∧ a.hasherInput = b.hasherInput) := by
  refine ⟨beq_iff ha hb, content_eq_iff ha hb, (beq_iff ha ha).mpr rfl, beq_comm ha hb,
    beq_trans ha hb hc, ?_⟩
  intro hab hafit hbfit
  have hhash := keyHash_eq ha hb ((content_eq_iff ha hb).mpr ⟨hab, hafit, hbfit⟩)
  exact ⟨hhash, by rw [hasherInput, hasherInput, hhash]⟩

/-- A content that fills the smallest of three buffers. -/
theorem equality_over_smaller_capacity_full :
    ∃ a b c : PaddedKey,
      withContent 8 #[65, 66, 67, 68, 69, 70, 71, 72] = .ok a ∧
      withContent 16 #[65, 66, 67, 68, 69, 70, 71, 72] = .ok b ∧
      withContent 24 #[65, 66, 67, 68, 69, 70, 71, 72] = .ok c ∧
      a.WellPadded ∧ b.WellPadded ∧ c.WellPadded ∧
      (a == b) = true ∧ (b == c) = true ∧ (a == c) = true ∧
      a.keyHash = b.keyHash ∧ a.hasherInput = b.hasherInput := by
  refine ⟨_, _, _, rfl, rfl, rfl, ?_⟩
  obtain ⟨ha, hacontent⟩ :=
    wellPadded_of_withContent 8 #[65, 66, 67, 68, 69, 70, 71, 72] (by simp) rfl
  obtain ⟨hb, hbcontent⟩ :=
    wellPadded_of_withContent 16 #[65, 66, 67, 68, 69, 70, 71, 72] (by simp) rfl
  obtain ⟨hc, hccontent⟩ :=
    wellPadded_of_withContent 24 #[65, 66, 67, 68, 69, 70, 71, 72] (by simp) rfl
  obtain ⟨-, hcontent, -, -, htrans, hhash⟩ := equality_over_smaller_capacity ha hb hc
  obtain ⟨hab, hafit, hbfit⟩ := hcontent.mp (hacontent.trans hbcontent.symm)
  have hbc := ((equality_over_smaller_capacity hb hc ha).2.1.mp
    (hbcontent.trans hccontent.symm)).1
  refine ⟨ha, hb, hc, hab, hbc, htrans (.inl ?_) hab hbc, hhash hab hafit hbfit⟩
  rw [len, hbcontent]
  decide

/-- A key whose content fills its buffer is equal to two keys that continue it differently. They
are not equal to each other, and their contents and hashes differ from its own. -/
theorem equality_cuts_longer_content :
    ∃ a b c : PaddedKey,
      withContent 8 #[65, 66, 67, 68, 69, 70, 71, 72] = .ok a ∧
      withContent 16 #[65, 66, 67, 68, 69, 70, 71, 72, 73] = .ok b ∧
      withContent 16 #[65, 66, 67, 68, 69, 70, 71, 72, 74] = .ok c ∧
      a.WellPadded ∧ b.WellPadded ∧ c.WellPadded ∧
      (b == a) = true ∧ (a == c) = true ∧ (b == c) = false ∧
      b.content ≠ a.content ∧ b.keyHash ≠ a.keyHash ∧ b.hasherInput ≠ a.hasherInput := by
  refine ⟨_, _, _, rfl, rfl, rfl, ?_⟩
  obtain ⟨ha, hacontent⟩ :=
    wellPadded_of_withContent 8 #[65, 66, 67, 68, 69, 70, 71, 72] (by simp) rfl
  obtain ⟨hb, hbcontent⟩ :=
    wellPadded_of_withContent 16 #[65, 66, 67, 68, 69, 70, 71, 72, 73] (by simp) rfl
  obtain ⟨hc, -⟩ :=
    wellPadded_of_withContent 16 #[65, 66, 67, 68, 69, 70, 71, 72, 74] (by simp) rfl
  refine ⟨ha, hb, hc, by decide, by decide, by decide, ?_, by decide, by decide⟩
  rw [hacontent, hbcontent]
  decide

end RecordArena.PaddedKey
