import RecordArena.Bytes.KeyHash
import RecordArena.Proofs.Bytes.Compare

/-!
# Words of padded regions

Where only zero bytes follow a zero byte, only zero words follow a zero word, so the hash that stops
at a zero word depends on what precedes the padding alone.

## Main statements

* `Bytes.ZerosLast.words` – only zero words follow a zero word.
* `Bytes.words_append` – the words of a region that follows whole words.
* `Bytes.keyHash_append_zeros` – padding does not change the hash.
-/

namespace RecordArena

theorem LittleEndian.toNat_eq_zero {bytes : List UInt8} :
    toNat bytes = 0 ↔ ∀ x ∈ bytes, x = 0 := by
  induction bytes with
  | nil => simp [toNat]
  | cons b bs ih =>
    rw [List.forall_mem_cons, ← ih, toNat, ← UInt8.toNat_inj]
    change b.toNat + 256 * toNat bs = 0 ↔ b.toNat = 0 ∧ toNat bs = 0
    omega

namespace Bytes

variable {a b : Bytes}

/-- Only zero bytes follow a zero byte. -/
def ZerosLast (b : Bytes) : Prop := ∀ i j, i ≤ j → b.getD i 0 = 0 → b.getD j 0 = 0

theorem getD_extract (b : Bytes) {n i : Nat} (hi : i < n) :
    (b.extract 0 n).getD i 0 = b.getD i 0 := by
  rw [Array.getD_eq_getD_getElem?, Array.getD_eq_getD_getElem?, Array.getElem?_extract,
    Nat.zero_add]
  by_cases hsize : i < b.size
  · rw [if_pos (by omega)]
  · rw [if_neg (by omega), Array.getElem?_eq_none (by omega)]

/-- The front of a region keeps its zeros last. -/
theorem ZerosLast.extract (h : b.ZerosLast) (n : Nat) : ZerosLast (b.extract 0 n) := by
  intro i j hij hzero
  by_cases hj : j < n
  · rw [getD_extract b hj]
    rw [getD_extract b (Nat.lt_of_le_of_lt hij hj)] at hzero
    exact h i j hij hzero
  · rw [Array.getD_eq_getD_getElem?, Array.getElem?_eq_none]
    · rfl
    · rw [Array.size_extract]
      omega

theorem word_eq_zero_iff {i : Nat} :
    b.word i = 0 ↔ ∀ k < wordSize, b.getD (i * wordSize + k) 0 = 0 := by
  let bytes := b.extract (i * wordSize) (i * wordSize + wordSize)
  have hlt : LittleEndian.toNat bytes.toList < 2 ^ 64 := by
    have hsize : bytes.toList.length ≤ 8 := by
      rw [Array.length_toList, Array.size_extract, wordSize]
      omega
    have hbound : 256 ^ bytes.toList.length ≤ 256 ^ 8 := Nat.pow_le_pow_right (by decide) hsize
    exact (LittleEndian.toNat_lt bytes.toList).trans_le hbound
  have hzero : b.word i = 0 ↔ LittleEndian.toNat bytes.toList = 0 := by
    rw [word, ← UInt64.toNat_inj, UInt64.toNat_ofNat', Nat.mod_eq_of_lt hlt]
    rfl
  rw [hzero, LittleEndian.toNat_eq_zero]
  constructor
  · intro h k hk
    rw [Array.getD_eq_getD_getElem?]
    by_cases hsize : i * wordSize + k < b.size
    · have hget : bytes[k]? = b[i * wordSize + k]? := by
        rw [Array.getElem?_extract, if_pos (by omega)]
      rw [Array.getElem?_eq_getElem hsize] at hget ⊢
      exact h _ (Array.mem_toList_iff.mpr (Array.mem_of_getElem? hget))
    · rw [Array.getElem?_eq_none (by omega)]
      rfl
  · intro h x hx
    obtain ⟨k, hk⟩ := Array.mem_iff_getElem?.mp (Array.mem_toList_iff.mp hx)
    rw [Array.getElem?_extract] at hk
    split at hk
    · have hzero := h k (by omega)
      rw [Array.getD_eq_getD_getElem?, hk] at hzero
      exact hzero
    · cases hk

/-- Only zero words follow a zero word. -/
theorem ZerosLast.words (h : b.ZerosLast) : b.words.Pairwise fun v w => v = 0 → w = 0 := by
  rw [Bytes.words, List.pairwise_map]
  refine List.pairwise_lt_range.imp fun {i j} hij hzero => ?_
  have hfirst := word_eq_zero_iff.mp hzero 0 (by decide)
  refine word_eq_zero_iff.mpr fun k _ => h _ _ ?_ hfirst
  have hle := Nat.mul_le_mul_right wordSize (Nat.le_of_lt hij)
  omega

theorem tail_eq_nil (h : b.size % wordSize = 0) : b.tail = [] := by
  have hcount : b.wordCount * wordSize = b.size := Nat.div_mul_cancel (Nat.dvd_of_mod_eq_zero h)
  rw [tail, hcount, Array.toList_eq_nil_iff, ← Array.size_eq_zero_iff, Array.size_extract]
  omega

/-- Regions of whole words and of one length are told apart by their words. -/
theorem words_inj (hsize : a.size = b.size) (hwhole : a.size % wordSize = 0) :
    a.words = b.words ↔ a = b := by
  constructor
  · intro h
    apply eq_of_words_eq hsize h
    rw [tail_eq_nil hwhole, tail_eq_nil (hsize ▸ hwhole)]
  · exact congrArg words

theorem wordCount_append (ha : a.size % wordSize = 0) :
    (a ++ b : Bytes).wordCount = a.wordCount + b.wordCount := by
  obtain ⟨n, hn⟩ := Nat.dvd_of_mod_eq_zero ha
  rw [wordCount, wordCount, wordCount, Array.size_append, hn, Nat.mul_add_div (by decide),
    Nat.mul_div_cancel_left n (by decide)]

/-- The words of a region of whole words come before those of what follows it. -/
theorem words_append (ha : a.size % wordSize = 0) :
    (a ++ b : Bytes).words = a.words ++ b.words := by
  have hsize : a.wordCount * wordSize = a.size := Nat.div_mul_cancel (Nat.dvd_of_mod_eq_zero ha)
  rw [words, wordCount_append ha, List.range_add, List.map_append, List.map_map]
  congr 1
  · refine List.map_congr_left fun i hi => ?_
    have hfit := word_fits (List.mem_range.mp hi)
    rw [word, word, Array.extract_append, Nat.sub_eq_zero_of_le (by omega : _ ≤ a.size),
      Nat.sub_eq_zero_of_le hfit, Array.extract_zero, Array.append_empty]
  · refine List.map_congr_left fun i _ => ?_
    rw [Function.comp_apply, word, word, Nat.add_mul, hsize, Array.extract_append,
      Array.extract_empty_of_size_le_start (Nat.le_add_right _ _), Array.empty_append,
      Nat.add_sub_cancel_left, Nat.add_assoc, Nat.add_sub_cancel_left]

/-- The words of a region are those of a front of whole words and those of what follows it. -/
theorem words_split {n : Nat} (hfit : n * wordSize ≤ b.size) :
    b.words = words (b.extract 0 (n * wordSize)) ++ words (b.extract (n * wordSize) b.size) := by
  have hwhole : (b.extract 0 (n * wordSize)).size % wordSize = 0 := by
    rw [Array.size_extract, Nat.min_eq_left hfit, Nat.sub_zero, Nat.mul_mod_left]
  rw [← words_append hwhole]
  simp [Array.extract_append_extract, Nat.max_eq_right hfit]

theorem words_zeros (n : Nat) : (zeros (n * wordSize)).words = List.replicate n 0 := by
  have hcount : (zeros (n * wordSize)).wordCount = n := by
    rw [wordCount, zeros, Array.size_replicate, Nat.mul_div_cancel n (by decide)]
  rw [words, hcount, List.eq_replicate_iff, List.length_map, List.length_range]
  refine ⟨rfl, fun x hx => ?_⟩
  obtain ⟨i, -, rfl⟩ := List.mem_map.mp hx
  refine word_eq_zero_iff.mpr fun k _ => ?_
  rw [zeros, Array.getD_eq_getD_getElem?, Array.getElem?_replicate]
  split
  · rfl
  · rfl

/-- Zero words at the end are not folded. -/
theorem fold_append_zeros (hash : Int32) (words : List UInt64) (n : Nat) :
    KeyHash.fold hash (words ++ List.replicate n 0) [] = KeyHash.fold hash words [] := by
  induction words generalizing hash with
  | nil =>
    cases n with
    | zero => rfl
    | succ n => rfl
  | cons word words ih => rw [List.cons_append, KeyHash.fold, KeyHash.fold, ih]

/-- Padding does not change the hash of a region of whole words. -/
theorem keyHash_append_zeros (hb : b.size % wordSize = 0) (n : Nat) :
    (b ++ zeros (n * wordSize) : Bytes).keyHash = b.keyHash := by
  have hzeros : (zeros (n * wordSize)).size = n * wordSize := Array.size_replicate
  have hsize : (b ++ zeros (n * wordSize) : Bytes).size % wordSize = 0 := by
    rw [Array.size_append, hzeros, Nat.add_mul_mod_self_right, hb]
  rw [keyHash, keyHash, tail_eq_nil hsize, tail_eq_nil hb, words_append hb, words_zeros,
    fold_append_zeros]

end Bytes

end RecordArena
