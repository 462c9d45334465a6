import RecordArena.Proofs.Bytes.Significant

/-!
# Stepped comparison and plain comparison

A comparison that steps over words decides on what two regions have in common. `sameKey` is plain
equality. `paddedEq` looks at the shorter length only, and there it looks for one of two things: the
regions agree to its end, or they agree up to the end of a word that is zero.

## Main definitions

* `Bytes.ZeroWordAt` – the eight bytes from a position on are there and are zero.

## Main statements

* `Bytes.agreeUpToZero_iff` – the first zero word is as good as the end.
* `Bytes.stepped_comparison` – both comparisons in terms of plain prefixes.
-/

namespace RecordArena.Bytes

variable {a b : Bytes}

/-- A full word of zero bytes starts at the position. -/
def ZeroWordAt (b : Bytes) (position : Nat) : Prop :=
  ∀ k < wordSize, b[position + k]? = some 0

/-- Words agree when all of them do and so does what follows, or when they agree through one that
is zero. -/
theorem agreeUpToZero_iff {rest : Bool} {vs ws : List UInt64} (hlen : vs.length = ws.length) :
    agreeUpToZero rest vs ws = true ↔
      (vs = ws ∧ rest = true) ∨ ∃ i, vs[i]? = some 0 ∧ vs.take (i + 1) = ws.take (i + 1) := by
  induction vs generalizing ws with
  | nil =>
    obtain rfl := List.length_eq_zero_iff.mp hlen.symm
    simp [agreeUpToZero]
  | cons v vs ih =>
    cases ws with
    | nil => cases hlen
    | cons w ws =>
      rw [agreeUpToZero]
      by_cases heq : v = w
      · subst heq
        by_cases hzero : v = 0
        · -- the first word decides
          simp only [hzero, ne_eq, not_true_eq_false, if_false, if_true, true_iff]
          exact Or.inr ⟨0, rfl, rfl⟩
        · rw [if_neg (not_not_intro rfl), if_neg hzero, ih (Nat.succ.inj hlen)]
          apply or_congr
          · simp
          · constructor
            · rintro ⟨i, hi, htake⟩
              exact ⟨i + 1, hi, congrArg (v :: ·) htake⟩
            · rintro ⟨i, hi, htake⟩
              cases i with
              | zero => exact absurd (Option.some.inj hi) hzero
              | succ i => exact ⟨i, hi, (List.cons.inj htake).2⟩
      · rw [if_pos heq]
        simp [heq]

/-- The first words of a region are the words of its front. -/
theorem take_words {n : Nat} (hfit : n * wordSize ≤ b.size) :
    b.words.take n = words (b.extract 0 (n * wordSize)) := by
  have hlen : (words (b.extract 0 (n * wordSize))).length = n := by
    rw [words, List.length_map, List.length_range, wordCount, Array.size_extract,
      Nat.min_eq_left hfit, Nat.sub_zero, Nat.mul_div_cancel n (by decide)]
  rw [words_split hfit, List.take_left' hlen]

/-- A word of zero bytes lies within the region. -/
theorem ZeroWordAt.fits {position : Nat} (h : b.ZeroWordAt position) :
    position + wordSize ≤ b.size := by
  have hlast : b[position + 7]? = some 0 := h 7 (by decide)
  exact (Array.getElem?_eq_some_iff.mp hlast).1

/-- A word is there and is zero when its eight bytes are. -/
theorem getElem?_words_eq_zero_iff {i : Nat} :
    b.words[i]? = some 0 ↔ b.ZeroWordAt (i * wordSize) := by
  by_cases hi : i < b.wordCount
  · have hfit := word_fits hi
    rw [words, List.getElem?_map, List.getElem?_range hi, Option.map_some, Option.some.injEq,
      word_eq_zero_iff]
    apply forall₂_congr
    intro k hk
    have hk : i * wordSize + k < b.size := by omega
    simp [Array.getD_eq_getD_getElem?, Array.getElem?_eq_getElem hk]
  · constructor
    · intro h
      rw [words, List.getElem?_eq_none] at h
      · cases h
      · rw [List.length_map, List.length_range]
        exact Nat.le_of_not_lt hi
    · intro h
      have hfit := h.fits
      rw [← Nat.succ_mul, ← Nat.le_div_iff_mul_le (by decide)] at hfit
      exact absurd hfit hi

/-- The words agree through a zero one when the bytes do. -/
theorem take_words_eq_iff {i : Nat} (hsize : a.size = b.size)
    (hfit : (i + 1) * wordSize ≤ a.size) :
    a.words.take (i + 1) = b.words.take (i + 1) ↔
      a.extract 0 ((i + 1) * wordSize) = b.extract 0 ((i + 1) * wordSize) := by
  have hfront : (a.extract 0 ((i + 1) * wordSize)).size =
      (b.extract 0 ((i + 1) * wordSize)).size := by
    rw [Array.size_extract, Array.size_extract, hsize]
  rw [take_words hfit, take_words (hsize ▸ hfit), words_inj hfront]
  rw [Array.size_extract, Nat.min_eq_left hfit, Nat.sub_zero, Nat.mul_mod_left]

/-- The padded comparison of regions of one length: they are equal, or they are equal through a
zero word. -/
theorem agreeUpToZero_words_iff (hsize : a.size = b.size) :
    agreeUpToZero (a.tail == b.tail) a.words b.words = true ↔
      a = b ∨ ∃ i, a.ZeroWordAt (i * wordSize) ∧
        a.extract 0 ((i + 1) * wordSize) = b.extract 0 ((i + 1) * wordSize) := by
  rw [agreeUpToZero_iff (length_words hsize)]
  apply or_congr
  · rw [beq_iff_eq]
    constructor
    · rintro ⟨hwords, htail⟩
      exact eq_of_words_eq hsize hwords htail
    · rintro rfl
      exact ⟨rfl, rfl⟩
  · apply exists_congr
    intro i
    rw [getElem?_words_eq_zero_iff]
    apply and_congr_right
    intro hzero
    have hfit : (i + 1) * wordSize ≤ a.size := by
      rw [Nat.succ_mul]
      exact hzero.fits
    exact take_words_eq_iff hsize hfit

/-- A word of zero bytes below the end of a front is one of the region. -/
theorem zeroWordAt_extract {position n : Nat} :
    ZeroWordAt (b.extract 0 n) position ↔ position + wordSize ≤ n ∧ b.ZeroWordAt position := by
  have hget : ∀ k, position + k < n → (b.extract 0 n)[position + k]? = b[position + k]? := by
    intro k hk
    rw [Array.getElem?_extract, Nat.zero_add, Nat.sub_zero]
    by_cases hsize : position + k < b.size
    · rw [if_pos (by omega)]
    · rw [if_neg (by omega), Array.getElem?_eq_none (by omega)]
  constructor
  · intro h
    have hfit := h.fits
    rw [Array.size_extract] at hfit
    refine ⟨by omega, fun k hk => ?_⟩
    rw [← hget k (by omega)]
    exact h k hk
  · rintro ⟨hfit, h⟩ k hk
    rw [hget k (by omega)]
    exact h k hk

theorem paddedEq_symm (a b : Bytes) : a.paddedEq b = b.paddedEq a := by
  rw [Bool.eq_iff_iff, paddedEq_iff_significant, paddedEq_iff_significant, Nat.min_comm]
  exact eq_comm

/-- Comparing by words is comparing plainly. The exact comparison is equality. The padded one holds
when the regions agree over the shorter length, or through a zero word at a multiple of the word
size that ends within it. -/
theorem stepped_comparison (a b : Bytes) :
    (a.sameKey b = true ↔ a = b) ∧
    (a.paddedEq b = true ↔
      a.extract 0 (min a.size b.size) = b.extract 0 (min a.size b.size) ∨
      ∃ p, p % wordSize = 0 ∧ p + wordSize ≤ min a.size b.size ∧
        a.extract 0 (p + wordSize) = b.extract 0 (p + wordSize) ∧ a.ZeroWordAt p) ∧
    a.paddedEq b = b.paddedEq a := by
  refine ⟨?_, ?_, paddedEq_symm a b⟩
  · rw [sameKey_eq, decide_eq_true_iff]
  · rw [paddedEq, agreeUpToZero_words_iff (size_extract_min a b)]
    have hfront : ∀ c : Bytes, ∀ p, p + wordSize ≤ min a.size b.size →
        (c.extract 0 (min a.size b.size)).extract 0 (p + wordSize) =
          c.extract 0 (p + wordSize) := by
      intro c p hfit
      rw [Array.extract_extract, Nat.zero_add, Nat.zero_add, Nat.min_eq_left hfit]
    apply or_congr_right
    constructor
    · rintro ⟨i, hzero, hagree⟩
      obtain ⟨hfit, hzero⟩ := zeroWordAt_extract.mp hzero
      rw [Nat.succ_mul, hfront a _ hfit, hfront b _ hfit] at hagree
      exact ⟨i * wordSize, Nat.mul_mod_left i wordSize, hfit, hagree, hzero⟩
    · rintro ⟨p, haligned, hfit, hagree, hzero⟩
      obtain ⟨i, rfl⟩ := Nat.dvd_of_mod_eq_zero haligned
      rw [Nat.mul_comm] at hfit hagree hzero
      refine ⟨i, zeroWordAt_extract.mpr ⟨hfit, hzero⟩, ?_⟩
      rw [Nat.succ_mul, hfront a _ hfit, hfront b _ hfit]
      exact hagree

-- what follows a common zero word is not looked at
example : paddedEq #[0, 0, 0, 0, 0, 0, 0, 0, 1] #[0, 0, 0, 0, 0, 0, 0, 0, 2] = true := by
  decide +kernel

end RecordArena.Bytes
