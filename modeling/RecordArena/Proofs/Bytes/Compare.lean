import RecordArena.Bytes.Compare
import RecordArena.Proofs.Bytes.LittleEndian

/-!
# Comparing by words

A region is its full words and its tail, so the comparison that steps over words is equality.
-/

namespace RecordArena.Bytes

theorem word_fits {a : Bytes} {i : Nat} (hi : i < a.wordCount) :
    i * wordSize + wordSize ≤ a.size := by
  have h := Nat.mul_le_of_le_div wordSize (i + 1) a.size hi
  rwa [Nat.add_mul, Nat.one_mul] at h

/-- A full word holds the eight bytes at its place. -/
theorem extract_eq_of_word_eq {a b : Bytes} {i : Nat} (hsize : a.size = b.size)
    (hi : i < a.wordCount) (h : a.word i = b.word i) :
    a.extract (i * wordSize) (i * wordSize + wordSize) =
      b.extract (i * wordSize) (i * wordSize + wordSize) := by
  have hfit := word_fits hi
  have hlen : ∀ c : Bytes, c.size = a.size →
      (c.extract (i * wordSize) (i * wordSize + wordSize)).toList.length = 8 := by
    intro c hc
    rw [Array.length_toList, Array.size_extract, hc, Nat.min_eq_left hfit, Nat.add_sub_cancel_left]
    rfl
  have hlt : ∀ c : Bytes, c.size = a.size →
      LittleEndian.toNat (c.extract (i * wordSize) (i * wordSize + wordSize)).toList < 2 ^ 64 := by
    intro c hc
    have := LittleEndian.toNat_lt (c.extract (i * wordSize) (i * wordSize + wordSize)).toList
    rw [hlen c hc] at this
    exact this
  have hnat := congrArg UInt64.toNat h
  rw [word, word, UInt64.toNat_ofNat', UInt64.toNat_ofNat', Nat.mod_eq_of_lt (hlt a rfl),
    Nat.mod_eq_of_lt (hlt b hsize.symm)] at hnat
  exact Array.toList_inj.mp
    (LittleEndian.toNat_inj ((hlen a rfl).trans (hlen b hsize.symm).symm) hnat)

/-- Regions of one length with equal words and tails are equal. -/
theorem eq_of_words_eq {a b : Bytes} (hsize : a.size = b.size) (hwords : a.words = b.words)
    (htail : a.tail = b.tail) : a = b := by
  have hcount : a.wordCount = b.wordCount := by rw [wordCount, wordCount, hsize]
  apply Array.ext_getElem?
  intro j
  -- a byte is in a full word, in the tail, or past the end
  by_cases hj : j < a.wordCount * wordSize
  · have hi : j / wordSize < a.wordCount := (Nat.div_lt_iff_lt_mul (by decide)).mpr hj
    have hword : a.word (j / wordSize) = b.word (j / wordSize) := by
      rw [words, words, ← hcount, List.map_inj_left] at hwords
      exact hwords _ (List.mem_range.mpr hi)
    have hrange := congrArg (·[j % wordSize]?) (extract_eq_of_word_eq hsize hi hword)
    have hdecomp : j / wordSize * wordSize + j % wordSize = j := Nat.div_add_mod' j wordSize
    have hmod : j % wordSize < wordSize := Nat.mod_lt _ (by decide)
    have hfit := word_fits hi
    simp only [Array.getElem?_extract, Nat.add_sub_cancel_left, ← hsize, Nat.min_eq_left hfit,
      hmod, if_true, hdecomp] at hrange
    exact hrange
  · by_cases hsz : j < a.size
    · rw [tail, tail, Array.toList_inj] at htail
      have hrange := congrArg (·[j - a.wordCount * wordSize]?) htail
      have hdecomp : a.wordCount * wordSize + (j - a.wordCount * wordSize) = j := by omega
      have hin : j - a.wordCount * wordSize < a.size - a.wordCount * wordSize := by omega
      simp only [Array.getElem?_extract, ← hcount, ← hsize, Nat.min_self, hin, if_true,
        hdecomp] at hrange
      exact hrange
    · rw [Array.getElem?_eq_none (by omega), Array.getElem?_eq_none (by omega)]

/-- The stepped comparison is equality. -/
theorem sameKey_eq (a b : Bytes) : a.sameKey b = decide (a = b) := by
  apply Bool.eq_iff_iff.mpr
  simp only [sameKey, Bool.and_eq_true, beq_iff_eq, decide_eq_true_eq]
  constructor
  · rintro ⟨⟨hsize, hwords⟩, htail⟩
    exact eq_of_words_eq hsize hwords htail
  · rintro rfl
    exact ⟨⟨rfl, rfl⟩, rfl⟩

end RecordArena.Bytes
