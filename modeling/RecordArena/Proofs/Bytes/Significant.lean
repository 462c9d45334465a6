import RecordArena.Proofs.Bytes.Words

/-!
# The significant part of a region

Hash and comparison of keys both stop at a zero word. What they have read by then is the
significant part of a region: the words before the first zero word and, when no word is zero, the
tail. The hash is a function of it, and the comparison is its equality over the shorter length,
whether the regions are padded or not. Of padded regions the rest is zero, so that no difference is
missed.

## Main definitions

* `Bytes.significant` – the words and the bytes that are not ignored.

## Main statements

* `Bytes.keyHash_eq_of_significant` – the hash is a function of the significant part.
* `Bytes.paddedEq_iff_significant` – the comparison is equality of the significant parts.
* `Bytes.paddedEq_iff` – padded regions compare equal when they agree over the shorter length.
* `Bytes.significant_eq_of_zero` – the bytes up to a zero word decide.
-/

namespace RecordArena

/-- The words before the first zero word and, when no word is zero, the bytes that follow. -/
def beforeZero (words : List UInt64) (tail : List UInt8) : List UInt64 × List UInt8 :=
  (words.takeWhile (· ≠ 0), if 0 ∈ words then [] else tail)

section

variable {v w : UInt64} {vs ws : List UInt64} {s t : List UInt8}

@[simp] theorem beforeZero_nil (s : List UInt8) : beforeZero [] s = ([], s) := rfl

@[simp] theorem beforeZero_zero_cons (vs : List UInt64) (s : List UInt8) :
    beforeZero (0 :: vs) s = ([], []) := by
  simp [beforeZero]

@[simp] theorem beforeZero_cons (hv : v ≠ 0) (vs : List UInt64) (s : List UInt8) :
    beforeZero (v :: vs) s = (v :: (beforeZero vs s).1, (beforeZero vs s).2) := by
  simp [beforeZero, hv, Ne.symm hv]

/-- Nothing that follows a zero word is significant. -/
theorem beforeZero_append (hzero : 0 ∈ vs) : beforeZero (vs ++ ws) s = beforeZero vs [] := by
  induction vs with
  | nil => cases hzero
  | cons v vs ih =>
    by_cases hv : v = 0
    · simp [hv]
    · have hrest : 0 ∈ vs := (List.mem_cons.mp hzero).resolve_left (Ne.symm hv)
      simp [hv, ih hrest]

/-- The words up to a zero word decide as the significant parts do. -/
theorem agreeUpToZero_iff_beforeZero (hlen : vs.length = ws.length) :
    Bytes.agreeUpToZero (s == t) vs ws = true ↔ beforeZero vs s = beforeZero ws t := by
  induction vs generalizing ws with
  | nil =>
    obtain rfl := List.length_eq_zero_iff.mp hlen.symm
    simp [Bytes.agreeUpToZero]
  | cons v vs ih =>
    obtain _ | ⟨w, ws⟩ := ws
    · cases hlen
    rw [Bytes.agreeUpToZero]
    by_cases heq : v = w
    · subst heq
      by_cases hzero : v = 0
      · simp [hzero]
      · simp [hzero, ih (Nat.succ.inj hlen), Prod.ext_iff]
    · rw [if_pos heq]
      -- a zero word ends one of the two, and otherwise their first words differ
      by_cases hv : v = 0
      · have hw : w ≠ 0 := fun hw => heq (hv.trans hw.symm)
        simp [hv, hw]
      · by_cases hw : w = 0
        · simp [hv, hw]
        · simp [hv, hw, heq]

/-- When only zeros follow a zero, nothing is lost with what follows the first of them. -/
theorem eq_of_beforeZero_eq (hlen : vs.length = ws.length)
    (hvs : vs.Pairwise fun v w => v = 0 → w = 0) (hws : ws.Pairwise fun v w => v = 0 → w = 0)
    (h : beforeZero vs s = beforeZero ws t) : vs = ws := by
  induction vs generalizing ws with
  | nil => exact (List.length_eq_zero_iff.mp hlen.symm).symm
  | cons v vs ih =>
    obtain _ | ⟨w, ws⟩ := ws
    · cases hlen
    rw [List.pairwise_cons] at hvs hws
    have hrest : vs.length = ws.length := Nat.succ.inj hlen
    by_cases hv : v = 0
    · have hw : w = 0 := by
        by_contra hw
        simp [hv, hw] at h
      -- all words that follow are zero on both sides
      rw [List.eq_replicate_iff.mpr ⟨rfl, fun x hx => hvs.1 x hx hv⟩,
        List.eq_replicate_iff.mpr ⟨rfl, fun x hx => hws.1 x hx hw⟩, hrest, hv, hw]
    · have hw : w ≠ 0 := by
        rintro rfl
        simp [hv] at h
      simp only [beforeZero_cons hv, beforeZero_cons hw, Prod.mk.injEq, List.cons.injEq] at h
      rw [h.1.1, ih hrest hvs.2 hws.2 (Prod.ext h.1.2 h.2)]

theorem KeyHash.fold_eq (hash : Int32) (words : List UInt64) (tail : List UInt8) :
    fold hash words tail =
      (beforeZero words tail).2.foldl foldByte ((beforeZero words tail).1.foldl foldWord hash) := by
  induction words generalizing hash with
  | nil => rfl
  | cons word words ih =>
    by_cases hzero : word = 0
    · simp [fold, hzero]
    · simp [fold, hzero, ih]

end

namespace Bytes

variable {a b : Bytes}

/-- The part of a region that its hash depends on. -/
def significant (b : Bytes) : List UInt64 × List UInt8 := beforeZero b.words b.tail

theorem keyHash_eq_of_significant (h : a.significant = b.significant) : a.keyHash = b.keyHash := by
  rw [significant, significant] at h
  rw [keyHash, keyHash, KeyHash.fold_eq, KeyHash.fold_eq, h]

theorem length_words (hsize : a.size = b.size) : a.words.length = b.words.length := by
  rw [words, words, List.length_map, List.length_map, wordCount, wordCount, hsize]

theorem size_extract_min (a b : Bytes) :
    (a.extract 0 (min a.size b.size)).size = (b.extract 0 (min a.size b.size)).size := by
  rw [Array.size_extract, Array.size_extract]
  omega

/-- Regions compare equal when over the shorter length their significant parts are equal. -/
theorem paddedEq_iff_significant :
    a.paddedEq b = true ↔ significant (a.extract 0 (min a.size b.size)) =
      significant (b.extract 0 (min a.size b.size)) :=
  agreeUpToZero_iff_beforeZero (length_words (size_extract_min a b))

/-- Regions of one length compare equal when their significant parts are equal. -/
theorem paddedEq_iff_of_size_eq (hsize : a.size = b.size) :
    a.paddedEq b = true ↔ a.significant = b.significant := by
  have ha : a.extract 0 (min a.size b.size) = a := Array.extract_eq_self_of_le (by omega)
  have hb : b.extract 0 (min a.size b.size) = b := Array.extract_eq_self_of_le (by omega)
  rw [paddedEq_iff_significant, ha, hb]

/-- All of a padded region of whole words can be told from its significant part and its length. -/
theorem ZerosLast.eq_of_significant_eq (ha : a.ZerosLast) (hb : b.ZerosLast)
    (hsize : a.size = b.size) (hwhole : a.size % wordSize = 0)
    (h : a.significant = b.significant) : a = b := by
  rw [← words_inj hsize hwhole]
  exact eq_of_beforeZero_eq (length_words hsize) ha.words hb.words h

/-- Padded regions of whole words compare equal when they agree over the shorter length. -/
theorem paddedEq_iff (ha : a.ZerosLast) (hb : b.ZerosLast) (hasize : a.size % wordSize = 0)
    (hbsize : b.size % wordSize = 0) :
    a.paddedEq b = true ↔
      a.extract 0 (min a.size b.size) = b.extract 0 (min a.size b.size) := by
  have hwhole : (a.extract 0 (min a.size b.size)).size % wordSize = 0 := by
    rw [Array.size_extract]
    rcases Nat.le_total a.size b.size with h | h
    · rwa [Nat.min_eq_left h, Nat.min_self]
    · rwa [Nat.min_eq_right h, Nat.min_eq_left h]
  rw [paddedEq_iff_significant]
  constructor
  · exact (ha.extract _).eq_of_significant_eq (hb.extract _) (size_extract_min a b) hwhole
  · intro h
    rw [h]

/-- On regions of one length, comparing equal is an equivalence. -/
theorem paddedEq_equivalence (n : Nat) :
    Equivalence fun a b : { b : Bytes // b.size = n } => a.1.paddedEq b.1 = true := by
  have hiff : ∀ a b : { b : Bytes // b.size = n },
      a.1.paddedEq b.1 = true ↔ a.1.significant = b.1.significant := fun a b =>
    paddedEq_iff_of_size_eq (a.2.trans b.2.symm)
  simp only [hiff]
  exact ⟨fun _ => rfl, fun h => h.symm, fun h h' => h.trans h'⟩

/-- A region whose front of whole words has a zero word is as significant as that front. -/
theorem significant_of_front {n : Nat} (hfit : n * wordSize ≤ b.size)
    (hzero : 0 ∈ words (b.extract 0 (n * wordSize))) :
    b.significant = beforeZero (words (b.extract 0 (n * wordSize))) [] := by
  rw [significant, words_split hfit, beforeZero_append hzero]

/-- A zero word and what precedes it decide what is significant. -/
theorem significant_eq_of_zero {i : Nat} (hzero : ∀ k < wordSize, a[i * wordSize + k]? = some 0)
    (hagree : ∀ j < (i + 1) * wordSize, a[j]? = b[j]?) : a.significant = b.significant := by
  have hlast : (i + 1) * wordSize = i * wordSize + 7 + 1 := by
    rw [wordSize]
    omega
  -- the last byte of the zero word is there on both sides
  have hsome : a[i * wordSize + 7]? = some 0 := hzero 7 (by decide)
  have hasize : (i + 1) * wordSize ≤ a.size := by
    rw [hlast]
    exact (Array.getElem?_eq_some_iff.mp hsome).1
  have hbsize : (i + 1) * wordSize ≤ b.size := by
    rw [hagree _ (by omega)] at hsome
    rw [hlast]
    exact (Array.getElem?_eq_some_iff.mp hsome).1
  have hfront : a.extract 0 ((i + 1) * wordSize) = b.extract 0 ((i + 1) * wordSize) := by
    apply Array.ext_getElem?
    intro j
    rw [Array.getElem?_extract, Array.getElem?_extract, Nat.min_eq_left hasize,
      Nat.min_eq_left hbsize, Nat.zero_add]
    split
    · next hj => exact hagree j hj
    · rfl
  have hword : word (a.extract 0 ((i + 1) * wordSize)) i = 0 := by
    rw [word_eq_zero_iff]
    intro k hk
    rw [getD_extract a (by rw [wordSize] at hk; omega), Array.getD_eq_getD_getElem?, hzero k hk]
    rfl
  have hmem : 0 ∈ words (a.extract 0 ((i + 1) * wordSize)) := by
    have hcount : wordCount (a.extract 0 ((i + 1) * wordSize)) = i + 1 := by
      rw [wordCount, Array.size_extract, Nat.min_eq_left hasize, Nat.sub_zero,
        Nat.mul_div_cancel _ (by decide)]
    rw [words, hcount]
    exact List.mem_map.mpr ⟨i, List.mem_range.mpr (Nat.lt_succ_self i), hword⟩
  rw [significant_of_front hasize hmem, significant_of_front hbsize (hfront ▸ hmem), hfront]

end Bytes

end RecordArena
