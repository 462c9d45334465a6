import RecordArena.Proofs.PaddedKey.Equality

/-!
# Padding is ignored

Bytes that are padded with zeros to whole words have one hash and are told apart by the comparison,
however long the padding is. On regions of one length, padded or not, the comparison and the hash
agree, since both ignore what follows a zero word.

## Main statements

* `PaddedKey.paddedEq_padded_iff` – padded contents compare equal when they are equal.
* `PaddedKey.padding_ignored` – the laws of hash and comparison together.
-/

namespace RecordArena.PaddedKey

variable {s t : Bytes} {m n : Nat}

/-- Contents that fit into both buffers compare equal when they are equal. -/
theorem paddedEq_padded_iff (hs : ∀ x ∈ s, x ≠ 0) (ht : ∀ x ∈ t, x ≠ 0)
    (hm : max s.size t.size ≤ m) (hn : max s.size t.size ≤ n) (hmwhole : m % keyAlignment = 0)
    (hnwhole : n % keyAlignment = 0) : (padded s m).paddedEq (padded t n) = true ↔ s = t := by
  have hsm : (padded s m).size = m := size_padded (by omega)
  have htn : (padded t n).size = n := size_padded (by omega)
  let key : PaddedKey := ⟨padded s m, by rw [hsm, hmwhole]⟩
  let key' : PaddedKey := ⟨padded t n, by rw [htn, hnwhole]⟩
  have hcapacity : key.capacity = m := hsm
  have hcapacity' : key'.capacity = n := htn
  obtain ⟨hkey, hcontent⟩ := wellPadded_of_raw hs (show key.raw = _ by rw [hcapacity])
  obtain ⟨hkey', hcontent'⟩ := wellPadded_of_raw ht (show key'.raw = _ by rw [hcapacity'])
  have hiff := content_eq_iff hkey hkey'
  rw [len, len, hcontent, hcontent', hcapacity, hcapacity'] at hiff
  show (key == key') = true ↔ s = t
  rw [hiff]
  exact ⟨fun h => ⟨h, by omega, by omega⟩, fun h => h.1⟩

/-- Bytes that are padded to whole words have one hash however long the padding is, also when zeros
are among them. Those without zeros compare equal when they are equal. Regions of one length that
compare equal have equal hashes, and to compare equal is an equivalence among them. The hash of a
region is decided by its bytes up to the end of a zero word. -/
theorem padding_ignored :
    (∀ (s t : Bytes) (m n : Nat), m % 8 = 0 → n % 8 = 0 → max s.size t.size ≤ m →
      max s.size t.size ≤ n → (padded s m).keyHash = (padded s n).keyHash ∧
        ((∀ x ∈ s, x ≠ 0) → (∀ x ∈ t, x ≠ 0) →
          ((padded s m).paddedEq (padded t n) = true ↔ s = t))) ∧
    (∀ a b : Bytes, a.size = b.size → a.paddedEq b = true → a.keyHash = b.keyHash) ∧
    (∀ n, Equivalence fun a b : { b : Bytes // b.size = n } => a.1.paddedEq b.1 = true) ∧
    ∀ (a b : Bytes) (i : Nat), (∀ k < 8, a[8 * i + k]? = some 0) →
      (∀ j < 8 * (i + 1), a[j]? = b[j]?) → a.keyHash = b.keyHash := by
  refine ⟨?_, ?_, Bytes.paddedEq_equivalence, ?_⟩
  · intro s t m n hmwhole hnwhole hm hn
    constructor
    · exact keyHash_padded (by omega) (by omega) hmwhole hnwhole
    · intro hs ht
      exact paddedEq_padded_iff hs ht hm hn hmwhole hnwhole
  · intro a b hsize heq
    exact Bytes.keyHash_eq_of_significant ((Bytes.paddedEq_iff_of_size_eq hsize).mp heq)
  · intro a b i hzero hagree
    rw [Nat.mul_comm] at hagree
    refine Bytes.keyHash_eq_of_significant (Bytes.significant_eq_of_zero (i := i) ?_ hagree)
    intro k hk
    rw [Nat.mul_comm]
    exact hzero k hk

/-- A zero before the padding, contents of one byte in two lengths, and regions that differ behind
a zero word. -/
theorem padding_ignored_behind_zero :
    (padded #[65, 0, 66] 8).keyHash = (padded #[65, 0, 66] 24).keyHash ∧
    (padded #[65] 8).paddedEq (padded #[65] 16) = true ∧
    (padded #[65] 8).paddedEq (padded #[66] 16) = false ∧
    (Bytes.zeros 8 ++ #[1] : Bytes).paddedEq (Bytes.zeros 8 ++ #[2]) = true ∧
    (Bytes.zeros 8 ++ #[1] : Bytes).keyHash = (Bytes.zeros 8 ++ #[2] : Bytes).keyHash ∧
    (Bytes.zeros 8 ++ #[1] : Bytes).keyHash = (Bytes.zeros 8 ++ #[2, 3] : Bytes).keyHash := by
  obtain ⟨hpadded, hequal, -, hzero⟩ := padding_ignored
  obtain ⟨hhash, -⟩ := hpadded #[65, 0, 66] #[] 8 24 rfl rfl (by decide) (by decide)
  obtain ⟨-, hsame⟩ := hpadded #[65] #[65] 8 16 rfl rfl (by decide) (by decide)
  obtain ⟨-, hdiffers⟩ := hpadded #[65] #[66] 8 16 rfl rfl (by decide) (by decide)
  have heq : (Bytes.zeros 8 ++ #[1] : Bytes).paddedEq (Bytes.zeros 8 ++ #[2]) = true := by
    decide +kernel
  refine ⟨hhash, (hsame (by simp) (by simp)).mpr rfl, ?_, heq, hequal _ _ rfl heq, ?_⟩
  · rw [Bool.eq_false_iff, Ne, hdiffers (by simp) (by simp)]
    decide
  · exact hzero _ _ 0 (by decide) (by decide)

end RecordArena.PaddedKey
