import RecordArena.Proofs.KeyIndex.IndexSet
import RecordArena.Proofs.Slab.Sound

/-!
# Removal after a record was rewritten

A registered record may be written over before its index is removed, as long as a copy of its old
key is at hand. At the moment of the removal the table holds one index that no probe from its
present key would meet. The copy leads to it all the same, and closing the hole reads the keys of
the other records only, so the removal does what it would have done before the record was written.

## Main definitions

* `Slab.Rewritten` – only the key of one record may have changed.

## Main statements

* `Slab.Shaped.rewritten` – writing any bytes to the record is such a change.
* `KeyIndex.Exact.removeIndexAs_rewritten` – the removal is the one before the change.
* `KeyIndex.Tracks.removed_by_copy` – the removal, and what it leaves, after any run.
-/

namespace RecordArena

namespace Slab

/-- The slab may have changed in any way that leaves the keys of `S`, save that of `index`. -/
structure Rewritten (S : Finset UInt32) (index : UInt32) (s s' : Slab) : Prop where
  steps : Relation.ReflTransGen Step s s'
  keyAt_eq : ∀ other ∈ S, other ≠ index → s'.keyAt other = s.keyAt other

variable {s s' : Slab} {S : Finset UInt32} {index : UInt32}

/-- A write leaves the keys of all other records. -/
theorem Shaped.keyAt_write (hs : s.Shaped) {src : Bytes} (hwrite : s.write index src = .ok s')
    {other : UInt32} (hpage : s.HasPage other) (hne : other ≠ index) :
    s'.keyAt other = s.keyAt other := by
  have hextends := (Step.write (s.place index) src hwrite).extends
  have hbytes := hs.bytesOf_write hwrite other
  rw [if_neg hne] at hbytes
  rw [(hextends.shaped hs).keyAt_eq (hextends.hasPage hpage), hs.keyAt_eq hpage,
    hextends.layout_eq, hbytes]

/-- Any bytes can be written over a record, and that is one change of its key at most. -/
theorem Shaped.rewritten (hs : s.Shaped) (hpages : ∀ other ∈ S, s.HasPage other)
    (hindex : index ∈ S) {src : Bytes} (hsrc : src.size ≤ s.layout.size) :
    ∃ s', s.write index src = .ok s' ∧
      s'.record index = .ok ((s.bytesOf index).overwrite 0 src.toList) ∧
      s.Rewritten S index s' := by
  obtain ⟨s', hwrite⟩ := hs.write_isOk (hpages index hindex) hsrc
  have hstep : s.Step s' := .write (s.place index) src hwrite
  have hextends := hstep.extends
  have hbytes := hs.bytesOf_write hwrite index
  rw [if_pos rfl] at hbytes
  refine ⟨s', hwrite, ?_, .single hstep, ?_⟩
  · rw [(hextends.shaped hs).record_bytesOf (hextends.hasPage (hpages index hindex)), hbytes]
  · intro other hother hne
    exact hs.keyAt_write hwrite (hpages other hother) hne

end Slab

namespace KeyIndex

variable {s s' : Slab} {x : KeyIndex} {S : Finset UInt32} {index : UInt32}

/-- A removal by a view that is too short, or of an index that is not registered, does nothing. -/
theorem Backed.removeIndexAs_none (h : Backed s x) {view : Bytes}
    (hnone : view.size < s.layout.size ∨ index ∉ x.indices) :
    x.removeIndexAs s index view = .ok (false, x) := by
  rw [removeIndexAs, RecordLayout.key?_eq h.shaped.valid]
  split
  · rfl
  · next hsize =>
    have hnotmem := hnone.resolve_left hsize
    obtain ⟨r, hrun, hprobe⟩ := h.locateIndex index (s.layout.hashKey (s.layout.keyIn view))
    cases r with
    | vacant slot =>
      change x.removeIndexHashed s index (s.layout.hashKey (s.layout.keyIn view)) = _
      rw [KeyIndex.removeIndexHashed, hrun]
      rfl
    | found slot i =>
      -- a probe for an index ends at no other
      obtain rfl : i = index := eq_of_beq hprobe.2.2.2
      exact (hnotmem (mem_indices hprobe.1 hprobe.2.2.1)).elim

namespace Exact

/-- Taking an index out of its slot reads the keys of the other indices only. -/
theorem take_congr (h : Exact s x S) (hs : s.Rewritten S index s') {slot : Nat}
    (hslot : slot < x.table.capacity) (hentry : Slots.entryAt x.table.slots slot = some index) :
    x.table.take s'.keyHash slot = x.table.take s.keyHash slot := by
  apply Table.take_congr
  intro other hother
  have hextends := Slab.Extends.of_steps hs.steps
  have hperm := Arrangement.entries_clear hslot hentry
  obtain ⟨hnotmem, -⟩ := List.nodup_cons.mp (hperm.nodup_iff.mp h.nodup)
  have hne : other ≠ index := fun heq => hnotmem (heq ▸ hother)
  have hmem : other ∈ x.indices := hperm.mem_iff.mpr (List.mem_cons_of_mem _ hother)
  have hpage := h.hasPage other hmem
  rw [(hextends.shaped h.shaped).keyHash_eq (hextends.hasPage hpage), h.shaped.keyHash_eq hpage,
    hextends.layout_eq, hs.keyAt_eq other ((h.mem_iff other).mp hmem) hne]

/-- The removal by a copy is the one that it would have been before the record was rewritten. -/
theorem removeIndexAs_rewritten (h : Exact s x S) (hs : s.Rewritten S index s') (view : Bytes) :
    x.removeIndexAs s' index view = x.removeIndexAs s index view := by
  have hextends := Slab.Extends.of_steps hs.steps
  obtain ⟨r, hrun, hprobe⟩ := h.toBacked.locateIndex index (s.layout.hashKey (s.layout.keyIn view))
  have htake : x.takeFound s' r.found? = x.takeFound s r.found? := by
    cases r with
    | vacant slot => rfl
    | found slot i =>
      obtain rfl : i = index := eq_of_beq hprobe.2.2.2
      have htake : x.table.take s'.keyHash slot = x.table.take s.keyHash slot :=
        h.take_congr hs hprobe.1 hprobe.2.2.1
      simp only [ProbeEnd.found?, takeFound, htake]
  rw [removeIndexAs, removeIndexAs, hextends.layout_eq, RecordLayout.key?_eq h.shaped.valid]
  split
  · rfl
  · simp only [ok_bind, removeIndexHashed, hrun, htake]

end Exact

namespace Tracks

variable {config : TableConfig}

/-- Every registered record is found by its key and can be removed by its index. -/
theorem found_and_removed (h : Tracks config s x S) {other : UInt32} (hother : other ∈ S) :
    (∃ found ∈ S, x.find s (s.keyAt other) = .ok (some found) ∧
      s.keyAt found = s.keyAt other) ∧ ∃ x', x.removeIndex s other = .ok (true, x') := by
  have hexact := h.exact
  have hpage := hexact.hasPage other ((hexact.mem_iff other).mpr hother)
  constructor
  · obtain ⟨-, found, hfind, hkey⟩ := hexact.findable hother
    obtain ⟨answer, hrun, hdoes⟩ := hexact.toBacked.findHashed (s.keyAt other) (s.hashAt other)
    have hhash : (IndexRequest.find (s.keyAt other) (s.hashAt other)).WellHashed s := rfl
    have hanswers := hexact.answers hhash hdoes
    cases hfind.symm.trans hrun
    exact ⟨found, hanswers.1, hfind, hkey⟩
  · obtain ⟨removed, x', hrun, hdoes, -⟩ :=
      hexact.toBacked.removeIndexHashed other (s.hashAt other)
    have hhash : (IndexRequest.removeIndex other (s.hashAt other)).WellHashed s := rfl
    have hremoved : removed = decide (other ∈ S) := hexact.answers hhash hdoes
    refine ⟨x', ?_⟩
    rw [removeIndex, hexact.shaped.keyHash_eq hpage, ok_bind, ← Slab.hashAt, hrun, hremoved,
      decide_eq_true hother]

/-- A registered index is removed by a copy of its record, and nothing but that is changed. -/
theorem removeIndexAs (h : Tracks config s x S) (hindex : index ∈ S) {view : Bytes}
    (hsize : s.layout.size ≤ view.size) (hkey : s.layout.keyIn view = s.keyAt index) :
    ∃ x', x.removeIndexAs s index view = .ok (true, x') ∧ x.indices.Perm (index :: x'.indices) ∧
      Tracks config s x' (S.erase index) := by
  have hexact := h.exact
  have hfaithful : (IndexCall.removeIndexAs index view).Faithful s :=
    ⟨hexact.hasPage index ((hexact.mem_iff index).mpr hindex), hsize, hkey⟩
  obtain ⟨answer, x', hrun, hdoes, hanswers, -⟩ := hexact.perform hfaithful
  have htracks := h.call hfaithful hrun
  obtain ⟨⟨removed, x₁⟩, hremove, hdone⟩ := bind_eq_ok hrun
  cases hdone
  have hchanges := hdoes.changes
  rw [IndexCall.request, if_neg (Nat.not_lt.mpr hsize)] at hanswers htracks hchanges
  obtain rfl : removed = true := hanswers.trans (decide_eq_true hindex)
  exact ⟨x', mapError_eq_ok hremove, hchanges, htracks⟩

/-- A record may be written over before its index is removed. Any bytes can be written; the removal
by a copy of the old record is answered with yes, takes that index alone and leaves all others to be
found by their keys and removed by their indices. A removal by a view that is too short, or of an
index that is not registered, is answered with no and does nothing. -/
theorem removed_by_copy (h : Tracks config s x S) (index : UInt32) :
    (index ∈ S → ∀ src : Bytes, src.size ≤ s.layout.size → ∃ s', s.write index src = .ok s' ∧
      s'.record index = .ok ((s.bytesOf index).overwrite 0 src.toList) ∧
      s.Rewritten S index s') ∧
    ∀ s', s.Rewritten S index s' →
      (∀ (other : UInt32) (view : Bytes), view.size < s.layout.size ∨ other ∉ S →
        x.removeIndexAs s' other view = .ok (false, x)) ∧
      ∀ view : Bytes, index ∈ S → s.layout.size ≤ view.size →
        s.layout.keyIn view = s.keyAt index →
        ∃ x', x.removeIndexAs s' index view = .ok (true, x') ∧
          x.indices.Perm (index :: x'.indices) ∧ Tracks config s' x' (S.erase index) ∧
          ∀ other ∈ S, other ≠ index →
            (∃ found ∈ S, found ≠ index ∧ x'.find s' (s.keyAt other) = .ok (some found) ∧
              s'.keyAt found = s.keyAt other) ∧
            ∃ x'', x'.removeIndex s' other = .ok (true, x'') := by
  have hexact := h.exact
  constructor
  · intro hindex src hsrc
    exact hexact.shaped.rewritten
      (fun other hother => hexact.hasPage other ((hexact.mem_iff other).mpr hother)) hindex hsrc
  intro s' hs
  have hextends := Slab.Extends.of_steps hs.steps
  constructor
  · intro other view hnone
    apply (hexact.toBacked.extend hextends).removeIndexAs_none
    rwa [hextends.layout_eq, hexact.mem_iff]
  intro view hindex hsize hkey
  obtain ⟨x', hremove, hperm, htracks⟩ := h.removeIndexAs hindex hsize hkey
  -- without the removed index, the keys of all registered records are as they were
  have htracks' : Tracks config s' x' (S.erase index) := by
    refine htracks.slab hs.steps fun other hother => ?_
    obtain ⟨hne, hmem⟩ := Finset.mem_erase.mp hother
    exact hs.keyAt_eq other hmem hne
  refine ⟨x', (hexact.removeIndexAs_rewritten hs view).trans hremove, hperm, htracks', ?_⟩
  intro other hother hne
  rw [← hs.keyAt_eq other hother hne]
  obtain ⟨⟨found, hfound, hfind, hkey'⟩, hremoved⟩ :=
    htracks'.found_and_removed (Finset.mem_erase.mpr ⟨hne, hother⟩)
  obtain ⟨hne', hmem⟩ := Finset.mem_erase.mp hfound
  exact ⟨⟨found, hmem, hne', hfind, hkey'⟩, hremoved⟩

/-- Of two registered records with one key, the first is written over and then removed by a copy.
The key is still found, at the second. -/
theorem removed_by_copy_same_key : ∃ s s' x x', Tracks {} s x {1, 0} ∧ s.keyAt 0 = s.keyAt 1 ∧
    s.write 0 #[7, 7] = .ok s' ∧ s'.keyAt 0 ≠ s.keyAt 0 ∧
    x.removeIndexAs s' 0 (Bytes.zeros 4) = .ok (false, x) ∧
    x.removeIndexAs s' 0 (Bytes.zeros 8) = .ok (true, x') ∧
    x'.find s' (Bytes.zeros 8) = .ok (some 1) := by
  obtain ⟨s, hs, hpage₀, hpage₁, hsize, hview, hkey₀, hkey₁, hrewrite⟩ :
      ∃ s, (Slab.new { size := 8 } { pageSize := 2, initialPages := 1 } .heap).outcome = .ok s ∧
        s.HasPage 0 ∧ s.HasPage 1 ∧ s.layout.size = 8 ∧
        s.layout.keyIn (Bytes.zeros 8) = Bytes.zeros 8 ∧ s.keyAt 0 = Bytes.zeros 8 ∧
        s.keyAt 1 = Bytes.zeros 8 ∧
        (fun s' => decide (s'.keyAt 0 = s.keyAt 0)) <$> s.write 0 #[7, 7] = .ok false :=
    ⟨_, rfl, rfl, rfl, rfl, by decide +kernel, by decide +kernel, by decide +kernel,
      by decide +kernel⟩
  obtain ⟨x₀, hx⟩ : ∃ x, KeyIndex.new {} = .ok x := ⟨_, rfl⟩
  have h₀ : Tracks {} s x₀ ∅ := .new hs hx
  have hfaithful₀ : (IndexCall.insert 0).Faithful s := ⟨hpage₀, by decide⟩
  have hfaithful₁ : (IndexCall.insert 1).Faithful s := ⟨hpage₁, by decide⟩
  obtain ⟨answer₀, x₁, hrun₀, -⟩ := h₀.exact.perform hfaithful₀
  have h₁ := h₀.call hfaithful₀ hrun₀
  obtain ⟨answer₁, x, hrun₁, -⟩ := h₁.exact.perform hfaithful₁
  have h : Tracks {} s x {1, 0} := h₁.call hfaithful₁ hrun₁
  obtain ⟨hwrites, hremoves⟩ := removed_by_copy h 0
  obtain ⟨s', hwrite, -, hs'⟩ := hwrites (by decide) #[7, 7] (by rw [hsize]; decide)
  obtain ⟨hnone, hcopy⟩ := hremoves s' hs'
  obtain ⟨x', hremove, -, -, hothers⟩ :=
    hcopy (Bytes.zeros 8) (by decide) hsize.le (hview.trans hkey₀.symm)
  -- what is left with the key can only be the second record
  obtain ⟨⟨found, hfound, hne, hfind, -⟩, -⟩ := hothers 1 (by decide) (by decide)
  obtain rfl : found = 1 := by
    rcases Finset.mem_insert.mp hfound with heq | hzero
    · exact heq
    · exact (hne (Finset.mem_singleton.mp hzero)).elim
  rw [hwrite, ok_map] at hrewrite
  refine ⟨s, s', x, x', h, hkey₀.trans hkey₁.symm, hwrite, ?_, hnone 0 _ (.inl ?_), hremove, ?_⟩
  · exact of_decide_eq_false (Except.ok.inj hrewrite)
  · rw [hsize]
    decide
  · rwa [← hkey₁]

end Tracks

end KeyIndex

end RecordArena
