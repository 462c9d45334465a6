import RecordArena.Proofs.KeyIndex.Stale

/-!
# Key indexes as sets of indices

While the keys of registered records stay as they are, a key index is a set of slab indices. Any
number of registered records may carry the same key: a search finds one of them as long as one is
left, and removing one hides none of the others.

## Main definitions

* `KeyIndex.Exact` – the table holds the indices of a finite set, each once and each reached.
* `KeyIndex.Tracks` – runs with the set of the indices that are registered.

## Main statements

* `KeyIndex.Exact.answers`, `KeyIndex.Exact.track` – a request answers as a set does, and what it
  leaves is the set that the answer says.
* `KeyIndex.Tracks.set_semantics` – both, after any run.
-/

namespace RecordArena

theorem card_indices_le (S : Finset UInt32) : S.card ≤ 2 ^ 32 := by
  have hle : S.card ≤ (Finset.range (2 ^ 32)).card :=
    Finset.card_le_card_of_injOn UInt32.toNat
      (fun i _ => Finset.mem_coe.mpr (Finset.mem_range.mpr i.toNat_lt))
      (fun i _ j _ h => UInt32.toNat_inj.mp h)
  rwa [Finset.card_range] at hle

/-- Calls by index are about pages that are there, and a hash that a call brings along is the one
of its key. -/
def IndexCall.Faithful (s : Slab) : IndexCall → Prop
  | insert index => s.HasPage index ∧ index ≠ Cells.vacantMark
  | findHashed key hash => hash = s.layout.hashKey key
  | removeKeyHashed key hash => hash = s.layout.hashKey key
  | removeIndex index => s.HasPage index
  | removeIndexAs index view =>
    s.HasPage index ∧ s.layout.size ≤ view.size ∧ s.layout.keyIn view = s.keyAt index
  | _ => True

namespace IndexRequest

/-- The set of registered indices after a request. -/
def track (S : Finset UInt32) (request : IndexRequest) (answer : IndexAnswer) : Finset UInt32 :=
  match request with
  | insert index => Insert.insert index S
  | request =>
    match request.removed answer with
    | some index => S.erase index
    | none => S

/-- What a set of indices answers to a request. A key that several records have may be answered by
any of them. -/
def Answers (s : Slab) (S : Finset UInt32) : IndexRequest → IndexAnswer → Prop
  | insert _, .done => True
  | find key _, .index (some index) => index ∈ S ∧ s.keyAt index = key
  | find key _, .index none => ∀ index ∈ S, s.keyAt index ≠ key
  | removeKey key _, .index (some index) => index ∈ S ∧ s.keyAt index = key
  | removeKey key _, .index none => ∀ index ∈ S, s.keyAt index ≠ key
  | removeIndex index _, .flag removed => removed = decide (index ∈ S)
  | keyless answer, answer' => answer' = answer
  | _, _ => False

/-- The hash of a request is the one of its key, or of the key that the record has. -/
def WellHashed (s : Slab) : IndexRequest → Prop
  | find key hash => hash = s.layout.hashKey key
  | removeKey key hash => hash = s.layout.hashKey key
  | removeIndex index hash => hash = s.hashAt index
  | _ => True

end IndexRequest

theorem IndexCall.Faithful.wellHashed {s : Slab} {call : IndexCall} (h : call.Faithful s) :
    (call.request s).WellHashed s := by
  cases call with
  | insert index => exact trivial
  | find key => exact rfl
  | findHashed key hash => exact h
  | findRecord view =>
    rw [IndexCall.request]
    split
    · exact trivial
    · exact rfl
  | removeKey key => exact rfl
  | removeKeyHashed key hash => exact h
  | removeKeyOf view =>
    rw [IndexCall.request]
    split
    · exact trivial
    · exact rfl
  | removeIndex index => exact rfl
  | removeIndexAs index view =>
    rw [IndexCall.request, if_neg (Nat.not_lt.mpr h.2.1)]
    exact congrArg s.layout.hashKey h.2.2

namespace KeyIndex

/-- The table holds the indices of `S`, each once, and each is met on the probe path of its key. -/
structure Exact (s : Slab) (x : KeyIndex) (S : Finset UInt32) : Prop extends Backed s x where
  capacity_le : x.table.capacity ≤ 2 ^ 49
  reached : x.table.Reached s.hashAt
  nodup : x.indices.Nodup
  mem_iff : ∀ index, index ∈ x.indices ↔ index ∈ S

namespace Exact

variable {s : Slab} {x x' : KeyIndex} {S : Finset UInt32} {r : ProbeEnd UInt32} {index : UInt32}

theorem len_eq (h : Exact s x S) : x.len = S.card := by
  have heq : x.indices.toFinset = S := by
    ext index
    rw [List.mem_toFinset, h.mem_iff]
  rw [← heq, List.toFinset_card_of_nodup h.nodup]
  exact h.tallied.count_eq

theorem len_lt (h : Exact s x S) : x.len < Numeric.maxCount := by
  have hcard := card_indices_le S
  rw [h.len_eq, Numeric.maxCount]
  omega

/-- A probe by the right hash that ends at a vacant slot rules every index out. -/
theorem no_match (h : Exact s x S) {isMatch : UInt32 → Bool} {hash : Int32} {slot : Nat}
    (hprobe : x.Probed isMatch hash (.vacant slot)) (hindex : index ∈ S)
    (hhash : s.hashAt index = hash) : isMatch index = false := by
  obtain ⟨k, hk⟩ := h.tallied.capacity_eq
  exact hprobe.no_match h.reached (homeSlot_lt hk hash) ((h.mem_iff index).mpr hindex)
    (by rw [Table.homes, hhash])

/-- A search finds an index with the key as long as there is one. -/
theorem find_iff (h : Exact s x S) {key : Bytes}
    (hprobe : x.Probed (fun i => decide (s.keyAt i = key)) (s.layout.hashKey key) r) :
    match r.index? with
    | some index => index ∈ S ∧ s.keyAt index = key
    | none => ∀ index ∈ S, s.keyAt index ≠ key := by
  cases hr : r.index? with
  | some index =>
    obtain ⟨hmem, hkey⟩ := hprobe.keyAt_eq hr
    exact ⟨(h.mem_iff index).mp hmem, hkey⟩
  | none =>
    cases r with
    | found slot i => cases hr
    | vacant slot =>
      intro index hindex hkey
      have hno := h.no_match hprobe hindex (by rw [Slab.hashAt, hkey])
      exact of_decide_eq_false hno hkey

theorem locate_iff (h : Exact s x S) (hprobe : x.Probed (· == index) (s.hashAt index) r) :
    r.index?.isSome = decide (index ∈ S) := by
  cases r with
  | found slot i =>
    obtain rfl : i = index := eq_of_beq hprobe.2.2.2
    exact (decide_eq_true ((h.mem_iff i).mp (Backed.mem_indices hprobe.1 hprobe.2.2.1))).symm
  | vacant slot =>
    refine (decide_eq_false fun hindex => ?_).symm
    have hno := h.no_match hprobe hindex rfl
    rw [beq_self_eq_true] at hno
    cases hno

/-- A request answers as the set of registered indices does. -/
theorem answers (h : Exact s x S) {request : IndexRequest} {answer : IndexAnswer}
    (hhash : request.WellHashed s) (hdoes : request.Does s x answer x') :
    request.Answers s S answer := by
  cases hdoes with
  | insert hinserted => exact trivial
  | @find key hash r hprobe =>
    obtain rfl : hash = s.layout.hashKey key := hhash
    have hfind := h.find_iff hprobe
    cases hr : r.index? with
    | some index => rwa [hr] at hfind
    | none => rwa [hr] at hfind
  | @removeKey key hash r x' hfind hprobe hremoved =>
    obtain rfl : hash = s.layout.hashKey key := hhash
    have hfind := h.find_iff hprobe
    cases hr : r.index? with
    | some index => rwa [hr] at hfind
    | none => rwa [hr] at hfind
  | @removeIndex index hash r x' hlocate hprobe hremoved =>
    obtain rfl : hash = s.hashAt index := hhash
    exact h.locate_iff hprobe
  | keyless answer => exact rfl

/-- A key of another width is never found. -/
theorem find_width (h : Exact s x S) {key : Bytes} (hsize : key.size ≠ s.layout.keyLen) :
    x.find s key = .ok none := by
  obtain ⟨found, hrun, hdoes⟩ := h.toBacked.findHashed key (s.layout.hashKey key)
  cases found with
  | none => exact hrun
  | some index =>
    have hhash : (IndexRequest.find key (s.layout.hashKey key)).WellHashed s := rfl
    obtain ⟨hindex, hkey⟩ := h.answers hhash hdoes
    have hwidth := h.shaped.size_keyAt (h.hasPage index ((h.mem_iff index).mpr hindex))
    rw [hkey] at hwidth
    exact (hsize hwidth).elim

/-- A registered index is one element more, unless it was one before. -/
theorem insert (h : Exact s x S) (hinserted : x.Inserted s index x') (hbacked : Backed s x') :
    Exact s x' (Insert.insert index S) := by
  cases hinserted with
  | present hmeets =>
    rwa [Finset.insert_eq_of_mem ((h.mem_iff index).mp hmeets.mem_entries)]
  | @added slot t' hprobe hmark hsettled =>
    have hslot : slot < x.table.capacity := hprobe.1
    have hvacant : Slots.entryAt x.table.slots slot = none := hprobe.2.2
    -- the probe for the index itself ended at a vacant slot
    have hnew : index ∉ S := by
      intro hindex
      have hno := h.no_match hprobe hindex rfl
      rw [beq_self_eq_true] at hno
      cases hno
    have hperm : (⟨t'⟩ : KeyIndex).indices.Perm (index :: x.indices) :=
      hsettled.entries_perm.trans (Table.entries_add hslot hvacant hmark)
    -- so the index is one more of `2 ^ 32`, which bounds the capacity it can lead to
    have hcount : x.table.count + 1 ≤ 2 ^ 32 := by
      have hlen := h.len_eq
      rw [len] at hlen
      rw [hlen, ← Finset.card_insert_of_notMem hnew]
      exact card_indices_le _
    have hroom : (x.table.add slot index).count ≤ (x.table.add slot index).capacity := by
      rw [Table.capacity_add]
      exact h.count_le.trans_lt h.tallied.limit_lt
    have hcapacity : (x.table.add slot index).capacity ≤ 2 ^ 49 := by
      rw [Table.capacity_add]
      exact h.capacity_le
    exact {
      toBacked := hbacked
      capacity_le := hsettled.capacity_le (Table.add_tallied h.tallied hslot hvacant hmark) hroom
        h.len_lt hcapacity (Nat.mul_le_mul_right (2 ^ 17) hcount)
      reached := hsettled.reached (Table.add_reached h.reached hslot hmark hprobe.unbroken)
      nodup := hperm.nodup_iff.mpr
        (List.nodup_cons.mpr ⟨fun hmem => hnew ((h.mem_iff index).mp hmem), h.nodup⟩)
      mem_iff := fun i => by
        rw [hperm.mem_iff, List.mem_cons, Finset.mem_insert, h.mem_iff] }

/-- Removing what a probe ended at is one element less and hides no other. -/
theorem remove (h : Exact s x S) (hremoved : x.Removed s r x') (hbacked : Backed s x') :
    Exact s x' (match r.index? with | some index => S.erase index | none => S) := by
  cases hremoved with
  | vacant slot => exact h
  | @found slot i t' hslot htaken =>
    have hperm : x.indices.Perm (i :: (⟨t'⟩ : KeyIndex).indices) := htaken.entries_perm
    obtain ⟨hnotmem, hnodup⟩ := List.nodup_cons.mp (hperm.nodup_iff.mp h.nodup)
    have hcapacity := h.capacity_le
    exact {
      toBacked := hbacked
      capacity_le := htaken.capacity_eq.trans_le h.capacity_le
      reached := htaken.reached h.tallied (by omega) hslot fun j hj _ => h.reached j hj
      nodup := hnodup
      mem_iff := fun j => by
        change _ ↔ j ∈ S.erase i
        rw [Finset.mem_erase, ← h.mem_iff, hperm.mem_iff, List.mem_cons]
        constructor
        · intro hj
          exact ⟨fun heq => hnotmem (heq ▸ hj), .inr hj⟩
        · rintro ⟨hne, heq | hj⟩
          · exact (hne heq).elim
          · exact hj }

theorem track (h : Exact s x S) {request : IndexRequest} {answer : IndexAnswer}
    (hdoes : request.Does s x answer x') (hbacked : Backed s x') :
    Exact s x' (request.track S answer) := by
  cases hdoes with
  | insert hinserted => exact h.insert hinserted hbacked
  | find hprobe => exact h
  | removeKey hfind hprobe hremoved => exact h.remove hremoved hbacked
  | @removeIndex index hash r x' hlocate hprobe hremoved =>
    have hremove := h.remove hremoved hbacked
    cases r with
    | vacant slot => exact hremove
    | found slot i =>
      obtain rfl : i = index := eq_of_beq hprobe.2.2.2
      exact hremove
  | keyless answer => exact h

/-- Faithful calls are admissible: an index set has far fewer than `2 ^ 64` elements. -/
theorem admissible (h : Exact s x S) {call : IndexCall} (hcall : call.Faithful s) :
    call.Admissible s x := by
  cases call with
  | insert index => exact ⟨hcall.1, hcall.2, h.len_lt⟩
  | removeIndex index => exact hcall
  | _ => exact trivial

theorem findable (h : Exact s x S) (hindex : index ∈ S) : x.Findable s index := by
  exact h.toBacked.findable (h.reached.meets ((h.mem_iff index).mpr hindex))

theorem perform (h : Exact s x S) {call : IndexCall} (hcall : call.Faithful s) :
    ∃ answer x', call.perform x s = .ok (answer, x') ∧
      (call.request s).Does s x answer x' ∧ (call.request s).Answers s S answer ∧
      Exact s x' ((call.request s).track S answer) := by
  obtain ⟨answer, x', hrun, hdoes, hbacked⟩ := h.toBacked.perform (h.admissible hcall)
  exact ⟨answer, x', hrun, hdoes, h.answers hcall.wellHashed hdoes, h.track hdoes hbacked⟩

/-- Changes of the slab that keep the keys of the registered records keep the set. -/
theorem extend {s' : Slab} (h : Exact s x S) (hs : s.Extends s')
    (hkeys : ∀ index ∈ S, s'.keyAt index = s.keyAt index) : Exact s' x S where
  toBacked := h.toBacked.extend hs
  capacity_le := h.capacity_le
  reached := h.reached.congr fun index hindex => by
    have hkey := hkeys index ((h.mem_iff index).mp hindex)
    rw [Table.homes, Table.homes, Slab.hashAt, Slab.hashAt, hs.layout_eq, hkey]
  nodup := h.nodup
  mem_iff := h.mem_iff

theorem new {config : TableConfig} (hs : s.Shaped) (hx : KeyIndex.new config = .ok x) :
    Exact s x ∅ := by
  obtain ⟨hbacked, hindices, -⟩ := Backed.new hs hx
  obtain ⟨capacity, hcapacity, hx⟩ := bind_eq_ok hx
  cases hx
  obtain ⟨-, k, hk, rfl⟩ := TableConfig.capacity_eq_ok hcapacity
  exact {
    toBacked := hbacked
    capacity_le := by
      rw [Table.capacity]
      exact (Cells.capacity_vacant (2 ^ k)).trans_le (Nat.pow_le_pow_right (by omega) (by omega))
    reached := .vacant fun i _ => Cells.entryAt_vacant _ i
    nodup := hindices ▸ List.nodup_nil
    mem_iff := fun index => by rw [hindices]; simp }

end Exact

/-- The slabs and indexes that arise with the set `S` of registered indices. Between two calls the
slab may change in any way that leaves the keys of `S` as they were. -/
inductive Tracks (config : TableConfig) : Slab → KeyIndex → Finset UInt32 → Prop where
  | new {layout : RecordLayout} {slabConfig : SlabConfig} {backing : Backing} {s : Slab}
      {x : KeyIndex} (hs : (Slab.new layout slabConfig backing).outcome = .ok s)
      (hx : KeyIndex.new config = .ok x) : Tracks config s x ∅
  | slab {s s' : Slab} {x : KeyIndex} {S : Finset UInt32} (h : Tracks config s x S)
      (hsteps : Relation.ReflTransGen Slab.Step s s')
      (hkeys : ∀ index ∈ S, s'.keyAt index = s.keyAt index) : Tracks config s' x S
  | call {s : Slab} {x x' : KeyIndex} {S : Finset UInt32} {call : IndexCall}
      {answer : IndexAnswer} (h : Tracks config s x S) (hcall : call.Faithful s)
      (hrun : call.perform x s = .ok (answer, x')) :
      Tracks config s x' ((call.request s).track S answer)

namespace Tracks

variable {config : TableConfig} {s : Slab} {x : KeyIndex} {S : Finset UInt32}

theorem exact (h : Tracks config s x S) : Exact s x S := by
  induction h with
  | new hs hx => exact .new (Slab.new_shaped hs) hx
  | slab h hsteps hkeys ih => exact ih.extend (.of_steps hsteps) hkeys
  | call h hcall hrun ih =>
    obtain ⟨answer, x', hrun', -, -, hexact⟩ := ih.perform hcall
    cases hrun.symm.trans hrun'
    exact hexact

/-- An index is the set of its registered indices after any run: its length is their number, and a
faithful call is answered as the set says and leaves the set that the answer says. A key of another
width is never found, a removal by key takes what a search would have found, and all indices that
are left can be found. -/
theorem set_semantics (h : Tracks config s x S) :
    x.len = S.card ∧ x.indices.Nodup ∧ (∀ index, index ∈ x.indices ↔ index ∈ S) ∧
    (∀ key : Bytes, key.size ≠ s.layout.keyLen → x.find s key = .ok none) ∧
    ∀ call : IndexCall, call.Faithful s →
      ∃ answer x', call.perform x s = .ok (answer, x') ∧
        (call.request s).Answers s S answer ∧
        (∀ key hash, call.request s = .removeKey key hash →
          IndexCall.perform x s (.findHashed key hash) = .ok (answer, x)) ∧
        Tracks config s x' ((call.request s).track S answer) ∧
        ∀ index ∈ (call.request s).track S answer, x'.Findable s index := by
  have hexact := h.exact
  refine ⟨hexact.len_eq, hexact.nodup, hexact.mem_iff, fun key => hexact.find_width, ?_⟩
  intro call hcall
  obtain ⟨answer, x', hrun, hdoes, hanswers, hexact'⟩ := hexact.perform hcall
  refine ⟨answer, x', hrun, hanswers, ?_, h.call hcall hrun, fun index => hexact'.findable⟩
  intro key hash hrequest
  rw [hrequest] at hdoes
  exact hdoes.findHashed_eq

/-- Two records with the same key are registered, and both can be found. -/
theorem set_semantics_same_key :
    ∃ s x, Tracks {} s x {1, 0} ∧ s.keyAt 0 = s.keyAt 1 ∧ x.len = 2 ∧
      ∀ index ∈ ({1, 0} : Finset UInt32), x.Findable s index := by
  obtain ⟨s, hs, hpage₀, hpage₁, hkeys⟩ : ∃ s, (Slab.new { size := 8 }
      { pageSize := 2, initialPages := 1 } .heap).outcome = .ok s ∧ s.HasPage 0 ∧ s.HasPage 1 ∧
      s.keyAt 0 = s.keyAt 1 := ⟨_, rfl, rfl, rfl, by decide +kernel⟩
  obtain ⟨x, hx⟩ : ∃ x, KeyIndex.new {} = .ok x := ⟨_, rfl⟩
  obtain ⟨-, -, -, -, hcalls⟩ := set_semantics (.new hs hx : Tracks {} s x ∅)
  obtain ⟨answer₀, x₁, -, -, -, h₁, -⟩ := hcalls (.insert 0) ⟨hpage₀, by decide⟩
  obtain ⟨-, -, -, -, hcalls⟩ := set_semantics h₁
  obtain ⟨answer₁, x₂, -, -, -, h₂, hfindable⟩ := hcalls (.insert 1) ⟨hpage₁, by decide⟩
  obtain ⟨hlen, -⟩ := set_semantics h₂
  exact ⟨s, x₂, h₂, hkeys, hlen, hfindable⟩

end Tracks

end KeyIndex

end RecordArena
