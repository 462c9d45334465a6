import RecordArena.Proofs.KeyIndex.Calls

/-!
# Key indexes with stale entries

A key index survives when the keys of registered records change or the records end. Its probes may
then miss entries, but every call is answered, and the indices change by one copy of an inserted or
of a reported index and not otherwise. An index whose entry is missed may be registered twice. What
makes the probes, the backward shift and the growth end is the vacancy that the limit of the table
leaves.

## Main statements

* `IndexRequest.Does.changes` – what a request makes of the indices.
* `IndexRequest.Does.findable` – an index that has just been inserted can be found.
* `KeyIndex.Reaches.register` – an index that is not registered can be.
* `KeyIndex.Reaches.survives` – the counters are right after any calls and any slab operations, and
  the next call is answered.
-/

namespace RecordArena

namespace IndexRequest

/-- The index that the answer to a request reports as removed. -/
def removed : IndexRequest → IndexAnswer → Option UInt32
  | removeKey _ _, .index index => index
  | removeIndex index _, .flag true => some index
  | _, _ => none

def key? : IndexRequest → Option Bytes
  | find key _ => some key
  | removeKey key _ => some key
  | _ => none

/-- An insertion leaves one copy of its index more, or the index is registered and nothing changes.
A removal leaves one copy of the reported index less. Everything else changes nothing. -/
def Changes (request : IndexRequest) (answer : IndexAnswer) (x x' : KeyIndex) : Prop :=
  match request, request.removed answer with
  | insert index, _ => x'.indices.Perm (index :: x.indices) ∨ index ∈ x.indices ∧ x' = x
  | _, some index => x.indices.Perm (index :: x'.indices)
  | _, none => x' = x

end IndexRequest

namespace KeyIndex

variable {s : Slab} {x x' : KeyIndex} {r : ProbeEnd UInt32} {index : UInt32}

theorem Inserted.changes (h : x.Inserted s index x') :
    x'.indices.Perm (index :: x.indices) ∨ index ∈ x.indices ∧ x' = x := by
  cases h with
  | present hmeets => exact .inr ⟨hmeets.mem_entries, rfl⟩
  | added hprobe hmark hsettled =>
    exact .inl (hsettled.entries_perm.trans (Table.entries_add hprobe.1 hprobe.2.2 hmark))

theorem Inserted.meets (h : x.Inserted s index x') : x'.table.Meets s.hashAt index := by
  cases h with
  | present hmeets => exact hmeets
  | added hprobe hmark hsettled =>
    exact hsettled.meets (Table.add_meets hprobe.1 hmark hprobe.unbroken)

theorem Inserted.loadFactor_eq (h : x.Inserted s index x') :
    x'.table.loadFactor = x.table.loadFactor := by
  cases h with
  | present hmeets => rfl
  | added hprobe hmark hsettled => exact hsettled.loadFactor_eq

theorem Removed.changes (h : x.Removed s r x') :
    match r.index? with
    | some index => x.indices.Perm (index :: x'.indices)
    | none => x' = x := by
  cases h with
  | vacant slot => rfl
  | found hslot htaken => exact htaken.entries_perm

theorem Removed.loadFactor_eq (h : x.Removed s r x') :
    x'.table.loadFactor = x.table.loadFactor := by
  cases h with
  | vacant slot => rfl
  | found hslot htaken => exact htaken.loadFactor_eq

/-- What a probe for a key ended at has the key. -/
theorem Probed.keyAt_eq {key : Bytes} {hash : Int32}
    (h : x.Probed (fun i => decide (s.keyAt i = key)) hash r) (hr : r.index? = some index) :
    index ∈ x.indices ∧ s.keyAt index = key := by
  cases r with
  | vacant slot => cases hr
  | found slot i =>
    cases hr
    exact ⟨Backed.mem_indices h.1 h.2.2.1, of_decide_eq_true h.2.2.2⟩

end KeyIndex

namespace IndexRequest.Does

variable {s : Slab} {x x' : KeyIndex} {request : IndexRequest} {answer : IndexAnswer}

theorem loadFactor_eq (h : request.Does s x answer x') :
    x'.table.loadFactor = x.table.loadFactor := by
  cases h with
  | insert h => exact h.loadFactor_eq
  | find hprobe => rfl
  | removeKey hfind hprobe h => exact h.loadFactor_eq
  | removeIndex hlocate hprobe h => exact h.loadFactor_eq
  | keyless answer => rfl

/-- A request changes the indices as its answer says. -/
theorem changes (h : request.Does s x answer x') : request.Changes answer x x' := by
  cases h with
  | insert h => exact h.changes
  | find hprobe => exact rfl
  | @removeKey key hash r x' hfind hprobe h =>
    have hchanges := h.changes
    generalize r.index? = reported at hchanges ⊢
    cases reported with
    | none => exact hchanges
    | some index => exact hchanges
  | @removeIndex index hash r x' hlocate hprobe h =>
    have hchanges := h.changes
    cases r with
    | vacant slot => exact hchanges
    | found slot i =>
      obtain rfl : i = index := eq_of_beq hprobe.2.2.2
      exact hchanges
  | keyless answer => exact rfl

/-- An index that a call by key answers is registered, and its record has the key. -/
theorem keyAt_eq {call : IndexCall} {index : UInt32}
    (h : (call.request s).Does s x (.index (some index)) x') :
    index ∈ x.indices ∧ (call.request s).key? = some (s.keyAt index) := by
  -- a call with too short a view answers that there is nothing
  have hkeyless : call.request s ≠ .keyless (.index (some index)) := by
    cases call <;> grind [IndexCall.request]
  generalize call.request s = request at h hkeyless
  generalize hr : IndexAnswer.index (some index) = answer at h
  cases h with
  | insert h => cases hr
  | find hprobe =>
    obtain ⟨hmem, hkey⟩ := hprobe.keyAt_eq (IndexAnswer.index.inj hr).symm
    exact ⟨hmem, congrArg some hkey.symm⟩
  | removeKey hfind hprobe h =>
    obtain ⟨hmem, hkey⟩ := hprobe.keyAt_eq (IndexAnswer.index.inj hr).symm
    exact ⟨hmem, congrArg some hkey.symm⟩
  | removeIndex hlocate hprobe h => cases hr
  | keyless answer =>
    rw [hr] at hkeyless
    exact (hkeyless rfl).elim

/-- What has just been inserted is found, whatever else the table holds. -/
theorem findable {index : UInt32} (h : (IndexRequest.insert index).Does s x answer x')
    (hbacked : KeyIndex.Backed s x') : x'.Findable s index := by
  cases h with
  | insert h => exact hbacked.findable h.meets

/-- A removal by key takes what a search would have found. -/
theorem findHashed_eq {key : Bytes} {hash : Int32}
    (h : (IndexRequest.removeKey key hash).Does s x answer x') :
    IndexCall.perform x s (.findHashed key hash) = .ok (answer, x) := by
  cases h with
  | removeKey hfind hprobe h => rw [IndexCall.perform, hfind, liftFault_ok, ok_bind, pure_eq_ok]

/-- A removal by index answers whether a probe meets the index. -/
theorem locateIndex_eq {index : UInt32} {hash : Int32}
    (h : (IndexRequest.removeIndex index hash).Does s x answer x') :
    ∃ found, x.locateIndex index hash = .ok found ∧ answer = .flag found.isSome := by
  cases h with
  | removeIndex hlocate hprobe h =>
    exact ⟨_, hlocate, congrArg IndexAnswer.flag Option.isSome_map⟩

end IndexRequest.Does

namespace KeyIndex

/-- The slabs and indexes that arise when calls of one index and operations of one slab are mixed
in any order. -/
inductive Reaches (config : TableConfig) : Slab → KeyIndex → Prop where
  | new {layout : RecordLayout} {slabConfig : SlabConfig} {backing : Backing} {s : Slab}
      {x : KeyIndex} (hs : (Slab.new layout slabConfig backing).outcome = .ok s)
      (hx : KeyIndex.new config = .ok x) : Reaches config s x
  | slab {s s' : Slab} {x : KeyIndex} (h : Reaches config s x) (hstep : s.Step s') :
      Reaches config s' x
  | call {s : Slab} {x x' : KeyIndex} {call : IndexCall} {answer : IndexAnswer}
      (h : Reaches config s x) (hcall : call.Admissible s x)
      (hrun : call.perform x s = .ok (answer, x')) : Reaches config s x'

namespace Reaches

variable {config : TableConfig} {s : Slab} {x : KeyIndex}

theorem backed (h : Reaches config s x) :
    Backed s x ∧ x.table.loadFactor = config.loadFactor := by
  induction h with
  | new hs hx =>
    obtain ⟨hbacked, -, hfactor⟩ := Backed.new (Slab.new_shaped hs) hx
    exact ⟨hbacked, hfactor⟩
  | slab h hstep ih => exact ⟨ih.1.extend hstep.extends, ih.2⟩
  | call h hcall hrun ih =>
    obtain ⟨answer, x', hrun', hdoes, hbacked⟩ := ih.1.perform hcall
    cases hrun.symm.trans hrun'
    exact ⟨hbacked, hdoes.loadFactor_eq.trans ih.2⟩

/-- An index that is not registered can be, whatever the table holds. -/
theorem register (h : Reaches config s x) {index : UInt32} (hpage : s.HasPage index)
    (hmark : index ≠ Cells.vacantMark) (hlen : x.indices.length < Numeric.maxCount)
    (hnew : index ∉ x.indices) :
    ∃ x', IndexCall.perform x s (.insert index) = .ok (.done, x') ∧ Reaches config s x' ∧
      x'.indices.Perm (index :: x.indices) := by
  have hbacked := h.backed.1
  have hcall : (IndexCall.insert index).Admissible s x :=
    ⟨hpage, hmark, hbacked.tallied.count_eq.trans_lt hlen⟩
  obtain ⟨x', hrun, hinserted, -⟩ := hbacked.insert hcall.1 hcall.2.1 hcall.2.2
  have hrun' : IndexCall.perform x s (.insert index) = .ok (.done, x') := by
    rw [IndexCall.perform, hrun, ok_bind, pure_eq_ok]
  refine ⟨x', hrun', h.call hcall hrun', ?_⟩
  rcases hinserted.changes with hperm | ⟨hmem, -⟩
  · exact hperm
  · exact (hnew hmem).elim

/-- Whatever has become of the records, the table has a power of two of slots with room to spare,
its length counts its entries, and an admissible call is answered: the indices change by the one
inserted or reported, and an index answered for a key has a record with that key. What has just been
inserted can be found, and a removal takes what a search would have found. -/
theorem survives (h : Reaches config s x) :
    (∃ k, x.capacity = 2 ^ k) ∧ x.len = x.indices.length ∧
    x.len ≤ resizeLimit x.capacity config.loadFactor ∧
    resizeLimit x.capacity config.loadFactor < x.capacity ∧
    (∃ slot < x.capacity, Slots.entryAt x.table.slots slot = none) ∧
    ∀ call : IndexCall, call.Admissible s x →
      ∃ answer x', call.perform x s = .ok (answer, x') ∧
        (call.request s).Changes answer x x' ∧
        (∀ index, answer = .index (some index) → ∃ record key, s.record index = .ok record ∧
          s.layout.key record = .ok key ∧ (call.request s).key? = some key) ∧
        (∀ index, call.request s = .insert index → x'.Findable s index) ∧
        (∀ key hash, call.request s = .removeKey key hash →
          IndexCall.perform x s (.findHashed key hash) = .ok (answer, x)) ∧
        ∀ index hash, call.request s = .removeIndex index hash →
          ∃ found, x.locateIndex index hash = .ok found ∧ answer = .flag found.isSome := by
  obtain ⟨hbacked, hfactor⟩ := h.backed
  have htallied := hbacked.tallied
  have hlimit : x.table.limit = resizeLimit x.capacity config.loadFactor :=
    hfactor ▸ htallied.limit_eq
  refine ⟨htallied.capacity_eq, htallied.count_eq, hlimit ▸ hbacked.count_le,
    hlimit ▸ htallied.limit_lt, htallied.exists_vacant hbacked.count_le, ?_⟩
  intro call hcall
  obtain ⟨answer, x', hrun, hdoes, hbacked'⟩ := hbacked.perform hcall
  refine ⟨answer, x', hrun, hdoes.changes, ?_, ?_, ?_, ?_⟩
  · rintro index rfl
    obtain ⟨hmem, hkey⟩ := hdoes.keyAt_eq
    obtain ⟨record, hrecord, hread⟩ := hbacked.shaped.key_eq (hbacked.hasPage index hmem)
    exact ⟨record, s.keyAt index, hrecord, hread, hkey⟩
  · intro index hrequest
    rw [hrequest] at hdoes
    exact hdoes.findable hbacked'
  · intro key hash hrequest
    rw [hrequest] at hdoes
    exact hdoes.findHashed_eq
  · intro index hash hrequest
    rw [hrequest] at hdoes
    exact hdoes.locateIndex_eq

/-- A record is registered, its key is written over and the record is freed, but its index stays in
the table. No probe meets it any more: it is found by neither key and it is not removed, and when it
is inserted again there are two copies, one of which is found. -/
theorem survives_stale :
    ∃ s x x', Reaches {} s x ∧ s.isLive 0 = .ok false ∧
      s.record 0 = .ok #[7, 7, 0, 0, 0, 0, 0, 0] ∧ x.indices = [0] ∧
      (∃ slot < x.capacity, Slots.entryAt x.table.slots slot = none) ∧
      IndexCall.perform x s (.find (Bytes.zeros 8)) = .ok (.index none, x) ∧
      IndexCall.perform x s (.find #[7, 7, 0, 0, 0, 0, 0, 0]) = .ok (.index none, x) ∧
      IndexCall.perform x s (.removeIndex 0) = .ok (.flag false, x) ∧
      IndexCall.perform x s (.insert 0) = .ok (.done, x') ∧ x'.indices.Perm [0, 0] ∧
      x'.Findable s 0 := by
  obtain ⟨s₀, s₁, s₂, s, x₀, hs, hcreate, hwrite, hfree, hx, hempty, hpage₁, hpage, hdead, hrecord,
      hanswers⟩ : ∃ s₀ s₁ s₂ s x₀,
        (Slab.new { size := 8 } { pageSize := 2, initialPages := 1 } .anonymous).outcome = .ok s₀ ∧
        s₀.create.outcome = .ok (⟨0, ⟨0, 0⟩⟩, s₁) ∧ s₁.writeAt ⟨0, 0⟩ #[7, 7] = .ok s₂ ∧
        (s₂.free 0).outcome = .ok s ∧ KeyIndex.new {} = .ok x₀ ∧ x₀.indices = [] ∧
        s₁.HasPage 0 ∧ s.HasPage 0 ∧ s.isLive 0 = .ok false ∧
        s.record 0 = .ok #[7, 7, 0, 0, 0, 0, 0, 0] ∧
        (do
          let (_, x) ← IndexCall.perform x₀ s₁ (.insert 0)
          let (first, _) ← IndexCall.perform x s (.find (Bytes.zeros 8))
          let (second, _) ← IndexCall.perform x s (.find #[7, 7, 0, 0, 0, 0, 0, 0])
          let (removed, _) ← IndexCall.perform x s (.removeIndex 0)
          let (inserted, x') ← IndexCall.perform x s (.insert 0)
          pure (first, second, removed, inserted, x'.indices.length)) =
            .ok (.index none, .index none, .flag false, .done, 2) :=
    ⟨_, _, _, _, _, rfl, rfl, rfl, rfl, rfl, rfl, rfl, rfl, rfl, by decide +kernel,
      by decide +kernel⟩
  have h₁ : Reaches {} s₁ x₀ := (new hs hx).slab (.create hcreate)
  obtain ⟨x, hrun, h₂, hregistered⟩ :=
    h₁.register hpage₁ (by decide) (by rw [hempty]; decide) (by rw [hempty]; exact List.not_mem_nil)
  rw [hempty, List.perm_singleton] at hregistered
  have h : Reaches {} s x := (h₂.slab (.write _ _ hwrite)).slab (.free 0 hfree)
  obtain ⟨-, hlen, -, -, hvacant, hcalls⟩ := survives h
  have hinsert : (IndexCall.insert 0).Admissible s x := by
    refine ⟨hpage, by decide, ?_⟩
    rw [hlen, hregistered]
    decide
  obtain ⟨first, x₁, hrun₁, hfirst, -⟩ := hcalls (.find (Bytes.zeros 8)) trivial
  obtain ⟨second, x₂, hrun₂, hsecond, -⟩ := hcalls (.find #[7, 7, 0, 0, 0, 0, 0, 0]) trivial
  obtain ⟨removed, x₃, hrun₃, hremoved, -⟩ := hcalls (.removeIndex 0) hpage
  obtain ⟨inserted, x', hrun', hinserted, -, hfindable, -⟩ := hcalls (.insert 0) hinsert
  -- the answers on the concrete table say which change each call has made
  simp only [hrun, hrun₁, hrun₂, hrun₃, hrun', ok_bind, pure_eq_ok, Except.ok.injEq,
    Prod.mk.injEq] at hanswers
  obtain ⟨rfl, rfl, rfl, rfl, hcopies⟩ := hanswers
  obtain rfl : x = x₁ := hfirst.symm
  obtain rfl : x = x₂ := hsecond.symm
  obtain rfl : x = x₃ := hremoved.symm
  refine ⟨s, x, x', h, hdead, hrecord, hregistered, hvacant, hrun₁, hrun₂, hrun₃, hrun', ?_,
    hfindable 0 rfl⟩
  rcases hinserted with hperm | ⟨-, rfl⟩
  · rwa [hregistered] at hperm
  · rw [hregistered] at hcopies
    cases hcopies

end Reaches

end KeyIndex

end RecordArena
