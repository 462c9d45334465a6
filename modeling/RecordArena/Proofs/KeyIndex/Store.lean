import RecordArena.Proofs.KeyIndex.Ledger

/-!
# Runs of a keyed store

From a fresh slab and a fresh index on, any allowed calls in any order leave a slab and an index
that hold exactly what the ledger of the calls says. Pages are recycled and zeroed and indices are
handed out again along the way, and no registered record is ever disturbed.

## Main definitions

* `Ledger.Runs` – the slabs, indexes and ledgers that arise.

## Main statements

* `Ledger.Runs.refines` – lookups, records and counters are those of the ledger after any run, and
  the next allowed call is answered as the ledger says.
-/

namespace RecordArena.Ledger

/-- The stores that arise from allowed calls while all places have indices. -/
inductive Runs (config : TableConfig) : Slab → KeyIndex → Ledger → Prop where
  | new {layout : RecordLayout} {slabConfig : SlabConfig} {backing : Backing} {s : Slab}
      {x : KeyIndex} (hs : (Slab.new layout slabConfig backing).outcome = .ok s)
      (hx : KeyIndex.new config = .ok x) (hfits : s.pageCount * s.pageCapacity < 2 ^ 32) :
      Runs config s x ⟨∅, ∅⟩
  | call {s s' : Slab} {x x' : KeyIndex} {L : Ledger} {call : StoreCall} {answer : StoreAnswer}
      (h : Runs config s x L) (hcall : L.Allows s call)
      (hrun : call.perform s x = .ok (answer, s', x'))
      (hfits : s'.pageCount * s'.pageCapacity < 2 ^ 32) :
      Runs config s' x' (L.after s call answer)

variable {config : TableConfig} {L : Ledger} {s s' : Slab} {x x' : KeyIndex}

namespace Keeps

theorem new {layout : RecordLayout} {slabConfig : SlabConfig} {backing : Backing}
    (hs : (Slab.new layout slabConfig backing).outcome = .ok s) (hx : KeyIndex.new config = .ok x)
    (hfits : s.pageCount * s.pageCapacity < 2 ^ 32) : (⟨∅, ∅⟩ : Ledger).Keeps s x := by
  obtain ⟨hsound, hnone, hlive⟩ := Slab.Sound.new hs hfits.le
  exact {
    sound := hsound
    fits := hfits
    tracked := .new hsound.toShaped hx
    live_iff := fun i => iff_of_false (hnone i) Finmap.notMem_empty
    bytes_eq := fun i bytes hlookup => by cases hlookup
    keyed := fun key i hkey => by cases hkey
    live_eq := hlive }

theorem findHashed (h : L.Keeps s x) (key : Bytes) :
    x.findHashed s key (s.layout.hashKey key) = .ok (L.registered.lookup key) := by
  obtain ⟨found, hrun, hdoes⟩ := h.tracked.toBacked.findHashed key (s.layout.hashKey key)
  have hhash : (IndexRequest.find key (s.layout.hashKey key)).WellHashed s := rfl
  have hreply := h.reply_eq (h.tracked.answers hhash hdoes)
  rw [hrun, IndexAnswer.index.inj hreply]

theorem findRecord (h : L.Keeps s x) (view : Bytes) : x.findRecord s view =
    .ok (if view.size < s.layout.size then none
      else L.registered.lookup (s.layout.keyIn view)) := by
  rw [KeyIndex.findRecord, RecordLayout.key?_eq h.sound.valid]
  split
  · rfl
  · exact h.findHashed (s.layout.keyIn view)

theorem mem_records (h : L.Keeps s x) {index : UInt32} (hlive : s.isLive index = .ok true) :
    index ∈ L.records :=
  (h.live_iff index).mp (Except.ok.inj (h.sound.isLive_eq.symm.trans hlive))

/-- An index of no length has no key registered. -/
theorem registered_eq_empty (h : L.Keeps s x) (hlen : x.len = 0) : L.registered = ∅ := by
  have hkeys : L.registered.keys = ∅ := by
    rw [← Finset.card_eq_zero, ← h.card_indices, ← h.tracked.len_eq, hlen]
  refine Finmap.ext_lookup fun key => ?_
  rw [Finmap.lookup_empty, Finmap.lookup_eq_none, ← Finmap.mem_keys, hkeys]
  exact Finset.notMem_empty key

end Keeps

namespace Runs

theorem keeps (h : Runs config s x L) : L.Keeps s x := by
  induction h with
  | new hs hx hfits => exact .new hs hx hfits
  | call h hcall hrun hfits ih =>
    obtain ⟨answer, s', x', hrun', hserved⟩ := ih.perform hcall
    cases hrun.symm.trans hrun'
    exact (hserved hfits).2

/-- A slab and an index over it refine a keyed store. After any run, a key is found exactly when it
is registered, at the index that was registered for it; that record is live, has the key and reads
what was written last; both lengths are right; and an allowed call is answered, as the ledger says
unless it makes the slab grow out of its indices. -/
theorem refines (h : Runs config s x L) :
    (∀ key, x.find s key = .ok (L.registered.lookup key) ∧
      x.findHashed s key (s.layout.hashKey key) = .ok (L.registered.lookup key)) ∧
    (∀ view, x.findRecord s view = .ok (if view.size < s.layout.size then none
      else L.registered.lookup (s.layout.keyIn view))) ∧
    (∀ key index, L.registered.lookup key = some index →
      index ∈ L.records ∧ L.keyOf s.layout index = key) ∧
    (∀ index, s.isLive index = .ok (decide (index ∈ L.records))) ∧
    (∀ index bytes, L.records.lookup index = some bytes → s.record index = .ok bytes) ∧
    x.len = L.registered.keys.card ∧ s.live = L.records.keys.card ∧
    ∀ call : StoreCall, L.Allows s call →
      ∃ answer s' x', call.perform s x = .ok (answer, s', x') ∧
        (s'.pageCount * s'.pageCapacity < 2 ^ 32 →
          L.Answers s call answer ∧ Runs config s' x' (L.after s call answer)) := by
  have hkeeps := h.keeps
  refine ⟨fun key => ⟨hkeeps.findHashed key, hkeeps.findHashed key⟩, hkeeps.findRecord, ?_, ?_, ?_,
    hkeeps.tracked.len_eq.trans hkeeps.card_indices, hkeeps.live_eq, ?_⟩
  · intro key index hkey
    obtain ⟨hlive, heq⟩ := hkeeps.keyed key index hkey
    exact ⟨(hkeeps.live_iff index).mp hlive, (hkeeps.keyAt_eq hlive).symm.trans heq⟩
  · intro index
    rw [hkeeps.sound.isLive_eq]
    have hiff := hkeeps.live_iff index
    rw [Slab.Live] at hiff
    simp [← hiff]
  · intro index bytes hlookup
    have hlive := (hkeeps.live_iff index).mpr (Finmap.mem_of_lookup_eq_some hlookup)
    rw [hkeeps.sound.record_bytesOf hlive.hasPage, hkeeps.bytes_eq index bytes hlookup]
  · intro call hcall
    obtain ⟨answer, s', x', hrun, hserved⟩ := hkeeps.perform hcall
    exact ⟨answer, s', x', hrun, fun hfits =>
      ⟨(hserved hfits).1, h.call hcall hrun hfits⟩⟩

theorem allows_register {index : UInt32} (h : Runs config s x L) (hlen : x.len = 0)
    (hlive : s.isLive index = .ok true) : L.Allows s (.keyed (.insert index)) := by
  refine ⟨h.keeps.mem_records hlive, fun other hother => ?_⟩
  rw [h.keeps.registered_eq_empty hlen] at hother
  cases hother

theorem allows_free {index : UInt32} (h : Runs config s x L) (hlen : x.len = 0)
    (hlive : s.isLive index = .ok true) : L.Allows s (.free index) := by
  refine ⟨h.keeps.mem_records hlive, fun hindex => ?_⟩
  obtain ⟨key, hkey⟩ := mem_indices.mp hindex
  rw [h.keeps.registered_eq_empty hlen] at hkey
  cases hkey

/-- With one record on a page, a record is registered, unregistered and freed, and after the next
one its page is filled again. Its index is now that of a record with another key, which is
registered and found, and the first key is not. -/
theorem refines_recycled : ∃ s x L s' x' L', Runs {} s x L ∧ Runs {} s' x' L' ∧
    L.registered.lookup #[1, 2, 0, 0] = some 0 ∧ L.records.keys.card = 1 ∧ s'.pageCount = 3 ∧
    L'.registered.lookup #[1, 2, 0, 0] = none ∧ L'.registered.lookup #[5, 6, 0, 0] = some 0 ∧
    L'.keyOf s'.layout 0 = #[5, 6, 0, 0] ∧ L'.records.keys.card = 2 ∧
    L'.registered.keys.card = 1 := by
  have hall : (do
      let s₀ ← (Slab.new { size := 4 } { pageSize := 1, initialPages := 1 } .anonymous).outcome
      let x₀ ← (KeyIndex.new {}).mapError .refused
      let (_, s₁, x₁) ← StoreCall.perform s₀ x₀ (.create #[1, 2])
      let (_, s₂, x₂) ← StoreCall.perform s₁ x₁ (.keyed (.insert 0))
      let (_, s₃, x₃) ← StoreCall.perform s₂ x₂ (.keyed (.removeKey #[1, 2, 0, 0]))
      let (_, s₄, x₄) ← StoreCall.perform s₃ x₃ (.free 0)
      let (_, s₅, x₅) ← StoreCall.perform s₄ x₄ (.create #[3, 4])
      let (_, s₆, x₆) ← StoreCall.perform s₅ x₅ (.create #[5, 6])
      let (_, s₇, x₇) ← StoreCall.perform s₆ x₆ (.keyed (.insert 0))
      pure (decide (
        (∀ s ∈ [s₀, s₁, s₂, s₃, s₄, s₅, s₆, s₇], s.pageCount * s.pageCapacity < 2 ^ 32) ∧
        (∀ s ∈ [s₀, s₄, s₅], 2 ≤ s.layout.size) ∧ (∀ x ∈ [x₁, x₃, x₆], x.len = 0) ∧
        (∀ s ∈ [s₁, s₃, s₆], s.isLive 0 = .ok true) ∧
        x₂.find s₂ #[1, 2, 0, 0] = .ok (some 0) ∧ s₂.live = 1 ∧ s₇.pageCount = 3 ∧
        x₇.find s₇ #[1, 2, 0, 0] = .ok none ∧ x₇.find s₇ #[5, 6, 0, 0] = .ok (some 0) ∧
        s₇.live = 2 ∧ x₇.len = 1)) : Except Failure Bool) = .ok true := by decide +kernel
  obtain ⟨s₀, hs, hall⟩ := bind_eq_ok hall
  obtain ⟨x₀, hx, hall⟩ := bind_eq_ok hall
  obtain ⟨⟨_, s₁, x₁⟩, hrun₁, hall⟩ := bind_eq_ok hall
  obtain ⟨⟨_, s₂, x₂⟩, hrun₂, hall⟩ := bind_eq_ok hall
  obtain ⟨⟨_, s₃, x₃⟩, hrun₃, hall⟩ := bind_eq_ok hall
  obtain ⟨⟨_, s₄, x₄⟩, hrun₄, hall⟩ := bind_eq_ok hall
  obtain ⟨⟨_, s₅, x₅⟩, hrun₅, hall⟩ := bind_eq_ok hall
  obtain ⟨⟨_, s₆, x₆⟩, hrun₆, hall⟩ := bind_eq_ok hall
  obtain ⟨⟨_, s₇, x₇⟩, hrun₇, hall⟩ := bind_eq_ok hall
  obtain ⟨hfits, hroom, hempty, hlive, hfind, hlive₂, hpages, hnone, hsome, hlive₇, hlen₇⟩ :=
    of_decide_eq_true (Except.ok.inj hall)
  simp only [List.forall_mem_cons] at hfits hroom hempty hlive
  obtain ⟨hfits₀, hfits₁, hfits₂, hfits₃, hfits₄, hfits₅, hfits₆, hfits₇, -⟩ := hfits
  obtain ⟨hroom₀, hroom₄, hroom₅, -⟩ := hroom
  obtain ⟨hempty₁, hempty₃, hempty₆, -⟩ := hempty
  obtain ⟨hlive₁, hlive₃, hlive₆, -⟩ := hlive
  have h₀ : Runs {} s₀ x₀ ⟨∅, ∅⟩ := new hs (mapError_eq_ok hx) hfits₀
  -- a run says which call it is of, so that the call is allowed is shown after it
  have h₁ := h₀.call (by exact hroom₀) hrun₁ hfits₁
  have h₂ := h₁.call (h₁.allows_register hempty₁ hlive₁) hrun₂ hfits₂
  have h₃ := h₂.call (by trivial) hrun₃ hfits₃
  have h₄ := h₃.call (h₃.allows_free hempty₃ hlive₃) hrun₄ hfits₄
  have h₅ := h₄.call (by exact hroom₄) hrun₅ hfits₅
  have h₆ := h₅.call (by exact hroom₅) hrun₆ hfits₆
  have h₇ := h₆.call (h₆.allows_register hempty₆ hlive₆) hrun₇ hfits₇
  obtain ⟨hfinds, -, -, -, -, -, hcount, -⟩ := refines h₂
  obtain ⟨hfinds', -, hkeys, -, -, hlen, hcount', -⟩ := refines h₇
  have hlookup := Except.ok.inj ((hfinds _).1.symm.trans hfind)
  have hlookup' := Except.ok.inj ((hfinds' _).1.symm.trans hsome)
  exact ⟨s₂, x₂, _, s₇, x₇, _, h₂, h₇, hlookup, hcount.symm.trans hlive₂, hpages,
    Except.ok.inj ((hfinds' _).1.symm.trans hnone), hlookup', (hkeys _ _ hlookup').2,
    hcount'.symm.trans hlive₇, hlen.symm.trans hlen₇⟩

end Runs

end RecordArena.Ledger
