import Mathlib.Data.Finmap
import Mathlib.Data.Finset.Union
import RecordArena.Proofs.KeyIndex.IndexSet
import RecordArena.Proofs.Slab.Sound

/-!
# Keyed stores

A slab and a key index over it are used as one store: records are created and written, registered
under their keys, looked up, unregistered and freed. The `Ledger` says what such a store holds: the
live records with the bytes last written, and the registered index of each key. It says which calls
respect the life of records, what they answer, and what the store holds afterwards.

## Main definitions

* `StoreCall`, `StoreCall.perform` – the calls of a slab and an index.
* `Ledger.Allows`, `Ledger.Answers`, `Ledger.after` – the calls of a store, by its ledger.
* `Ledger.Keeps` – a slab and an index that hold what the ledger says.

## Main statements

* `Ledger.Keeps.perform` – an allowed call is answered as the ledger says, and leaves a store that
  holds what the ledger says next.
-/

namespace RecordArena

/-- One call of a slab or of the key index over it. -/
inductive StoreCall where
  /-- Creates a record and writes its front through the view that comes with it. -/
  | create (src : Bytes)
  | write (index : UInt32) (src : Bytes)
  | free (index : UInt32)
  | keyed (call : IndexCall)
  deriving DecidableEq

inductive StoreAnswer where
  /-- The index of a new record, and what its view reads. -/
  | created (index : UInt32) (view : Bytes)
  | done
  | keyed (answer : IndexAnswer)
  deriving DecidableEq

def StoreCall.perform (s : Slab) (x : KeyIndex) :
    StoreCall → Except Failure (StoreAnswer × Slab × KeyIndex)
  | create src => do
    let (created, s) ← s.create.outcome
    let s ← s.writeAt created.place src
    pure (.created created.index (← s.recordAt created.place), s, x)
  | write index src => do pure (.done, ← s.write index src, x)
  | free index => do pure (.done, ← (s.free index).outcome, x)
  | keyed call => do
    let (answer, x) ← call.perform x s
    pure (.keyed answer, s, x)

/-- What a keyed store holds. -/
structure Ledger where
  /-- The live records, with the bytes last written. -/
  records : Finmap fun _ : UInt32 => Bytes
  /-- The registered index of each key. -/
  registered : Finmap fun _ : Bytes => UInt32

namespace Ledger

variable (L : Ledger)

def indices : Finset UInt32 :=
  L.registered.keys.biUnion fun key => (L.registered.lookup key).toFinset

def bytesOf (index : UInt32) : Bytes := (L.records.lookup index).getD #[]

def keyOf (layout : RecordLayout) (index : UInt32) : Bytes := layout.keyIn (L.bytesOf index)

/-- The calls that respect the life of records: only live records are written, registered and
freed, a key is registered once, and a registered record keeps its key and its life. -/
def Allows (s : Slab) : StoreCall → Prop
  | .create src => src.size ≤ s.layout.size
  | .write index src => index ∈ L.records ∧ src.size ≤ s.layout.size ∧
    (index ∈ L.indices →
      s.layout.keyIn ((L.bytesOf index).overwrite 0 src.toList) = L.keyOf s.layout index)
  | .free index => index ∈ L.records ∧ index ∉ L.indices
  | .keyed (.insert index) => index ∈ L.records ∧
    ∀ other, L.registered.lookup (L.keyOf s.layout index) = some other → other = index
  | .keyed call => call.Faithful s

def reply : IndexRequest → IndexAnswer
  | .insert _ => .done
  | .find key _ => .index (L.registered.lookup key)
  | .removeKey key _ => .index (L.registered.lookup key)
  | .removeIndex index _ => .flag (decide (index ∈ L.indices))
  | .keyless answer => answer

/-- What a store may answer. A new record is none of the live ones; its view reads what was written
on whatever the slot held. -/
def Answers (s : Slab) : StoreCall → StoreAnswer → Prop
  | .create src, .created index view => index ∉ L.records ∧
    ∃ old : Bytes, old.size = s.layout.size ∧ view = old.overwrite 0 src.toList
  | .write _ _, .done => True
  | .free _, .done => True
  | .keyed call, .keyed answer => answer = L.reply (call.request s)
  | _, _ => False

/-- The registered keys after a request. -/
def register (layout : RecordLayout) : IndexRequest → Finmap fun _ : Bytes => UInt32
  | .insert index => L.registered.insert (L.keyOf layout index) index
  | request =>
    match request.removed (L.reply request) with
    | some index => L.registered.erase (L.keyOf layout index)
    | none => L.registered

/-- What the store holds after a call. -/
def after (s : Slab) : StoreCall → StoreAnswer → Ledger
  | .create _, .created index view => { L with records := L.records.insert index view }
  | .write index src, _ =>
    { L with records := L.records.insert index ((L.bytesOf index).overwrite 0 src.toList) }
  | .free index, _ => { L with records := L.records.erase index }
  | .keyed call, _ => { L with registered := L.register s.layout (call.request s) }
  | .create _, _ => L

/-- The slab and the index hold what the ledger says, and all places have indices. -/
structure Keeps (s : Slab) (x : KeyIndex) : Prop where
  sound : s.Sound
  fits : s.pageCount * s.pageCapacity < 2 ^ 32
  tracked : KeyIndex.Exact s x L.indices
  live_iff : ∀ index, s.Live index ↔ index ∈ L.records
  bytes_eq : ∀ index bytes, L.records.lookup index = some bytes → s.bytesOf index = bytes
  keyed : ∀ key index, L.registered.lookup key = some index → s.Live index ∧ s.keyAt index = key
  live_eq : s.live = L.records.keys.card

/-- A call is answered as the ledger says and leaves what the ledger says, unless the slab grows
out of its indices. -/
def Serves (s : Slab) (x : KeyIndex) (call : StoreCall) : Prop :=
  ∃ answer s' x', call.perform s x = .ok (answer, s', x') ∧
    (s'.pageCount * s'.pageCapacity < 2 ^ 32 →
      L.Answers s call answer ∧ (L.after s call answer).Keeps s' x')

variable {L : Ledger} {s s' : Slab} {x x' : KeyIndex} {index : UInt32} {key src : Bytes}

theorem keys_insert {V : Type} (records : Finmap fun _ : UInt32 => V) (index : UInt32) (v : V) :
    (records.insert index v).keys = Insert.insert index records.keys := by
  ext i
  rw [Finmap.mem_keys, Finmap.mem_insert, Finset.mem_insert, Finmap.mem_keys]

theorem mem_indices : index ∈ L.indices ↔ ∃ key, L.registered.lookup key = some index := by
  rw [indices, Finset.mem_biUnion]
  constructor
  · rintro ⟨key, -, hkey⟩
    exact ⟨key, Option.mem_toFinset.mp hkey⟩
  · rintro ⟨key, hkey⟩
    exact ⟨key, Finmap.mem_keys.mpr (Finmap.mem_of_lookup_eq_some hkey),
      Option.mem_toFinset.mpr hkey⟩

namespace Keeps

theorem bytesOf_eq (h : L.Keeps s x) (hlive : s.Live index) :
    s.bytesOf index = L.bytesOf index := by
  obtain ⟨bytes, hbytes⟩ := Finmap.mem_iff.mp ((h.live_iff index).mp hlive)
  rw [h.bytes_eq index bytes hbytes, bytesOf, hbytes]
  rfl

theorem keyAt_eq (h : L.Keeps s x) (hlive : s.Live index) :
    s.keyAt index = L.keyOf s.layout index := by
  rw [h.sound.keyAt_eq hlive.hasPage, h.bytesOf_eq hlive, keyOf]

theorem live_of_mem (h : L.Keeps s x) (hindex : index ∈ L.indices) : s.Live index := by
  obtain ⟨key, hkey⟩ := mem_indices.mp hindex
  exact (h.keyed key index hkey).1

/-- A registered index is the one of its key. -/
theorem lookup_iff (h : L.Keeps s x) :
    L.registered.lookup key = some index ↔ index ∈ L.indices ∧ s.keyAt index = key := by
  constructor
  · intro hkey
    exact ⟨mem_indices.mpr ⟨key, hkey⟩, (h.keyed key index hkey).2⟩
  · rintro ⟨hindex, rfl⟩
    obtain ⟨key, hkey⟩ := mem_indices.mp hindex
    rwa [(h.keyed key index hkey).2]

theorem lookup_eq_none (h : L.Keeps s x) (hnone : ∀ index ∈ L.indices, s.keyAt index ≠ key) :
    L.registered.lookup key = none := by
  rw [Option.eq_none_iff_forall_ne_some]
  intro index hkey
  obtain ⟨hindex, heq⟩ := h.lookup_iff.mp hkey
  exact hnone index hindex heq

theorem card_indices (h : L.Keeps s x) : L.indices.card = L.registered.keys.card := by
  have hkeys : L.registered.keys = L.indices.image s.keyAt := by
    ext key
    rw [Finmap.mem_keys, Finmap.mem_iff, Finset.mem_image]
    simp only [h.lookup_iff]
  rw [hkeys, Finset.card_image_of_injOn]
  intro i hi j hj heq
  have hlookup := h.lookup_iff.mpr ⟨hi, rfl⟩
  rw [show s.keyAt i = s.keyAt j from heq, h.lookup_iff.mpr ⟨hj, rfl⟩] at hlookup
  exact (Option.some.inj hlookup).symm

/-- The mark of a vacant cell is the index of no page. -/
theorem ne_vacantMark (h : L.Keeps s x) (hpage : s.HasPage index) : index ≠ Cells.vacantMark := by
  rintro rfl
  have hlt := h.sound.toNat_lt hpage
  have hmark : Cells.vacantMark.toNat = 2 ^ 32 - 1 := rfl
  have hfits := h.fits
  omega

/-- The slab may change as long as the records of registered indices live on with their keys. -/
theorem reslab (h : L.Keeps s x) {records : Finmap fun _ : UInt32 => Bytes} (hsound : s'.Sound)
    (hfits : s'.pageCount * s'.pageCapacity < 2 ^ 32) (hkept : s.Extends s')
    (hlive : ∀ i, s'.Live i ↔ i ∈ records)
    (hbytes : ∀ i bytes, records.lookup i = some bytes → s'.bytesOf i = bytes)
    (hindices : ∀ i ∈ L.indices, s'.Live i ∧ s.layout.keyIn (s'.bytesOf i) = s.keyAt i)
    (hcount : s'.live = records.keys.card) :
    ({ L with records := records } : Ledger).Keeps s' x := by
  have hkeys : ∀ i ∈ L.indices, s'.keyAt i = s.keyAt i := by
    intro i hi
    obtain ⟨hlive', hkey⟩ := hindices i hi
    rw [hsound.keyAt_eq hlive'.hasPage, hkept.layout_eq, hkey]
  exact {
    sound := hsound
    fits := hfits
    tracked := h.tracked.extend hkept hkeys
    live_iff := hlive
    bytes_eq := hbytes
    keyed := fun key i hkey => by
      obtain ⟨hi, heq⟩ := h.lookup_iff.mp hkey
      exact ⟨(hindices i hi).1, (hkeys i hi).trans heq⟩
    live_eq := hcount }

theorem create (h : L.Keeps s x) (hcall : L.Allows s (.create src)) :
    L.Serves s x (.create src) := by
  obtain ⟨s₁, s', view, hcreate, hwrite, hread, hfilled⟩ := h.sound.create_write hcall
  refine ⟨.created s.upcoming.index view, s', x, ?_, fun hfits => ?_⟩
  · simp [StoreCall.perform, hcreate, hwrite, hread]
  obtain ⟨hc, hw, hview⟩ := hfilled hfits.le
  have hfresh : s.upcoming.index ∉ L.records := fun hmem => hc.fresh ((h.live_iff _).mpr hmem)
  have hsame : ∀ i, s.Live i → i ≠ s.upcoming.index ∧ s'.bytesOf i = s.bytesOf i := by
    -- a live record is not the new one, and the write is to the new one alone
    intro i hi
    have hne : i ≠ s.upcoming.index := fun heq => hc.fresh (heq ▸ hi)
    rw [hw.bytes_eq, if_neg hne, hc.bytes_eq i ((hc.live_iff i).mpr (.inr hi))]
    exact ⟨hne, rfl⟩
  refine ⟨⟨hfresh, s₁.bytesOf s.upcoming.index, ?_, ?_⟩, ?_⟩
  · have hnew : s₁.Live s.upcoming.index := (hc.live_iff _).mpr (.inl rfl)
    rw [hc.sound.size_bytesOf hnew.hasPage, hc.kept.layout_eq]
  · rw [← hview, hw.bytes_eq, if_pos rfl]
  refine h.reslab hw.sound hfits (hc.kept.trans hw.kept) ?_ ?_ ?_ ?_
  · intro i
    rw [hw.live_iff, hc.live_iff, h.live_iff, Finmap.mem_insert]
  · intro i bytes hlookup
    by_cases hi : i = s.upcoming.index
    · subst hi
      rw [Finmap.lookup_insert] at hlookup
      rw [hview, Option.some.inj hlookup]
    · rw [Finmap.lookup_insert_of_ne _ hi] at hlookup
      have hold := (h.live_iff i).mpr (Finmap.mem_of_lookup_eq_some hlookup)
      rw [(hsame i hold).2, h.bytes_eq i bytes hlookup]
  · intro i hi
    have hold := h.live_of_mem hi
    refine ⟨(hw.live_iff i).mpr ((hc.live_iff i).mpr (.inr hold)), ?_⟩
    rw [(hsame i hold).2, h.sound.keyAt_eq hold.hasPage]
  · rw [hw.live_eq, hc.live_eq, h.live_eq, keys_insert, Finset.card_insert_of_notMem]
    exact fun hmem => hfresh (Finmap.mem_keys.mp hmem)

/-- A live record is written; if it is registered, around its key. -/
theorem write (h : L.Keeps s x) (hcall : L.Allows s (.write index src)) :
    L.Serves s x (.write index src) := by
  obtain ⟨hmem, hsrc, hkey⟩ := hcall
  have hlive := (h.live_iff index).mpr hmem
  obtain ⟨s', hrun, hw⟩ := h.sound.write hlive.hasPage hsrc
  refine ⟨.done, s', x, by simp [StoreCall.perform, hrun], fun hfits => ⟨trivial, ?_⟩⟩
  have hbytes := h.bytesOf_eq hlive
  refine h.reslab hw.sound hfits hw.kept ?_ ?_ ?_ ?_
  · intro i
    rw [hw.live_iff, h.live_iff, Finmap.mem_insert]
    constructor
    · exact .inr
    · rintro (rfl | hi)
      · exact hmem
      · exact hi
  · intro i bytes hlookup
    rw [hw.bytes_eq]
    by_cases hi : i = index
    · subst hi
      rw [Finmap.lookup_insert] at hlookup
      rw [if_pos rfl, hbytes, Option.some.inj hlookup]
    · rw [Finmap.lookup_insert_of_ne _ hi] at hlookup
      rw [if_neg hi, h.bytes_eq i bytes hlookup]
  · intro i hi
    have hold := h.live_of_mem hi
    refine ⟨(hw.live_iff i).mpr hold, ?_⟩
    rw [hw.bytes_eq, h.keyAt_eq hold]
    by_cases heq : i = index
    · subst heq
      rw [if_pos rfl, hbytes, hkey hi]
    · rw [if_neg heq, h.bytesOf_eq hold, keyOf]
  · rw [hw.live_eq, h.live_eq, keys_insert, Finset.insert_eq_of_mem (Finmap.mem_keys.mpr hmem)]

theorem free (h : L.Keeps s x) (hcall : L.Allows s (.free index)) :
    L.Serves s x (.free index) := by
  obtain ⟨hmem, hindex⟩ := hcall
  have hlive := (h.live_iff index).mpr hmem
  obtain ⟨s', hrun, hf⟩ := h.sound.free hlive
  refine ⟨.done, s', x, by simp [StoreCall.perform, hrun], fun hfits => ⟨trivial, ?_⟩⟩
  refine h.reslab hf.sound hfits hf.kept ?_ ?_ ?_ ?_
  · intro i
    rw [hf.live_iff, h.live_iff, Finmap.mem_erase]
  · intro i bytes hlookup
    have hi : i ≠ index := by
      rintro rfl
      rw [Finmap.lookup_erase] at hlookup
      cases hlookup
    rw [Finmap.lookup_erase_ne hi] at hlookup
    have hold := (h.live_iff i).mpr (Finmap.mem_of_lookup_eq_some hlookup)
    rw [hf.bytes_eq i ((hf.live_iff i).mpr ⟨hi, hold⟩), h.bytes_eq i bytes hlookup]
  · intro i hi
    have hold := h.live_of_mem hi
    have hlive' := (hf.live_iff i).mpr ⟨fun heq => hindex (heq ▸ hi), hold⟩
    refine ⟨hlive', ?_⟩
    rw [hf.bytes_eq i hlive', h.sound.keyAt_eq hold.hasPage]
  · rw [hf.live_eq, h.live_eq, Finmap.keys_erase,
      Finset.card_erase_of_mem (Finmap.mem_keys.mpr hmem)]

theorem faithful (h : L.Keeps s x) {call : IndexCall} (hcall : L.Allows s (.keyed call)) :
    call.Faithful s := by
  cases call with
  | insert index =>
    have hpage := ((h.live_iff index).mpr hcall.1).hasPage
    exact ⟨hpage, h.ne_vacantMark hpage⟩
  | _ => exact hcall

/-- With one registered index for each key there is one answer. -/
theorem reply_eq (h : L.Keeps s x) {request : IndexRequest} {answer : IndexAnswer}
    (hanswers : request.Answers s L.indices answer) : answer = L.reply request := by
  have hlookup : ∀ key found, (match found with
      | some index => index ∈ L.indices ∧ s.keyAt index = key
      | none => ∀ index ∈ L.indices, s.keyAt index ≠ key) → found = L.registered.lookup key := by
    intro key found hfound
    cases found with
    | some index => exact (h.lookup_iff.mpr hfound).symm
    | none => exact (h.lookup_eq_none hfound).symm
  cases request with
  | insert index =>
    cases answer with
    | done => rfl
    | _ => exact hanswers.elim
  | find key hash =>
    cases answer with
    | index found =>
      refine congrArg IndexAnswer.index (hlookup key found ?_)
      cases found <;> exact hanswers
    | _ => exact hanswers.elim
  | removeKey key hash =>
    cases answer with
    | index found =>
      refine congrArg IndexAnswer.index (hlookup key found ?_)
      cases found <;> exact hanswers
    | _ => exact hanswers.elim
  | removeIndex index hash =>
    cases answer with
    | flag removed => exact congrArg IndexAnswer.flag hanswers
    | _ => exact hanswers.elim
  | keyless answer' => exact hanswers

/-- The index may change as long as its keys are the keys of live records. -/
theorem reindex (h : L.Keeps s x) {registered : Finmap fun _ : Bytes => UInt32}
    (hkeyed : ∀ key i, registered.lookup key = some i → s.Live i ∧ s.keyAt i = key)
    (htracked : KeyIndex.Exact s x' ({ L with registered := registered } : Ledger).indices) :
    ({ L with registered := registered } : Ledger).Keeps s x' where
  sound := h.sound
  fits := h.fits
  tracked := htracked
  live_iff := h.live_iff
  bytes_eq := h.bytes_eq
  keyed := hkeyed
  live_eq := h.live_eq

/-- A live record is registered under a key that no other record has. -/
theorem insert (h : L.Keeps s x) (hlive : s.Live index)
    (hother : ∀ other, L.registered.lookup (L.keyOf s.layout index) = some other → other = index)
    (htracked : KeyIndex.Exact s x' (Insert.insert index L.indices)) :
    ({ L with registered := L.registered.insert (L.keyOf s.layout index) index } : Ledger).Keeps
      s x' := by
  have hlookup : ∀ key i, (L.registered.insert (L.keyOf s.layout index) index).lookup key =
      some i ↔ (key = L.keyOf s.layout index ∧ i = index) ∨
        (key ≠ L.keyOf s.layout index ∧ L.registered.lookup key = some i) := by
    intro key i
    by_cases hkey : key = L.keyOf s.layout index
    · subst hkey
      rw [Finmap.lookup_insert, Option.some_inj]
      simp [eq_comm]
    · rw [Finmap.lookup_insert_of_ne _ hkey]
      simp [hkey]
  refine h.reindex ?_ ?_
  · intro key i hkey
    rcases (hlookup key i).mp hkey with ⟨rfl, rfl⟩ | ⟨-, hold⟩
    · exact ⟨hlive, h.keyAt_eq hlive⟩
    · exact h.keyed key i hold
  · have hindices : ({ L with registered := L.registered.insert (L.keyOf s.layout index) index } :
        Ledger).indices = Insert.insert index L.indices := by
      ext i
      rw [mem_indices, Finset.mem_insert, mem_indices]
      constructor
      · rintro ⟨key, hkey⟩
        rcases (hlookup key i).mp hkey with ⟨-, rfl⟩ | ⟨-, hold⟩
        · exact .inl rfl
        · exact .inr ⟨key, hold⟩
      · rintro (rfl | ⟨key, hold⟩)
        · exact ⟨_, (hlookup _ _).mpr (.inl ⟨rfl, rfl⟩)⟩
        · by_cases hkey : key = L.keyOf s.layout index
          · exact ⟨_, (hlookup _ _).mpr (.inl ⟨rfl, hother i (hkey ▸ hold)⟩)⟩
          · exact ⟨key, (hlookup _ _).mpr (.inr ⟨hkey, hold⟩)⟩
    rwa [hindices]

/-- A registered record is unregistered and lives on. -/
theorem erase (h : L.Keeps s x) (hindex : index ∈ L.indices)
    (htracked : KeyIndex.Exact s x' (L.indices.erase index)) :
    ({ L with registered := L.registered.erase (L.keyOf s.layout index) } : Ledger).Keeps s x' := by
  have hkeyOf := h.keyAt_eq (h.live_of_mem hindex)
  -- a key and its index go together, so leaving out the key leaves out the index
  have hlookup : ∀ key i, (L.registered.erase (L.keyOf s.layout index)).lookup key = some i ↔
      L.registered.lookup key = some i ∧ i ≠ index := by
    intro key i
    by_cases hkey : key = L.keyOf s.layout index
    · subst hkey
      rw [Finmap.lookup_erase, h.lookup_iff.mpr ⟨hindex, hkeyOf⟩, Option.some_inj]
      simp [eq_comm]
    · rw [Finmap.lookup_erase_ne hkey]
      constructor
      · intro hold
        refine ⟨hold, ?_⟩
        rintro rfl
        exact hkey ((h.lookup_iff.mp hold).2.symm.trans hkeyOf)
      · exact And.left
  refine h.reindex ?_ ?_
  · intro key i hkey
    exact h.keyed key i ((hlookup key i).mp hkey).1
  · have hindices : ({ L with registered := L.registered.erase (L.keyOf s.layout index) } :
        Ledger).indices = L.indices.erase index := by
      ext i
      rw [mem_indices, Finset.mem_erase, mem_indices]
      constructor
      · rintro ⟨key, hkey⟩
        obtain ⟨hold, hne⟩ := (hlookup key i).mp hkey
        exact ⟨hne, key, hold⟩
      · rintro ⟨hne, key, hold⟩
        exact ⟨key, (hlookup key i).mpr ⟨hold, hne⟩⟩
    rwa [hindices]

theorem mem_of_removed {request : IndexRequest}
    (h : request.removed (L.reply request) = some index) : index ∈ L.indices := by
  cases request with
  | removeKey key hash => exact mem_indices.mpr ⟨key, h⟩
  | removeIndex i hash =>
    by_cases hi : i ∈ L.indices
    · rw [reply, decide_eq_true hi] at h
      cases h
      exact hi
    · rw [reply, decide_eq_false hi] at h
      cases h
  | _ => cases h

/-- A request that registers nothing unregisters what it removes. -/
theorem remove (h : L.Keeps s x) {request : IndexRequest} (hne : ∀ i, request ≠ .insert i)
    (htracked : KeyIndex.Exact s x' (request.track L.indices (L.reply request))) :
    ({ L with registered := L.register s.layout request } : Ledger).Keeps s x' := by
  have htrack : request.track L.indices (L.reply request) =
      (request.removed (L.reply request)).elim L.indices L.indices.erase := by
    rw [IndexRequest.track]
    · cases request.removed (L.reply request) <;> rfl
    · exact hne
  have hregister : L.register s.layout request = (request.removed (L.reply request)).elim
      L.registered fun i => L.registered.erase (L.keyOf s.layout i) := by
    rw [register]
    · cases request.removed (L.reply request) <;> rfl
    · exact hne
  rw [htrack] at htracked
  rw [hregister]
  cases hremoved : request.removed (L.reply request) with
  | some i =>
    rw [hremoved] at htracked
    exact h.erase (mem_of_removed hremoved) htracked
  | none =>
    rw [hremoved] at htracked
    exact h.reindex h.keyed htracked

theorem call (h : L.Keeps s x) {call : IndexCall} (hcall : L.Allows s (.keyed call)) :
    L.Serves s x (.keyed call) := by
  obtain ⟨answer, x', hrun, -, hanswers, htracked⟩ := h.tracked.perform (h.faithful hcall)
  obtain rfl := h.reply_eq hanswers
  refine ⟨.keyed (L.reply (call.request s)), s, x', by simp [StoreCall.perform, hrun],
    fun _ => ⟨rfl, ?_⟩⟩
  change ({ L with registered := L.register s.layout (call.request s) } : Ledger).Keeps s x'
  -- only an insertion registers; any other request takes away what it has found
  by_cases hinsert : ∃ index, call.request s = .insert index
  · obtain ⟨index, hrequest⟩ := hinsert
    obtain rfl : call = .insert index := by
      cases call <;> grind [IndexCall.request]
    exact h.insert ((h.live_iff index).mpr hcall.1) hcall.2 htracked
  · exact h.remove (fun i hrequest => hinsert ⟨i, hrequest⟩) htracked

/-- An allowed call is answered as the ledger says. -/
theorem perform (h : L.Keeps s x) {call : StoreCall} (hcall : L.Allows s call) :
    L.Serves s x call := by
  cases call with
  | create src => exact h.create hcall
  | write index src => exact h.write hcall
  | free index => exact h.free hcall
  | keyed call => exact h.call hcall

end Keeps

end Ledger

end RecordArena
