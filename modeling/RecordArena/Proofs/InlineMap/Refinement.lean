import RecordArena.Proofs.InlineMap.Represents
import RecordArena.Proofs.Record.Layout

/-!
# Inline maps refine finite maps

Any sequence of calls of an inline map is answered as a finite map answers it. `MapCall.perform`
is one call of the inline map, `MapCall.expected` what a finite map with keys of one width makes of
it.

## Main statements

* `InlineMap.Represents.perform` – one call keeps the map represented and is answered as expected.
* `InlineMap.run_refines` – from a fresh map, every call of a run is.
-/

namespace RecordArena

/-- One call of an inline map. -/
inductive MapCall (V : Type) where
  | put (key : Bytes) (value : V)
  | putRecord (view : Bytes) (value : V)
  | get (key : Bytes)
  | getRecord (view : Bytes)
  | remove (key : Bytes)
  | removeRecord (view : Bytes)
  | hasKey (key : Bytes)
  | hasValue (value : V)
  | clear
  deriving DecidableEq

inductive MapAnswer (V : Type) where
  /-- The value that a key has or had. -/
  | value (value : Option V)
  | flag (flag : Bool)
  | refused (error : Error)
  | done
  deriving DecidableEq

namespace MapCall

variable {V : Type}

section Perform

variable [FixedWidth V]

/-- The answer to a change that may be refused, which leaves `m` as it was. -/
def answerPut (m : InlineMap V) (outcome : Except Failure (Option V × InlineMap V)) :
    Except Fault (MapAnswer V × InlineMap V) :=
  match outcome with
  | .ok (previous, m') => .ok (.value previous, m')
  | .error (.refused error) => .ok (.refused error, m)
  | .error (.faulted fault) => .error fault

def perform [DecidableEq V] (m : InlineMap V) : MapCall V → Except Fault (MapAnswer V × InlineMap V)
  | put key value => answerPut m (m.put key value).outcome
  | putRecord view value => answerPut m (m.putRecord view value).outcome
  | get key => do pure (.value (← m.get key), m)
  | getRecord view => do pure (.value (← m.getRecord view), m)
  | remove key => do
    let (value, m) ← m.remove key
    pure (.value value, m)
  | removeRecord view => do
    let (value, m) ← m.removeRecord view
    pure (.value value, m)
  | hasKey key => do pure (.flag (← m.hasKey key), m)
  | hasValue value => pure (.flag (m.hasValue value), m)
  | clear => pure (.done, m.clear)

/-- Performs calls in order. Every answer comes with the length of the map after it. -/
def performAll [DecidableEq V] (m : InlineMap V) :
    List (MapCall V) → Except Fault (List (MapAnswer V × Nat) × InlineMap V)
  | [] => pure ([], m)
  | call :: calls => do
    let (answer, m) ← call.perform m
    let (answers, m') ← performAll m calls
    pure ((answer, m.len) :: answers, m')

end Perform

section Expected

variable (layout : RecordLayout) (map : KeyMap V)

/-- Putting a value by a key, which must have the width of the layout. -/
def expectedPut (key : Bytes) (value : V) : MapAnswer V × KeyMap V :=
  if layout.keyLen < key.size then (.refused (.capacity key.size layout.keyLen), map)
  else if key.size < layout.keyLen then (.refused (.keyWidth layout.keyLen key.size), map)
  else (.value (map.lookup key), map.insert key value)

/-- The value of a key; a key of another width has none. -/
def expectedGet (key : Bytes) : Option V :=
  if key.size = layout.keyLen then map.lookup key else none

/-- Removing a key; a key of another width is not there. -/
def expectedRemove (key : Bytes) : MapAnswer V × KeyMap V :=
  if key.size = layout.keyLen then (.value (map.lookup key), map.erase key) else (.value none, map)

/-- What a finite map answers to a call, and the finite map after it. -/
def expected [DecidableEq V] : MapCall V → MapAnswer V × KeyMap V
  | put key value => expectedPut layout map key value
  | putRecord view value =>
    if view.size < layout.size then (.refused (.keyWidth layout.size view.size), map)
    else expectedPut layout map (layout.keyIn view) value
  | get key => (.value (expectedGet layout map key), map)
  | getRecord view =>
    if view.size < layout.size then (.value none, map)
    else (.value (expectedGet layout map (layout.keyIn view)), map)
  | remove key => expectedRemove layout map key
  | removeRecord view =>
    if view.size < layout.size then (.value none, map)
    else expectedRemove layout map (layout.keyIn view)
  | hasKey key => (.flag (expectedGet layout map key).isSome, map)
  | hasValue value => (.flag (decide (∃ key ∈ map.keys, map.lookup key = some value)), map)
  | clear => (.done, ∅)

/-- What a finite map answers to calls in order, each answer with the number of keys after it. -/
def expectedAll [DecidableEq V] (map : KeyMap V) :
    List (MapCall V) → List (MapAnswer V × Nat) × KeyMap V
  | [] => ([], map)
  | call :: calls =>
    let (answer, map) := call.expected layout map
    let (answers, map') := expectedAll map calls
    ((answer, map.keys.card) :: answers, map')

/-- The largest number of keys during calls in order. -/
def peak [DecidableEq V] (map : KeyMap V) : List (MapCall V) → Nat
  | [] => map.keys.card
  | call :: calls => max map.keys.card (peak (call.expected layout map).2 calls)

theorem card_le_peak [DecidableEq V] (map : KeyMap V) (calls : List (MapCall V)) :
    map.keys.card ≤ peak layout map calls := by
  cases calls with
  | nil => exact Nat.le_refl _
  | cons call calls => exact Nat.le_max_left _ _

end Expected

end MapCall

namespace InlineMap

variable {V : Type} [FixedWidth V]

namespace Represents

variable {c : MapSetting} {peak : Nat} {m : InlineMap V} {map : KeyMap V}

/-- A call that changes nothing raises no peak. -/
theorem unchanged (h : Represents c peak m map) : Represents c (max peak map.keys.card) m map := by
  have hpeak := h.count_le_peak
  rw [h.count_eq] at hpeak
  rwa [Nat.max_eq_left hpeak]

theorem expectedGet_eq (h : Represents c peak m map) (key : Bytes) :
    MapCall.expectedGet c.layout map key = map.lookup key := by
  rw [MapCall.expectedGet]
  by_cases hsize : key.size = c.layout.keyLen
  · rw [if_pos hsize]
  · rw [if_neg hsize, Finmap.lookup_eq_none.mpr fun hkey => hsize (h.size_key hkey)]

/-- Putting a value is answered as expected, refusals included. -/
theorem answerPut (h : Represents c peak m map) (key : Bytes) (value : V)
    (hroom : c.Room V (max peak (MapCall.expectedPut c.layout map key value).2.keys.card)) :
    ∃ m', MapCall.answerPut m (m.put key value).outcome =
        .ok ((MapCall.expectedPut c.layout map key value).1, m') ∧
      Represents c (max peak (MapCall.expectedPut c.layout map key value).2.keys.card) m'
        (MapCall.expectedPut c.layout map key value).2 := by
  rw [MapCall.expectedPut] at hroom ⊢
  rcases Nat.lt_trichotomy c.layout.keyLen key.size with hlong | heq | hshort
  · rw [if_pos hlong]
    refine ⟨m, ?_, h.unchanged⟩
    simp [InlineMap.put, checkKey, h.layout_eq, hlong, MapCall.answerPut]
  · rw [if_neg (by omega), if_neg (by omega)] at hroom ⊢
    obtain ⟨m', hrun, h'⟩ := h.put heq.symm value hroom
    exact ⟨m', by rw [hrun]; rfl, h'⟩
  · rw [if_neg (by omega), if_pos hshort]
    refine ⟨m, ?_, h.unchanged⟩
    rw [InlineMap.put, checkKey, h.layout_eq, if_neg (by omega), if_pos hshort]
    rfl

theorem expectedRemove_eq (h : Represents c peak m map) (key : Bytes) :
    MapCall.expectedRemove c.layout map key = (.value (map.lookup key), map.erase key) := by
  rw [MapCall.expectedRemove]
  by_cases hsize : key.size = c.layout.keyLen
  · rw [if_pos hsize]
  · have hkey : key ∉ map := fun hkey => hsize (h.size_key hkey)
    rw [if_neg hsize, Finmap.lookup_eq_none.mpr hkey, KeyMap.erase_of_notMem hkey]

/-- One call is answered as a finite map answers it. -/
theorem perform [DecidableEq V] (h : Represents c peak m map) (hvalid : c.layout.validate = .ok ())
    (call : MapCall V) (hroom : c.Room V (max peak (call.expected c.layout map).2.keys.card)) :
    ∃ m', call.perform m = .ok ((call.expected c.layout map).1, m') ∧
      Represents c (max peak (call.expected c.layout map).2.keys.card) m'
        (call.expected c.layout map).2 := by
  have hroom' : c.Room V peak := hroom.mono (Nat.le_max_left _ _)
  cases call with
  | put key value => exact h.answerPut key value hroom
  | putRecord view value =>
    rw [MapCall.expected] at hroom ⊢
    rw [MapCall.perform, putRecord, Traced.outcome_bind, h.layout_eq, Traced.outcome_liftFailure,
      RecordLayout.checkedKey_eq hvalid]
    split at hroom
    · next hshort =>
      rw [if_pos hshort, if_pos hshort]
      exact ⟨m, rfl, h.unchanged⟩
    · next hlong =>
      rw [if_neg hlong, if_neg hlong]
      exact h.answerPut _ value hroom
  | get key =>
    refine ⟨m, ?_, h.unchanged⟩
    rw [MapCall.perform, h.get, MapCall.expected, h.expectedGet_eq]
    rfl
  | getRecord view =>
    rw [MapCall.perform, getRecord, h.layout_eq, RecordLayout.key?_eq hvalid, MapCall.expected]
    split
    · exact ⟨m, rfl, h.unchanged⟩
    · refine ⟨m, ?_, h.unchanged⟩
      simp only [ok_bind, h.get, h.expectedGet_eq, pure_eq_ok]
  | remove key =>
    obtain ⟨m', hrun, h'⟩ := h.remove hroom' key
    rw [MapCall.perform, MapCall.expected, h.expectedRemove_eq, hrun]
    exact ⟨m', rfl, h'.unchanged⟩
  | removeRecord view =>
    rw [MapCall.perform, removeRecord, h.layout_eq, RecordLayout.key?_eq hvalid, MapCall.expected]
    split
    · exact ⟨m, rfl, h.unchanged⟩
    · obtain ⟨m', hrun, h'⟩ := h.remove hroom' (c.layout.keyIn view)
      simp only [ok_bind, hrun, h.expectedRemove_eq]
      exact ⟨m', rfl, h'.unchanged⟩
  | hasKey key =>
    refine ⟨m, ?_, h.unchanged⟩
    rw [MapCall.perform, InlineMap.hasKey, h.get, MapCall.expected, h.expectedGet_eq]
    rfl
  | hasValue value =>
    refine ⟨m, ?_, h.unchanged⟩
    rw [MapCall.perform, h.hasValue]
    rfl
  | clear => exact ⟨m.clear, rfl, h.clear.unchanged⟩

/-- A run of calls is answered as a finite map answers it. -/
theorem performAll [DecidableEq V] (hvalid : c.layout.validate = .ok ())
    (calls : List (MapCall V)) (h : Represents c peak m map)
    (hroom : c.Room V (max peak (MapCall.peak c.layout map calls))) :
    ∃ m', MapCall.performAll m calls = .ok ((MapCall.expectedAll c.layout map calls).1, m') ∧
      Represents c (max peak (MapCall.peak c.layout map calls)) m'
        (MapCall.expectedAll c.layout map calls).2 := by
  induction calls generalizing m map peak with
  | nil => exact ⟨m, rfl, h.unchanged⟩
  | cons call calls ih =>
    have hpeak := h.count_le_peak
    rw [h.count_eq] at hpeak
    have hcard := MapCall.card_le_peak c.layout (call.expected c.layout map).2 calls
    -- the peak so far already covers the keys before and after the call
    have hmax : max peak (MapCall.peak c.layout map (call :: calls)) =
        max (max peak (call.expected c.layout map).2.keys.card)
          (MapCall.peak c.layout (call.expected c.layout map).2 calls) := by
      rw [MapCall.peak]
      omega
    rw [hmax] at hroom ⊢
    obtain ⟨m₁, hcall, h₁⟩ := h.perform hvalid call (hroom.mono (Nat.le_max_left _ _))
    obtain ⟨m₂, hrest, h₂⟩ := ih h₁ hroom
    refine ⟨m₂, ?_, h₂⟩
    simp only [MapCall.performAll, hcall, hrest, ok_bind, pure_eq_ok, len, h₁.count_eq]
    rfl

end Represents

theorem new_represents (layout : RecordLayout) (config : TableConfig) (backing : Backing)
    (start : Nat) (hvalid : layout.validate = .ok ()) (hconfig : config.capacity = .ok start)
    (hroom : MapSetting.Room V ⟨layout, backing, config.loadFactor, start⟩ 0) :
    ∃ m : InlineMap V, (InlineMap.new V layout config backing).outcome = .ok m ∧
      Represents ⟨layout, backing, config.loadFactor, start⟩ 0 m ∅ := by
  obtain ⟨hfactor, k, -, hstart⟩ := TableConfig.capacity_eq_ok hconfig
  have hblock := Rows.allocate_of_le (hroom 0 (Nat.le_refl 0) start (.zero start _))
  let rows := Rows.vacant start (payloadWidth V layout)
  refine ⟨⟨layout, backing, Table.ofSlots rows config.loadFactor⟩, ?_, ?_⟩
  · simp [InlineMap.new, hvalid, hconfig, hblock, rows]
  · exact .vacant rows rfl rfl rfl hfactor rfl hstart (Rows.isOccupied_vacant _ _)
      (.zero start _)

/-- An inline map from any accepted layout and configuration answers every run of calls as a finite
map does, as long as the tables that its keys need are within the limit of the backing. Its length
is the number of keys after every call. -/
theorem run_refines [DecidableEq V] (layout : RecordLayout) (config : TableConfig)
    (backing : Backing) (start : Nat) (calls : List (MapCall V))
    (hvalid : layout.validate = .ok ()) (hconfig : config.capacity = .ok start)
    (hroom : MapSetting.Room V ⟨layout, backing, config.loadFactor, start⟩
      (MapCall.peak layout ∅ calls)) :
    ∃ m m', (InlineMap.new V layout config backing).outcome = .ok m ∧
      MapCall.performAll m calls = .ok ((MapCall.expectedAll layout ∅ calls).1, m') ∧
      m'.len = (MapCall.expectedAll layout ∅ calls).2.keys.card := by
  obtain ⟨m, hnew, h⟩ := new_represents layout config backing start hvalid hconfig
    (hroom.mono (Nat.zero_le _))
  obtain ⟨m', hrun, h'⟩ := h.performAll hvalid calls (by rwa [Nat.zero_max])
  exact ⟨m, m', hnew, hrun, h'.count_eq⟩

/-- A key of eight bytes is put, overwritten and removed; a key of three bytes has no value. -/
theorem run_refines_overwrite :
    ∃ m m', (InlineMap.new Int32 { size := 8 } {} .heap).outcome = .ok m ∧
      MapCall.performAll m [.put (Bytes.zeros 8) 7, .put (Bytes.zeros 8) 9, .get (Bytes.zeros 3),
        .put (Bytes.zeros 3) 1, .remove (Bytes.zeros 8)] =
        .ok ([(.value none, 1), (.value (some 7), 1), (.value none, 1),
          (.refused (.keyWidth 8 3), 1), (.value (some 9), 0)], m') ∧
      m'.len = 0 :=
  run_refines { size := 8 } {} .heap 8 _ rfl rfl (.of_le_limit (by decide) (by decide))

end InlineMap

end RecordArena
