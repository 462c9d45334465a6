import RecordArena.Proofs.InlineMap.Refinement

/-!
# Runs of an inline map

`InlineMap.Runs` are the maps that calls lead to, whatever they are, as long as each of them is
answered. Nothing is assumed about memory: a larger table that cannot be had is a fault, so a map
that has answered all its calls had room for its peak.

## Main statements

* `InlineMap.Represents.room_perform` – a call that is answered had the room that it needs.
* `InlineMap.Runs.represents` – every map of a run is represented, with its peak.
* `InlineMap.Runs.exists_of_room` – calls within the room of their peak are a run.
-/

namespace RecordArena.InlineMap

variable {V : Type} [FixedWidth V]

/-- Calls lead to `m` from an empty map, each of them answered, and `peak` is the largest length
on the way. -/
inductive Runs [DecidableEq V] (layout : RecordLayout) (config : TableConfig) (backing : Backing) :
    InlineMap V → Nat → Prop where
  | new {m : InlineMap V} (hnew : (InlineMap.new V layout config backing).outcome = .ok m) :
    Runs layout config backing m 0
  | call {m m' : InlineMap V} {peak : Nat} {call : MapCall V} {answer : MapAnswer V}
    (hruns : Runs layout config backing m peak) (hcall : call.perform m = .ok (answer, m')) :
    Runs layout config backing m' (max peak m'.len)

namespace Represents

variable {c : MapSetting} {peak : Nat} {m m' : InlineMap V} {map : KeyMap V} {key : Bytes}

theorem card_le_peak (h : Represents c peak m map) : map.keys.card ≤ peak :=
  h.count_eq ▸ h.count_le_peak

theorem hasKey_eq (h : Represents c peak m map) (key : Bytes) :
    m.hasKey key = .ok (decide (key ∈ map.keys)) := by
  rw [InlineMap.hasKey, h.get, ok_map]
  congr 1
  rw [Bool.eq_iff_iff, decide_eq_true_eq, Finmap.mem_keys, Finmap.lookup_isSome]

/-- A map with fewer keys than the peak needs no more room. -/
theorem room_of_le (hroom : c.Room V peak) (h : Represents c peak m' map) :
    c.Room V (max peak map.keys.card) := by
  rwa [Nat.max_eq_left h.card_le_peak]

/-- A larger table that cannot be had is a fault. -/
theorem put_faulted {slot : Nat} (h : Represents c peak m map) (hkey : key.size = c.layout.keyLen)
    (hrun : m.locate key = .ok (.vacant slot)) (value : V)
    (hlt : m.table.limit < m.table.count + 1)
    (hblock : c.backing.limit < grownCapacity m.table.capacity (m.table.count + 1)
      m.table.loadFactor * (payloadWidth V c.layout + 1)) :
    ∃ fault, (m.put key value).outcome = .error (.faulted fault) := by
  have hsettle : (m.withEntry slot (payload key value)).outcome = .error (.faulted _) :=
    Table.settle_eq_error hlt (by
      rw [Table.capacity_add, h.backing_eq, h.layout_eq]
      exact Rows.allocate_of_lt hblock)
  have hput := congrArg Traced.outcome (put_of_vacant (by rw [h.layout_eq, hkey]) hrun value)
  rw [Traced.outcome_map, hsettle, error_map] at hput
  exact ⟨_, hput⟩

/-- A put that is answered had the room that it needs. -/
theorem room_put (h : Represents c peak m map) (hroom : c.Room V peak)
    (hkey : key.size = c.layout.keyLen) (value : V) {answered : MapAnswer V × InlineMap V}
    (hput : MapCall.answerPut m (m.put key value).outcome = .ok answered) :
    c.Room V (max peak (map.insert key value).keys.card) := by
  obtain ⟨slot, old, hrun, hslot, hold, hkeyold, -⟩ | ⟨slot, hrun, hslot, hvacant, hnew, hpath⟩ :=
    h.locate key
  · exact room_of_le hroom (h.overwrite hkey value hslot hold hkeyold).2
  rw [(h.add hkey value hslot hvacant hnew hpath).1]
  have hcap := h.capacity_lt hroom
  have hlimit := h.tallied.limit_lt
  have hle := h.count_le
  have hlimit_eq := h.tallied.limit_eq
  rw [h.loadFactor_eq] at hlimit_eq
  obtain ⟨-, -, hhold, -⟩ := id h.settlesAt
  by_cases hlt : m.table.limit < m.table.count + 1
  · have hcount : m.table.count + 1 ≤ Numeric.maxCount := by
      rw [Numeric.maxCount]
      omega
    refine .of_settlesAt (h.settlesAt_grown hcount hlt) (Nat.le_of_not_lt fun hblock => ?_)
    obtain ⟨fault, hfault⟩ := h.put_faulted hkey hrun value hlt hblock
    rw [hfault] at hput
    cases hput
  · refine .of_settlesAt (h.settlesAt.of_le (Nat.le_max_left _ _) ?_)
      (hroom peak (Nat.le_refl peak) _ h.settlesAt)
    omega

theorem room_expectedPut (h : Represents c peak m map) (hroom : c.Room V peak) (value : V)
    {answered : MapAnswer V × InlineMap V}
    (hput : MapCall.answerPut m (m.put key value).outcome = .ok answered) :
    c.Room V (max peak (MapCall.expectedPut c.layout map key value).2.keys.card) := by
  rw [MapCall.expectedPut]
  split
  · exact room_of_le hroom h
  split
  · exact room_of_le hroom h
  exact h.room_put hroom (by omega) value hput

/-- A call that is answered had the room that it needs. -/
theorem room_perform [DecidableEq V] (h : Represents c peak m map)
    (hvalid : c.layout.validate = .ok ()) (hroom : c.Room V peak) {call : MapCall V}
    {answered : MapAnswer V × InlineMap V} (hcall : call.perform m = .ok answered) :
    c.Room V (max peak (call.expected c.layout map).2.keys.card) := by
  -- only putting a value can need more room
  have hremove : ∀ key, c.Room V (max peak (MapCall.expectedRemove c.layout map key).2.keys.card) :=
    fun key => by
      obtain ⟨m', -, h'⟩ := h.remove hroom key
      rw [h.expectedRemove_eq]
      exact room_of_le hroom h'
  cases call with
  | put key value => exact h.room_expectedPut hroom value hcall
  | putRecord view value =>
    rw [MapCall.perform, putRecord, Traced.outcome_bind, h.layout_eq, Traced.outcome_liftFailure,
      RecordLayout.checkedKey_eq hvalid] at hcall
    rw [MapCall.expected]
    split
    · exact room_of_le hroom h
    · next hlong =>
      rw [if_neg hlong] at hcall
      exact h.room_expectedPut hroom value hcall
  | get key => exact room_of_le hroom h
  | getRecord view =>
    rw [MapCall.expected]
    split <;> exact room_of_le hroom h
  | remove key => exact hremove key
  | removeRecord view =>
    rw [MapCall.expected]
    split
    · exact room_of_le hroom h
    · exact hremove _
  | hasKey key => exact room_of_le hroom h
  | hasValue value => exact room_of_le hroom h
  | clear => exact room_of_le hroom h.clear

/-- A call that is answered is answered as expected, and the map after it is represented. -/
theorem performed [DecidableEq V] (h : Represents c peak m map)
    (hvalid : c.layout.validate = .ok ()) (hroom : c.Room V peak) {call : MapCall V}
    {answer : MapAnswer V} (hcall : call.perform m = .ok (answer, m')) :
    answer = (call.expected c.layout map).1 ∧
      Represents c (max peak m'.len) m' (call.expected c.layout map).2 ∧
      c.Room V (max peak m'.len) := by
  have hroom' := h.room_perform hvalid hroom hcall
  obtain ⟨m₁, hrun, h'⟩ := h.perform hvalid call hroom'
  rw [hcall] at hrun
  cases hrun
  have hlen : m'.len = (call.expected c.layout map).2.keys.card := h'.count_eq
  rw [hlen]
  exact ⟨rfl, h', hroom'⟩

end Represents

theorem represents_of_new {layout : RecordLayout} {config : TableConfig} {backing : Backing}
    {m : InlineMap V} (hnew : (InlineMap.new V layout config backing).outcome = .ok m) :
    ∃ start, layout.validate = .ok () ∧ config.capacity = .ok start ∧
      Represents ⟨layout, backing, config.loadFactor, start⟩ 0 m ∅ ∧
      MapSetting.Room V ⟨layout, backing, config.loadFactor, start⟩ 0 := by
  obtain ⟨⟨⟩, hvalid, hsteps⟩ := Traced.outcome_bind_eq_ok hnew
  obtain ⟨start, hconfig, hsteps⟩ := Traced.outcome_bind_eq_ok hsteps
  obtain ⟨⟨⟩, -, hsteps⟩ := Traced.outcome_bind_eq_ok hsteps
  obtain ⟨rows, hrows, -⟩ := Traced.outcome_bind_eq_ok hsteps
  have hvalid := Traced.outcome_liftError_eq_ok hvalid
  have hconfig := Traced.outcome_liftError_eq_ok hconfig
  have hblock : start * (payloadWidth V layout + 1) ≤ backing.limit := by
    by_contra hlt
    rw [Rows.allocate_of_lt (Nat.lt_of_not_le hlt)] at hrows
    cases hrows
  have hroom : MapSetting.Room V ⟨layout, backing, config.loadFactor, start⟩ 0 :=
    .of_settlesAt (.zero start _) hblock
  obtain ⟨m', hnew', h⟩ := new_represents layout config backing start hvalid hconfig hroom
  rw [hnew] at hnew'
  cases hnew'
  exact ⟨start, hvalid, hconfig, h, hroom⟩

namespace Runs

variable [DecidableEq V] {layout : RecordLayout} {config : TableConfig} {backing : Backing}
  {m m' : InlineMap V} {peak : Nat}

/-- Every map of a run holds a finite map, at the capacity that its peak settles at. -/
theorem represents (h : Runs layout config backing m peak) :
    ∃ start map, layout.validate = .ok () ∧ config.capacity = .ok start ∧
      Represents ⟨layout, backing, config.loadFactor, start⟩ peak m map ∧
      MapSetting.Room V ⟨layout, backing, config.loadFactor, start⟩ peak := by
  induction h with
  | new hnew =>
    obtain ⟨start, hvalid, hconfig, h, hroom⟩ := represents_of_new hnew
    exact ⟨start, ∅, hvalid, hconfig, h, hroom⟩
  | call _ hcall ih =>
    obtain ⟨start, map, hvalid, hconfig, h, hroom⟩ := ih
    obtain ⟨-, h', hroom'⟩ := h.performed hvalid hroom hcall
    exact ⟨start, _, hvalid, hconfig, h', hroom'⟩

theorem performAll {calls : List (MapCall V)} {answers : List (MapAnswer V × Nat)}
    (h : Runs layout config backing m peak)
    (hcalls : MapCall.performAll m calls = .ok (answers, m')) :
    ∃ peak', Runs layout config backing m' peak' := by
  induction calls generalizing m peak answers with
  | nil =>
    cases hcalls
    exact ⟨peak, h⟩
  | cons call calls ih =>
    obtain ⟨⟨answer, m₁⟩, hcall, hcalls⟩ := bind_eq_ok hcalls
    obtain ⟨⟨rest, m₂⟩, hrest, hcalls⟩ := bind_eq_ok hcalls
    cases hcalls
    exact ih (h.call hcall) hrest

/-- Calls within the room of their peak are a run, and lead to the keys that are expected. -/
theorem exists_of_room {start : Nat} (calls : List (MapCall V)) (hvalid : layout.validate = .ok ())
    (hconfig : config.capacity = .ok start)
    (hnew : (InlineMap.new V layout config backing).outcome = .ok m)
    (hroom : MapSetting.Room V ⟨layout, backing, config.loadFactor, start⟩
      (MapCall.peak layout ∅ calls)) :
    ∃ answers m' peak, MapCall.performAll m calls = .ok (answers, m') ∧
      Runs layout config backing m' peak ∧
      ∀ key, m'.hasKey key = .ok (decide (key ∈ (MapCall.expectedAll layout ∅ calls).2.keys)) := by
  obtain ⟨m₀, hnew', h⟩ := new_represents layout config backing start hvalid hconfig
    (hroom.mono (Nat.zero_le _))
  rw [hnew] at hnew'
  cases hnew'
  obtain ⟨m', hrun, h'⟩ := h.performAll hvalid calls (by rwa [Nat.zero_max])
  obtain ⟨peak, hruns⟩ := (Runs.new hnew).performAll hrun
  exact ⟨_, m', peak, hrun, hruns, h'.hasKey_eq⟩

end Runs

end RecordArena.InlineMap
