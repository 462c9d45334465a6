import RecordArena.Proofs.InPlace.Refusals
import RecordArena.Proofs.InlineMap.Runs
import RecordArena.Proofs.KeyIndex.Calls
import RecordArena.Proofs.Probing.Peak

/-!
# Capacities of maps and key indexes

Any answered call of a map or of a key index is one step of its table, so the capacity of either is
a function of the largest length that it had: removing and clearing take nothing back, and putting
the same keys again grows nothing. A rehash is reported by the calls that raise the length above
the limit, and by no other.

## Main definitions

* `MapCall.events`, `IndexCall.events` – the events that a call reports.
* `KeyIndex.Runs` – the indexes that calls lead to, with the largest length so far.

## Main statements

* `MapCall.step`, `IndexCall.step` – an answered call is a step of the table.
* `capacity_follows_peak` – capacities and rehashes of both, after any run.
-/

namespace RecordArena

theorem Rows.freshSlots (backing : Backing) (width : Nat) :
    Table.FreshSlots fun capacity => Rows.allocate backing capacity width := by
  intro capacity rows h
  dsimp only at h ⊢
  by_cases hblock : capacity * (width + 1) ≤ backing.limit
  · rw [Rows.allocate_eq_pure hblock] at h ⊢
    cases h
    exact ⟨rfl, rfl⟩
  · rw [Rows.allocate_of_lt (Nat.lt_of_not_le hblock)] at h
    cases h

theorem Cells.freshSlots : Table.FreshSlots fun capacity => pure (Cells.vacant capacity) := by
  intro capacity cells h
  cases h
  exact ⟨Cells.capacity_vacant capacity, rfl⟩

namespace InlineMap

variable {V : Type} [FixedWidth V] {m m' : InlineMap V} {key : Bytes} {value : V}

/-- One step of the table of a map. -/
def Step (m : InlineMap V) (events : List Event) (m' : InlineMap V) : Prop :=
  Table.Step (fun capacity => Rows.allocate m.backing capacity (payloadWidth V m.layout))
    .mapRehashed m.table events m'.table

theorem put_step {previous : Option V} (h : (m.put key value).outcome = .ok (previous, m')) :
    m.Step (m.put key value).events m' := by
  obtain ⟨⟨⟩, hcheck, hsteps⟩ := Traced.outcome_bind_eq_ok h
  obtain ⟨r, hlocate, -⟩ := Traced.outcome_bind_eq_ok hsteps
  have hkey := size_of_checkKey (Traced.outcome_liftError_eq_ok hcheck)
  have hlocate := Traced.outcome_liftFault_eq_ok hlocate
  cases r with
  | found slot old =>
    rw [put_of_found hkey hlocate] at h ⊢
    cases h
    exact .overwrite slot _
  | vacant slot =>
    rw [put_of_vacant hkey hlocate, Traced.outcome_map] at h
    rw [put_of_vacant hkey hlocate, Traced.events_map]
    obtain ⟨t', hsettle, h⟩ := map_eq_ok h
    cases h
    exact .add hsettle

/-- A put that is refused has reported nothing and changed nothing. -/
theorem answerPut_step {answer : MapAnswer V}
    (h : MapCall.answerPut m (m.put key value).outcome = .ok (answer, m')) :
    m.Step (m.put key value).events m' := by
  cases hcheck : m.checkKey key with
  | error error =>
    have hput : m.put key value = Traced.fail (.refused error) := by
      rw [put, hcheck]
      rfl
    rw [hput] at h ⊢
    cases h
    exact .keep
  | ok _ =>
    have hunrefused : (m.put key value).Unrefused := put_unrefused hcheck
    cases hout : (m.put key value).outcome with
    | ok result =>
      rw [hout] at h
      cases h
      exact put_step hout
    | error failure =>
      rw [hout] at h
      cases failure with
      | refused error => exact (hunrefused error hout).elim
      | faulted fault => cases h

theorem remove_step {previous : Option V} (h : m.remove key = .ok (previous, m')) :
    m.Step [] m' := by
  obtain ⟨found, -, h⟩ := bind_eq_ok h
  cases found with
  | none =>
    cases h
    exact .keep
  | some located =>
    obtain ⟨t', htake, h⟩ := bind_eq_ok h
    cases h
    exact .take htake

end InlineMap

namespace MapCall

variable {V : Type} [FixedWidth V] [DecidableEq V] {m m' : InlineMap V}

omit [DecidableEq V] in
/-- The events of a call. Only putting a value can report any. -/
def events (m : InlineMap V) : MapCall V → List Event
  | put key value => (m.put key value).events
  | putRecord view value => (m.putRecord view value).events
  | _ => []

/-- An answered call is one step of the table. -/
theorem step {call : MapCall V} {answer : MapAnswer V}
    (h : call.perform m = .ok (answer, m')) : m.Step (call.events m) m' := by
  cases call with
  | put key value => exact InlineMap.answerPut_step h
  | putRecord view value =>
    rw [perform, InlineMap.putRecord] at h
    rw [events, InlineMap.putRecord]
    cases hkey : m.layout.checkedKey view with
    | ok key =>
      rw [hkey] at h
      exact InlineMap.answerPut_step h
    | error failure =>
      rw [hkey] at h
      cases failure with
      | refused error =>
        cases h
        exact .keep
      | faulted fault => cases h
  | remove key =>
    obtain ⟨⟨previous, m₁⟩, hremove, h⟩ := bind_eq_ok h
    cases h
    exact InlineMap.remove_step hremove
  | removeRecord view =>
    obtain ⟨⟨previous, m₁⟩, hremove, h⟩ := bind_eq_ok h
    cases h
    obtain ⟨key, -, hremove⟩ := bind_eq_ok hremove
    cases key with
    | none =>
      cases hremove
      exact .keep
    | some key => exact InlineMap.remove_step hremove
  | get key =>
    obtain ⟨previous, -, h⟩ := bind_eq_ok h
    cases h
    exact .keep
  | getRecord view =>
    obtain ⟨previous, -, h⟩ := bind_eq_ok h
    cases h
    exact .keep
  | hasKey key =>
    obtain ⟨found, -, h⟩ := bind_eq_ok h
    cases h
    exact .keep
  | hasValue value =>
    cases h
    exact .keep
  | clear =>
    cases h
    exact .clear rfl

end MapCall

namespace KeyIndex

variable {s : Slab} {x x' : KeyIndex}

/-- One step of the table of a key index. -/
def Step (x : KeyIndex) (events : List Event) (x' : KeyIndex) : Prop :=
  Table.Step (fun capacity => pure (Cells.vacant capacity)) .indexRehashed x.table events x'.table

theorem insert_step {index : UInt32} (h : (x.insert s index).outcome = .ok x') :
    x.Step (x.insert s index).events x' := by
  obtain ⟨hash, hhash, hsteps⟩ := Traced.outcome_bind_eq_ok h
  obtain ⟨r, hlocate, -⟩ := Traced.outcome_bind_eq_ok hsteps
  have hhash := Traced.outcome_liftFault_eq_ok hhash
  have hlocate := Traced.outcome_liftFault_eq_ok hlocate
  cases r with
  | found slot e =>
    rw [insert_of_found hhash hlocate] at h ⊢
    cases h
    exact .keep
  | vacant slot =>
    rw [insert_of_vacant hhash hlocate, Traced.outcome_map] at h
    rw [insert_of_vacant hhash hlocate, Traced.events_map]
    obtain ⟨t', hsettle, rfl⟩ := map_eq_ok h
    exact .add hsettle

theorem takeFound_step {found : Option (Nat × UInt32)} {index : Option UInt32}
    (h : x.takeFound s found = .ok (index, x')) : x.Step [] x' := by
  cases found with
  | none =>
    cases h
    exact .keep
  | some located =>
    obtain ⟨t', htake, h⟩ := bind_eq_ok h
    cases h
    exact .take htake

theorem removeKeyHashed_step {key : Bytes} {hash : Int32} {index : Option UInt32}
    (h : x.removeKeyHashed s key hash = .ok (index, x')) : x.Step [] x' := by
  obtain ⟨found, -, h⟩ := bind_eq_ok h
  exact takeFound_step h

theorem removeIndexHashed_step {index : UInt32} {hash : Int32} {removed : Bool}
    (h : x.removeIndexHashed s index hash = .ok (removed, x')) : x.Step [] x' := by
  obtain ⟨found, -, h⟩ := bind_eq_ok h
  obtain ⟨⟨index, x₁⟩, htake, h⟩ := bind_eq_ok h
  cases h
  exact takeFound_step htake

end KeyIndex

namespace IndexCall

variable {s : Slab} {x x' : KeyIndex}

/-- The events of a call. Only registering an index can report any. -/
def events (x : KeyIndex) (s : Slab) : IndexCall → List Event
  | insert index => (x.insert s index).events
  | _ => []

/-- An answered call is one step of the table, whatever the slab is. -/
theorem step {call : IndexCall} {answer : IndexAnswer}
    (h : call.perform x s = .ok (answer, x')) : x.Step (call.events x s) x' := by
  cases call with
  | insert index =>
    obtain ⟨x₁, hinsert, h⟩ := bind_eq_ok h
    cases h
    exact KeyIndex.insert_step hinsert
  | removeKey key =>
    obtain ⟨⟨index, x₁⟩, hremove, h⟩ := bind_eq_ok h
    cases h
    exact KeyIndex.removeKeyHashed_step (mapError_eq_ok hremove)
  | removeKeyHashed key hash =>
    obtain ⟨⟨index, x₁⟩, hremove, h⟩ := bind_eq_ok h
    cases h
    exact KeyIndex.removeKeyHashed_step (mapError_eq_ok hremove)
  | removeKeyOf view =>
    obtain ⟨⟨index, x₁⟩, hremove, h⟩ := bind_eq_ok h
    cases h
    obtain ⟨key, -, hremove⟩ := bind_eq_ok (mapError_eq_ok hremove)
    cases key with
    | none =>
      cases hremove
      exact .keep
    | some key => exact KeyIndex.removeKeyHashed_step hremove
  | removeIndex index =>
    obtain ⟨⟨removed, x₁⟩, hremove, h⟩ := bind_eq_ok h
    cases h
    obtain ⟨hash, -, hremove⟩ := bind_eq_ok (mapError_eq_ok hremove)
    exact KeyIndex.removeIndexHashed_step hremove
  | removeIndexAs index view =>
    obtain ⟨⟨removed, x₁⟩, hremove, h⟩ := bind_eq_ok h
    cases h
    obtain ⟨key, -, hremove⟩ := bind_eq_ok (mapError_eq_ok hremove)
    cases key with
    | none =>
      cases hremove
      exact .keep
    | some key => exact KeyIndex.removeIndexHashed_step hremove
  | find key =>
    obtain ⟨found, -, h⟩ := bind_eq_ok h
    cases h
    exact .keep
  | findHashed key hash =>
    obtain ⟨found, -, h⟩ := bind_eq_ok h
    cases h
    exact .keep
  | findRecord view =>
    obtain ⟨found, -, h⟩ := bind_eq_ok h
    cases h
    exact .keep

end IndexCall

theorem InlineMap.Represents.peaked {V : Type} [FixedWidth V] {c : MapSetting} {peak : Nat}
    {m : InlineMap V} {map : KeyMap V} (h : Represents c peak m map) :
    Table.Peaked c.start c.factor peak m.table where
  capacity_eq := h.tallied.capacity_eq
  loadFactor_eq := h.loadFactor_eq
  limit_eq := h.loadFactor_eq ▸ h.tallied.limit_eq
  settlesAt := h.settlesAt
  count_le := h.count_le
  count_le_peak := h.count_le_peak

namespace KeyIndex

/-- Calls lead to `x` from an empty index, each of them answered, on whatever the slab is then, and
`peak` is the largest length on the way. All capacities are below `2 ^ 62`. -/
inductive Runs (config : TableConfig) : KeyIndex → Nat → Prop where
  | new {x : KeyIndex} (hnew : KeyIndex.new config = .ok x) : Runs config x 0
  | call {s : Slab} {x x' : KeyIndex} {peak : Nat} {call : IndexCall} {answer : IndexAnswer}
    (hruns : Runs config x peak) (hcall : call.perform x s = .ok (answer, x'))
    (hcapacity : x'.capacity < 2 ^ 62) : Runs config x' (max peak x'.len)

namespace Runs

variable {config : TableConfig} {x : KeyIndex} {peak start : Nat}

theorem capacity_lt (h : Runs config x peak) : x.capacity < 2 ^ 62 := by
  cases h with
  | new hnew =>
    obtain ⟨start, hconfig, hnew⟩ := bind_eq_ok hnew
    cases hnew
    obtain ⟨-, k, hk, rfl⟩ := TableConfig.capacity_eq_ok hconfig
    have hcapacity : Slots.capacity (Cells.vacant (2 ^ k)) < 2 ^ 62 := by
      rw [Cells.capacity_vacant]
      exact Nat.pow_lt_pow_right (by omega) (by omega)
    exact hcapacity
  | call hruns hcall hcapacity => exact hcapacity

theorem peaked (h : Runs config x peak) (hconfig : config.capacity = .ok start) :
    Table.Peaked start config.loadFactor peak x.table := by
  obtain ⟨hf, k, -, rfl⟩ := TableConfig.capacity_eq_ok hconfig
  induction h with
  | new hnew =>
    rw [KeyIndex.new, hconfig] at hnew
    cases hnew
    exact .ofSlots (Cells.capacity_vacant _)
  | call hruns hcall hcapacity ih =>
    exact ((IndexCall.step hcall).peaked hf Cells.freshSlots ih
      (hruns.capacity_lt.trans (by decide))).1

end Runs

end KeyIndex

/-- After any run of a map or of a key index, removals and clearing included, the capacity is the
first doubling of the initial capacity whose exact limit holds the largest length so far, and the
limit holds the length. The next call reports one rehash, with the capacity and the length after
it, if it raises the length above the limit; otherwise it reports nothing. -/
theorem capacity_follows_peak {config : TableConfig} {start : Nat}
    (hconfig : config.capacity = .ok start) :
    (∀ (V : Type) [FixedWidth V] [DecidableEq V] (layout : RecordLayout) (backing : Backing)
      (m : InlineMap V) (peak : Nat), InlineMap.Runs layout config backing m peak →
      FollowsPeak start config.loadFactor peak m.capacity m.len ∧
      ∀ (call : MapCall V) (answer : MapAnswer V) (m' : InlineMap V),
        call.perform m = .ok (answer, m') →
        ReportsGrowth config.loadFactor .mapRehashed m.capacity m.len m'.capacity m'.len
          (call.events m)) ∧
    ∀ (x : KeyIndex) (peak : Nat), KeyIndex.Runs config x peak →
      FollowsPeak start config.loadFactor peak x.capacity x.len ∧
      ∀ (s : Slab) (call : IndexCall) (answer : IndexAnswer) (x' : KeyIndex),
        call.perform x s = .ok (answer, x') →
        ReportsGrowth config.loadFactor .indexRehashed x.capacity x.len x'.capacity x'.len
          (call.events x s) := by
  obtain ⟨hf, k, -, rfl⟩ := TableConfig.capacity_eq_ok hconfig
  refine ⟨?_, ?_⟩
  · intro V _ _ layout backing m peak hruns
    obtain ⟨start, map, -, hstart, h, hroom⟩ := hruns.represents
    obtain rfl : 2 ^ k = start := Except.ok.inj (hconfig.symm.trans hstart)
    have hcapacity := h.capacity_lt hroom
    refine ⟨h.peaked.followsPeak hf, fun call answer m' hcall => ?_⟩
    exact ((MapCall.step hcall).peaked hf (Rows.freshSlots _ _) h.peaked (by omega)).2
  · intro x peak hruns
    have hpeaked := hruns.peaked hconfig
    refine ⟨hpeaked.followsPeak hf, fun s call answer x' hcall => ?_⟩
    exact ((IndexCall.step hcall).peaked hf Cells.freshSlots hpeaked
      (hruns.capacity_lt.trans (by decide))).2

/-- Two slots hold one entry. The second entry makes them four, in a map and in an index. -/
theorem capacity_follows_peak_doubled :
    ∃ (m m' : InlineMap Int32) (s : Slab) (x x' : KeyIndex) (answer : MapAnswer Int32)
      (answer' : IndexAnswer), TableConfig.capacity { initialCapacity := 2 } = .ok 2 ∧
      InlineMap.Runs { size := 1 } { initialCapacity := 2 } .heap m 1 ∧
      (MapCall.put #[2] 2).perform m = .ok (answer, m') ∧
      FollowsPeak 2 .half 1 m.capacity m.len ∧
      (MapCall.put #[2] 2).events m = [.mapRehashed 4 2] ∧
      KeyIndex.Runs { initialCapacity := 2 } x 1 ∧
      (IndexCall.insert 1).perform x s = .ok (answer', x') ∧
      FollowsPeak 2 .half 1 x.capacity x.len ∧
      (IndexCall.insert 1).events x s = [.indexRehashed 4 2] := by
  obtain ⟨m₀, hm₀, hmaps⟩ : ∃ m₀ : InlineMap Int32,
      (InlineMap.new Int32 { size := 1 } { initialCapacity := 2 } .heap).outcome = .ok m₀ ∧
      ((MapCall.put #[1] 1).perform m₀ >>= fun r =>
        (fun r' => (r.2.capacity, r.2.len, r'.2.capacity, r'.2.len)) <$>
          (MapCall.put #[2] 2).perform r.2) = .ok (2, 1, 4, 2) := ⟨_, rfl, by decide +kernel⟩
  obtain ⟨s, x₀, -, hx₀, hindexes⟩ : ∃ (s : Slab) (x₀ : KeyIndex),
      (Slab.new { size := 8 } { pageSize := 2, initialPages := 1 } .heap).outcome = .ok s ∧
      KeyIndex.new { initialCapacity := 2 } = .ok x₀ ∧
      ((IndexCall.insert 0).perform x₀ s >>= fun r =>
        (fun r' => (r.2.capacity, r.2.len, r'.2.capacity, r'.2.len)) <$>
          (IndexCall.insert 1).perform r.2 s) = .ok (2, 1, 4, 2) :=
    ⟨_, _, rfl, rfl, by decide +kernel⟩
  obtain ⟨⟨_, m⟩, hm, hmaps⟩ := bind_eq_ok hmaps
  obtain ⟨⟨answer, m'⟩, hm', hmaps⟩ := map_eq_ok hmaps
  obtain ⟨⟨_, x⟩, hx, hindexes⟩ := bind_eq_ok hindexes
  obtain ⟨⟨answer', x'⟩, hx', hindexes⟩ := map_eq_ok hindexes
  simp only [Prod.mk.injEq] at hmaps hindexes
  obtain ⟨hmcap, hmlen, hmcap', hmlen'⟩ := hmaps
  obtain ⟨hxcap, hxlen, hxcap', hxlen'⟩ := hindexes
  have hmruns := (InlineMap.Runs.new hm₀).call hm
  have hxruns := (KeyIndex.Runs.new hx₀).call hx (by rw [hxcap]; decide)
  rw [hmlen, Nat.zero_max] at hmruns
  rw [hxlen, Nat.zero_max] at hxruns
  have hconfig : TableConfig.capacity { initialCapacity := 2 } = .ok 2 := rfl
  have hlimit : exactLimit 2 .half = 1 := by
    rw [exactLimit_eq (by decide)]
    decide
  obtain ⟨hmap, hindex⟩ := capacity_follows_peak hconfig
  obtain ⟨hmfollows, hmnext⟩ := hmap Int32 _ _ m 1 hmruns
  obtain ⟨hxfollows, hxnext⟩ := hindex x 1 hxruns
  have hmevents := (hmnext _ _ m' hm').events_eq
  have hxevents := (hxnext s _ _ x' hx').events_eq
  rw [hmcap, hmcap', hmlen', hlimit, if_pos (by decide)] at hmevents
  rw [hxcap, hxcap', hxlen', hlimit, if_pos (by decide)] at hxevents
  exact ⟨m, m', s, x, x', answer, answer', hconfig, hmruns, hm', hmfollows, hmevents, hxruns, hx',
    hxfollows, hxevents⟩

end RecordArena
