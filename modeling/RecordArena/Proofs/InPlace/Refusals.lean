import RecordArena.Proofs.InPlace.Record
import RecordArena.Proofs.InPlace.Table
import RecordArena.Proofs.InlineMap.Refinement

/-!
# Refusals

A request that does not fit is refused with the first reason that applies, and only such a request
is. What was to be changed is then as it was. Where memory gives out the request meets a fault
instead, which is no refusal; a map whose tables have room meets none.

## Main definitions

* `Bytes.RefusesMisfits`, `PaddedKey.RefusesMisfits`, `InlineMap.RefusesMisfits` – what is refused
  by a view, by a key and by a map, and that a refusal keeps them.

## Main statements

* `InlineMap.put_refused_iff`, `InlineMap.putRecord_refused_iff` – what a map refuses.
* `refuses_misfits_only` – views, keys and maps refuse what does not fit, and nothing else.
-/

namespace RecordArena

/-- The computation is not refused, though it may meet a fault. -/
def Traced.Unrefused {α : Type} (x : Traced α) : Prop := ∀ e, x.outcome ≠ .error (.refused e)

namespace Traced.Unrefused

variable {α β : Type}

theorem pure (a : α) : Unrefused (Pure.pure a) := by
  intro e h
  cases h

theorem emit (event : Event) : Unrefused (Traced.emit event) := by
  intro e h
  cases h

theorem fault (fault : Fault) : Unrefused (Traced.fail (.faulted fault) : Traced α) := by
  intro e h
  cases h

theorem bind {x : Traced α} {next : α → Traced β} (hx : x.Unrefused)
    (hnext : ∀ a, (next a).Unrefused) : Unrefused (x >>= next) := by
  intro e h
  rw [outcome_bind] at h
  cases hout : x.outcome with
  | error failure =>
    rw [hout] at h
    cases h
    exact hx e hout
  | ok a =>
    rw [hout] at h
    exact hnext a e h

theorem liftFault (x : Except Fault α) : Unrefused (liftM x) := by
  intro e h
  cases x with
  | error fault => cases h
  | ok a => cases h

end Traced.Unrefused

theorem Rows.allocate_unrefused (backing : Backing) (count width : Nat) :
    (Rows.allocate backing count width).Unrefused := by
  refine .bind ?_ fun _ => .pure _
  cases backing with
  | heap =>
    rw [Backing.reserve]
    split
    · exact .pure ()
    · exact .fault _
  | mapped limit =>
    rw [Backing.reserve]
    split
    · exact .pure ()
    · exact .bind (.emit _) fun _ => .fault _

/-- Growing is not refused when the slots are not. -/
theorem Table.settle_unrefused {τ ε : Type} [Slots τ ε] (t : Table τ)
    (hash : ε → Except Fault Int32) {fresh : Nat → Traced τ}
    (hfresh : ∀ capacity, (fresh capacity).Unrefused) (report : (capacity len : Nat) → Event) :
    (t.settle hash fresh report).Unrefused := by
  rw [settle]
  split
  · exact .bind (hfresh _) fun _ => .bind (.liftFault _) fun _ => .bind (.emit _) fun _ => .pure _
  · exact .pure t

namespace InlineMap

variable {V : Type} [FixedWidth V] {m : InlineMap V} {key view : Bytes} {value : V} {e : Error}

omit [FixedWidth V] in
theorem checkKey_eq_error : m.checkKey key = .error e ↔
    m.layout.keyLen < key.size ∧ e = .capacity key.size m.layout.keyLen ∨
    key.size < m.layout.keyLen ∧ e = .keyWidth m.layout.keyLen key.size := by
  rw [checkKey, eq_comm]
  rcases Nat.lt_trichotomy m.layout.keyLen key.size with hlong | heq | hshort
  · rw [if_pos hlong, Except.error.injEq]
    simp [hlong, Nat.lt_asymm hlong]
  · rw [if_neg (by omega), if_neg (by omega)]
    simp [heq]
  · rw [if_neg (by omega), if_pos hshort, Except.error.injEq]
    simp [hshort, Nat.lt_asymm hshort]

theorem put_unrefused (hkey : m.checkKey key = .ok ()) : (m.put key value).Unrefused := by
  rw [put, hkey, Traced.liftError_ok_bind]
  refine .bind (.liftFault _) fun stop => ?_
  cases stop with
  | found slot old => exact .pure _
  | vacant slot =>
    have hsettle := (m.table.add slot (payload key value)).settle_unrefused (hashOf m.layout)
      (fun capacity => Rows.allocate_unrefused m.backing capacity (payloadWidth V m.layout))
      .mapRehashed
    exact .bind hsettle fun _ => .pure _

/-- A key is refused for its width alone. -/
theorem put_refused_iff : (m.put key value).outcome = .error (.refused e) ↔
    m.layout.keyLen < key.size ∧ e = .capacity key.size m.layout.keyLen ∨
    key.size < m.layout.keyLen ∧ e = .keyWidth m.layout.keyLen key.size := by
  rw [← checkKey_eq_error]
  cases hcheck : m.checkKey key with
  | error e' =>
    rw [put, hcheck]
    change Except.error (Failure.refused e') = _ ↔ _
    simp
  | ok _ =>
    constructor
    · exact fun h => absurd h (put_unrefused hcheck e)
    · intro h
      cases h

/-- A record is refused when it is too short; otherwise its key has the width of the layout. -/
theorem putRecord_refused_iff (hvalid : m.layout.validate = .ok ()) :
    (m.putRecord view value).outcome = .error (.refused e) ↔
      view.size < m.layout.size ∧ e = .keyWidth m.layout.size view.size := by
  rw [putRecord, Traced.outcome_bind, Traced.outcome_liftFailure,
    RecordLayout.checkedKey_eq hvalid, eq_comm]
  by_cases hshort : view.size < m.layout.size
  · rw [if_pos hshort, error_bind]
    simp [hshort]
  · have hsize := RecordLayout.size_keyIn hvalid (Nat.le_of_not_lt hshort)
    rw [if_neg hshort, ok_bind, eq_comm, put_refused_iff, hsize]
    simp [hshort]

end InlineMap

namespace InPlace

variable {V : Type} [FixedWidth V]

theorem put_allOrNothing (key : Bytes) (value : V) (m : InlineMap V) :
    AllOrNothing (put key value) (m.put key value) m where
  toPerforms := put_performs key value m
  kept e h := by
    have hcheck : m.checkKey key = .error e :=
      InlineMap.checkKey_eq_error.mpr (InlineMap.put_refused_iff.mp h)
    rw [put, look_bind, hcheck]
    rfl

theorem putRecord_allOrNothing {m : InlineMap V} (hvalid : m.layout.validate = .ok ())
    (view : Bytes) (value : V) :
    AllOrNothing (putRecord view value) (m.putRecord view value) m where
  toPerforms := putRecord_performs view value m
  kept e h := by
    obtain ⟨hshort, -⟩ := (InlineMap.putRecord_refused_iff hvalid).mp h
    rw [putRecord, look_bind, RecordLayout.checkedKey_eq hvalid, if_pos hshort]
    rfl

end InPlace

/-- The view refuses ranges that leave it, key ranges of no whole number of words, and sources that
are too long, in this order; a refusal leaves all its bytes. -/
structure Bytes.RefusesMisfits (view : Bytes) : Prop where
  slice (offset len : Nat) : view.slice offset len =
    if view.size < offset + len then .error (.index (Numeric.saturatingAdd offset len) view.size)
    else .ok (view.extract offset (offset + len))
  keySlice (offset len : Nat) : PaddedKey.raw <$> view.keySlice offset len =
    if view.size < offset + len then .error (.index (Numeric.saturatingAdd offset len) view.size)
    else if len % keyAlignment ≠ 0 then .error (PaddedKey.unaligned len)
    else .ok (view.extract offset (offset + len))
  putBytes (offset : Nat) (src : Bytes) : view.putBytes offset src =
    if view.size < offset + src.size then
      .error (.capacity (Numeric.saturatingAdd offset src.size) view.size)
    else .ok (view.overwrite offset src.toList)
  setKey (offset len : Nat) (src : Bytes) : view.modifyKey offset len (·.set src) =
    if view.size < offset + len then .error (.index (Numeric.saturatingAdd offset len) view.size)
    else if len % keyAlignment ≠ 0 then .error (PaddedKey.unaligned len)
    else if len < src.size then .error (.capacity src.size len)
    else .ok (view.overwrite offset (PaddedKey.padded src len).toList)
  putBytes_kept (offset : Nat) (src : Bytes) : InPlace.AllOrNothing
    (InPlace.putBytes offset src) (Prod.mk () <$> liftM (view.putBytes offset src)) view
  setKey_kept (offset len : Nat) (src : Bytes) : InPlace.AllOrNothing
    (InPlace.withinKey offset len (InPlace.setContent src))
    (Prod.mk () <$> liftM (view.modifyKey offset len (·.set src))) view

/-- The key refuses sources that are longer than its buffer and targets that are shorter; a refusal
leaves the key and the target. -/
structure PaddedKey.RefusesMisfits (key : PaddedKey) : Prop where
  set (src : Bytes) : raw <$> key.set src =
    if key.capacity < src.size then .error (.capacity src.size key.capacity)
    else .ok (padded src key.capacity)
  setKey (other : PaddedKey) : raw <$> key.setKey other =
    if key.capacity < other.capacity then .error (.capacity other.capacity key.capacity)
    else .ok (padded other.raw key.capacity)
  encodeTo (dst : Bytes) : key.encodeTo dst =
    if dst.size < key.capacity then .error (.capacity key.capacity dst.size)
    else .ok (dst.overwrite 0 key.raw.toList)
  set_kept (src : Bytes) : InPlace.AllOrNothing
    (InPlace.setContent src) (Prod.mk () <$> liftM (key.set src)) key
  setKey_kept (other : PaddedKey) : InPlace.AllOrNothing
    (InPlace.copyKey other) (Prod.mk () <$> liftM (key.setKey other)) key
  encodeTo_kept (dst : Bytes) : InPlace.AllOrNothing
    (InPlace.encode key) (Prod.mk () <$> liftM (key.encodeTo dst)) dst

/-- The map refuses keys of another width than its own and views that are shorter than a record; a
refusal leaves the map. Other requests are answered when its tables have room. -/
structure InlineMap.RefusesMisfits {V : Type} [FixedWidth V] (m : InlineMap V) : Prop where
  put (key : Bytes) (value : V) (e : Error) : (m.put key value).outcome = .error (.refused e) ↔
    m.layout.keyLen < key.size ∧ e = .capacity key.size m.layout.keyLen ∨
    key.size < m.layout.keyLen ∧ e = .keyWidth m.layout.keyLen key.size
  putRecord (view : Bytes) (value : V) (e : Error) :
    (m.putRecord view value).outcome = .error (.refused e) ↔
      view.size < m.layout.size ∧ e = .keyWidth m.layout.size view.size
  put_answered (c : MapSetting) (peak : Nat) (map : KeyMap V) (key : Bytes) (value : V) :
    m.Represents c peak map → c.Room V (max peak (map.insert key value).keys.card) →
      key.size = m.layout.keyLen → ∃ m', (m.put key value).outcome = .ok (map.lookup key, m')
  put_kept (key : Bytes) (value : V) : InPlace.AllOrNothing
    (InPlace.put key value) (m.put key value) m
  putRecord_kept (view : Bytes) (value : V) : InPlace.AllOrNothing
    (InPlace.putRecord view value) (m.putRecord view value) m

/-- Views, keys and maps refuse what does not fit, with sums without a bound and the first reason
that applies, and they refuse nothing else. What a refused request was to change is as it was. -/
theorem refuses_misfits_only {V : Type} [FixedWidth V] (view src : Bytes) (capacity : Nat)
    (key : PaddedKey) (m : InlineMap V) (hview : view.size ≤ Numeric.maxCount)
    (hvalid : m.layout.validate = .ok ()) :
    view.RefusesMisfits ∧ key.RefusesMisfits ∧ m.RefusesMisfits ∧
      PaddedKey.raw <$> PaddedKey.withContent capacity src =
        if capacity % keyAlignment ≠ 0 then .error (.refused (PaddedKey.unaligned capacity))
        else if Backing.heapLimit < capacity then .error (.faulted (.unallocatable capacity))
        else if capacity < src.size then .error (.refused (.capacity src.size capacity))
        else .ok (PaddedKey.padded src capacity) := by
  refine ⟨?view, ?key, ?map, PaddedKey.withContent_eq capacity src⟩
  case view =>
    exact {
      slice := Bytes.slice_eq hview
      keySlice := Bytes.keySlice_eq hview
      putBytes := Bytes.putBytes_eq hview
      setKey := Bytes.modifyKey_set_eq hview
      putBytes_kept := fun offset src => InPlace.putBytes_allOrNothing offset src view
      setKey_kept := fun offset len src =>
        InPlace.withinKey_allOrNothing (InPlace.setContent_allOrNothing src) offset len view }
  case key =>
    exact {
      set := key.set_eq
      setKey := fun other => key.set_eq other.raw
      encodeTo := key.encodeTo_eq
      set_kept := fun src => InPlace.setContent_allOrNothing src key
      setKey_kept := fun other => InPlace.copyKey_allOrNothing other key
      encodeTo_kept := InPlace.encode_allOrNothing key }
  case map =>
    exact {
      put := fun _ _ _ => InlineMap.put_refused_iff
      putRecord := fun _ _ _ => InlineMap.putRecord_refused_iff hvalid
      put_answered := fun c peak map key value h hroom hsize => by
        obtain ⟨m', hrun, -⟩ := h.put (hsize.trans (congrArg _ h.layout_eq)) value hroom
        exact ⟨m', hrun⟩
      put_kept := fun key value => InPlace.put_allOrNothing key value m
      putRecord_kept := InPlace.putRecord_allOrNothing hvalid }

/-- Eight bytes of a view of sixteen are refused at the end of the address space and nine bytes in a
key of eight, by a view that is as it was. -/
theorem refuses_misfits_only_overflow :
    (Bytes.zeros 16).putBytes (2 ^ 64 - 8) (Bytes.zeros 8) = .error (.capacity (2 ^ 64 - 1) 16) ∧
    (Bytes.zeros 16).modifyKey 8 8 (·.set (Bytes.zeros 9)) = .error (.capacity 9 8) ∧
    (InPlace.withinKey 8 8 (InPlace.setContent (Bytes.zeros 9)) (Bytes.zeros 16)).2 =
      Bytes.zeros 16 := by
  have h := (refuses_misfits_only (Bytes.zeros 16) (Bytes.zeros 9) 8 ⟨Bytes.zeros 8, rfl⟩
    (⟨{ size := 8 }, .heap, Table.ofSlots (Rows.vacant 8 12) Binary32.half⟩ : InlineMap Int32)
    (by decide) rfl).1
  have hset : (Bytes.zeros 16).modifyKey 8 8 (·.set (Bytes.zeros 9)) = .error (.capacity 9 8) :=
    h.setKey 8 8 (Bytes.zeros 9)
  refine ⟨h.putBytes (2 ^ 64 - 8) (Bytes.zeros 8), hset, ?_⟩
  exact (h.setKey_kept 8 8 (Bytes.zeros 9)).kept (.capacity 9 8) (by rw [hset]; rfl)

end RecordArena
