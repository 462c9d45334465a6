import RecordArena.InPlace.Record
import RecordArena.Proofs.InPlace.Performs

/-!
# Records and keys: fitting sources

Writes to a view or a padded key are refused exactly when a range or a source does not fit, in
sums without a bound, and a refusal leaves every byte. A request with several faults is refused for
its range first, then for its alignment, then for its capacity.

## Main statements

* `Bytes.rangeEnd_eq` – a range is refused when it leaves the view.
* `Bytes.slice_eq`, `Bytes.putBytes_eq`, `Bytes.keySlice_eq`, `Bytes.modifyKey_set_eq`,
  `PaddedKey.withContent_eq` – what is refused, and what is answered otherwise.
* `InPlace.getField_eq`, `InPlace.putField_eq` – fields are read and written in place.
* `InPlace.putBytes_allOrNothing`, `InPlace.setContent_allOrNothing`,
  `InPlace.encode_allOrNothing`, `InPlace.withinKey_allOrNothing` – refused changes write nothing.
-/

namespace RecordArena

namespace Bytes

theorem overwrite_append (b : Bytes) (start : Nat) (front back : List UInt8) :
    b.overwrite start (front ++ back) =
      (b.overwrite start front).overwrite (start + front.length) back := by
  induction front generalizing b start with
  | nil => rfl
  | cons x front ih =>
    rw [List.cons_append, overwrite, overwrite, ih, List.length_cons, Nat.add_right_comm,
      Nat.add_assoc]

/-- A source of the length of the region replaces all of it. -/
theorem overwrite_all {b : Bytes} {src : List UInt8} (h : src.length = b.size) :
    b.overwrite 0 src = src.toArray := by
  apply Array.ext_getElem?
  intro i
  rw [getElem?_overwrite, Nat.sub_zero]
  by_cases hi : i < b.size
  · rw [if_pos (by omega), List.getElem?_toArray]
  · rw [if_neg (by omega), Array.getElem?_eq_none (by omega), List.getElem?_toArray,
      List.getElem?_eq_none (by omega)]

/-- Writing back what was read changes nothing. -/
theorem overwrite_extract (b : Bytes) (start stop : Nat) :
    b.overwrite start (b.extract start stop).toList = b := by
  apply Array.ext_getElem?
  intro i
  rw [getElem?_overwrite, Array.length_toList, Array.size_extract, Array.getElem?_toList]
  split
  · rw [Array.getElem?_extract, if_pos (by omega)]
    congr 1
    omega
  · rfl

/-- What was written to a range is there. -/
theorem extract_overwrite (b : Bytes) {p : Nat} {src : List UInt8} (h : p + src.length ≤ b.size) :
    (b.overwrite p src).extract p (p + src.length) = src.toArray := by
  apply Array.ext_getElem?
  intro i
  rw [Array.getElem?_extract, size_overwrite, Nat.min_eq_left h, Nat.add_sub_cancel_left]
  by_cases hi : i < src.length
  · rw [if_pos hi, getElem?_overwrite, if_pos (by omega), Nat.add_sub_cancel_left,
      List.getElem?_toArray]
  · rw [if_neg hi, List.getElem?_toArray, List.getElem?_eq_none (Nat.le_of_not_lt hi)]

/-- Writes to ranges that share no byte can be exchanged. -/
theorem overwrite_comm (b : Bytes) {p q : Nat} {xs ys : List UInt8}
    (h : p + xs.length ≤ q ∨ q + ys.length ≤ p) :
    (b.overwrite p xs).overwrite q ys = (b.overwrite q ys).overwrite p xs := by
  apply Array.ext_getElem?
  intro i
  simp only [getElem?_overwrite, size_overwrite]
  by_cases hp : p ≤ i ∧ i < p + xs.length ∧ i < b.size
  · have hq : ¬ (q ≤ i ∧ i < q + ys.length ∧ i < b.size) := by omega
    rw [if_neg hq, if_pos hp, if_pos hp]
  · rw [if_neg hp, if_neg hp]

variable {view : Bytes}

/-- In a view whose length is a count, a range is refused exactly when it leaves the view. -/
theorem rangeEnd_eq (hview : view.size ≤ Numeric.maxCount) (offset len : Nat) :
    view.rangeEnd offset len =
      if view.size < offset + len then
        .error (.index (Numeric.saturatingAdd offset len) view.size)
      else .ok (offset + len) := by
  rw [rangeEnd, Numeric.checkedAdd]
  by_cases hfit : view.size < offset + len
  · have hnone : (if offset + len ≤ Numeric.maxCount then some (offset + len) else none).filter
        (· ≤ view.size) = none := by
      split
      · rw [Option.filter_some, if_neg (by simpa using hfit)]
      · rfl
    rw [hnone, if_pos hfit]
  · rw [if_pos (by omega), Option.filter_some, if_pos (by simpa using hfit), if_neg hfit]

theorem slice_eq (hview : view.size ≤ Numeric.maxCount) (offset len : Nat) :
    view.slice offset len =
      if view.size < offset + len then
        .error (.index (Numeric.saturatingAdd offset len) view.size)
      else .ok (view.extract offset (offset + len)) := by
  rw [slice, rangeEnd_eq hview]
  split
  · rfl
  · rfl

theorem roomFor_eq (hview : view.size ≤ Numeric.maxCount) (offset : Nat) (src : Bytes) :
    view.roomFor offset src =
      if view.size < offset + src.size then
        .error (.capacity (Numeric.saturatingAdd offset src.size) view.size)
      else .ok (offset + src.size) := by
  rw [roomFor, rangeEnd_eq hview]
  split
  · rfl
  · rfl

theorem putBytes_eq (hview : view.size ≤ Numeric.maxCount) (offset : Nat) (src : Bytes) :
    view.putBytes offset src =
      if view.size < offset + src.size then
        .error (.capacity (Numeric.saturatingAdd offset src.size) view.size)
      else .ok (view.overwrite offset src.toList) := by
  rw [putBytes, roomFor_eq hview]
  split
  · rfl
  · rfl

end Bytes

namespace PaddedKey

variable {key : PaddedKey}

theorem map_mapError {φ ψ α β : Type} (f : α → β) (g : φ → ψ) (x : Except φ α) :
    f <$> x.mapError g = (f <$> x).mapError g := by
  cases x
  · rfl
  · rfl

theorem ext_raw {a b : PaddedKey} (h : a.raw = b.raw) : a = b := by
  cases a
  cases b
  congr

theorem wrap_eq (b : Bytes) :
    raw <$> wrap b =
      if b.size % keyAlignment ≠ 0 then .error (unaligned b.size) else .ok b := by
  rw [wrap]
  by_cases haligned : b.size % keyAlignment = 0
  · rw [dif_pos haligned, if_neg (not_not_intro haligned)]
    rfl
  · rw [dif_neg haligned, if_pos haligned]
    rfl

theorem set_eq (key : PaddedKey) (src : Bytes) :
    raw <$> key.set src =
      if key.capacity < src.size then .error (.capacity src.size key.capacity)
      else .ok (padded src key.capacity) := by
  rw [set]
  by_cases hfit : src.size ≤ key.capacity
  · rw [dif_pos hfit, if_neg (Nat.not_lt.mpr hfit)]
    rfl
  · rw [dif_neg hfit, if_pos (Nat.lt_of_not_le hfit)]
    rfl

theorem encodeTo_eq (key : PaddedKey) (dst : Bytes) :
    key.encodeTo dst =
      if dst.size < key.capacity then .error (.capacity key.capacity dst.size)
      else .ok (dst.overwrite 0 key.raw.toList) := by
  rw [encodeTo]
  by_cases hfit : key.capacity ≤ dst.size
  · rw [if_pos hfit, if_neg (Nat.not_lt.mpr hfit)]
  · rw [if_neg hfit, if_pos (Nat.lt_of_not_le hfit)]

/-- A fresh key: its alignment is checked first, and its content when its memory is there. -/
theorem withContent_eq (capacity : Nat) (src : Bytes) :
    raw <$> withContent capacity src =
      if capacity % keyAlignment ≠ 0 then .error (.refused (unaligned capacity))
      else if Backing.heapLimit < capacity then .error (.faulted (.unallocatable capacity))
      else if capacity < src.size then .error (.refused (.capacity src.size capacity))
      else .ok (padded src capacity) := by
  rw [withContent, empty]
  by_cases haligned : capacity % keyAlignment = 0
  · rw [dif_pos haligned, if_neg (not_not_intro haligned)]
    by_cases hheap : capacity ≤ Backing.heapLimit
    · rw [if_pos hheap, if_neg (Nat.not_lt.mpr hheap), ok_bind]
      have hzeros : (Bytes.zeros capacity).size = capacity := Array.size_replicate
      have hset := set_eq ⟨Bytes.zeros capacity, hzeros.symm ▸ haligned⟩ src
      change raw <$> (set ⟨Bytes.zeros capacity, _⟩ src).mapError Failure.refused = _
      rw [map_mapError, hset]
      simp only [PaddedKey.capacity, hzeros]
      split
      · rfl
      · rfl
    · rw [if_neg hheap, if_pos (Nat.lt_of_not_le hheap)]
      rfl
  · rw [dif_neg haligned, if_pos haligned]
    rfl

/-- The source at the front and zeros behind it are the padded source. -/
theorem overwrite_padded {src : Bytes} (hfit : src.size ≤ key.capacity) :
    (key.raw.overwrite 0 src.toList).overwrite src.size
      (Bytes.zeros (key.capacity - src.size)).toList = padded src key.capacity := by
  have hlen : (src.toList ++ (Bytes.zeros (key.capacity - src.size)).toList).length =
      key.raw.size := by
    rw [List.length_append, Array.length_toList, Array.length_toList, Bytes.zeros,
      Array.size_replicate]
    exact Nat.add_sub_cancel' hfit
  have happend := Bytes.overwrite_append key.raw 0 src.toList
    (Bytes.zeros (key.capacity - src.size)).toList
  rw [Nat.zero_add, Array.length_toList] at happend
  rw [← happend, Bytes.overwrite_all hlen, padded, ← Array.toList_append]

end PaddedKey

namespace Bytes

variable {view : Bytes}

/-- The bytes of a key in a view: the range is checked before the alignment. -/
theorem keySlice_eq (hview : view.size ≤ Numeric.maxCount) (offset len : Nat) :
    PaddedKey.raw <$> view.keySlice offset len =
      if view.size < offset + len then
        .error (.index (Numeric.saturatingAdd offset len) view.size)
      else if len % keyAlignment ≠ 0 then .error (PaddedKey.unaligned len)
      else .ok (view.extract offset (offset + len)) := by
  rw [keySlice, slice_eq hview]
  split
  · rfl
  · next hfit =>
    have hsize : (view.extract offset (offset + len)).size = len := by
      rw [Array.size_extract]
      omega
    rw [ok_bind, PaddedKey.wrap_eq, hsize]

theorem rangeEnd_eq_ok {offset len stop : Nat} :
    view.rangeEnd offset len = .ok stop ↔
      stop = offset + len ∧ offset + len ≤ Numeric.maxCount ∧ offset + len ≤ view.size := by
  rw [rangeEnd, Numeric.checkedAdd]
  by_cases hcount : offset + len ≤ Numeric.maxCount
  · by_cases hfit : offset + len ≤ view.size
    · simp [hcount, hfit, Option.filter_some, eq_comm]
    · simp [hcount, hfit, Option.filter_some]
  · simp [hcount]

/-- The key in a range is the one whose buffer is the bytes of the range. -/
theorem keySlice_eq_ok {offset len : Nat} {key : PaddedKey} :
    view.keySlice offset len = .ok key ↔
      offset + len ≤ Numeric.maxCount ∧ offset + len ≤ view.size ∧
        key.raw = view.extract offset (offset + len) := by
  constructor
  · intro h
    obtain ⟨b, hslice, hwrap⟩ := bind_eq_ok h
    obtain ⟨stop, hrange, hextract⟩ := bind_eq_ok hslice
    obtain ⟨rfl, hcount, hfit⟩ := rangeEnd_eq_ok.mp hrange
    cases hextract
    have hraw := congrArg (PaddedKey.raw <$> ·) hwrap
    rw [PaddedKey.wrap_eq] at hraw
    split at hraw
    · cases hraw
    · exact ⟨hcount, hfit, (Except.ok.inj hraw).symm⟩
  · rintro ⟨hcount, hfit, hraw⟩
    have hrange : view.rangeEnd offset len = .ok (offset + len) :=
      rangeEnd_eq_ok.mpr ⟨rfl, hcount, hfit⟩
    rw [keySlice, slice, hrange, ok_bind]
    change PaddedKey.wrap (view.extract offset (offset + len)) = _
    rw [← hraw]
    exact dif_pos key.aligned

/-- A key in a view that gets a new content: the alignment is checked before the content. -/
theorem modifyKey_set_eq (hview : view.size ≤ Numeric.maxCount) (offset len : Nat) (src : Bytes) :
    view.modifyKey offset len (·.set src) =
      if view.size < offset + len then
        .error (.index (Numeric.saturatingAdd offset len) view.size)
      else if len % keyAlignment ≠ 0 then .error (PaddedKey.unaligned len)
      else if len < src.size then .error (.capacity src.size len)
      else .ok (view.overwrite offset (PaddedKey.padded src len).toList) := by
  have hraw : view.modifyKey offset len (·.set src) =
      (PaddedKey.raw <$> view.keySlice offset len) >>= fun b =>
        if b.size < src.size then .error (.capacity src.size b.size)
        else .ok (view.overwrite offset (PaddedKey.padded src b.size).toList) := by
    rw [modifyKey, bind_map_left]
    refine bind_congr fun key => ?_
    change (view.overwrite offset ·.raw.toList) <$> key.set src = _
    rw [← Functor.map_map PaddedKey.raw (view.overwrite offset ·.toList), PaddedKey.set_eq]
    by_cases hfit : key.capacity < src.size
    · rw [if_pos hfit]
      exact (if_pos hfit).symm
    · rw [if_neg hfit]
      exact (if_neg hfit).symm
  rw [hraw, keySlice_eq hview]
  split
  · rfl
  · split
    · rfl
    · have hsize : (view.extract offset (offset + len)).size = len := by
        rw [Array.size_extract]
        omega
      rw [ok_bind, hsize]

end Bytes

namespace InPlace

/-- A field is read through a view that is open for changes as through any other. -/
theorem getField_eq (α : Type) [FixedWidth α] (p : Nat) (view : Bytes) :
    getField α p view = (liftM (view.getField α p), view) := by
  rw [getField, look_bind]
  rfl

/-- A field is written at once, when its range was found to lie within the view. -/
theorem putField_eq {α : Type} [FixedWidth α] (p : Nat) (v : α) (view : Bytes) :
    putField p v view = if p + FixedWidth.width α ≤ view.size then
      (pure (), view.overwrite p (FixedWidth.encode v).toList)
      else (Traced.fail (.faulted .outOfRange), view) := by
  rw [putField, look_bind, Bytes.read]
  split
  · rfl
  · rfl

theorem putBytes_allOrNothing (offset : Nat) (src view : Bytes) :
    AllOrNothing (putBytes offset src) (Prod.mk () <$> liftM (view.putBytes offset src)) view := by
  rw [allOrNothing_iff, putBytes, look_bind, Bytes.putBytes]
  cases view.roomFor offset src with
  | error e => rfl
  | ok stop => rfl

theorem setContent_allOrNothing (src : Bytes) (key : PaddedKey) :
    AllOrNothing (setContent src) (Prod.mk () <$> liftM (key.set src)) key := by
  rw [allOrNothing_iff, setContent, look_bind, PaddedKey.set]
  by_cases hfit : src.size ≤ key.capacity
  · rw [if_neg (Nat.not_lt.mpr hfit), dif_pos hfit]
    have hcapacity : (key.overwrite 0 src).capacity = key.capacity := Bytes.size_overwrite ..
    have hraw : ((key.overwrite 0 src).overwrite src.size
        (Bytes.zeros ((key.overwrite 0 src).capacity - src.size))).raw =
        PaddedKey.padded src key.capacity := by
      rw [hcapacity]
      exact PaddedKey.overwrite_padded hfit
    exact congrArg (Prod.mk _) (PaddedKey.ext_raw hraw)
  · rw [if_pos (Nat.lt_of_not_le hfit), dif_neg hfit]
    rfl

theorem copyKey_allOrNothing (other key : PaddedKey) :
    AllOrNothing (copyKey other) (Prod.mk () <$> liftM (key.setKey other)) key :=
  setContent_allOrNothing other.raw key

theorem encode_allOrNothing (key : PaddedKey) (dst : Bytes) :
    AllOrNothing (encode key) (Prod.mk () <$> liftM (key.encodeTo dst)) dst := by
  rw [allOrNothing_iff, encode, look_bind, PaddedKey.encodeTo]
  by_cases hfit : key.capacity ≤ dst.size
  · rw [if_neg (Nat.not_lt.mpr hfit), if_pos hfit]
    rfl
  · rw [if_pos (Nat.lt_of_not_le hfit), if_neg hfit]
    rfl

/-- A refused change of a key in a view leaves the view, since it writes back what was read. -/
theorem withinKey_allOrNothing {change : InPlace PaddedKey Unit}
    {f : PaddedKey → Except Error PaddedKey}
    (h : ∀ key, AllOrNothing change (Prod.mk () <$> liftM (f key)) key) (offset len : Nat)
    (view : Bytes) :
    AllOrNothing (withinKey offset len change)
      (Prod.mk () <$> liftM (view.modifyKey offset len f)) view := by
  rw [allOrNothing_iff, withinKey, look_bind, Bytes.modifyKey]
  cases hkey : view.keySlice offset len with
  | error e => rfl
  | ok key =>
    have hrun := allOrNothing_iff.mp (h key)
    obtain ⟨-, -, hraw⟩ := Bytes.keySlice_eq_ok.mp hkey
    rw [liftError_ok_bind, within, hrun, ok_bind]
    cases f key with
    | error e =>
      rw [error_bind]
      change (_, view.overwrite offset key.raw.toList) = _
      rw [hraw, Bytes.overwrite_extract]
    | ok key' => rfl

end InPlace

end RecordArena
