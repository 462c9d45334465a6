import RecordArena.InPlace.Table
import RecordArena.Proofs.InPlace.Performs

/-!
# Tables: the changes in place perform their operations

A table that is changed in place slot by slot ends up as the table that the operation answers, and
fails as the operation does. The proofs follow the steps of the changes.

## Main statements

* `InPlace.put_performs`, `InPlace.putRecord_performs` – the changes of an inline map.
* `InPlace.insert_performs`, `InPlace.removeIndex_performs` – the changes of a key index.
-/

namespace RecordArena.InPlace

section Tables

variable {τ ε : Type} [Slots τ ε]

theorem shiftFrom_performs (home : ε → Except Fault Nat) (steps : Nat) (t : τ) (hole slot : Nat) :
    Performs (shiftFrom home steps hole slot)
      (Prod.mk () <$> liftM (Slots.shiftFrom home steps t hole slot)) t := by
  induction steps generalizing t hole slot with
  | zero => exact .of_error rfl rfl
  | succ steps ih =>
    rw [shiftFrom, Slots.shiftFrom]
    refine .look_bind (.liftFault_bind _ fun e? _ => ?_)
    cases e? with
    | none => exact .pure () t
    | some e =>
      refine .liftFault_bind _ fun start _ => ?_
      dsimp only
      split
      · exact .alter_bind (ih _ _ _)
      · exact ih t _ _

theorem withinSlots_performs {α : Type} {change : InPlace τ α} {x : Traced (α × τ)} {t : Table τ}
    (h : Performs change x t.slots) :
    Performs (withinSlots change) (Prod.map id (fun slots => { t with slots }) <$> x) t :=
  .within h

theorem withinSlots_alter_bind {α : Type} {change : τ → τ} {next : Unit → InPlace (Table τ) α}
    {x : Traced (α × Table τ)} {t : Table τ}
    (h : Performs (next ()) x { t with slots := change t.slots }) :
    Performs (withinSlots (alter change) >>= next) x t :=
  ⟨h.traced, h.stored⟩

theorem take_performs [LawfulSlots τ] (hash : ε → Except Fault Int32) (slot : Nat) (t : Table τ) :
    Performs (take hash slot) (Prod.mk () <$> liftM (t.take hash slot)) t := by
  rw [take, Table.take, Slots.delete]
  simp only [bind_assoc]
  refine .look_bind (.liftFault_bind _ fun evicted hevicted => ?_)
  refine withinSlots_alter_bind (.alter_bind ?_)
  -- vacating keeps the number of slots, so both sides walk for as many steps
  have hcapacity : Slots.capacity evicted = t.capacity := by
    rw [Slots.evict] at hevicted
    split at hevicted
    · cases hevicted
      exact LawfulSlots.capacity_vacate _ _
    · cases hevicted
  rw [Slots.backwardShift, hcapacity]
  have h := withinSlots_performs (t := { t with slots := evicted, count := t.count - 1 })
    (shiftFrom_performs (fun e => homeSlot t.capacity <$> hash e) (t.capacity ^ 3) evicted slot
      slot)
  cases hslots : Slots.shiftFrom (fun e => homeSlot t.capacity <$> hash e) (t.capacity ^ 3)
    evicted slot slot with
  | error fault => rwa [hslots] at h
  | ok slots => rwa [hslots] at h

theorem settle_performs (hash : ε → Except Fault Int32) (fresh : Nat → Traced τ)
    (report : (capacity len : Nat) → Event) (t : Table τ) :
    Performs (settle hash fresh report) (Prod.mk () <$> t.settle hash fresh report) t := by
  rw [settle, Table.settle]
  refine .look_bind ?_
  split
  · rw [← bind_pure_comp]
    exact .lift_bind _ fun grown _ => .alter _ t
  · exact .pure () t

end Tables

section Maps

variable {V : Type} [FixedWidth V]

theorem put_performs (key : Bytes) (value : V) (m : InlineMap V) :
    Performs (put key value) (m.put key value) m := by
  rw [put, InlineMap.put]
  refine .look_bind (.lift_bind (liftM (m.checkKey key)) fun _ _ => ?_)
  refine .lift_bind (liftM (m.locate key)) fun stop _ => ?_
  cases stop with
  | found slot old => exact ⟨rfl, fun _ _ h => by cases h; rfl⟩
  | vacant slot =>
    have htable := settle_performs (InlineMap.hashOf m.layout)
      (fun capacity => Rows.allocate m.backing capacity (InlineMap.payloadWidth V m.layout))
      .mapRehashed (m.table.add slot (InlineMap.payload key value))
    exact .within_answer (.alter_bind htable) none

theorem putRecord_performs (view : Bytes) (value : V) (m : InlineMap V) :
    Performs (putRecord view value) (m.putRecord view value) m :=
  .look_bind (.lift_bind (liftM (m.layout.checkedKey view)) fun key _ => put_performs key value m)

end Maps

theorem insert_performs (slab : Slab) (index : UInt32) (x : KeyIndex) :
    Performs (insert slab index) (Prod.mk () <$> x.insert slab index) x := by
  rw [insert, KeyIndex.insert, map_bind]
  refine .look_bind (.lift_bind (liftM (slab.keyHash index)) fun hash _ => ?_)
  rw [map_bind]
  refine .lift_bind (liftM (x.table.locate hash fun e => pure (e == index))) fun stop _ => ?_
  cases stop with
  | found slot e => exact .pure () x
  | vacant slot =>
    have htable := settle_performs slab.keyHash (fun capacity => pure (Cells.vacant capacity))
      .indexRehashed (x.table.add slot index)
    exact .within_part (.alter_bind htable)

theorem removeIndex_performs (slab : Slab) (index : UInt32) (x : KeyIndex) :
    Performs (removeIndex slab index) (liftM (x.removeIndex slab index)) x := by
  rw [← id_map (liftM (x.removeIndex slab index) : Traced _), removeIndex, KeyIndex.removeIndex]
  refine .look_bind (.liftFault_bind _ fun hash _ => ?_)
  rw [KeyIndex.removeIndexHashed]
  refine .liftFault_bind _ fun found _ => ?_
  cases found with
  | none => exact .pure false x
  | some entry =>
    have h : Performs (within KeyIndex.table (fun table _ => (⟨table⟩ : KeyIndex))
        (take slab.keyHash entry.1) >>= fun _ => pure true) _ x :=
      .within_answer (take_performs slab.keyHash entry.1 x.table) true
    rw [KeyIndex.takeFound]
    cases htake : x.table.take slab.keyHash entry.1 with
    | error fault => rwa [htake] at h
    | ok table => rwa [htake] at h

end RecordArena.InPlace
