import RecordArena.Probing.Table
import RecordArena.Proofs.Rows
import RecordArena.Slab.Basic

/-!
# Reported rehashes

A map and a key index report a rehash by different events with the same numbers, among the events
of pages and allocations. `Traced.rehashes` are the rehashes that a computation has reported.

## Main statements

* `Table.events_settle`, `Table.rehashes_settle` – growing reports one rehash, and nothing else
  does.
* `Slab.rehashes_create`, `Slab.rehashes_free` – creating and freeing records report none.
-/

namespace RecordArena

/-- The capacity and the length that a rehash reports. -/
def Event.rehash? : Event → Option (Nat × Nat)
  | indexRehashed capacity len => some (capacity, len)
  | mapRehashed capacity len => some (capacity, len)
  | _ => none

variable {α β : Type}

namespace Traced

/-- The rehashes that were reported, in order. -/
def rehashes (x : Traced α) : List (Nat × Nat) := x.events.filterMap Event.rehash?

@[simp] theorem rehashes_pure (a : α) : (pure a : Traced α).rehashes = [] := rfl

@[simp] theorem rehashes_fail (failure : Failure) :
    (fail failure : Traced α).rehashes = [] := rfl

@[simp] theorem rehashes_liftFault (x : Except Fault α) :
    (liftM x : Traced α).rehashes = [] := rfl

theorem events_map (f : α → β) (x : Traced α) : (f <$> x).events = x.events := by
  obtain ⟨events, _ | a⟩ := x
  · rfl
  · exact List.append_nil events

@[simp] theorem rehashes_map (f : α → β) (x : Traced α) : (f <$> x).rehashes = x.rehashes :=
  congrArg (List.filterMap Event.rehash?) (events_map f x)

theorem rehashes_emit {event : Event} (h : event.rehash? = none) :
    (emit event).rehashes = [] := by
  rw [rehashes, emit, List.filterMap_cons_none h, List.filterMap_nil]

theorem rehashes_bind_of_ok {x : Traced α} {next : α → Traced β} {a : α}
    (h : x.outcome = .ok a) : (x >>= next).rehashes = x.rehashes ++ (next a).rehashes := by
  rw [rehashes, events_bind_of_ok h, List.filterMap_append]
  rfl

theorem rehashes_bind_eq_nil {x : Traced α} {next : α → Traced β} (h : x.rehashes = [])
    (hnext : ∀ a, (next a).rehashes = []) : (x >>= next).rehashes = [] := by
  cases hx : x.outcome with
  | ok a => rw [rehashes_bind_of_ok hx, h, hnext, List.append_nil]
  | error failure =>
    obtain ⟨events, outcome⟩ := x
    cases hx
    exact h

end Traced

open Traced

theorem Rows.rehashes_allocate (backing : Backing) (count width : Nat) :
    (Rows.allocate backing count width).rehashes = [] := by
  refine rehashes_bind_eq_nil ?_ fun _ => rehashes_pure _
  cases backing with
  | heap =>
    rw [Backing.reserve]
    split
    · exact rehashes_pure _
    · exact rehashes_fail _
  | mapped limit =>
    rw [Backing.reserve]
    split
    · exact rehashes_pure _
    · exact rehashes_bind_eq_nil (rehashes_emit rfl) fun _ => rehashes_fail _

namespace Table

variable {τ ε : Type} [Slots τ ε]

/-- A table that has settled has reported its growth last, if it was past its limit. -/
theorem events_settle {t t' : Table τ} {hash : ε → Except Fault Int32} {fresh : Nat → Traced τ}
    {report : (capacity len : Nat) → Event} (h : (t.settle hash fresh report).outcome = .ok t') :
    (t.settle hash fresh report).events =
      if t.limit < t.count then
        (fresh (grownCapacity t.capacity t.count t.loadFactor)).events ++
          [report (grownCapacity t.capacity t.count t.loadFactor) t.count]
      else [] := by
  rw [settle] at h ⊢
  split
  · next hlt =>
    rw [if_pos hlt] at h
    obtain ⟨slots, hslots, h⟩ := outcome_bind_eq_ok h
    obtain ⟨filled, hfilled, h⟩ := outcome_bind_eq_ok h
    rw [rehash, events_bind_of_ok hslots, events_bind_of_ok hfilled]
    rfl
  · rfl

/-- A table that has settled has reported one rehash if it was past its limit. -/
theorem rehashes_settle {t t' : Table τ} {hash : ε → Except Fault Int32} {fresh : Nat → Traced τ}
    {report : (capacity len : Nat) → Event}
    (hreport : ∀ capacity len, (report capacity len).rehash? = some (capacity, len))
    (hfresh : ∀ capacity, (fresh capacity).rehashes = [])
    (h : (t.settle hash fresh report).outcome = .ok t') :
    (t.settle hash fresh report).rehashes =
      if t.limit < t.count then [(grownCapacity t.capacity t.count t.loadFactor, t.count)]
      else [] := by
  rw [rehashes, events_settle h]
  split
  · rw [List.filterMap_append, List.filterMap_cons_some (hreport _ _), List.filterMap_nil]
    exact congrArg (· ++ _) (hfresh _)
  · rfl

end Table

namespace PageTable

theorem rehashes_addPage (t : PageTable) : t.addPage.rehashes = [] := by
  refine rehashes_bind_eq_nil ?_ fun t => ?_
  · rw [reserve]
    split
    · exact rehashes_bind_eq_nil (rehashes_emit rfl) fun _ => rehashes_pure _
    · exact rehashes_pure _
  refine rehashes_bind_eq_nil ?_ fun page => ?_
  · exact rehashes_bind_eq_nil (Rows.rehashes_allocate _ _ _) fun _ => rehashes_pure _
  · exact rehashes_bind_eq_nil (rehashes_emit rfl) fun _ => rehashes_pure _

theorem rehashes_nextFree (t : PageTable) : t.nextFree.rehashes = [] := by
  rw [nextFree.eq_def]
  split
  · exact rehashes_pure _
  · exact rehashes_addPage t

theorem rehashes_release (t : PageTable) (p : UInt32) : (t.release p).rehashes = [] := by
  have hqueue : ∀ t : PageTable, (do
      emit (.pageRecycled (← t.page p).index)
      pure { t with free := t.free.push p } : Traced PageTable).rehashes = [] := fun t =>
    rehashes_bind_eq_nil (rehashes_liftFault _) fun _ =>
      rehashes_bind_eq_nil (rehashes_emit rfl) fun _ => rehashes_pure _
  rw [release]
  split
  · exact rehashes_bind_eq_nil (rehashes_liftFault _) hqueue
  · exact rehashes_bind_eq_nil (rehashes_liftFault _) hqueue

end PageTable

theorem Cursor.rehashes_advance (c : Cursor) (t : PageTable) : (c.advance t).rehashes = [] := by
  rw [advance]
  split
  · exact rehashes_pure _
  refine rehashes_bind_eq_nil (PageTable.rehashes_nextFree t) fun _ => ?_
  refine rehashes_bind_eq_nil (rehashes_liftFault _) fun _ => ?_
  split
  · exact rehashes_bind_eq_nil (PageTable.rehashes_release _ _) fun _ => rehashes_pure _
  · exact rehashes_pure _

namespace Slab

theorem rehashes_create (s : Slab) : s.create.rehashes = [] := by
  refine rehashes_bind_eq_nil (rehashes_liftFault _) fun _ => ?_
  exact rehashes_bind_eq_nil (Cursor.rehashes_advance _ _) fun _ => rehashes_pure _

theorem rehashes_free (s : Slab) (index : UInt32) : (s.free index).rehashes = [] := by
  refine rehashes_bind_eq_nil (rehashes_liftFault _) fun vacated => ?_
  obtain ⟨_ | remaining, t⟩ := vacated
  · exact rehashes_pure _
  dsimp only
  split
  · exact rehashes_bind_eq_nil (PageTable.rehashes_release _ _) fun _ => rehashes_pure _
  · exact rehashes_pure _

end Slab

end RecordArena
