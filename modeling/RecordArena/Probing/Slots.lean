import RecordArena.Fault

/-!
# Slot tables

Open addressing keeps entries directly in a fixed number of slots. This module says what a table
has to offer for that: look into a slot, store an entry and vacate a slot. The algorithms on top
fetch and evict with a bounds check, so a slot past the end is a fault.

## Main definitions

* `Slots` – the operations of a slot table.
* `LawfulSlots` – their laws, which say what every operation does to every slot.
* `Slots.fetch`, `Slots.evict`, `Slots.next`, `Slots.relocate` – what the algorithms use.
* `Slots.toList`, `Slots.entries` – what a table holds.
-/

namespace RecordArena

/-- Tables `τ` that hold an entry of type `ε` or nothing in each of their slots. -/
class Slots (τ : Type) (ε : outParam Type) where
  /-- The number of slots, a power of two. -/
  capacity : τ → Nat
  /-- The entry in a slot, nothing when it is vacant. -/
  entryAt : τ → Nat → Option ε
  store : τ → Nat → ε → τ
  vacate : τ → Nat → τ

namespace Slots

variable {τ ε : Type} [Slots τ ε]

def fetch (t : τ) (slot : Nat) : Except Fault (Option ε) :=
  if slot < capacity t then .ok (entryAt t slot) else .error .outOfRange

def evict (t : τ) (slot : Nat) : Except Fault τ :=
  if slot < capacity t then .ok (vacate t slot) else .error .outOfRange

/-- The slot after `slot`, at the front after the last one. -/
def next (t : τ) (slot : Nat) : Nat := (slot + 1) % capacity t

/-- Moves the entry `e` of slot `source` into the vacant slot `target`. -/
def relocate (t : τ) (source target : Nat) (e : ε) : τ := vacate (store t target e) source

def toList (t : τ) : List (Option ε) := (List.range (capacity t)).map (entryAt t)

def entries (t : τ) : List ε := (List.range (capacity t)).filterMap (entryAt t)

end Slots

/-- The laws of a slot table: storing and vacating change one slot and nothing else. A table may
be able to hold only some entries, which are those that fit. -/
class LawfulSlots (τ : Type) {ε : outParam Type} [Slots τ ε] where
  /-- Whether an entry reads back after it is stored. -/
  Fits : τ → ε → Prop
  capacity_store (t : τ) (i : Nat) (e : ε) :
    Slots.capacity (Slots.store t i e) = Slots.capacity t
  capacity_vacate (t : τ) (i : Nat) : Slots.capacity (Slots.vacate t i) = Slots.capacity t
  entryAt_store (t : τ) (i j : Nat) (e : ε) (hi : i < Slots.capacity t) (he : Fits t e) :
    Slots.entryAt (Slots.store t i e) j = if i = j then some e else Slots.entryAt t j
  entryAt_vacate (t : τ) (i j : Nat) (hi : i < Slots.capacity t) :
    Slots.entryAt (Slots.vacate t i) j = if i = j then none else Slots.entryAt t j
  fits_entryAt (t : τ) (i : Nat) (e : ε) (h : Slots.entryAt t i = some e) : Fits t e
  fits_store (t : τ) (i : Nat) (e e' : ε) : Fits (Slots.store t i e) e' ↔ Fits t e'
  fits_vacate (t : τ) (i : Nat) (e : ε) : Fits (Slots.vacate t i) e ↔ Fits t e

/-- A plain table of optional entries; a slot past the end reads as vacant and is not written. -/
instance {ε : Type} : Slots (Array (Option ε)) ε where
  capacity t := t.size
  entryAt t slot := t[slot]?.join
  store t slot e := t.setIfInBounds slot (some e)
  vacate t slot := t.setIfInBounds slot none

instance {ε : Type} : LawfulSlots (Array (Option ε)) where
  Fits _ _ := True
  capacity_store _ _ _ := Array.size_setIfInBounds
  capacity_vacate _ _ := Array.size_setIfInBounds
  entryAt_store t i j e hi _ := by
    simp only [Slots.entryAt, Slots.store, Array.getElem?_setIfInBounds]
    split
    · next h => subst h; rw [if_pos (show i < t.size from hi)]; rfl
    · rfl
  entryAt_vacate t i j hi := by
    simp only [Slots.entryAt, Slots.vacate, Array.getElem?_setIfInBounds]
    split
    · next h => subst h; rw [if_pos (show i < t.size from hi)]; rfl
    · rfl
  fits_entryAt _ _ _ _ := trivial
  fits_store _ _ _ _ := Iff.rfl
  fits_vacate _ _ _ := Iff.rfl

end RecordArena
