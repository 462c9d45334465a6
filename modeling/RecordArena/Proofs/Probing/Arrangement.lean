import Mathlib.Data.List.Nodup
import Mathlib.Data.List.Perm.Basic
import Mathlib.Logic.Function.Basic
import RecordArena.Probing.Slots

/-!
# Arrangements of entries

An arrangement says what each slot of a table holds. The laws of a slot table make storing and
vacating updates of one slot, so what a table holds is followed on arrangements alone: the entries
are a list up to order, and a vacancy is found by counting.

## Main statements

* `Arrangement.entries_fill`, `Arrangement.entries_clear` – one entry more, one entry less.
* `Arrangement.entries_move` – a moved entry is neither lost nor doubled.
* `Arrangement.exists_vacant` – fewer entries than slots leave a vacancy.
* `Slots.entryAt_store`, `Slots.entryAt_vacate` – the operations of a table as updates.
-/

namespace RecordArena

/-- What each slot of a table holds. -/
abbrev Arrangement (ε : Type) := Nat → Option ε

namespace Arrangement

variable {ε : Type} {f : Arrangement ε} {n : Nat}

/-- The entries in the first `n` slots, in the order of their slots. -/
def entries (f : Arrangement ε) (n : Nat) : List ε := (List.range n).filterMap f

theorem mem_entries {e : ε} : e ∈ f.entries n ↔ ∃ i < n, f i = some e := by
  simp only [entries, List.mem_filterMap, List.mem_range]

theorem ne_of_vacant {i j : Nat} {e : ε} (hi : f i = some e) (hj : f j = none) : i ≠ j := by
  rintro rfl
  rw [hi] at hj
  cases hj

/-- Filling a vacant slot adds one entry. -/
theorem entries_fill {i : Nat} (hi : i < n) (hf : f i = none) (e : ε) :
    (entries (Function.update f i (some e)) n).Perm (e :: f.entries n) := by
  have hrange : (List.range n).Perm (i :: (List.range n).erase i) :=
    List.perm_cons_erase (List.mem_range.mpr hi)
  -- outside slot `i` both arrangements agree
  have hrest : ((List.range n).erase i).filterMap (Function.update f i (some e)) =
      ((List.range n).erase i).filterMap f := by
    apply List.filterMap_congr
    intro j hj
    rw [Function.update_of_ne]
    rintro rfl
    exact (List.nodup_range.not_mem_erase hj).elim
  have hnew : (entries (Function.update f i (some e)) n).Perm
      (e :: ((List.range n).erase i).filterMap f) := by
    refine (hrange.filterMap _).trans ?_
    rw [List.filterMap_cons_some (Function.update_self i (some e) f), hrest]
  have hold : (f.entries n).Perm (((List.range n).erase i).filterMap f) := by
    refine (hrange.filterMap f).trans ?_
    rw [List.filterMap_cons_none hf]
  exact hnew.trans (hold.symm.cons e)

/-- Clearing an occupied slot takes one entry away. -/
theorem entries_clear {i : Nat} {e : ε} (hi : i < n) (hf : f i = some e) :
    (f.entries n).Perm (e :: entries (Function.update f i none) n) := by
  have h := entries_fill (f := Function.update f i none) hi (Function.update_self i none f) e
  rwa [Function.update_idem, ← hf, Function.update_eq_self] at h

theorem entries_overwrite {i : Nat} {e : ε} (hi : i < n) (hf : f i = some e) (e' : ε) :
    ∃ rest, (f.entries n).Perm (e :: rest) ∧
      (entries (Function.update f i (some e')) n).Perm (e' :: rest) := by
  refine ⟨entries (Function.update f i none) n, entries_clear hi hf, ?_⟩
  have h := entries_fill (f := Function.update f i none) hi (Function.update_self i none f) e'
  rwa [Function.update_idem] at h

/-- Moving an entry into a vacant slot keeps the entries. -/
theorem entries_move {source target : Nat} {e : ε} (hs : source < n) (ht : target < n)
    (hsource : f source = some e) (htarget : f target = none) :
    (entries (Function.update (Function.update f target (some e)) source none) n).Perm
      (f.entries n) := by
  have hne : source ≠ target := ne_of_vacant hsource htarget
  have hkeep : Function.update f target (some e) source = some e := by
    rw [Function.update_of_ne hne, hsource]
  have h := (entries_clear hs hkeep).symm.trans (entries_fill ht htarget e)
  exact h.cons_inv

/-- Fewer entries than slots leave a slot vacant. -/
theorem exists_vacant (h : (f.entries n).length < n) : ∃ i < n, f i = none := by
  by_contra hfull
  have hall : ∀ i ∈ List.range n, (f i).isSome := by
    intro i hi
    rw [Option.isSome_iff_ne_none]
    exact fun hnone => hfull ⟨i, List.mem_range.mp hi, hnone⟩
  have hlen : (f.entries n).length = n := by
    rw [entries, List.length_filterMap_eq_countP, List.countP_eq_length.mpr hall, List.length_range]
  omega

theorem entries_vacant (h : ∀ i < n, f i = none) : f.entries n = [] := by
  rw [entries, List.filterMap_eq_nil_iff]
  exact fun i hi => h i (List.mem_range.mp hi)

end Arrangement

namespace Slots

variable {τ ε : Type} [Slots τ ε] {t : τ}

theorem entries_eq (t : τ) : entries t = Arrangement.entries (entryAt t) (capacity t) := rfl

theorem mem_entries {e : ε} : e ∈ entries t ↔ ∃ i < capacity t, entryAt t i = some e :=
  Arrangement.mem_entries

variable [LawfulSlots τ]

theorem entryAt_store {i : Nat} {e : ε} (hi : i < capacity t) (he : LawfulSlots.Fits t e) :
    entryAt (store t i e) = Function.update (entryAt t) i (some e) := by
  funext j
  rw [LawfulSlots.entryAt_store t i j e hi he, Function.update_apply]
  simp only [eq_comm]

theorem entryAt_vacate {i : Nat} (hi : i < capacity t) :
    entryAt (vacate t i) = Function.update (entryAt t) i none := by
  funext j
  rw [LawfulSlots.entryAt_vacate t i j hi, Function.update_apply]
  simp only [eq_comm]

@[simp] theorem capacity_store (t : τ) (i : Nat) (e : ε) : capacity (store t i e) = capacity t :=
  LawfulSlots.capacity_store t i e

@[simp] theorem capacity_vacate (t : τ) (i : Nat) : capacity (vacate t i) = capacity t :=
  LawfulSlots.capacity_vacate t i

@[simp] theorem capacity_relocate (t : τ) (source target : Nat) (e : ε) :
    capacity (relocate t source target e) = capacity t := by
  rw [relocate, capacity_vacate, capacity_store]

theorem entryAt_relocate {source target : Nat} {e : ε} (hs : source < capacity t)
    (ht : target < capacity t) (he : LawfulSlots.Fits t e) :
    entryAt (relocate t source target e) =
      Function.update (Function.update (entryAt t) target (some e)) source none := by
  rw [relocate, entryAt_vacate (by rwa [capacity_store]), entryAt_store ht he]

theorem fits_relocate (t : τ) (source target : Nat) (e e' : ε) :
    LawfulSlots.Fits (relocate t source target e) e' ↔ LawfulSlots.Fits t e' := by
  rw [relocate, LawfulSlots.fits_vacate, LawfulSlots.fits_store]

end Slots

end RecordArena
