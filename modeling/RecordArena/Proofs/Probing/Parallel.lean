import Mathlib.Data.List.Forall2
import RecordArena.Proofs.Probing.Table

/-!
# Tables in parallel

The algorithms on slot tables look at an entry only through the questions that they are given about
it. So two tables of any kinds that hold related entries in the same slots are probed, shifted,
filled and grown in the same way, as long as the questions about related entries are answered alike.
Nothing is asked of the order of the entries, and a walk that faults does so on both sides.

## Main definitions

* `Agree` – two computations answer alike or fail alike.
* `Slots.Matches`, `Table.Matches` – related entries in the same slots, and equal counters.

## Main statements

* `Slots.Matches.probe`, `Slots.Matches.delete` – walks on matching slots.
* `Table.Matches.locate`, `Table.Matches.add`, `Table.Matches.take`, `Table.Matches.settle` – the
  operations of matching tables.
-/

namespace RecordArena

/-- Both computations answer, with related answers, or both fail alike. -/
inductive Agree {φ α β : Type} (S : α → β → Prop) : Except φ α → Except φ β → Prop where
  | ok {a : α} {b : β} (h : S a b) : Agree S (.ok a) (.ok b)
  | error (e : φ) : Agree S (.error e) (.error e)

namespace Agree

variable {φ α β α' β' : Type} {S : α → β → Prop} {S' : α' → β' → Prop} {x : Except φ α}
  {y : Except φ β}

theorem bind {next : α → Except φ α'} {next' : β → Except φ β'} (h : Agree S x y)
    (hnext : ∀ a b, S a b → Agree S' (next a) (next' b)) :
    Agree S' (x >>= next) (y >>= next') := by
  cases h with
  | ok h => exact hnext _ _ h
  | error e => exact .error e

theorem map {f : α → α'} {g : β → β'} (h : Agree S x y) (hf : ∀ a b, S a b → S' (f a) (g b)) :
    Agree S' (f <$> x) (g <$> y) := by
  cases h with
  | ok h => exact .ok (hf _ _ h)
  | error e => exact .error e

theorem of_ok {a : α} (h : Agree S (.ok a : Except φ α) y) : ∃ b, y = .ok b ∧ S a b := by
  cases h with
  | ok h => exact ⟨_, rfl, h⟩

theorem of_ok_right {b : β} (h : Agree S x (.ok b : Except φ β)) : ∃ a, x = .ok a ∧ S a b := by
  cases h with
  | ok h => exact ⟨_, rfl, h⟩

theorem related {a : α} {b : β} (h : Agree S (.ok a : Except φ α) (.ok b)) : S a b := by
  cases h with
  | ok h => exact h

end Agree

variable {τ ε σ δ : Type} [Slots τ ε] [Slots σ δ] {R R' : ε → δ → Prop}

/-- Both probes end at the same one of `n` slots, and at related entries. -/
inductive ProbeEnd.Matches (R : ε → δ → Prop) (n : Nat) : ProbeEnd ε → ProbeEnd δ → Prop where
  | found {slot : Nat} {e : ε} {d : δ} (hslot : slot < n) (h : R e d) :
      Matches R n (.found slot e) (.found slot d)
  | vacant {slot : Nat} (hslot : slot < n) : Matches R n (.vacant slot) (.vacant slot)

theorem ProbeEnd.Matches.slot_eq {n : Nat} {r : ProbeEnd ε} {r' : ProbeEnd δ}
    (h : r.Matches R n r') : r.slot = r'.slot ∧ r.slot < n := by
  cases h with
  | found hslot h => exact ⟨rfl, hslot⟩
  | vacant hslot => exact ⟨rfl, hslot⟩

namespace Slots

/-- Both tables have the same slots, and the same of them are occupied, by related entries. -/
structure Matches (R : ε → δ → Prop) (t : τ) (u : σ) : Prop where
  capacity_eq : capacity t = capacity u
  rel : ∀ i < capacity t, Option.Rel R (entryAt t i) (entryAt u i)

namespace Matches

variable {t : τ} {u : σ}

/-- Both slots are vacant, or they hold related entries. -/
theorem cases (h : Matches R t u) {i : Nat} (hi : i < capacity t) :
    (entryAt t i = none ∧ entryAt u i = none) ∨
      ∃ e d, entryAt t i = some e ∧ entryAt u i = some d ∧ R e d := by
  have hrel := h.rel i hi
  generalize entryAt t i = c at hrel
  generalize entryAt u i = c' at hrel
  cases hrel with
  | none => exact .inl ⟨rfl, rfl⟩
  | some hR => exact .inr ⟨_, _, rfl, rfl, hR⟩

theorem related (h : Matches R t u) {i : Nat} {e : ε} {d : δ} (hi : i < capacity t)
    (he : entryAt t i = some e) (hd : entryAt u i = some d) : R e d := by
  have hrel := h.rel i hi
  rw [he, hd] at hrel
  cases hrel with
  | some hR => exact hR

theorem vacant_left (h : Matches R t u) {i : Nat} (hi : i < capacity t)
    (hu : entryAt u i = none) : entryAt t i = none := by
  obtain ⟨he, -⟩ | ⟨e, d, -, hd, -⟩ := h.cases hi
  · exact he
  · rw [hu] at hd
    cases hd

theorem occupied_left (h : Matches R t u) {i : Nat} {d : δ} (hi : i < capacity t)
    (hd : entryAt u i = some d) : ∃ e, entryAt t i = some e ∧ R e d := by
  obtain ⟨-, hu⟩ | ⟨e, d', he, hd', hR⟩ := h.cases hi
  · rw [hd] at hu
    cases hu
  · rw [hd] at hd'
    cases hd'
    exact ⟨e, he, hR⟩

/-- What holds of the related entries that are there may be added to the relation. -/
theorem imp (h : Matches R t u)
    (himp : ∀ i < capacity t, ∀ e d, entryAt t i = some e → entryAt u i = some d → R e d →
      R' e d) : Matches R' t u where
  capacity_eq := h.capacity_eq
  rel := by
    intro i hi
    obtain ⟨he, hd⟩ | ⟨e, d, he, hd, hR⟩ := h.cases hi
    · rw [he, hd]
      exact .none
    · rw [he, hd]
      exact .some (himp i hi e d he hd hR)

theorem vacant (hcapacity : capacity t = capacity u) (ht : ∀ i < capacity t, entryAt t i = none)
    (hu : ∀ i < capacity u, entryAt u i = none) : Matches R t u where
  capacity_eq := hcapacity
  rel := by
    intro i hi
    rw [ht i hi, hu i (hcapacity ▸ hi)]
    exact .none

theorem entries (h : Matches R t u) : List.Forall₂ R (Slots.entries t) (Slots.entries u) := by
  have hrange : List.Forall₂ (fun i j => i = j ∧ i < capacity t) (List.range (capacity t))
      (List.range (capacity t)) :=
    List.forall₂_same.mpr fun i hi => ⟨rfl, List.mem_range.mp hi⟩
  rw [Slots.entries, Slots.entries, ← h.capacity_eq]
  refine List.rel_filterMap ?_ hrange
  rintro i _ ⟨rfl, hi⟩
  exact h.rel i hi

theorem fetch (h : Matches R t u) (slot : Nat) :
    Agree (fun c c' => slot < capacity t ∧ entryAt t slot = c ∧ entryAt u slot = c' ∧
      Option.Rel R c c') (Slots.fetch t slot) (Slots.fetch u slot) := by
  rw [Slots.fetch, Slots.fetch, ← h.capacity_eq]
  split
  · next hslot => exact .ok ⟨hslot, rfl, rfl, h.rel slot hslot⟩
  · exact .error _

theorem next_eq (h : Matches R t u) (slot : Nat) : next t slot = next u slot := by
  rw [next, next, h.capacity_eq]

section Probe

variable {isMatch : ε → Except Fault Bool} {isMatch' : δ → Except Fault Bool}

theorem probeFrom (h : Matches R t u)
    (hmatch : ∀ e d, R e d → Agree Eq (isMatch e) (isMatch' d)) (steps slot : Nat) :
    Agree (ProbeEnd.Matches R (capacity t)) (Slots.probeFrom t isMatch steps slot)
      (Slots.probeFrom u isMatch' steps slot) := by
  induction steps generalizing slot with
  | zero => exact .error _
  | succ steps ih =>
    rw [Slots.probeFrom, Slots.probeFrom]
    refine (h.fetch slot).bind fun c c' => ?_
    rintro ⟨hslot, -, -, hrel⟩
    cases hrel with
    | none => exact .ok (.vacant hslot)
    | @some e d hR =>
      refine (hmatch e d hR).bind fun b b' heq => ?_
      cases heq
      cases b with
      | true => exact .ok (.found hslot hR)
      | false =>
        rw [← h.next_eq]
        exact ih _

/-- Probes for the same entries end in the same slot. -/
theorem probe (h : Matches R t u)
    (hmatch : ∀ e d, R e d → Agree Eq (isMatch e) (isMatch' d)) (start : Nat) :
    Agree (ProbeEnd.Matches R (capacity t)) (Slots.probe t isMatch start)
      (Slots.probe u isMatch' start) := by
  rw [Slots.probe, Slots.probe, ← h.capacity_eq]
  exact h.probeFrom hmatch _ _

theorem firstVacant (h : Matches R t u) (start : Nat) :
    Agree (fun i j => i = j ∧ i < capacity t) (Slots.firstVacant t start)
      (Slots.firstVacant u start) :=
  (h.probe (fun _ _ _ => .ok rfl) start).map fun _ _ hr => hr.slot_eq

end Probe

/-- An entry in the place of another one that is related to the same entry. -/
theorem overwrite [LawfulSlots τ] (h : Matches R t u) {i : Nat} {e : ε} {d : δ}
    (hi : i < capacity t) (he : LawfulSlots.Fits t e) (hd : entryAt u i = some d) (hR : R e d) :
    Matches R (Slots.store t i e) u where
  capacity_eq := by rw [capacity_store, h.capacity_eq]
  rel := by
    intro j hj
    rw [capacity_store] at hj
    rw [LawfulSlots.entryAt_store t i j e hi he]
    split
    · next heq =>
      rw [← heq, hd]
      exact .some hR
    · exact h.rel j hj

variable [LawfulSlots τ] [LawfulSlots σ]

theorem store (h : Matches R t u) {i : Nat} {e : ε} {d : δ} (hi : i < capacity t)
    (he : LawfulSlots.Fits t e) (hd : LawfulSlots.Fits u d) (hR : R e d) :
    Matches R (Slots.store t i e) (Slots.store u i d) where
  capacity_eq := by rw [capacity_store, capacity_store, h.capacity_eq]
  rel := by
    intro j hj
    rw [capacity_store] at hj
    rw [LawfulSlots.entryAt_store t i j e hi he,
      LawfulSlots.entryAt_store u i j d (h.capacity_eq ▸ hi) hd]
    split
    · exact .some hR
    · exact h.rel j hj

theorem vacate (h : Matches R t u) {i : Nat} (hi : i < capacity t) :
    Matches R (Slots.vacate t i) (Slots.vacate u i) where
  capacity_eq := by rw [capacity_vacate, capacity_vacate, h.capacity_eq]
  rel := by
    intro j hj
    rw [capacity_vacate] at hj
    rw [LawfulSlots.entryAt_vacate t i j hi,
      LawfulSlots.entryAt_vacate u i j (h.capacity_eq ▸ hi)]
    split
    · exact .none
    · exact h.rel j hj

/-- An entry that is there can be moved on both sides. -/
theorem relocate (h : Matches R t u) {source target : Nat} {e : ε} {d : δ}
    (hs : source < capacity t) (ht : target < capacity t) (he : entryAt t source = some e)
    (hd : entryAt u source = some d) :
    Matches R (Slots.relocate t source target e) (Slots.relocate u source target d) := by
  have hstore := h.store ht (LawfulSlots.fits_entryAt t source e he)
    (LawfulSlots.fits_entryAt u source d hd) (h.related hs he hd)
  rw [Slots.relocate, Slots.relocate]
  exact hstore.vacate (by rwa [capacity_store])

section Shift

variable {home : ε → Except Fault Nat} {home' : δ → Except Fault Nat}

theorem shiftFrom (h : Matches R t u) (hhome : ∀ e d, R e d → Agree Eq (home e) (home' d))
    (steps slot : Nat) {hole : Nat} (hhole : hole < capacity t) :
    Agree (Matches R) (Slots.shiftFrom home steps t hole slot)
      (Slots.shiftFrom home' steps u hole slot) := by
  -- the two walks meet related entries and take the same branch at each of them
  induction steps generalizing t u hole slot with
  | zero => exact .error _
  | succ steps ih =>
    rw [Slots.shiftFrom, Slots.shiftFrom, ← h.next_eq, ← h.capacity_eq]
    refine (h.fetch (next t slot)).bind fun c c' => ?_
    rintro ⟨hslot, he, hd, hrel⟩
    cases hrel with
    | none => exact .ok h
    | @some e d hR =>
      refine (hhome e d hR).bind fun start start' heq => ?_
      cases heq
      dsimp only
      split
      · exact ih (h.relocate hslot hhole he hd) _ (by rwa [capacity_relocate])
      · exact ih h _ hhole

theorem delete (h : Matches R t u) (hhome : ∀ e d, R e d → Agree Eq (home e) (home' d))
    (slot : Nat) :
    Agree (Matches R) (Slots.delete t home slot) (Slots.delete u home' slot) := by
  rw [Slots.delete, Slots.delete, evict, evict, ← h.capacity_eq]
  split
  · next hslot =>
    have hvacate := h.vacate hslot
    rw [ok_bind, ok_bind, backwardShift, backwardShift, ← hvacate.capacity_eq]
    exact hvacate.shiftFrom hhome _ _ (by rwa [capacity_vacate])
  · exact .error _

end Shift

end Matches

end Slots

namespace Table

/-- Both tables have related entries in the same slots, and the same counters. -/
structure Matches (R : ε → δ → Prop) (T : Table τ) (U : Table σ) : Prop where
  slots : Slots.Matches R T.slots U.slots
  count_eq : T.count = U.count
  limit_eq : T.limit = U.limit
  loadFactor_eq : T.loadFactor = U.loadFactor

namespace Matches

variable {T T' : Table τ} {U U' : Table σ} {hash : ε → Except Fault Int32}
  {hash' : δ → Except Fault Int32}

theorem capacity_eq (h : T.Matches R U) : T.capacity = U.capacity := h.slots.capacity_eq

/-- The counters of the one are right when those of the other are. -/
theorem tallied (h : T.Matches R U) (hU : U.Tallied) : T.Tallied where
  capacity_eq := by rw [h.capacity_eq]; exact hU.capacity_eq
  isLoadFactor := by rw [h.loadFactor_eq]; exact hU.isLoadFactor
  limit_eq := by rw [h.limit_eq, h.capacity_eq, h.loadFactor_eq]; exact hU.limit_eq
  count_eq := by rw [h.count_eq, h.slots.entries.length_eq]; exact hU.count_eq

theorem imp (h : T.Matches R U)
    (himp : ∀ i < T.capacity, ∀ e d, Slots.entryAt T.slots i = some e →
      Slots.entryAt U.slots i = some d → R e d → R' e d) : T.Matches R' U where
  slots := h.slots.imp himp
  count_eq := h.count_eq
  limit_eq := h.limit_eq
  loadFactor_eq := h.loadFactor_eq

theorem ofSlots {slots : τ} {slots' : σ} (h : Slots.Matches R slots slots') (factor : Binary32) :
    (Table.ofSlots slots factor).Matches R (Table.ofSlots slots' factor) where
  slots := h
  count_eq := rfl
  limit_eq := by rw [Table.ofSlots, Table.ofSlots, h.capacity_eq]
  loadFactor_eq := rfl

theorem locate (h : T.Matches R U) {isMatch : ε → Except Fault Bool}
    {isMatch' : δ → Except Fault Bool}
    (hmatch : ∀ e d, R e d → Agree Eq (isMatch e) (isMatch' d)) (hash : Int32) :
    Agree (ProbeEnd.Matches R T.capacity) (T.locate hash isMatch) (U.locate hash isMatch') := by
  rw [Table.locate, Table.locate, ← h.capacity_eq]
  exact h.slots.probe hmatch _

variable [LawfulSlots τ] [LawfulSlots σ]

theorem add (h : T.Matches R U) {slot : Nat} {e : ε} {d : δ} (hslot : slot < T.capacity)
    (he : LawfulSlots.Fits T.slots e) (hd : LawfulSlots.Fits U.slots d) (hR : R e d) :
    (T.add slot e).Matches R (U.add slot d) where
  slots := h.slots.store hslot he hd hR
  count_eq := congrArg (· + 1) h.count_eq
  limit_eq := h.limit_eq
  loadFactor_eq := h.loadFactor_eq

theorem take (h : T.Matches R U) (hhash : ∀ e d, R e d → Agree Eq (hash e) (hash' d))
    (slot : Nat) : Agree (Matches R) (T.take hash slot) (U.take hash' slot) := by
  rw [Table.take, Table.take, ← h.capacity_eq]
  refine Agree.bind (h.slots.delete (fun e d hR => ?_) slot) fun slots slots' hslots => ?_
  · exact (hhash e d hR).map fun _ _ heq => congrArg _ heq
  · exact .ok {
      slots := hslots
      count_eq := congrArg (· - 1) h.count_eq
      limit_eq := h.limit_eq
      loadFactor_eq := h.loadFactor_eq }

/-- Related entries that are put into matching slots one after the other end up in the same
slots. -/
theorem refill (hhash : ∀ e d, R e d → Agree Eq (hash e) (hash' d)) {list : List ε}
    {list' : List δ} (hlist : List.Forall₂ R list list') {slots : τ} {slots' : σ}
    (h : Slots.Matches R slots slots') (hfits : ∀ e ∈ list, LawfulSlots.Fits slots e)
    (hfits' : ∀ d ∈ list', LawfulSlots.Fits slots' d) :
    Agree (Slots.Matches R) (Table.refill hash slots list) (Table.refill hash' slots' list') := by
  induction hlist generalizing slots slots' with
  | nil => exact .ok h
  | @cons e d rest rest' hR hrest ih =>
    rw [Table.refill, Table.refill, ← h.capacity_eq]
    refine (hhash e d hR).bind fun n n' heq => ?_
    cases heq
    refine (h.firstVacant _).bind ?_
    rintro slot _ ⟨rfl, hslot⟩
    have hstore := h.store hslot (hfits e List.mem_cons_self) (hfits' d List.mem_cons_self) hR
    refine ih hstore (fun e' he' => ?_) fun d' hd' => ?_
    · exact (LawfulSlots.fits_store slots slot e e').mpr (hfits e' (List.mem_cons_of_mem _ he'))
    · exact (LawfulSlots.fits_store slots' slot d d').mpr (hfits' d' (List.mem_cons_of_mem _ hd'))

variable {fresh : Nat → Traced τ} {fresh' : Nat → Traced σ}
  {report report' : (capacity len : Nat) → Event}

theorem rehash (h : T.Matches R U) (hhash : ∀ e d, R e d → Agree Eq (hash e) (hash' d))
    (hfresh : T.FreshAt fresh (grownCapacity T.capacity T.count T.loadFactor))
    (hfresh' : U.FreshAt fresh' (grownCapacity U.capacity U.count U.loadFactor))
    (hT : (T.rehash hash fresh report).outcome = .ok T')
    (hU : (U.rehash hash' fresh' report').outcome = .ok U') : T'.Matches R U' := by
  obtain ⟨slots, hslots, hcap, hvacant, hfits⟩ := hfresh
  obtain ⟨slots', hslots', hcap', hvacant', hfits'⟩ := hfresh'
  have hgrown : grownCapacity T.capacity T.count T.loadFactor =
      grownCapacity U.capacity U.count U.loadFactor := by
    rw [h.capacity_eq, h.count_eq, h.loadFactor_eq]
  have hfilled : Agree (Slots.Matches R) (Table.refill hash slots (Slots.entries T.slots))
      (Table.refill hash' slots' (Slots.entries U.slots)) := by
    refine refill hhash h.slots.entries ?_ (fun e he => ?_) fun d hd => ?_
    · exact .vacant (by rw [hcap, hcap', hgrown]) (hcap ▸ hvacant) (hcap' ▸ hvacant')
    · obtain ⟨i, -, hi⟩ := Slots.mem_entries.mp he
      exact (hfits e).mpr (LawfulSlots.fits_entryAt T.slots i e hi)
    · obtain ⟨i, -, hi⟩ := Slots.mem_entries.mp hd
      exact (hfits' d).mpr (LawfulSlots.fits_entryAt U.slots i d hi)
  simp only [Table.rehash, Traced.outcome_bind, hslots, hslots', ok_bind,
    Traced.outcome_liftFault] at hT hU
  obtain ⟨filled, hrun, hT⟩ := bind_eq_ok hT
  obtain ⟨filled', hrun', hU⟩ := bind_eq_ok hU
  rw [mapError_eq_ok hrun, mapError_eq_ok hrun'] at hfilled
  cases hT
  cases hU
  exact {
    slots := hfilled.related
    count_eq := h.count_eq
    limit_eq := by rw [hgrown, h.loadFactor_eq]
    loadFactor_eq := h.loadFactor_eq }

/-- Matching tables grow together, to the same capacity. -/
theorem settle (h : T.Matches R U) (hhash : ∀ e d, R e d → Agree Eq (hash e) (hash' d))
    (hfresh : T.limit < T.count →
      T.FreshAt fresh (grownCapacity T.capacity T.count T.loadFactor))
    (hfresh' : U.limit < U.count →
      U.FreshAt fresh' (grownCapacity U.capacity U.count U.loadFactor))
    (hT : (T.settle hash fresh report).outcome = .ok T')
    (hU : (U.settle hash' fresh' report').outcome = .ok U') : T'.Matches R U' := by
  rw [Table.settle, h.limit_eq, h.count_eq] at hT
  rw [Table.settle] at hU
  by_cases hlt : U.limit < U.count
  · rw [if_pos hlt] at hT hU
    exact h.rehash hhash (hfresh (by rwa [h.limit_eq, h.count_eq])) (hfresh' hlt) hT hU
  · rw [if_neg hlt] at hT hU
    cases hT
    cases hU
    exact h

end Matches

end Table

end RecordArena
