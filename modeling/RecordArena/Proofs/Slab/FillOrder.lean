import Mathlib.Data.Finset.Basic
import RecordArena.Proofs.Slab.Calls

/-!
# The order of filling

A machine that fills pages says where records go without flags, bytes or page tables. It knows the
page and the slot that are filled next, the numbers of the live records, and the pages that were
drained so far. The first page is filled first. After it come the other initial pages, and then the
drained pages in the order in which they were drained; a new page is filled when none of these is
left.

A number that is behind the position of the machine comes up again only after its page was drained.

## Main definitions

* `FillOrder`, `FillOrder.perform` – the machine and its steps.
* `FillOrder.Behind` – the numbers that have been handed out since their page was filled last.
* `FillOrder.Orderly` – the invariant: live records are behind, and no page waits twice.

## Main statements

* `FillOrder.Orderly.performAll` – any calls keep the invariant.
* `FillOrder.Behind.mem_drained` – when a number that was behind comes up, its page was drained.
-/

namespace RecordArena

/-- Where records go: the next number, and the pages that are filled after it. -/
structure FillOrder where
  initial : Nat
  /-- Slots per page. -/
  slots : Nat
  /-- The page that is being filled, and the slot that is next in it. -/
  page : Nat
  slot : Nat
  pageCount : Nat
  /-- The pages that were drained, in order; a page is drained when its last record ends while it is
  not being filled. -/
  drained : List Nat
  /-- How many pages of the supply have been taken. -/
  taken : Nat
  /-- The numbers of the live records. -/
  live : Finset Nat
  deriving DecidableEq

namespace FillOrder

def start (initial slots : Nat) : FillOrder :=
  ⟨initial, slots, 0, 0, max initial 1, [], 0, ∅⟩

/-- The pages that are filled after the first one without being allocated for it. -/
def supply (o : FillOrder) : List Nat := List.range' 1 (o.initial - 1) ++ o.drained

/-- The pages of the supply that are left. -/
def waiting (o : FillOrder) : List Nat := o.supply.drop o.taken

/-- The number of the record that is created next. -/
def index (o : FillOrder) : Nat := o.page * o.slots + o.slot

/-- Turns to the next page of the supply, or to a new one when none is left. -/
def turn (o : FillOrder) : FillOrder :=
  match o.supply[o.taken]? with
  | some page => { o with page, slot := 0, taken := o.taken + 1 }
  | none => { o with page := o.pageCount, slot := 0, pageCount := o.pageCount + 1 }

/-- The next number is live and its slot is passed. -/
def fill (o : FillOrder) : FillOrder :=
  { o with live := insert o.index o.live, slot := o.slot + 1 }

def create (o : FillOrder) : FillOrder :=
  if o.slot + 1 < o.slots then o.fill else o.fill.turn

/-- Ends the record with number `n`, if there is one. -/
def free (o : FillOrder) (n : Nat) : FillOrder :=
  if n ∈ o.live then
    let live := o.live.erase n
    if n / o.slots ≠ o.page ∧ ∀ m ∈ live, m / o.slots ≠ n / o.slots then
      { o with live, drained := o.drained ++ [n / o.slots] }
    else { o with live }
  else o

def perform (o : FillOrder) : SlabCall → FillOrder
  | .create => o.create
  | .free index => o.free index.toNat
  | .write _ _ => o
  | .read _ => o

def performAll (o : FillOrder) (calls : List SlabCall) : FillOrder := calls.foldl perform o

variable {o : FillOrder} {n : Nat}

/-- The page that is turned to waited first, or is new when none waited. -/
theorem turn_cases (o : FillOrder) :
    (∃ page, o.waiting = page :: { o with taken := o.taken + 1 }.waiting ∧
      o.taken < o.supply.length ∧
      o.turn = { o with page, slot := 0, taken := o.taken + 1 }) ∨
    (o.waiting = [] ∧
      o.turn = { o with page := o.pageCount, slot := 0, pageCount := o.pageCount + 1 }) := by
  rw [turn]
  cases hnext : o.supply[o.taken]? with
  | some page =>
    obtain ⟨hlt, heq⟩ := List.getElem?_eq_some_iff.mp hnext
    refine .inl ⟨page, ?_, hlt, rfl⟩
    rw [waiting, List.drop_eq_getElem_cons hlt, heq]
    rfl
  | none => exact .inr ⟨List.drop_eq_nil_of_le (List.getElem?_eq_none_iff.mp hnext), rfl⟩

theorem turn_kept (o : FillOrder) :
    o.turn.slots = o.slots ∧ o.turn.drained = o.drained ∧ o.turn.live = o.live := by
  rcases o.turn_cases with ⟨page, -, -, hturn⟩ | ⟨-, hturn⟩
  · rw [hturn]
    exact ⟨rfl, rfl, rfl⟩
  · rw [hturn]
    exact ⟨rfl, rfl, rfl⟩

theorem create_live (o : FillOrder) : o.create.live = insert o.index o.live := by
  rw [create]
  split
  · rfl
  · exact o.fill.turn_kept.2.2

theorem free_cases (o : FillOrder) (n : Nat) :
    (n ∉ o.live ∧ o.free n = o) ∨
    n ∈ o.live ∧ ((n / o.slots = o.page ∨ ∃ m ∈ o.live.erase n, m / o.slots = n / o.slots) ∧
        o.free n = { o with live := o.live.erase n } ∨
      (n / o.slots ≠ o.page ∧ ∀ m ∈ o.live.erase n, m / o.slots ≠ n / o.slots) ∧
        o.free n = { o with live := o.live.erase n, drained := o.drained ++ [n / o.slots] }) := by
  rw [free]
  split
  · next hmem =>
    refine .inr ⟨hmem, ?_⟩
    dsimp only
    split
    · next hdrain => exact .inr ⟨hdrain, rfl⟩
    · next hkeep =>
      refine .inl ⟨?_, rfl⟩
      by_contra hnone
      push Not at hnone
      exact hkeep hnone
  · next hmem => exact .inl ⟨hmem, rfl⟩

theorem free_live (o : FillOrder) (n : Nat) : (o.free n).live = o.live.erase n := by
  rcases o.free_cases n with ⟨hnotMem, hfree⟩ | ⟨-, ⟨-, hfree⟩ | ⟨-, hfree⟩⟩
  · rw [hfree, Finset.erase_eq_of_notMem hnotMem]
  · rw [hfree]
  · rw [hfree]

/-- A page that is drained waits behind all others. -/
theorem waiting_drained (h : o.taken ≤ o.supply.length) (live : Finset Nat) (p : Nat) :
    { o with live, drained := o.drained ++ [p] }.waiting = o.waiting ++ [p] := by
  change (List.range' 1 (o.initial - 1) ++ (o.drained ++ [p])).drop o.taken = _
  rw [← List.append_assoc]
  exact List.drop_append_of_le_length h

theorem index_div (h : o.slot < o.slots) : o.index / o.slots = o.page := by
  rw [index, Nat.mul_comm, Nat.mul_add_div (Nat.zero_lt_of_lt h), Nat.div_eq_of_lt h, Nat.add_zero]

theorem index_mod (h : o.slot < o.slots) : o.index % o.slots = o.slot := by
  rw [index, Nat.mul_comm, Nat.mul_add_mod, Nat.mod_eq_of_lt h]

/-- The place with number `n` was passed since its page was filled last: the page is there and does
not wait, and if it is being filled, a later slot is next. -/
structure Behind (o : FillOrder) (n : Nat) : Prop where
  page_lt : n / o.slots < o.pageCount
  page_notMem : n / o.slots ∉ o.waiting
  slot_lt : n / o.slots = o.page → n % o.slots < o.slot

namespace Behind

theorem fill (h : o.Behind n) : o.fill.Behind n :=
  ⟨h.page_lt, h.page_notMem, fun heq => (h.slot_lt heq).trans (Nat.lt_succ_self _)⟩

theorem turn (h : o.Behind n) : o.turn.Behind n := by
  rcases o.turn_cases with ⟨page, hwaiting, -, hturn⟩ | ⟨-, hturn⟩
  · have hnotMem := h.page_notMem
    rw [hwaiting, List.mem_cons, not_or] at hnotMem
    rw [hturn]
    exact ⟨h.page_lt, hnotMem.2, fun heq => (hnotMem.1 heq).elim⟩
  · rw [hturn]
    exact ⟨h.page_lt.trans (Nat.lt_succ_self _), h.page_notMem,
      fun heq => (Nat.ne_of_lt h.page_lt heq).elim⟩

theorem create (h : o.Behind n) : o.create.Behind n := by
  rw [FillOrder.create]
  split
  · exact h.fill
  · exact h.fill.turn

/-- A number stays behind when a record ends, unless its page is drained. -/
theorem free (h : o.Behind n) (hle : o.taken ≤ o.supply.length) (m : Nat) :
    (o.free m).Behind n ∨ (o.free m).drained = o.drained ++ [n / o.slots] := by
  rcases o.free_cases m with ⟨-, hfree⟩ | ⟨-, ⟨-, hfree⟩ | ⟨-, hfree⟩⟩
  · rw [hfree]
    exact .inl h
  · rw [hfree]
    exact .inl ⟨h.page_lt, h.page_notMem, h.slot_lt⟩
  · rw [hfree]
    by_cases hpage : n / o.slots = m / o.slots
    · exact .inr (congrArg (o.drained ++ [·]) hpage.symm)
    · refine .inl ⟨h.page_lt, ?_, h.slot_lt⟩
      rw [waiting_drained hle, List.mem_append, List.mem_singleton]
      exact not_or.mpr ⟨h.page_notMem, hpage⟩

end Behind

/-- The invariant, whether or not a slot of the page is left. -/
structure Lined (o : FillOrder) : Prop where
  slots_pos : 0 < o.slots
  page_lt : o.page < o.pageCount
  page_notMem : o.page ∉ o.waiting
  taken_le : o.taken ≤ o.supply.length
  waiting_lt : ∀ p ∈ o.waiting, p < o.pageCount
  waiting_nodup : o.waiting.Nodup
  live_behind : ∀ n ∈ o.live, o.Behind n

/-- The invariant of the machine. -/
structure Orderly (o : FillOrder) : Prop extends o.Lined where
  slot_lt : o.slot < o.slots

/-- Turning to the next page leaves every live record behind. -/
theorem Lined.turn (h : o.Lined) : o.turn.Orderly := by
  have hlive : ∀ n ∈ o.live, o.turn.Behind n := fun n hn => (h.live_behind n hn).turn
  rcases o.turn_cases with ⟨page, hwaiting, hlt, hturn⟩ | ⟨-, hturn⟩
  · have hnodup := h.waiting_nodup
    have hall := h.waiting_lt
    rw [hwaiting, List.nodup_cons] at hnodup
    rw [hwaiting, List.forall_mem_cons] at hall
    rw [hturn] at hlive ⊢
    exact ⟨⟨h.slots_pos, hall.1, hnodup.1, hlt, hall.2, hnodup.2, hlive⟩, h.slots_pos⟩
  · rw [hturn] at hlive ⊢
    exact ⟨⟨h.slots_pos, Nat.lt_succ_self _, fun hmem => Nat.lt_irrefl _ (h.waiting_lt _ hmem),
      h.taken_le, fun p hp => (h.waiting_lt p hp).trans (Nat.lt_succ_self _), h.waiting_nodup,
      hlive⟩, h.slots_pos⟩

namespace Orderly

theorem start {initial slots : Nat} (hslots : 0 < slots) : (start initial slots).Orderly := by
  have hwaiting : (FillOrder.start initial slots).waiting = List.range' 1 (initial - 1) :=
    List.append_nil _
  refine ⟨⟨hslots, ?_, ?_, Nat.zero_le _, ?_, ?_, fun n hn => (Finset.notMem_empty n hn).elim⟩,
    hslots⟩
  · change 0 < max initial 1
    omega
  · rw [hwaiting, List.mem_range'_1]
    change ¬ (1 ≤ 0 ∧ _)
    omega
  · intro p hp
    rw [hwaiting, List.mem_range'_1] at hp
    change p < max initial 1
    omega
  · rw [hwaiting]
    exact List.nodup_range'

/-- The number that comes up is not behind. -/
theorem not_behind (h : o.Orderly) : ¬ o.Behind o.index := by
  intro hbehind
  have hlt := hbehind.slot_lt (index_div h.slot_lt)
  rw [index_mod h.slot_lt] at hlt
  exact Nat.lt_irrefl _ hlt

theorem fill (h : o.Orderly) : o.fill.Lined := by
  refine { h.toLined with live_behind := fun n hn => ?_ }
  rcases Finset.mem_insert.mp hn with rfl | hn
  · have hpage := index_div h.slot_lt
    have hslot := index_mod h.slot_lt
    exact ⟨hpage.trans_lt h.page_lt, hpage.symm ▸ h.page_notMem,
      fun _ => hslot.trans_lt (Nat.lt_succ_self _)⟩
  · exact (h.live_behind n hn).fill

theorem create (h : o.Orderly) : o.create.Orderly := by
  rw [FillOrder.create]
  split
  · next hnext => exact ⟨h.fill, hnext⟩
  · exact h.fill.turn

theorem free (h : o.Orderly) (n : Nat) : (o.free n).Orderly := by
  rcases o.free_cases n with ⟨-, hfree⟩ | ⟨hmem, ⟨-, hfree⟩ | ⟨⟨hpage, hnone⟩, hfree⟩⟩
  · rw [hfree]
    exact h
  · rw [hfree]
    refine ⟨{ h.toLined with live_behind := fun m hm => ?_ }, h.slot_lt⟩
    have hbehind := h.live_behind m (Finset.mem_of_mem_erase hm)
    exact ⟨hbehind.page_lt, hbehind.page_notMem, hbehind.slot_lt⟩
  · have hwaiting := waiting_drained h.taken_le (o.live.erase n) (n / o.slots)
    have hbehind := h.live_behind n hmem
    rw [hfree]
    refine ⟨⟨h.slots_pos, h.page_lt, ?_, ?_, ?_, ?_, fun m hm => ?_⟩, h.slot_lt⟩
    · rw [hwaiting, List.mem_append, List.mem_singleton]
      exact not_or.mpr ⟨h.page_notMem, fun heq => hpage heq.symm⟩
    · change o.taken ≤ (List.range' 1 (o.initial - 1) ++ (o.drained ++ [n / o.slots])).length
      rw [← List.append_assoc, List.length_append]
      exact h.taken_le.trans (Nat.le_add_right _ _)
    · intro p hp
      rw [hwaiting, List.mem_append, List.mem_singleton] at hp
      rcases hp with hp | rfl
      · exact h.waiting_lt p hp
      · exact hbehind.page_lt
    · rw [hwaiting, List.nodup_append_comm, List.singleton_append, List.nodup_cons]
      exact ⟨hbehind.page_notMem, h.waiting_nodup⟩
    · -- no other live record is in the page that is drained
      have hbehind := h.live_behind m (Finset.mem_of_mem_erase hm)
      refine ⟨hbehind.page_lt, ?_, hbehind.slot_lt⟩
      rw [hwaiting, List.mem_append, List.mem_singleton]
      exact not_or.mpr ⟨hbehind.page_notMem, hnone m hm⟩

theorem perform (h : o.Orderly) (call : SlabCall) : (o.perform call).Orderly := by
  cases call with
  | create => exact h.create
  | free index => exact h.free index.toNat
  | write _ _ => exact h
  | read _ => exact h

theorem performAll (h : o.Orderly) (calls : List SlabCall) : (o.performAll calls).Orderly := by
  induction calls generalizing o with
  | nil => exact h
  | cons call calls ih => exact ih (h.perform call)

end Orderly

/-- A step leaves the size of pages, and drains one page at most. -/
theorem perform_kept (o : FillOrder) (call : SlabCall) :
    (o.perform call).slots = o.slots ∧ o.drained <+: (o.perform call).drained := by
  cases call with
  | create =>
    change o.create.slots = _ ∧ _ <+: o.create.drained
    rw [create]
    split
    · exact ⟨rfl, List.prefix_rfl⟩
    · obtain ⟨hslots, hdrained, -⟩ := o.fill.turn_kept
      rw [hslots, hdrained]
      exact ⟨rfl, List.prefix_rfl⟩
  | free index =>
    change (o.free index.toNat).slots = _ ∧ _ <+: (o.free index.toNat).drained
    rcases o.free_cases index.toNat with ⟨-, hfree⟩ | ⟨-, ⟨-, hfree⟩ | ⟨-, hfree⟩⟩
    · rw [hfree]
      exact ⟨rfl, List.prefix_rfl⟩
    · rw [hfree]
      exact ⟨rfl, List.prefix_rfl⟩
    · rw [hfree]
      exact ⟨rfl, List.prefix_append _ _⟩
  | write _ _ => exact ⟨rfl, List.prefix_rfl⟩
  | read _ => exact ⟨rfl, List.prefix_rfl⟩

theorem drained_performAll (o : FillOrder) (calls : List SlabCall) :
    o.drained <+: (o.performAll calls).drained := by
  induction calls generalizing o with
  | nil => exact List.prefix_rfl
  | cons call calls ih => exact (o.perform_kept call).2.trans (ih (o.perform call))

namespace Behind

/-- One step leaves a number behind, or drains its page. -/
theorem perform (h : o.Behind n) (ho : o.Orderly) (call : SlabCall) :
    (o.perform call).Behind n ∨ (o.perform call).drained = o.drained ++ [n / o.slots] := by
  cases call with
  | create => exact .inl h.create
  | free index => exact h.free ho.taken_le index.toNat
  | write _ _ => exact .inl h
  | read _ => exact .inl h

/-- Any calls leave a number behind as long as its page is not drained. -/
theorem performAll (h : o.Behind n) (ho : o.Orderly) (calls : List SlabCall) :
    (o.performAll calls).Behind n ∨
      n / o.slots ∈ (o.performAll calls).drained.drop o.drained.length := by
  induction calls generalizing o with
  | nil => exact .inl h
  | cons call calls ih =>
    obtain ⟨hslots, hprefix⟩ := o.perform_kept call
    rcases h.perform ho call with hbehind | hdrained
    · rw [← hslots]
      refine (ih hbehind (ho.perform call)).imp_right fun hmem => ?_
      exact List.drop_subset_drop_left _ hprefix.length_le hmem
    · obtain ⟨later, hlater⟩ := (o.perform call).drained_performAll calls
      have hall : (o.performAll (call :: calls)).drained = o.drained ++ n / o.slots :: later := by
        rw [List.append_cons, ← hdrained]
        exact hlater.symm
      rw [hall, List.drop_left]
      exact .inr List.mem_cons_self

/-- When a number that was behind comes up, its page has been drained since. -/
theorem mem_drained (h : o.Behind n) (ho : o.Orderly) {calls : List SlabCall}
    (hindex : (o.performAll calls).index = n) :
    n / o.slots ∈ (o.performAll calls).drained.drop o.drained.length := by
  refine (h.performAll ho calls).resolve_left fun hbehind => ?_
  subst hindex
  exact (ho.performAll calls).not_behind hbehind

end Behind

end FillOrder

end RecordArena
