import Mathlib.Logic.Relation
import RecordArena.Proofs.PaddedKey.Content

/-!
# Collections of keys

A program keeps keys of its own and keys in ranges of its records. The ranges have no byte in
common, and apart from the changes of its key nothing writes to a range. A step adds a key or
changes one, so at any time every key is padded, as long as all sources are free of zeros or keys of
the collection themselves. Then all that a key answers is decided by the last change of it.

## Main definitions

* `Span` – a range of a record.
* `KeyCollection`, `KeyCollection.keyAt` – the keys of a program and where they are kept.
* `KeyCollection.Changes`, `KeyCollection.Step` – a change of one key, and all that can happen.

## Main statements

* `KeyCollection.Step.puts` – a step puts one padded key in its place, or no key at all.
* `KeyCollection.Sound.step` – the step lemma of padding.
* `KeyCollection.stays_padded` – padding and contents in every run.
-/

namespace RecordArena

/-- The `len` bytes from `offset` on of the record of the given number. -/
structure Span where
  record : Nat
  offset : Nat
  len : Nat
  deriving DecidableEq, Repr

namespace Span

def Covers (span : Span) (record i : Nat) : Prop :=
  span.record = record ∧ span.offset ≤ i ∧ i < span.offset + span.len

/-- The two ranges have no byte in common. -/
def Apart (span other : Span) : Prop := ∀ record i, span.Covers record i → ¬other.Covers record i

theorem Apart.symm {span other : Span} (h : span.Apart other) : other.Apart span := by
  intro record i hother hspan
  exact h record i hspan hother

theorem Apart.of_ne {views : List Span} (h : views.Pairwise Apart) {i j : Nat} {a b : Span}
    (hi : views[i]? = some a) (hj : views[j]? = some b) (hne : i ≠ j) : a.Apart b := by
  obtain ⟨hilt, rfl⟩ := List.getElem?_eq_some_iff.mp hi
  obtain ⟨hjlt, rfl⟩ := List.getElem?_eq_some_iff.mp hj
  rw [List.pairwise_iff_getElem] at h
  rcases Nat.lt_or_gt_of_ne hne with hlt | hgt
  · exact h i j hilt hjlt hlt
  · exact (h j i hjlt hilt hgt).symm

end Span

/-- The keys that own their buffers, the records, and the ranges of them that are keys. -/
structure KeyCollection where
  owned : List PaddedKey := []
  records : List Bytes := []
  views : List Span := []

inductive KeyRef where
  | owned (i : Nat)
  | view (i : Nat)
  deriving DecidableEq, Repr

namespace KeyCollection

variable {c c' : KeyCollection} {change : KeyChange} {ref : KeyRef} {key : PaddedKey}

/-- The key in a range of a record. -/
def keyIn (c : KeyCollection) (span : Span) : Option PaddedKey := do
  let bytes ← c.records[span.record]?
  (bytes.keySlice span.offset span.len).toOption

def keyAt (c : KeyCollection) : KeyRef → Option PaddedKey
  | .owned i => c.owned[i]?
  | .view i => c.views[i]? >>= c.keyIn

/-- The collection with one more key of its own. -/
def push (c : KeyCollection) (key : PaddedKey) : KeyCollection :=
  { c with owned := c.owned ++ [key] }

/-- The collection with other bytes in a record. -/
def setRecord (c : KeyCollection) (record : Nat) (bytes : Bytes) : KeyCollection :=
  { c with records := c.records.set record bytes }

/-- The sources that a change may have: bytes without zeros, and the keys that are there. -/
inductive Offers (c : KeyCollection) : KeyChange → Prop
  | set {src : Bytes} (hsrc : ∀ x ∈ src, x ≠ 0) : Offers c (.set src)
  | copy {ref : KeyRef} {key : PaddedKey} (hkey : c.keyAt ref = some key) : Offers c (.copy key)
  | reset : Offers c .reset

/-- The change of one key, where it is kept. -/
inductive Changes (c : KeyCollection) (change : KeyChange) : KeyRef → KeyCollection → Prop
  | owned {i : Nat} {key key' : PaddedKey} (hkey : c.owned[i]? = some key)
    (h : change.apply key = .ok key') :
    Changes c change (.owned i) { c with owned := c.owned.set i key' }
  | view {i : Nat} {span : Span} {bytes bytes' : Bytes} (hspan : c.views[i]? = some span)
    (hbytes : c.records[span.record]? = some bytes)
    (h : bytes.modifyKey span.offset span.len change.apply = .ok bytes') :
    Changes c change (.view i) (c.setRecord span.record bytes')

/-- All that can happen to a collection. A copy of a key is the key itself, in a place of its
own. -/
inductive Step (c : KeyCollection) : KeyCollection → Prop
  | create {capacity : Nat} {key : PaddedKey} (h : PaddedKey.empty capacity = .ok key) :
    Step c (c.push key)
  | createWith {capacity : Nat} {src : Bytes} {key : PaddedKey} (hsrc : ∀ x ∈ src, x ≠ 0)
    (h : PaddedKey.withContent capacity src = .ok key) : Step c (c.push key)
  | duplicate {ref : KeyRef} {key : PaddedKey} (hkey : c.keyAt ref = some key) :
    Step c (c.push key)
  /-- The bytes that a key was encoded to become a key. -/
  | wrap {ref : KeyRef} {key key' : PaddedKey} {dst dst' : Bytes} (hkey : c.keyAt ref = some key)
    (hencode : key.encodeTo dst = .ok dst')
    (hwrap : PaddedKey.wrap (dst'.extract 0 key.capacity) = .ok key') : Step c (c.push key')
  | record (bytes : Bytes) : Step c { c with records := c.records ++ [bytes] }
  /-- A range becomes a key with the first change of it. -/
  | view {span : Span} {change : KeyChange} {bytes bytes' : Bytes}
    (hnew : ∀ other ∈ c.views, other.Apart span) (hchange : c.Offers change)
    (hbytes : c.records[span.record]? = some bytes)
    (h : bytes.modifyKey span.offset span.len change.apply = .ok bytes') :
    Step c { c.setRecord span.record bytes' with views := c.views ++ [span] }
  | change {ref : KeyRef} {change : KeyChange} {c' : KeyCollection} (hchange : c.Offers change)
    (h : c.Changes change ref c') : Step c c'
  /-- Anything is written to a record, but for the ranges of its keys. -/
  | elsewhere {record : Nat} {bytes bytes' : Bytes} (hbytes : c.records[record]? = some bytes)
    (hsize : bytes'.size = bytes.size)
    (hkeeps : ∀ span ∈ c.views, ∀ i, span.Covers record i → bytes'[i]? = bytes[i]?) :
    Step c (c.setRecord record bytes')

/-- The key at `ref` is `key`, and all other keys are what they were. -/
def Puts (c : KeyCollection) (ref : KeyRef) (key : PaddedKey) (c' : KeyCollection) : Prop :=
  ∀ other, c'.keyAt other = if other = ref then some key else c.keyAt other

/-- One padded key is put in its place, with the capacity of the key that was there, if any. -/
def Replaces (c c' : KeyCollection) : Prop :=
  ∃ ref key, key.WellPadded ∧ c.Puts ref key c' ∧
    ∀ old, c.keyAt ref = some old → key.capacity = old.capacity

/-- The ranges are apart, there is a key in each of them, and all keys are padded. -/
structure Sound (c : KeyCollection) : Prop where
  apart : c.views.Pairwise Span.Apart
  opened : ∀ i < c.views.length, ∃ key, c.keyAt (.view i) = some key
  wellPadded : ∀ ref key, c.keyAt ref = some key → key.WellPadded

theorem keyAt_view {i : Nat} (h : c.keyAt (.view i) = some key) :
    ∃ span bytes, c.views[i]? = some span ∧ c.records[span.record]? = some bytes ∧
      bytes.keySlice span.offset span.len = .ok key := by
  obtain ⟨span, hspan, hin⟩ := Option.bind_eq_some_iff.mp h
  obtain ⟨bytes, hbytes, hslice⟩ := Option.bind_eq_some_iff.mp hin
  refine ⟨span, bytes, hspan, hbytes, ?_⟩
  cases hkey : bytes.keySlice span.offset span.len with
  | error e =>
    rw [hkey] at hslice
    cases hslice
  | ok key' =>
    rw [hkey] at hslice
    cases hslice
    rfl

theorem getElem?_concat_of_ne {α : Type} {xs : List α} {x : α} {i : Nat} (hi : i ≠ xs.length) :
    (xs ++ [x])[i]? = xs[i]? := by
  rcases Nat.lt_or_gt_of_ne hi with hlt | hgt
  · exact List.getElem?_append_left hlt
  · rw [List.getElem?_eq_none (Nat.le_of_lt hgt), List.getElem?_eq_none]
    rwa [List.length_append, List.length_singleton]

theorem puts_push (c : KeyCollection) (key : PaddedKey) :
    c.Puts (.owned c.owned.length) key (c.push key) := by
  intro other
  cases other with
  | owned i =>
    simp only [keyAt, push, KeyRef.owned.injEq]
    split
    · next hi => simp [hi]
    · next hi => exact getElem?_concat_of_ne hi
  | view i => rfl

/-- Bytes outside a range do not matter for the key in it. -/
theorem keyIn_setRecord {record : Nat} {bytes bytes' : Bytes} {span : Span}
    (hbytes : c.records[record]? = some bytes) (hsize : bytes'.size = bytes.size)
    (hkeeps : ∀ i, span.Covers record i → bytes'[i]? = bytes[i]?) :
    (c.setRecord record bytes').keyIn span = c.keyIn span := by
  rw [keyIn, keyIn, setRecord]
  by_cases hrecord : span.record = record
  · subst hrecord
    have hlt : span.record < c.records.length := (List.getElem?_eq_some_iff.mp hbytes).1
    have hslice : bytes'.keySlice span.offset span.len = bytes.keySlice span.offset span.len :=
      Bytes.keySlice_congr hsize fun i hle hlt => hkeeps i ⟨rfl, hle, hlt⟩
    rw [List.getElem?_set_self hlt, hbytes]
    exact congrArg Except.toOption hslice
  · rw [List.getElem?_set_ne (Ne.symm hrecord)]

theorem keyIn_setRecord_self {span : Span} {bytes bytes' : Bytes}
    (hbytes : c.records[span.record]? = some bytes)
    (hkey : bytes'.keySlice span.offset span.len = .ok key) :
    (c.setRecord span.record bytes').keyIn span = some key := by
  have hlt : span.record < c.records.length := (List.getElem?_eq_some_iff.mp hbytes).1
  rw [keyIn, setRecord, List.getElem?_set_self hlt]
  exact congrArg Except.toOption hkey

/-- The ranges that keep their bytes keep their keys. -/
theorem keyAt_setRecord {record : Nat} {bytes bytes' : Bytes}
    (hbytes : c.records[record]? = some bytes) (hsize : bytes'.size = bytes.size)
    (hkeeps : ∀ i span, ref = .view i → c.views[i]? = some span →
      ∀ j, span.Covers record j → bytes'[j]? = bytes[j]?) :
    (c.setRecord record bytes').keyAt ref = c.keyAt ref := by
  cases ref with
  | owned i => rfl
  | view i =>
    change c.views[i]? >>= (c.setRecord record bytes').keyIn = c.views[i]? >>= c.keyIn
    cases hspan : c.views[i]? with
    | none => rfl
    | some span => exact keyIn_setRecord hbytes hsize (hkeeps i span rfl hspan)

/-- A change of a key puts the changed key in its place. -/
theorem Changes.puts (hapart : c.views.Pairwise Span.Apart) (h : c.Changes change ref c') :
    ∃ key key', c.keyAt ref = some key ∧ change.apply key = .ok key' ∧ c.Puts ref key' c' := by
  cases h with
  | @owned i key key' hkey h =>
    refine ⟨key, key', hkey, h, ?_⟩
    intro other
    cases other with
    | owned j =>
      have hlt : i < c.owned.length := (List.getElem?_eq_some_iff.mp hkey).1
      by_cases hij : j = i
      · simp [keyAt, hij, hlt]
      · simp [keyAt, hij, List.getElem?_set_ne (Ne.symm hij)]
    | view j => rfl
  | @view i span bytes bytes' hspan hbytes h =>
    obtain ⟨hsize, houtside, key, key', hkey, hchange, hkey'⟩ := KeyChange.modifyKey_eq_ok h
    refine ⟨key, key', ?_, hchange, ?_⟩
    · simp [keyAt, keyIn, hspan, hbytes, hkey, Except.toOption]
    intro other
    by_cases hother : other = .view i
    · subst hother
      rw [if_pos rfl]
      change c.views[i]? >>= (c.setRecord span.record bytes').keyIn = some key'
      rw [hspan]
      exact keyIn_setRecord_self hbytes hkey'
    · rw [if_neg hother]
      refine keyAt_setRecord hbytes hsize ?_
      rintro j span' rfl hspan' l hcovers
      -- the byte is in another range, so it is not in the changed one
      have hne : j ≠ i := fun heq => hother (heq ▸ rfl)
      have hnot := (Span.Apart.of_ne hapart hspan' hspan hne) _ _ hcovers
      exact houtside l fun hin => hnot ⟨rfl, hin⟩

/-- The first change of a range puts the key there. -/
theorem puts_view {span : Span} {bytes bytes' : Bytes}
    (hnew : ∀ other ∈ c.views, other.Apart span)
    (hbytes : c.records[span.record]? = some bytes)
    (h : bytes.modifyKey span.offset span.len change.apply = .ok bytes') :
    ∃ key key', change.apply key = .ok key' ∧
      c.Puts (.view c.views.length) key'
        { c.setRecord span.record bytes' with views := c.views ++ [span] } := by
  obtain ⟨hsize, houtside, key, key', -, hchange, hkey'⟩ := KeyChange.modifyKey_eq_ok h
  refine ⟨key, key', hchange, ?_⟩
  have hself := keyIn_setRecord_self hbytes hkey'
  intro other
  cases other with
  | owned j => rfl
  | view j =>
    have hold : (c.setRecord span.record bytes').keyAt (.view j) = c.keyAt (.view j) := by
      refine keyAt_setRecord hbytes hsize ?_
      intro j' span' _ hspan' l hcovers
      have hnot := hnew span' (List.mem_of_getElem? hspan') _ _ hcovers
      exact houtside l fun hin => hnot ⟨rfl, hin⟩
    simp only [KeyRef.view.injEq]
    split
    · next hj =>
      subst hj
      change (c.views ++ [span])[c.views.length]? >>= (c.setRecord span.record bytes').keyIn = _
      rw [List.getElem?_concat_length]
      exact hself
    · next hj =>
      rw [← hold]
      change (c.views ++ [span])[j]? >>= (c.setRecord span.record bytes').keyIn =
        c.views[j]? >>= (c.setRecord span.record bytes').keyIn
      rw [getElem?_concat_of_ne hj]

/-- What a collection offers has no zeros but for padding. -/
theorem Sound.clean (hc : c.Sound) (h : c.Offers change) : change.Clean := by
  cases h with
  | set hsrc => exact hsrc
  | copy hkey => exact hc.wellPadded _ _ hkey
  | reset => trivial

/-- The ranges of the keys are in records that are there. -/
theorem Sound.record_lt (hc : c.Sound) {i : Nat} {span : Span} (hspan : c.views[i]? = some span) :
    span.record < c.records.length := by
  obtain ⟨key, hkey⟩ := hc.opened i (List.getElem?_eq_some_iff.mp hspan).1
  obtain ⟨span', bytes, hspan', hbytes, -⟩ := keyAt_view hkey
  cases hspan.symm.trans hspan'
  exact (List.getElem?_eq_some_iff.mp hbytes).1

/-- A key that is added was not there before. -/
theorem replaces_push (hkey : key.WellPadded) : c.Replaces (c.push key) := by
  refine ⟨_, key, hkey, c.puts_push key, ?_⟩
  intro old hold
  simp [keyAt] at hold

/-- A step puts one padded key in its place, or leaves all keys. -/
theorem Step.puts (hc : c.Sound) (h : c.Step c') :
    (∀ ref, c'.keyAt ref = c.keyAt ref) ∨ c.Replaces c' := by
  cases h with
  | create h =>
    right
    exact replaces_push (PaddedKey.reads_of_empty h).wellPadded
  | createWith hsrc h =>
    right
    exact replaces_push (PaddedKey.wellPadded_of_withContent _ _ hsrc h).1
  | duplicate hkey =>
    right
    exact replaces_push (hc.wellPadded _ _ hkey)
  | wrap hkey hencode hwrap =>
    right
    obtain ⟨-, -, hsame⟩ := PaddedKey.wrap_of_encodeTo hencode
    cases hsame.symm.trans hwrap
    exact replaces_push (hc.wellPadded _ _ hkey)
  | record bytes =>
    left
    intro ref
    cases ref with
    | owned i => rfl
    | view i =>
      simp only [keyAt]
      cases hspan : c.views[i]? with
      | none => rfl
      | some span =>
        change keyIn _ span = c.keyIn span
        rw [keyIn, keyIn, List.getElem?_append_left (hc.record_lt hspan)]
  | view hnew hchange hbytes h =>
    right
    obtain ⟨key, key', happly, hputs⟩ := puts_view hnew hbytes h
    refine ⟨_, key', ((hc.clean hchange).reads happly).wellPadded, hputs, ?_⟩
    intro old hold
    simp [keyAt] at hold
  | @change ref change _ hchange h =>
    right
    obtain ⟨key, key', hkey, happly, hputs⟩ := h.puts hc.apart
    refine ⟨ref, key', ((hc.clean hchange).reads happly).wellPadded, hputs, ?_⟩
    intro old hold
    cases hkey.symm.trans hold
    exact KeyChange.capacity_apply happly
  | elsewhere hbytes hsize hkeeps =>
    left
    intro ref
    refine keyAt_setRecord hbytes hsize ?_
    intro i span _ hspan
    exact hkeeps span (List.mem_of_getElem? hspan)

/-- No key is lost in a step, and no capacity changes. -/
theorem Step.capacity (hc : c.Sound) (h : c.Step c') (hkey : c.keyAt ref = some key) :
    ∃ key', c'.keyAt ref = some key' ∧ key'.capacity = key.capacity := by
  rcases h.puts hc with hsame | ⟨ref', key', -, hputs, hcapacity⟩
  · exact ⟨key, (hsame ref).trans hkey, rfl⟩
  · have hput := hputs ref
    split at hput
    · next heq =>
      subst heq
      exact ⟨key', hput, hcapacity key hkey⟩
    · exact ⟨key, hput.trans hkey, rfl⟩

/-- A step adds one range at most, apart from the others and with a key in it. -/
theorem Step.views (h : c.Step c') :
    c'.views = c.views ∨ ∃ span key, c'.views = c.views ++ [span] ∧
      (∀ other ∈ c.views, other.Apart span) ∧ c'.keyAt (.view c.views.length) = some key := by
  cases h with
  | create h => exact .inl rfl
  | createWith hsrc h => exact .inl rfl
  | duplicate hkey => exact .inl rfl
  | wrap hkey hencode hwrap => exact .inl rfl
  | record bytes => exact .inl rfl
  | @view span _ _ _ hnew hchange hbytes h =>
    obtain ⟨-, key, -, hputs⟩ := puts_view hnew hbytes h
    exact .inr ⟨span, key, rfl, hnew, (hputs _).trans (if_pos rfl)⟩
  | change hchange h =>
    cases h with
    | owned hkey h => exact .inl rfl
    | view hspan hbytes h => exact .inl rfl
  | elsewhere hbytes hsize hkeeps => exact .inl rfl

theorem Sound.step (hc : c.Sound) (h : c.Step c') : c'.Sound where
  apart := by
    rcases h.views with hsame | ⟨span, -, hviews, hnew, -⟩
    · rw [hsame]
      exact hc.apart
    · rw [hviews, List.pairwise_append]
      refine ⟨hc.apart, List.pairwise_singleton _ _, ?_⟩
      intro other hother last hlast
      rw [List.mem_singleton.mp hlast]
      exact hnew other hother
  opened := by
    intro i hi
    by_cases hold : i < c.views.length
    · obtain ⟨key, hkey⟩ := hc.opened i hold
      obtain ⟨key', hkey', -⟩ := h.capacity hc hkey
      exact ⟨key', hkey'⟩
    · rcases h.views with hsame | ⟨span, key, hviews, -, hkey⟩
      · rw [hsame] at hi
        contradiction
      · rw [hviews, List.length_append, List.length_singleton] at hi
        obtain rfl : i = c.views.length := by omega
        exact ⟨key, hkey⟩
  wellPadded := by
    intro ref key hkey
    rcases h.puts hc with hsame | ⟨ref', key', hpadded, hputs, -⟩
    · exact hc.wellPadded ref key ((hsame ref).symm.trans hkey)
    · rw [hputs] at hkey
      split at hkey
      · cases hkey
        exact hpadded
      · exact hc.wellPadded ref key hkey

theorem Sound.empty : Sound {} where
  apart := .nil
  opened := fun i hi => absurd hi (Nat.not_lt_zero i)
  wellPadded := by
    intro ref key hkey
    cases ref with
    | owned i => simp [keyAt] at hkey
    | view i => simp [keyAt] at hkey

theorem Sound.run (hc : c.Sound) (h : Relation.ReflTransGen Step c c') : c'.Sound := by
  induction h with
  | refl => exact hc
  | tail _ hstep ih => exact ih.step hstep

theorem capacity_run (hc : c.Sound) (h : Relation.ReflTransGen Step c c')
    (hkey : c.keyAt ref = some key) :
    ∃ key', c'.keyAt ref = some key' ∧ key'.capacity = key.capacity := by
  induction h with
  | refl => exact ⟨key, hkey, rfl⟩
  | tail hrun hstep ih =>
    obtain ⟨key', hkey', hcapacity⟩ := ih
    obtain ⟨key'', hkey'', hcapacity'⟩ := hstep.capacity (hc.run hrun) hkey'
    exact ⟨key'', hkey'', hcapacity'.trans hcapacity⟩

/-- A key can be changed exactly when the source fits. -/
theorem changes_iff (hkey : c.keyAt ref = some key) :
    (∃ c', c.Changes change ref c') ↔ change.source.size ≤ key.capacity := by
  cases ref with
  | owned i =>
    rw [← KeyChange.apply_isOk]
    constructor
    · rintro ⟨c', h⟩
      cases h with
      | owned hkey' h =>
        cases hkey.symm.trans hkey'
        exact ⟨_, h⟩
    · rintro ⟨key', h⟩
      exact ⟨_, .owned hkey h⟩
  | view i =>
    obtain ⟨span, bytes, hspan, hbytes, hslice⟩ := keyAt_view hkey
    rw [← KeyChange.modifyKey_isOk hslice]
    constructor
    · rintro ⟨c', h⟩
      cases h with
      | view hspan' hbytes' h =>
        cases hspan.symm.trans hspan'
        cases hbytes.symm.trans hbytes'
        exact ⟨_, h⟩
    · rintro ⟨bytes', h⟩
      exact ⟨_, .view hspan hbytes h⟩

/-- In every run, there is a key in every range, and every key is its content and zeros behind it and
answers as its content does; it stays there, with its capacity. A change that the collection offers
is made exactly when its source fits. Then the key reads as what the change put there, and no other
key is changed. The bytes that a key is encoded to are that key, and what follows them is kept.
Whatever a key held before, it reads as what an offered change put there; if the key is in a record,
only the bytes of its range are changed. -/
theorem stays_padded (hrun : Relation.ReflTransGen Step {} c) :
    (∀ i < c.views.length, ∃ key, c.keyAt (.view i) = some key) ∧
    (∀ ref key, c.keyAt ref = some key →
      key.Reads key.content ∧
      (∀ c', Relation.ReflTransGen Step c c' → ∃ key', c'.keyAt ref = some key' ∧
        key'.Reads key'.content ∧ key'.capacity = key.capacity) ∧
      (∀ change, c.Offers change →
        ((∃ c', c.Changes change ref c') ↔ change.source.size ≤ key.capacity) ∧
        ∀ c', c.Changes change ref c' → ∃ key', key'.Reads change.content ∧
          key'.capacity = key.capacity ∧ c.Puts ref key' c') ∧
      ∀ dst : Bytes, key.capacity ≤ dst.size → ∃ dst', key.encodeTo dst = .ok dst' ∧
        dst'.size = dst.size ∧ (∀ i, key.capacity ≤ i → dst'[i]? = dst[i]?) ∧
        ∃ key', PaddedKey.wrap (dst'.extract 0 key.capacity) = .ok key' ∧ key'.raw = key.raw ∧
          key'.keyHash = key.keyHash ∧ (key' == key) = true) ∧
    ∀ change, c.Offers change →
      (∀ key key', change.apply key = .ok key' →
        key'.Reads change.content ∧ key'.capacity = key.capacity) ∧
      ∀ (bytes bytes' : Bytes) (offset len : Nat),
        bytes.modifyKey offset len change.apply = .ok bytes' →
          bytes'.size = bytes.size ∧
          (∀ i, ¬(offset ≤ i ∧ i < offset + len) → bytes'[i]? = bytes[i]?) ∧
          ∃ key', bytes'.keySlice offset len = .ok key' ∧ key'.Reads change.content := by
  have hc := Sound.empty.run hrun
  refine ⟨hc.opened, ?_, ?_⟩
  · intro ref key hkey
    refine ⟨(hc.wellPadded ref key hkey).reads, ?_, ?_, ?_⟩
    · intro c' hrun'
      obtain ⟨key', hkey', hcapacity⟩ := capacity_run hc hrun' hkey
      exact ⟨key', hkey', ((hc.run hrun').wellPadded ref key' hkey').reads, hcapacity⟩
    · intro change hchange
      refine ⟨changes_iff hkey, ?_⟩
      intro c' h
      obtain ⟨old, key', hold, happly, hputs⟩ := h.puts hc.apart
      cases hkey.symm.trans hold
      exact ⟨key', (hc.clean hchange).reads happly, KeyChange.capacity_apply happly, hputs⟩
    · intro dst hfit
      obtain ⟨dst', hencode⟩ := PaddedKey.encodeTo_isOk hfit
      obtain ⟨hsize, hbehind, hwrap⟩ := PaddedKey.wrap_of_encodeTo hencode
      exact ⟨dst', hencode, hsize, hbehind, key, hwrap, rfl, rfl, key.beq_self⟩
  · intro change hchange
    have hclean := hc.clean hchange
    constructor
    · intro key key' happly
      exact ⟨hclean.reads happly, KeyChange.capacity_apply happly⟩
    · intro bytes bytes' offset len h
      obtain ⟨hsize, houtside, key, key', -, happly, hkey'⟩ := KeyChange.modifyKey_eq_ok h
      exact ⟨hsize, houtside, key', hkey', hclean.reads happly⟩

/-- A range of a record that held other bytes, a long content in it and then a short one, which is
copied to a key of a larger capacity. -/
theorem stays_padded_short_over_long :
    ∃ c c' key key', Relation.ReflTransGen Step {} c ∧ c.keyAt (.view 0) = some key ∧
      key.Reads #[65, 66] ∧ c.Changes (.copy key) (.owned 0) c' ∧
      c'.keyAt (.owned 0) = some key' ∧ key'.Reads #[65, 66] ∧ key'.capacity = 16 := by
  obtain ⟨old, hold, hcapacity⟩ :
      ∃ key, PaddedKey.withContent 16 #[67, 68] = .ok key ∧ key.capacity = 16 := ⟨_, rfl, rfl⟩
  obtain ⟨filled, long, short, hlong, hshort, hsize⟩ : ∃ filled long short : Bytes,
      filled.modifyKey 8 8 (KeyChange.set #[65, 66, 67, 68, 69, 70, 71, 72]).apply = .ok long ∧
      long.modifyKey 8 8 (KeyChange.set #[65, 66]).apply = .ok short ∧ long.size = 24 :=
    ⟨Array.replicate 24 255,
      Bytes.overwrite (Array.replicate 24 255) 8 [65, 66, 67, 68, 69, 70, 71, 72],
      Bytes.overwrite (Array.replicate 24 255) 8 [65, 66, 0, 0, 0, 0, 0, 0],
      by decide +kernel, by decide +kernel, by decide⟩
  have hset : ∀ c : KeyCollection, c.Offers (.set #[65, 66]) := fun c => .set (by simp)
  -- the run up to the short content
  have hrun₃ : Relation.ReflTransGen Step {}
      { owned := [old], records := [long], views := [⟨0, 8, 8⟩] } := by
    have hcreated : Step {} { owned := [old] } := .createWith (by simp) hold
    have hrecord : Step { owned := [old] } { owned := [old], records := [filled] } :=
      .record filled
    have hoffers : Offers { owned := [old], records := [filled] }
        (.set #[65, 66, 67, 68, 69, 70, 71, 72]) := .set (by simp)
    refine .tail (.tail (.single hcreated) hrecord) ?_
    exact @Step.view _ ⟨0, 8, 8⟩ _ _ _ (fun other hother => absurd hother List.not_mem_nil) hoffers
      rfl hlong
  have hchanged : Changes { owned := [old], records := [long], views := [⟨0, 8, 8⟩] }
      (.set #[65, 66]) (.view 0) { owned := [old], records := [short], views := [⟨0, 8, 8⟩] } :=
    @Changes.view _ _ 0 ⟨0, 8, 8⟩ _ _ rfl rfl hshort
  have hrun₄ := hrun₃.tail (.change (hset _) hchanged)
  -- the key in the range, before and after the short content
  obtain ⟨hviews, hkeys, -⟩ := stays_padded hrun₃
  obtain ⟨wide, hwide⟩ := hviews 0 Nat.one_pos
  obtain ⟨-, -, hchange, -⟩ := hkeys _ _ hwide
  obtain ⟨key, hreads, hkeysize, hputs⟩ := (hchange _ (hset _)).2 _ hchanged
  have hkey := hputs (.view 0)
  have hwidth : wide.capacity = 8 := by
    obtain ⟨span, bytes, hspan, hbytes, hslice⟩ := keyAt_view hwide
    cases hspan
    cases hbytes
    rw [PaddedKey.capacity, (Bytes.keySlice_eq_ok.mp hslice).2.2, Array.size_extract, hsize]
    rfl
  -- and the copy of it
  obtain ⟨-, hkeys, -⟩ := stays_padded hrun₄
  obtain ⟨-, -, hchange, -⟩ := hkeys (.owned 0) old rfl
  obtain ⟨hfits, hresult⟩ := hchange _ (.copy hkey)
  obtain ⟨c', hcopied⟩ := hfits.mpr (by
    change key.capacity ≤ old.capacity
    omega)
  obtain ⟨key', hreads', hsize', hputs'⟩ := hresult c' hcopied
  have hcontent : (KeyChange.copy key).content = #[65, 66] := hreads.content_eq
  rw [hcontent] at hreads'
  exact ⟨_, c', key, key', hrun₄, hkey, hreads, hcopied, hputs' (.owned 0), hreads',
    hsize'.trans hcapacity⟩

end KeyCollection

end RecordArena
