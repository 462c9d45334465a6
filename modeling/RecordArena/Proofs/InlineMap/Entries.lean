import Mathlib.Data.Finmap
import RecordArena.InlineMap.Basic
import RecordArena.Proofs.Bytes.Compare
import RecordArena.Proofs.Bytes.LittleEndian
import RecordArena.Proofs.Rows

/-!
# Payloads as a finite map

The payloads of an inline map are pairs of a key and a value. `InlineMap.Holds` says that they are
the entries of a finite map, each of them once, in whatever order they are stored.

## Main statements

* `InlineMap.keyOf_payload`, `InlineMap.valueOf_payload` – a payload reads back.
* `InlineMap.Holds.insert`, `InlineMap.Holds.replace`, `InlineMap.Holds.erase` – one payload more,
  another one in its place, and one less.
-/

namespace RecordArena

/-- A finite map from keys to values. -/
abbrev KeyMap (V : Type) := Finmap fun _ : Bytes => V

theorem KeyMap.erase_of_notMem {V : Type} {map : KeyMap V} {key : Bytes} (h : key ∉ map) :
    map.erase key = map := by
  apply Finmap.ext_lookup
  intro key'
  by_cases heq : key' = key
  · rw [heq, Finmap.lookup_erase, Finmap.lookup_eq_none.mpr h]
  · rw [Finmap.lookup_erase_ne heq]

namespace InlineMap

variable {V : Type} [FixedWidth V] {layout : RecordLayout}

theorem keyOf_payload {key : Bytes} (h : key.size = layout.keyLen) (value : V) :
    keyOf layout (payload key value) = key := by
  rw [keyOf, payload, ← h, Array.extract_append]
  simp

theorem valueOf_payload {key : Bytes} (h : key.size = layout.keyLen) (value : V) :
    valueOf layout (payload key value) = value := by
  have hvalue : (payload key value).extract key.size (payload key value).size =
      FixedWidth.encode value := by
    rw [payload, Array.extract_append]
    simp [Array.extract_eq_self_of_le]
  rw [valueOf, ← h, hvalue, FixedWidth.decode_encode]

theorem size_payload {key : Bytes} (h : key.size = layout.keyLen) (value : V) :
    (payload key value).size = payloadWidth V layout := by
  rw [payload, payloadWidth, Array.size_append, FixedWidth.size_encode, h]

theorem size_keyOf {p : Bytes} (h : p.size = payloadWidth V layout) :
    (keyOf layout p).size = layout.keyLen := by
  rw [payloadWidth] at h
  rw [keyOf, Array.size_extract]
  omega

def pairOf (layout : RecordLayout) (p : Bytes) : Sigma fun _ : Bytes => V :=
  ⟨keyOf layout p, valueOf layout p⟩

/-- The payloads are the entries of a finite map, each of them once. -/
structure Holds (layout : RecordLayout) (payloads : List Bytes) (map : KeyMap V) : Prop where
  entries_eq : map.entries = Multiset.ofList (payloads.map (pairOf layout))

namespace Holds

variable {payloads rest : List Bytes} {map : KeyMap V} {key p old : Bytes}

theorem empty (layout : RecordLayout) : Holds layout [] (∅ : KeyMap V) := ⟨rfl⟩

theorem perm {payloads' : List Bytes} (h : Holds layout payloads map)
    (hperm : payloads'.Perm payloads) : Holds layout payloads' map := by
  constructor
  rw [h.entries_eq, Multiset.coe_eq_coe]
  exact (hperm.map _).symm

theorem length_eq (h : Holds layout payloads map) : payloads.length = map.keys.card := by
  change _ = Multiset.card (map.entries.map Sigma.fst)
  rw [h.entries_eq, Multiset.card_map, Multiset.coe_card, List.length_map]

theorem lookup_of_mem (h : Holds layout payloads map) (hp : p ∈ payloads) :
    map.lookup (keyOf layout p) = some (valueOf layout p) := by
  rw [Finmap.lookup_eq_some_iff, h.entries_eq]
  exact Multiset.mem_coe.mpr (List.mem_map_of_mem hp)

theorem mem_of_lookup (h : Holds layout payloads map) {value : V}
    (hkey : map.lookup key = some value) :
    ∃ p ∈ payloads, keyOf layout p = key ∧ valueOf layout p = value := by
  rw [Finmap.lookup_eq_some_iff, h.entries_eq, Multiset.mem_coe] at hkey
  obtain ⟨p, hp, hpair⟩ := List.mem_map.mp hkey
  cases hpair
  exact ⟨p, hp, rfl, rfl⟩

theorem lookup_eq_none (h : Holds layout payloads map)
    (hkey : ∀ p ∈ payloads, keyOf layout p ≠ key) : map.lookup key = none := by
  rw [Option.eq_none_iff_forall_ne_some]
  intro value hvalue
  obtain ⟨p, hp, hpkey, -⟩ := h.mem_of_lookup hvalue
  exact hkey p hp hpkey

/-- A payload with a new key is one pair more. -/
theorem insert (h : Holds layout payloads map) (hkey : keyOf layout p ∉ map) :
    Holds layout (p :: payloads) (map.insert (keyOf layout p) (valueOf layout p)) := by
  constructor
  rw [Finmap.entries_insert_of_notMem hkey, h.entries_eq]
  rfl

/-- A payload less is one key less. -/
theorem erase (h : Holds layout (p :: rest) map) :
    Holds layout rest (map.erase (keyOf layout p)) := by
  have hnodup := map.nodupKeys
  rw [h.entries_eq, Multiset.coe_nodupKeys, List.map_cons, List.nodupKeys_cons] at hnodup
  -- the other payloads are a map of their own, and the first one inserts a new key into it
  let others : KeyMap V := ⟨.ofList (rest.map (pairOf layout)), Multiset.coe_nodupKeys.mpr hnodup.2⟩
  have hothers : Holds layout rest others := ⟨rfl⟩
  have hkey : keyOf layout p ∉ others := by
    rw [Finmap.mem_def]
    exact hnodup.1
  have hmap : map = others.insert (keyOf layout p) (valueOf layout p) :=
    Finmap.ext (h.entries_eq.trans (hothers.insert hkey).entries_eq.symm)
  have herase : map.erase (keyOf layout p) = others := by
    apply Finmap.ext_lookup
    intro key
    by_cases heq : key = keyOf layout p
    · rw [heq, Finmap.lookup_erase, Finmap.lookup_eq_none.mpr hkey]
    · rw [Finmap.lookup_erase_ne heq, hmap, Finmap.lookup_insert_of_ne _ heq]
  rw [herase]
  exact hothers

/-- A payload in the place of one with the same key has its value. -/
theorem replace (h : Holds layout (old :: rest) map) (hkey : keyOf layout p = keyOf layout old) :
    Holds layout (p :: rest) (map.insert (keyOf layout p) (valueOf layout p)) := by
  have herased := h.erase
  rw [← hkey] at herased
  have hinsert := herased.insert (p := p) Finmap.notMem_erase_self
  have heq : (map.erase (keyOf layout p)).insert (keyOf layout p) (valueOf layout p) =
      map.insert (keyOf layout p) (valueOf layout p) := by
    apply Finmap.ext_lookup
    intro key
    by_cases heq : key = keyOf layout p
    · rw [heq, Finmap.lookup_insert, Finmap.lookup_insert]
    · rw [Finmap.lookup_insert_of_ne _ heq, Finmap.lookup_insert_of_ne _ heq,
        Finmap.lookup_erase_ne heq]
  rwa [heq] at hinsert

end Holds

end InlineMap

end RecordArena
