import Mathlib.Data.Finmap
import Mathlib.Data.Finset.Sort
import Rsylar.Kv.SkipListRefinement

/-!
# The skip list is a finite map

Calls of the skip list and of a finite map, with their answers. The towers hold the list of nodes
that the operations of `SkipList` give (`Towers.Holds`), and this list has the keys and the values
of the map (`IsMap`). So the answers are those of the map, for every sequence of calls and every
height that the nodes get.
-/

set_option autoImplicit false
set_option relaxedAutoImplicit false

namespace Rsylar

/-! ### The towers hold the list of nodes -/

namespace Towers

variable {K V : Type} [LinearOrder K] {s : Towers K V} {l : SkipList K V}

/-- The nodes of the list are those of the towers. -/
def Holds (s : Towers K V) (l : SkipList K V) : Prop :=
  ∃ ts, s.Represents ts ∧ ts.map Tower.entry = l

theorem holds_create (maxLevel : ℕ) : (create maxLevel : Towers K V).Holds [] :=
  ⟨[], represents_create maxLevel, rfl⟩

namespace Holds

theorem sorted (h : s.Holds l) : SkipList.Sorted l := by
  obtain ⟨ts, hrepresents, rfl⟩ := h
  exact Represents.sorted_entries.mpr hrepresents.sorted

theorem searchElement (h : s.Holds l) (key : K) :
    s.searchElement key = some (SkipList.searchElement key l) := by
  obtain ⟨ts, hrepresents, rfl⟩ := h
  rw [hrepresents.searchElement, Represents.searchElement_entries]

theorem insertElement (h : s.Holds l) (key : K) (value : V) (ones : ℕ) :
    ∃ s', s.insertElement key value ones =
        some (if SkipList.searchElement key l = none then 0 else 1, s') ∧
      s'.Holds (SkipList.insertElement key value l) := by
  obtain ⟨ts, hrepresents, rfl⟩ := h
  have hsearch := Represents.searchElement_entries key ts
  cases hfound : Represents.found key ts with
  | none =>
    rw [hfound, Option.map_none] at hsearch
    obtain ⟨s', hinsert, hrepresents'⟩ := hrepresents.insertElement_new hfound value ones
    refine ⟨s', ?_, _, hrepresents', (Represents.insertElement_entries hfound).symm⟩
    rw [hinsert, if_pos hsearch]
  | some t =>
    rw [hfound] at hsearch
    refine ⟨s, ?_, ts, hrepresents, (SkipList.insertElement_of_found hsearch).symm⟩
    rw [hrepresents.insertElement_found hfound, if_neg fun hnone ↦ ?_]
    rw [hnone] at hsearch
    cases hsearch

theorem deleteElement (h : s.Holds l) (key : K) :
    ∃ s', s.deleteElement key = some s' ∧ s'.Holds (SkipList.deleteElement key l) := by
  obtain ⟨ts, hrepresents, rfl⟩ := h
  have hsearch := Represents.searchElement_entries key ts
  cases hfound : Represents.found key ts with
  | none =>
    rw [hfound] at hsearch
    refine ⟨s, hrepresents.deleteElement_new hfound, ts, hrepresents, ?_⟩
    exact (SkipList.deleteElement_of_not_found hsearch).symm
  | some t =>
    obtain ⟨s', hdelete, hrepresents'⟩ := hrepresents.deleteElement_found hfound
    exact ⟨s', hdelete, _, hrepresents', (Represents.deleteElement_entries hfound).symm⟩

theorem insertSetElement (h : s.Holds l) (key : K) (value : V) (ones : ℕ) :
    ∃ s', s.insertSetElement key value ones = some s' ∧
      s'.Holds (SkipList.insertSetElement key value l) := by
  unfold Towers.insertSetElement SkipList.insertSetElement
  rw [h.searchElement]
  cases SkipList.searchElement key l with
  | none =>
    obtain ⟨s', hinsert, hholds⟩ := h.insertElement key value ones
    exact ⟨s', by simp [hinsert], hholds⟩
  | some v =>
    obtain ⟨s₁, hdelete, hholds₁⟩ := h.deleteElement key
    obtain ⟨s', hinsert, hholds⟩ := hholds₁.insertElement key value ones
    exact ⟨s', by simp [hdelete, hinsert], hholds⟩

theorem size (h : s.Holds l) : s.size = l.length := by
  obtain ⟨ts, hrepresents, rfl⟩ := h
  rw [List.length_map]
  exact hrepresents.count

theorem dumpFile (h : s.Holds l) : s.dumpFile = some (SkipList.dumpFile l) := by
  obtain ⟨ts, hrepresents, rfl⟩ := h
  have hlinked := hrepresents.linked 0 (Nat.zero_le _)
  rw [Tower.onLevel_zero] at hlinked
  have hentries : (ts.map Tower.addr).map s.getEntry = (ts.map Tower.entry).map some := by
    rw [List.map_map, List.map_map]
    exact List.map_congr_left fun t ht ↦ hrepresents.getEntry ht
  have hcollect := hlinked.collect hentries
    (show (ts.map Tower.addr).length < s.elementCount + 1 by
      rw [List.length_map, hrepresents.count]
      exact Nat.lt_succ_self _)
  unfold Towers.dumpFile
  rw [hcollect]
  rfl

end Holds

end Towers

/-! ### Calls -/

/-- The calls. An insertion comes with the number of ones that `rand` gives for its node. -/
inductive SkipListCall (K V : Type) where
  | insertElement (key : K) (value : V) (ones : ℕ)
  | insertSetElement (key : K) (value : V) (ones : ℕ)
  | deleteElement (key : K)
  | searchElement (key : K)
  | size
  | dumpFile

inductive SkipListAnswer (K V : Type) where
  | inserted (code : ℕ)
  | done
  | value (value : Option V)
  | count (count : ℕ)
  | dump (dump : SkipList.Dump K V)

section Calls

variable {K V : Type} [LinearOrder K]

namespace Towers

def call (s : Towers K V) :
    SkipListCall K V → Option (SkipListAnswer K V × Towers K V)
  | .insertElement key value ones =>
    (s.insertElement key value ones).map fun (code, s) ↦ (.inserted code, s)
  | .insertSetElement key value ones =>
    (s.insertSetElement key value ones).map fun s ↦ (.done, s)
  | .deleteElement key => (s.deleteElement key).map fun s ↦ (.done, s)
  | .searchElement key => (s.searchElement key).map fun value ↦ (.value value, s)
  | .size => some (.count s.size, s)
  | .dumpFile => s.dumpFile.map fun dump ↦ (.dump dump, s)

/-- The answers to the calls, one after the other. -/
def answers (s : Towers K V) : List (SkipListCall K V) → Option (List (SkipListAnswer K V))
  | [] => some []
  | c :: calls => do
    let (answer, s) ← s.call c
    let rest ← s.answers calls
    some (answer :: rest)

end Towers

/-- A finite map from the keys to values. -/
abbrev KeyMap (K V : Type) := Finmap fun _ : K ↦ V

namespace KeyMap

/-- The keys in increasing order, with their values. -/
def dump (m : KeyMap K V) : SkipList.Dump K V where
  keyDumpVt := m.keys.sort
  valDumpVt := m.keys.sort.filterMap m.lookup

/-- An insertion keeps the value that there is, setting a key overwrites it. -/
def call (m : KeyMap K V) : SkipListCall K V → SkipListAnswer K V × KeyMap K V
  | .insertElement key value _ =>
    if key ∈ m then (.inserted 1, m) else (.inserted 0, m.insert key value)
  | .insertSetElement key value _ => (.done, m.insert key value)
  | .deleteElement key => (.done, m.erase key)
  | .searchElement key => (.value (m.lookup key), m)
  | .size => (.count m.keys.card, m)
  | .dumpFile => (.dump m.dump, m)

def answers (m : KeyMap K V) : List (SkipListCall K V) → List (SkipListAnswer K V)
  | [] => []
  | c :: calls => (call m c).1 :: answers (call m c).2 calls

end KeyMap

/-! ### The list of nodes has the entries of the map -/

namespace SkipList

variable {l : SkipList K V} {m : KeyMap K V}

/-- The list finds what the map finds. -/
structure IsMap (l : SkipList K V) (m : KeyMap K V) : Prop where
  sorted : Sorted l
  lookup : ∀ key, m.lookup key = searchElement key l

theorem isMap_nil : IsMap ([] : SkipList K V) ∅ :=
  ⟨List.Pairwise.nil, fun key ↦ Finmap.lookup_empty key⟩

namespace IsMap

theorem mem_iff (h : IsMap l m) (key : K) : key ∈ m ↔ searchElement key l ≠ none := by
  rw [← h.lookup, ne_eq, Finmap.lookup_eq_none, not_not]

theorem insertElement (h : IsMap l m) {key : K} (hnew : searchElement key l = none) (value : V) :
    IsMap (insertElement key value l) (m.insert key value) where
  sorted := h.sorted.insertElement
  lookup := by
    intro key'
    rw [searchElement_insertElement hnew]
    split
    · rename_i heq
      subst heq
      exact Finmap.lookup_insert m
    · rename_i hne
      rw [Finmap.lookup_insert_of_ne m hne, h.lookup]

theorem insertSetElement (h : IsMap l m) (key : K) (value : V) :
    IsMap (insertSetElement key value l) (m.insert key value) where
  sorted := h.sorted.insertSetElement
  lookup := by
    intro key'
    rw [searchElement_insertSetElement h.sorted]
    split
    · rename_i heq
      subst heq
      exact Finmap.lookup_insert m
    · rename_i hne
      rw [Finmap.lookup_insert_of_ne m hne, h.lookup]

theorem deleteElement (h : IsMap l m) (key : K) :
    IsMap (deleteElement key l) (m.erase key) where
  sorted := h.sorted.deleteElement
  lookup := by
    intro key'
    rw [searchElement_deleteElement h.sorted]
    split
    · rename_i heq
      subst heq
      exact Finmap.lookup_erase key' m
    · rename_i hne
      rw [Finmap.lookup_erase_ne hne, h.lookup]

theorem keys_nodup (h : IsMap l m) : (l.map Prod.fst).Nodup :=
  (List.pairwise_map.mpr h.sorted).imp ne_of_lt

theorem mem_keys (h : IsMap l m) (key : K) : key ∈ m.keys ↔ key ∈ l.map Prod.fst := by
  rw [Finmap.mem_keys, Finmap.mem_iff, List.mem_map]
  constructor
  · rintro ⟨value, hlookup⟩
    rw [h.lookup] at hlookup
    exact ⟨(key, value), mem_of_searchElement hlookup, rfl⟩
  · rintro ⟨⟨key', value⟩, hmem, rfl⟩
    exact ⟨value, (h.lookup _).trans (h.sorted.searchElement_of_mem hmem)⟩

theorem keys_eq (h : IsMap l m) : m.keys = (l.map Prod.fst).toFinset := by
  ext key
  rw [h.mem_keys, List.mem_toFinset]

theorem card_keys (h : IsMap l m) : m.keys.card = l.length := by
  rw [h.keys_eq, List.toFinset_card_of_nodup h.keys_nodup, List.length_map]

/-- The nodes are those of the sorted keys. -/
theorem sort_keys (h : IsMap l m) : m.keys.sort = l.map Prod.fst := by
  rw [h.keys_eq]
  exact (List.toFinset_sort _ h.keys_nodup).mpr ((List.pairwise_map.mpr h.sorted).imp le_of_lt)

theorem dump_eq (h : IsMap l m) : m.dump = dumpFile l := by
  have hvalues : (l.map Prod.fst).filterMap m.lookup = l.map Prod.snd := by
    rw [List.filterMap_map, ← List.filterMap_eq_map]
    refine List.filterMap_congr fun node hmem ↦ ?_
    exact (h.lookup node.1).trans (h.sorted.searchElement_of_mem hmem)
  rw [KeyMap.dump, h.sort_keys, hvalues]
  rfl

end IsMap

end SkipList

/-! ### The answers -/

namespace Towers

/-- The towers hold the entries of the map. -/
def Refines (s : Towers K V) (m : KeyMap K V) : Prop :=
  ∃ l, s.Holds l ∧ SkipList.IsMap l m

theorem refines_create (maxLevel : ℕ) : (create maxLevel : Towers K V).Refines ∅ :=
  ⟨[], holds_create maxLevel, SkipList.isMap_nil⟩

/-- A call has the answer of the map, and the towers hold the entries of the new map. -/
theorem Refines.call {s : Towers K V} {m : KeyMap K V} (h : s.Refines m) (c : SkipListCall K V) :
    ∃ s', s.call c = some ((m.call c).1, s') ∧ s'.Refines (m.call c).2 := by
  obtain ⟨l, hholds, hmap⟩ := h
  cases c with
  | insertElement key value ones =>
    obtain ⟨s', hinsert, hholds'⟩ := hholds.insertElement key value ones
    by_cases hnew : SkipList.searchElement key l = none
    · have hmem : key ∉ m := fun hmem ↦ (hmap.mem_iff key).mp hmem hnew
      have hcall : m.call (.insertElement key value ones) = (.inserted 0, m.insert key value) :=
        if_neg hmem
      rw [hcall]
      refine ⟨s', ?_, _, hholds', hmap.insertElement hnew value⟩
      simp [Towers.call, hinsert, hnew]
    · have hcall : m.call (.insertElement key value ones) = (.inserted 1, m) :=
        if_pos ((hmap.mem_iff key).mpr hnew)
      obtain ⟨v, hv⟩ := Option.ne_none_iff_exists'.mp hnew
      rw [SkipList.insertElement_of_found hv] at hholds'
      rw [hcall]
      refine ⟨s', ?_, l, hholds', hmap⟩
      simp [Towers.call, hinsert, hnew]
  | insertSetElement key value ones =>
    obtain ⟨s', hinsert, hholds'⟩ := hholds.insertSetElement key value ones
    refine ⟨s', ?_, _, hholds', hmap.insertSetElement key value⟩
    simp [Towers.call, KeyMap.call, hinsert]
  | deleteElement key =>
    obtain ⟨s', hdelete, hholds'⟩ := hholds.deleteElement key
    refine ⟨s', ?_, _, hholds', hmap.deleteElement key⟩
    simp [Towers.call, KeyMap.call, hdelete]
  | searchElement key =>
    refine ⟨s, ?_, l, hholds, hmap⟩
    simp [Towers.call, KeyMap.call, hholds.searchElement, hmap.lookup]
  | size =>
    refine ⟨s, ?_, l, hholds, hmap⟩
    simp [Towers.call, KeyMap.call, hholds.size, hmap.card_keys]
  | dumpFile =>
    refine ⟨s, ?_, l, hholds, hmap⟩
    simp [Towers.call, KeyMap.call, hholds.dumpFile, hmap.dump_eq]

theorem Refines.answers {s : Towers K V} {m : KeyMap K V} (h : s.Refines m)
    (calls : List (SkipListCall K V)) : s.answers calls = some (m.answers calls) := by
  induction calls generalizing s m with
  | nil => rfl
  | cons c calls ih =>
    obtain ⟨s', hcall, hrefines⟩ := h.call c
    unfold Towers.answers KeyMap.answers
    simp [hcall, ih hrefines]

/-- A skip list answers as a finite map, whatever the heights of its nodes are. -/
theorem answers_eq (maxLevel : ℕ) (calls : List (SkipListCall K V)) :
    (create maxLevel : Towers K V).answers calls = some (KeyMap.answers ∅ calls) :=
  (refines_create maxLevel).answers calls

end Towers

end Calls

end Rsylar
