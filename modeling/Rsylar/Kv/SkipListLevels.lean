import Rsylar.Kv.SkipListMap

/-!
# The levels of the skip list

`Towers.Levels s level` describes the memory alone: on each level the pointers lead from the header
through the nodes of `level i`, in the order of their keys; the nodes of the next level are those
that are high enough; the levels above that of the list are empty in the header; and the elements
are counted. Towers that represent a list have such levels (`Represents.levels`), so they are there
after every run of calls, whatever the heights of the nodes are (`skipListLevels`).
-/

set_option autoImplicit false
set_option relaxedAutoImplicit false

namespace Rsylar

namespace Towers

open LinkedList

variable {K V : Type}

/-! ### Levels -/

def getKey (s : Towers K V) (p : ℕ) : Option K :=
  (s.getEntry p).map Prod.fst

/-- The node has a pointer for the level. -/
def reaches (s : Towers K V) (i p : ℕ) : Bool :=
  (s.heap p).any fun node ↦ i ≤ node.nodeLevel

structure Levels [LinearOrder K] (s : Towers K V) (level : ℕ → List ℕ) : Prop where
  linked : ∀ i ≤ s.maxLevel, Linked (fun p ↦ s.forward p i) header (level i)
  increasing : ∀ i ≤ s.maxLevel, ∃ keys : List K,
    (level i).map s.getKey = keys.map some ∧ keys.Pairwise (· < ·)
  next : ∀ i < s.maxLevel, level (i + 1) = (level i).filter (s.reaches (i + 1))
  empty : ∀ i ≤ s.maxLevel, s.skipListLevel < i → s.forward header i = some none
  skipListLevel_le : s.skipListLevel ≤ s.maxLevel
  count : s.elementCount = (level 0).length

/-- The levels that a new node gets are those from 1 to the highest one. -/
theorem exists_getRandomLevel_iff {maxLevel : ℕ} (h : 1 ≤ maxLevel) (level : ℕ) :
    (∃ ones, getRandomLevel maxLevel ones = level) ↔ 1 ≤ level ∧ level ≤ maxLevel := by
  constructor
  · rintro ⟨ones, rfl⟩
    refine ⟨?_, getRandomLevel_le maxLevel ones⟩
    unfold getRandomLevel
    split <;> omega
  · rintro ⟨hpos, hle⟩
    refine ⟨level - 1, ?_⟩
    unfold getRandomLevel
    split <;> omega

section Represented

variable [LinearOrder K] {s : Towers K V} {ts : List (Tower K V)}

namespace Represents

theorem reaches_iff (h : s.Represents ts) {t : Tower K V} (ht : t ∈ ts) (i : ℕ) :
    s.reaches i t.addr = decide (i ≤ t.level) := by
  obtain ⟨node, hnode, -, hlevel⟩ := h.nodes t ht
  rw [reaches, hnode, Option.any_some, hlevel]

theorem getKey (h : s.Represents ts) {t : Tower K V} (ht : t ∈ ts) :
    s.getKey t.addr = some t.key := by
  rw [Towers.getKey, h.getEntry ht]
  rfl

theorem levels (h : s.Represents ts) : s.Levels fun i ↦ Tower.onLevel i ts where
  linked := h.linked
  increasing := by
    intro i hi
    refine ⟨(ts.filter fun t ↦ i ≤ t.level).map Tower.key, ?_, ?_⟩
    · rw [Tower.onLevel, List.map_map, List.map_map]
      exact List.map_congr_left fun t ht ↦ h.getKey (List.mem_of_mem_filter ht)
    · exact List.pairwise_map.mpr (h.sorted.sublist List.filter_sublist)
  next := by
    intro i hi
    rw [Tower.onLevel, Tower.onLevel, List.filter_map, List.filter_filter]
    refine congrArg (List.map Tower.addr) (List.filter_congr fun t ht ↦ ?_)
    rw [Function.comp_apply, h.reaches_iff ht, ← Bool.decide_and]
    exact decide_eq_decide.mpr (by omega)
  empty := by
    intro i hi hlt
    have hnone : Tower.onLevel i ts = [] := by
      rw [Tower.onLevel, List.map_eq_nil_iff, List.filter_eq_nil_iff]
      intro t ht
      have hle := h.level_le t ht
      rw [decide_eq_true_iff]
      omega
    have hlinked := h.linked i hi
    rwa [hnone] at hlinked
  skipListLevel_le := h.skipListLevel_le
  count := by
    rw [Tower.onLevel_zero, List.length_map]
    exact h.count

end Represents

end Represented

/-! ### The highest level -/

section Pointers

variable {s s' : Towers K V}

theorem setForward_maxLevel {p i : ℕ} {q : Option ℕ}
    (h : s.setForward p i q = some s') : s'.maxLevel = s.maxLevel := by
  obtain ⟨node, -, hset⟩ := Option.bind_eq_some_iff.mp h
  split at hset
  · cases hset
    rfl
  · cases hset

theorem linkLevels_maxLevel {update : ℕ → Option ℕ} {insertedNode m : ℕ}
    (h : linkLevels update insertedNode m s = some s') : s'.maxLevel = s.maxLevel := by
  induction m generalizing s' with
  | zero =>
    cases h
    rfl
  | succ m ih =>
    obtain ⟨s₁, hlink, h⟩ := Option.bind_eq_some_iff.mp h
    obtain ⟨p, -, h⟩ := Option.bind_eq_some_iff.mp h
    obtain ⟨q, -, h⟩ := Option.bind_eq_some_iff.mp h
    obtain ⟨s₂, hnode, hlast⟩ := Option.bind_eq_some_iff.mp h
    rw [setForward_maxLevel hlast, setForward_maxLevel hnode, ih hlink]

theorem unlinkLevels_maxLevel {update : ℕ → Option ℕ} {target levels i : ℕ}
    (h : unlinkLevels update target levels i s = some s') : s'.maxLevel = s.maxLevel := by
  induction levels generalizing s i with
  | zero =>
    cases h
    rfl
  | succ levels ih =>
    obtain ⟨p, -, h⟩ := Option.bind_eq_some_iff.mp h
    obtain ⟨q, -, h⟩ := Option.bind_eq_some_iff.mp h
    split at h
    · cases h
      rfl
    · obtain ⟨q', -, h⟩ := Option.bind_eq_some_iff.mp h
      obtain ⟨s₁, hset, h⟩ := Option.bind_eq_some_iff.mp h
      rw [ih h, setForward_maxLevel hset]

end Pointers

section Calls

variable [LinearOrder K] {s : Towers K V}

theorem insertElement_maxLevel {s' : Towers K V} {key : K} {value : V} {ones code : ℕ}
    (h : s.insertElement key value ones = some (code, s')) : s'.maxLevel = s.maxLevel := by
  obtain ⟨⟨current, update⟩, -, h⟩ := Option.bind_eq_some_iff.mp h
  obtain ⟨first, -, h⟩ := Option.bind_eq_some_iff.mp h
  obtain ⟨found, -, h⟩ := Option.bind_eq_some_iff.mp h
  cases found with
  | some node =>
    cases h
    rfl
  | none =>
    obtain ⟨s₁, hlink, h⟩ := Option.bind_eq_some_iff.mp h
    cases h
    refine (linkLevels_maxLevel hlink).trans ?_
    show (if _ then _ else s : Towers K V).maxLevel = s.maxLevel
    split <;> rfl

theorem deleteElement_maxLevel {s' : Towers K V} {key : K}
    (h : s.deleteElement key = some s') : s'.maxLevel = s.maxLevel := by
  obtain ⟨⟨current, update⟩, -, h⟩ := Option.bind_eq_some_iff.mp h
  obtain ⟨first, -, h⟩ := Option.bind_eq_some_iff.mp h
  obtain ⟨found, -, h⟩ := Option.bind_eq_some_iff.mp h
  cases found with
  | none =>
    cases h
    rfl
  | some node =>
    obtain ⟨s₁, hunlink, h⟩ := Option.bind_eq_some_iff.mp h
    obtain ⟨level, -, h⟩ := Option.bind_eq_some_iff.mp h
    cases h
    show s₁.maxLevel = s.maxLevel
    exact unlinkLevels_maxLevel hunlink

theorem insertSetElement_maxLevel {s' : Towers K V} {key : K} {value : V} {ones : ℕ}
    (h : s.insertSetElement key value ones = some s') : s'.maxLevel = s.maxLevel := by
  obtain ⟨found, -, h⟩ := Option.bind_eq_some_iff.mp h
  cases found with
  | some node =>
    obtain ⟨s₁, hdelete, h⟩ := Option.bind_eq_some_iff.mp h
    obtain ⟨⟨code, s₂⟩, hinsert, h⟩ := Option.bind_eq_some_iff.mp h
    cases h
    rw [insertElement_maxLevel hinsert, deleteElement_maxLevel hdelete]
  | none =>
    obtain ⟨⟨code, s₁⟩, hinsert, h⟩ := Option.bind_eq_some_iff.mp h
    cases h
    exact insertElement_maxLevel hinsert

theorem call_maxLevel {s' : Towers K V} {c : SkipListCall K V} {answer : SkipListAnswer K V}
    (h : s.call c = some (answer, s')) : s'.maxLevel = s.maxLevel := by
  cases c with
  | insertElement key value ones =>
    obtain ⟨⟨code, s₁⟩, hinsert, h⟩ := Option.map_eq_some_iff.mp h
    cases h
    exact insertElement_maxLevel hinsert
  | insertSetElement key value ones =>
    obtain ⟨s₁, hinsert, h⟩ := Option.map_eq_some_iff.mp h
    cases h
    exact insertSetElement_maxLevel hinsert
  | deleteElement key =>
    obtain ⟨s₁, hdelete, h⟩ := Option.map_eq_some_iff.mp h
    cases h
    exact deleteElement_maxLevel hdelete
  | searchElement key =>
    obtain ⟨value, -, h⟩ := Option.map_eq_some_iff.mp h
    cases h
    rfl
  | size =>
    cases h
    rfl
  | dumpFile =>
    obtain ⟨dump, -, h⟩ := Option.map_eq_some_iff.mp h
    cases h
    rfl

/-! ### Runs -/

/-- The skip list after the calls. -/
def run (s : Towers K V) : List (SkipListCall K V) → Option (Towers K V)
  | [] => some s
  | c :: calls => do
    let (_, s) ← s.call c
    s.run calls

/-- A run is defined and ends with towers that represent a list. -/
theorem Refines.run {m : KeyMap K V} (h : s.Refines m) (calls : List (SkipListCall K V)) :
    ∃ s' m', s.run calls = some s' ∧ s'.maxLevel = s.maxLevel ∧ s'.Refines m' := by
  induction calls generalizing s m with
  | nil => exact ⟨s, m, rfl, rfl, h⟩
  | cons c calls ih =>
    obtain ⟨s₁, hcall, hrefines⟩ := h.call c
    obtain ⟨s', m', hrun, hmax, hrefines'⟩ := ih hrefines
    refine ⟨s', m', ?_, hmax.trans (call_maxLevel hcall), hrefines'⟩
    rw [Towers.run, hcall, Option.bind_eq_bind, Option.bind_some]
    exact hrun

end Calls

end Towers

/-- The levels after every sequence of calls, whatever the heights of the nodes are. -/
theorem skipListLevels {K V : Type} [LinearOrder K] (maxLevel : ℕ)
    (calls : List (SkipListCall K V)) :
    ∃ s level, (Towers.create maxLevel : Towers K V).run calls = some s ∧
      s.maxLevel = maxLevel ∧ s.Levels level := by
  obtain ⟨s, m, hrun, hmax, l, ⟨ts, hrepresents, -⟩, -⟩ :=
    (Towers.refines_create maxLevel).run calls
  exact ⟨s, _, hrun, hmax, hrepresents.levels⟩

end Rsylar
