import Mathlib.Data.List.Induction
import Rsylar.Foundations.OrderedSet
import Rsylar.Kv.SkipListTowers

/-!
# The towers hold a sorted list

`Towers.Represents s ts`: the towers of the list, in the order of their keys, are the nodes of the
memory, and the pointers of each level lead through those of them that are at least as high. The
search for a key stops, on each level, at the last such tower below the key
(`Represents.findPredecessors`), whatever the heights are. From there the operations of the memory
are those of the list of nodes (`SkipList`), and they keep the representation.
-/

set_option autoImplicit false
set_option relaxedAutoImplicit false

namespace Rsylar

open LinkedList

/-- A node of the list: its address, its entry and its height. -/
structure Tower (K V : Type) where
  addr : ℕ
  key : K
  value : V
  level : ℕ

namespace Tower

variable {K V : Type}

def entry (t : Tower K V) : K × V := (t.key, t.value)

/-- The addresses of the towers that reach the level. -/
def onLevel (i : ℕ) (ts : List (Tower K V)) : List ℕ :=
  (ts.filter fun t ↦ i ≤ t.level).map addr

theorem onLevel_append (i : ℕ) (ts ts' : List (Tower K V)) :
    onLevel i (ts ++ ts') = onLevel i ts ++ onLevel i ts' := by
  simp [onLevel]

theorem onLevel_zero (ts : List (Tower K V)) : onLevel 0 ts = ts.map addr := by
  simp [onLevel]

theorem mem_onLevel {i p : ℕ} {ts : List (Tower K V)} :
    p ∈ onLevel i ts ↔ ∃ t ∈ ts, i ≤ t.level ∧ t.addr = p := by
  simp [onLevel, and_assoc]

theorem onLevel_cons_of_le {i : ℕ} {t : Tower K V} (h : i ≤ t.level) (ts : List (Tower K V)) :
    onLevel i (t :: ts) = t.addr :: onLevel i ts := by
  simp [onLevel, h]

theorem onLevel_cons_of_lt {i : ℕ} {t : Tower K V} (h : t.level < i) (ts : List (Tower K V)) :
    onLevel i (t :: ts) = onLevel i ts := by
  simp [onLevel, Nat.not_le.mpr h]

theorem length_onLevel_le (i : ℕ) (ts : List (Tower K V)) : (onLevel i ts).length ≤ ts.length := by
  rw [onLevel, List.length_map]
  exact List.length_filter_le _ _

/-- The towers of a level are those of the next one, and some after the last of these. -/
theorem onLevel_succ_getLastD (i d : ℕ) (ts : List (Tower K V)) :
    ∃ l l', onLevel i ts = l ++ l' ∧ (onLevel (i + 1) ts).getLastD d = l.getLastD d := by
  induction ts using List.reverseRecOn with
  | nil => exact ⟨[], [], rfl, rfl⟩
  | append_singleton ts t ih =>
    rw [onLevel_append, onLevel_append]
    rcases Nat.lt_or_ge i t.level with hhigh | hlow
    · rw [onLevel_cons_of_le hhigh.le, onLevel_cons_of_le hhigh]
      exact ⟨onLevel i ts ++ [t.addr], [], by simp [onLevel], by simp [onLevel]⟩
    · obtain ⟨l, l', heq, hlast⟩ := ih
      rw [onLevel_cons_of_lt (Nat.lt_succ_of_le hlow)]
      exact ⟨l, l' ++ onLevel i [t], by rw [heq, List.append_assoc], by simpa [onLevel] using hlast⟩

end Tower

namespace Towers

variable {K V : Type}

/-! ### Changing pointers -/

/-- The two memories have the same nodes, at most their pointers differ. -/
structure Relinked (s s' : Towers K V) : Prop where
  maxLevel : s'.maxLevel = s.maxLevel
  skipListLevel : s'.skipListLevel = s.skipListLevel
  elementCount : s'.elementCount = s.elementCount
  allocated : s'.allocated = s.allocated
  shape : ∀ p, (s'.heap p).map (fun node ↦ (node.entry, node.nodeLevel)) =
    (s.heap p).map fun node ↦ (node.entry, node.nodeLevel)

theorem Relinked.refl (s : Towers K V) : Relinked s s :=
  ⟨rfl, rfl, rfl, rfl, fun _ ↦ rfl⟩

theorem Relinked.trans {s s' s'' : Towers K V} (h : Relinked s s') (h' : Relinked s' s'') :
    Relinked s s'' :=
  ⟨h'.maxLevel.trans h.maxLevel, h'.skipListLevel.trans h.skipListLevel,
    h'.elementCount.trans h.elementCount, h'.allocated.trans h.allocated,
    fun p ↦ (h'.shape p).trans (h.shape p)⟩

/-- A node keeps its entry and its level. -/
theorem Relinked.node {s s' : Towers K V} (h : Relinked s s') {p : ℕ} {node : TowerNode K V}
    (hnode : s.heap p = some node) :
    ∃ node', s'.heap p = some node' ∧ node'.entry = node.entry ∧
      node'.nodeLevel = node.nodeLevel := by
  have hshape := h.shape p
  rw [hnode] at hshape
  cases hnode' : s'.heap p with
  | none =>
    rw [hnode'] at hshape
    cases hshape
  | some node' =>
    rw [hnode'] at hshape
    have hpair := Option.some.inj hshape
    exact ⟨node', rfl, congrArg Prod.fst hpair, congrArg Prod.snd hpair⟩

theorem forward_eq_some {s : Towers K V} {p i : ℕ} {x : Option ℕ} :
    s.forward p i = some x ↔
      ∃ node, s.heap p = some node ∧ i ≤ node.nodeLevel ∧ node.forward i = x := by
  simp [forward, Option.bind_eq_some_iff]

/-- A pointer that can be read can be written. -/
theorem setForward_spec {s : Towers K V} {p i : ℕ} {x : Option ℕ} (h : s.forward p i = some x)
    (q : Option ℕ) :
    ∃ s', s.setForward p i q = some s' ∧ Relinked s s' ∧
      ∀ p' i', s'.forward p' i' = if p' = p ∧ i' = i then some q else s.forward p' i' := by
  obtain ⟨node, hnode, hi, -⟩ := forward_eq_some.mp h
  let node' := { node with forward := Function.update node.forward i q }
  refine ⟨{ s with heap := Function.update s.heap p (some node') }, ?_,
    ⟨rfl, rfl, rfl, rfl, fun p' ↦ ?_⟩, fun p' i' ↦ ?_⟩
  · simp [setForward, hnode, hi, node']
  · by_cases hp : p' = p
    · subst hp
      simp [hnode, node']
    · simp [Function.update_of_ne hp]
  · by_cases hp : p' = p
    · subst hp
      by_cases hi' : i' = i
      · subst hi'
        simp [forward, hi, node']
      · simp [forward, hnode, hi', node']
    · simp [forward, hp]

/-- A node is put into the levels below `m`, on each after its predecessor. -/
theorem linkLevels_spec {update : ℕ → Option ℕ} {s : Towers K V} {n m : ℕ} {q : ℕ → ℕ}
    (hupdate : ∀ i < m, update i = some (q i)) (hother : ∀ i < m, q i ≠ n)
    (hvalid : ∀ i < m, ∃ x, s.forward (q i) i = some x)
    (hnew : ∀ i < m, ∃ x, s.forward n i = some x) :
    ∃ s', linkLevels update n m s = some s' ∧ Relinked s s' ∧
      ∀ p i, s'.forward p i =
        if i < m ∧ p = n then s.forward (q i) i
        else if i < m ∧ p = q i then some (some n)
        else s.forward p i := by
  induction m with
  | zero => exact ⟨s, rfl, .refl s, fun p i ↦ by simp⟩
  | succ m ih =>
    obtain ⟨s₁, hs₁, hrelinked₁, hforward₁⟩ := ih (fun i hi ↦ hupdate i (by omega))
      (fun i hi ↦ hother i (by omega)) (fun i hi ↦ hvalid i (by omega))
      fun i hi ↦ hnew i (by omega)
    obtain ⟨x, hx⟩ := hvalid m (by omega)
    obtain ⟨y, hy⟩ := hnew m (by omega)
    have hne := hother m (by omega)
    have hx₁ : s₁.forward (q m) m = some x := by simp [hforward₁, hx]
    have hy₁ : s₁.forward n m = some y := by simp [hforward₁, hy]
    obtain ⟨s₂, hs₂, hrelinked₂, hforward₂⟩ := setForward_spec hy₁ x
    have hx₂ : s₂.forward (q m) m = some x := by simp [hforward₂, hx₁, hne]
    obtain ⟨s₃, hs₃, hrelinked₃, hforward₃⟩ := setForward_spec hx₂ (some n)
    refine ⟨s₃, ?_, (hrelinked₁.trans hrelinked₂).trans hrelinked₃, fun p i ↦ ?_⟩
    · simp [linkLevels, hs₁, hupdate m (Nat.lt_succ_self m), hx₁, hs₂, hs₃]
    · rw [hforward₃, hforward₂, hforward₁]
      rcases Nat.lt_trichotomy i m with hlt | rfl | hgt
      · simp [hlt.ne, hlt, Nat.lt_succ_of_lt hlt]
      · by_cases hp : p = q i
        · subst hp
          simp [hne]
        · by_cases hpn : p = n
          · subst hpn
            simp [hne.symm, hx]
          · simp [hp, hpn]
      · simp [hgt.ne', Nat.not_lt.mpr hgt.le, Nat.not_le.mpr hgt, Nat.lt_succ_iff]

/-- The memory in which a node has been created. -/
theorem forward_createNode (s : Towers K V) (key : K) (value : V) (level p i : ℕ) :
    (s.createNode key value level).2.forward p i =
      if p = s.allocated then if i ≤ level then some none else none else s.forward p i := by
  by_cases hp : p = s.allocated
  · simp [forward, createNode, hp]
  · simp [forward, createNode, hp]

theorem getRandomLevel_le (maxLevel ones : ℕ) : getRandomLevel maxLevel ones ≤ maxLevel := by
  unfold getRandomLevel
  split <;> omega

/-- A node is taken out of the `m` levels from `i` on that lead to it. -/
theorem unlinkLevels_spec {update : ℕ → Option ℕ} {s : Towers K V} {n i m levels : ℕ} {q : ℕ → ℕ}
    (hm : m ≤ levels) (hupdate : ∀ j < i + levels, i ≤ j → update j = some (q j))
    (hother : ∀ j, q j ≠ n)
    (hleads : ∀ j < i + m, i ≤ j → s.forward (q j) j = some (some n))
    (hvalid : ∀ j < i + m, i ≤ j → ∃ x, s.forward n j = some x)
    (hstop : m < levels → ∃ y, s.forward (q (i + m)) (i + m) = some y ∧ y ≠ some n) :
    ∃ s', unlinkLevels update n levels i s = some s' ∧ Relinked s s' ∧
      ∀ p j, s'.forward p j =
        if i ≤ j ∧ j < i + m ∧ p = q j then s.forward n j else s.forward p j := by
  induction m generalizing i levels s with
  | zero =>
    refine ⟨s, ?_, .refl s, fun p j ↦ (if_neg (by omega)).symm⟩
    cases levels with
    | zero => rfl
    | succ levels =>
      obtain ⟨y, hy, hne⟩ := hstop (Nat.succ_pos _)
      rw [Nat.add_zero] at hy
      simp [unlinkLevels, hupdate i (by omega) (le_refl i), hy, hne]
  | succ m ih =>
    obtain ⟨levels, rfl⟩ : ∃ l, levels = l + 1 := ⟨levels - 1, by omega⟩
    have hfirst := hleads i (by omega) (le_refl i)
    obtain ⟨x, hx⟩ := hvalid i (by omega) (le_refl i)
    obtain ⟨s₁, hs₁, hrelinked₁, hforward₁⟩ := setForward_spec hfirst x
    -- The levels above `i` are as they were.
    have habove : ∀ p j, i < j → s₁.forward p j = s.forward p j := by
      intro p j hj
      rw [hforward₁, if_neg fun hlevel ↦ hj.ne' hlevel.2]
    obtain ⟨s', hs', hrelinked', hforward'⟩ := @ih s₁ (i + 1) levels (by omega)
      (fun j hj hi ↦ hupdate j (by omega) (by omega))
      (fun j hj hi ↦ (habove _ _ (by omega)).trans (hleads j (by omega) (by omega)))
      (fun j hj hi ↦ by
        rw [habove _ _ (by omega)]
        exact hvalid j (by omega) (by omega))
      fun hlt ↦ by
        rw [habove _ _ (by omega), Nat.add_right_comm]
        exact hstop (by omega)
    refine ⟨s', ?_, hrelinked₁.trans hrelinked', fun p j ↦ ?_⟩
    · simp [unlinkLevels, hupdate i (by omega) (le_refl i), hfirst, hx, hs₁, hs']
    · have hnew : s₁.forward n j = s.forward n j := by
        rw [hforward₁, if_neg fun hnode ↦ hother i hnode.1.symm]
      rw [hforward', hnew, hforward₁]
      rcases Nat.lt_trichotomy j i with hlt | rfl | hgt
      · rw [if_neg (by omega), if_neg (by omega), if_neg (by omega)]
      · rw [if_neg (by omega)]
        by_cases hp : p = q j
        · rw [if_pos ⟨hp, rfl⟩, if_pos ⟨le_refl j, by omega, hp⟩, hx]
        · rw [if_neg fun hlevel ↦ hp hlevel.1, if_neg fun hlevel ↦ hp hlevel.2.2]
      · have hne : ¬ (p = q i ∧ j = i) := fun hlevel ↦ hgt.ne' hlevel.2
        rw [if_neg hne]
        exact if_congr (by omega) rfl rfl

/-- The levels above the result are empty. -/
theorem lowerLevel_spec {s : Towers K V} {level : ℕ}
    (hvalid : ∀ i ≤ level, ∃ x, s.forward header i = some x) :
    ∃ level', s.lowerLevel level = some level' ∧ level' ≤ level ∧
      ∀ i ≤ level, level' < i → s.forward header i = some none := by
  induction level with
  | zero => exact ⟨0, rfl, le_refl 0, fun i hi hlt ↦ by omega⟩
  | succ level ih =>
    obtain ⟨x, hx⟩ := hvalid (level + 1) (le_refl _)
    obtain ⟨level', hlower, hle, hempty⟩ := ih fun i hi ↦ hvalid i (by omega)
    by_cases hnone : x = none
    · subst hnone
      refine ⟨level', by simp [lowerLevel, hx, hlower], by omega, fun i hi hlt ↦ ?_⟩
      rcases Nat.lt_or_ge level i with hlast | hbelow
      · obtain rfl : i = level + 1 := by omega
        exact hx
      · exact hempty i hbelow hlt
    · exact ⟨level + 1, by simp [lowerLevel, hx, hnone], le_refl _, fun i hi hlt ↦ by omega⟩

/-! ### The representation -/

structure Represents [LinearOrder K] (s : Towers K V) (ts : List (Tower K V)) : Prop where
  header : ∃ node, s.heap header = some node ∧ node.nodeLevel = s.maxLevel
  nodes : ∀ t ∈ ts, ∃ node, s.heap t.addr = some node ∧ node.entry = some t.entry ∧
    node.nodeLevel = t.level
  linked : ∀ i ≤ s.maxLevel, Linked (fun p ↦ s.forward p i) Towers.header (Tower.onLevel i ts)
  sorted : OrderedSet.Sorted Tower.key ts
  addr_pos : ∀ t ∈ ts, Towers.header < t.addr
  addr_lt : ∀ t ∈ ts, t.addr < s.allocated
  allocated_pos : Towers.header < s.allocated
  level_le : ∀ t ∈ ts, t.level ≤ s.skipListLevel
  skipListLevel_le : s.skipListLevel ≤ s.maxLevel
  count : s.elementCount = ts.length

variable [LinearOrder K] {s : Towers K V} {ts : List (Tower K V)}

theorem represents_create (maxLevel : ℕ) :
    Represents (create maxLevel : Towers K V) [] where
  header := ⟨{ entry := none, nodeLevel := maxLevel, forward := fun _ ↦ none },
    by simp [create], rfl⟩
  nodes := by simp
  linked := by
    intro i hi
    have hi' : i ≤ maxLevel := hi
    show (create maxLevel : Towers K V).forward Towers.header i = some none
    simp [forward, create, hi']
  sorted := List.Pairwise.nil
  addr_pos := by simp
  addr_lt := by simp
  allocated_pos := Nat.one_pos
  level_le := by simp
  skipListLevel_le := Nat.zero_le _
  count := rfl

namespace Represents

theorem getEntry (h : s.Represents ts) {t : Tower K V} (ht : t ∈ ts) :
    s.getEntry t.addr = some t.entry := by
  obtain ⟨node, hnode, hentry, -⟩ := h.nodes t ht
  simp [Towers.getEntry, hnode, hentry]

/-- Two towers are not at one address. -/
theorem addr_nodup (h : s.Represents ts) : (ts.map Tower.addr).Nodup := by
  refine List.Nodup.map_on ?_ h.sorted.nodup
  intro t ht t' ht' haddr
  have hentry := h.getEntry ht
  rw [haddr, h.getEntry ht'] at hentry
  have hkey : t'.key = t.key := congrArg Prod.fst (Option.some.inj hentry)
  exact h.sorted.eq_of_key ht ht' hkey.symm

theorem onLevel_nodup (h : s.Represents ts) (i : ℕ) :
    (Towers.header :: Tower.onLevel i ts).Nodup := by
  refine List.nodup_cons.mpr ⟨fun hmem ↦ ?_, ?_⟩
  · obtain ⟨t, ht, -, haddr⟩ := Tower.mem_onLevel.mp hmem
    have hpos := h.addr_pos t ht
    omega
  · exact h.addr_nodup.sublist (List.filter_sublist.map _)

/-! ### The search -/

/-- The towers below the key. -/
def low (key : K) (ts : List (Tower K V)) : List (Tower K V) := OrderedSet.below Tower.key key ts

/-- The towers from the key on. -/
def high (key : K) (ts : List (Tower K V)) : List (Tower K V) :=
  OrderedSet.lowerBound Tower.key key ts

/-- The last tower of the level below the key, or the header. -/
def before (key : K) (ts : List (Tower K V)) (i : ℕ) : ℕ :=
  (Tower.onLevel i (low key ts)).getLastD Towers.header

theorem low_append_high (key : K) (ts : List (Tower K V)) : low key ts ++ high key ts = ts :=
  OrderedSet.below_append_lowerBound key ts

theorem onLevel_split (key : K) (ts : List (Tower K V)) (i : ℕ) :
    Tower.onLevel i ts = Tower.onLevel i (low key ts) ++ Tower.onLevel i (high key ts) := by
  rw [← Tower.onLevel_append, low_append_high]

theorem keyBelow_low (h : s.Represents ts) {key : K} {i p : ℕ}
    (hp : p ∈ Tower.onLevel i (low key ts)) : s.keyBelow key p = some true := by
  obtain ⟨t, ht, -, rfl⟩ := Tower.mem_onLevel.mp hp
  have hlt := OrderedSet.lt_of_mem_below ht
  have hmem : t ∈ ts := low_append_high key ts ▸ List.mem_append_left _ ht
  simpa [keyBelow, h.getEntry hmem, Tower.entry] using hlt

theorem keyBelow_high (h : s.Represents ts) {key : K} {i p : ℕ}
    (hp : p ∈ Tower.onLevel i (high key ts)) : s.keyBelow key p = some false := by
  obtain ⟨t, ht, -, rfl⟩ := Tower.mem_onLevel.mp hp
  have hle := OrderedSet.le_of_mem_lowerBound h.sorted ht
  have hmem : t ∈ ts := low_append_high key ts ▸ List.mem_append_right _ ht
  simpa [keyBelow, h.getEntry hmem, Tower.entry] using hle

/-- A level is walked from any of its towers below the key to the last of them. -/
theorem walkLevel (h : s.Represents ts) {key : K} {i : ℕ} (hi : i ≤ s.maxLevel) {l l' : List ℕ}
    (hsplit : Tower.onLevel i (low key ts) = l ++ l') :
    s.walkLevel key i (l.getLastD Towers.header) = some (before key ts i) := by
  have hlinked := h.linked i hi
  rw [onLevel_split key ts, hsplit, List.append_assoc] at hlinked
  have hbefore : before key ts i = l'.getLastD (l.getLastD Towers.header) := by
    rw [before, hsplit, getLastD_append]
  rw [hbefore]
  refine hlinked.drop.walk (fun q hq ↦ ?_) (fun q hq ↦ ?_) ?_
  · exact h.keyBelow_low (hsplit ▸ List.mem_append_right _ hq)
  · exact h.keyBelow_high (List.mem_of_mem_head? hq)
  · have hlen := Tower.length_onLevel_le i (low key ts)
    have hlow : (low key ts).length ≤ ts.length := by
      have hall := congrArg List.length (low_append_high key ts)
      rw [List.length_append] at hall
      omega
    rw [hsplit, List.length_append] at hlen
    rw [h.count]
    omega

/-- The walk of a level begins where that of the level above has ended. -/
theorem walkLevel_succ (h : s.Represents ts) {key : K} {i : ℕ} (hi : i ≤ s.maxLevel) :
    s.walkLevel key i (before key ts (i + 1)) = some (before key ts i) := by
  obtain ⟨l, l', hsplit, hlast⟩ :=
    Tower.onLevel_succ_getLastD i Towers.header (low key ts)
  rw [before, hlast]
  exact h.walkLevel hi hsplit

theorem descend (h : s.Represents ts) {key : K} {i : ℕ} (hi : i ≤ s.maxLevel)
    (update : ℕ → Option ℕ) :
    ∃ update', s.descend key i (before key ts (i + 1)) update =
        some (before key ts 0, update') ∧
      ∀ j, update' j = if j ≤ i then some (before key ts j) else update j := by
  induction i generalizing update with
  | zero =>
    refine ⟨Function.update update 0 (some (before key ts 0)), ?_, fun j ↦ ?_⟩
    · simp [Towers.descend, h.walkLevel_succ hi]
    · cases j with
      | zero => simp
      | succ j => simp
  | succ i ih =>
    obtain ⟨update', hdescend, hupdate⟩ :=
      ih (by omega) (Function.update update (i + 1) (some (before key ts (i + 1))))
    refine ⟨update', ?_, fun j ↦ ?_⟩
    · simp [Towers.descend, h.walkLevel_succ hi, hdescend]
    · rw [hupdate]
      rcases Nat.lt_trichotomy j (i + 1) with hlt | rfl | hgt
      · rw [if_pos (by omega), if_pos (by omega)]
      · rw [if_neg (by omega), if_pos (le_refl _), Function.update_self]
      · rw [if_neg (by omega), if_neg (by omega), Function.update_of_ne (by omega)]

/-- No tower is above the level of the list. -/
theorem before_of_lt (h : s.Represents ts) (key : K) {i : ℕ} (hi : s.skipListLevel < i) :
    before key ts i = Towers.header := by
  have hnone : Tower.onLevel i (low key ts) = [] := by
    rw [Tower.onLevel, List.map_eq_nil_iff, List.filter_eq_nil_iff]
    intro t ht
    have hmem : t ∈ ts := low_append_high key ts ▸ List.mem_append_left _ ht
    have hle := h.level_le t hmem
    simp
    omega
  rw [before, hnone]
  rfl

/-- The search ends at the last tower below the key, and has found the one of every level that is in
use. -/
theorem findPredecessors (h : s.Represents ts) (key : K) :
    ∃ update, s.findPredecessors key = some (before key ts 0, update) ∧
      ∀ i, update i = if i ≤ s.skipListLevel then some (before key ts i) else none := by
  have hstart := h.before_of_lt key (Nat.lt_succ_self s.skipListLevel)
  have hdescend := @descend _ _ _ _ _ h key _ h.skipListLevel_le fun _ ↦ none
  rwa [hstart] at hdescend

/-- The node before the key points to the first one from the key on. -/
theorem forward_before (h : s.Represents ts) (key : K) {i : ℕ} (hi : i ≤ s.maxLevel) :
    s.forward (before key ts i) i = some (Tower.onLevel i (high key ts)).head? := by
  have hlinked := h.linked i hi
  rw [onLevel_split key ts] at hlinked
  exact hlinked.next_eq

theorem forward_before_zero (h : s.Represents ts) (key : K) :
    s.forward (before key ts 0) 0 = some ((high key ts).head?.map Tower.addr) := by
  rw [h.forward_before key (Nat.zero_le _), Tower.onLevel_zero, List.head?_map]

/-- The tower of the key, if there is one. -/
def found (key : K) (ts : List (Tower K V)) : Option (Tower K V) :=
  (high key ts).head?.filter fun t ↦ t.key = key

theorem entryWithKey (h : s.Represents ts) (key : K) :
    s.entryWithKey key ((high key ts).head?.map Tower.addr) =
      some ((found key ts).map fun t ↦ (t.addr, t.value)) := by
  unfold found
  cases hfirst : (high key ts).head? with
  | none => rfl
  | some t =>
    have hmem : t ∈ ts :=
      low_append_high key ts ▸ List.mem_append_right _ (List.mem_of_mem_head? hfirst)
    by_cases hkey : t.key = key
    · simp [Towers.entryWithKey, h.getEntry hmem, Tower.entry, Option.filter, hkey]
    · simp [Towers.entryWithKey, h.getEntry hmem, Tower.entry, Option.filter, hkey]

theorem searchElement (h : s.Represents ts) (key : K) :
    s.searchElement key = some ((found key ts).map Tower.value) := by
  obtain ⟨update, hfind, -⟩ := h.findPredecessors key
  simp [Towers.searchElement, hfind, h.forward_before_zero key, h.entryWithKey key,
    Function.comp_def]

end Represents

/-! ### Inserting -/

namespace Represents

theorem lt_allocated (h : s.Represents ts) {i p : ℕ}
    (hp : p ∈ Towers.header :: Tower.onLevel i ts) : p < s.allocated := by
  rcases List.mem_cons.mp hp with rfl | hp
  · exact h.allocated_pos
  · obtain ⟨t, ht, -, rfl⟩ := Tower.mem_onLevel.mp hp
    exact h.addr_lt t ht

theorem before_mem (key : K) (ts : List (Tower K V)) (i : ℕ) :
    before key ts i ∈ Towers.header :: Tower.onLevel i ts := by
  rw [onLevel_split key ts, ← List.cons_append]
  exact List.mem_append_left _ List.getLastD_mem_cons

/-- The tower that comes between those below its key and the others. -/
def inserted (t : Tower K V) (ts : List (Tower K V)) : List (Tower K V) :=
  low t.key ts ++ t :: high t.key ts

theorem mem_inserted {t t' : Tower K V} :
    t' ∈ inserted t ts ↔ t' = t ∨ t' ∈ ts := by
  conv_rhs => rw [← low_append_high t.key ts]
  rw [inserted, List.mem_append, List.mem_append, List.mem_cons]
  exact or_left_comm

theorem length_inserted (t : Tower K V) (ts : List (Tower K V)) :
    (inserted t ts).length = ts.length + 1 := by
  conv_rhs => rw [← low_append_high t.key ts]
  rw [inserted, List.length_append, List.length_append, List.length_cons]
  rfl

/-- A tower below the key is passed, and the first one that is not ends the search. -/
theorem low_cons_of_lt {key : K} {t : Tower K V} (h : t.key < key) (ts : List (Tower K V)) :
    low key (t :: ts) = t :: low key ts := by
  simp [low, OrderedSet.below, h]

theorem high_cons_of_lt {key : K} {t : Tower K V} (h : t.key < key) (ts : List (Tower K V)) :
    high key (t :: ts) = high key ts := by
  simp [high, OrderedSet.lowerBound, h]

theorem low_cons_of_not_lt {key : K} {t : Tower K V} (h : ¬ t.key < key) (ts : List (Tower K V)) :
    low key (t :: ts) = [] := by
  simp [low, OrderedSet.below, h]

theorem high_cons_of_not_lt {key : K} {t : Tower K V} (h : ¬ t.key < key)
    (ts : List (Tower K V)) : high key (t :: ts) = t :: ts := by
  simp [high, OrderedSet.lowerBound, h]

theorem found_cons_of_lt {key : K} {t : Tower K V} (h : t.key < key) (ts : List (Tower K V)) :
    found key (t :: ts) = found key ts := by
  rw [found, high_cons_of_lt h, found]

theorem found_cons_of_not_lt {key : K} {t : Tower K V} (h : ¬ t.key < key)
    (ts : List (Tower K V)) : found key (t :: ts) = if t.key = key then some t else none := by
  rw [found, high_cons_of_not_lt h]
  simp [Option.filter]

/-- The nodes of the list are found, inserted and deleted where the towers are. -/
theorem searchElement_entries (key : K) (ts : List (Tower K V)) :
    SkipList.searchElement key (ts.map Tower.entry) = (found key ts).map Tower.value := by
  induction ts with
  | nil => rfl
  | cons t ts ih =>
    rw [List.map_cons, SkipList.searchElement, ih]
    by_cases hlt : t.key < key
    · rw [found_cons_of_lt hlt]
      exact if_pos hlt
    · rw [found_cons_of_not_lt hlt, if_neg (show ¬ t.entry.1 < key from hlt)]
      by_cases hkey : t.key = key
      · simp [hkey, Tower.entry]
      · simp [hkey, Tower.entry]

theorem insertElement_entries {t : Tower K V} (hfound : found t.key ts = none) :
    SkipList.insertElement t.key t.value (ts.map Tower.entry) =
      (inserted t ts).map Tower.entry := by
  induction ts with
  | nil => rfl
  | cons t' ts ih =>
    rw [List.map_cons, SkipList.insertElement]
    by_cases hlt : t'.key < t.key
    · rw [found_cons_of_lt hlt] at hfound
      rw [ih hfound, inserted, inserted, low_cons_of_lt hlt, high_cons_of_lt hlt]
      exact if_pos hlt
    · rw [found_cons_of_not_lt hlt] at hfound
      have hkey : t'.key ≠ t.key := by simpa using hfound
      rw [inserted, low_cons_of_not_lt hlt, high_cons_of_not_lt hlt]
      exact (if_neg hlt).trans (if_neg hkey)

theorem sorted_entries : SkipList.Sorted (ts.map Tower.entry) ↔ OrderedSet.Sorted Tower.key ts :=
  List.pairwise_map

theorem sorted_inserted {t : Tower K V} (h : OrderedSet.Sorted Tower.key ts)
    (hfound : found t.key ts = none) : OrderedSet.Sorted Tower.key (inserted t ts) := by
  rw [← sorted_entries, ← insertElement_entries hfound]
  exact (sorted_entries.mpr h).insertElement

/-- Raising the level of the list. -/
theorem raise (h : s.Represents ts) {level : ℕ} (hlevel : level ≤ s.maxLevel) :
    Represents { s with skipListLevel := max s.skipListLevel level } ts where
  header := h.header
  nodes := h.nodes
  linked := h.linked
  sorted := h.sorted
  addr_pos := h.addr_pos
  addr_lt := h.addr_lt
  allocated_pos := h.allocated_pos
  level_le := fun t ht ↦ (h.level_le t ht).trans (le_max_left _ _)
  skipListLevel_le := max_le h.skipListLevel_le hlevel
  count := h.count

/-- A new node comes into its levels. -/
theorem link (h : s.Represents ts) {t : Tower K V} (haddr : t.addr = s.allocated)
    (hlevel : t.level ≤ s.skipListLevel) (hfound : found t.key ts = none)
    {update : ℕ → Option ℕ}
    (hupdate : ∀ i ≤ t.level, update i = some (before t.key ts i)) :
    ∃ s', linkLevels update s.allocated (t.level + 1)
        (s.createNode t.key t.value t.level).2 = some s' ∧
      Represents { s' with elementCount := s'.elementCount + 1 } (inserted t ts) := by
  have hmax : t.level ≤ s.maxLevel := hlevel.trans h.skipListLevel_le
  have hold : ∀ i, before t.key ts i < s.allocated :=
    fun i ↦ h.lt_allocated (before_mem t.key ts i)
  obtain ⟨s', hlink, hrelinked, hforward⟩ :=
    @linkLevels_spec _ _ update (s.createNode t.key t.value t.level).2 s.allocated (t.level + 1)
      (before t.key ts) (fun i hi ↦ hupdate i (Nat.le_of_lt_succ hi)) (fun i _ ↦ (hold i).ne)
      (fun i hi ↦ ⟨_, by
        rw [forward_createNode, if_neg (hold i).ne,
          h.forward_before t.key ((Nat.le_of_lt_succ hi).trans hmax)]⟩)
      (fun i hi ↦ ⟨none, by
        rw [forward_createNode, if_pos rfl, if_pos (Nat.le_of_lt_succ hi)]⟩)
  -- The pointers of the old nodes change at the predecessors only.
  have hkept : ∀ i p, p < s.allocated → (i ≤ t.level → p ≠ before t.key ts i) →
      s'.forward p i = s.forward p i := by
    intro i p hp hne
    rw [hforward, if_neg fun hnew ↦ hp.ne hnew.2, if_neg, forward_createNode, if_neg hp.ne]
    exact fun hlast ↦ hne (Nat.le_of_lt_succ hlast.1) hlast.2
  have hheap : ∀ p, p < s.allocated →
      (s.createNode t.key t.value t.level).2.heap p = s.heap p := by
    intro p hp
    simp [createNode, hp.ne]
  refine ⟨s', hlink, ?_⟩
  constructor
  case header =>
    obtain ⟨node, hnode, hlevels⟩ := h.header
    rw [← hheap _ h.allocated_pos] at hnode
    obtain ⟨node', hnode', -, hsame⟩ := hrelinked.node hnode
    exact ⟨node', hnode', hsame.trans (hlevels.trans hrelinked.maxLevel.symm)⟩
  case nodes =>
    intro t' ht'
    rcases mem_inserted.mp ht' with rfl | ht'
    · have hnode : (s.createNode t'.key t'.value t'.level).2.heap t'.addr =
          some { entry := some t'.entry, nodeLevel := t'.level, forward := fun _ ↦ none } := by
        simp [createNode, haddr, Tower.entry]
      obtain ⟨node', hnode', hentry, hsame⟩ := hrelinked.node hnode
      exact ⟨node', hnode', hentry, hsame⟩
    · obtain ⟨node, hnode, hentry, hlevels⟩ := h.nodes t' ht'
      rw [← hheap _ (h.addr_lt t' ht')] at hnode
      obtain ⟨node', hnode', hentry', hsame⟩ := hrelinked.node hnode
      exact ⟨node', hnode', hentry'.trans hentry, hsame.trans hlevels⟩
  case linked =>
    intro i hi
    have hi' : i ≤ s.maxLevel := hi.trans_eq hrelinked.maxLevel
    have hlinked := h.linked i hi'
    show Linked (fun p ↦ s'.forward p i) Towers.header (Tower.onLevel i (inserted t ts))
    rw [inserted, Tower.onLevel_append]
    rcases Nat.lt_or_ge t.level i with hlow | hhigh
    · rw [Tower.onLevel_cons_of_lt hlow, ← onLevel_split]
      exact hlinked.congr fun p hp ↦
        hkept i p (h.lt_allocated hp) fun hle ↦ absurd hle (Nat.not_le.mpr hlow)
    · rw [Tower.onLevel_cons_of_le hhigh, haddr]
      have hnodup := h.onLevel_nodup i
      rw [onLevel_split t.key ts] at hlinked hnodup
      refine hlinked.insert hnodup ?_ ?_ fun p hp hne ↦ ?_
      · show s'.forward (before t.key ts i) i = some (some s.allocated)
        rw [hforward, if_neg fun hnew ↦ (hold i).ne hnew.2,
          if_pos ⟨Nat.lt_succ_of_le hhigh, rfl⟩]
      · show s'.forward s.allocated i = s.forward (before t.key ts i) i
        rw [hforward, if_pos ⟨Nat.lt_succ_of_le hhigh, rfl⟩, forward_createNode,
          if_neg (hold i).ne]
      · rw [← onLevel_split] at hp
        exact hkept i p (h.lt_allocated hp) fun _ ↦ hne
  case sorted => exact sorted_inserted h.sorted hfound
  case addr_pos =>
    intro t' ht'
    rcases mem_inserted.mp ht' with rfl | ht'
    · exact h.allocated_pos.trans_eq haddr.symm
    · exact h.addr_pos t' ht'
  case addr_lt =>
    intro t' ht'
    have hlt : t'.addr < s.allocated + 1 := by
      rcases mem_inserted.mp ht' with rfl | ht'
      · omega
      · exact Nat.lt_succ_of_lt (h.addr_lt t' ht')
    exact hlt.trans_eq hrelinked.allocated.symm
  case allocated_pos =>
    exact (Nat.lt_succ_of_lt h.allocated_pos).trans_eq hrelinked.allocated.symm
  case level_le =>
    intro t' ht'
    have hle : t'.level ≤ s.skipListLevel := by
      rcases mem_inserted.mp ht' with rfl | ht'
      · exact hlevel
      · exact h.level_le t' ht'
    exact hle.trans_eq hrelinked.skipListLevel.symm
  case skipListLevel_le =>
    exact hrelinked.skipListLevel.trans_le
      (h.skipListLevel_le.trans_eq hrelinked.maxLevel.symm)
  case count =>
    show s'.elementCount + 1 = (inserted t ts).length
    rw [hrelinked.elementCount, length_inserted, ← h.count]
    rfl

theorem insertElement_new (h : s.Represents ts) {key : K} (hfound : found key ts = none)
    (value : V) (ones : ℕ) :
    ∃ s', s.insertElement key value ones = some (0, s') ∧
      s'.Represents
        (inserted ⟨s.allocated, key, value, getRandomLevel s.maxLevel ones⟩ ts) := by
  obtain ⟨update, hfind, hupdate⟩ := h.findPredecessors key
  have hlevel := getRandomLevel_le s.maxLevel ones
  obtain ⟨s', hlink, hrepresents⟩ :=
    @link _ _ _ _ _ (h.raise hlevel) ⟨s.allocated, key, value, getRandomLevel s.maxLevel ones⟩
      rfl (le_max_right _ _) hfound
      (extendUpdate update s.skipListLevel (getRandomLevel s.maxLevel ones)) fun i hi ↦ by
        show extendUpdate update s.skipListLevel (getRandomLevel s.maxLevel ones) i =
          some (before key ts i)
        unfold extendUpdate
        split
        · rename_i hnew
          rw [h.before_of_lt key hnew.1]
        · rename_i hold
          have hi' : i ≤ getRandomLevel s.maxLevel ones := hi
          rw [hupdate, if_pos (by omega)]
  refine ⟨_, ?_, hrepresents⟩
  have hraise : (if s.skipListLevel < getRandomLevel s.maxLevel ones then
      { s with skipListLevel := getRandomLevel s.maxLevel ones } else s) =
      { s with skipListLevel := max s.skipListLevel (getRandomLevel s.maxLevel ones) } := by
    split
    · rename_i hlt
      rw [max_eq_right hlt.le]
    · rename_i hge
      rw [max_eq_left (Nat.le_of_not_lt hge)]
  have hentry := h.entryWithKey key
  rw [hfound] at hentry
  unfold Towers.insertElement
  simp only [hfind, h.forward_before_zero, hentry, hraise, Option.bind_eq_bind, Option.bind_some,
    Option.map_none]
  exact (congrArg (Option.bind · _) hlink).trans rfl

/-- A key that is there keeps its value. -/
theorem insertElement_found (h : s.Represents ts) {key : K} {t : Tower K V}
    (hfound : found key ts = some t) (value : V) (ones : ℕ) :
    s.insertElement key value ones = some (1, s) := by
  obtain ⟨update, hfind, -⟩ := h.findPredecessors key
  have hentry := h.entryWithKey key
  rw [hfound] at hentry
  unfold Towers.insertElement
  simp only [hfind, h.forward_before_zero, hentry, Option.bind_eq_bind, Option.bind_some,
    Option.map_some]

/-! ### Deleting -/

/-- The tower of the key stands between those below it and the rest. -/
theorem found_eq_some {key : K} {t : Tower K V} (hfound : found key ts = some t) :
    ∃ rest, high key ts = t :: rest ∧ ts = low key ts ++ t :: rest ∧ t.key = key := by
  obtain ⟨hhead, hkey⟩ := Option.filter_eq_some_iff.mp hfound
  obtain ⟨rest, hrest⟩ := List.head?_eq_some_iff.mp hhead
  refine ⟨rest, hrest, ?_, by simpa using hkey⟩
  rw [← hrest, low_append_high]

/-- The towers without the first one from the key on. -/
def erased (key : K) (ts : List (Tower K V)) : List (Tower K V) :=
  OrderedSet.eraseFound Tower.key key ts

theorem erased_eq {key : K} {t : Tower K V} {rest : List (Tower K V)}
    (hhigh : high key ts = t :: rest) : erased key ts = low key ts ++ rest := by
  show low key ts ++ (high key ts).tail = low key ts ++ rest
  rw [hhigh, List.tail_cons]

theorem mem_of_found {key : K} {t : Tower K V} (hfound : found key ts = some t) : t ∈ ts := by
  obtain ⟨rest, -, hts, -⟩ := found_eq_some hfound
  rw [hts]
  exact List.mem_append_right _ List.mem_cons_self

theorem mem_of_mem_erased {key : K} {t : Tower K V} (h : t ∈ erased key ts) : t ∈ ts :=
  (OrderedSet.eraseFound_sublist key ts).subset h

theorem length_erased {key : K} {t : Tower K V} (hfound : found key ts = some t) :
    (erased key ts).length = ts.length - 1 := by
  obtain ⟨rest, hhigh, hts, -⟩ := found_eq_some hfound
  rw [erased_eq hhigh]
  conv_rhs => rw [hts]
  simp

/-- The node is neither the header nor one of the other towers. -/
theorem addr_notMem_erased (h : s.Represents ts) {key : K} {t : Tower K V}
    (hfound : found key ts = some t) (i : ℕ) :
    t.addr ∉ Towers.header :: Tower.onLevel i (erased key ts) := by
  obtain ⟨rest, hhigh, hts, -⟩ := found_eq_some hfound
  intro hin
  rcases List.mem_cons.mp hin with hheader | hin
  · exact (h.addr_pos t (mem_of_found hfound)).ne' hheader
  · obtain ⟨t', ht', -, haddr⟩ := Tower.mem_onLevel.mp hin
    have hnodup := h.addr_nodup
    rw [hts, List.map_append, List.map_cons, List.nodup_middle, List.nodup_cons,
      ← List.map_append] at hnodup
    rw [erased_eq hhigh] at ht'
    exact hnodup.1 (haddr ▸ List.mem_map_of_mem ht')

theorem deleteElement_entries {key : K} {t : Tower K V} (hfound : found key ts = some t) :
    SkipList.deleteElement key (ts.map Tower.entry) = (erased key ts).map Tower.entry := by
  induction ts with
  | nil => cases hfound
  | cons t' ts ih =>
    rw [List.map_cons, SkipList.deleteElement]
    by_cases hlt : t'.key < key
    · rw [found_cons_of_lt hlt] at hfound
      have herased : erased key (t' :: ts) = t' :: erased key ts := by
        simp [erased, OrderedSet.eraseFound, OrderedSet.below, OrderedSet.lowerBound, hlt]
      rw [ih hfound, herased]
      exact if_pos hlt
    · rw [found_cons_of_not_lt hlt] at hfound
      have hkey : t'.key = key := by
        by_contra hne
        rw [if_neg hne] at hfound
        cases hfound
      have herased : erased key (t' :: ts) = ts := by
        simp [erased, OrderedSet.eraseFound, OrderedSet.below, OrderedSet.lowerBound, hlt]
      rw [herased]
      exact (if_neg hlt).trans (if_pos hkey)

/-- A node goes out of its levels. -/
theorem unlink (h : s.Represents ts) {key : K} {t : Tower K V} (hfound : found key ts = some t)
    {update : ℕ → Option ℕ}
    (hupdate : ∀ i, update i = if i ≤ s.skipListLevel then some (before key ts i) else none) :
    ∃ s', unlinkLevels update t.addr (s.skipListLevel + 1) 0 s = some s' ∧ Relinked s s' ∧
      ∀ i ≤ s.maxLevel, Linked (fun p ↦ s'.forward p i) Towers.header
        (Tower.onLevel i (erased key ts)) := by
  obtain ⟨rest, hhigh, hts, -⟩ := found_eq_some hfound
  have herased := erased_eq hhigh
  have hmem := mem_of_found hfound
  have hlevel := h.level_le t hmem
  have hmax := h.skipListLevel_le
  have hfresh := h.addr_notMem_erased hfound
  rw [herased] at hfresh
  have hother : ∀ i, before key ts i ≠ t.addr := by
    intro i heq
    refine hfresh i (heq ▸ ?_)
    rw [Tower.onLevel_append, ← List.cons_append]
    exact List.mem_append_left _ List.getLastD_mem_cons
  have hlevels : ∀ i ≤ t.level, Tower.onLevel i ts =
      Tower.onLevel i (low key ts) ++ t.addr :: Tower.onLevel i rest := by
    intro i hi
    conv_lhs => rw [hts, Tower.onLevel_append, Tower.onLevel_cons_of_le hi]
  have habove : ∀ i, t.level < i → Tower.onLevel i ts = Tower.onLevel i (low key ts ++ rest) := by
    intro i hi
    conv_lhs => rw [hts, Tower.onLevel_append, Tower.onLevel_cons_of_lt hi]
    rw [Tower.onLevel_append]
  obtain ⟨s', hunlink, hrelinked, hforward⟩ := @unlinkLevels_spec _ _ update s t.addr 0
    (t.level + 1) (s.skipListLevel + 1) (before key ts) (by omega)
    (fun j hj _ ↦ by rw [hupdate, if_pos (by omega)]) hother
    (fun j hj _ ↦ by
      rw [h.forward_before key (by omega), hhigh, Tower.onLevel_cons_of_le (by omega)]
      rfl)
    (fun j hj _ ↦ by
      have hlinked := h.linked j (by omega)
      rw [hlevels j (by omega)] at hlinked
      exact ⟨_, hlinked.drop.2.next_head⟩)
    (fun hlt ↦ by
      rw [h.forward_before key (by omega), hhigh, Tower.onLevel_cons_of_lt (by omega)]
      refine ⟨_, rfl, fun hhead ↦ hfresh (0 + (t.level + 1)) ?_⟩
      rw [Tower.onLevel_append]
      exact List.mem_cons_of_mem _ (List.mem_append_right _ (List.mem_of_mem_head? hhead)))
  refine ⟨s', hunlink, hrelinked, fun i hi ↦ ?_⟩
  have hlinked := h.linked i hi
  rw [herased]
  rcases Nat.lt_or_ge t.level i with hlow | hhigh
  · rw [habove i hlow] at hlinked
    refine hlinked.congr fun p hp ↦ ?_
    show s'.forward p i = s.forward p i
    rw [hforward, if_neg (by omega)]
  · have hnodup := h.onLevel_nodup i
    rw [hlevels i hhigh] at hlinked hnodup
    rw [Tower.onLevel_append]
    refine hlinked.remove hnodup ?_ fun p hp hne ↦ ?_
    · show s'.forward (before key ts i) i = s.forward t.addr i
      rw [hforward, if_pos ⟨by omega, by omega, rfl⟩]
    · show s'.forward p i = s.forward p i
      rw [hforward, if_neg fun hlast ↦ hne hlast.2.2]

theorem deleteElement_found (h : s.Represents ts) {key : K} {t : Tower K V}
    (hfound : found key ts = some t) :
    ∃ s', s.deleteElement key = some s' ∧ s'.Represents (erased key ts) := by
  obtain ⟨update, hfind, hupdate⟩ := h.findPredecessors key
  obtain ⟨s₁, hunlink, hrelinked, hlinked⟩ := h.unlink hfound hupdate
  have hmax : s.skipListLevel ≤ s.maxLevel := h.skipListLevel_le
  obtain ⟨level, hlower, hle, hempty⟩ := lowerLevel_spec fun i hi ↦
    ⟨_, (hlinked i ((show i ≤ s.skipListLevel from hi).trans hmax)).next_head⟩
  have hlevel := hrelinked.skipListLevel
  refine ⟨{ s₁ with
    skipListLevel := level
    heap := Function.update s₁.heap t.addr none
    elementCount := s₁.elementCount - 1 }, ?_, ?_⟩
  · have hentry := h.entryWithKey key
    rw [hfound] at hentry
    unfold Towers.deleteElement
    simp only [hfind, h.forward_before_zero, hentry, hunlink, hlevel, hlower,
      Option.bind_eq_bind, Option.bind_some, Option.map_some]
  have hkept : ∀ p, p ≠ t.addr → Function.update s₁.heap t.addr none p = s₁.heap p :=
    fun p hp ↦ Function.update_of_ne hp _ _
  have haddr : ∀ t' ∈ erased key ts, t'.addr ≠ t.addr := by
    intro t' ht' heq
    refine h.addr_notMem_erased hfound 0 (List.mem_cons_of_mem _ ?_)
    exact Tower.mem_onLevel.mpr ⟨t', ht', Nat.zero_le _, heq⟩
  constructor
  case header =>
    obtain ⟨node, hnode, hlevels⟩ := h.header
    obtain ⟨node', hnode', -, hsame⟩ := hrelinked.node hnode
    refine ⟨node', ?_, hsame.trans (hlevels.trans hrelinked.maxLevel.symm)⟩
    exact (hkept _ (h.addr_pos t (mem_of_found hfound)).ne).trans hnode'
  case nodes =>
    intro t' ht'
    obtain ⟨node, hnode, hentry, hlevels⟩ := h.nodes t' (mem_of_mem_erased ht')
    obtain ⟨node', hnode', hentry', hsame⟩ := hrelinked.node hnode
    exact ⟨node', (hkept _ (haddr t' ht')).trans hnode', hentry'.trans hentry, hsame.trans hlevels⟩
  case linked =>
    intro i hi
    refine (hlinked i (hi.trans_eq hrelinked.maxLevel)).congr fun p hp ↦ ?_
    have hne : p ≠ t.addr := fun heq ↦ h.addr_notMem_erased hfound i (heq ▸ hp)
    show Towers.forward _ p i = s₁.forward p i
    simp only [Towers.forward, hkept p hne]
  case sorted => exact h.sorted.sublist (OrderedSet.eraseFound_sublist key ts)
  case addr_pos => exact fun t' ht' ↦ h.addr_pos t' (mem_of_mem_erased ht')
  case addr_lt =>
    exact fun t' ht' ↦ (h.addr_lt t' (mem_of_mem_erased ht')).trans_eq hrelinked.allocated.symm
  case allocated_pos => exact h.allocated_pos.trans_eq hrelinked.allocated.symm
  case level_le =>
    -- A tower above the new level would be on a level that is empty.
    intro t' ht'
    by_contra hlt
    have hhigh : t'.level ≤ s.skipListLevel := h.level_le t' (mem_of_mem_erased ht')
    have hhead := (hlinked t'.level (hhigh.trans hmax)).next_head
    rw [hempty t'.level hhigh (Nat.lt_of_not_le hlt)] at hhead
    have hnil : Tower.onLevel t'.level (erased key ts) = [] :=
      List.head?_eq_none_iff.mp (Option.some.inj hhead).symm
    have hmem : t'.addr ∈ Tower.onLevel t'.level (erased key ts) :=
      Tower.mem_onLevel.mpr ⟨t', ht', le_refl _, rfl⟩
    rw [hnil] at hmem
    cases hmem
  case skipListLevel_le => exact (hle.trans hmax).trans_eq hrelinked.maxLevel.symm
  case count =>
    show s₁.elementCount - 1 = (erased key ts).length
    rw [hrelinked.elementCount, length_erased hfound, h.count]

/-- Nothing is deleted when the key is not there. -/
theorem deleteElement_new (h : s.Represents ts) {key : K} (hfound : found key ts = none) :
    s.deleteElement key = some s := by
  obtain ⟨update, hfind, -⟩ := h.findPredecessors key
  have hentry := h.entryWithKey key
  rw [hfound] at hentry
  unfold Towers.deleteElement
  simp only [hfind, h.forward_before_zero, hentry, Option.bind_eq_bind, Option.bind_some,
    Option.map_none]

end Represents

end Towers

end Rsylar
