import Mathlib.Data.String.Basic

/-!
# The skip list of the store

The nodes of level 0 in their order. The levels above are shortcuts: every search ends with the walk
on level 0, which is the recursion of the functions here. On a list whose keys grow the operations
are those of a map, and they keep it growing (`searchElement_insertSetElement`,
`Sorted.insertSetElement`).
-/

set_option autoImplicit false
set_option relaxedAutoImplicit false

namespace Rsylar

/-- The nodes of level 0. -/
abbrev SkipList (K V : Type) := List (K × V)

namespace SkipList

variable {K V : Type} [LinearOrder K]

def searchElement (key : K) : SkipList K V → Option V
  | [] => none
  | node :: rest =>
    if node.1 < key then searchElement key rest
    else if node.1 = key then some node.2
    else none

/-- An element that exists is kept as it is. -/
def insertElement (key : K) (value : V) : SkipList K V → SkipList K V
  | [] => [(key, value)]
  | node :: rest =>
    if node.1 < key then node :: insertElement key value rest
    else if node.1 = key then node :: rest
    else (key, value) :: node :: rest

def deleteElement (key : K) : SkipList K V → SkipList K V
  | [] => []
  | node :: rest =>
    if node.1 < key then node :: deleteElement key rest
    else if node.1 = key then rest
    else node :: rest

def insertSetElement (key : K) (value : V) (l : SkipList K V) : SkipList K V :=
  match searchElement key l with
  | some _ => insertElement key value (deleteElement key l)
  | none => insertElement key value l

attribute [local simp] searchElement insertElement deleteElement

/-! ### The operations as those of a map -/

/-- The keys grow from node to node. -/
def Sorted (l : SkipList K V) : Prop :=
  l.Pairwise fun node node' ↦ node.1 < node'.1

variable {l : SkipList K V} {k key : K} {v : V}

theorem mem_insertElement {node : K × V} (h : node ∈ insertElement k v l) :
    node = (k, v) ∨ node ∈ l := by
  induction l with
  | nil => exact Or.inl (List.mem_singleton.mp h)
  | cons first rest ih =>
    unfold insertElement at h
    split at h
    · rcases List.mem_cons.mp h with rfl | h
      · exact Or.inr List.mem_cons_self
      · exact (ih h).imp_right fun hmem ↦ List.mem_cons_of_mem _ hmem
    · split at h
      · exact Or.inr h
      · exact List.mem_cons.mp h

theorem mem_deleteElement {node : K × V} (h : node ∈ deleteElement k l) : node ∈ l := by
  induction l with
  | nil => exact h
  | cons first rest ih =>
    unfold deleteElement at h
    split at h
    · rcases List.mem_cons.mp h with rfl | h
      · exact List.mem_cons_self
      · exact List.mem_cons_of_mem _ (ih h)
    · split at h
      · exact List.mem_cons_of_mem _ h
      · exact h

theorem Sorted.insertElement (h : Sorted l) : Sorted (insertElement k v l) := by
  induction l with
  | nil => exact List.pairwise_singleton _ _
  | cons node rest ih =>
    obtain ⟨hlt, hrest⟩ := List.pairwise_cons.mp h
    unfold SkipList.insertElement
    split
    · rename_i hnode
      refine List.pairwise_cons.mpr ⟨fun node' hmem ↦ ?_, ih hrest⟩
      rcases mem_insertElement hmem with rfl | hmem
      · exact hnode
      · exact hlt node' hmem
    · rename_i hnot
      split
      · exact h
      · rename_i hne
        have hfirst : k < node.1 := lt_of_le_of_ne (not_lt.mp hnot) (Ne.symm hne)
        refine List.pairwise_cons.mpr ⟨fun node' hmem ↦ ?_, h⟩
        rcases List.mem_cons.mp hmem with rfl | hmem
        · exact hfirst
        · exact hfirst.trans (hlt node' hmem)

theorem Sorted.deleteElement (h : Sorted l) : Sorted (deleteElement k l) := by
  induction l with
  | nil => exact h
  | cons node rest ih =>
    obtain ⟨hlt, hrest⟩ := List.pairwise_cons.mp h
    unfold SkipList.deleteElement
    split
    · exact List.pairwise_cons.mpr ⟨fun node' hmem ↦ hlt node' (mem_deleteElement hmem), ih hrest⟩
    · split
      · exact hrest
      · exact h

theorem Sorted.insertSetElement (h : Sorted l) : Sorted (insertSetElement k v l) := by
  unfold SkipList.insertSetElement
  split
  · exact h.deleteElement.insertElement
  · exact h.insertElement

/-- Beyond the first node nothing is found below it. -/
theorem searchElement_of_lt (h : ∀ node ∈ l, key < node.1) : searchElement key l = none := by
  cases l with
  | nil => rfl
  | cons node rest =>
    have hnode := h node List.mem_cons_self
    unfold searchElement
    rw [if_neg hnode.not_gt, if_neg hnode.ne']

theorem searchElement_deleteElement (h : Sorted l) :
    searchElement key (deleteElement k l) = if key = k then none else searchElement key l := by
  induction l with
  | nil => simp [deleteElement, searchElement]
  | cons node rest ih =>
    obtain ⟨hlt, hrest⟩ := List.pairwise_cons.mp h
    unfold deleteElement
    rcases lt_trichotomy node.1 k with hk | hk | hk
    · rw [if_pos hk]
      unfold searchElement
      rw [ih hrest]
      by_cases hkey : key = k
      · subst hkey
        simp [hk]
      · simp [hkey]
    · rw [if_neg hk.not_lt, if_pos hk]
      subst hk
      rcases lt_trichotomy node.1 key with hkey | hkey | hkey
      · rw [if_neg hkey.ne']
        conv_rhs => unfold searchElement
        rw [if_pos hkey]
      · subst hkey
        rw [if_pos rfl]
        exact searchElement_of_lt hlt
      · rw [if_neg hkey.ne, searchElement_of_lt fun node' hmem ↦ hkey.trans (hlt node' hmem)]
        conv_rhs => unfold searchElement
        rw [if_neg hkey.not_gt, if_neg hkey.ne']
    · rw [if_neg hk.not_gt, if_neg hk.ne']
      by_cases hkey : key = k
      · subst hkey
        unfold searchElement
        simp [hk.not_gt, hk.ne']
      · rw [if_neg hkey]

theorem searchElement_insertElement (h : searchElement k l = none) :
    searchElement key (insertElement k v l) = if key = k then some v else searchElement key l := by
  induction l with
  | nil =>
    unfold insertElement searchElement
    by_cases hkey : key = k
    · simp [hkey]
    · simp [hkey, Ne.symm hkey, searchElement]
  | cons node rest ih =>
    unfold insertElement
    rcases lt_trichotomy node.1 k with hk | hk | hk
    · unfold searchElement at h
      rw [if_pos hk] at h ⊢
      unfold searchElement
      rw [ih h]
      by_cases hkey : key = k
      · subst hkey
        simp [hk]
      · simp [hkey]
    · unfold searchElement at h
      rw [if_neg hk.not_lt, if_pos hk] at h
      cases h
    · rw [if_neg hk.not_gt, if_neg hk.ne']
      rcases lt_trichotomy k key with hkey | hkey | hkey
      · conv_lhs => unfold searchElement
        rw [if_pos hkey, if_neg hkey.ne']
      · subst hkey
        conv_lhs => unfold searchElement
        rw [if_neg (lt_irrefl k), if_pos rfl, if_pos rfl]
      · conv_lhs => unfold searchElement
        rw [if_neg hkey.not_gt, if_neg hkey.ne', if_neg hkey.ne]
        unfold searchElement
        rw [if_neg (hkey.trans hk).not_gt, if_neg (hkey.trans hk).ne']

/-- Setting a key changes the value of that key and of no other. -/
theorem searchElement_insertSetElement (h : Sorted l) :
    searchElement key (insertSetElement k v l) =
      if key = k then some v else searchElement key l := by
  unfold insertSetElement
  split
  · rw [searchElement_insertElement (by rw [searchElement_deleteElement h, if_pos rfl]),
      searchElement_deleteElement h]
    split <;> rfl
  · exact searchElement_insertElement ‹_›

/-! ### Dump and load -/

structure Dump (K V : Type) where
  keyDumpVt : List K
  valDumpVt : List V

def dumpFile (l : SkipList K V) : Dump K V where
  keyDumpVt := l.map Prod.fst
  valDumpVt := l.map Prod.snd

/-- The loop inserts every key with itself as the value. -/
def loadFile (l : SkipList K K) (dumper : Dump K K) : SkipList K K :=
  dumper.keyDumpVt.foldl (fun l key ↦ insertElement key key l) l

omit [LinearOrder K] in
theorem keyDumpVt_dumpFile (l : SkipList K V) : (dumpFile l).keyDumpVt = l.map Prod.fst :=
  rfl

theorem mem_of_searchElement (h : searchElement key l = some v) : (key, v) ∈ l := by
  induction l with
  | nil => cases h
  | cons node rest ih =>
    unfold searchElement at h
    split at h
    · exact List.mem_cons_of_mem _ (ih h)
    · split at h
      · rename_i hkey
        cases h
        rw [← hkey]
        exact List.mem_cons_self
      · cases h

/-- On a list whose keys grow every node is found. -/
theorem Sorted.searchElement_of_mem (h : Sorted l) (hmem : (key, v) ∈ l) :
    searchElement key l = some v := by
  induction l with
  | nil => cases hmem
  | cons node rest ih =>
    obtain ⟨hlt, hrest⟩ := List.pairwise_cons.mp h
    unfold searchElement
    rcases List.mem_cons.mp hmem with rfl | hmem
    · rw [if_neg (lt_irrefl _), if_pos rfl]
    · rw [if_pos (hlt _ hmem)]
      exact ih hrest hmem

/-- A key that is found is kept with its value. -/
theorem insertElement_of_found {v' : V} (h : searchElement k l = some v') :
    insertElement k v l = l := by
  induction l with
  | nil => cases h
  | cons node rest ih =>
    unfold searchElement at h
    unfold insertElement
    split at h
    · rename_i hlt
      rw [if_pos hlt, ih h]
    · rename_i hnot
      split at h
      · rename_i hkey
        rw [if_neg hnot, if_pos hkey]
      · cases h

/-- Nothing is deleted when the key is not found. -/
theorem deleteElement_of_not_found (h : searchElement k l = none) : deleteElement k l = l := by
  induction l with
  | nil => rfl
  | cons node rest ih =>
    unfold searchElement at h
    unfold deleteElement
    split at h
    · rename_i hlt
      rw [if_pos hlt, ih h]
    · rename_i hnot
      split at h
      · cases h
      · rename_i hkey
        rw [if_neg hnot, if_neg hkey]

theorem Sorted.loadFile {l : SkipList K K} (h : Sorted l) (dumper : Dump K K) :
    Sorted (loadFile l dumper) := by
  unfold SkipList.loadFile
  generalize dumper.keyDumpVt = keys
  induction keys generalizing l with
  | nil => exact h
  | cons first keys ih => exact ih h.insertElement

/-- Loading adds the keys that are missing, each with itself as the value. -/
theorem searchElement_loadFile (l : SkipList K K) (dumper : Dump K K) :
    searchElement key (loadFile l dumper) =
      if searchElement key l = none ∧ key ∈ dumper.keyDumpVt then some key
      else searchElement key l := by
  unfold loadFile
  generalize dumper.keyDumpVt = keys
  induction keys generalizing l with
  | nil => simp
  | cons first keys ih =>
    rw [List.foldl_cons, ih]
    cases hfirst : searchElement first l with
    | some v =>
      rw [insertElement_of_found hfirst]
      by_cases hkey : key = first
      · subst hkey
        simp [hfirst]
      · simp [hkey]
    | none =>
      rw [searchElement_insertElement hfirst]
      by_cases hkey : key = first
      · subst hkey
        simp [hfirst]
      · simp [hkey]

end SkipList

end Rsylar
