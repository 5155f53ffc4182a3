import Mathlib.Logic.Function.Basic
import Rsylar.Foundations.LinkedList
import Rsylar.Kv.SkipList

/-!
# The towers of the skip list

The memory of the skip list: nodes with an array of forward pointers, one for each level up to the
level of the node. The header is the node at address 0; its key and its value are not initialized.
Reading a node that is not there, a level above that of a node, a key of the header or an entry of
`update` that has not been set is undefined, and so is a walk that does not end: an operation
returns `Option`. The number of ones that `rand` gives before its first zero is a parameter.
-/

set_option autoImplicit false
set_option relaxedAutoImplicit false

namespace Rsylar

/-- A node. The header has no entry. -/
structure TowerNode (K V : Type) where
  entry : Option (K × V)
  nodeLevel : ℕ
  forward : ℕ → Option ℕ

structure Towers (K V : Type) where
  maxLevel : ℕ
  skipListLevel : ℕ
  elementCount : ℕ
  heap : ℕ → Option (TowerNode K V)
  /-- the address that the next node gets -/
  allocated : ℕ

namespace Towers

variable {K V : Type}

/-! ### Memory -/

/-- The address of the header. -/
def header : ℕ := 0

def forward (s : Towers K V) (p i : ℕ) : Option (Option ℕ) := do
  let node ← s.heap p
  if i ≤ node.nodeLevel then some (node.forward i) else none

def setForward (s : Towers K V) (p i : ℕ) (q : Option ℕ) : Option (Towers K V) := do
  let node ← s.heap p
  if i ≤ node.nodeLevel then
    let node := { node with forward := Function.update node.forward i q }
    some { s with heap := Function.update s.heap p (some node) }
  else
    none

def getEntry (s : Towers K V) (p : ℕ) : Option (K × V) := do
  let node ← s.heap p
  node.entry

def createNode (s : Towers K V) (key : K) (value : V) (level : ℕ) : ℕ × Towers K V :=
  (s.allocated,
    { s with
      heap := Function.update s.heap s.allocated
        (some { entry := some (key, value), nodeLevel := level, forward := fun _ ↦ none })
      allocated := s.allocated + 1 })

def create (maxLevel : ℕ) : Towers K V where
  maxLevel := maxLevel
  skipListLevel := 0
  elementCount := 0
  heap := Function.update (fun _ ↦ none) header
    (some { entry := none, nodeLevel := maxLevel, forward := fun _ ↦ none })
  allocated := 1

/-! ### Searching -/

section Operations

variable [LinearOrder K]

/-- The key of the node is below the given one. -/
def keyBelow (s : Towers K V) (key : K) (p : ℕ) : Option Bool :=
  (s.getEntry p).map fun entry ↦ decide (entry.1 < key)

/-- The loop of one level. There are no more nodes than elements, so a walk that ends needs no more
steps. -/
def walkLevel (s : Towers K V) (key : K) (i p : ℕ) : Option ℕ :=
  LinkedList.walk (fun p ↦ s.forward p i) (s.keyBelow key) (s.elementCount + 1) p

/-- The loop from the given level down, with the array that it fills. -/
def descend (s : Towers K V) (key : K) :
    ℕ → ℕ → (ℕ → Option ℕ) → Option (ℕ × (ℕ → Option ℕ))
  | 0, current, update => do
    let current ← s.walkLevel key 0 current
    some (current, Function.update update 0 (some current))
  | i + 1, current, update => do
    let current ← s.walkLevel key (i + 1) current
    s.descend key i current (Function.update update (i + 1) (some current))

/-- The node before the key, and the array `update`. -/
def findPredecessors (s : Towers K V) (key : K) : Option (ℕ × (ℕ → Option ℕ)) :=
  s.descend key s.skipListLevel header fun _ ↦ none

/-- `current != NULL && current->get_key() == key`, with the entry of the node. -/
def entryWithKey (s : Towers K V) (key : K) : Option ℕ → Option (Option (ℕ × V))
  | none => some none
  | some p => (s.getEntry p).map fun entry ↦ if entry.1 = key then some (p, entry.2) else none

/-- The search fills no array. -/
def searchElement (s : Towers K V) (key : K) : Option (Option V) := do
  let (current, _) ← s.findPredecessors key
  let first ← s.forward current 0
  let found ← s.entryWithKey key first
  some (found.map Prod.snd)

/-! ### Inserting -/

def getRandomLevel (maxLevel ones : ℕ) : ℕ :=
  if ones + 1 < maxLevel then ones + 1 else maxLevel

/-- The array with the header for the levels that are new. -/
def extendUpdate (update : ℕ → Option ℕ) (level randomLevel i : ℕ) : Option ℕ :=
  if level < i ∧ i < randomLevel + 1 then some header else update i

/-- The loop that puts a node into the levels below the given one. -/
def linkLevels (update : ℕ → Option ℕ) (insertedNode : ℕ) :
    ℕ → Towers K V → Option (Towers K V)
  | 0, s => some s
  | i + 1, s => do
    let s ← linkLevels update insertedNode i s
    let p ← update i
    let q ← s.forward p i
    let s ← s.setForward insertedNode i q
    s.setForward p i (some insertedNode)

/-- The number is 1 when the element exists. -/
def insertElement (s : Towers K V) (key : K) (value : V) (ones : ℕ) :
    Option (ℕ × Towers K V) := do
  let (current, update) ← s.findPredecessors key
  let first ← s.forward current 0
  match ← s.entryWithKey key first with
  | some _ => some (1, s)
  | none =>
    let randomLevel := getRandomLevel s.maxLevel ones
    let update := extendUpdate update s.skipListLevel randomLevel
    let s := if s.skipListLevel < randomLevel then { s with skipListLevel := randomLevel } else s
    let (insertedNode, s) := s.createNode key value randomLevel
    let s ← linkLevels update insertedNode (randomLevel + 1) s
    some (0, { s with elementCount := s.elementCount + 1 })

/-! ### Deleting -/

/-- The loop that takes a node out of its levels, for the given number of levels from `i` on. -/
def unlinkLevels (update : ℕ → Option ℕ) (target : ℕ) :
    ℕ → ℕ → Towers K V → Option (Towers K V)
  | 0, _, s => some s
  | levels + 1, i, s => do
    let p ← update i
    let q ← s.forward p i
    if q ≠ some target then
      some s
    else
      let q ← s.forward target i
      let s ← s.setForward p i q
      unlinkLevels update target levels (i + 1) s

/-- The highest level up to the given one that is not empty. -/
def lowerLevel (s : Towers K V) : ℕ → Option ℕ
  | 0 => some 0
  | level + 1 => do
    let first ← s.forward header (level + 1)
    if first = none then s.lowerLevel level else some (level + 1)

def deleteElement (s : Towers K V) (key : K) : Option (Towers K V) := do
  let (current, update) ← s.findPredecessors key
  let first ← s.forward current 0
  match ← s.entryWithKey key first with
  | none => some s
  | some (target, _) =>
    let s ← unlinkLevels update target (s.skipListLevel + 1) 0 s
    let level ← s.lowerLevel s.skipListLevel
    some { s with
      skipListLevel := level
      heap := Function.update s.heap target none
      elementCount := s.elementCount - 1 }

def insertSetElement (s : Towers K V) (key : K) (value : V) (ones : ℕ) :
    Option (Towers K V) := do
  match ← s.searchElement key with
  | some _ =>
    let s ← s.deleteElement key
    let (_, s) ← s.insertElement key value ones
    some s
  | none =>
    let (_, s) ← s.insertElement key value ones
    some s

end Operations

/-! ### Size and dump -/

def size (s : Towers K V) : ℕ :=
  s.elementCount

def dumpFile (s : Towers K V) : Option (SkipList.Dump K V) := do
  let entries ← LinkedList.collect (fun p ↦ s.forward p 0) s.getEntry (s.elementCount + 1) header
  some (SkipList.dumpFile entries)

end Towers

end Rsylar
