import Rsylar.Foundations.FlatBuffer

/-!
# The chunked byte array

`ByteArray` keeps its bytes in nodes of `m_baseSize` bytes each. A pointer to a node is the number
of the node, null is `none`. The operations walk along the nodes from `m_cur` on, and what a null
pointer is dereferenced for ends in `nullNode`.

The bytes of a new node are zeros here: no operation shows a byte that has not been written, except
after `setPosition` beyond `getSize`. Sizes are natural numbers, and the quotient that `addCapacity`
rounds up is exact (as that of the doubles is for fewer than 2^53 bytes).
-/

set_option autoImplicit false
set_option relaxedAutoImplicit false

namespace Rsylar

open FlatBuffer

abbrev Byte := BitVec 8

inductive Endian
  | little
  | big
deriving DecidableEq

inductive ByteArrayError
  | outOfRange
  /-- A null node is dereferenced. -/
  | nullNode
deriving DecidableEq

structure ByteArray where
  baseSize : ℕ
  position : ℕ
  capacity : ℕ
  size : ℕ
  endian : Endian
  nodes : List (List Byte)
  cur : Option ℕ
deriving DecidableEq

abbrev ByteArrayM := EStateM ByteArrayError ByteArray

namespace ByteArray

def create (baseSize : ℕ) : ByteArray where
  baseSize := baseSize
  position := 0
  capacity := baseSize
  size := 0
  endian := .big
  nodes := [List.replicate baseSize 0]
  cur := some 0

def setIsLittleEndian (ba : ByteArray) (val : Bool) : ByteArray :=
  { ba with endian := if val then .little else .big }

def getReadSize (ba : ByteArray) : ℕ := ba.size - ba.position

def getCapacity (ba : ByteArray) : ℕ := ba.capacity - ba.position

/-- The number of nodes before `m_cur`. -/
def cursor (ba : ByteArray) : ℕ := ba.cur.getD ba.nodes.length

/-- The pointer to a node, null behind the last. -/
def node (ba : ByteArray) (i : ℕ) : Option ℕ := if i < ba.nodes.length then some i else none

def clear (ba : ByteArray) : ByteArray :=
  { ba with
    position := 0
    size := 0
    capacity := ba.baseSize
    nodes := ba.nodes.take 1
    cur := some 0 }

def addCapacity (ba : ByteArray) (size : ℕ) : ByteArray :=
  if size = 0 ∨ size ≤ ba.getCapacity then ba
  else
    let count := (size - ba.getCapacity + ba.baseSize - 1) / ba.baseSize
    { ba with
      nodes := ba.nodes ++ List.replicate count (List.replicate ba.baseSize 0)
      capacity := ba.capacity + count * ba.baseSize
      cur := if ba.getCapacity = 0 then some ba.nodes.length else ba.cur }

/-- The loop of `write` over the nodes from `m_cur` on: the nodes with the bytes written to them,
and how many of them `m_cur` has passed. -/
def writeLoop : List (List Byte) → ℕ → List Byte → Option (List (List Byte) × ℕ)
  | [], _, _ => none
  | node :: nodes, npos, buf =>
    let ncap := node.length - npos
    if buf.length ≤ ncap then
      some (overlay node npos buf :: nodes, if node.length = npos + buf.length then 1 else 0)
    else
      (writeLoop nodes 0 (buf.drop ncap)).map fun (nodes, passed) ↦
        (overlay node npos (buf.take ncap) :: nodes, passed + 1)

/-- `write` after `addCapacity`. -/
def writeNodes (buf : List Byte) : ByteArrayM Unit := fun ba ↦
  match writeLoop (ba.nodes.drop ba.cursor) (ba.position % ba.baseSize) buf with
  | some (nodes, passed) =>
    .ok () { ba with
      nodes := ba.nodes.take ba.cursor ++ nodes
      cur := ba.node (ba.cursor + passed)
      position := ba.position + buf.length
      size := max ba.size (ba.position + buf.length) }
  | none => .error .nullNode ba

def write (buf : List Byte) : ByteArrayM Unit := fun ba ↦
  if buf.length = 0 then .ok () ba
  else writeNodes buf (ba.addCapacity buf.length)

/-- The loop of `read` over the nodes from `m_cur` on: the bytes, and how many nodes `m_cur` has
passed. The first node is looked at also when there is nothing to read. -/
def readLoop : List (List Byte) → ℕ → ℕ → Option (List Byte × ℕ)
  | [], _, _ => none
  | node :: nodes, npos, size =>
    let ncap := node.length - npos
    if size = 0 then some ([], 0)
    else if size ≤ ncap then
      some ((node.drop npos).take size, if node.length = npos + size then 1 else 0)
    else
      (readLoop nodes 0 (size - ncap)).map fun (bytes, passed) ↦
        (node.drop npos ++ bytes, passed + 1)

def read (size : ℕ) : ByteArrayM (List Byte) := fun ba ↦
  if ba.getReadSize < size then .error .outOfRange ba
  else
    match readLoop (ba.nodes.drop ba.cursor) (ba.position % ba.baseSize) size with
    | some (bytes, passed) =>
      .ok bytes { ba with
        cur := ba.node (ba.cursor + passed)
        position := ba.position + size }
    | none => .error .nullNode ba

/-- The loop of `setPosition`: how many nodes it passes on the way to the byte `v`. -/
def seekLoop : List (List Byte) → ℕ → Option ℕ
  | [], _ => none
  | node :: nodes, v =>
    if node.length < v then (seekLoop nodes (v - node.length)).map (· + 1)
    else some (if v = node.length then 1 else 0)

def setPosition (v : ℕ) : ByteArrayM Unit := fun ba ↦
  if ba.capacity < v then .error .outOfRange ba
  else
    let ba := { ba with position := v, size := max ba.size v }
    match seekLoop ba.nodes v with
    | some passed => .ok () { ba with cur := ba.node passed }
    | none => .error .nullNode ba

end ByteArray

end Rsylar
