import Rsylar.Sylar.ByteArrayRefinement

/-!
# Views of a byte array

Besides `read` and `write` there are the accesses that leave the position alone: `read` and
`getReadBuffers` at a position that is given, and the buffers of `readv` and `writev`, which
`SocketStream` fills and sends itself. A buffer is a piece of one node, and the buffers of a call
lie one behind the other (`Contiguous`): so what they hold is a piece of the sequence of all bytes,
and filling them writes one.

Filling the buffers of `getWriteBuffers` is writing (`scatter_spec`), and the buffers of
`getReadBuffers` are what `read` reads (`scatterGather`) where `read` has a node to look at. With a
position that is given, the sizes are compared with those of the current position, so the result is
the one of that position under a condition on both (`positionedExact`).
-/

set_option autoImplicit false
set_option relaxedAutoImplicit false

namespace Rsylar

open FlatBuffer

/-- `iov_base` is `offset` bytes behind the beginning of a node. -/
structure Iovec where
  node : ℕ
  offset : ℕ
  length : ℕ
deriving DecidableEq

namespace ByteArray

/-- The walk of `count` nodes from `m_root` on: the node it ends at and those behind it. -/
def walk : List (List Byte) → ℕ → Option (List (List Byte))
  | nodes, 0 => some nodes
  | [], _ + 1 => none
  | _ :: nodes, count + 1 => walk nodes count

/-- The loop of `read` at a position. `ncap` is the room in the first node as its caller sees it. -/
def readAtLoop (nodes : List (List Byte)) (npos ncap size : ℕ) : Option (List Byte) :=
  if size = 0 then some []
  else match nodes with
    | [] => none
    | node :: nodes =>
      if size ≤ ncap then some ((node.drop npos).take size)
      else
        (readLoop nodes 0 (size - ncap)).map fun (bytes, _) ↦ (node.drop npos).take ncap ++ bytes

/-- `read` at a position. It is `m_cur` whose size tells the room in the node of the position. -/
def readAt (size position : ℕ) : ByteArrayM (List Byte) := fun ba ↦
  if (ba.size + 2 ^ 64 - position) % 2 ^ 64 < size then .error .outOfRange ba
  else
    let npos := position % ba.baseSize
    match walk ba.nodes (position / ba.baseSize), ba.cur.bind fun cur ↦ ba.nodes[cur]? with
    | some nodes, some node =>
      match readAtLoop nodes npos (node.length - npos) size with
      | some bytes => .ok bytes ba
      | none => .error .nullNode ba
    | _, _ => .error .nullNode ba

/-- The loop over the nodes, the first of which is the `i`-th, that collects the buffers. -/
def buffersLoop : List (List Byte) → ℕ → ℕ → ℕ → Option (List Iovec)
  | [], _, _, _ => none
  | node :: nodes, i, npos, len =>
    let ncap := node.length - npos
    if len ≤ ncap then some [⟨i, npos, len⟩]
    else (buffersLoop nodes (i + 1) 0 (len - ncap)).map fun buffers ↦ ⟨i, npos, ncap⟩ :: buffers

def buffersFrom (nodes : List (List Byte)) (i npos len : ℕ) : ByteArrayM (List Iovec) := fun ba ↦
  match buffersLoop nodes i npos len with
  | some buffers => .ok buffers ba
  | none => .error .nullNode ba

def getReadBuffers (len : ℕ) : ByteArrayM (List Iovec) := fun ba ↦
  let len := if ba.getReadSize < len then ba.getReadSize else len
  if len = 0 then .ok [] ba
  else buffersFrom (ba.nodes.drop ba.cursor) ba.cursor (ba.position % ba.baseSize) len ba

/-- `getReadBuffers` at a position. -/
def getReadBuffersAt (len position : ℕ) : ByteArrayM (List Iovec) := fun ba ↦
  let len := if ba.getReadSize < len then ba.getReadSize else len
  if len = 0 then .ok [] ba
  else
    let count := position / ba.baseSize
    match walk ba.nodes count with
    | some nodes => buffersFrom nodes count (position % ba.baseSize) len ba
    | none => .error .nullNode ba

def getWriteBuffers (len : ℕ) : ByteArrayM (List Iovec) := fun ba ↦
  if len = 0 then .ok [] ba
  else
    let ba := ba.addCapacity len
    buffersFrom (ba.nodes.drop ba.cursor) ba.cursor (ba.position % ba.baseSize) len ba

/-- What `writev` takes from the buffers. -/
def gather (nodes : List (List Byte)) (buffers : List Iovec) : List Byte :=
  buffers.flatMap fun iov ↦ ((nodes.getD iov.node []).drop iov.offset).take iov.length

/-- What `readv` that gets the bytes `buf` does to the nodes. -/
def fill : List Iovec → List Byte → List (List Byte) → List (List Byte)
  | [], _, nodes => nodes
  | iov :: buffers, buf, nodes =>
    fill buffers (buf.drop iov.length)
      (nodes.modify iov.node fun node ↦ overlay node iov.offset (buf.take iov.length))

/-- `SocketStream::read` of at most `len` bytes when the socket has the bytes `buf`. -/
def scatter (len : ℕ) (buf : List Byte) : ByteArrayM Unit := do
  let buffers ← getWriteBuffers len
  modify fun ba ↦ { ba with nodes := fill buffers buf ba.nodes }
  setPosition ((← get).position + buf.length)

/-- The bytes before `getSize`. -/
def contents (ba : ByteArray) : List Byte := ba.nodes.flatten.take ba.size

/-! ### Buffers that lie one behind the other -/

/-- The buffers are the `len` bytes from `start` on, in nodes of `b` bytes. -/
def Contiguous (b : ℕ) : ℕ → List Iovec → ℕ → Prop
  | _, [], len => len = 0
  | start, iov :: buffers, len =>
    iov.node * b + iov.offset = start ∧ iov.offset + iov.length ≤ b ∧ 0 < iov.length ∧
      iov.length ≤ len ∧ Contiguous b (start + iov.length) buffers (len - iov.length)

section Buffers

variable {b : ℕ} {nodes : List (List Byte)}

/-- A node in the sequence of all bytes. -/
theorem Chunked.flatten_split (h : Chunked b nodes) {i : ℕ} (hi : i < nodes.length) :
    ∃ front back, nodes.flatten = front ++ (nodes[i] ++ back) ∧ front.length = i * b ∧
      ∀ f, (nodes.modify i f).flatten = front ++ (f nodes[i] ++ back) := by
  refine ⟨(nodes.take i).flatten, (nodes.drop (i + 1)).flatten, ?_, ?_, fun f ↦ ?_⟩
  · conv_lhs => rw [← List.take_append_drop i nodes, List.drop_eq_getElem_cons hi]
    rw [List.flatten_append, List.flatten_cons]
  · rw [(h.take i).length_flatten, List.length_take_of_le (Nat.le_of_lt hi)]
  · rw [List.modify_eq_take_cons_drop hi, List.flatten_append, List.flatten_cons]

theorem Chunked.flatten_drop (h : Chunked b nodes) {k : ℕ} (hk : k ≤ nodes.length) :
    (nodes.drop k).flatten = nodes.flatten.drop (k * b) := by
  have hfront : (nodes.take k).flatten.length = k * b := by
    rw [(h.take k).length_flatten, List.length_take_of_le hk]
  conv_rhs => rw [← List.take_append_drop k nodes, List.flatten_append, List.drop_left' hfront]

theorem Chunked.modify (h : Chunked b nodes) {i : ℕ} (hi : i < nodes.length)
    {f : List Byte → List Byte} (hf : (f nodes[i]).length = b) : Chunked b (nodes.modify i f) := by
  rw [List.modify_eq_take_cons_drop hi]
  exact (h.take i).append (List.forall_mem_cons.mpr ⟨hf, h.drop (i + 1)⟩)

theorem buffersLoop_spec (h : Chunked b nodes) (i : ℕ) {npos len : ℕ} (hnpos : npos < b)
    (hlen : 0 < len) (hfit : npos + len ≤ nodes.length * b) :
    ∃ buffers, buffersLoop nodes i npos len = some buffers ∧
      Contiguous b (i * b + npos) buffers len := by
  induction nodes generalizing i npos len with
  | nil =>
    rw [List.length_nil, Nat.zero_mul] at hfit
    omega
  | cons node nodes ih =>
    obtain ⟨hnode, hnodes⟩ := List.forall_mem_cons.mp h
    rw [List.length_cons, Nat.add_mul, Nat.one_mul] at hfit
    rw [buffersLoop, hnode]
    by_cases hle : len ≤ b - npos
    · refine ⟨_, if_pos hle, rfl, ?_, hlen, Nat.le_refl len, Nat.sub_self len⟩
      change npos + len ≤ b
      omega
    · obtain ⟨buffers, hloop, hnext⟩ := ih hnodes (i + 1) (Nat.zero_lt_of_lt hnpos)
        (Nat.sub_pos_of_lt (Nat.lt_of_not_le hle)) (by omega)
      have hstart : (i + 1) * b + 0 = i * b + npos + (b - npos) := by
        rw [Nat.add_mul, Nat.one_mul]
        omega
      rw [hstart] at hnext
      refine ⟨⟨i, npos, b - npos⟩ :: buffers, ?_, rfl, ?_, ?_, ?_, hnext⟩
      · rw [if_neg hle, hloop]
        rfl
      · change npos + (b - npos) ≤ b
        omega
      · change 0 < b - npos
        omega
      · change b - npos ≤ len
        omega

/-- The loop comes to a null pointer when the nodes end before. -/
theorem buffersLoop_eq_none (h : Chunked b nodes) (i : ℕ) {npos len : ℕ} (hnpos : npos < b)
    (hlen : 0 < len) (hfit : nodes.length * b < npos + len) :
    buffersLoop nodes i npos len = none := by
  induction nodes generalizing i npos len with
  | nil => rfl
  | cons node nodes ih =>
    obtain ⟨hnode, hnodes⟩ := List.forall_mem_cons.mp h
    rw [List.length_cons, Nat.add_mul, Nat.one_mul] at hfit
    have hle : ¬len ≤ b - npos := by omega
    rw [buffersLoop, hnode]
    simp only [if_neg hle]
    rw [ih hnodes (i + 1) (by omega) (by omega) (by omega)]
    rfl

theorem gather_spec (h : Chunked b nodes) {buffers : List Iovec} {start len : ℕ}
    (hbuffers : Contiguous b start buffers len) (hfit : start + len ≤ nodes.length * b) :
    gather nodes buffers = (nodes.flatten.drop start).take len := by
  induction buffers generalizing start len with
  | nil =>
    obtain rfl : len = 0 := hbuffers
    exact List.take_zero.symm
  | cons iov buffers ih =>
    obtain ⟨hstart, hend, hpos, hle, hnext⟩ := hbuffers
    have hnode : iov.node < nodes.length := Nat.lt_of_mul_lt_mul_right (a := b) (by omega)
    obtain ⟨front, back, hflat, hfront, -⟩ := h.flatten_split hnode
    have hlength : nodes[iov.node].length = b := h _ (List.getElem_mem hnode)
    have hpiece : ((nodes.getD iov.node []).drop iov.offset).take iov.length =
        (nodes.flatten.drop start).take iov.length := by
      rw [← List.getElem_eq_getD (h := hnode) [], hflat, ← hstart, ← hfront, ← List.drop_drop,
        List.drop_left, List.drop_append_of_le_length (by omega),
        List.take_append_of_le_length (by rw [List.length_drop]; omega)]
    have hrest := ih hnext (by omega)
    rw [gather] at hrest ⊢
    rw [List.flatMap_cons, hrest, hpiece, ← List.drop_drop]
    have hsum : len = iov.length + (len - iov.length) := by omega
    conv_rhs => rw [hsum, List.take_add]

theorem fill_spec (h : Chunked b nodes) {buffers : List Iovec} {start len : ℕ} {buf : List Byte}
    (hbuffers : Contiguous b start buffers len) (hbuf : buf.length ≤ len)
    (hfit : start + len ≤ nodes.length * b) :
    Chunked b (fill buffers buf nodes) ∧ (fill buffers buf nodes).length = nodes.length ∧
      (fill buffers buf nodes).flatten = overlay nodes.flatten start buf := by
  induction buffers generalizing start len buf nodes with
  | nil =>
    obtain rfl : len = 0 := hbuffers
    obtain rfl : buf = [] := List.eq_nil_of_length_eq_zero (Nat.le_zero.mp hbuf)
    exact ⟨h, rfl, overlay_nil.symm⟩
  | cons iov buffers ih =>
    obtain ⟨hstart, hend, hpos, hle, hnext⟩ := hbuffers
    have hnode : iov.node < nodes.length := Nat.lt_of_mul_lt_mul_right (a := b) (by omega)
    have hlength : nodes[iov.node].length = b := h _ (List.getElem_mem hnode)
    have htake : (buf.take iov.length).length = min iov.length buf.length := List.length_take
    have hpiece : (overlay nodes[iov.node] iov.offset (buf.take iov.length)).length = b := by
      rw [length_overlay (by omega)]
      omega
    obtain ⟨front, back, hflat, hfront, hmodify⟩ := h.flatten_split hnode
    have hfirst : (nodes.modify iov.node fun node ↦
        overlay node iov.offset (buf.take iov.length)).flatten =
        overlay nodes.flatten start (buf.take iov.length) := by
      rw [hmodify, hflat, overlay_append_right (by omega), hfront, ← hstart,
        Nat.add_sub_cancel_left, overlay_append_left (by omega)]
    have hsize := h.length_flatten
    have hlen : (nodes.modify iov.node fun node ↦
        overlay node iov.offset (buf.take iov.length)).length = nodes.length :=
      List.length_modify ..
    have hbuf' : (buf.drop iov.length).length ≤ len - iov.length := by
      rw [List.length_drop]
      omega
    obtain ⟨hchunked, hcount, hrest⟩ := ih (h.modify hnode hpiece) hnext hbuf'
      (by rw [hlen]; omega)
    refine ⟨hchunked, hcount.trans hlen, hrest.trans ?_⟩
    rw [hfirst]
    by_cases hshort : buf.length ≤ iov.length
    · rw [List.drop_of_length_le hshort, List.take_of_length_le hshort, overlay_nil]
    · have hfull : iov.length = (buf.take iov.length).length := by omega
      have hroom : start + (buf.take iov.length).length ≤ nodes.flatten.length := by omega
      conv_lhs => arg 2; rw [hfull]
      rw [overlay_overlay hroom, List.take_append_drop]

theorem walk_eq (nodes : List (List Byte)) (count : ℕ) :
    walk nodes count = if count ≤ nodes.length then some (nodes.drop count) else none := by
  induction nodes generalizing count with
  | nil =>
    cases count with
    | zero => rfl
    | succ count => rfl
  | cons node nodes ih =>
    cases count with
    | zero => rfl
    | succ count => simp only [walk, ih, List.length_cons, Nat.add_le_add_iff_right, List.drop]

end Buffers

/-! ### At the position of the byte array -/

section Operations

variable {ba : ByteArray}

theorem take_contents (p n : ℕ) : (ba.contents.drop p).take n =
    (ba.nodes.flatten.drop p).take (min n (ba.size - p)) := by
  rw [contents, List.drop_take, List.take_take]

/-- The nodes from the one of a position on. -/
theorem Inv.length_nodesFrom (h : ba.Inv) {p : ℕ} (hp : p ≤ ba.capacity) :
    p % ba.baseSize + (ba.capacity - p) =
      (ba.nodes.drop (p / ba.baseSize)).length * ba.baseSize := by
  have hsplit := Nat.div_add_mod' p ba.baseSize
  have hcapacity := h.capacity_eq
  rw [List.length_drop, Nat.sub_mul]
  omega

/-- The buffers of `len` bytes from `p` on, the node of which the caller has found. -/
theorem Inv.buffersFrom (h : ba.Inv) (ba' : ByteArray) {p len : ℕ} (hlen : 0 < len)
    (hfit : p + len ≤ ba.capacity) :
    ∃ buffers, buffersFrom (ba.nodes.drop (p / ba.baseSize)) (p / ba.baseSize) (p % ba.baseSize) len
        ba' = .ok buffers ba' ∧ Contiguous ba.baseSize p buffers len := by
  have hroom := h.length_nodesFrom (p := p) (by omega)
  obtain ⟨buffers, hloop, hbuffers⟩ := buffersLoop_spec (h.chunked.drop (p / ba.baseSize))
    (p / ba.baseSize) (Nat.mod_lt p h.baseSize_pos) hlen (by omega)
  rw [Nat.div_add_mod'] at hbuffers
  refine ⟨buffers, ?_, hbuffers⟩
  rw [ByteArray.buffersFrom, hloop]

theorem Inv.gather_eq (h : ba.Inv) {buffers : List Iovec} {p len : ℕ}
    (hbuffers : Contiguous ba.baseSize p buffers len) (hfit : p + len ≤ ba.capacity) :
    gather ba.nodes buffers = (ba.nodes.flatten.drop p).take len :=
  gather_spec h.chunked hbuffers (h.capacity_eq ▸ hfit)

theorem ite_min (a b : ℕ) : (if a < b then a else b) = min b a := by
  split <;> omega

theorem Inv.getReadBuffers (h : ba.Inv) (n : ℕ) :
    ∃ buffers, getReadBuffers n ba = .ok buffers ba ∧
      gather ba.nodes buffers = (ba.contents.drop ba.position).take n := by
  have hsize := h.size_le
  rw [ByteArray.getReadBuffers, ite_min, take_contents, ← getReadSize]
  by_cases hzero : min n ba.getReadSize = 0
  · exact ⟨[], if_pos hzero, by rw [hzero, List.take_zero]; rfl⟩
  · have hfit : ba.position + min n ba.getReadSize ≤ ba.capacity := by
      rw [getReadSize]
      have := h.position_le
      omega
    obtain ⟨buffers, hok, hbuffers⟩ := h.buffersFrom ba (Nat.pos_of_ne_zero hzero) hfit
    refine ⟨buffers, ?_, h.gather_eq hbuffers hfit⟩
    simp only [if_neg hzero]
    rw [h.cursor_eq, hok]

theorem scatter_of_ok {n : ℕ} {buf : List Byte} {ba' ba₂ : ByteArray} {buffers : List Iovec}
    (hbuffers : getWriteBuffers n ba = .ok buffers ba')
    (hseek : setPosition (ba'.position + buf.length)
      { ba' with nodes := fill buffers buf ba'.nodes } = .ok () ba₂) :
    scatter n buf ba = .ok () ba₂ :=
  (bind_of_ok hbuffers).trans hseek

theorem Inv.fill (h : ba.Inv) {buffers : List Iovec} {buf : List Byte} {n : ℕ}
    (hbuffers : Contiguous ba.baseSize ba.position buffers n) (hbuf : buf.length ≤ n)
    (hfit : ba.position + n ≤ ba.capacity) :
    Inv { ba with nodes := fill buffers buf ba.nodes } ∧
      (fill buffers buf ba.nodes).flatten = overlay ba.nodes.flatten ba.position buf := by
  obtain ⟨hchunked, hlength, hflat⟩ := fill_spec h.chunked hbuffers hbuf (h.capacity_eq ▸ hfit)
  refine ⟨⟨h.baseSize_pos, fun hnil ↦ h.nodes_ne ?_, hchunked, ?_, h.position_le, h.size_le,
    h.cur_eq⟩, hflat⟩
  · exact List.eq_nil_of_length_eq_zero (hlength ▸ congrArg List.length hnil)
  · rw [hlength, h.capacity_eq]

/-- Filling buffers is laying bytes over the content. -/
theorem Inv.scatter (h : ba.Inv) {n : ℕ} {buf : List Byte} (hbuf : buf.length ≤ n) :
    ∃ ba', scatter n buf ba = .ok () ba' ∧ ba'.Inv ∧ ba.Laid buf ba' := by
  have hsize := h.size_le
  by_cases hzero : n = 0
  · obtain rfl : buf = [] := List.eq_nil_of_length_eq_zero (by omega)
    obtain ⟨hseek, hinv⟩ := h.seek (v := ba.position) (h.position_le.trans hsize)
    rw [Nat.max_eq_left h.position_le] at hseek hinv
    exact ⟨_, scatter_of_ok (if_pos hzero) hseek, hinv, rfl, rfl, overlay_nil.symm, rfl,
      (Nat.max_eq_left h.position_le).symm⟩
  · obtain ⟨hinv, hroom, -, new, hnew⟩ := h.addCapacity (Nat.pos_of_ne_zero hzero)
    rw [← addCapacity_position n] at hroom
    obtain ⟨buffers, hok, hbuffers⟩ := hinv.buffersFrom (ba.addCapacity n)
      (Nat.pos_of_ne_zero hzero) hroom
    rw [← hinv.cursor_eq] at hok
    obtain ⟨hfill, hflat⟩ := hinv.fill hbuffers hbuf hroom
    obtain ⟨hseek, hend⟩ := hfill.seek (v := (ba.addCapacity n).position + buf.length)
      (Nat.le_trans (by omega) hroom)
    have hlength := hinv.length_flatten
    refine ⟨_, scatter_of_ok ((if_neg hzero).trans hok) hseek, hend, ?_, ?_, ?_, ?_, ?_⟩
    · exact addCapacity_baseSize n
    · exact addCapacity_endian n
    · simp only [addCapacity_position, addCapacity_size] at hflat hroom ⊢
      exact h.take_overlay hnew hflat (by omega)
    · simp only [addCapacity_position]
      rfl
    · simp only [addCapacity_position, addCapacity_size]

/-! ### At a position that is given -/

/-- With full nodes the room in the first one is the same whichever node tells it. -/
theorem readAtLoop_eq {b npos n : ℕ} {nodes : List (List Byte)} (h : Chunked b nodes)
    (hn : 0 < n) :
    readAtLoop nodes npos (b - npos) n = (readLoop nodes npos n).map Prod.fst := by
  have hne : n ≠ 0 := by omega
  cases nodes with
  | nil =>
    rw [readAtLoop, if_neg hne]
    rfl
  | cons node nodes =>
    have hnode : node.length = b := h node (List.mem_cons_self ..)
    have hall : (node.drop npos).take (b - npos) = node.drop npos :=
      List.take_of_length_le (by rw [List.length_drop, hnode])
    simp only [readAtLoop, readLoop, if_neg hne, hnode, hall]
    split
    · rfl
    · rw [Option.map_map]
      rfl

theorem Inv.walk_eq (h : ba.Inv) {p : ℕ} (hp : p ≤ ba.capacity) :
    walk ba.nodes (p / ba.baseSize) = some (ba.nodes.drop (p / ba.baseSize)) := by
  rw [ByteArray.walk_eq, if_pos]
  rw [h.capacity_eq, Nat.mul_comm] at hp
  exact Nat.div_le_of_le_mul hp

/-- The bytes from a position on are found in the nodes from its node on. -/
theorem Inv.flatten_drop (h : ba.Inv) {p : ℕ} (hp : p ≤ ba.capacity) :
    (ba.nodes.drop (p / ba.baseSize)).flatten.drop (p % ba.baseSize) = ba.nodes.flatten.drop p := by
  have hle : p / ba.baseSize ≤ ba.nodes.length := by
    rw [h.capacity_eq, Nat.mul_comm] at hp
    exact Nat.div_le_of_le_mul hp
  rw [h.chunked.flatten_drop hle, List.drop_drop, Nat.div_add_mod']

theorem Inv.node_of_cur (h : ba.Inv) (hposition : ba.position ≠ ba.capacity) :
    ∃ node, (ba.cur.bind fun cur ↦ ba.nodes[cur]?) = some node ∧ node.length = ba.baseSize := by
  have hlt : ba.position / ba.baseSize < ba.nodes.length := by
    have hle := h.position_le.trans h.size_le
    have hcapacity := h.capacity_eq
    exact (Nat.div_lt_iff_lt_mul h.baseSize_pos).mpr (by omega)
  refine ⟨ba.nodes[ba.position / ba.baseSize], ?_, h.chunked _ (List.getElem_mem hlt)⟩
  rw [h.cur_eq, if_neg hposition]
  exact List.getElem?_eq_getElem hlt

theorem Inv.readAt (h : ba.Inv) {n p : ℕ} (hfit : p + n ≤ ba.size)
    (hposition : ba.position ≠ ba.capacity) (hsize : ba.size < 2 ^ 64) :
    readAt n p ba = .ok ((ba.contents.drop p).take n) ba := by
  have hle := h.size_le
  have hpcap : p ≤ ba.capacity := by omega
  have hcheck : ¬(ba.size + 2 ^ 64 - p) % 2 ^ 64 < n := by omega
  obtain ⟨node, hnode, hlength⟩ := h.node_of_cur hposition
  have hall : min n (ba.size - p) = n := by omega
  rw [ByteArray.readAt, if_neg hcheck, take_contents, hall]
  simp only [h.walk_eq hpcap, hnode, hlength]
  by_cases hzero : n = 0
  · rw [readAtLoop.eq_def, if_pos hzero, hzero, List.take_zero]
  · have hroom := h.length_nodesFrom hpcap
    have hmod := Nat.mod_lt p h.baseSize_pos
    rw [readAtLoop_eq (h.chunked.drop _) (Nat.pos_of_ne_zero hzero),
      readLoop_spec h.baseSize_pos (h.chunked.drop _) _ (Nat.le_of_lt hmod)
        (Nat.pos_of_ne_zero hzero) (by omega), h.flatten_drop hpcap]
    rfl

/-- A position is refused when the difference of 64-bit numbers is too small, and else never. -/
theorem readAt_outOfRange {n p : ℕ} :
    readAt n p ba = .error .outOfRange ba ↔ (ba.size + 2 ^ 64 - p) % 2 ^ 64 < n := by
  constructor
  · intro herror
    by_contra hcheck
    rw [readAt, if_neg hcheck] at herror
    dsimp only at herror
    split at herror
    · split at herror <;> cases herror
    · cases herror
  · intro hcheck
    rw [readAt, if_pos hcheck]

theorem Inv.readAt_null (h : ba.Inv) {n p : ℕ} (hcheck : ¬(ba.size + 2 ^ 64 - p) % 2 ^ 64 < n)
    (hposition : ba.position = ba.capacity) : ByteArray.readAt n p ba = .error .nullNode ba := by
  have hcur := h.cur_eq
  rw [if_pos hposition] at hcur
  rw [ByteArray.readAt, if_neg hcheck, hcur]
  cases walk ba.nodes (p / ba.baseSize) with
  | none => rfl
  | some nodes => rfl

/-- The buffers of a position are as many bytes as the caller asks for and can read at the current
position, or there are none. -/
theorem Inv.getReadBuffersAt (h : ba.Inv) (n p : ℕ) :
    (∃ buffers, getReadBuffersAt n p ba = .ok buffers ba ∧
      gather ba.nodes buffers = (ba.nodes.flatten.drop p).take (min n ba.getReadSize) ∧
      (gather ba.nodes buffers).length = min n ba.getReadSize) ∨
    (getReadBuffersAt n p ba = .error .nullNode ba ∧ 0 < min n ba.getReadSize ∧
      ba.capacity < p + min n ba.getReadSize) := by
  rw [ByteArray.getReadBuffersAt, ite_min]
  by_cases hzero : min n ba.getReadSize = 0
  · exact .inl ⟨[], if_pos hzero, by rw [hzero, List.take_zero]; rfl, by rw [hzero]; rfl⟩
  · have hpos : 0 < min n ba.getReadSize := Nat.pos_of_ne_zero hzero
    simp only [if_neg hzero]
    generalize min n ba.getReadSize = len at hpos
    by_cases hfit : p + len ≤ ba.capacity
    · obtain ⟨buffers, hok, hbuffers⟩ := h.buffersFrom ba hpos hfit
      have hbytes := h.gather_eq hbuffers hfit
      refine .inl ⟨buffers, ?_, hbytes, ?_⟩
      · rw [h.walk_eq (by omega)]
        exact hok
      · have hall := h.length_flatten
        rw [hbytes, List.length_take, List.length_drop]
        omega
    · refine .inr ⟨?_, hpos, Nat.lt_of_not_le hfit⟩
      rw [ByteArray.walk_eq]
      by_cases hcount : p / ba.baseSize ≤ ba.nodes.length
      · have hsplit := Nat.div_add_mod' p ba.baseSize
        have hcapacity := h.capacity_eq
        have hmul := Nat.mul_le_mul_right ba.baseSize hcount
        have hroom : (ba.nodes.drop (p / ba.baseSize)).length * ba.baseSize <
            p % ba.baseSize + len := by
          rw [List.length_drop, Nat.sub_mul]
          omega
        have hnone := buffersLoop_eq_none (h.chunked.drop (p / ba.baseSize)) (p / ba.baseSize)
          (Nat.mod_lt p h.baseSize_pos) hpos hroom
        simp only [if_pos hcount, ByteArray.buffersFrom, hnone]
      · simp only [if_neg hcount]

end Operations

/-! ### What the views promise -/

/-- The buffers for `n` bytes hold what `read` returns of `n` bytes, or of those that are left. -/
def GathersRead (ba : ByteArray) (n : ℕ) : Prop :=
  ∃ buffers bytes ba', getReadBuffers n ba = .ok buffers ba ∧
    read (min n ba.getReadSize) ba = .ok bytes ba' ∧ gather ba.nodes buffers = bytes

/-- Filling the first of the buffers for `n` bytes with `buf` is writing it. -/
def ScattersWrite (ba : ByteArray) (n : ℕ) (buf : List Byte) : Prop :=
  ∃ ba₁ ba₂, scatter n buf ba = .ok () ba₁ ∧ write buf ba = .ok () ba₂ ∧
    ba₁.contents = ba₂.contents ∧ ba₁.position = ba₂.position ∧ ba₁.size = ba₂.size

/-- `n` bytes at the position `p` are those of the content, or are refused when they end behind it,
and the buffers hold those of them that are content. -/
def PositionedExact (ba : ByteArray) (n p : ℕ) : Prop :=
  readAt n p ba =
      (if ba.size < p + n then .error .outOfRange ba else .ok ((ba.contents.drop p).take n) ba) ∧
    ∃ buffers, getReadBuffersAt n p ba = .ok buffers ba ∧
      gather ba.nodes buffers = (ba.contents.drop p).take n

variable {ba : ByteArray}

/-- Five bytes in nodes of two, at the second byte of the second node. -/
def insideNode : ByteArray :=
  ⟨2, 3, 6, 5, .big, [[1, 2], [3, 4], [5, 0]], some 1⟩

theorem insideNode_inv : insideNode.Inv :=
  ⟨by decide, by decide, by unfold Chunked; decide, rfl, by decide, by decide, rfl⟩

/-- A node of two bytes that have been written. -/
def fullNode : ByteArray :=
  ⟨2, 2, 2, 2, .big, [[1, 2]], none⟩

example : write [1, 2] (create 2) = .ok () fullNode := rfl

/-- The buffers agree with `read` and `write`, except that `read` of nothing has no node to look at
when the content ends with the capacity and the position is there. -/
theorem scatterGather (h : ba.Inv) (n : ℕ) {m : ℕ} {buf : List Byte} (hbuf : buf.length ≤ m) :
    (ba.GathersRead n ∧ ba.ScattersWrite m buf) ↔ ba.position ≠ ba.capacity := by
  have hsize := h.size_le
  have hle := h.position_le
  constructor
  · rintro ⟨⟨buffers, bytes, ba', -, hread, -⟩, -⟩ hend
    have hzero : min n ba.getReadSize = 0 := by
      rw [getReadSize]
      omega
    rw [hzero, h.read_zero, if_pos hend] at hread
    cases hread
  · intro hposition
    constructor
    · obtain ⟨buffers, hok, hbytes⟩ := h.getReadBuffers n
      rw [take_contents, ← getReadSize] at hbytes
      by_cases hzero : min n ba.getReadSize = 0
      · rw [hzero, List.take_zero] at hbytes
        exact ⟨buffers, [], ba, hok, by rw [hzero, h.read_zero, if_neg hposition], hbytes⟩
      · exact ⟨buffers, _, _, hok, h.read (Nat.pos_of_ne_zero hzero) (Nat.min_le_right ..), hbytes⟩
    · obtain ⟨ba₁, hscatter, -, h₁⟩ := h.scatter hbuf
      obtain ⟨ba₂, hwrite, -, -, h₂⟩ := h.write buf
      refine ⟨ba₁, ba₂, hscatter, hwrite, ?_, ?_, ?_⟩
      · exact h₁.contents.trans h₂.contents.symm
      · rw [h₁.position, h₂.position]
      · rw [h₁.size, h₂.size]

theorem scatterGather_insideNode :
    (insideNode.GathersRead 7 ∧ insideNode.ScattersWrite 6 [7, 8, 9, 10]) ↔
      insideNode.position ≠ insideNode.capacity :=
  scatterGather insideNode_inv 7 (by decide)

theorem not_gathersRead_fullNode : ¬fullNode.GathersRead 1 := by
  rintro ⟨buffers, bytes, ba', -, hread, -⟩
  have hnull : read (min 1 fullNode.getReadSize) fullNode = .error .nullNode fullNode := rfl
  rw [hnull] at hread
  cases hread

/-- Access at a position is that of the content when the cursor has a node and the position lies in
the content or far enough behind it, and the current position leaves as many bytes to read. -/
theorem positionedExact (h : ba.Inv) (hcapacity : ba.capacity < 2 ^ 64) {n p : ℕ}
    (hn : n < 2 ^ 64) (hp : p < 2 ^ 64) :
    ba.PositionedExact n p ↔
      (if p + n ≤ ba.size then ba.position ≠ ba.capacity
        else p ≤ ba.size ∨ 2 ^ 64 - (p - ba.size) < n) ∧
      min n (ba.size - ba.position) = min n (ba.size - p) := by
  have hsize := h.size_le
  refine and_congr ?_ ?_
  · by_cases hfit : p + n ≤ ba.size
    · rw [if_pos hfit, if_neg (by omega)]
      constructor
      · intro hok hend
        rw [h.readAt_null (by omega) hend] at hok
        cases hok
      · intro hposition
        exact h.readAt hfit hposition (by omega)
    · rw [if_neg hfit, if_pos (by omega), readAt_outOfRange]
      omega
  · have hlength : ((ba.contents.drop p).take n).length = min n (ba.size - p) := by
      have hall := h.length_flatten
      rw [contents, List.length_take, List.length_drop, List.length_take]
      omega
    rw [← getReadSize]
    rcases h.getReadBuffersAt n p with ⟨buffers, hok, hbytes, hcount⟩ | ⟨hnull, hpos, hend⟩
    · constructor
      · rintro ⟨buffers', hok', hbytes'⟩
        obtain rfl : buffers = buffers' := by
          rw [hok] at hok'
          cases hok'
          rfl
        rw [← hcount, hbytes', hlength]
      · intro hsame
        exact ⟨buffers, hok, by rw [hbytes, take_contents, hsame]⟩
    · constructor
      · rintro ⟨buffers, hok, -⟩
        rw [hnull] at hok
        cases hok
      · intro hsame
        omega

theorem positionedExact_insideNode : insideNode.PositionedExact 2 1 ↔
    (if 1 + 2 ≤ insideNode.size then insideNode.position ≠ insideNode.capacity
      else 1 ≤ insideNode.size ∨ 2 ^ 64 - (1 - insideNode.size) < 2) ∧
    min 2 (insideNode.size - insideNode.position) = min 2 (insideNode.size - 1) :=
  positionedExact insideNode_inv (by decide) (by decide) (by decide)

theorem not_positionedExact_fullNode : ¬fullNode.PositionedExact 1 0 := by
  rintro ⟨hread, -⟩
  have hcheck : ¬(fullNode.size + 2 ^ 64 - 0) % 2 ^ 64 < 1 := by decide
  have hnull : readAt 1 0 fullNode = .error .nullNode fullNode := if_neg hcheck
  rw [hnull] at hread
  cases hread

end ByteArray

end Rsylar
