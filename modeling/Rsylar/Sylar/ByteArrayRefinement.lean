import Mathlib.Tactic.Ring
import Rsylar.Sylar.ByteArray

/-!
# The byte array is a flat buffer

Whatever the size of its nodes, a byte array behaves like one sequence of bytes with a position
(`ByteArray.Refines`). The nodes are full ones, and `m_cur` is the node of the position
(`ByteArray.Inv`). Each loop splits its bytes at the nodes (`writeLoop_spec`, `readLoop_spec`,
`seekLoop_spec`), each operation does to the sequence what its name says, and so do all of them
together (`byteArrayRefinement`).
-/

set_option autoImplicit false
set_option relaxedAutoImplicit false

namespace Rsylar

open FlatBuffer

namespace ByteArray

/-! ### The loops -/

/-- Nodes of `b` bytes each. -/
def Chunked (b : ℕ) (nodes : List (List Byte)) : Prop := ∀ node ∈ nodes, node.length = b

section Loops

variable {b : ℕ} {nodes : List (List Byte)}

theorem Chunked.length_flatten (h : Chunked b nodes) : nodes.flatten.length = nodes.length * b := by
  induction nodes with
  | nil => simp
  | cons node nodes ih =>
    obtain ⟨hnode, hnodes⟩ := List.forall_mem_cons.mp h
    rw [List.flatten_cons, List.length_append, ih hnodes, hnode, List.length_cons]
    ring

theorem Chunked.append {nodes' : List (List Byte)} (h : Chunked b nodes) (h' : Chunked b nodes') :
    Chunked b (nodes ++ nodes') :=
  fun node hnode ↦ (List.mem_append.mp hnode).elim (h node) (h' node)

theorem Chunked.take (h : Chunked b nodes) (k : ℕ) : Chunked b (nodes.take k) :=
  fun node hnode ↦ h node (List.mem_of_mem_take hnode)

theorem Chunked.drop (h : Chunked b nodes) (k : ℕ) : Chunked b (nodes.drop k) :=
  fun node hnode ↦ h node (List.mem_of_mem_drop hnode)

/-- How many nodes a position of the first node is from its beginning. -/
theorem passed_eq {n : ℕ} (hb : 1 ≤ b) (h : n ≤ b) : (if b = n then 1 else 0) = n / b := by
  split
  · rename_i heq
    rw [← heq, Nat.div_self hb]
  · rw [Nat.div_eq_of_lt (by omega)]

theorem writeLoop_spec (hb : 1 ≤ b) (h : Chunked b nodes) (npos : ℕ) (buf : List Byte)
    (hnpos : npos ≤ b) (hbuf : 0 < buf.length) (hfit : npos + buf.length ≤ nodes.length * b) :
    ∃ nodes', writeLoop nodes npos buf = some (nodes', (npos + buf.length) / b) ∧
      Chunked b nodes' ∧ nodes'.length = nodes.length ∧
      nodes'.flatten = overlay nodes.flatten npos buf := by
  induction nodes generalizing npos buf with
  | nil =>
    rw [List.length_nil, Nat.zero_mul] at hfit
    omega
  | cons node nodes ih =>
    obtain ⟨hnode, hnodes⟩ := List.forall_mem_cons.mp h
    rw [List.length_cons, Nat.add_mul, Nat.one_mul] at hfit
    rw [writeLoop, hnode]
    by_cases hle : buf.length ≤ b - npos
    · have hend : npos + buf.length ≤ node.length := by omega
      refine ⟨overlay node npos buf :: nodes, ?_, ?_, rfl, ?_⟩
      · rw [if_pos hle, passed_eq hb (by omega)]
      · refine List.forall_mem_cons.mpr ⟨?_, hnodes⟩
        rw [length_overlay (by omega)]
        omega
      · rw [List.flatten_cons, List.flatten_cons, overlay_append_left hend]
    · have hlength : (buf.drop (b - npos)).length = buf.length - (b - npos) := List.length_drop ..
      obtain ⟨nodes', hloop, hchunked, hlen, hflat⟩ :=
        ih hnodes 0 (buf.drop (b - npos)) (by omega) (by omega) (by omega)
      have hdiv : (npos + buf.length) / b = (0 + (buf.drop (b - npos)).length) / b + 1 := by
        have hsum : npos + buf.length = 0 + (buf.drop (b - npos)).length + b := by omega
        rw [hsum, Nat.add_div_right _ hb]
      refine ⟨overlay node npos (buf.take (b - npos)) :: nodes', ?_, ?_, ?_, ?_⟩
      · rw [if_neg hle, hloop, hdiv]
        rfl
      · refine List.forall_mem_cons.mpr ⟨?_, hchunked⟩
        rw [length_overlay (by omega), List.length_take]
        omega
      · rw [List.length_cons, hlen, List.length_cons]
      · have hncap : npos + (b - npos) = node.length := by omega
        rw [List.flatten_cons, List.flatten_cons, hflat, overlay_append hncap (by omega)]

theorem readLoop_spec (hb : 1 ≤ b) (h : Chunked b nodes) (npos : ℕ) {size : ℕ} (hnpos : npos ≤ b)
    (hsize : 0 < size) (hfit : npos + size ≤ nodes.length * b) :
    readLoop nodes npos size =
      some ((nodes.flatten.drop npos).take size, (npos + size) / b) := by
  induction nodes generalizing npos size with
  | nil =>
    rw [List.length_nil, Nat.zero_mul] at hfit
    omega
  | cons node nodes ih =>
    obtain ⟨hnode, hnodes⟩ := List.forall_mem_cons.mp h
    rw [List.length_cons, Nat.add_mul, Nat.one_mul] at hfit
    have hdrop : (node ++ nodes.flatten).drop npos = node.drop npos ++ nodes.flatten :=
      List.drop_append_of_le_length (by omega)
    have hlength : (node.drop npos).length = b - npos := by
      rw [List.length_drop, hnode]
    rw [readLoop, if_neg (by omega), hnode, List.flatten_cons, hdrop]
    by_cases hle : size ≤ b - npos
    · rw [if_pos hle, passed_eq hb (by omega), List.take_append_of_le_length (by omega)]
    · have hsum : npos + size = 0 + (size - (b - npos)) + b := by omega
      have hall : (node.drop npos).take size = node.drop npos :=
        List.take_of_length_le (by omega)
      rw [if_neg hle, ih hnodes 0 (by omega) (by omega) (by omega), hsum, Nat.add_div_right _ hb,
        List.take_append, hlength, hall]
      rfl

theorem seekLoop_spec (hb : 1 ≤ b) (h : Chunked b nodes) (hnodes : nodes ≠ []) {v : ℕ}
    (hv : v ≤ nodes.length * b) : seekLoop nodes v = some (v / b) := by
  induction nodes generalizing v with
  | nil => exact absurd rfl hnodes
  | cons node nodes ih =>
    obtain ⟨hnode, htail⟩ := List.forall_mem_cons.mp h
    rw [List.length_cons, Nat.add_mul, Nat.one_mul] at hv
    rw [seekLoop, hnode]
    by_cases hlt : b < v
    · have hne : nodes ≠ [] := by
        rintro rfl
        rw [List.length_nil, Nat.zero_mul] at hv
        omega
      have hsum : v = v - b + b := by omega
      rw [if_pos hlt, ih htail hne (by omega)]
      conv_rhs => rw [hsum, Nat.add_div_right _ hb]
      rfl
    · rw [if_neg hlt, ← passed_eq hb (by omega)]
      simp only [eq_comm]

end Loops

/-! ### The invariant -/

/-- The byte array at another position. -/
def moveTo (ba : ByteArray) (p : ℕ) : ByteArray :=
  { ba with position := p, cur := ba.node (p / ba.baseSize) }

/-- `m_capacity` is the size of all nodes, and `m_cur` is the node of the position, null at the end
of the capacity. -/
structure Inv (ba : ByteArray) : Prop where
  baseSize_pos : 1 ≤ ba.baseSize
  nodes_ne : ba.nodes ≠ []
  chunked : Chunked ba.baseSize ba.nodes
  capacity_eq : ba.capacity = ba.nodes.length * ba.baseSize
  position_le : ba.position ≤ ba.size
  size_le : ba.size ≤ ba.capacity
  cur_eq : ba.cur = if ba.position = ba.capacity then none else some (ba.position / ba.baseSize)

/-- No node but the first is without a byte of the content. -/
def Tight (ba : ByteArray) : Prop := ba.nodes.length = 1 ∨ ba.capacity < ba.size + ba.baseSize

/-- The byte array holds what a flat buffer holds, with the base size `b` and the byte order `e`. -/
structure Refines (b : ℕ) (e : Endian) (ba : ByteArray) (flat : FlatBuffer Byte) : Prop where
  inv : ba.Inv
  tight : ba.Tight
  baseSize : ba.baseSize = b
  endian : ba.endian = e
  data : flat.data = ba.nodes.flatten.take ba.size
  position : flat.position = ba.position

namespace Inv

variable {ba : ByteArray} (h : ba.Inv)

include h

theorem length_flatten : ba.nodes.flatten.length = ba.capacity := by
  rw [h.chunked.length_flatten, h.capacity_eq]

theorem cursor_eq : ba.cursor = ba.position / ba.baseSize := by
  rw [cursor, h.cur_eq]
  split
  · rename_i hend
    rw [hend, h.capacity_eq, Nat.mul_div_cancel _ h.baseSize_pos]
    rfl
  · rfl

/-- The pointer to the node of a position. -/
theorem node_div {p : ℕ} (hp : p ≤ ba.capacity) :
    ba.node (p / ba.baseSize) = if p = ba.capacity then none else some (p / ba.baseSize) := by
  have hlt : p / ba.baseSize < ba.nodes.length ↔ p < ba.capacity := by
    rw [h.capacity_eq]
    exact Nat.div_lt_iff_lt_mul h.baseSize_pos
  rw [node]
  by_cases hend : p = ba.capacity
  · rw [if_pos hend, if_neg (by omega)]
  · rw [if_neg hend, if_pos (by omega)]

/-- The bytes before the node of the position. -/
theorem length_take_cursor :
    (ba.nodes.take ba.cursor).flatten.length + ba.position % ba.baseSize = ba.position := by
  have hle : ba.position / ba.baseSize ≤ ba.nodes.length := by
    have := h.position_le.trans h.size_le
    rw [h.capacity_eq] at this
    exact Nat.div_le_of_le_mul (Nat.mul_comm .. ▸ this)
  rw [(h.chunked.take _).length_flatten, h.cursor_eq, List.length_take_of_le hle, Nat.mul_comm]
  exact Nat.div_add_mod ..

/-- The capacity from the node of the position on. -/
theorem length_drop_cursor : ba.position % ba.baseSize + (ba.capacity - ba.position) =
    (ba.nodes.drop ba.cursor).length * ba.baseSize := by
  have hsplit : (ba.nodes.take ba.cursor).flatten.length + (ba.nodes.drop ba.cursor).flatten.length =
      ba.capacity := by
    rw [← List.length_append, ← List.flatten_append, List.take_append_drop, h.length_flatten]
  have htake := h.length_take_cursor
  have hle := h.position_le.trans h.size_le
  rw [← (h.chunked.drop _).length_flatten]
  omega

/-- The node of the position `n` bytes further on. -/
theorem cursor_passed (n : ℕ) : ba.cursor + (ba.position % ba.baseSize + n) / ba.baseSize =
    (ba.position + n) / ba.baseSize := by
  have hsum : ba.position + n =
      ba.position % ba.baseSize + n + ba.baseSize * (ba.position / ba.baseSize) := by
    have := Nat.mod_add_div ba.position ba.baseSize
    omega
  rw [hsum, Nat.add_mul_div_left _ _ h.baseSize_pos, h.cursor_eq, Nat.add_comm]

end Inv

/-! ### One operation -/

/-- The nodes that `n` bytes need have room for them, and no node is left over. -/
theorem count_spec {b n : ℕ} (hb : 1 ≤ b) (hn : 0 < n) :
    n ≤ (n + b - 1) / b * b ∧ (n + b - 1) / b * b < n + b := by
  have hdiv := Nat.div_add_mod (n + b - 1) b
  have hmod := Nat.mod_lt (n + b - 1) hb
  rw [Nat.mul_comm] at hdiv
  omega

section Operations

variable {ba : ByteArray} {b : ℕ} {e : Endian} {flat : FlatBuffer Byte}

theorem Inv.addCapacity (h : ba.Inv) {n : ℕ} (hn : 0 < n) :
    (ba.addCapacity n).Inv ∧ ba.position + n ≤ (ba.addCapacity n).capacity ∧
      (ba.Tight → (ba.addCapacity n).nodes.length = 1 ∨
        (ba.addCapacity n).capacity < max ba.size (ba.position + n) + ba.baseSize) ∧
      ∃ new, (ba.addCapacity n).nodes.flatten = ba.nodes.flatten ++ new := by
  have hle := h.position_le.trans h.size_le
  by_cases hcap : n ≤ ba.capacity - ba.position
  · rw [ByteArray.addCapacity, if_pos (.inr hcap)]
    refine ⟨h, by omega, fun htight ↦ htight.imp_right fun hlt ↦ ?_, [], (List.append_nil _).symm⟩
    omega
  · obtain ⟨hceil, hleft⟩ := count_spec (n := n - ba.getCapacity) h.baseSize_pos
      (by rw [getCapacity]; omega)
    rw [ByteArray.addCapacity, if_neg (by rw [getCapacity]; omega)]
    generalize (n - ba.getCapacity + ba.baseSize - 1) / ba.baseSize = count at hceil hleft ⊢
    rw [getCapacity] at hceil hleft ⊢
    refine ⟨⟨h.baseSize_pos, by simp [h.nodes_ne], ?_, ?_, h.position_le, ?_, ?_⟩, ?_, ?_, ?_⟩
    · exact h.chunked.append fun node hnode ↦ by
        rw [List.eq_of_mem_replicate hnode, List.length_replicate]
    · simp only [List.length_append, List.length_replicate, Nat.add_mul, h.capacity_eq]
    · exact h.size_le.trans (Nat.le_add_right ..)
    · have hne : ba.position ≠ ba.capacity + count * ba.baseSize := by omega
      simp only [if_neg hne]
      by_cases hfull : ba.position = ba.capacity
      · rw [if_pos (by omega), hfull, h.capacity_eq, Nat.mul_div_cancel _ h.baseSize_pos]
      · rw [if_neg (by omega), h.cur_eq, if_neg hfull]
    · change ba.position + n ≤ ba.capacity + count * ba.baseSize
      omega
    · intro _
      right
      change ba.capacity + count * ba.baseSize < _
      omega
    · exact ⟨_, List.flatten_append⟩

@[simp]
theorem addCapacity_position (n : ℕ) : (ba.addCapacity n).position = ba.position := by
  unfold ByteArray.addCapacity
  split <;> rfl

@[simp]
theorem addCapacity_size (n : ℕ) : (ba.addCapacity n).size = ba.size := by
  unfold ByteArray.addCapacity
  split <;> rfl

@[simp]
theorem addCapacity_baseSize (n : ℕ) : (ba.addCapacity n).baseSize = ba.baseSize := by
  unfold ByteArray.addCapacity
  split <;> rfl

@[simp]
theorem addCapacity_endian (n : ℕ) : (ba.addCapacity n).endian = ba.endian := by
  unfold ByteArray.addCapacity
  split <;> rfl

theorem Inv.writeNodes (h : ba.Inv) {buf : List Byte} (hbuf : 0 < buf.length)
    (hroom : ba.position + buf.length ≤ ba.capacity) : ∃ nodes',
      writeNodes buf ba = .ok () { ba with
        nodes := nodes'
        cur := ba.node ((ba.position + buf.length) / ba.baseSize)
        position := ba.position + buf.length
        size := max ba.size (ba.position + buf.length) } ∧
      nodes'.length = ba.nodes.length ∧ nodes'.flatten = overlay ba.nodes.flatten ba.position buf ∧
      Inv { ba with
        nodes := nodes'
        cur := ba.node ((ba.position + buf.length) / ba.baseSize)
        position := ba.position + buf.length
        size := max ba.size (ba.position + buf.length) } := by
  have htake := h.length_take_cursor
  have hdrop := h.length_drop_cursor
  have hmod := Nat.mod_lt ba.position h.baseSize_pos
  obtain ⟨nodes', hloop, hchunked, hlength, hflat⟩ := writeLoop_spec h.baseSize_pos
    (h.chunked.drop ba.cursor) (ba.position % ba.baseSize) buf (by omega) hbuf (by omega)
  have hlen : (ba.nodes.take ba.cursor ++ nodes').length = ba.nodes.length := by
    rw [List.length_append, hlength, ← List.length_append, List.take_append_drop]
  refine ⟨ba.nodes.take ba.cursor ++ nodes', ?_, hlen, ?_, ?_⟩
  · rw [ByteArray.writeNodes, hloop, ← h.cursor_passed]
  · rw [List.flatten_append, hflat]
    conv_rhs => rw [← List.take_append_drop ba.cursor ba.nodes, List.flatten_append,
      overlay_append_right (by omega)]
    rw [show ba.position - (ba.nodes.take ba.cursor).flatten.length = ba.position % ba.baseSize by
      omega]
  · refine ⟨h.baseSize_pos, ?_, (h.chunked.take _).append hchunked, ?_, ?_, ?_, ?_⟩
    · exact fun hnil ↦ h.nodes_ne (List.eq_nil_of_length_eq_zero (hlen ▸ congrArg List.length hnil))
    · rw [hlen, h.capacity_eq]
    · exact Nat.le_max_right ..
    · exact Nat.max_le.mpr ⟨h.size_le, hroom⟩
    · exact h.node_div hroom

/-- The byte array after `buf` has been laid over its content from the position on. -/
structure Laid (ba : ByteArray) (buf : List Byte) (ba' : ByteArray) : Prop where
  baseSize : ba'.baseSize = ba.baseSize
  endian : ba'.endian = ba.endian
  contents : ba'.nodes.flatten.take ba'.size =
    overlay (ba.nodes.flatten.take ba.size) ba.position buf
  position : ba'.position = ba.position + buf.length
  size : ba'.size = max ba.size (ba.position + buf.length)

/-- The content when the bytes have been laid over all nodes, some of which may be new. -/
theorem Inv.take_overlay (h : ba.Inv) {nodes nodes' : List (List Byte)} {new buf : List Byte}
    (hnodes : nodes.flatten = ba.nodes.flatten ++ new)
    (hnodes' : nodes'.flatten = overlay nodes.flatten ba.position buf)
    (hroom : ba.position + buf.length ≤ nodes.flatten.length) :
    nodes'.flatten.take (max ba.size (ba.position + buf.length)) =
      overlay (ba.nodes.flatten.take ba.size) ba.position buf := by
  have hold := h.length_flatten
  have hsize := h.size_le
  have hlength := congrArg List.length hnodes
  rw [List.length_append] at hlength
  rw [hnodes', FlatBuffer.take_overlay h.position_le (by omega) hroom, hnodes,
    List.take_append_of_le_length (by omega)]

theorem Inv.write (h : ba.Inv) (buf : List Byte) :
    ∃ ba', ByteArray.write buf ba = .ok () ba' ∧ ba'.Inv ∧ (ba.Tight → ba'.Tight) ∧
      ba.Laid buf ba' := by
  by_cases hempty : buf.length = 0
  · obtain rfl : buf = [] := List.eq_nil_of_length_eq_zero hempty
    exact ⟨ba, if_pos hempty, h, id, rfl, rfl, overlay_nil.symm, rfl,
      (Nat.max_eq_left h.position_le).symm⟩
  · obtain ⟨hinv, hroom, htight, new, hnew⟩ := h.addCapacity (Nat.pos_of_ne_zero hempty)
    obtain ⟨nodes', hwrite, hlength, hflat, hinv'⟩ := hinv.writeNodes
      (Nat.pos_of_ne_zero hempty) (by simpa using hroom)
    refine ⟨_, (if_neg hempty).trans hwrite, hinv', fun ht ↦ ?_, ?_⟩
    · simpa [Tight, hlength] using htight ht
    · rw [addCapacity_position] at hflat
      have hall := hinv.length_flatten
      refine ⟨addCapacity_baseSize _, addCapacity_endian _, ?_, ?_, ?_⟩
      · simp only [addCapacity_position, addCapacity_size]
        exact h.take_overlay hnew hflat (by omega)
      · simp only [addCapacity_position]
      · simp only [addCapacity_position, addCapacity_size]

theorem Inv.moveTo (h : ba.Inv) {p : ℕ} (hp : p ≤ ba.size) : (ba.moveTo p).Inv where
  baseSize_pos := h.baseSize_pos
  nodes_ne := h.nodes_ne
  chunked := h.chunked
  capacity_eq := h.capacity_eq
  position_le := hp
  size_le := h.size_le
  cur_eq := h.node_div (hp.trans h.size_le)

theorem Inv.read (h : ba.Inv) {n : ℕ} (hn : 0 < n) (hle : n ≤ ba.getReadSize) :
    ByteArray.read n ba =
      .ok ((ba.nodes.flatten.drop ba.position).take n) (ba.moveTo (ba.position + n)) := by
  have htake := h.length_take_cursor
  have hdrop := h.length_drop_cursor
  have hmod := Nat.mod_lt ba.position h.baseSize_pos
  have hposition := h.position_le
  have hsize := h.size_le
  have hread : ¬ba.getReadSize < n := by omega
  rw [getReadSize] at hle
  have hloop := readLoop_spec h.baseSize_pos (h.chunked.drop ba.cursor)
    (ba.position % ba.baseSize) (by omega) hn (by omega)
  have hbytes : (ba.nodes.drop ba.cursor).flatten.drop (ba.position % ba.baseSize) =
      ba.nodes.flatten.drop ba.position := by
    conv_rhs => rw [← List.take_append_drop ba.cursor ba.nodes, List.flatten_append,
      List.drop_append, List.drop_of_length_le (by omega), List.nil_append]
    congr 1
    omega
  rw [ByteArray.read, if_neg hread, hloop, hbytes, ByteArray.moveTo, ← h.cursor_passed]

/-- Reading nothing looks at the node of the position, and there is none at the end of the
capacity. -/
theorem Inv.read_zero (h : ba.Inv) : ByteArray.read 0 ba =
    if ba.position = ba.capacity then .error .nullNode ba else .ok [] ba := by
  have hcur := h.cur_eq
  have hlt : ¬ba.getReadSize < 0 := Nat.not_lt_zero _
  rw [ByteArray.read, if_neg hlt]
  by_cases hend : ba.position = ba.capacity
  · rw [if_pos hend] at hcur ⊢
    rw [cursor, hcur, Option.getD_none, List.drop_length]
    rfl
  · have hlength := h.length_drop_cursor
    have hle := h.position_le.trans h.size_le
    obtain ⟨node, nodes, hnodes⟩ : ∃ node nodes, ba.nodes.drop ba.cursor = node :: nodes := by
      refine List.exists_cons_of_ne_nil fun hnil ↦ ?_
      rw [hnil, List.length_nil, Nat.zero_mul] at hlength
      omega
    have hsame : ba.node ba.cursor = ba.cur := by
      rw [hcur, h.cursor_eq, h.node_div hle]
    rw [if_neg hend, hnodes, readLoop, if_pos rfl]
    simp only [Nat.add_zero, hsame]

/-- Behind the content but inside the capacity, what lies between becomes content. -/
theorem Inv.seek (h : ba.Inv) {v : ℕ} (hv : v ≤ ba.capacity) :
    ByteArray.setPosition v ba = .ok () { ba.moveTo v with size := max ba.size v } ∧
      Inv { ba.moveTo v with size := max ba.size v } := by
  have hseek := seekLoop_spec h.baseSize_pos h.chunked h.nodes_ne (h.capacity_eq ▸ hv)
  constructor
  · rw [ByteArray.setPosition, if_neg (by omega)]
    simp only [hseek]
    rfl
  · exact ⟨h.baseSize_pos, h.nodes_ne, h.chunked, h.capacity_eq, Nat.le_max_right ..,
      Nat.max_le.mpr ⟨h.size_le, hv⟩, h.node_div hv⟩

theorem Inv.setPosition (h : ba.Inv) {v : ℕ} (hv : v ≤ ba.size) :
    ByteArray.setPosition v ba = .ok () (ba.moveTo v) := by
  rw [(h.seek (hv.trans h.size_le)).1, Nat.max_eq_left hv]
  rfl

namespace Refines

variable (h : Refines b e ba flat)

include h

theorem size_eq : flat.size = ba.size := by
  rw [FlatBuffer.size, h.data, List.length_take, h.inv.length_flatten]
  exact Nat.min_eq_left h.inv.size_le

theorem readSize_eq : flat.readSize = ba.getReadSize := by
  rw [FlatBuffer.readSize, getReadSize, h.size_eq, h.position]

theorem rest_eq : flat.rest = (ba.nodes.flatten.drop ba.position).take ba.getReadSize := by
  rw [FlatBuffer.rest, h.data, h.position, List.drop_take, getReadSize]

theorem write (buf : List Byte) :
    ∃ ba', ByteArray.write buf ba = .ok () ba' ∧ Refines b e ba' (flat.write buf) := by
  obtain ⟨ba', hwrite, hinv, htight, hsame⟩ := h.inv.write buf
  refine ⟨ba', hwrite, hinv, htight h.tight, ?_, ?_, ?_, ?_⟩
  · rw [hsame.baseSize, h.baseSize]
  · rw [hsame.endian, h.endian]
  · rw [hsame.contents, ← h.data, ← h.position]
    rfl
  · rw [hsame.position, ← h.position]
    rfl

theorem moveTo {p : ℕ} (hp : p ≤ flat.size) : Refines b e (ba.moveTo p) (flat.seek p) where
  inv := h.inv.moveTo (h.size_eq ▸ hp)
  tight := h.tight
  baseSize := h.baseSize
  endian := h.endian
  data := h.data
  position := Nat.min_eq_left hp

theorem read {n : ℕ} (hn : 0 < n) (hle : n ≤ flat.readSize) :
    ∃ ba', ByteArray.read n ba = .ok (flat.rest.take n) ba' ∧ Refines b e ba' (flat.skip n) := by
  have hread : n ≤ ba.getReadSize := h.readSize_eq ▸ hle
  have hend : flat.position + n ≤ flat.size := by
    have := flat.position_le
    rw [FlatBuffer.readSize] at hle
    omega
  refine ⟨ba.moveTo (flat.position + n), ?_, h.moveTo hend⟩
  rw [h.inv.read hn hread, h.rest_eq, List.take_take, Nat.min_eq_left hread, h.position]

theorem read_outOfRange {n : ℕ} (hlt : flat.readSize < n) :
    ByteArray.read n ba = .error .outOfRange ba :=
  if_pos (h.readSize_eq ▸ hlt)

theorem read_zero : ByteArray.read 0 ba =
    if ba.position = ba.capacity then .error .nullNode ba else .ok [] ba :=
  h.inv.read_zero

theorem setPosition {v : ℕ} (hv : v ≤ flat.size) :
    ∃ ba', ByteArray.setPosition v ba = .ok () ba' ∧ Refines b e ba' (flat.seek v) :=
  ⟨_, h.inv.setPosition (h.size_eq ▸ hv), h.moveTo hv⟩

theorem clear : Refines b e ba.clear .empty where
  inv := {
    baseSize_pos := h.inv.baseSize_pos
    nodes_ne := by simpa [ByteArray.clear] using h.inv.nodes_ne
    chunked := h.inv.chunked.take 1
    capacity_eq := by
      have hpos := List.length_pos_iff.mpr h.inv.nodes_ne
      have hone : (ba.nodes.take 1).length = 1 := List.length_take_of_le hpos
      change ba.baseSize = (ba.nodes.take 1).length * ba.baseSize
      rw [hone, Nat.one_mul]
    position_le := Nat.le_refl 0
    size_le := Nat.zero_le _
    cur_eq := by
      have hne : 0 ≠ ba.baseSize := (Nat.ne_of_gt h.inv.baseSize_pos).symm
      simp [ByteArray.clear, hne] }
  tight := .inl (List.length_take_of_le (List.length_pos_iff.mpr h.inv.nodes_ne))
  baseSize := h.baseSize
  endian := h.endian
  data := List.take_zero.symm
  position := rfl

end Refines

theorem Refines.create {b : ℕ} (hb : 1 ≤ b) : Refines b .big (create b) .empty where
  inv := {
    baseSize_pos := hb
    nodes_ne := List.cons_ne_nil _ _
    chunked := fun node hnode ↦ by
      rw [List.mem_singleton.mp hnode, List.length_replicate]
      rfl
    capacity_eq := (Nat.one_mul b).symm
    position_le := Nat.le_refl 0
    size_le := Nat.zero_le _
    cur_eq := by
      have hne : 0 ≠ b := (Nat.ne_of_gt hb).symm
      simp [ByteArray.create, hne] }
  tight := .inl rfl
  baseSize := rfl
  endian := rfl
  data := List.take_zero.symm
  position := rfl

theorem Refines.setIsLittleEndian (h : Refines b e ba flat) (val : Bool) :
    Refines b (if val then .little else .big) (ba.setIsLittleEndian val) flat where
  inv := ⟨h.inv.baseSize_pos, h.inv.nodes_ne, h.inv.chunked, h.inv.capacity_eq, h.inv.position_le,
    h.inv.size_le, h.inv.cur_eq⟩
  tight := h.tight
  baseSize := h.baseSize
  endian := rfl
  data := h.data
  position := h.position

end Operations

end ByteArray

/-! ### Sequences of operations -/

inductive ByteArrayOp
  | write (buf : List Byte)
  | read (size : ℕ)
  | setPosition (v : ℕ)
  | clear

/-- What a caller sees of an operation: its result, and the getters after it. -/
structure ByteArrayView where
  result : Except ByteArrayError (List Byte)
  position : ℕ
  size : ℕ
  readSize : ℕ

namespace ByteArrayOp

def perform : ByteArrayOp → ByteArrayM (List Byte)
  | write buf => do
    ByteArray.write buf
    return []
  | read size => ByteArray.read size
  | setPosition v => do
    ByteArray.setPosition v
    return []
  | clear => fun ba ↦ .ok [] ba.clear

def observe (op : ByteArrayOp) (ba : ByteArray) : ByteArrayView × ByteArray :=
  match op.perform ba with
  | .ok bytes ba => (⟨.ok bytes, ba.position, ba.size, ba.getReadSize⟩, ba)
  | .error error ba => (⟨.error error, ba.position, ba.size, ba.getReadSize⟩, ba)

/-- The callers read at least one byte and do not set a position beyond the content. -/
def Allowed (ba : ByteArray) : ByteArrayOp → Prop
  | read size => 1 ≤ size
  | setPosition v => v ≤ ba.size
  | _ => True

def run : List ByteArrayOp → ByteArray → List ByteArrayView × ByteArray
  | [], ba => ([], ba)
  | op :: ops, ba =>
    let (view, ba) := op.observe ba
    let (views, ba) := run ops ba
    (view :: views, ba)

instance (ba : ByteArray) : ∀ op : ByteArrayOp, Decidable (op.Allowed ba)
  | write _ => instDecidableTrue
  | read size => Nat.decLe 1 size
  | setPosition v => Nat.decLe v ba.size
  | clear => instDecidableTrue

def AllowedRun : List ByteArrayOp → ByteArray → Prop
  | [], _ => True
  | op :: ops, ba => op.Allowed ba ∧ AllowedRun ops (op.observe ba).2

instance : ∀ (ops : List ByteArrayOp) (ba : ByteArray), Decidable (AllowedRun ops ba)
  | [], _ => instDecidableTrue
  | op :: ops, ba =>
    have := instDecidableAllowedRun ops (op.observe ba).2
    instDecidableAnd

/-! ### The reference -/

/-- The operation on a sequence of bytes, a position and a size. -/
def performFlat (flat : FlatBuffer Byte) :
    ByteArrayOp → Except ByteArrayError (List Byte) × FlatBuffer Byte
  | write buf => (.ok [], flat.write buf)
  | read size =>
    match flat.read size with
    | some (bytes, flat) => (.ok bytes, flat)
    | none => (.error .outOfRange, flat)
  | setPosition v => if v ≤ flat.size then (.ok [], flat.seek v) else (.error .outOfRange, flat)
  | clear => (.ok [], .empty)

def observeFlat (op : ByteArrayOp) (flat : FlatBuffer Byte) : ByteArrayView × FlatBuffer Byte :=
  let (result, flat) := op.performFlat flat
  (⟨result, flat.position, flat.size, flat.readSize⟩, flat)

def runFlat : List ByteArrayOp → FlatBuffer Byte → List ByteArrayView × FlatBuffer Byte
  | [], flat => ([], flat)
  | op :: ops, flat =>
    let (view, flat) := op.observeFlat flat
    let (views, flat) := runFlat ops flat
    (view :: views, flat)

section Refinement

variable {b : ℕ} {e : Endian} {ba : ByteArray} {flat : FlatBuffer Byte}

/-- An operation gives the caller the same view of a byte array and of the reference. -/
theorem observe_eq {op : ByteArrayOp} (h : ba.Refines b e flat) (ha : op.Allowed ba) :
    (op.observe ba).1 = (op.observeFlat flat).1 ∧
      (op.observe ba).2.Refines b e (op.observeFlat flat).2 := by
  have view : ∀ {ba' : ByteArray} {flat' : FlatBuffer Byte}, ba'.Refines b e flat' → ∀ result,
      (⟨result, ba'.position, ba'.size, ba'.getReadSize⟩ : ByteArrayView) =
        ⟨result, flat'.position, flat'.size, flat'.readSize⟩ := fun h' result ↦ by
    rw [h'.position, h'.size_eq, h'.readSize_eq]
  cases op with
  | write buf =>
    obtain ⟨ba', hwrite, h'⟩ := h.write buf
    have hperform : (ByteArrayOp.write buf).perform ba = .ok [] ba' := by
      change EStateM.bind (ByteArray.write buf) _ ba = _
      simp only [EStateM.bind, hwrite]
      rfl
    simp only [observe, hperform]
    exact ⟨view h' _, h'⟩
  | read size =>
    by_cases hle : size ≤ flat.readSize
    · obtain ⟨ba', hread, h'⟩ := h.read ha hle
      simp only [observe, perform, hread, observeFlat, performFlat, FlatBuffer.read, if_pos hle]
      exact ⟨view h' _, h'⟩
    · simp only [observe, perform, h.read_outOfRange (Nat.lt_of_not_le hle), observeFlat,
        performFlat, FlatBuffer.read, if_neg hle]
      exact ⟨view h _, h⟩
  | setPosition v =>
    have hv : v ≤ flat.size := h.size_eq ▸ ha
    obtain ⟨ba', hseek, h'⟩ := h.setPosition hv
    have hperform : (ByteArrayOp.setPosition v).perform ba = .ok [] ba' := by
      change EStateM.bind (ByteArray.setPosition v) _ ba = _
      simp only [EStateM.bind, hseek]
      rfl
    simp only [observe, hperform, observeFlat, performFlat, if_pos hv]
    exact ⟨view h' _, h'⟩
  | clear => exact ⟨view h.clear _, h.clear⟩

theorem Allowed.of_refines {b' : ℕ} {e' : Endian} {ba' : ByteArray} {op : ByteArrayOp}
    (ha : op.Allowed ba) (h : ba.Refines b e flat) (h' : ba'.Refines b' e' flat) :
    op.Allowed ba' := by
  cases op with
  | setPosition v =>
    change v ≤ ba'.size
    rw [← h'.size_eq, h.size_eq]
    exact ha
  | _ => exact ha

theorem run_eq {ops : List ByteArrayOp} (h : ba.Refines b e flat) (ha : AllowedRun ops ba) :
    (run ops ba).1 = (runFlat ops flat).1 ∧ (run ops ba).2.Refines b e (runFlat ops flat).2 := by
  induction ops generalizing ba flat with
  | nil => exact ⟨rfl, h⟩
  | cons op ops ih =>
    obtain ⟨hview, h'⟩ := observe_eq h ha.1
    obtain ⟨hviews, hend⟩ := ih h' ha.2
    exact ⟨List.cons_eq_cons.mpr ⟨hview, hviews⟩, hend⟩

theorem AllowedRun.of_refines {b' : ℕ} {e' : Endian} {ba' : ByteArray} {ops : List ByteArrayOp}
    (ha : AllowedRun ops ba) (h : ba.Refines b e flat) (h' : ba'.Refines b' e' flat) :
    AllowedRun ops ba' := by
  induction ops generalizing ba ba' flat with
  | nil => trivial
  | cons op ops ih =>
    have ha' := ha.1.of_refines h h'
    exact ⟨ha', ih ha.2 (observe_eq h ha.1).2 (observe_eq h' ha').2⟩

end Refinement

end ByteArrayOp

/-- A byte array shows its callers what the reference shows, with any size of its nodes. -/
theorem byteArrayRefinement {b b' : ℕ} (hb : 1 ≤ b) (hb' : 1 ≤ b') {ops : List ByteArrayOp}
    (hops : ByteArrayOp.AllowedRun ops (.create b)) :
    (ByteArrayOp.run ops (.create b)).1 = (ByteArrayOp.runFlat ops .empty).1 ∧
      (ByteArrayOp.run ops (.create b)).1 = (ByteArrayOp.run ops (.create b')).1 ∧
      (ByteArrayOp.run ops (.create b)).2.Inv := by
  have h := ByteArray.Refines.create hb
  have h' := ByteArray.Refines.create hb'
  obtain ⟨hviews, hend⟩ := ByteArrayOp.run_eq h hops
  obtain ⟨hviews', -⟩ := ByteArrayOp.run_eq h' (hops.of_refines h h')
  exact ⟨hviews, hviews.trans hviews'.symm, hend.inv⟩

/-- A write over four nodes, a read from the second on, a read that is too long, and an end. -/
def chunkedOps : List ByteArrayOp :=
  [.write [1, 2, 3, 4, 5, 6, 7], .setPosition 3, .read 3, .read 2, .clear, .write [8, 9], .read 1]

theorem byteArrayRefinement_chunkedOps :
    (ByteArrayOp.run chunkedOps (.create 2)).1 = (ByteArrayOp.runFlat chunkedOps .empty).1 ∧
      (ByteArrayOp.run chunkedOps (.create 2)).1 = (ByteArrayOp.run chunkedOps (.create 5)).1 ∧
      (ByteArrayOp.run chunkedOps (.create 2)).2.Inv :=
  byteArrayRefinement (by decide) (by decide) (by decide +kernel)

end Rsylar
