import Mathlib.Tactic.Ring
import Rsylar.Sylar.ByteArrayBuffers

/-!
# A byte array in a file

`writeToFile` writes the nodes from the one of the position on, and computes from the position and
from what is left how much of a node to write: the offset in the node is taken from the size of the
piece also when the piece is the last one. So a piece that begins inside a node is right only when
it is followed by a whole node at least; else the loop goes on with a rest that never becomes zero.

`readFromFile` reads blocks of the base size and writes them. The files can be opened. The file of a
base size, a position and a size is right for all contents under a condition on the three numbers
(`writtenFile`).
-/

set_option autoImplicit false
set_option relaxedAutoImplicit false

namespace Rsylar

open FlatBuffer

structure OFStream where
  bytes : List Byte := []
  bad : Bool := false
deriving DecidableEq

/-- `ofs.write` of `len` bytes from `diff` on of a node, undefined when they are not all bytes of the
node. A negative length is an error of the stream, which takes nothing any more. -/
def OFStream.write (ofs : OFStream) (node : List Byte) (diff len : ℤ) : Option OFStream :=
  if ofs.bad = true ∨ len = 0 then some ofs
  else if len < 0 then some { ofs with bad := true }
  else if 0 ≤ diff ∧ diff + len ≤ node.length then
    some { ofs with bytes := ofs.bytes ++ (node.drop diff.toNat).take len.toNat }
  else none

namespace ByteArray

/-- `int diff`, as `pos` does not become negative. -/
def offsetInt (b : ℕ) (pos : ℤ) : ℤ := (BitVec.ofNat 32 (pos.toNat % b)).toInt

/-- The size of a piece. -/
def pieceLen (b : ℕ) (pos readSize : ℤ) : ℤ :=
  (if (b : ℤ) < readSize then (b : ℤ) else readSize) - offsetInt b pos

/-- The loop of `writeToFile` over the nodes from `m_cur` on. -/
def writeFileLoop (b : ℕ) : List (List Byte) → ℤ → ℤ → OFStream → Option OFStream
  | [], _, readSize, ofs => if 0 < readSize then none else some ofs
  | node :: nodes, pos, readSize, ofs =>
    if 0 < readSize then
      let len := pieceLen b pos readSize
      match ofs.write node (offsetInt b pos) len with
      | some ofs => writeFileLoop b nodes (pos + len) (readSize - len) ofs
      | none => none
    else some ofs

/-- The file that `writeToFile` writes. What is undefined ends in the error of a null node. -/
def writeToFile : ByteArrayM (List Byte) := fun ba ↦
  match writeFileLoop ba.baseSize (ba.nodes.drop ba.cursor) ba.position ba.getReadSize {} with
  | some ofs => .ok ofs.bytes ba
  | none => .error .nullNode ba

/-- The loop of `readFromFile` for at most `fuel` blocks; the bytes are those not yet read. -/
def readFileLoop : ℕ → List Byte → ByteArrayM Unit
  | 0, _ => return
  | fuel + 1, file => do
    let base := (← get).baseSize
    write (file.take base)
    -- the end of the file is seen by a read that gets less than it asks for
    if file.length < base then return
    readFileLoop fuel (file.drop base)

def readFromFile (file : List Byte) : ByteArrayM Unit := readFileLoop (file.length + 1) file

def toString : ByteArrayM (List Byte) := fun ba ↦
  if ba.getReadSize = 0 then .ok [] ba else readAt ba.getReadSize ba.position ba

/-- What a byte array shows of a file it has read. -/
def fileString (file : List Byte) : ByteArrayM (List Byte) := do
  readFromFile file
  setPosition 0
  toString

/-! ### Reading a file -/

section Reading

variable {ba : ByteArray}

theorem Inv.readFileLoop (h : ba.Inv) {fuel : ℕ} {file : List Byte} (hfuel : file.length < fuel)
    (hend : ba.position = ba.size) :
    ∃ ba', readFileLoop fuel file ba = .ok () ba' ∧ ba'.Inv ∧
      ba'.contents = ba.contents ++ file := by
  induction fuel generalizing ba file with
  | zero => omega
  | succ fuel ih =>
    obtain ⟨ba₁, hwrite, h₁, -, hlaid⟩ := h.write (file.take ba.baseSize)
    have hbase := h.baseSize_pos
    have hlength : ba.contents.length = ba.position := by
      have := h.length_flatten
      have := h.size_le
      rw [contents, List.length_take]
      omega
    have hcontents : ba₁.contents = ba.contents ++ file.take ba.baseSize := by
      rw [contents, hlaid.contents, ← contents, ← hlength, overlay_length]
    have hloop : ByteArray.readFileLoop (fuel + 1) file ba =
        if file.length < ba.baseSize then .ok () ba₁
        else ByteArray.readFileLoop fuel (file.drop ba.baseSize) ba₁ := by
      change (ByteArray.write (file.take ba.baseSize) >>= fun _ ↦ _ : ByteArrayM Unit) ba = _
      rw [bind_of_ok hwrite]
      split <;> rfl
    rw [hloop]
    by_cases hlast : file.length < ba.baseSize
    · rw [List.take_of_length_le (Nat.le_of_lt hlast)] at hcontents
      exact ⟨ba₁, if_pos hlast, h₁, hcontents⟩
    · have hfuel' : (file.drop ba.baseSize).length < fuel := by
        rw [List.length_drop]
        omega
      have hend₁ : ba₁.position = ba₁.size := by
        rw [hlaid.position, hlaid.size]
        omega
      obtain ⟨ba₂, hrest, h₂, hcontents₂⟩ := ih h₁ hfuel' hend₁
      rw [hcontents, List.append_assoc, List.take_append_drop] at hcontents₂
      exact ⟨ba₂, (if_neg hlast).trans hrest, h₂, hcontents₂⟩

theorem Inv.toString (h : ba.Inv) (hsize : ba.size < 2 ^ 64) :
    toString ba = .ok (ba.contents.drop ba.position) ba := by
  have hle := h.size_le
  have hposition := h.position_le
  have hall := h.length_flatten
  have hlength : (ba.contents.drop ba.position).length = ba.getReadSize := by
    rw [contents, List.length_drop, List.length_take, getReadSize]
    omega
  rw [ByteArray.toString]
  by_cases hzero : ba.getReadSize = 0
  · rw [if_pos hzero, List.eq_nil_of_length_eq_zero (hlength.trans hzero)]
  · have hfit : ba.position + ba.getReadSize ≤ ba.size := by
      rw [getReadSize]
      omega
    rw [getReadSize] at hzero
    rw [if_neg (by rwa [getReadSize]), h.readAt hfit (by omega) hsize,
      List.take_of_length_le (Nat.le_of_eq hlength)]

/-- A file comes back from any byte array that is new. -/
theorem fileString_create {b : ℕ} (hb : 1 ≤ b) {file : List Byte} (hfile : file.length < 2 ^ 64) :
    ∃ ba, fileString file (create b) = .ok file ba := by
  have hnew := (Refines.create hb).inv
  obtain ⟨ba₁, hread, h₁, hcontents⟩ := hnew.readFileLoop (Nat.lt_succ_self file.length) rfl
  have hempty : (create b).contents = [] := List.take_zero
  rw [hempty, List.nil_append] at hcontents
  have hall := h₁.length_flatten
  have hle := h₁.size_le
  have hsize : ba₁.size = file.length := by
    have hlength := congrArg List.length hcontents
    rw [contents, List.length_take] at hlength
    omega
  have hseek := h₁.setPosition (Nat.zero_le ba₁.size)
  have hstring := (h₁.moveTo (Nat.zero_le ba₁.size)).toString (by rw [← hsize] at hfile; exact hfile)
  refine ⟨ba₁.moveTo 0, (bind_of_ok hread).trans ((bind_of_ok hseek).trans ?_)⟩
  rw [hstring]
  exact congrArg (EStateM.Result.ok · _) hcontents

end Reading

/-! ### Writing a file -/

section Writing

variable {b : ℕ} {nodes : List (List Byte)} {ofs ofs' : OFStream}

theorem offsetInt_of_lt {pos : ℕ} (h : pos % b < 2 ^ 31) : offsetInt b pos = (pos % b : ℕ) := by
  have hlow : (BitVec.ofNat 32 (pos % b)).toNat = pos % b := by
    rw [BitVec.toNat_ofNat]
    omega
  rw [offsetInt, Int.toNat_natCast, BitVec.toInt_eq_toNat_of_lt (by omega), hlow]

theorem offsetInt_lt (pos : ℤ) : offsetInt b pos < 2 ^ 31 := by
  have hlt := BitVec.two_mul_toInt_lt (x := BitVec.ofNat 32 (pos.toNat % b))
  rw [offsetInt]
  omega

theorem write_piece {bytes node : List Byte} {diff len : ℕ} (hlen : 0 < len)
    (hle : diff + len ≤ node.length) :
    OFStream.write ⟨bytes, false⟩ node diff len =
      some ⟨bytes ++ (node.drop diff).take len, false⟩ := by
  rw [OFStream.write, if_neg (by simp only [Bool.false_eq_true, false_or]; omega),
    if_neg (by omega), if_pos (by omega)]
  simp only [Int.toNat_natCast]

theorem writeFileLoop_done (pos : ℤ) : writeFileLoop b nodes pos 0 ofs = some ofs := by
  cases nodes with
  | nil => rfl
  | cons node nodes => rfl

/-- From the beginning of a node on the loop writes node by node. -/
theorem writeFileLoop_aligned (hb : 1 ≤ b) (h : Chunked b nodes) {pos readSize : ℕ}
    (hpos : pos % b = 0) (hfit : readSize ≤ nodes.length * b) (bytes : List Byte) :
    writeFileLoop b nodes pos readSize ⟨bytes, false⟩ =
      some ⟨bytes ++ nodes.flatten.take readSize, false⟩ := by
  induction nodes generalizing pos readSize bytes with
  | nil =>
    obtain rfl : readSize = 0 := by simpa using hfit
    rw [List.take_zero, List.append_nil]
    rfl
  | cons node nodes ih =>
    obtain ⟨hnode, hnodes⟩ := List.forall_mem_cons.mp h
    rw [List.length_cons, Nat.add_mul, Nat.one_mul] at hfit
    by_cases hzero : readSize = 0
    · rw [hzero, List.take_zero, List.append_nil]
      exact writeFileLoop_done pos
    · have hoffset := offsetInt_of_lt (by omega : pos % b < 2 ^ 31)
      have hlen : pieceLen b pos readSize = (min b readSize : ℕ) := by
        rw [pieceLen, hoffset, hpos]
        split <;> omega
      have hnext : ((pos : ℤ) + (min b readSize : ℕ)) = (pos + min b readSize : ℕ) := by omega
      have hleft : ((readSize : ℤ) - (min b readSize : ℕ)) = (readSize - min b readSize : ℕ) := by
        omega
      rw [hpos] at hoffset
      rw [writeFileLoop, if_pos (by omega)]
      simp only [hlen, hoffset]
      rw [write_piece (by omega) (by omega), List.drop_zero, hnext, hleft]
      by_cases hlast : readSize ≤ b
      · rw [Nat.min_eq_right hlast, Nat.sub_self, List.flatten_cons,
          List.take_append_of_le_length (by omega)]
        exact writeFileLoop_done _
      · have hb' : b ≤ readSize := by omega
        have hpos' : (pos + b) % b = 0 := by rw [Nat.add_mod_right, hpos]
        rw [Nat.min_eq_left hb', List.take_of_length_le (Nat.le_of_eq hnode)]
        simp only
        rw [ih hnodes hpos' (by omega), List.append_assoc, List.flatten_cons, List.take_append,
          hnode, List.take_of_length_le (hnode.trans_le hb')]

/-- From inside a node on the loop writes the rest of the node first, when that is not all. -/
theorem writeFileLoop_inside (hb : 1 ≤ b) (h : Chunked b nodes) {pos readSize : ℕ}
    (hoffset : pos % b < 2 ^ 31) (hwhole : b ≤ readSize)
    (hfit : pos % b + readSize ≤ nodes.length * b) :
    writeFileLoop b nodes pos readSize {} =
      some ⟨(nodes.flatten.drop (pos % b)).take readSize, false⟩ := by
  cases nodes with
  | nil =>
    rw [List.length_nil, Nat.zero_mul] at hfit
    omega
  | cons node nodes =>
    obtain ⟨hnode, hnodes⟩ := List.forall_mem_cons.mp h
    have hmod := Nat.mod_lt pos hb
    rw [List.length_cons, Nat.add_mul, Nat.one_mul] at hfit
    have hdiff := offsetInt_of_lt hoffset
    have hlen : pieceLen b pos readSize = (b - pos % b : ℕ) := by
      rw [pieceLen, hdiff]
      split <;> omega
    have hnext : ((pos : ℤ) + (b - pos % b : ℕ)) = (pos + (b - pos % b) : ℕ) := by omega
    have hleft : ((readSize : ℤ) - (b - pos % b : ℕ)) = (readSize - (b - pos % b) : ℕ) := by omega
    have hpos : (pos + (b - pos % b)) % b = 0 := by
      have hsum : pos + (b - pos % b) = b * (pos / b) + b := by
        have := Nat.div_add_mod pos b
        omega
      rw [hsum, Nat.add_mod_right, Nat.mul_mod_right]
    have hrest : (node.drop (pos % b)).length = b - pos % b := by
      rw [List.length_drop, hnode]
    rw [writeFileLoop, if_pos (by omega)]
    simp only [hlen, hdiff]
    rw [write_piece (by omega) (by omega), hnext, hleft]
    simp only
    rw [writeFileLoop_aligned hb hnodes hpos (by omega), List.flatten_cons,
      List.drop_append_of_le_length (by omega), List.take_append, hrest,
      List.take_of_length_le (Nat.le_of_eq hrest),
      List.take_of_length_le (l := node.drop (pos % b)) (by omega), List.nil_append]

theorem writeFile_of_loop {ba : ByteArray} (hloop : writeFileLoop ba.baseSize
      (ba.nodes.drop ba.cursor) ba.position ba.getReadSize {} = some ofs) :
    writeToFile ba = .ok ofs.bytes ba := by
  rw [writeToFile, hloop]

/-- The file when the position is the beginning of a node, or a whole node is to be written. -/
theorem Inv.writeToFile {ba : ByteArray} (h : ba.Inv)
    (hoffset : ba.position % ba.baseSize < 2 ^ 31)
    (hwhole : ba.position % ba.baseSize = 0 ∨ ba.baseSize ≤ ba.getReadSize) :
    writeToFile ba = .ok (ba.contents.drop ba.position) ba := by
  have hposition := h.position_le
  have hsize := h.size_le
  have hroom := h.length_drop_cursor
  have hchunked := h.chunked.drop ba.cursor
  have hflat := h.flatten_drop (hposition.trans hsize)
  have hcontents : ba.contents.drop ba.position =
      (ba.nodes.flatten.drop ba.position).take ba.getReadSize := by
    rw [contents, List.drop_take, getReadSize]
  rw [← h.cursor_eq] at hflat
  rw [hcontents, ← hflat]
  have hread : ba.getReadSize ≤ ba.capacity - ba.position := by
    rw [getReadSize]
    omega
  by_cases haligned : ba.position % ba.baseSize = 0
  · rw [writeFile_of_loop (writeFileLoop_aligned h.baseSize_pos hchunked haligned (by omega) []),
      haligned, List.drop_zero]
    rfl
  · exact writeFile_of_loop (writeFileLoop_inside h.baseSize_pos hchunked hoffset
      (hwhole.resolve_left haligned) (by omega))

theorem Inv.writeToFile_end {ba : ByteArray} (h : ba.Inv) (hend : ba.position = ba.size) :
    ByteArray.writeToFile ba = .ok (ba.contents.drop ba.position) ba := by
  have hle := h.size_le
  have hlength : (ba.contents.drop ba.position).length = 0 := by
    rw [contents, List.length_drop, List.length_take]
    omega
  have hread : ba.getReadSize = 0 := by
    rw [getReadSize]
    omega
  have hloop : writeFileLoop ba.baseSize (ba.nodes.drop ba.cursor) ba.position ba.getReadSize {} =
      some {} := by
    rw [hread]
    exact writeFileLoop_done _
  rw [writeFile_of_loop hloop, List.eq_nil_of_length_eq_zero hlength]

/-! ### Where the file is wrong -/

theorem write_cases {node : List Byte} {diff len : ℤ}
    (hwrite : ofs.write node diff len = some ofs') :
    ofs'.bytes = ofs.bytes ∨ 0 ≤ diff ∧ 0 < len ∧
      ofs'.bytes = ofs.bytes ++ (node.drop diff.toNat).take len.toNat := by
  rw [OFStream.write] at hwrite
  split at hwrite
  · cases hwrite
    exact .inl rfl
  · split at hwrite
    · cases hwrite
      exact .inl rfl
    · split at hwrite
      · cases hwrite
        exact .inr ⟨by omega, by omega, rfl⟩
      · cases hwrite

/-- The loop writes bytes of the nodes. -/
theorem mem_writeFileLoop {pos readSize : ℤ}
    (hloop : writeFileLoop b nodes pos readSize ofs = some ofs') {x : Byte} (hx : x ∈ ofs'.bytes) :
    x ∈ ofs.bytes ∨ ∃ node ∈ nodes, x ∈ node := by
  induction nodes generalizing pos readSize ofs with
  | nil =>
    rw [writeFileLoop] at hloop
    split at hloop
    · cases hloop
    · cases hloop
      exact .inl hx
  | cons node nodes ih =>
    rw [writeFileLoop] at hloop
    split at hloop
    · dsimp only at hloop
      split at hloop
      · rename_i ofs₁ hwrite
        rcases ih hloop with hx₁ | ⟨node', hnode', hx'⟩
        · rcases write_cases hwrite with hsame | ⟨-, -, hbytes⟩
          · exact .inl (hsame ▸ hx₁)
          · rw [hbytes, List.mem_append] at hx₁
            exact hx₁.imp_right fun hpiece ↦
              ⟨node, List.mem_cons_self .., List.mem_of_mem_drop (List.mem_of_mem_take hpiece)⟩
        · exact .inr ⟨node', List.mem_cons_of_mem _ hnode', hx'⟩
      · cases hloop
    · cases hloop
      exact .inl hx

/-- The loop keeps what has been written. -/
theorem writeFileLoop_extends {pos readSize : ℤ}
    (hloop : writeFileLoop b nodes pos readSize ofs = some ofs') : ofs.bytes <+: ofs'.bytes := by
  induction nodes generalizing pos readSize ofs with
  | nil =>
    rw [writeFileLoop] at hloop
    split at hloop
    · cases hloop
    · cases hloop
      exact List.prefix_refl _
  | cons node nodes ih =>
    rw [writeFileLoop] at hloop
    split at hloop
    · dsimp only at hloop
      split at hloop
      · rename_i ofs₁ hwrite
        rcases write_cases hwrite with hsame | ⟨-, -, hbytes⟩
        · exact hsame ▸ ih hloop
        · exact (hbytes ▸ List.prefix_append ..).trans (ih hloop)
      · cases hloop
    · cases hloop
      exact List.prefix_refl _

end Writing

/-! ### A content that shows the error -/

/-- Zeros up to the size `s`, but for the byte `o` of the node of the position `p`. -/
def marked (b p s o : ℕ) : ByteArray where
  baseSize := b
  position := p
  capacity := (p / b + (s + 1)) * b
  size := s
  endian := .big
  nodes := List.replicate (p / b) (List.replicate b 0) ++
    ((List.replicate b 0).set o 1 :: List.replicate s (List.replicate b 0))
  cur := some (p / b)

section Marked

variable {b p s o : ℕ}

theorem marked_inv (hb : 1 ≤ b) (hp : p ≤ s) : (marked b p s o).Inv := by
  have hsplit := Nat.div_add_mod' p b
  have hmod := Nat.mod_lt p hb
  have hcapacity : (p / b + (s + 1)) * b = p / b * b + (s * b + b) := by ring
  have hmul : s ≤ s * b := Nat.le_mul_of_pos_right s hb
  refine ⟨hb, ?_, ?_, ?_, hp, ?_, ?_⟩
  · exact List.append_ne_nil_of_right_ne_nil _ (List.cons_ne_nil _ _)
  · intro node hnode
    rcases List.mem_append.mp hnode with hmem | hmem
    · rw [List.eq_of_mem_replicate hmem, List.length_replicate]
      rfl
    · rcases List.mem_cons.mp hmem with rfl | hmem
      · rw [List.length_set, List.length_replicate]
        rfl
      · rw [List.eq_of_mem_replicate hmem, List.length_replicate]
        rfl
  · simp only [marked, List.length_append, List.length_replicate, List.length_cons]
  · change s ≤ (p / b + (s + 1)) * b
    omega
  · have hne : p ≠ (p / b + (s + 1)) * b := by omega
    exact (if_neg hne).symm

theorem marked_nodes : (marked b p s o).nodes.drop (marked b p s o).cursor =
    (List.replicate b 0).set o 1 :: List.replicate s (List.replicate b 0) :=
  List.drop_left' List.length_replicate

/-- The one is where it has been put. -/
theorem marked_piece {diff len : ℕ}
    (h : 1 ∈ (((List.replicate b (0 : Byte)).set o 1).drop diff).take len) :
    diff ≤ o ∧ o < diff + len := by
  obtain ⟨i, hi, hget⟩ := List.getElem_of_mem h
  rw [List.getElem_take, List.getElem_drop, List.getElem_set] at hget
  have hlen := List.length_take_le len (((List.replicate b (0 : Byte)).set o 1).drop diff)
  split at hget
  · omega
  · rw [List.getElem_replicate] at hget
    exact absurd hget (by decide)

/-- The one is a byte that the file should have. -/
theorem marked_contents (hb : 1 ≤ b) (hp : p ≤ s) (ho : p % b ≤ o) (hob : o < b)
    (hos : o - p % b < s - p) :
    ((marked b p s o).contents.drop p)[o - p % b]? = some 1 := by
  have hinv := marked_inv (o := o) hb hp
  have hflat := hinv.flatten_drop (hinv.position_le.trans hinv.size_le)
  rw [← hinv.cursor_eq, marked_nodes, List.flatten_cons] at hflat
  have hcontents : (marked b p s o).contents.drop p =
      ((marked b p s o).nodes.flatten.drop p).take (s - p) := List.drop_take
  have hoff : p % b + (o - p % b) = o := by omega
  have hlen : o < ((List.replicate b (0 : Byte)).set o 1).length := by
    rw [List.length_set, List.length_replicate]
    exact hob
  change ((List.replicate b 0).set o 1 ++ _).drop (p % b) =
    (marked b p s o).nodes.flatten.drop p at hflat
  rw [hcontents, ← hflat, List.getElem?_take_of_lt hos, List.getElem?_drop, hoff,
    List.getElem?_append_left hlen, List.getElem?_eq_getElem hlen, List.getElem_set_self]

/-- The one comes into the file with the first piece or never. -/
theorem marked_loop {pos readSize : ℤ} {ofs : OFStream} (hread : 0 < readSize)
    (hloop : writeFileLoop b ((marked b p s o).nodes.drop (marked b p s o).cursor) pos readSize {} =
      some ofs) (hone : 1 ∈ ofs.bytes) :
    0 ≤ offsetInt b pos ∧ 0 < pieceLen b pos readSize ∧
      offsetInt b pos ≤ o ∧ o < offsetInt b pos + pieceLen b pos readSize ∧
      (((List.replicate b 0).set o 1).drop (offsetInt b pos).toNat).take
        (pieceLen b pos readSize).toNat <+: ofs.bytes := by
  rw [marked_nodes, writeFileLoop, if_pos hread] at hloop
  dsimp only at hloop
  split at hloop
  · rename_i ofs₁ hwrite
    rcases mem_writeFileLoop hloop hone with hone₁ | ⟨node, hnode, hone'⟩
    · rcases write_cases hwrite with hsame | ⟨hdiff, hlen, hbytes⟩
      · rw [hsame] at hone₁
        cases hone₁
      · rw [List.nil_append] at hbytes
        obtain ⟨hle, hlt⟩ := marked_piece (hbytes ▸ hone₁)
        exact ⟨hdiff, hlen, by omega, by omega, hbytes ▸ writeFileLoop_extends hloop⟩
    · rw [List.eq_of_mem_replicate hnode] at hone'
      exact absurd (List.eq_of_mem_replicate hone') (by decide)
  · cases hloop

theorem marked_file (hb : 1 ≤ b) (hps : p < s)
    (hwhole : ¬(p % b < 2 ^ 31 ∧ (p % b = 0 ∨ b ≤ s - p))) : ∃ o,
      writeToFile (marked b p s o) ≠ .ok ((marked b p s o).contents.drop p) (marked b p s o) := by
  have hmod := Nat.mod_lt p hb
  have loop : ∀ o, writeToFile (marked b p s o) =
      .ok ((marked b p s o).contents.drop p) (marked b p s o) → ∃ ofs : OFStream,
        writeFileLoop b ((marked b p s o).nodes.drop (marked b p s o).cursor) p (s - p : ℕ) {} =
          some ofs ∧ ofs.bytes = (marked b p s o).contents.drop p := by
    intro o hok
    rw [writeToFile] at hok
    split at hok
    · rename_i ofs hloop
      exact ⟨ofs, hloop, (EStateM.Result.ok.inj hok).1⟩
    · cases hok
  have hread : (0 : ℤ) < (s - p : ℕ) := by omega
  by_cases hoffset : p % b < 2 ^ 31
  · -- the piece ends before the offset `s - p`, and the loop does not come back to the node
    refine ⟨max (p % b) (s - p), fun hok ↦ ?_⟩
    obtain ⟨ofs, hloop, hbytes⟩ := loop _ hok
    have hone := marked_contents (o := max (p % b) (s - p)) hb (Nat.le_of_lt hps) (by omega)
      (by omega) (by omega)
    obtain ⟨-, hlen, -, hlt, -⟩ := marked_loop hread hloop (hbytes ▸ List.mem_of_getElem? hone)
    rw [pieceLen, offsetInt_of_lt hoffset] at hlt
    split at hlt <;> omega
  · -- the piece begins at another offset than it should
    refine ⟨p % b, fun hok ↦ ?_⟩
    obtain ⟨ofs, hloop, hbytes⟩ := loop _ hok
    have hone := marked_contents (o := p % b) hb (Nat.le_of_lt hps) (Nat.le_refl _) hmod (by omega)
    obtain ⟨hdiff, hlen, hle, -, hextends⟩ :=
      marked_loop hread hloop (hbytes ▸ List.mem_of_getElem? hone)
    have hlt := offsetInt_lt (b := b) (p : ℤ)
    have hin : (offsetInt b p).toNat < b := by omega
    have hne : p % b ≠ (offsetInt b p).toNat := by omega
    have hfirst : ((((List.replicate b (0 : Byte)).set (p % b) 1).drop (offsetInt b p).toNat).take
        (pieceLen b p (s - p : ℕ)).toNat)[0]? = some 0 := by
      rw [List.getElem?_take_of_lt (by omega), List.getElem?_drop, Nat.add_zero,
        List.getElem?_set_ne hne, List.getElem?_replicate, if_pos hin]
    obtain ⟨rest, hrest⟩ := hextends
    rw [← hbytes, ← hrest, Nat.sub_self, List.getElem?_append_left, hfirst] at hone
    · exact absurd (Option.some.inj hone) (by decide)
    · exact (List.getElem?_eq_some_iff.mp hfirst).1

end Marked

/-! ### The file of a byte array -/

/-- The file is the bytes that can be read, and shows in any new byte array what the byte array
shows. -/
def FileExact (ba : ByteArray) : Prop :=
  writeToFile ba = .ok (ba.contents.drop ba.position) ba ∧
    ∀ b, 1 ≤ b → ∃ bytes ba', toString ba = .ok bytes ba ∧
      fileString (ba.contents.drop ba.position) (create b) = .ok bytes ba'

/-- With nodes of `b` bytes, the `s - p` bytes from `p` on come into a file as they are, whatever
they are, when there are none, or an `int` holds the offset of `p` in its node and `p` is the
beginning of the node or a whole node is to be written. -/
theorem writtenFile {b p s : ℕ} (hb : 1 ≤ b) (hp : p ≤ s) (hs : s < 2 ^ 64) :
    (∀ ba : ByteArray, ba.Inv → ba.baseSize = b → ba.position = p → ba.size = s → ba.FileExact) ↔
      p = s ∨ p % b < 2 ^ 31 ∧ (p % b = 0 ∨ b ≤ s - p) := by
  constructor
  · intro hexact
    by_contra hwhole
    rw [not_or] at hwhole
    obtain ⟨o, hfile⟩ := marked_file hb (by omega) hwhole.2
    exact hfile (hexact (marked b p s o) (marked_inv hb hp) rfl rfl rfl).1
  · rintro hwhole ba h rfl rfl rfl
    have hlength : (ba.contents.drop ba.position).length ≤ ba.size := by
      rw [contents, List.length_drop, List.length_take]
      omega
    refine ⟨?_, fun b' hb' ↦ ?_⟩
    · rcases hwhole with hend | ⟨hoffset, hwhole⟩
      · exact h.writeToFile_end hend
      · exact h.writeToFile hoffset hwhole
    · obtain ⟨ba', hstring⟩ := fileString_create hb' (hlength.trans_lt hs)
      exact ⟨_, ba', h.toString hs, hstring⟩

theorem writtenFile_insideNode :
    (∀ ba : ByteArray, ba.Inv → ba.baseSize = 2 → ba.position = 3 → ba.size = 5 →
      ba.FileExact) ↔ 3 = 5 ∨ 3 % 2 < 2 ^ 31 ∧ (3 % 2 = 0 ∨ 2 ≤ 5 - 3) :=
  writtenFile (by decide) (by decide) (by decide)

/-- The second of the two bytes of a node is to be written. -/
def halfNode : ByteArray :=
  ⟨2, 1, 2, 2, .big, [[1, 2]], some 0⟩

example : (do write [1, 2]; setPosition 1) (create 2) = .ok () halfNode := rfl

theorem not_fileExact_halfNode : ¬halfNode.FileExact := by
  rintro ⟨hfile, -⟩
  have hnull : writeToFile halfNode = .error .nullNode halfNode := rfl
  rw [hnull] at hfile
  cases hfile

end ByteArray

end Rsylar
