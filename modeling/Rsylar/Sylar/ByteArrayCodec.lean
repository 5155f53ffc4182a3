import Mathlib.Tactic.Ring
import Rsylar.Sylar.ByteArrayRefinement

/-!
# Numbers in a byte array

A number is written with its width, in the byte order of the byte array, or in groups of seven bits,
the lowest first; a signed one is made unsigned before that by zigzag. Signed and unsigned numbers
are bit vectors. The byte order of the machine is a parameter.

Each reader reads what its writer has appended (`NumberKind.reads`), so a sequence of numbers comes
back as it was written (`numberRoundTrip`).
-/

set_option autoImplicit false
set_option relaxedAutoImplicit false

namespace Rsylar

open FlatBuffer

/-! ### The bytes of a number -/

/-- The `n` lowest bytes, the lowest first. -/
def littleBytes : ℕ → ℕ → List Byte
  | 0, _ => []
  | n + 1, v => BitVec.ofNat 8 v :: littleBytes n (v / 256)

def ofLittleBytes : List Byte → ℕ
  | [] => 0
  | b :: bytes => b.toNat + 256 * ofLittleBytes bytes

theorem length_littleBytes (n v : ℕ) : (littleBytes n v).length = n := by
  induction n generalizing v with
  | zero => rfl
  | succ n ih => exact congrArg (· + 1) (ih (v / 256))

theorem ofLittleBytes_littleBytes (n v : ℕ) : ofLittleBytes (littleBytes n v) = v % 256 ^ n := by
  induction n generalizing v with
  | zero => rw [Nat.pow_zero, Nat.mod_one]; rfl
  | succ n ih =>
    have hsplit : v % 256 ^ (n + 1) = v % 256 + 256 * (v / 256 % 256 ^ n) := by
      rw [Nat.pow_succ', Nat.mod_mul]
    rw [littleBytes, ofLittleBytes, ih, BitVec.toNat_ofNat, hsplit]

theorem littleBytes_ofLittleBytes {n : ℕ} {bytes : List Byte} (h : bytes.length = n) :
    littleBytes n (ofLittleBytes bytes) = bytes := by
  subst h
  induction bytes with
  | nil => rfl
  | cons b bytes ih =>
    have hb : b.toNat < 256 := b.isLt
    have hlow : BitVec.ofNat 8 (b.toNat + 256 * ofLittleBytes bytes) = b := by
      apply BitVec.eq_of_toNat_eq
      rw [BitVec.toNat_ofNat]
      omega
    have hhigh : (b.toNat + 256 * ofLittleBytes bytes) / 256 = ofLittleBytes bytes := by omega
    rw [List.length_cons, ofLittleBytes, littleBytes, hlow, hhigh, ih]

theorem ofLittleBytes_lt (bytes : List Byte) : ofLittleBytes bytes < 256 ^ bytes.length := by
  induction bytes with
  | nil => exact Nat.one_pos
  | cons b bytes ih =>
    have hb : b.toNat < 256 := b.isLt
    rw [ofLittleBytes, List.length_cons, Nat.pow_succ']
    omega

/-- The bytes of a number of `n` bytes in memory. -/
def memoryBytes (order : Endian) {n : ℕ} (v : BitVec (8 * n)) : List Byte :=
  match order with
  | .little => littleBytes n v.toNat
  | .big => (littleBytes n v.toNat).reverse

def ofMemoryBytes (order : Endian) (n : ℕ) (bytes : List Byte) : BitVec (8 * n) :=
  match order with
  | .little => BitVec.ofNat (8 * n) (ofLittleBytes bytes)
  | .big => BitVec.ofNat (8 * n) (ofLittleBytes bytes.reverse)

def byteswap {n : ℕ} (v : BitVec (8 * n)) : BitVec (8 * n) :=
  ofMemoryBytes .little n (memoryBytes .big v)

section Memory

variable {n : ℕ} (v : BitVec (8 * n))

theorem pow_bytes (n : ℕ) : (256 : ℕ) ^ n = 2 ^ (8 * n) := by
  rw [Nat.pow_mul]

@[simp]
theorem length_memoryBytes (order : Endian) : (memoryBytes order v).length = n := by
  cases order with
  | little => exact length_littleBytes ..
  | big => exact List.length_reverse.trans (length_littleBytes ..)

theorem memoryBytes_big : memoryBytes .big v = (memoryBytes .little v).reverse := rfl

theorem ofMemoryBytes_memoryBytes (order : Endian) :
    ofMemoryBytes order n (memoryBytes order v) = v := by
  have hlittle : BitVec.ofNat (8 * n) (ofLittleBytes (littleBytes n v.toNat)) = v := by
    rw [ofLittleBytes_littleBytes, pow_bytes, Nat.mod_eq_of_lt v.isLt, BitVec.ofNat_toNat,
      BitVec.setWidth_eq]
  cases order with
  | little => exact hlittle
  | big => rw [ofMemoryBytes, memoryBytes, List.reverse_reverse, hlittle]

theorem memoryBytes_ofMemoryBytes {bytes : List Byte} (h : bytes.length = n) :
    memoryBytes .little (ofMemoryBytes .little n bytes) = bytes := by
  have hlt := ofLittleBytes_lt bytes
  rw [h, pow_bytes] at hlt
  rw [memoryBytes, ofMemoryBytes, BitVec.toNat_ofNat, Nat.mod_eq_of_lt hlt,
    littleBytes_ofLittleBytes h]

theorem byteswap_byteswap : byteswap (byteswap v) = v := by
  have hswap : memoryBytes .little (byteswap v) = memoryBytes .big v :=
    memoryBytes_ofMemoryBytes (length_memoryBytes v .big)
  rw [byteswap, memoryBytes_big, hswap, memoryBytes_big, List.reverse_reverse,
    ofMemoryBytes_memoryBytes]

end Memory

/-! ### Zigzag and groups of seven bits -/

def encodeZigzag {w : ℕ} (v : BitVec w) : BitVec w :=
  if v.toInt < 0 then -v * 2 - 1 else v * 2

def decodeZigzag {w : ℕ} (v : BitVec w) : BitVec w := (v >>> 1) ^^^ -(v &&& 1)

/-- The bytes that `writeUint32` and `writeUint64` put in `tmp`. -/
def encodeUint {w : ℕ} (value : BitVec w) : List Byte :=
  if 0x80 ≤ value.toNat then
    ((value &&& 0x7f) ||| 0x80).setWidth 8 :: encodeUint (value >>> 7)
  else [value.setWidth 8]
termination_by value.toNat
decreasing_by
  rw [BitVec.toNat_ushiftRight, Nat.shiftRight_eq_div_pow]
  exact Nat.div_lt_self (by omega) (by decide)

section Zigzag

variable {w : ℕ} {v : BitVec w}

theorem toNat_literal (n : ℕ) (h : n < 2 ^ w) : (BitVec.ofNat w n).toNat = n := by
  rw [BitVec.toNat_ofNat, Nat.mod_eq_of_lt h]

theorem toNat_encodeZigzag_of_neg (hw : 2 ≤ w) (h : v.toInt < 0) :
    (encodeZigzag v).toNat = 2 * (2 ^ w - v.toNat) - 1 := by
  have hfour : 2 ^ 2 ≤ 2 ^ w := Nat.pow_le_pow_right Nat.two_pos hw
  have hge := BitVec.toInt_neg_iff.mp h
  have hlt := v.isLt
  rw [encodeZigzag, if_pos h, BitVec.toNat_sub, BitVec.toNat_mul, BitVec.toNat_neg]
  have hone : (1 : BitVec w).toNat = 1 := toNat_literal 1 (by omega)
  have htwo : (2 : BitVec w).toNat = 2 := toNat_literal 2 (by omega)
  have hneg : (2 ^ w - v.toNat) % 2 ^ w = 2 ^ w - v.toNat := Nat.mod_eq_of_lt (by omega)
  have hsum : 2 ^ w - 1 + (2 ^ w - v.toNat) * 2 = 2 * (2 ^ w - v.toNat) - 1 + 2 ^ w := by omega
  rw [hone, htwo, hneg, Nat.add_mod_mod, hsum, Nat.add_mod_right, Nat.mod_eq_of_lt (by omega)]

theorem toNat_encodeZigzag_of_nonneg (hw : 2 ≤ w) (h : ¬v.toInt < 0) :
    (encodeZigzag v).toNat = 2 * v.toNat := by
  have hfour : 2 ^ 2 ≤ 2 ^ w := Nat.pow_le_pow_right Nat.two_pos hw
  rw [BitVec.toInt_neg_iff] at h
  have htwo : (2 : BitVec w).toNat = 2 := toNat_literal 2 (by omega)
  rw [encodeZigzag, if_neg (by rwa [BitVec.toInt_neg_iff]), BitVec.toNat_mul, htwo, Nat.mul_comm,
    Nat.mod_eq_of_lt (by omega)]

theorem toNat_and_one (hw : 2 ≤ w) : (v &&& 1).toNat = v.toNat % 2 := by
  have hfour : 2 ^ 2 ≤ 2 ^ w := Nat.pow_le_pow_right Nat.two_pos hw
  have hone : (1 : BitVec w).toNat = 1 := toNat_literal 1 (by omega)
  rw [BitVec.toNat_and, hone, Nat.and_one_is_mod]

theorem decodeZigzag_encodeZigzag (hw : 2 ≤ w) (v : BitVec w) :
    decodeZigzag (encodeZigzag v) = v := by
  have hlt := v.isLt
  have hfour : 2 ^ 2 ≤ 2 ^ w := Nat.pow_le_pow_right Nat.two_pos hw
  apply BitVec.eq_of_toNat_eq
  by_cases hneg : v.toInt < 0
  · have henc := toNat_encodeZigzag_of_neg hw hneg
    have hge := BitVec.toInt_neg_iff.mp hneg
    have hodd : encodeZigzag v &&& 1 = 1#w := by
      apply BitVec.eq_of_toNat_eq
      rw [toNat_and_one hw, henc, toNat_literal 1 (by omega)]
      omega
    rw [decodeZigzag, hodd, BitVec.neg_one_eq_allOnes, BitVec.xor_allOnes, BitVec.toNat_not,
      BitVec.toNat_ushiftRight, henc, Nat.shiftRight_eq_div_pow]
    omega
  · have henc := toNat_encodeZigzag_of_nonneg hw hneg
    have heven : encodeZigzag v &&& 1 = 0#w := by
      apply BitVec.eq_of_toNat_eq
      rw [toNat_and_one hw, henc]
      simp
    rw [decodeZigzag, heven, BitVec.neg_zero, BitVec.xor_zero, BitVec.toNat_ushiftRight, henc,
      Nat.shiftRight_eq_div_pow]
    omega

end Zigzag

section Groups

variable {w : ℕ}

theorem toNat_ushiftRight_seven (value : BitVec w) : (value >>> 7).toNat = value.toNat / 128 := by
  rw [BitVec.toNat_ushiftRight, Nat.shiftRight_eq_div_pow]

theorem shift_lt {k : ℕ} {value : BitVec w} (h : value.toNat < 2 ^ (7 * (k + 1 + 1))) :
    (value >>> 7).toNat < 2 ^ (7 * (k + 1)) := by
  have hpow : 2 ^ (7 * (k + 1 + 1)) = 128 * 2 ^ (7 * (k + 1)) := by
    rw [Nat.mul_succ 7 (k + 1), Nat.pow_add, Nat.mul_comm]
  rw [toNat_ushiftRight_seven]
  exact Nat.div_lt_of_lt_mul (hpow ▸ h)

/-- Seven bits a byte: `tmp` has room for five bytes of 32 bits, and for ten of 64. -/
theorem length_encodeUint_le (k : ℕ) (value : BitVec w) (h : value.toNat < 2 ^ (7 * (k + 1))) :
    (encodeUint value).length ≤ k + 1 := by
  induction k generalizing value with
  | zero =>
    rw [encodeUint, if_neg (by simpa using h)]
    exact Nat.le_refl 1
  | succ k ih =>
    rw [encodeUint]
    split
    · exact Nat.succ_le_succ (ih (value >>> 7) (shift_lt h))
    · exact Nat.succ_le_succ (Nat.zero_le _)

theorem toNat_and_mask (value : BitVec w) (hw : 8 ≤ w) :
    (value &&& 0x7f).toNat = value.toNat % 128 := by
  have hpow : 2 ^ 8 ≤ 2 ^ w := Nat.pow_le_pow_right Nat.two_pos hw
  have hmask : (0x7f : BitVec w).toNat = 2 ^ 7 - 1 := toNat_literal 127 (by omega)
  rw [BitVec.toNat_and, hmask, Nat.and_two_pow_sub_one_eq_mod]

/-- A byte with the high bit. -/
theorem toNat_group (value : BitVec w) (hw : 8 ≤ w) :
    (((value &&& 0x7f) ||| 0x80).setWidth 8).toNat = value.toNat % 128 + 128 := by
  have hpow : 2 ^ 8 ≤ 2 ^ w := Nat.pow_le_pow_right Nat.two_pos hw
  have hbit : (0x80 : BitVec w).toNat = 2 ^ 7 := toNat_literal 128 (by omega)
  have hlow : value.toNat % 128 < 2 ^ 7 := Nat.mod_lt _ (by decide)
  have hor := Nat.two_pow_add_eq_or_of_lt hlow 1
  rw [BitVec.toNat_setWidth, BitVec.toNat_or, toNat_and_mask value hw, hbit, Nat.or_comm]
  rw [Nat.mul_one] at hor
  rw [← hor]
  omega

/-- The reader takes the high bit away. -/
theorem setWidth_group (value : BitVec w) (hw : 8 ≤ w) :
    (((value &&& 0x7f) ||| 0x80).setWidth 8 &&& 0x7f).setWidth w = value &&& 0x7f := by
  apply BitVec.eq_of_toNat_eq
  have hpow : 2 ^ 8 ≤ 2 ^ w := Nat.pow_le_pow_right Nat.two_pos hw
  rw [BitVec.toNat_setWidth, toNat_and_mask _ (Nat.le_refl 8), toNat_group value hw,
    toNat_and_mask value hw, Nat.mod_eq_of_lt (by omega)]
  omega

/-- The lowest group and the others make up the number, wherever it is shifted. -/
theorem or_group (value result : BitVec w) (i : ℕ) :
    result ||| ((value &&& 0x7f) <<< i) ||| ((value >>> 7) <<< (i + 7)) =
      result ||| (value <<< i) := by
  have hmask : ∀ k, (0x7f : BitVec w).getLsbD k = (decide (k < w) && decide (k < 7)) := fun k ↦ by
    change (BitVec.ofNat w (2 ^ 7 - 1)).getLsbD k = _
    rw [BitVec.getLsbD_ofNat, Nat.testBit_two_pow_sub_one]
  apply BitVec.eq_of_getLsbD_eq
  intro j hj
  simp only [BitVec.getLsbD_or, BitVec.getLsbD_shiftLeft, BitVec.getLsbD_and, hmask,
    BitVec.getLsbD_ushiftRight]
  by_cases hi : j < i
  · simp [hi, Nat.lt_add_right 7 hi]
  · by_cases hlow : j < i + 7
    · have hgroup : j - i < 7 := by omega
      have hw : j - i < w := by omega
      simp [hi, hlow, hgroup, hw]
    · have hgroup : ¬j - i < 7 := by omega
      have hsub : 7 + (j - (i + 7)) = j - i := by omega
      simp [hi, hlow, hgroup, hsub]

end Groups

namespace ByteArray

/-! ### Writers and readers -/

variable (order : Endian)

def writeFixed {n : ℕ} (value : BitVec (8 * n)) : ByteArrayM Unit := fun ba ↦
  write (memoryBytes order (if ba.endian ≠ order then byteswap value else value)) ba

def readFixed (n : ℕ) : ByteArrayM (BitVec (8 * n)) := do
  let v := ofMemoryBytes order n (← read n)
  let ba ← get
  return if ba.endian = order then v else byteswap v

def writeFint8 (value : BitVec 8) : ByteArrayM Unit := write (memoryBytes order (n := 1) value)
def writeFuint8 (value : BitVec 8) : ByteArrayM Unit := write (memoryBytes order (n := 1) value)
def writeFint16 (value : BitVec 16) : ByteArrayM Unit := writeFixed order (n := 2) value
def writeFuint16 (value : BitVec 16) : ByteArrayM Unit := writeFixed order (n := 2) value
def writeFint32 (value : BitVec 32) : ByteArrayM Unit := writeFixed order (n := 4) value
def writeFuint32 (value : BitVec 32) : ByteArrayM Unit := writeFixed order (n := 4) value
def writeFint64 (value : BitVec 64) : ByteArrayM Unit := writeFixed order (n := 8) value
def writeFuint64 (value : BitVec 64) : ByteArrayM Unit := writeFixed order (n := 8) value

def writeUint32 (value : BitVec 32) : ByteArrayM Unit := write (encodeUint value)
def writeInt32 (value : BitVec 32) : ByteArrayM Unit := writeUint32 (encodeZigzag value)
def writeUint64 (value : BitVec 64) : ByteArrayM Unit := write (encodeUint value)
def writeInt64 (value : BitVec 64) : ByteArrayM Unit := writeUint64 (encodeZigzag value)

def readFint8 : ByteArrayM (BitVec 8) := do return ofMemoryBytes order 1 (← read 1)
def readFuint8 : ByteArrayM (BitVec 8) := do return ofMemoryBytes order 1 (← read 1)
def readFint16 : ByteArrayM (BitVec 16) := readFixed order 2
def readFuint16 : ByteArrayM (BitVec 16) := readFixed order 2
def readFint32 : ByteArrayM (BitVec 32) := readFixed order 4
def readFuint32 : ByteArrayM (BitVec 32) := readFixed order 4
def readFint64 : ByteArrayM (BitVec 64) := readFixed order 8
def readFuint64 : ByteArrayM (BitVec 64) := readFixed order 8

/-- The loop of `readUint32` and `readUint64` over the values of `i`. -/
def readUint {w : ℕ} : List ℕ → BitVec w → ByteArrayM (BitVec w)
  | [], result => return result
  | i :: is, result => do
    let b ← readFuint8 order
    if b.toNat < 0x80 then return result ||| (b.setWidth w <<< i)
    else readUint is (result ||| ((b &&& 0x7f).setWidth w <<< i))

def readUint32 : ByteArrayM (BitVec 32) := readUint order [0, 7, 14, 21, 28] 0
def readInt32 : ByteArrayM (BitVec 32) := decodeZigzag <$> readUint32 order
def readUint64 : ByteArrayM (BitVec 64) :=
  readUint order [0, 7, 14, 21, 28, 35, 42, 49, 56, 63] 0
def readInt64 : ByteArrayM (BitVec 64) := decodeZigzag <$> readUint64 order

end ByteArray

/-! ### What the readers read -/

namespace ByteArray

variable {b : ℕ} {e : Endian} (order : Endian)

theorem appends_write (bytes : List Byte) : Appends (Refines b e) (write bytes) bytes () :=
  fun _ _ h _ ↦ h.write bytes

theorem reads_read {bytes : List Byte} {n : ℕ} (hbytes : bytes.length = n) (hn : 0 < n) :
    Reads (Refines b e) (read n) bytes bytes := by
  intro ba flat ys h hrest
  have hlength : n ≤ flat.readSize := by
    rw [← flat.length_rest, hrest, List.length_append, hbytes]
    exact Nat.le_add_right ..
  obtain ⟨ba', hread, h'⟩ := h.read hn hlength
  rw [hrest, List.take_left' hbytes] at hread
  exact ⟨ba', hread, hbytes.symm ▸ h'⟩

/-- The bytes that `writeFixed` writes. -/
def fixedBytes (e : Endian) {n : ℕ} (value : BitVec (8 * n)) : List Byte :=
  memoryBytes order (if e ≠ order then byteswap value else value)

theorem appends_writeFixed {n : ℕ} (value : BitVec (8 * n)) :
    Appends (Refines b e) (writeFixed order value) (fixedBytes order e value) () := by
  intro ba flat h hend
  obtain ⟨ba', hwrite, h'⟩ := h.write (fixedBytes order e value)
  refine ⟨ba', ?_, h'⟩
  rw [← hwrite, fixedBytes, ← h.endian]
  rfl

theorem reads_readFixed {n : ℕ} (hn : 0 < n) (value : BitVec (8 * n)) :
    Reads (Refines b e) (readFixed order n) (fixedBytes order e value) value := by
  have hlength : (fixedBytes order e value).length = n := length_memoryBytes ..
  rw [← List.append_nil (fixedBytes order e value)]
  refine (reads_read hlength hn).bind fun ba flat ys h hrest ↦ ⟨ba, ?_, flat.skip_zero.symm ▸ h⟩
  have hvalue : (if ba.endian = order then ofMemoryBytes order n (fixedBytes order e value)
      else byteswap (ofMemoryBytes order n (fixedBytes order e value))) = value := by
    rw [fixedBytes, ofMemoryBytes_memoryBytes, h.endian]
    by_cases hsame : e = order
    · simp [hsame]
    · simp [hsame, byteswap_byteswap]
  exact congrArg (EStateM.Result.ok · ba) hvalue

theorem reads_readFuint8 (value : BitVec 8) :
    Reads (Refines b e) (readFuint8 order) (memoryBytes order (n := 1) value) value := by
  have hread := (reads_read (b := b) (e := e) (length_memoryBytes (n := 1) value order)
    Nat.one_pos).map (ofMemoryBytes order 1)
  rw [ofMemoryBytes_memoryBytes] at hread
  exact hread

/-- One byte is the same in any order. -/
theorem memoryBytes_one (value : BitVec 8) : memoryBytes order (n := 1) value = [value] := by
  have hone : littleBytes 1 value.toNat = [value] := by
    rw [littleBytes, littleBytes, BitVec.ofNat_toNat, BitVec.setWidth_eq]
  cases order with
  | little => exact hone
  | big => exact congrArg List.reverse hone

section Groups

variable {w : ℕ}

/-- The loop ends at a byte without the high bit. -/
theorem reads_lastGroup (is : List ℕ) (i : ℕ) {value : BitVec w} (h : value.toNat < 0x80)
    (result : BitVec w) :
    Reads (Refines b e) (readUint order (i :: is) result) [value.setWidth 8]
      (result ||| (value <<< i)) := by
  have hlow : (value.setWidth 8).toNat = value.toNat := by
    rw [BitVec.toNat_setWidth, Nat.mod_eq_of_lt (by omega)]
  have hback : (value.setWidth 8).setWidth w = value := by
    apply BitVec.eq_of_toNat_eq
    rw [BitVec.toNat_setWidth, hlow, Nat.mod_eq_of_lt value.isLt]
  have hread := reads_readFuint8 (b := b) (e := e) order (value.setWidth 8)
  rw [memoryBytes_one] at hread
  rw [← List.append_nil [value.setWidth 8]]
  refine hread.bind ?_
  rw [if_pos (hlow.symm ▸ h), hback]
  exact Reads.pure _

/-- The loop goes on after a byte with the high bit. -/
theorem reads_group (hw : 8 ≤ w) {is : List ℕ} {i : ℕ} {bytes : List Byte}
    {value result final : BitVec w}
    (h : Reads (Refines b e) (readUint order is (result ||| ((value &&& 0x7f) <<< i))) bytes final) :
    Reads (Refines b e) (readUint order (i :: is) result)
      (((value &&& 0x7f) ||| 0x80).setWidth 8 :: bytes) final := by
  have hread := reads_readFuint8 (b := b) (e := e) order
    (((value &&& 0x7f) ||| 0x80).setWidth 8)
  have hhigh : ¬(((value &&& 0x7f) ||| 0x80).setWidth 8).toNat < 0x80 := by
    rw [toNat_group value hw]
    omega
  rw [memoryBytes_one] at hread
  rw [← List.singleton_append]
  refine hread.bind ?_
  rw [if_neg hhigh, setWidth_group value hw]
  exact h

/-- The loop reads the groups of a number that fits in the groups it has. -/
theorem reads_readUint (hw : 8 ≤ w) (k : ℕ) {i : ℕ} (value result : BitVec w)
    (h : value.toNat < 2 ^ (7 * (k + 1))) :
    Reads (Refines b e) (readUint order (List.range' i (k + 1) 7) result)
      (encodeUint value) (result ||| (value <<< i)) := by
  induction k generalizing value result i with
  | zero =>
    rw [encodeUint, if_neg (by simpa using h)]
    exact reads_lastGroup order [] i (by simpa using h) result
  | succ k ih =>
    rw [encodeUint, List.range'_succ]
    by_cases hhigh : 0x80 ≤ value.toNat
    · rw [if_pos hhigh]
      refine reads_group order hw ?_
      rw [← or_group value result i]
      exact ih (value >>> 7) _ (shift_lt h)
    · rw [if_neg hhigh]
      exact reads_lastGroup order _ i (Nat.lt_of_not_le hhigh) result

end Groups

theorem reads_readUint32 (value : BitVec 32) :
    Reads (Refines b e) (readUint32 order) (encodeUint value) value := by
  have hlt : value.toNat < 2 ^ (7 * (4 + 1)) := Nat.lt_of_lt_of_le value.isLt (by decide)
  have hread := reads_readUint (b := b) (e := e) order (by decide) 4 (i := 0) value 0#32 hlt
  rwa [BitVec.shiftLeft_zero, BitVec.zero_or] at hread

theorem reads_readUint64 (value : BitVec 64) :
    Reads (Refines b e) (readUint64 order) (encodeUint value) value := by
  have hlt : value.toNat < 2 ^ (7 * (9 + 1)) := Nat.lt_of_lt_of_le value.isLt (by decide)
  have hread := reads_readUint (b := b) (e := e) order (by decide) 9 (i := 0) value 0#64 hlt
  rwa [BitVec.shiftLeft_zero, BitVec.zero_or] at hread

theorem reads_readInt32 (value : BitVec 32) :
    Reads (Refines b e) (readInt32 order) (encodeUint (encodeZigzag value)) value := by
  have hread := (reads_readUint32 (b := b) (e := e) order (encodeZigzag value)).map decodeZigzag
  rwa [decodeZigzag_encodeZigzag (by decide)] at hread

theorem reads_readInt64 (value : BitVec 64) :
    Reads (Refines b e) (readInt64 order) (encodeUint (encodeZigzag value)) value := by
  have hread := (reads_readUint64 (b := b) (e := e) order (encodeZigzag value)).map decodeZigzag
  rwa [decodeZigzag_encodeZigzag (by decide)] at hread

end ByteArray

/-! ### Sequences of numbers -/

inductive NumberKind
  | fint8
  | fuint8
  | fint16
  | fuint16
  | fint32
  | fuint32
  | fint64
  | fuint64
  | int32
  | uint32
  | int64
  | uint64
deriving DecidableEq

namespace NumberKind

def width : NumberKind → ℕ
  | fint8 | fuint8 => 8
  | fint16 | fuint16 => 16
  | fint32 | fuint32 | int32 | uint32 => 32
  | fint64 | fuint64 | int64 | uint64 => 64

variable (order : Endian)

def write : (kind : NumberKind) → BitVec kind.width → ByteArrayM Unit
  | fint8 => ByteArray.writeFint8 order
  | fuint8 => ByteArray.writeFuint8 order
  | fint16 => ByteArray.writeFint16 order
  | fuint16 => ByteArray.writeFuint16 order
  | fint32 => ByteArray.writeFint32 order
  | fuint32 => ByteArray.writeFuint32 order
  | fint64 => ByteArray.writeFint64 order
  | fuint64 => ByteArray.writeFuint64 order
  | int32 => ByteArray.writeInt32
  | uint32 => ByteArray.writeUint32
  | int64 => ByteArray.writeInt64
  | uint64 => ByteArray.writeUint64

def read : (kind : NumberKind) → ByteArrayM (BitVec kind.width)
  | fint8 => ByteArray.readFint8 order
  | fuint8 => ByteArray.readFuint8 order
  | fint16 => ByteArray.readFint16 order
  | fuint16 => ByteArray.readFuint16 order
  | fint32 => ByteArray.readFint32 order
  | fuint32 => ByteArray.readFuint32 order
  | fint64 => ByteArray.readFint64 order
  | fuint64 => ByteArray.readFuint64 order
  | int32 => ByteArray.readInt32 order
  | uint32 => ByteArray.readUint32 order
  | int64 => ByteArray.readInt64 order
  | uint64 => ByteArray.readUint64 order

end NumberKind

/-- A number with the pair of functions that write and read it. -/
structure Number where
  kind : NumberKind
  value : BitVec kind.width

section Sequences

variable (order : Endian)

/-- The numbers that are written, each with the position after it. -/
def writeNumbers : List Number → ByteArrayM (List (Number × ℕ))
  | [] => return []
  | number :: numbers => do
    number.kind.write order number.value
    let ba ← get
    return (number, ba.position) :: (← writeNumbers numbers)

/-- The numbers that are read, each with the position after it. -/
def readNumbers : List NumberKind → ByteArrayM (List (Number × ℕ))
  | [] => return []
  | kind :: kinds => do
    let value ← kind.read order
    let ba ← get
    return (⟨kind, value⟩, ba.position) :: (← readNumbers kinds)

/-- What is written, what is read after `setPosition(0)`, and what can still be read then. -/
def numbersAgain (numbers : List Number) :
    ByteArrayM (List (Number × ℕ) × List (Number × ℕ) × ℕ) := do
  let written ← writeNumbers order numbers
  ByteArray.setPosition 0
  let read ← readNumbers order (numbers.map Number.kind)
  let ba ← get
  return (written, read, ba.getReadSize)

end Sequences

/-! ### The round trip -/

namespace NumberKind

variable {b : ℕ} {e : Endian} (order : Endian)

/-- What the writer of a number writes. -/
def bytes (e : Endian) : (kind : NumberKind) → BitVec kind.width → List Byte
  | fint8 | fuint8 => memoryBytes order (n := 1)
  | fint16 | fuint16 => ByteArray.fixedBytes order e (n := 2)
  | fint32 | fuint32 => ByteArray.fixedBytes order e (n := 4)
  | fint64 | fuint64 => ByteArray.fixedBytes order e (n := 8)
  | int32 | int64 => fun value ↦ encodeUint (encodeZigzag value)
  | uint32 | uint64 => encodeUint

theorem appends (kind : NumberKind) (value : BitVec kind.width) :
    Appends (ByteArray.Refines b e) (kind.write order value) (kind.bytes order e value) () := by
  cases kind with
  | fint8 | fuint8 => exact ByteArray.appends_write _
  | fint16 | fuint16 => exact ByteArray.appends_writeFixed order (n := 2) value
  | fint32 | fuint32 => exact ByteArray.appends_writeFixed order (n := 4) value
  | fint64 | fuint64 => exact ByteArray.appends_writeFixed order (n := 8) value
  | int32 | uint32 | int64 | uint64 => exact ByteArray.appends_write _

theorem reads (kind : NumberKind) (value : BitVec kind.width) :
    Reads (ByteArray.Refines b e) (kind.read order) (kind.bytes order e value) value := by
  cases kind with
  | fint8 | fuint8 => exact ByteArray.reads_readFuint8 order value
  | fint16 | fuint16 => exact ByteArray.reads_readFixed order (n := 2) (by decide) value
  | fint32 | fuint32 => exact ByteArray.reads_readFixed order (n := 4) (by decide) value
  | fint64 | fuint64 => exact ByteArray.reads_readFixed order (n := 8) (by decide) value
  | int32 => exact ByteArray.reads_readInt32 order value
  | uint32 => exact ByteArray.reads_readUint32 order value
  | int64 => exact ByteArray.reads_readInt64 order value
  | uint64 => exact ByteArray.reads_readUint64 order value

end NumberKind

section RoundTrip

variable {b : ℕ} {e : Endian} (order : Endian)

def Number.bytes (e : Endian) (number : Number) : List Byte :=
  number.kind.bytes order e number.value

/-- Each number with the position after it, from a position on. -/
def numberLog (e : Endian) : List Number → ℕ → List (Number × ℕ)
  | [], _ => []
  | number :: numbers, p =>
    (number, p + (number.bytes order e).length) ::
      numberLog e numbers (p + (number.bytes order e).length)

theorem map_fst_numberLog (numbers : List Number) (p : ℕ) :
    (numberLog order e numbers p).map Prod.fst = numbers := by
  induction numbers generalizing p with
  | nil => rfl
  | cons number numbers ih => rw [numberLog, List.map_cons, ih]

theorem writeNumbers_spec (numbers : List Number) {ba : ByteArray} {flat : FlatBuffer Byte}
    (h : ba.Refines b e flat) (hend : flat.position = flat.size) :
    ∃ ba', writeNumbers order numbers ba = .ok (numberLog order e numbers flat.position) ba' ∧
      ba'.Refines b e (flat.write (numbers.flatMap (Number.bytes order e))) := by
  induction numbers generalizing ba flat with
  | nil => exact ⟨ba, rfl, flat.write_nil.symm ▸ h⟩
  | cons number numbers ih =>
    obtain ⟨ba₁, hwrite, h₁⟩ := number.kind.appends order number.value ba flat h hend
    obtain ⟨ba₂, hrest, h₂⟩ := ih h₁ (write_end hend _)
    rw [write_append hend] at h₂
    refine ⟨ba₂, ?_, h₂⟩
    rw [writeNumbers, bind_of_ok hwrite]
    change EStateM.bind (writeNumbers order numbers) _ ba₁ = _
    simp only [EStateM.bind, hrest]
    rw [numberLog, ← h₁.position]
    rfl

theorem readNumbers_spec (numbers : List Number) {ba : ByteArray} {flat : FlatBuffer Byte}
    {rest : List Byte} (h : ba.Refines b e flat)
    (hrest : flat.rest = numbers.flatMap (Number.bytes order e) ++ rest) :
    ∃ ba', readNumbers order (numbers.map Number.kind) ba =
        .ok (numberLog order e numbers flat.position) ba' ∧
      ba'.Refines b e (flat.skip (numbers.flatMap (Number.bytes order e)).length) := by
  induction numbers generalizing ba flat with
  | nil => exact ⟨ba, rfl, flat.skip_zero.symm ▸ h⟩
  | cons number numbers ih =>
    rw [List.flatMap_cons, List.append_assoc] at hrest
    obtain ⟨ba₁, hread, h₁⟩ := number.kind.reads order number.value ba flat _ h hrest
    obtain ⟨ba₂, hnext, h₂⟩ := ih h₁ (by rw [flat.rest_skip, hrest]; exact List.drop_left)
    rw [flat.skip_skip, ← List.length_append] at h₂
    refine ⟨ba₂, ?_, h₂⟩
    have hposition : flat.position + (number.bytes order e).length = ba₁.position := by
      rw [← h₁.position]
      exact (flat.position_skip hrest).symm
    rw [List.map_cons, readNumbers, bind_of_ok hread]
    change EStateM.bind (readNumbers order (numbers.map Number.kind)) _ ba₁ = _
    simp only [EStateM.bind, hnext]
    rw [numberLog, hposition, ← h₁.position]
    rfl

/-- The numbers that are read are those that were written, each is read from the bytes that were
written for it, and no byte is left. -/
theorem numberRoundTrip (little : Bool) {b : ℕ} (hb : 1 ≤ b) (numbers : List Number) :
    ∃ log ba, numbersAgain order numbers ((ByteArray.create b).setIsLittleEndian little) =
        .ok (log, log, 0) ba ∧ log.map Prod.fst = numbers := by
  have hcreate := (ByteArray.Refines.create hb).setIsLittleEndian little
  generalize (if little then Endian.little else Endian.big) = e at hcreate
  obtain ⟨ba₁, hwrite, h₁⟩ := writeNumbers_spec order numbers hcreate rfl
  obtain ⟨ba₂, hseek, h₂⟩ := h₁.setPosition (Nat.zero_le _)
  have hrest : ((FlatBuffer.empty.write (numbers.flatMap (Number.bytes order e))).seek 0).rest =
      numbers.flatMap (Number.bytes order e) ++ [] := by
    rw [rest_seek_zero, data_write_of_end rfl, List.append_nil]
    rfl
  obtain ⟨ba₃, hread, h₃⟩ := readNumbers_spec order numbers h₂ hrest
  refine ⟨numberLog order e numbers 0, ba₃, ?_, map_fst_numberLog order numbers 0⟩
  have hleft : ba₃.getReadSize = 0 := by
    rw [← h₃.readSize_eq, ← length_rest, rest_skip, hrest, List.append_nil, List.drop_length]
    rfl
  rw [numbersAgain, bind_of_ok hwrite, bind_of_ok hseek, bind_of_ok hread]
  have hstart : ((FlatBuffer.empty.write (numbers.flatMap (Number.bytes order e))).seek 0).position =
      0 := Nat.zero_min _
  rw [hstart]
  change EStateM.Result.ok (_, _, ba₃.getReadSize) ba₃ = _
  rw [hleft]
  rfl

/-- The extreme values of a width, in nodes of three bytes. -/
theorem numberRoundTrip_extremes : ∃ log ba, numbersAgain .little
      [⟨.int64, 0x8000000000000000⟩, ⟨.fint16, 0x7fff⟩, ⟨.uint32, 0xffffffff⟩]
      ((ByteArray.create 3).setIsLittleEndian false) = .ok (log, log, 0) ba ∧
    log.map Prod.fst = [⟨.int64, 0x8000000000000000⟩, ⟨.fint16, 0x7fff⟩, ⟨.uint32, 0xffffffff⟩] :=
  numberRoundTrip .little false (by decide) _

end RoundTrip

end Rsylar
