import Rsylar.Sylar.ByteArrayBuffers
import Rsylar.Sylar.ByteArrayString

/-!
# Typed reads of any bytes

What a reader returns where the bytes have not been written by its writer. An encoding is a number
of bytes in the order of the byte array, or groups of seven bits up to one without the high bit, or
a length and as many bytes (`TypedRead.decode`). A reader takes the bytes piece by piece: it returns
and consumes an encoding that is there, and when its first piece is missing it changes nothing. When
a later one is missing it has moved the position already, and it takes a number whose last group has
the high bit. That is the whole difference (`typedReads`), together with the empty string that ends
with the capacity, where `read` has no node to look at.

A length that no string can have ends in another exception than a length that is only too large; both
come after the length has been read.
-/

set_option autoImplicit false
set_option relaxedAutoImplicit false

namespace Rsylar

open FlatBuffer

/-! ### Encodings -/

/-- The groups of seven bits that the bytes begin with, `k` at most. -/
def varintGroups : ℕ → List Byte → Option (List Byte)
  | 0, _ => none
  | _ + 1, [] => none
  | k + 1, b :: bytes =>
    if b.toNat < 0x80 then some [b] else (varintGroups k bytes).map fun groups ↦ b :: groups

/-- The number of groups of seven bits, the lowest first. -/
def ofGroups : List Byte → ℕ
  | [] => 0
  | b :: groups => b.toNat % 128 + 128 * ofGroups groups

/-- The number that the bytes begin with, and how many bytes it takes. -/
def decodeFixed (e : Endian) (n : ℕ) (bytes : List Byte) : Option (BitVec (8 * n) × ℕ) :=
  if n ≤ bytes.length then some (ofMemoryBytes e n (bytes.take n), n) else none

def decodeVarint (w k : ℕ) (bytes : List Byte) : Option (BitVec w × ℕ) :=
  (varintGroups k bytes).map fun groups ↦ (BitVec.ofNat w (ofGroups groups), groups.length)

/-- The string that the bytes begin with when they begin with its length. -/
def decodeString {w : ℕ} (bytes : List Byte) : Option (BitVec w × ℕ) → Option (List Byte × ℕ)
  | some (len, n) =>
    if len.toNat ≤ (bytes.drop n).length then some ((bytes.drop n).take len.toNat, n + len.toNat)
    else none
  | none => none

inductive TypedRead
  | number (kind : NumberKind)
  | string (kind : StringKind)
deriving DecidableEq

namespace TypedRead

abbrev Value : TypedRead → Type
  | number kind => BitVec kind.width
  | string _ => List Byte

def read (order : Endian) : (t : TypedRead) → ByteArrayM t.Value
  | number kind => kind.read order
  | string kind => kind.read order

/-- The value that the bytes begin with, and how many bytes it takes. -/
def decode (e : Endian) (bytes : List Byte) : (t : TypedRead) → Option (t.Value × ℕ)
  | number .fint8 | number .fuint8 => decodeFixed e 1 bytes
  | number .fint16 | number .fuint16 => decodeFixed e 2 bytes
  | number .fint32 | number .fuint32 => decodeFixed e 4 bytes
  | number .fint64 | number .fuint64 => decodeFixed e 8 bytes
  | number .uint32 => decodeVarint 32 5 bytes
  | number .uint64 => decodeVarint 64 10 bytes
  | number .int32 => (decodeVarint 32 5 bytes).map fun (v, n) ↦ (decodeZigzag v, n)
  | number .int64 => (decodeVarint 64 10 bytes).map fun (v, n) ↦ (decodeZigzag v, n)
  | string .f16 => decodeString bytes (decodeFixed e 2 bytes)
  | string .f32 => decodeString bytes (decodeFixed e 4 bytes)
  | string .f64 => decodeString bytes (decodeFixed e 8 bytes)
  | string .vint => decodeString bytes (decodeVarint 64 10 bytes)

/-- How many bytes are read first. -/
def firstBytes : TypedRead → ℕ
  | number .fint8 | number .fuint8 => 1
  | number .fint16 | number .fuint16 => 2
  | number .fint32 | number .fuint32 => 4
  | number .fint64 | number .fuint64 => 8
  | number .uint32 | number .uint64 | number .int32 | number .int64 => 1
  | string .f16 => 2
  | string .f32 => 4
  | string .f64 => 8
  | string .vint => 1

/-- Nothing is read for the value after its length. -/
def IsEmpty : (t : TypedRead) → t.Value → Prop
  | number _, _ => False
  | string _, value => value = []

end TypedRead

/-- The bits of the lowest group come before those of the other groups. -/
theorem or_nextGroup {w : ℕ} (b : Byte) (rest i : ℕ) (result : BitVec w) :
    result ||| ((b &&& 0x7f).setWidth w <<< i) ||| (BitVec.ofNat w rest <<< (i + 7)) =
      result ||| (BitVec.ofNat w (b.toNat % 128 + 128 * rest) <<< i) := by
  have hmask : ∀ k, (0x7f : Byte).getLsbD k = (decide (k < 8) && decide (k < 7)) := fun k ↦ by
    change (BitVec.ofNat 8 (2 ^ 7 - 1)).getLsbD k = _
    rw [BitVec.getLsbD_ofNat, Nat.testBit_two_pow_sub_one]
  have hsum : ∀ k, (b.toNat % 128 + 128 * rest).testBit k =
      if k < 7 then b.getLsbD k else rest.testBit (k - 7) := fun k ↦ by
    have hlow : b.toNat % 2 ^ 7 < 2 ^ 7 := Nat.mod_lt _ (by decide)
    have hsplit := Nat.testBit_two_pow_mul_add rest hlow k
    rw [Nat.testBit_mod_two_pow] at hsplit
    rw [Nat.add_comm]
    refine hsplit.trans ?_
    split
    · rename_i hk
      simp [hk, BitVec.getLsbD]
    · rfl
  apply BitVec.eq_of_getLsbD_eq
  intro j hj
  simp only [BitVec.getLsbD_or, BitVec.getLsbD_shiftLeft, BitVec.getLsbD_setWidth,
    BitVec.getLsbD_and, hmask, BitVec.getLsbD_ofNat, hsum]
  by_cases hi : j < i
  · simp [hi, Nat.lt_add_right 7 hi]
  · by_cases hlow : j < i + 7
    · have hgroup : j - i < 7 := by omega
      have hbyte : j - i < 8 := by omega
      simp [hi, hlow, hgroup, hbyte, hj]
    · have hgroup : ¬j - i < 7 := by omega
      have hsub : j - (i + 7) = j - i - 7 := by omega
      have hw : j - i < w := by omega
      have hrest : j - i - 7 < w := by omega
      simp [hi, hlow, hgroup, hsub, hj, hw, hrest]

/-! ### What a reader does -/

/-- What a reader of a number, whose first piece has `first` bytes, does where the bytes begin with
a number or do not. -/
inductive ReadOutcome {β : Type} (x : ByteArrayM β) (first : ℕ) (ba : ByteArray) :
    Option (β × ℕ) → Prop
  | whole {v : β} {n : ℕ} (hfirst : first ≤ n) (hle : n ≤ ba.getReadSize)
      (hread : x ba = .ok v (ba.moveTo (ba.position + n))) : ReadOutcome x first ba (some (v, n))
  | short (hshort : ba.getReadSize < first) (hread : x ba = .error .outOfRange ba) :
      ReadOutcome x first ba none
  | cut {n : ℕ} (hfirst : first ≤ ba.getReadSize) (hpos : 0 < n) (hle : n ≤ ba.getReadSize)
      (hread : x ba = .error .outOfRange (ba.moveTo (ba.position + n))) : ReadOutcome x first ba none
  | overlong {v : β} {n : ℕ} (hfirst : first ≤ ba.getReadSize) (hpos : 0 < n)
      (hle : n ≤ ba.getReadSize) (hread : x ba = .ok v (ba.moveTo (ba.position + n))) :
      ReadOutcome x first ba none

theorem ReadOutcome.map {β γ : Type} {x : ByteArrayM β} {first : ℕ} {ba : ByteArray}
    {decoded : Option (β × ℕ)} (h : ReadOutcome x first ba decoded) (f : β → γ) :
    ReadOutcome (f <$> x) first ba (decoded.map fun (v, n) ↦ (f v, n)) := by
  have hmap : (f <$> x) ba = match x ba with
      | .ok v ba' => .ok (f v) ba'
      | .error e ba' => .error e ba' := by
    change EStateM.map f x ba = _
    cases hread : x ba <;> simp only [EStateM.map, hread]
  cases h with
  | whole hfirst hle hread => exact .whole hfirst hle (by rw [hmap, hread])
  | short hshort hread => exact .short hshort (by rw [hmap, hread])
  | cut hfirst hpos hle hread => exact .cut hfirst hpos hle (by rw [hmap, hread])
  | overlong hfirst hpos hle hread => exact .overlong hfirst hpos hle (by rw [hmap, hread])

namespace ByteArray

/-- The bytes that can be read. -/
def unread (ba : ByteArray) : List Byte := ba.contents.drop ba.position

section Readers

variable {ba : ByteArray}

@[simp]
theorem moveTo_moveTo (p q : ℕ) : (ba.moveTo p).moveTo q = ba.moveTo q := rfl

@[simp]
theorem contents_moveTo (p : ℕ) : (ba.moveTo p).contents = ba.contents := rfl

theorem Inv.moveTo_self (h : ba.Inv) : ba.moveTo ba.position = ba := by
  rw [ByteArray.moveTo, h.node_div (h.position_le.trans h.size_le), ← h.cur_eq]

theorem Inv.length_unread (h : ba.Inv) : ba.unread.length = ba.getReadSize := by
  have hall := h.length_flatten
  have hsize := h.size_le
  rw [unread, contents, List.length_drop, List.length_take, getReadSize]
  omega

theorem unread_moveTo (n : ℕ) : (ba.moveTo (ba.position + n)).unread = ba.unread.drop n := by
  rw [unread, unread, List.drop_drop]
  rfl

theorem getReadSize_moveTo (n : ℕ) :
    (ba.moveTo (ba.position + n)).getReadSize = ba.getReadSize - n :=
  Nat.sub_add_eq ..

theorem Inv.moveBy (h : ba.Inv) {n : ℕ} (hn : n ≤ ba.getReadSize) :
    (ba.moveTo (ba.position + n)).Inv := by
  have hle := h.position_le
  rw [getReadSize] at hn
  exact h.moveTo (by omega)

theorem Inv.read_unread (h : ba.Inv) {n : ℕ} (hn : 0 < n) (hle : n ≤ ba.getReadSize) :
    ByteArray.read n ba = .ok (ba.unread.take n) (ba.moveTo (ba.position + n)) := by
  rw [h.read hn hle, unread, take_contents, ← getReadSize, Nat.min_eq_left hle]

/-- A read that is refused changes nothing. -/
theorem read_error {n : ℕ} {error : ByteArrayError} {ba' : ByteArray}
    (hread : read n ba = .error error ba') : ba' = ba := by
  rw [read] at hread
  split at hread
  · cases hread
    rfl
  · split at hread
    · cases hread
    · cases hread
      rfl

variable (order : Endian)

/-- The order of the machine does not matter. -/
theorem ofMemoryBytes_swap (e : Endian) {n : ℕ} {bytes : List Byte} (h : bytes.length = n) :
    (if e = order then ofMemoryBytes order n bytes else byteswap (ofMemoryBytes order n bytes)) =
      ofMemoryBytes e n bytes := by
  have hreverse : bytes.reverse.length = n := List.length_reverse.trans h
  cases e with
  | little =>
    cases order with
    | little => rfl
    | big =>
      rw [if_neg (by decide), byteswap, memoryBytes_big]
      change ofMemoryBytes .little n
        (memoryBytes .little (ofMemoryBytes .little n bytes.reverse)).reverse = _
      rw [memoryBytes_ofMemoryBytes hreverse, List.reverse_reverse]
  | big =>
    cases order with
    | little =>
      rw [if_neg (by decide), byteswap, memoryBytes_big, memoryBytes_ofMemoryBytes h]
      rfl
    | big => rfl

theorem Inv.readFixed (h : ba.Inv) {n : ℕ} (hn : 0 < n) :
    ReadOutcome (readFixed order n) n ba (decodeFixed ba.endian n ba.unread) := by
  rw [decodeFixed, h.length_unread]
  by_cases hle : n ≤ ba.getReadSize
  · rw [if_pos hle]
    have hlength : (ba.unread.take n).length = n :=
      List.length_take_of_le (h.length_unread.symm ▸ hle)
    rw [← ofMemoryBytes_swap order ba.endian hlength]
    exact .whole (Nat.le_refl n) hle (bind_of_ok (h.read_unread hn hle) :)
  · rw [if_neg hle]
    refine .short (Nat.lt_of_not_le hle) ?_
    have hread : ByteArray.read n ba = .error .outOfRange ba := if_pos (Nat.lt_of_not_le hle)
    exact (bind_of_error hread :)

theorem ofMemoryBytes_one (b : Byte) : ofMemoryBytes order 1 [b] = b := by
  rw [← memoryBytes_one order b]
  exact ofMemoryBytes_memoryBytes (n := 1) b order

theorem Inv.readByte (h : ba.Inv) {b : Byte} {bytes : List Byte} (hunread : ba.unread = b :: bytes) :
    readFuint8 order ba = .ok b (ba.moveTo (ba.position + 1)) ∧ 1 ≤ ba.getReadSize := by
  have hle : 1 ≤ ba.getReadSize := by
    rw [← h.length_unread, hunread]
    exact Nat.succ_le_succ (Nat.zero_le _)
  refine ⟨(bind_of_ok (h.read_unread Nat.one_pos hle)).trans ?_, hle⟩
  rw [hunread]
  exact congrArg (EStateM.Result.ok · _) (ofMemoryBytes_one order b)

theorem readByte_empty (hempty : ba.getReadSize = 0) :
    readFuint8 order ba = .error .outOfRange ba := by
  have hread : read 1 ba = .error .outOfRange ba := if_pos (by omega)
  exact (bind_of_error hread :)

/-- The loop over the groups: it stops behind a number, behind the last group that it takes, or at
the end of the bytes. -/
theorem Inv.readUint {w : ℕ} (h : ba.Inv) (k i : ℕ) (result : BitVec w) :
    match varintGroups k ba.unread with
    | some groups => groups.length ≤ ba.getReadSize ∧ 1 ≤ groups.length ∧
        readUint order (List.range' i k 7) result ba =
          .ok (result ||| (BitVec.ofNat w (ofGroups groups) <<< i))
            (ba.moveTo (ba.position + groups.length))
    | none =>
      (ba.getReadSize < k ∧ readUint order (List.range' i k 7) result ba =
        .error .outOfRange (ba.moveTo (ba.position + ba.getReadSize))) ∨
      (k ≤ ba.getReadSize ∧ ∃ v, readUint order (List.range' i k 7) result ba =
        .ok v (ba.moveTo (ba.position + k))) := by
  induction k generalizing ba i result with
  | zero =>
    refine .inr ⟨Nat.zero_le _, result, ?_⟩
    rw [Nat.add_zero, h.moveTo_self]
    rfl
  | succ k ih =>
    rw [List.range'_succ, ByteArray.readUint]
    cases hunread : ba.unread with
    | nil =>
      have hempty : ba.getReadSize = 0 := by
        rw [← h.length_unread, hunread]
        rfl
      have hstop : ba.moveTo (ba.position + ba.getReadSize) = ba := by
        rw [hempty]
        exact h.moveTo_self
      refine .inl ⟨by omega, (bind_of_error (readByte_empty order hempty)).trans ?_⟩
      rw [hstop]
    | cons b bytes =>
      obtain ⟨hbyte, hle⟩ := h.readByte order hunread
      have hrest : (ba.moveTo (ba.position + 1)).unread = bytes := by
        rw [unread_moveTo, hunread]
        rfl
      rw [varintGroups]
      by_cases hlast : b.toNat < 0x80
      · rw [if_pos hlast]
        refine ⟨hle, Nat.le_refl 1, (bind_of_ok hbyte).trans ?_⟩
        have hvalue : BitVec.ofNat w (ofGroups [b]) = b.setWidth w := by
          apply BitVec.eq_of_toNat_eq
          rw [BitVec.toNat_ofNat, BitVec.toNat_setWidth, ofGroups, ofGroups, Nat.mul_zero,
            Nat.add_zero, Nat.mod_eq_of_lt (a := b.toNat) hlast]
        rw [if_pos hlast, hvalue]
        rfl
      · rw [if_neg hlast]
        have hnext := ih (h.moveBy hle) (i + 7) (result ||| ((b &&& 0x7f).setWidth w <<< i))
        rw [hrest, getReadSize_moveTo] at hnext
        have hposition : (ba.moveTo (ba.position + 1)).position = ba.position + 1 := rfl
        rw [bind_of_ok hbyte, if_neg hlast]
        cases hgroups : varintGroups k bytes with
        | none =>
          rw [hgroups] at hnext
          refine hnext.imp (fun ⟨hlt, hread⟩ ↦ ⟨by omega, ?_⟩) fun ⟨hlt, v, hread⟩ ↦
            ⟨by omega, v, ?_⟩
          · rw [hread, moveTo_moveTo, hposition]
            congr 2
            omega
          · rw [hread, moveTo_moveTo, hposition]
            congr 2
            omega
        | some groups =>
          rw [hgroups] at hnext
          obtain ⟨hlength, -, hread⟩ := hnext
          refine ⟨by rw [List.length_cons]; omega, Nat.succ_le_succ (Nat.zero_le _), ?_⟩
          rw [hread, or_nextGroup, moveTo_moveTo, hposition]
          congr 2
          rw [List.length_cons]
          omega

theorem Inv.readVarint {w : ℕ} (h : ba.Inv) {k : ℕ} (hk : 0 < k) :
    ReadOutcome (ByteArray.readUint order (List.range' 0 k 7) (0 : BitVec w)) 1 ba
      (decodeVarint w k ba.unread) := by
  have hread := h.readUint order k 0 (0 : BitVec w)
  rw [decodeVarint]
  cases hgroups : varintGroups k ba.unread with
  | none =>
    rw [hgroups] at hread
    rcases hread with ⟨hlt, hread⟩ | ⟨hle, v, hread⟩
    · by_cases hempty : ba.getReadSize = 0
      · rw [hempty, Nat.add_zero, h.moveTo_self] at hread
        exact .short (by omega) hread
      · exact .cut (by omega) (by omega) (Nat.le_refl _) hread
    · exact .overlong (by omega) hk hle hread
  | some groups =>
    rw [hgroups] at hread
    obtain ⟨hle, hpos, hread⟩ := hread
    refine .whole hpos hle (hread.trans ?_)
    rw [BitVec.shiftLeft_zero]
    exact congrArg (EStateM.Result.ok · _) (BitVec.zero_or ..)

theorem Inv.readOne (h : ba.Inv) :
    ReadOutcome (readFuint8 order) 1 ba (decodeFixed ba.endian 1 ba.unread) := by
  cases hunread : ba.unread with
  | nil =>
    have hempty : ba.getReadSize = 0 := by
      rw [← h.length_unread, hunread]
      rfl
    exact .short (by omega) (readByte_empty order hempty)
  | cons b bytes =>
    obtain ⟨hbyte, hle⟩ := h.readByte order hunread
    have hvalue : decodeFixed ba.endian 1 (b :: bytes) = some (b, 1) := by
      rw [decodeFixed, if_pos (by rw [List.length_cons]; omega)]
      exact congrArg (fun v ↦ some (v, 1)) (ofMemoryBytes_one ba.endian b)
    rw [hvalue]
    exact .whole (Nat.le_refl 1) hle hbyte

theorem Inv.readNumber (h : ba.Inv) (kind : NumberKind) :
    ReadOutcome (kind.read order) (TypedRead.number kind).firstBytes ba
      ((TypedRead.number kind).decode ba.endian ba.unread) := by
  cases kind with
  | fint8 | fuint8 => exact h.readOne order
  | fint16 | fuint16 => exact h.readFixed order (n := 2) (by decide)
  | fint32 | fuint32 => exact h.readFixed order (n := 4) (by decide)
  | fint64 | fuint64 => exact h.readFixed order (n := 8) (by decide)
  | uint32 => exact h.readVarint order (k := 5) (by decide)
  | uint64 => exact h.readVarint order (k := 10) (by decide)
  | int32 => exact (h.readVarint order (k := 5) (by decide)).map decodeZigzag
  | int64 => exact (h.readVarint order (k := 10) (by decide)).map decodeZigzag

end Readers

end ByteArray

/-! ### What a typed read promises -/

/-- The reader returns and consumes what the bytes begin with, or it refuses them, and the position
and the content are as before. -/
def ReadsExactly {β : Type} (x : ByteArrayM β) (decoded : Option (β × ℕ)) (ba : ByteArray) : Prop :=
  match decoded with
  | some (v, n) => ∃ ba', x ba = .ok v ba' ∧ ba'.position = ba.position + n ∧
      ba'.contents = ba.contents
  | none => ∃ ba', x ba = .error .outOfRange ba' ∧ ba'.position = ba.position ∧
      ba'.contents = ba.contents

/-- Of an encoding whose first piece has `first` bytes that piece is missing, or it is all there and
is not one for which nothing is read where the capacity ends. -/
def EncodingWhole {β : Type} (first : ℕ) (isEmpty : β → Prop) (decoded : Option (β × ℕ))
    (ba : ByteArray) : Prop :=
  match decoded with
  | some (v, n) => ba.position + n = ba.capacity → ¬isEmpty v
  | none => ba.getReadSize < first

section Exactly

variable {β : Type} {ba : ByteArray}

/-- A reader that ends at another position has not refused the bytes. -/
theorem not_readsExactly_none {x : ByteArrayM β}
    (h : ∀ error ba', x ba = .error error ba' → ba'.position ≠ ba.position) :
    ¬ReadsExactly x none ba := by
  rintro ⟨ba', hread, hposition, -⟩
  exact h _ ba' hread hposition

theorem ReadOutcome.readsExactly {x : ByteArrayM β} {first : ℕ} {decoded : Option (β × ℕ)}
    (h : ReadOutcome x first ba decoded) :
    ReadsExactly x decoded ba ↔ EncodingWhole first (fun _ ↦ False) decoded ba := by
  cases h with
  | whole hfirst hle hread => exact iff_of_true ⟨_, hread, rfl, rfl⟩ fun _ ↦ id
  | short hshort hread => exact iff_of_true ⟨ba, hread, rfl, rfl⟩ hshort
  | cut hfirst hpos hle hread =>
    refine iff_of_false (not_readsExactly_none fun error ba' herror ↦ ?_) (Nat.not_lt.mpr hfirst)
    rw [hread] at herror
    cases herror
    change ba.position + _ ≠ ba.position
    omega
  | overlong hfirst hpos hle hread =>
    refine iff_of_false (not_readsExactly_none fun error ba' herror ↦ ?_) (Nat.not_lt.mpr hfirst)
    rw [hread] at herror
    cases herror

end Exactly

namespace ByteArray

/-- A string is read when its length and its bytes are there, and a node to look at. -/
theorem Inv.readString {w : ℕ} {ba : ByteArray} (h : ba.Inv) {x : ByteArrayM (BitVec w)} {first : ℕ}
    {decoded : Option (BitVec w × ℕ)} (hfirst : 0 < first) (hx : ReadOutcome x first ba decoded) :
    ReadsExactly (x >>= fun len ↦ ByteArray.read len.toNat) (decodeString ba.unread decoded) ba ↔
      EncodingWhole first (fun v ↦ v = []) (decodeString ba.unread decoded) ba := by
  cases hx with
  | @whole len n hlength hle hread =>
    have hinv := h.moveBy hle
    have hsize : (ba.moveTo (ba.position + n)).getReadSize = ba.getReadSize - n :=
      getReadSize_moveTo n
    have hdrop : (ba.unread.drop n).length = ba.getReadSize - n := by
      rw [List.length_drop, h.length_unread]
    have hread' : (x >>= fun len ↦ ByteArray.read len.toNat) ba =
        ByteArray.read len.toNat (ba.moveTo (ba.position + n)) := bind_of_ok hread
    rw [decodeString, hdrop]
    by_cases hlen : len.toNat ≤ ba.getReadSize - n
    · rw [if_pos hlen]
      by_cases hzero : len.toNat = 0
      · have hnothing := hinv.read_zero
        change ByteArray.read 0 _ = if ba.position + n = ba.capacity then _ else _ at hnothing
        rw [hzero] at hread' ⊢
        rw [hnothing] at hread'
        by_cases hend : ba.position + n = ba.capacity
        · rw [if_pos hend] at hread'
          refine iff_of_false ?_ fun hne ↦ hne hend List.take_zero
          rintro ⟨ba', hok, -⟩
          rw [hread'] at hok
          cases hok
        · rw [if_neg hend] at hread'
          exact iff_of_true ⟨_, hread', rfl, rfl⟩ fun hend' ↦ absurd hend' hend
      · have hpos : 0 < len.toNat := Nat.pos_of_ne_zero hzero
        rw [hinv.read_unread hpos (hsize.symm ▸ hlen), unread_moveTo] at hread'
        refine iff_of_true ⟨_, hread', ?_, rfl⟩ fun _ hnil ↦ ?_
        · exact Nat.add_assoc ..
        · have hlength' := congrArg List.length hnil
          rw [List.length_take, hdrop, List.length_nil] at hlength'
          omega
    · rw [if_neg hlen]
      refine iff_of_false (not_readsExactly_none fun error ba' herror ↦ ?_)
        (Nat.not_lt.mpr (hlength.trans hle))
      rw [hread'] at herror
      rw [read_error herror]
      change ba.position + n ≠ ba.position
      omega
  | short hshort hread => exact iff_of_true ⟨ba, bind_of_error hread, rfl, rfl⟩ hshort
  | cut hlength hpos hle hread =>
    refine iff_of_false (not_readsExactly_none fun error ba' herror ↦ ?_) (Nat.not_lt.mpr hlength)
    rw [bind_of_error hread] at herror
    cases herror
    change ba.position + _ ≠ ba.position
    omega
  | overlong hlength hpos hle hread =>
    refine iff_of_false (not_readsExactly_none fun error ba' herror ↦ ?_) (Nat.not_lt.mpr hlength)
    rw [bind_of_ok hread] at herror
    rw [read_error herror]
    change ba.position + _ ≠ ba.position
    omega

end ByteArray

namespace TypedRead

def Whole (t : TypedRead) (ba : ByteArray) : Prop :=
  EncodingWhole t.firstBytes t.IsEmpty (t.decode ba.endian ba.unread) ba

end TypedRead

/-- A typed read of any bytes returns and consumes an encoding, or refuses the bytes and changes
nothing, exactly when it does not find out about the end of the bytes after its first piece. -/
theorem typedReads (order : Endian) (t : TypedRead) {ba : ByteArray} (h : ba.Inv) :
    ReadsExactly (t.read order) (t.decode ba.endian ba.unread) ba ↔ t.Whole ba := by
  cases t with
  | number kind => exact (h.readNumber order kind).readsExactly
  | string kind =>
    cases kind with
    | f16 => exact h.readString (by decide) (h.readNumber order .fuint16)
    | f32 => exact h.readString (by decide) (h.readNumber order .fuint32)
    | f64 => exact h.readString (by decide) (h.readNumber order .fuint64)
    | vint => exact h.readString (by decide) (h.readNumber order .uint64)

/-- The length of a string of five bytes, and nothing after it. -/
def cutString : ByteArray :=
  ⟨4, 0, 4, 2, .big, [[0, 5, 0, 0]], some 0⟩

theorem cutString_inv : cutString.Inv :=
  ⟨by decide, by decide, by unfold ByteArray.Chunked; decide, rfl, by decide, by decide, rfl⟩

theorem typedReads_cutString :
    ReadsExactly (TypedRead.read .little (.number .fint16))
      ((TypedRead.number .fint16).decode cutString.endian cutString.unread) cutString ↔
    (TypedRead.number .fint16).Whole cutString :=
  typedReads .little (.number .fint16) cutString_inv

theorem not_readsExactly_cutString :
    ¬ReadsExactly (TypedRead.read .little (.string .f16))
      ((TypedRead.string .f16).decode cutString.endian cutString.unread) cutString := by
  refine not_readsExactly_none fun error ba' herror ↦ ?_
  have hread : TypedRead.read .little (.string .f16) cutString =
      .error .outOfRange { cutString with position := 2 } := rfl
  rw [hread] at herror
  cases herror
  decide

end Rsylar
