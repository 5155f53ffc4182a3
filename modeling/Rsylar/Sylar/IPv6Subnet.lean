import Rsylar.Sylar.Subnet

/-!
# Subnets of IPv6

`IPv6Address` with the functions for subnets. They treat the byte with the end of the prefix first
and fill the bytes behind or before it in a loop. The byte order does not matter here.

An access to a byte that is not one of the 16 of the address is undefined. For the prefixes below
128 the accesses are defined and the algebra holds; the prefix 128, with which a host is a subnet of
its own, has its end in the byte behind the address (`ipv6SubnetAlgebra`).
-/

set_option autoImplicit false
set_option relaxedAutoImplicit false

namespace Rsylar

/-! ### Addresses -/

/-- `sockaddr_in6`, with the port in network order. -/
structure IPv6Address where
  sin6Family : BitVec 16
  sin6Port : BitVec (8 * 2)
  sin6Flowinfo : BitVec 32
  sin6Addr : Vector Byte 16
  sin6ScopeId : BitVec 32
deriving DecidableEq

namespace IPv6Address

def afInet6 : BitVec 16 := 10

/-- `s6_addr[i] = v`, undefined outside the address. -/
def setByte (bytes : Vector Byte 16) (i : ℕ) (v : Byte) : Option (Vector Byte 16) :=
  if h : i < 16 then some (bytes.set i v h) else none

/-- The loop that sets `count` bytes from `i` on to `v`. -/
def fill (v : Byte) : (count i : ℕ) → Vector Byte 16 → Option (Vector Byte 16)
  | 0, _, bytes => some bytes
  | count + 1, i, bytes => do fill v count (i + 1) (← setByte bytes i v)

/-- The constructor with an address and a port in the order of the machine. -/
def ofBytes (order : Endian) (address : Vector Byte 16) (port : BitVec (8 * 2)) : IPv6Address where
  sin6Family := afInet6
  sin6Port := byteswapOnLittleEndian order port
  sin6Flowinfo := 0
  sin6Addr := address
  sin6ScopeId := 0

def broadcastAddress (a : IPv6Address) (prefixLen : BitVec 32) : Option IPv6Address := do
  let i := prefixLen.toNat / 8
  let mask ← createMask 1 (prefixLen % 8)
  let byte ← a.sin6Addr[i]?
  let bytes ← setByte a.sin6Addr i (byte ||| mask)
  let bytes ← fill 0xff (16 - (i + 1)) (i + 1) bytes
  return { a with sin6Addr := bytes }

def networdAddress (a : IPv6Address) (prefixLen : BitVec 32) : Option IPv6Address := do
  let i := prefixLen.toNat / 8
  let mask ← createMask 1 (prefixLen % 8)
  let byte ← a.sin6Addr[i]?
  let bytes ← setByte a.sin6Addr i (byte &&& ~~~mask)
  let bytes ← fill 0x00 (16 - (i + 1)) (i + 1) bytes
  return { a with sin6Addr := bytes }

def subnetMask (prefixLen : BitVec 32) : Option IPv6Address := do
  let i := prefixLen.toNat / 8
  let mask ← createMask 1 (prefixLen % 8)
  let bytes ← setByte (Vector.replicate 16 0) i (~~~mask)
  let bytes ← fill 0xff i 0 bytes
  return { sin6Family := afInet6, sin6Port := 0, sin6Flowinfo := 0, sin6Addr := bytes,
           sin6ScopeId := 0 }

/-- The bits of the address, the highest one of the first byte first. -/
def bit (a : IPv6Address) (j : Fin 128) : Bool :=
  a.sin6Addr[j.val / 8].getLsbD (7 - j.val % 8)

/-- The algebra of an address and a prefix. The address is all that the results change. -/
def SubnetAlgebra (a : IPv6Address) (prefixLen : BitVec 32) : Prop :=
  ∃ mask na ba, subnetMask prefixLen = some mask ∧
    a.networdAddress prefixLen = some na ∧ a.broadcastAddress prefixLen = some ba ∧
    (∀ j, mask.bit j = decide (j.val < prefixLen.toNat)) ∧
    (∀ j, na.bit j = (a.bit j && mask.bit j)) ∧
    (∀ j, ba.bit j = (a.bit j || !mask.bit j)) ∧
    na = { a with sin6Addr := na.sin6Addr } ∧ ba = { a with sin6Addr := ba.sin6Addr }

section Bytes

variable {bytes : Vector Byte 16} {v : Byte}

theorem setByte_eq {i : ℕ} (h : i < 16) : setByte bytes i v = some (bytes.set i v h) := dif_pos h

theorem setByte_eq_none {i : ℕ} (h : 16 ≤ i) : setByte bytes i v = none :=
  dif_neg (Nat.not_lt.mpr h)

theorem fill_eq (v : Byte) {count i : ℕ} (bytes : Vector Byte 16) (h : i + count ≤ 16) :
    ∃ filled, fill v count i bytes = some filled ∧
      ∀ j (hj : j < 16), filled[j] = if i ≤ j ∧ j < i + count then v else bytes[j] := by
  induction count generalizing i bytes with
  | zero => exact ⟨bytes, rfl, fun j _ ↦ (if_neg (by omega)).symm⟩
  | succ count ih =>
    have hi : i < 16 := by omega
    have hcount : i + 1 + count ≤ 16 := by omega
    obtain ⟨filled, hfill, hbytes⟩ := ih (bytes.set i v hi) hcount
    refine ⟨filled, ?_, fun j hj ↦ ?_⟩
    · rw [fill, setByte_eq hi]
      exact hfill
    · rw [hbytes j hj, Vector.getElem_set]
      by_cases hij : i = j
      · rw [if_pos hij, ite_self, if_pos (by omega)]
      · rw [if_neg hij]
        exact if_congr (by omega) rfl rfl

/-- What both functions do with the byte in which the prefix ends and the bytes behind it. -/
theorem setByte_fill_eq (bytes : Vector Byte 16) (v w : Byte) {i : ℕ} (hi : i < 16) :
    ∃ set filled, setByte bytes i w = some set ∧
      fill v (16 - (i + 1)) (i + 1) set = some filled ∧
      ∀ j (hj : j < 16), filled[j] = if j < i then bytes[j] else if j = i then w else v := by
  have hcount : i + 1 + (16 - (i + 1)) ≤ 16 := by omega
  obtain ⟨filled, hfill, hbytes⟩ := fill_eq v (bytes.set i w hi) hcount
  refine ⟨_, filled, setByte_eq hi, hfill, fun j hj ↦ ?_⟩
  rw [hbytes j hj, Vector.getElem_set]
  rcases Nat.lt_trichotomy j i with hlt | rfl | hgt
  · rw [if_neg (by omega), if_neg (by omega), if_pos hlt]
  · rw [if_neg (by omega), if_pos rfl, if_neg (Nat.lt_irrefl j), if_pos rfl]
  · rw [if_pos (by omega), if_neg (by omega), if_neg (by omega)]

end Bytes

section Algebra

variable {p : BitVec 32}

theorem createMask_one (p : BitVec 32) :
    createMask 1 (p % 8) = some (BitVec.ofNat (8 * 1) (2 ^ (8 - p.toNat % 8) - 1)) := by
  have hmod : (p % 8).toNat = p.toNat % 8 := BitVec.toNat_umod
  rw [createMask_eq (by decide) (by omega) (by omega), hmod]

/-- The mask has the bits of its byte that are not in the prefix. -/
theorem getLsbD_mask {j : ℕ} (h : j / 8 = p.toNat / 8) :
    (BitVec.ofNat (8 * 1) (2 ^ (8 - p.toNat % 8) - 1)).getLsbD (7 - j % 8) =
      !decide (j < p.toNat) := by
  rw [BitVec.getLsbD_ofNat, Nat.testBit_two_pow_sub_one, ← decide_not, ← Bool.decide_and]
  exact decide_eq_decide.mpr (by omega)

/-- The bits of the address after its byte with the end of the prefix is set and those behind it are
filled: those in front are kept. -/
theorem bit_setByte_fill (a : IPv6Address) {v w : Byte} (q : Fin 128 → Bool) (hp : p.toNat < 128)
    (hfront : ∀ j : Fin 128, j.val / 8 < p.toNat / 8 → q j = a.bit j)
    (hend : ∀ j : Fin 128, j.val / 8 = p.toNat / 8 → q j = w.getLsbD (7 - j.val % 8))
    (hback : ∀ j : Fin 128, p.toNat / 8 < j.val / 8 → q j = v.getLsbD (7 - j.val % 8)) :
    ∃ set filled, setByte a.sin6Addr (p.toNat / 8) w = some set ∧
      fill v (16 - (p.toNat / 8 + 1)) (p.toNat / 8 + 1) set = some filled ∧
      ∀ j, bit { a with sin6Addr := filled } j = q j := by
  have hi : p.toNat / 8 < 16 := by omega
  obtain ⟨set, filled, hset, hfill, hbytes⟩ := setByte_fill_eq a.sin6Addr v w hi
  refine ⟨set, filled, hset, hfill, fun j ↦ ?_⟩
  rw [bit, hbytes (j.val / 8) (by omega)]
  rcases Nat.lt_trichotomy (j.val / 8) (p.toNat / 8) with hlt | heq | hgt
  · rw [if_pos hlt, hfront j hlt, bit]
  · rw [if_neg (Nat.not_lt.mpr heq.ge), if_pos heq, hend j heq]
  · rw [if_neg hgt.le.not_gt, if_neg hgt.ne', hback j hgt]

theorem networdAddress_eq (a : IPv6Address) (hp : p.toNat < 128) :
    ∃ na, a.networdAddress p = some na ∧ na = { a with sin6Addr := na.sin6Addr } ∧
      ∀ j, na.bit j = (a.bit j && decide (j.val < p.toNat)) := by
  have hi : p.toNat / 8 < 16 := by omega
  let mask := BitVec.ofNat (8 * 1) (2 ^ (8 - p.toNat % 8) - 1)
  have hfront : ∀ j : Fin 128, j.val / 8 < p.toNat / 8 →
      (a.bit j && decide (j.val < p.toNat)) = a.bit j := by
    intro j hlt
    rw [decide_eq_true (by omega), Bool.and_true]
  have hend : ∀ j : Fin 128, j.val / 8 = p.toNat / 8 →
      (a.bit j && decide (j.val < p.toNat)) =
        (a.sin6Addr[p.toNat / 8] &&& ~~~mask).getLsbD (7 - j.val % 8) := by
    intro j heq
    have hwidth : 7 - j.val % 8 < 8 := by omega
    rw [BitVec.getLsbD_and, BitVec.getLsbD_not, getLsbD_mask heq, decide_eq_true hwidth,
      Bool.true_and, Bool.not_not, bit]
    simp only [heq]
  have hback : ∀ j : Fin 128, p.toNat / 8 < j.val / 8 →
      (a.bit j && decide (j.val < p.toNat)) = BitVec.getLsbD (0x00 : Byte) (7 - j.val % 8) := by
    intro j hgt
    rw [decide_eq_false (by omega), Bool.and_false]
    exact BitVec.getLsbD_zero.symm
  obtain ⟨set, filled, hset, hfill, hfilled⟩ := bit_setByte_fill a _ hp hfront hend hback
  refine ⟨{ a with sin6Addr := filled }, ?_, rfl, hfilled⟩
  simp only [networdAddress, createMask_one, Vector.getElem?_eq_getElem hi, Option.bind_eq_bind,
    Option.bind_some]
  rw [hset, Option.bind_some, hfill]
  rfl

theorem broadcastAddress_eq (a : IPv6Address) (hp : p.toNat < 128) :
    ∃ ba, a.broadcastAddress p = some ba ∧ ba = { a with sin6Addr := ba.sin6Addr } ∧
      ∀ j, ba.bit j = (a.bit j || !decide (j.val < p.toNat)) := by
  have hi : p.toNat / 8 < 16 := by omega
  let mask := BitVec.ofNat (8 * 1) (2 ^ (8 - p.toNat % 8) - 1)
  have hfront : ∀ j : Fin 128, j.val / 8 < p.toNat / 8 →
      (a.bit j || !decide (j.val < p.toNat)) = a.bit j := by
    intro j hlt
    rw [decide_eq_true (by omega), Bool.not_true, Bool.or_false]
  have hend : ∀ j : Fin 128, j.val / 8 = p.toNat / 8 →
      (a.bit j || !decide (j.val < p.toNat)) =
        (a.sin6Addr[p.toNat / 8] ||| mask).getLsbD (7 - j.val % 8) := by
    intro j heq
    rw [BitVec.getLsbD_or, getLsbD_mask heq, bit]
    simp only [heq]
  have hback : ∀ j : Fin 128, p.toNat / 8 < j.val / 8 →
      (a.bit j || !decide (j.val < p.toNat)) = BitVec.getLsbD (0xff : Byte) (7 - j.val % 8) := by
    intro j hgt
    rw [decide_eq_false (by omega), Bool.not_false, Bool.or_true]
    exact (BitVec.getLsbD_allOnes.trans (decide_eq_true (by omega))).symm
  obtain ⟨set, filled, hset, hfill, hfilled⟩ := bit_setByte_fill a _ hp hfront hend hback
  refine ⟨{ a with sin6Addr := filled }, ?_, rfl, hfilled⟩
  simp only [broadcastAddress, createMask_one, Vector.getElem?_eq_getElem hi, Option.bind_eq_bind,
    Option.bind_some]
  rw [hset, Option.bind_some, hfill]
  rfl

theorem subnetMask_eq (hp : p.toNat < 128) :
    ∃ mask, subnetMask p = some mask ∧ ∀ j, mask.bit j = decide (j.val < p.toNat) := by
  have hi : p.toNat / 8 < 16 := by omega
  have hfront : 0 + p.toNat / 8 ≤ 16 := by omega
  let mask := ~~~BitVec.ofNat (8 * 1) (2 ^ (8 - p.toNat % 8) - 1)
  obtain ⟨filled, hfill, hbytes⟩ :=
    fill_eq 0xff ((Vector.replicate 16 0).set (p.toNat / 8) mask hi) hfront
  refine ⟨⟨afInet6, 0, 0, filled, 0⟩, ?_, fun j ↦ ?_⟩
  · simp only [subnetMask, createMask_one, setByte_eq hi, Option.bind_eq_bind, Option.bind_some]
    rw [hfill]
    rfl
  · rw [bit, hbytes (j.val / 8) (by omega), Vector.getElem_set, Vector.getElem_replicate]
    rcases Nat.lt_trichotomy (j.val / 8) (p.toNat / 8) with hlt | heq | hgt
    · rw [if_pos (by omega), decide_eq_true (by omega)]
      exact BitVec.getLsbD_allOnes.trans (decide_eq_true (by omega))
    · have hwidth : 7 - j.val % 8 < 8 := by omega
      rw [if_neg (by omega), if_pos heq.symm, BitVec.getLsbD_not, getLsbD_mask heq,
        decide_eq_true hwidth, Bool.true_and, Bool.not_not]
    · rw [if_neg (by omega), if_neg (by omega), decide_eq_false (by omega)]
      exact BitVec.getLsbD_zero

/-- From the prefix 128 on the byte with the end of the prefix is outside the address. -/
theorem networdAddress_eq_none (a : IPv6Address) (hp : 128 ≤ p.toNat) :
    a.networdAddress p = none := by
  have hbyte : a.sin6Addr[p.toNat / 8]? = none := Vector.getElem?_eq_none (by omega)
  rw [networdAddress, createMask_one, hbyte]
  rfl

end Algebra

end IPv6Address

/-- The functions for subnets follow the algebra for the prefixes below 128, for every address. -/
theorem ipv6SubnetAlgebra (a : IPv6Address) (prefixLen : BitVec 32) :
    a.SubnetAlgebra prefixLen ↔ prefixLen.toNat < 128 := by
  constructor
  · rintro ⟨mask, na, ba, -, hna, -⟩
    by_contra hp
    rw [a.networdAddress_eq_none (Nat.not_lt.mp hp)] at hna
    cases hna
  · intro hp
    obtain ⟨mask, hmask, hbits⟩ := IPv6Address.subnetMask_eq hp
    obtain ⟨na, hna, hnakept, hnabits⟩ := a.networdAddress_eq hp
    obtain ⟨ba, hba, hbakept, hbabits⟩ := a.broadcastAddress_eq hp
    refine ⟨mask, na, ba, hmask, hna, hba, hbits, fun j ↦ ?_, fun j ↦ ?_, hnakept, hbakept⟩
    · rw [hnabits j, hbits j]
    · rw [hbabits j, hbits j]

/-- The subnet that holds the host `::1` only. -/
theorem not_ipv6SubnetAlgebra_host : ¬ ∀ (a : IPv6Address) (prefixLen : BitVec 32),
    prefixLen.toNat ≤ 128 → a.SubnetAlgebra prefixLen := by
  intro h
  obtain ⟨mask, na, ba, -, hna, -⟩ :=
    h (.ofBytes .little ((Vector.replicate 16 0).set 15 1) 80) 128 (by decide)
  have hnone : (IPv6Address.ofBytes .little ((Vector.replicate 16 0).set 15 1) 80).networdAddress
      128 = none := by decide
  rw [hnone] at hna
  cases hna

end Rsylar
