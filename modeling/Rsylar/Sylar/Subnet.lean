import Rsylar.Sylar.ByteArrayCodec

/-!
# Subnets

`IPv4Address` with the functions for subnets. An address and its port are kept in network order, the
byte order of the machine is a parameter.

`CreateMask` is defined for prefixes from 2 on: for the prefix 0 the shift is by the width of `int`,
for the prefix 1 the subtraction overflows. It is the mask of the host part. `subnetMask` is its
complement, `broadcastAddress` sets the host part, but `networdAddress` keeps the host part where it
should keep the rest. So the algebra holds for the address 0 only (`subnetAlgebra`).
-/

set_option autoImplicit false
set_option relaxedAutoImplicit false

namespace Rsylar

def byteswapOnLittleEndian (order : Endian) {n : ℕ} (t : BitVec (8 * n)) : BitVec (8 * n) :=
  match order with
  | .little => byteswap t
  | .big => t

section ByteOrder

variable {n : ℕ}

theorem littleBytes_not {x : ℕ} (h : x < 256 ^ n) :
    littleBytes n (256 ^ n - 1 - x) = (littleBytes n x).map (~~~·) := by
  induction n generalizing x with
  | zero => rfl
  | succ n ih =>
    rw [Nat.pow_succ'] at h ⊢
    have hlow : BitVec.ofNat 8 (256 * 256 ^ n - 1 - x) = ~~~BitVec.ofNat 8 x := by
      apply BitVec.eq_of_toNat_eq
      rw [BitVec.toNat_not, BitVec.toNat_ofNat, BitVec.toNat_ofNat]
      omega
    have hhigh : (256 * 256 ^ n - 1 - x) / 256 = 256 ^ n - 1 - x / 256 := by omega
    rw [littleBytes, littleBytes, List.map_cons, hlow, hhigh, ih (by omega)]

theorem ofLittleBytes_not (bytes : List Byte) :
    ofLittleBytes (bytes.map (~~~·)) = 256 ^ bytes.length - 1 - ofLittleBytes bytes := by
  induction bytes with
  | nil => rfl
  | cons b bytes ih =>
    have hlt := ofLittleBytes_lt bytes
    have hb : b.toNat < 256 := b.isLt
    rw [List.map_cons, ofLittleBytes, ofLittleBytes, ih, BitVec.toNat_not, List.length_cons,
      Nat.pow_succ']
    omega

theorem byteswap_not (v : BitVec (8 * n)) : byteswap (~~~v) = ~~~byteswap v := by
  have hpow := pow_bytes n
  have hmemory : memoryBytes .big (~~~v) = (memoryBytes .big v).map (~~~·) := by
    have hlt : v.toNat < 256 ^ n := hpow ▸ v.isLt
    rw [memoryBytes, memoryBytes, BitVec.toNat_not, ← hpow, littleBytes_not hlt, List.map_reverse]
  have hlength : (memoryBytes .big v).length = n := length_memoryBytes v .big
  have hlt := ofLittleBytes_lt (memoryBytes .big v)
  rw [hlength, hpow] at hlt
  rw [byteswap, hmemory, byteswap, ofMemoryBytes, ofMemoryBytes, ofLittleBytes_not, hlength, hpow]
  apply BitVec.eq_of_toNat_eq
  rw [BitVec.toNat_not, BitVec.toNat_ofNat, BitVec.toNat_ofNat, Nat.mod_eq_of_lt (by omega),
    Nat.mod_eq_of_lt hlt]

theorem byteswapOnLittleEndian_not (order : Endian) (v : BitVec (8 * n)) :
    byteswapOnLittleEndian order (~~~v) = ~~~byteswapOnLittleEndian order v := by
  cases order with
  | little => exact byteswap_not v
  | big => rfl

theorem byteswapOnLittleEndian_twice (order : Endian) (v : BitVec (8 * n)) :
    byteswapOnLittleEndian order (byteswapOnLittleEndian order v) = v := by
  cases order with
  | little => exact byteswap_byteswap v
  | big => rfl

end ByteOrder

/-! ### Masks -/

/-- `1 << s` of an `int`, undefined when the shift is not below the width. -/
def intShiftOne (s : ℕ) : Option ℤ := if s < 32 then some (Int.bmod (2 ^ s) (2 ^ 32)) else none

/-- `a - b` of an `int`, undefined when it overflows. -/
def intSub (a b : ℤ) : Option ℤ :=
  if -2 ^ 31 ≤ a - b ∧ a - b < 2 ^ 31 then some (a - b) else none

/-- `CreateMask<T>` for a type of `size` bytes; the shift is a `size_t`. -/
def createMask (size : ℕ) (bits : BitVec 32) : Option (BitVec (8 * size)) := do
  let shifted ← intShiftOne (BitVec.ofNat 64 (size * 8) - bits.setWidth 64).toNat
  let mask ← intSub shifted 1
  return BitVec.ofInt (8 * size) mask

section Masks

variable {size : ℕ} {bits : BitVec 32}

theorem shift_eq (hsize : size * 8 < 2 ^ 32) (h : bits.toNat ≤ size * 8) :
    (BitVec.ofNat 64 (size * 8) - bits.setWidth 64).toNat = size * 8 - bits.toNat := by
  rw [BitVec.toNat_sub, BitVec.toNat_ofNat, BitVec.toNat_setWidth]
  omega

theorem shift_ge (hsize : size * 8 < 2 ^ 32) (h : size * 8 < bits.toNat) :
    32 ≤ (BitVec.ofNat 64 (size * 8) - bits.setWidth 64).toNat := by
  have hbits : bits.toNat < 2 ^ 32 := bits.isLt
  rw [BitVec.toNat_sub, BitVec.toNat_ofNat, BitVec.toNat_setWidth]
  omega

theorem createMask_eq (hsize : size * 8 < 2 ^ 32) (h : bits.toNat ≤ size * 8)
    (hshift : size * 8 - bits.toNat ≤ 30) :
    createMask size bits = some (BitVec.ofNat (8 * size) (2 ^ (size * 8 - bits.toNat) - 1)) := by
  have hpow : (2 : ℤ) ^ (size * 8 - bits.toNat) = (2 ^ (size * 8 - bits.toNat) : ℕ) := by
    push_cast
    rfl
  have hle : 2 ^ (size * 8 - bits.toNat) ≤ 2 ^ 30 := Nat.pow_le_pow_right (by decide) hshift
  have hpos : 0 < 2 ^ (size * 8 - bits.toNat) := Nat.two_pow_pos _
  have hshifted : intShiftOne (size * 8 - bits.toNat) =
      some ((2 ^ (size * 8 - bits.toNat) : ℕ) : ℤ) := by
    rw [intShiftOne, if_pos (by omega), hpow, Int.bmod_eq_of_le (by omega) (by omega)]
  have hmask : intSub ((2 ^ (size * 8 - bits.toNat) : ℕ) : ℤ) 1 =
      some ((2 ^ (size * 8 - bits.toNat) - 1 : ℕ) : ℤ) := by
    rw [intSub, if_pos ⟨by omega, by omega⟩, Int.ofNat_sub hpos]
    rfl
  rw [createMask, shift_eq hsize h, hshifted, Option.bind_eq_bind, Option.bind_some, hmask]
  exact congrArg some (BitVec.ofInt_natCast ..)

/-- The prefixes for which the shift or the subtraction is undefined. -/
theorem createMask_eq_none (hsize : size * 8 < 2 ^ 32)
    (h : size * 8 < bits.toNat ∨ 31 ≤ size * 8 - bits.toNat) : createMask size bits = none := by
  rw [createMask]
  by_cases hlong : size * 8 < bits.toNat
  · rw [intShiftOne, if_neg (Nat.not_lt.mpr (shift_ge hsize hlong))]
    rfl
  · have hge := h.resolve_left hlong
    rw [shift_eq hsize (Nat.le_of_not_lt hlong)]
    by_cases hwidth : size * 8 - bits.toNat < 32
    · have htop : size * 8 - bits.toNat = 31 := by omega
      rw [htop]
      rfl
    · rw [intShiftOne, if_neg hwidth]
      rfl

end Masks

/-! ### Addresses -/

/-- `sockaddr_in`, with the port and the address in network order. -/
structure IPv4Address where
  sinFamily : BitVec 16
  sinPort : BitVec (8 * 2)
  sinAddr : BitVec (8 * 4)
  sinZero : BitVec 64
deriving DecidableEq

namespace IPv4Address

def afInet : BitVec 16 := 2

/-- The constructor with an address and a port in the order of the machine. -/
def ofHost (order : Endian) (address : BitVec (8 * 4)) (port : BitVec (8 * 2)) : IPv4Address where
  sinFamily := afInet
  sinPort := byteswapOnLittleEndian order port
  sinAddr := byteswapOnLittleEndian order address
  sinZero := 0

/-- The result is `none` when the behaviour is undefined, and `some none` for a null pointer. -/
def broadcastAddress (order : Endian) (a : IPv4Address) (prefixLen : BitVec 32) :
    Option (Option IPv4Address) :=
  if 32 < prefixLen.toNat then some none
  else (createMask 4 prefixLen).map fun mask ↦
    some { a with sinAddr := a.sinAddr ||| byteswapOnLittleEndian order mask }

def networdAddress (order : Endian) (a : IPv4Address) (prefixLen : BitVec 32) :
    Option (Option IPv4Address) :=
  if 32 < prefixLen.toNat then some none
  else (createMask 4 prefixLen).map fun mask ↦
    some { a with sinAddr := a.sinAddr &&& byteswapOnLittleEndian order mask }

def subnetMask (order : Endian) (prefixLen : BitVec 32) : Option (Option IPv4Address) :=
  (createMask 4 prefixLen).map fun mask ↦ some
    { sinFamily := afInet
      sinPort := 0
      sinAddr := ~~~byteswapOnLittleEndian order mask
      sinZero := 0 }

/-- The address as a number. -/
def address (order : Endian) (a : IPv4Address) : BitVec (8 * 4) :=
  byteswapOnLittleEndian order a.sinAddr

end IPv4Address

/-! ### The algebra -/

/-- The mask with the highest `p` bits set. -/
def netmask (p : ℕ) : BitVec (8 * 4) := BitVec.allOnes (8 * 4) <<< (32 - p)

/-- What the network and the broadcast address of an address are for a mask, byte by byte. -/
structure SubnetOf (mask a na ba : IPv4Address) : Prop where
  network : na.sinAddr = a.sinAddr &&& mask.sinAddr
  broadcast : ba.sinAddr = na.sinAddr ||| ~~~mask.sinAddr
  port : na.sinPort = a.sinPort ∧ ba.sinPort = a.sinPort
  family : na.sinFamily = a.sinFamily ∧ ba.sinFamily = a.sinFamily

/-- The algebra of two addresses and a prefix. -/
def SubnetAlgebra (order : Endian) (a b : IPv4Address) (prefixLen : BitVec 32) : Prop :=
  if 32 < prefixLen.toNat then
    IPv4Address.subnetMask order prefixLen = some none ∧
      ∀ x ∈ [a, b], x.networdAddress order prefixLen = some none ∧
        x.broadcastAddress order prefixLen = some none
  else
    ∃ mask na ba nb bb, IPv4Address.subnetMask order prefixLen = some (some mask) ∧
      mask.address order = netmask prefixLen.toNat ∧
      a.networdAddress order prefixLen = some (some na) ∧
      a.broadcastAddress order prefixLen = some (some ba) ∧
      b.networdAddress order prefixLen = some (some nb) ∧
      b.broadcastAddress order prefixLen = some (some bb) ∧
      SubnetOf mask a na ba ∧ SubnetOf mask b nb bb ∧
      (na.sinAddr = nb.sinAddr ↔ ba.sinAddr = bb.sinAddr)

section Algebra

variable {order : Endian} {a b : IPv4Address} {p : BitVec 32}

theorem not_hostMask (k : ℕ) :
    ~~~BitVec.ofNat (8 * 4) (2 ^ k - 1) = BitVec.allOnes (8 * 4) <<< k := by
  ext i hi
  have hbit : (BitVec.ofNat (8 * 4) (2 ^ k - 1))[i] = decide (i < k) := by
    rw [← BitVec.getLsbD_eq_getElem, BitVec.getLsbD_ofNat, Nat.testBit_two_pow_sub_one]
    simp [hi]
  rw [BitVec.getElem_not, hbit, BitVec.getElem_shiftLeft, BitVec.getElem_allOnes, Bool.and_true]

/-- For the prefixes from 2 on the mask of the subnet is right. -/
theorem address_subnetMask (order : Endian) (hp : 2 ≤ p.toNat) (hle : p.toNat ≤ 32) :
    ∃ mask, IPv4Address.subnetMask order p = some (some mask) ∧
      mask.address order = netmask p.toNat ∧
      ∀ x : IPv4Address, x.networdAddress order p =
          some (some { x with sinAddr := x.sinAddr &&& ~~~mask.sinAddr }) ∧
        x.broadcastAddress order p =
          some (some { x with sinAddr := x.sinAddr ||| ~~~mask.sinAddr }) := by
  have hmask : createMask 4 p = some (BitVec.ofNat (8 * 4) (2 ^ (4 * 8 - p.toNat) - 1)) :=
    createMask_eq (by decide) (by omega) (by omega)
  refine ⟨_, by rw [IPv4Address.subnetMask, hmask]; rfl, ?_, fun x ↦ ⟨?_, ?_⟩⟩
  · rw [IPv4Address.address, ← byteswapOnLittleEndian_not, byteswapOnLittleEndian_twice]
    exact not_hostMask _
  · rw [IPv4Address.networdAddress, if_neg (Nat.not_lt.mpr hle), hmask, BitVec.not_not]
    rfl
  · rw [IPv4Address.broadcastAddress, if_neg (Nat.not_lt.mpr hle), hmask, BitVec.not_not]
    rfl

/-- The network and the broadcast address that the code returns are those of a mask for the address
0 only. -/
theorem subnetOf_iff (mask a : IPv4Address) :
    SubnetOf mask a { a with sinAddr := a.sinAddr &&& ~~~mask.sinAddr }
      { a with sinAddr := a.sinAddr ||| ~~~mask.sinAddr } ↔ a.sinAddr = 0 := by
  constructor
  · rintro ⟨hnetwork, hbroadcast, -, -⟩
    simp only at hnetwork
    ext i hi
    have hbit := congrArg (fun v : BitVec (8 * 4) ↦ v[i]) hnetwork
    simp only [BitVec.getElem_and, BitVec.getElem_not] at hbit
    cases hmask : mask.sinAddr[i] with
    | true => simpa [hmask] using hbit
    | false => simpa [hmask] using hbit
  · intro hzero
    exact ⟨by simp [hzero], by simp [hzero], ⟨rfl, rfl⟩, ⟨rfl, rfl⟩⟩

end Algebra

/-- The functions for subnets follow the algebra for the address 0 and the prefixes from 2 to 32. -/
theorem subnetAlgebra (order : Endian) (a b : IPv4Address) (prefixLen : BitVec 32) :
    SubnetAlgebra order a b prefixLen ↔
      a.sinAddr = 0 ∧ b.sinAddr = 0 ∧ 2 ≤ prefixLen.toNat ∧ prefixLen.toNat ≤ 32 := by
  by_cases hp : 2 ≤ prefixLen.toNat ∧ prefixLen.toNat ≤ 32
  · obtain ⟨mask, hmask, haddress, hresults⟩ := address_subnetMask order hp.1 hp.2
    rw [SubnetAlgebra, if_neg (Nat.not_lt.mpr hp.2), and_iff_left hp]
    constructor
    · rintro ⟨m, na, ba, nb, bb, hm, -, hna, hba, hnb, hbb, ha, hb, -⟩
      cases hmask.symm.trans hm
      cases (hresults a).1.symm.trans hna
      cases (hresults a).2.symm.trans hba
      cases (hresults b).1.symm.trans hnb
      cases (hresults b).2.symm.trans hbb
      exact ⟨(subnetOf_iff mask a).mp ha, (subnetOf_iff mask b).mp hb⟩
    · rintro ⟨ha, hb⟩
      refine ⟨mask, _, _, _, _, hmask, haddress, (hresults a).1, (hresults a).2, (hresults b).1,
        (hresults b).2, (subnetOf_iff mask a).mpr ha, (subnetOf_iff mask b).mpr hb, ?_⟩
      rw [ha, hb]
      exact iff_of_true rfl rfl
  · have hnone : IPv4Address.subnetMask order prefixLen = none := by
      rw [IPv4Address.subnetMask, createMask_eq_none (by decide) (by omega), Option.map_none]
    refine iff_of_false ?_ (fun h ↦ hp h.2.2)
    rw [SubnetAlgebra, hnone]
    split
    · rintro ⟨hmask, -⟩
      cases hmask
    · rintro ⟨mask, na, ba, nb, bb, hmask, -⟩
      cases hmask

/-- The network of 192.168.1.77/24 comes out as 0.0.0.77. -/
theorem not_subnetAlgebra_host : ¬ ∀ (order : Endian) (a b : IPv4Address) (prefixLen : BitVec 32),
    SubnetAlgebra order a b prefixLen := by
  intro h
  have hhost := h .little (.ofHost .little 0xc0a8014d 80) (.ofHost .little 0xc0a8014d 80) 24
  rw [SubnetAlgebra, if_neg (by decide)] at hhost
  obtain ⟨mask, na, ba, nb, bb, hmask, -, hna, -, -, -, ⟨hnetwork, -, -, -⟩, -⟩ := hhost
  have hvalues : (IPv4Address.subnetMask .little 24).bind id = some ⟨2, 0, 0x00ffffff, 0⟩ ∧
      ((IPv4Address.ofHost .little 0xc0a8014d 80).networdAddress .little 24).bind id =
        some ⟨2, 0x5000, 0x4d000000, 0⟩ := by decide
  rw [hmask, hna] at hvalues
  cases hvalues.1
  cases hvalues.2
  exact absurd hnetwork (by decide)

end Rsylar
