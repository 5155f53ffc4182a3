import Rsylar.Sylar.ByteArrayCodec

/-!
# Strings in a byte array

A string is written after its length, which takes two, four or eight bytes or groups of seven bits.
A length that does not fit is cut without a word. The reader of an empty string still looks at the
node of the position, which is not there when the bytes end with a node.

So strings come back as they were written exactly when every length fits and the bytes do not end
with an empty string at the end of a node (`stringRoundTrip`).
-/

set_option autoImplicit false
set_option relaxedAutoImplicit false

namespace Rsylar

open FlatBuffer

namespace ByteArray

variable (order : Endian)

def writeStringF16 (value : List Byte) : ByteArrayM Unit := do
  writeFuint16 order (BitVec.ofNat 16 value.length)
  write value

def writeStringF32 (value : List Byte) : ByteArrayM Unit := do
  writeFuint32 order (BitVec.ofNat 32 value.length)
  write value

def writeStringF64 (value : List Byte) : ByteArrayM Unit := do
  writeFuint64 order (BitVec.ofNat 64 value.length)
  write value

def writeStringVint (value : List Byte) : ByteArrayM Unit := do
  writeUint64 (BitVec.ofNat 64 value.length)
  write value

def readStringF16 : ByteArrayM (List Byte) := do
  let len ← readFuint16 order
  read len.toNat

def readStringF32 : ByteArrayM (List Byte) := do
  let len ← readFuint32 order
  read len.toNat

def readStringF64 : ByteArrayM (List Byte) := do
  let len ← readFuint64 order
  read len.toNat

def readStringVint : ByteArrayM (List Byte) := do
  let len ← readUint64 order
  read len.toNat

end ByteArray

/-- How the length of a string is written. -/
inductive StringKind
  | f16
  | f32
  | f64
  | vint
deriving DecidableEq

namespace StringKind

variable (order : Endian)

def write : StringKind → List Byte → ByteArrayM Unit
  | f16 => ByteArray.writeStringF16 order
  | f32 => ByteArray.writeStringF32 order
  | f64 => ByteArray.writeStringF64 order
  | vint => ByteArray.writeStringVint

def read : StringKind → ByteArrayM (List Byte)
  | f16 => ByteArray.readStringF16 order
  | f32 => ByteArray.readStringF32 order
  | f64 => ByteArray.readStringF64 order
  | vint => ByteArray.readStringVint order

/-- The bits of the length. -/
def width : StringKind → ℕ
  | f16 => 16
  | f32 => 32
  | f64 | vint => 64

/-- How many bytes the length `n` takes. -/
def lengthBytes (n : ℕ) : StringKind → ℕ
  | f16 => 2
  | f32 => 4
  | f64 => 8
  | vint => (encodeUint (BitVec.ofNat 64 n)).length

end StringKind

/-- A string with the pair of functions that write and read it. -/
structure CodedString where
  kind : StringKind
  value : List Byte
deriving DecidableEq

namespace CodedString

def Fits (s : CodedString) : Prop := s.value.length < 2 ^ s.kind.width

instance (s : CodedString) : Decidable s.Fits := Nat.decLt ..

/-- How many bytes are written for the string. -/
def writtenBytes (s : CodedString) : ℕ := s.kind.lengthBytes s.value.length + s.value.length

end CodedString

section Sequences

variable (order : Endian)

def writeStrings : List CodedString → ByteArrayM Unit
  | [] => return
  | s :: strings => do
    s.kind.write order s.value
    writeStrings strings

def readStrings : List StringKind → ByteArrayM (List (List Byte))
  | [] => return []
  | kind :: kinds => do
    let value ← kind.read order
    return value :: (← readStrings kinds)

/-- What is read after `setPosition(0)` of what has been written. -/
def stringsAgain (strings : List CodedString) : ByteArrayM (List (List Byte)) := do
  writeStrings order strings
  ByteArray.setPosition 0
  readStrings order (strings.map CodedString.kind)

end Sequences

/-! ### One string -/

namespace StringKind

variable {b : ℕ} {e : Endian} (order : Endian)

/-- The bytes of the length `n`. -/
def bytes (e : Endian) (n : ℕ) : StringKind → List Byte
  | f16 => ByteArray.fixedBytes order e (n := 2) (BitVec.ofNat 16 n)
  | f32 => ByteArray.fixedBytes order e (n := 4) (BitVec.ofNat 32 n)
  | f64 => ByteArray.fixedBytes order e (n := 8) (BitVec.ofNat 64 n)
  | vint => encodeUint (BitVec.ofNat 64 n)

theorem length_bytes (n : ℕ) (kind : StringKind) :
    (kind.bytes order e n).length = kind.lengthBytes n := by
  cases kind with
  | vint => rfl
  | _ => exact length_memoryBytes ..

theorem lengthBytes_pos (n : ℕ) (kind : StringKind) : 0 < kind.lengthBytes n := by
  cases kind with
  | vint =>
    rw [lengthBytes, encodeUint]
    split <;> exact Nat.succ_pos _
  | _ => exact Nat.succ_pos _

theorem appends (kind : StringKind) (value : List Byte) :
    Appends (ByteArray.Refines b e) (kind.write order value)
      (kind.bytes order e value.length ++ value) () := by
  cases kind with
  | f16 | f32 | f64 =>
    exact (ByteArray.appends_writeFixed order _).bind (ByteArray.appends_write value)
  | vint => exact (ByteArray.appends_write _).bind (ByteArray.appends_write value)

/-- The reader reads a length first, the one written or what is left of it. -/
theorem read_eq {kind : StringKind} {n : ℕ} {ba : ByteArray} {flat : FlatBuffer Byte}
    {rest : List Byte} (h : ba.Refines b e flat) (hrest : flat.rest = kind.bytes order e n ++ rest) :
    ∃ ba', kind.read order ba = ByteArray.read (n % 2 ^ kind.width) ba' ∧
      ba'.Refines b e (flat.skip (kind.bytes order e n).length) := by
  cases kind with
  | f16 =>
    obtain ⟨ba', hread, h'⟩ :=
      ByteArray.reads_readFixed order (n := 2) (by decide) (BitVec.ofNat 16 n) ba flat rest h hrest
    exact ⟨ba', (bind_of_ok hread).trans (by rw [BitVec.toNat_ofNat]; rfl), h'⟩
  | f32 =>
    obtain ⟨ba', hread, h'⟩ :=
      ByteArray.reads_readFixed order (n := 4) (by decide) (BitVec.ofNat 32 n) ba flat rest h hrest
    exact ⟨ba', (bind_of_ok hread).trans (by rw [BitVec.toNat_ofNat]; rfl), h'⟩
  | f64 =>
    obtain ⟨ba', hread, h'⟩ :=
      ByteArray.reads_readFixed order (n := 8) (by decide) (BitVec.ofNat 64 n) ba flat rest h hrest
    exact ⟨ba', (bind_of_ok hread).trans (by rw [BitVec.toNat_ofNat]; rfl), h'⟩
  | vint =>
    obtain ⟨ba', hread, h'⟩ :=
      ByteArray.reads_readUint64 order (BitVec.ofNat 64 n) ba flat rest h hrest
    exact ⟨ba', (bind_of_ok hread).trans (by rw [BitVec.toNat_ofNat]; rfl), h'⟩

end StringKind

/-! ### The round trip -/

/-- At the end of the bytes there is no node when they end with one. -/
theorem ByteArray.Refines.position_eq_capacity {b : ℕ} {e : Endian} {ba : ByteArray}
    {flat : FlatBuffer Byte} (h : ba.Refines b e flat) (hend : flat.position = flat.size)
    (hpos : 0 < flat.size) : ba.position = ba.capacity ↔ b ∣ flat.size := by
  have hcapacity : ba.capacity = ba.nodes.length * b := h.baseSize ▸ h.inv.capacity_eq
  have hle : flat.size ≤ ba.capacity := h.size_eq ▸ h.inv.size_le
  have hlt : ba.capacity < flat.size + b := by
    rcases h.tight with hone | htight
    · rw [hcapacity, hone]
      omega
    · rwa [← h.size_eq, h.baseSize] at htight
  rw [← h.position, hend, hcapacity] at *
  constructor
  · intro heq
    exact heq ▸ Nat.dvd_mul_left ..
  · intro hdvd
    have hsub : b ∣ ba.nodes.length * b - flat.size := Nat.dvd_sub (Nat.dvd_mul_left ..) hdvd
    have hzero := Nat.eq_zero_of_dvd_of_lt hsub (by omega)
    omega

section Sequences

variable {b : ℕ} {e : Endian} (order : Endian)

def CodedString.bytes (e : Endian) (s : CodedString) : List Byte :=
  s.kind.bytes order e s.value.length ++ s.value

theorem CodedString.length_bytes (s : CodedString) : (s.bytes order e).length = s.writtenBytes := by
  rw [CodedString.bytes, List.length_append, StringKind.length_bytes, CodedString.writtenBytes]

/-- The last string is empty. -/
def EndsEmpty (strings : List CodedString) : Prop := ∃ s ∈ strings.getLast?, s.value = []

theorem writeStrings_spec (strings : List CodedString) {ba : ByteArray} {flat : FlatBuffer Byte}
    (h : ba.Refines b e flat) (hend : flat.position = flat.size) :
    ∃ ba', writeStrings order strings ba = .ok () ba' ∧
      ba'.Refines b e (flat.write (strings.flatMap (CodedString.bytes order e))) := by
  induction strings generalizing ba flat with
  | nil => exact ⟨ba, rfl, flat.write_nil.symm ▸ h⟩
  | cons s strings ih =>
    obtain ⟨ba₁, hwrite, h₁⟩ := s.kind.appends order s.value ba flat h hend
    obtain ⟨ba₂, hrest, h₂⟩ := ih h₁ (write_end hend _)
    rw [write_append hend] at h₂
    exact ⟨ba₂, (bind_of_ok hwrite).trans hrest, h₂⟩

section Step

variable {kind : StringKind} {kinds : List StringKind} {value : List Byte}
  {values : List (List Byte)} {ba ba₁ : ByteArray}

theorem readStrings_of_ok {bytes : List Byte} (h : kind.read order ba = .ok bytes ba₁) :
    (∃ ba', readStrings order (kind :: kinds) ba = .ok (value :: values) ba') ↔
      bytes = value ∧ ∃ ba', readStrings order kinds ba₁ = .ok values ba' := by
  rw [readStrings, bind_of_ok h]
  change (∃ ba', EStateM.bind (readStrings order kinds) _ ba₁ = _) ↔ _
  simp only [EStateM.bind]
  cases readStrings order kinds ba₁ with
  | ok bs ba₂ => simp [pure, EStateM.pure, and_assoc]
  | error error ba₂ => simp

theorem readStrings_of_error {error : ByteArrayError} (h : kind.read order ba = .error error ba₁)
    (result : List (List Byte)) (ba' : ByteArray) :
    readStrings order (kind :: kinds) ba ≠ .ok result ba' := by
  rw [readStrings]
  change EStateM.bind (kind.read order) _ ba ≠ _
  simp only [EStateM.bind, h]
  simp

end Step

theorem endsEmpty_cons (s : CodedString) (strings : List CodedString) :
    EndsEmpty (s :: strings) ↔ EndsEmpty strings ∨ strings = [] ∧ s.value = [] := by
  cases strings with
  | nil => simp [EndsEmpty]
  | cons s' strings => simp [EndsEmpty, List.getLast?_cons_cons]

theorem position_eq_size {flat : FlatBuffer Byte} (h : flat.rest = []) :
    flat.position = flat.size := by
  have hlength := congrArg List.length h
  rw [flat.length_rest, readSize, List.length_nil] at hlength
  have hle : flat.position ≤ flat.size := flat.position_le
  omega

/-- Every string takes at least the byte of its length. -/
theorem eq_nil_of_flatMap_bytes {strings : List CodedString}
    (h : strings.flatMap (CodedString.bytes order e) = []) : strings = [] := by
  cases strings with
  | nil => rfl
  | cons s strings =>
    have hlength := congrArg List.length h
    have hpos := s.kind.lengthBytes_pos s.value.length
    rw [List.flatMap_cons, List.length_append, CodedString.length_bytes, CodedString.writtenBytes,
      List.length_nil] at hlength
    omega

section Value

variable {s : CodedString} {ba : ByteArray} {flat : FlatBuffer Byte} {rest : List Byte}

/-- A string whose length fits is read, unless it is empty at the end of a node. -/
theorem read_value (h : ba.Refines b e flat) (hrest : flat.rest = s.value ++ rest) (hs : s.Fits)
    (hroom : s.value = [] → ba.position ≠ ba.capacity) :
    ∃ ba', ByteArray.read (s.value.length % 2 ^ s.kind.width) ba = .ok s.value ba' ∧
      ba'.Refines b e (flat.skip s.value.length) := by
  rw [Nat.mod_eq_of_lt hs]
  by_cases hempty : s.value = []
  · refine ⟨ba, ?_, ?_⟩
    · rw [hempty, List.length_nil, h.read_zero, if_neg (hroom hempty)]
    · rw [hempty, List.length_nil, flat.skip_zero]
      exact h
  · exact ByteArray.reads_read rfl (List.length_pos_iff.mpr hempty) ba flat rest h hrest

/-- What is read with a length that has been cut is not the string. -/
theorem read_cut (h : ba.Refines b e flat) (hrest : flat.rest = s.value ++ rest) (hs : ¬s.Fits)
    (ba' : ByteArray) :
    ByteArray.read (s.value.length % 2 ^ s.kind.width) ba ≠ .ok s.value ba' := by
  have hlt : s.value.length % 2 ^ s.kind.width < s.value.length :=
    (Nat.mod_lt _ (Nat.two_pow_pos _)).trans_le (Nat.le_of_not_lt hs)
  intro hread
  rcases Nat.eq_zero_or_pos (s.value.length % 2 ^ s.kind.width) with hzero | hpos
  · have hvalue : s.value = [] := by
      rw [hzero, h.read_zero] at hread
      split at hread
      · cases hread
      · exact (EStateM.Result.ok.inj hread).1.symm
    rw [hvalue, List.length_nil] at hlt
    omega
  · have hle : s.value.length % 2 ^ s.kind.width ≤ flat.readSize := by
      rw [← flat.length_rest, hrest, List.length_append]
      omega
    obtain ⟨ba₁, hok, -⟩ := h.read hpos hle
    have htake := congrArg List.length (EStateM.Result.ok.inj (hok.symm.trans hread)).1
    rw [List.length_take, flat.length_rest] at htake
    omega

end Value

/-- The strings that have been written are read again if their lengths fit and there is a node for
the last one. -/
theorem readStrings_spec (strings : List CodedString) {ba : ByteArray} {flat : FlatBuffer Byte}
    (h : ba.Refines b e flat)
    (hrest : flat.rest = strings.flatMap (CodedString.bytes order e)) :
    (∃ ba', readStrings order (strings.map CodedString.kind) ba =
        .ok (strings.map CodedString.value) ba') ↔
      (∀ s ∈ strings, s.Fits) ∧ ¬(EndsEmpty strings ∧ b ∣ flat.size) := by
  induction strings generalizing ba flat with
  | nil => simp [readStrings, EndsEmpty, pure, EStateM.pure]
  | cons s strings ih =>
    rw [List.flatMap_cons, CodedString.bytes, List.append_assoc] at hrest
    obtain ⟨ba₁, hread, h₁⟩ := StringKind.read_eq order h hrest
    have hrest₁ : (flat.skip (s.kind.bytes order e s.value.length).length).rest =
        s.value ++ strings.flatMap (CodedString.bytes order e) := by
      rw [flat.rest_skip, hrest]
      exact List.drop_left
    have hpos : 0 < flat.size := by
      have hlength := congrArg List.length hrest
      have hfield := s.kind.lengthBytes_pos s.value.length
      rw [flat.length_rest, readSize, List.length_append, StringKind.length_bytes] at hlength
      omega
    rw [List.map_cons, List.map_cons, List.forall_mem_cons, endsEmpty_cons]
    generalize hflat₁ : flat.skip (s.kind.bytes order e s.value.length).length = flat₁ at h₁ hrest₁
    have hsize : flat₁.size = flat.size := hflat₁ ▸ rfl
    have hfull : flat₁.rest = [] → (ba₁.position = ba₁.capacity ↔ b ∣ flat.size) := fun hnil ↦
      hsize ▸ h₁.position_eq_capacity (position_eq_size hnil) (hsize.symm ▸ hpos)
    by_cases hs : s.Fits
    · by_cases hend : s.value = [] ∧ ba₁.position = ba₁.capacity
      · -- the last string is empty, and there is no node to look at
        have hnil : flat₁.rest = [] := by
          refine List.eq_nil_of_length_eq_zero ?_
          have hle := h₁.inv.size_le
          rw [flat₁.length_rest, readSize, h₁.size_eq, h₁.position, hend.2]
          omega
        have hlast : strings = [] := by
          rw [hrest₁, hend.1, List.nil_append] at hnil
          exact eq_nil_of_flatMap_bytes order hnil
        have herror : ByteArray.read (s.value.length % 2 ^ s.kind.width) ba₁ =
            .error .nullNode ba₁ := by
          rw [hend.1, List.length_nil, Nat.zero_mod, h₁.read_zero, if_pos hend.2]
        constructor
        · rintro ⟨ba', hok⟩
          exact absurd hok (readStrings_of_error order (hread.trans herror) _ ba')
        · rintro ⟨-, hnot⟩
          exact absurd ⟨.inr ⟨hlast, hend.1⟩, (hfull hnil).mp hend.2⟩ hnot
      · obtain ⟨ba₂, hvalue, h₂⟩ := read_value h₁ hrest₁ hs fun hempty hat ↦ hend ⟨hempty, hat⟩
        have hrest₂ : (flat₁.skip s.value.length).rest =
            strings.flatMap (CodedString.bytes order e) := by
          rw [flat₁.rest_skip, hrest₁]
          exact List.drop_left
        have hnot : strings = [] ∧ s.value = [] → ¬b ∣ flat.size := by
          rintro ⟨hlast, hempty⟩ hdvd
          have hnil : flat₁.rest = [] := by
            rw [hrest₁, hlast, hempty]
            rfl
          exact hend ⟨hempty, (hfull hnil).mpr hdvd⟩
        have hsize₂ : (flat₁.skip s.value.length).size = flat.size := hsize
        rw [readStrings_of_ok order (hread.trans hvalue), ih h₂ hrest₂, hsize₂]
        constructor
        · rintro ⟨-, hfits, hends⟩
          exact ⟨⟨hs, hfits⟩, fun h ↦ h.1.elim (fun hlast ↦ hends ⟨hlast, h.2⟩) (hnot · h.2)⟩
        · rintro ⟨⟨-, hfits⟩, hends⟩
          exact ⟨rfl, hfits, fun h ↦ hends ⟨.inl h.1, h.2⟩⟩
    · constructor
      · rintro ⟨ba', hok⟩
        cases hvalue : ByteArray.read (s.value.length % 2 ^ s.kind.width) ba₁ with
        | ok bytes ba₂ =>
          have heq := ((readStrings_of_ok order (hread.trans hvalue)).mp ⟨ba', hok⟩).1
          exact absurd (heq ▸ hvalue) (read_cut h₁ hrest₁ hs ba₂)
        | error error ba₂ =>
          exact absurd hok (readStrings_of_error order (hread.trans hvalue) _ ba')
      · rintro ⟨⟨hfits, -⟩, -⟩
        exact absurd hfits hs

/-- Strings come back after `setPosition(0)` exactly when their lengths fit and the last one is not
an empty one that ends at the end of a node. No write says that a length does not fit. -/
theorem stringRoundTrip (little : Bool) {b : ℕ} (hb : 1 ≤ b) (strings : List CodedString) :
    (∃ ba, writeStrings order strings ((ByteArray.create b).setIsLittleEndian little) =
        .ok () ba) ∧
      ((∃ ba, stringsAgain order strings ((ByteArray.create b).setIsLittleEndian little) =
          .ok (strings.map CodedString.value) ba) ↔
        (∀ s ∈ strings, s.Fits) ∧
          ¬(EndsEmpty strings ∧ b ∣ (strings.map CodedString.writtenBytes).sum)) := by
  have hcreate := (ByteArray.Refines.create hb).setIsLittleEndian little
  generalize (if little then Endian.little else Endian.big) = e at hcreate
  obtain ⟨ba₁, hwrite, h₁⟩ := writeStrings_spec order strings hcreate rfl
  obtain ⟨ba₂, hseek, h₂⟩ := h₁.setPosition (Nat.zero_le _)
  have hdata : (FlatBuffer.empty.write (strings.flatMap (CodedString.bytes order e))).data =
      strings.flatMap (CodedString.bytes order e) := data_write_of_end rfl _
  have hread := readStrings_spec order strings h₂ ((rest_seek_zero _).trans hdata)
  have hsize : ((FlatBuffer.empty.write (strings.flatMap (CodedString.bytes order e))).seek 0).size =
      (strings.map CodedString.writtenBytes).sum := by
    change (FlatBuffer.empty.write (strings.flatMap (CodedString.bytes order e))).data.length = _
    rw [hdata, List.length_flatMap]
    simp only [CodedString.length_bytes]
  rw [hsize] at hread
  refine ⟨⟨ba₁, hwrite⟩, ?_⟩
  rw [← hread, stringsAgain, bind_of_ok hwrite, bind_of_ok hseek]

end Sequences

/-- The bytes of one empty string end with a node. -/
theorem stringRoundTrip_lastEmpty :
    ∃ ba, stringsAgain .little [⟨.f16, []⟩] (ByteArray.create 1) = .error .nullNode ba :=
  ⟨_, rfl⟩

/-- An empty string at the end, in the middle of a node. -/
theorem stringRoundTrip_nodeLeft :
    ∃ ba, stringsAgain .little [⟨.f32, [1, 2, 3]⟩, ⟨.f16, []⟩]
      ((ByteArray.create 4).setIsLittleEndian true) = .ok [[1, 2, 3], []] ba :=
  (stringRoundTrip .little true (by decide) [⟨.f32, [1, 2, 3]⟩, ⟨.f16, []⟩]).2.mpr
    ⟨by decide +kernel, fun h ↦ absurd h.2 (by decide)⟩

end Rsylar
