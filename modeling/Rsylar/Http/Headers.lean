import Mathlib.Algebra.Group.Nat.Defs
import Mathlib.Data.List.Lex
import Rsylar.Foundations.OrderedSet
import Rsylar.Sylar.ByteArray

/-!
# Strings and headers

The functions of the C library and of `boost::lexical_cast` that the HTTP code calls, and the map
of the headers of a message. Strings are lists of bytes; a C function sees a string up to its first
zero byte.
-/

set_option autoImplicit false
set_option relaxedAutoImplicit false

namespace Rsylar.Http

def byteOf (c : Char) : Byte := BitVec.ofNat 8 c.toNat

def charOf (c : Byte) : Char := Char.ofNat c.toNat

/-- The bytes of a text of the source. -/
def bytesOf (s : String) : List Byte := s.toList.map byteOf

/-- A number as a stream writes it. -/
def decimal (n : ℕ) : List Byte := (Nat.toDigits 10 n).map byteOf

/-- What a C function sees of a string. -/
def cString (s : List Byte) : List Byte := s.takeWhile (· ≠ 0)

/-- `tolower` in the C locale. -/
def toLower (c : ℕ) : ℕ := if 65 ≤ c ∧ c ≤ 90 then c + 32 else c

/-- What `strcasecmp` compares. -/
def caseKey (s : List Byte) : List ℕ := (cString s).map fun c ↦ toLower c.toNat

/-- `strcasecmp(s, t) == 0` -/
def strcasecmp (s t : List Byte) : Bool := decide (caseKey s = caseKey t)

/-- `strncmp(s, t, n) == 0` -/
def strncmp (s t : List Byte) (n : ℕ) : Bool := decide (cString (s.take n) = cString (t.take n))

/-- The number of decimal digits. -/
def ofDigits (s : List Byte) : ℕ := Nat.ofDigitChars 10 (s.map charOf) 0

/-- The number of a text that has digits only and is a `uint64_t`. -/
def castDigits (s : List Byte) : Option ℕ :=
  if s ≠ [] ∧ s.all (fun c ↦ (charOf c).isDigit) ∧ ofDigits s < 2 ^ 64 then some (ofDigits s)
  else none

/-- `boost::lexical_cast<uint64_t>`: a sign is accepted, and the negative of a number is taken
modulo `2^64`; `none` when it throws. -/
def lexicalCastUint64 : List Byte → Option ℕ
  | 43#8 :: s => castDigits s
  | 45#8 :: s => (castDigits s).map fun n ↦ (2 ^ 64 - n) % 2 ^ 64
  | s => castDigits s

/-- An entry of `MapType`. -/
structure Header where
  name : List Byte
  value : List Byte
deriving DecidableEq

def Header.key (h : Header) : List ℕ := caseKey h.name

/-- `std::map<std::string, std::string, CaseInsensitiveLess>` -/
structure Headers where
  list : List Header := []
  sorted : OrderedSet.Sorted Header.key list := by exact List.Pairwise.nil
deriving DecidableEq

namespace Headers

theorem sorted_nil : OrderedSet.Sorted Header.key [] := List.Pairwise.nil

def find (hs : Headers) (name : List Byte) : Option Header :=
  OrderedSet.find Header.key (caseKey name) hs.list

/-- `m_headers[key] = val`: a name that is there is kept as it is written. -/
def setHeader (hs : Headers) (name value : List Byte) : Headers where
  list := OrderedSet.assign Header.key ⟨((hs.find name).map Header.name).getD name, value⟩ hs.list
  sorted := hs.sorted.assign

/-- `getHeader` with the empty string as the default. -/
def getHeader (hs : Headers) (name : List Byte) : List Byte :=
  ((hs.find name).map Header.value).getD []

/-- `getHeaderAs<uint64_t>` with the default `0`, as an `int64_t`. -/
def contentLength (hs : Headers) : ℤ :=
  (BitVec.ofNat 64 (((hs.find (bytesOf "content-length")).bind fun h ↦
    lexicalCastUint64 h.value).getD 0)).toInt

variable {hs : Headers} {name name' value : List Byte}

/-- The last value that was set for a name is found, under any spelling of the name. -/
theorem find_setHeader :
    ((hs.setHeader name value).find name').map Header.value =
      if caseKey name = caseKey name' then some value
      else (hs.find name').map Header.value := by
  have hkey : Header.key ⟨((hs.find name).map Header.name).getD name, value⟩ = caseKey name := by
    cases hfind : hs.find name with
    | none => rfl
    | some h => exact show h.key = caseKey name from OrderedSet.key_of_find hs.sorted hfind
  rw [find, setHeader, OrderedSet.find_assign hs.sorted, hkey]
  split
  · rfl
  · rfl

end Headers

/-! ### Numbers -/

theorem charOf_byteOf {c : Char} (h : c.toNat < 256) : charOf (byteOf c) = c := by
  rw [charOf, byteOf, BitVec.toNat_ofNat, Nat.mod_eq_of_lt h, Char.ofNat_toNat]

theorem toNat_lt_of_isDigit {c : Char} (h : c.isDigit) : c.toNat < 58 := by
  simp only [Char.isDigit, Bool.and_eq_true, decide_eq_true_eq] at h
  exact Nat.lt_succ_of_le h.2

theorem isDigit_of_mem_decimal {n : ℕ} {c : Byte} (h : c ∈ decimal n) : (charOf c).isDigit := by
  obtain ⟨d, hd, rfl⟩ := List.mem_map.mp h
  have hdigit : d.isDigit := Nat.isDigit_of_mem_toDigits (by decide) (by decide) hd
  have hlt := toNat_lt_of_isDigit hdigit
  rwa [charOf_byteOf (by omega)]

theorem ofDigits_decimal (n : ℕ) : ofDigits (decimal n) = n := by
  have hmap : (decimal n).map charOf = Nat.toDigits 10 n := by
    rw [decimal, List.map_map]
    have hid : ∀ d ∈ Nat.toDigits 10 n, (charOf ∘ byteOf) d = id d := by
      intro d hd
      have hlt := toNat_lt_of_isDigit (Nat.isDigit_of_mem_toDigits (by decide) (by decide) hd)
      exact charOf_byteOf (by omega)
    rw [List.map_congr_left hid, List.map_id]
  rw [ofDigits, hmap, Nat.ofDigitChars_ten_toDigits]

theorem lexicalCastUint64_decimal {n : ℕ} (h : n < 2 ^ 64) :
    lexicalCastUint64 (decimal n) = some n := by
  have hne : decimal n ≠ [] := by
    rw [decimal, ne_eq, List.map_eq_nil_iff]
    exact Nat.toDigits_ne_nil
  have hall : (decimal n).all (fun c ↦ (charOf c).isDigit) :=
    List.all_eq_true.mpr fun c hc ↦ isDigit_of_mem_decimal hc
  have hvalue := ofDigits_decimal n
  generalize decimal n = s at *
  unfold lexicalCastUint64
  split
  · exact absurd (List.all_eq_true.mp hall _ List.mem_cons_self) (by decide)
  · exact absurd (List.all_eq_true.mp hall _ List.mem_cons_self) (by decide)
  · rw [castDigits, if_pos ⟨hne, hall, hvalue ▸ h⟩, hvalue]

end Rsylar.Http
