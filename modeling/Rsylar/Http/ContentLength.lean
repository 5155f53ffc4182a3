import Mathlib.Algebra.Group.Int.Defs
import Mathlib.Algebra.Group.Nat.Defs
import Rsylar.Http.RequestStream

/-!
# The length of a body

What `recvRequest` makes of the value of a content-length header. The value goes through
`lexical_cast`, which takes a sign, with 0 for what is no number of 64 bits, and then becomes an
`int64_t`; the maximum for the size of a body is not looked at.

`bodyLength` is the values for which the request has a body of exactly that size, or is rejected:
the numbers up to the maximum that are an `int64_t`. All other values are read as another number or
as no body, except that the negative of a number above 2^63 is read as a positive length, and a
request with it is rejected when too few bytes follow.
-/

set_option autoImplicit false
set_option relaxedAutoImplicit false

namespace Rsylar.Http

open Scanner

/-- The number of a text that has digits only. -/
def digitsValue (s : List Byte) : Option ℕ :=
  if s ≠ [] ∧ s.all (fun c ↦ (charOf c).isDigit) then some (ofDigits s) else none

/-- The integer of a text of digits with or without a sign. -/
def integerValue : List Byte → Option ℤ
  | 43#8 :: s => (digitsValue s).map Int.ofNat
  | 45#8 :: s => (digitsValue s).map Int.negOfNat
  | s => (digitsValue s).map Int.ofNat

/-- The argument of `body.resize`, 0 when it is not called. -/
def HttpSession.bodySize (p : HttpRequestParser) : ℕ := p.data.request.headers.contentLength.toNat

/-- The result of `recvRequest` for the value of the header: a request with a body of exactly that
size, or a rejection, and no more than the maximum is allocated. -/
def LengthKept (max : ℕ) (value : List Byte) (allocated : ℕ)
    (result : Except ReceiveError HttpRequest) : Prop :=
  allocated ≤ max ∧ (result = .error .closed ∨
    ∃ n : ℕ, integerValue value = some (n : ℤ) ∧ n ≤ max ∧ ∃ r, result = .ok r ∧ r.body.length = n)

/-- The bytes of a body of the length do not all come, or the number of those that are still to be
read is no positive `int`. -/
def Missing (length : ℤ) (data : List Byte) (s : HttpSession) : Prop :=
  data.length < length ∧ (s.bytes.length < length.toNat - data.length ∨
    (BitVec.ofNat 32 (length.toNat - data.length)).toInt ≤ 0)

section Lengths

variable {value data : List Byte} {s : HttpSession} {p : HttpRequestParser} {hs : Headers}

theorem castDigits_eq (s : List Byte) :
    castDigits s = (digitsValue s).filter fun n ↦ n < 2 ^ 64 := by
  rw [castDigits, digitsValue]
  by_cases hdigits : s ≠ [] ∧ s.all (fun c ↦ (charOf c).isDigit)
  · rw [if_pos hdigits]
    by_cases hlt : ofDigits s < 2 ^ 64
    · rw [if_pos ⟨hdigits.1, hdigits.2, hlt⟩, Option.filter_some_pos (by simpa using hlt)]
    · rw [if_neg fun h ↦ hlt h.2.2, Option.filter_some_neg (by simpa using hlt)]
  · rw [if_neg hdigits, if_neg fun h ↦ hdigits ⟨h.1, h.2.1⟩, Option.filter_none]

/-- The cast is the integer modulo 2^64, when the number without its sign is below. -/
theorem lexicalCastUint64_eq (value : List Byte) :
    lexicalCastUint64 value = (integerValue value).bind fun z ↦
      if z.natAbs < 2 ^ 64 then some (z % 2 ^ 64).toNat else none := by
  have hcast : ∀ s : List Byte, castDigits s = (digitsValue s).bind fun n ↦
      if n < 2 ^ 64 then some n else none := by
    intro s
    rw [castDigits_eq]
    cases digitsValue s with
    | none => rfl
    | some n => simp [Option.filter_some]
  have hpos : ∀ s : List Byte, castDigits s = ((digitsValue s).map Int.ofNat).bind fun z ↦
      if z.natAbs < 2 ^ 64 then some (z % 2 ^ 64).toNat else none := by
    intro s
    rw [hcast]
    cases digitsValue s with
    | none => rfl
    | some n =>
      simp only [Option.map_some, Option.bind_some, Int.ofNat_eq_natCast, Int.natAbs_natCast]
      split
      · congr 1
        omega
      · rfl
  unfold integerValue
  split
  · rw [lexicalCastUint64]
    exact hpos _
  · rename_i s
    rw [lexicalCastUint64, hcast]
    cases digitsValue s with
    | none => rfl
    | some n =>
      simp only [Option.map_some, Option.bind_some, Int.negOfNat_eq, Int.ofNat_eq_natCast,
        Int.natAbs_neg, Int.natAbs_natCast]
      split
      · rw [Option.map_some]
        congr 1
        omega
      · rfl
  · rename_i hplus hminus
    rw [lexicalCastUint64.eq_3 value hplus hminus]
    exact hpos _

/-- The length that the code reads from the value. -/
theorem contentLength_eq {h : Header} (hfind : hs.find (bytesOf "content-length") = some h) :
    hs.contentLength = ((integerValue h.value).filter fun z ↦ z.natAbs < 2 ^ 64).elim 0
      fun z ↦ z.bmod (2 ^ 64) := by
  rw [Headers.contentLength, hfind, Option.bind_some, lexicalCastUint64_eq, BitVec.toInt_ofNat']
  cases integerValue h.value with
  | none => rfl
  | some z =>
    rw [Option.bind_some, Option.filter_some]
    simp only [decide_eq_true_eq]
    split
    · rw [Option.getD_some, Option.elim_some, Int.toNat_of_nonneg (by omega)]
      exact_mod_cast Int.emod_bmod z (2 ^ 64)
    · rfl

theorem length_body_init (r : HttpRequest) : r.init.body = r.body := by
  rw [HttpRequest.init]
  split
  · rfl
  · rfl

/-- A body of the length is returned when no byte of it is missing. -/
theorem recvBody_of_come (hs : s.connected) (hbody : p.data.request.body = [])
    (hcome : ¬ Missing p.data.request.headers.contentLength data s) :
    ∃ r s', HttpSession.recvBody p data s = .ok (r, s') ∧
      r.body.length = HttpSession.bodySize p := by
  rw [HttpSession.recvBody, HttpSession.bodySize]
  rw [Missing] at hcome
  generalize p.data.request.headers.contentLength = length at hcome ⊢
  by_cases hnone : length ≤ 0
  · refine ⟨_, _, if_pos hnone, ?_⟩
    rw [length_body_init, hbody, List.length_nil, Int.toNat_of_nonpos hnone]
  · simp only [if_neg hnone]
    by_cases hall : length ≤ data.length
    · refine ⟨_, _, if_pos hall, ?_⟩
      rw [length_body_init]
      exact List.length_take_of_le (by omega)
    · have hrest : ¬(s.bytes.length < length.toNat - data.length) ∧
          ¬(BitVec.ofNat 32 (length.toNat - data.length)).toInt ≤ 0 :=
        not_or.mp fun h ↦ hcome ⟨by omega, h⟩
      have hread := SocketStream.readFixSize_eq hs (Nat.le_of_not_lt hrest.1)
        (Int.not_le.mp hrest.2)
      simp only [if_neg hall, hread]
      refine ⟨_, _, rfl, ?_⟩
      rw [length_body_init, List.length_append, List.length_take_of_le (Nat.le_of_not_lt hrest.1)]
      omega

theorem recvBody_of_missing (h : Missing p.data.request.headers.contentLength data s) :
    HttpSession.recvBody p data s = .error .closed := by
  obtain ⟨hlt, hrest⟩ := h
  rw [HttpSession.recvBody]
  simp only [if_neg (show ¬p.data.request.headers.contentLength ≤ 0 by omega),
    if_neg (show ¬p.data.request.headers.contentLength ≤ data.length by omega),
    SocketStream.readFixSize_eq_none hrest]

end Lengths

/-- When the value is kept: it is a number up to the maximum and below 2^63, or it is the negative
of a number above 2^63, the length that is read instead is not above the maximum, and bytes of it
are missing. -/
def Keepable (max : ℕ) (value data : List Byte) (s : HttpSession) : Prop :=
  (∃ n : ℕ, integerValue value = some (n : ℤ) ∧ n ≤ max ∧ n < 2 ^ 63) ∨
    ∃ m : ℕ, integerValue value = some (-(m : ℤ)) ∧ 2 ^ 63 < m ∧ m < 2 ^ 64 ∧ 2 ^ 64 - m ≤ max ∧
      Missing (2 ^ 64 - m) data s

/-- What is kept of an integer that becomes an `int64_t`. -/
theorem kept_iff {max : ℕ} {data : List Byte} {s : HttpSession} {z : ℤ} (hz : z.natAbs < 2 ^ 64) :
    (z.bmod (2 ^ 64)).toNat ≤ max ∧
        (Missing (z.bmod (2 ^ 64)) data s ∨ z = ((z.bmod (2 ^ 64)).toNat : ℤ)) ↔
      (∃ n : ℕ, z = n ∧ n ≤ max ∧ n < 2 ^ 63) ∨
        ∃ m : ℕ, z = -(m : ℤ) ∧ 2 ^ 63 < m ∧ m < 2 ^ 64 ∧ 2 ^ 64 - m ≤ max ∧
          Missing (2 ^ 64 - m) data s := by
  have hbmod := Int.bmod_def z (2 ^ 64)
  by_cases hlow : z < -(2 ^ 63)
  · -- the negative of a number above 2^63 becomes a positive length
    have hlength : z.bmod (2 ^ 64) = 2 ^ 64 + z := by omega
    rw [hlength]
    constructor
    · rintro ⟨hmax, hmissing | hvalue⟩
      · refine .inr ⟨z.natAbs, by omega, by omega, by omega, by omega, ?_⟩
        rwa [show (2 : ℤ) ^ 64 - z.natAbs = 2 ^ 64 + z by omega]
      · omega
    · rintro (⟨n, hn, -, -⟩ | ⟨m, rfl, -, -, hmax, hmissing⟩)
      · omega
      · exact ⟨by omega, .inl hmissing⟩
  · have hnotLong : ¬∃ m : ℕ, z = -(m : ℤ) ∧ 2 ^ 63 < m ∧ m < 2 ^ 64 ∧ 2 ^ 64 - m ≤ max ∧
        Missing (2 ^ 64 - m) data s := by
      rintro ⟨m, hm, hlt, -⟩
      omega
    rw [or_iff_left hnotLong]
    by_cases hhigh : z < 2 ^ 63
    · have hlength : z.bmod (2 ^ 64) = z := by omega
      rw [hlength]
      constructor
      · rintro ⟨hmax, ⟨hlt, -⟩ | hvalue⟩
        · exact ⟨z.toNat, by omega, by omega, by omega⟩
        · exact ⟨z.toNat, by omega, by omega, by omega⟩
      · rintro ⟨n, rfl, hmax, -⟩
        exact ⟨by omega, .inr rfl⟩
    · have hlength : z.bmod (2 ^ 64) = z - 2 ^ 64 := by omega
      rw [hlength]
      refine iff_of_false ?_ ?_
      · rintro ⟨-, ⟨hlt, -⟩ | hvalue⟩
        · omega
        · omega
      · rintro ⟨n, hn, -, hlt⟩
        omega

/-- The value of the header is the size of the body, or the request is rejected, exactly for the
values that are kept. -/
theorem bodyLength (relaxed : Bool) (b : BufferSize) (max : ℕ) (s s' : HttpSession)
    (p : HttpRequestParser) (data : List Byte) (h : Header)
    (hhead : requestCallbacks.recvHead b.size (s.bytes.length + 1) (newRequestParser relaxed) [] s =
      .ok (p, data, s'))
    (hfind : p.data.request.headers.find (bytesOf "content-length") = some h) :
    LengthKept max h.value (HttpSession.bodySize p) (HttpSession.recvRequest relaxed b s).1 ↔
      Keepable max h.value data s' := by
  obtain ⟨⟨calls, hcalls⟩, hopen⟩ := recvHead_ok hhead
  have hbody : p.data.request.body = [] := by
    rw [hcalls]
    exact RequestData.body_foldl calls (newRequestParser relaxed).data
  have hresult : LengthKept max h.value (HttpSession.bodySize p)
      (HttpSession.recvRequest relaxed b s).1 ↔ HttpSession.bodySize p ≤ max ∧
        (Missing p.data.request.headers.contentLength data s' ∨
          integerValue h.value = some (HttpSession.bodySize p : ℤ)) := by
    rw [LengthKept, HttpSession.recvRequest, hhead]
    refine and_congr_right fun hmax ↦ ?_
    by_cases hmissing : Missing p.data.request.headers.contentLength data s'
    · simp only [bind, Except.bind, recvBody_of_missing hmissing]
      exact iff_of_true (.inl trivial) (.inl hmissing)
    · obtain ⟨r, s₂, hok, hlength⟩ := recvBody_of_come hopen hbody hmissing
      simp only [bind, Except.bind, hok]
      constructor
      · rintro (hclosed | ⟨n, hvalue, -, r', hr, hn⟩)
        · cases hclosed
        · cases hr
          exact .inr (by rw [hvalue, ← hn, hlength])
      · intro hvalue
        exact .inr ⟨_, hvalue.resolve_left hmissing, hmax, r, rfl, hlength⟩
  rw [hresult, HttpSession.bodySize, contentLength_eq hfind, Keepable]
  cases integerValue h.value with
  | none => simp [Missing]
  | some z =>
    rw [Option.filter_some]
    simp only [decide_eq_true_eq, Option.some.injEq, Missing]
    split
    · rename_i hlt
      exact kept_iff hlt
    · rename_i hge
      rw [Option.elim_none, Int.toNat_zero]
      refine iff_of_false ?_ ?_
      · rintro ⟨-, ⟨hlt, -⟩ | hzero⟩
        · omega
        · omega
      · rintro (⟨n, hn, -, hlt⟩ | ⟨m, hm, -, hlt, -⟩)
        · omega
        · omega

/-- What the loop for the head finds as the value of the header. -/
def lengthHeader (s : HttpSession) : Option Header :=
  match requestCallbacks.recvHead defaultBuffer.size (s.bytes.length + 1) (newRequestParser false) []
    s with
  | .ok (p, _, _) => p.data.request.headers.find (bytesOf "content-length")
  | .error _ => none

theorem exists_head {s : HttpSession} {h : Header} (hs : lengthHeader s = some h) :
    ∃ p data s', requestCallbacks.recvHead defaultBuffer.size (s.bytes.length + 1)
        (newRequestParser false) [] s = .ok (p, data, s') ∧
      p.data.request.headers.find (bytesOf "content-length") = some h := by
  rw [lengthHeader] at hs
  split at hs
  · rename_i p data s' hhead
    exact ⟨p, data, s', hhead, hs⟩
  · cases hs

/-- Two bytes of body. -/
def putTwo : HttpSession := arriving ["PUT / HTTP/1.1\r\ncontent-length: +2\r\n\r\nab"]

theorem bodyLength_putTwo : ∃ p : HttpRequestParser,
    LengthKept 2 (bytesOf "+2") (HttpSession.bodySize p)
      (HttpSession.recvRequest false defaultBuffer putTwo).1 := by
  have hheader : lengthHeader putTwo = some ⟨bytesOf "content-length", bytesOf "+2"⟩ := by
    decide +kernel
  obtain ⟨p, data, s', hhead, hfind⟩ := exists_head hheader
  exact ⟨p, (bodyLength false defaultBuffer 2 putTwo s' p data _ hhead hfind).mpr
    (.inl ⟨2, by decide +kernel, by decide, by decide⟩)⟩

/-- A value that is no number, with the bytes that it may have announced behind the head. -/
def putMalformed : HttpSession := arriving ["PUT / HTTP/1.1\r\ncontent-length: 2 \r\n\r\nab"]

/-- It is read as no body. -/
theorem not_lengthKept_malformed :
    ¬ ∀ (p : HttpRequestParser) (data : List Byte) (s' : HttpSession) (h : Header),
      requestCallbacks.recvHead defaultBuffer.size (putMalformed.bytes.length + 1)
        (newRequestParser false) [] putMalformed = .ok (p, data, s') →
      p.data.request.headers.find (bytesOf "content-length") = some h →
      LengthKept (64 * 1024 * 1024) h.value (HttpSession.bodySize p)
        (HttpSession.recvRequest false defaultBuffer putMalformed).1 := by
  intro hkept
  have hheader : lengthHeader putMalformed = some ⟨bytesOf "content-length", bytesOf "2 "⟩ := by
    decide +kernel
  obtain ⟨p, data, s', hhead, hfind⟩ := exists_head hheader
  obtain ⟨-, hclosed | ⟨n, hvalue, -⟩⟩ := hkept p data s' _ hhead hfind
  · exact absurd hclosed (by decide +kernel)
  · have hnone : integerValue (bytesOf "2 ") = none := by decide
    rw [hnone] at hvalue
    cases hvalue

end Rsylar.Http
