import Mathlib.Data.List.Flatten
import Rsylar.Sylar.ByteArray

/-!
# Reading from a socket

`SocketStream::read` and `Stream::readFixSize`. What arrives on a connection is a list of segments,
the results that successive calls of `recv` can have: a call returns the first segment, or as much
of it as it asks for, and the next call returns from the rest. When nothing is left the peer has
closed the connection.
-/

set_option autoImplicit false
set_option relaxedAutoImplicit false

namespace Rsylar

/-- The bytes of one result of `recv`. -/
structure Segment where
  bytes : List Byte
  nonempty : bytes ≠ []
deriving DecidableEq

structure SocketStream where
  connected : Bool := true
  segments : List Segment
deriving DecidableEq

namespace SocketStream

/-- All bytes that are still to come. -/
def bytes (s : SocketStream) : List Byte := s.segments.flatMap Segment.bytes

/-- How many bytes a `recv` of at most `n` bytes returns. -/
def readSize (n : ℕ) (s : SocketStream) : ℕ :=
  match s.segments with
  | [] => 0
  | seg :: _ => min n seg.bytes.length

def skipSegments : ℕ → List Segment → List Segment
  | _, [] => []
  | n, seg :: segs =>
    if h : n < seg.bytes.length then
      ⟨seg.bytes.drop n, fun hnil ↦ absurd (List.drop_eq_nil_iff.mp hnil) (Nat.not_le.mpr h)⟩ :: segs
    else skipSegments (n - seg.bytes.length) segs

attribute [local simp] skipSegments

/-- The connection after `n` bytes have been read. -/
def skip (n : ℕ) (s : SocketStream) : SocketStream :=
  { s with segments := skipSegments n s.segments }

/-- No bytes stand for a result of `0` or `-1`. -/
def read (n : ℕ) (s : SocketStream) : List Byte × SocketStream :=
  if s.connected then (s.bytes.take (s.readSize n), s.skip (s.readSize n)) else ([], s)

def close (s : SocketStream) : SocketStream := { s with connected := false }

/-- The loop of `readFixSize`; every turn reads a byte at least. `none` when a read fails. -/
def readLoop : ℕ → ℕ → SocketStream → Option (List Byte × SocketStream)
  | _, 0, s => some ([], s)
  | 0, _ + 1, _ => none
  | fuel + 1, left + 1, s =>
    let (bytes, s') := s.read (left + 1)
    if bytes = [] then none
    else
      (readLoop fuel (left + 1 - bytes.length) s').map fun (rest, s'') ↦ (bytes ++ rest, s'')

/-- The result is `length` as an `int`, and what its caller sees is whether it is positive. -/
def readFixSize (length : ℕ) (s : SocketStream) : Option (List Byte × SocketStream) :=
  (readLoop length length s).filter fun _ ↦ 0 < (BitVec.ofNat 32 length).toInt

/-- Where the `i`-th of successive reads of at most `n` bytes ends. -/
def readEnd (n : ℕ) (s : SocketStream) : ℕ → ℕ
  | 0 => 0
  | i + 1 => readEnd n s i + (s.skip (readEnd n s i)).readSize n

variable {s : SocketStream} {n : ℕ}

theorem bytes_skipSegments (n : ℕ) (segs : List Segment) :
    (skipSegments n segs).flatMap Segment.bytes = (segs.flatMap Segment.bytes).drop n := by
  induction segs generalizing n with
  | nil => simp [skipSegments]
  | cons seg segs ih =>
    rw [skipSegments, List.flatMap_cons]
    split
    · rename_i h
      rw [List.flatMap_cons, List.drop_append_of_le_length (Nat.le_of_lt h)]
    · rename_i h
      rw [ih, List.drop_append, List.drop_of_length_le (Nat.not_lt.mp h), List.nil_append]

@[simp]
theorem bytes_skip : (s.skip n).bytes = s.bytes.drop n := bytes_skipSegments n s.segments

@[simp]
theorem connected_skip : (s.skip n).connected = s.connected := rfl

theorem skipSegments_skipSegments (m n : ℕ) (segs : List Segment) :
    skipSegments n (skipSegments m segs) = skipSegments (m + n) segs := by
  induction segs generalizing m with
  | nil => rfl
  | cons seg segs ih =>
    have hpos := List.length_pos_iff.mpr seg.nonempty
    rw [skipSegments, skipSegments]
    by_cases hm : m < seg.bytes.length
    · rw [dif_pos hm, skipSegments]
      by_cases hmn : m + n < seg.bytes.length
      · rw [dif_pos hmn, dif_pos (by rw [List.length_drop]; omega)]
        congr 1
        rw [Segment.mk.injEq]
        exact List.drop_drop
      · rw [dif_neg hmn, dif_neg (by rw [List.length_drop]; omega)]
        congr 1
        rw [List.length_drop]
        omega
    · rw [dif_neg hm, dif_neg (by omega), ih]
      congr 1
      omega

@[simp]
theorem skip_skip (m : ℕ) : (s.skip m).skip n = s.skip (m + n) := by
  simp only [skip, skipSegments_skipSegments]

@[simp]
theorem skip_zero : s.skip 0 = s := by
  obtain ⟨connected, segments⟩ := s
  cases segments with
  | nil => rfl
  | cons seg segs =>
    rw [skip, skipSegments, dif_pos (List.length_pos_iff.mpr seg.nonempty)]
    rfl

theorem readSize_le : s.readSize n ≤ n := by
  rw [readSize]
  split
  · exact Nat.zero_le n
  · exact Nat.min_le_left n _

theorem readSize_le_length : s.readSize n ≤ s.bytes.length := by
  rw [readSize, bytes]
  split
  · exact Nat.zero_le _
  · rename_i seg segs heq
    rw [heq, List.flatMap_cons, List.length_append]
    omega

theorem readSize_pos (hn : 0 < n) (hs : s.bytes ≠ []) : 0 < s.readSize n := by
  rw [readSize]
  split
  · rename_i heq
    exact absurd (by rw [bytes, heq]; rfl) hs
  · rename_i seg segs heq
    have hpos := List.length_pos_iff.mpr seg.nonempty
    omega

theorem read_eq (hs : s.connected) (n : ℕ) :
    s.read n = (s.bytes.take (s.readSize n), s.skip (s.readSize n)) :=
  if_pos hs

theorem length_take_readSize : (s.bytes.take (s.readSize n)).length = s.readSize n :=
  List.length_take_of_le readSize_le_length

theorem readEnd_mono (s : SocketStream) (n : ℕ) {i j : ℕ} (h : i ≤ j) :
    s.readEnd n i ≤ s.readEnd n j := by
  induction j with
  | zero =>
    obtain rfl := Nat.le_zero.mp h
    exact Nat.le_refl _
  | succ j ih =>
    rcases Nat.lt_or_eq_of_le h with hlt | rfl
    · exact Nat.le_trans (ih (Nat.le_of_lt_succ hlt)) (Nat.le_add_right ..)
    · exact Nat.le_refl _

/-- The loop reads what it asks for when that much arrives. -/
theorem readLoop_eq {fuel left : ℕ} (hs : s.connected) (hfuel : left ≤ fuel)
    (hleft : left ≤ s.bytes.length) :
    readLoop fuel left s = some (s.bytes.take left, s.skip left) := by
  induction fuel generalizing left s with
  | zero =>
    obtain rfl : left = 0 := Nat.le_zero.mp hfuel
    rw [readLoop, skip_zero, List.take_zero]
  | succ fuel ih =>
    cases left with
    | zero => rw [readLoop, skip_zero, List.take_zero]
    | succ left =>
      have hne : s.bytes ≠ [] := List.ne_nil_of_length_pos (by omega)
      have hpos : 0 < s.readSize (left + 1) := readSize_pos (Nat.succ_pos left) hne
      have hle : s.readSize (left + 1) ≤ left + 1 := readSize_le
      have hlength : (s.bytes.take (s.readSize (left + 1))).length = s.readSize (left + 1) :=
        length_take_readSize
      have hrest : left + 1 - s.readSize (left + 1) ≤
          (s.skip (s.readSize (left + 1))).bytes.length := by
        rw [bytes_skip, List.length_drop]
        omega
      have hsum : s.readSize (left + 1) + (left + 1 - s.readSize (left + 1)) = left + 1 := by omega
      have hnonempty : s.bytes.take (s.readSize (left + 1)) ≠ [] :=
        List.ne_nil_of_length_pos (by omega)
      simp only [readLoop, read_eq hs, hnonempty, if_false, hlength]
      rw [ih (connected_skip.trans hs) (by omega) hrest, Option.map_some, bytes_skip, skip_skip,
        ← List.take_add, hsum]

/-- The loop fails when less arrives. -/
theorem readLoop_eq_none {fuel left : ℕ} (h : s.bytes.length < left) :
    readLoop fuel left s = none := by
  induction fuel generalizing left s with
  | zero =>
    cases left with
    | zero => exact absurd h (Nat.not_lt_zero _)
    | succ left => rfl
  | succ fuel ih =>
    cases left with
    | zero => exact absurd h (Nat.not_lt_zero _)
    | succ left =>
      cases hs : s.connected with
      | false => simp [readLoop, read, hs]
      | true =>
        have hlength : (s.bytes.take (s.readSize (left + 1))).length = s.readSize (left + 1) :=
          length_take_readSize
        have hle : s.readSize (left + 1) ≤ s.bytes.length := readSize_le_length
        have hrest : (s.skip (s.readSize (left + 1))).bytes.length <
            left + 1 - s.readSize (left + 1) := by
          rw [bytes_skip, List.length_drop]
          omega
        simp only [readLoop, read_eq hs, hlength, ih hrest, Option.map_none, ite_self]

/-- What a read of fixed size returns. -/
theorem readFixSize_eq (hs : s.connected) (h : n ≤ s.bytes.length)
    (hpos : 0 < (BitVec.ofNat 32 n).toInt) :
    s.readFixSize n = some (s.bytes.take n, s.skip n) := by
  rw [readFixSize, readLoop_eq hs (Nat.le_refl n) h]
  exact Option.filter_some_pos (by simpa using hpos)

theorem readFixSize_eq_none (h : s.bytes.length < n ∨ (BitVec.ofNat 32 n).toInt ≤ 0) :
    s.readFixSize n = none := by
  rw [readFixSize, Option.filter_eq_none_iff]
  intro r hr
  rcases h with h | h
  · rw [readLoop_eq_none h] at hr
    cases hr
  · simpa using h

/-! ### Reading leaves a connection open -/

variable {s' : SocketStream} {bytes : List Byte}

theorem connected_read (s : SocketStream) (n : ℕ) : (s.read n).2.connected = s.connected := by
  rw [read]
  split
  · rfl
  · rfl

theorem connected_readLoop {fuel left : ℕ} (h : readLoop fuel left s = some (bytes, s')) :
    s'.connected = s.connected := by
  induction fuel generalizing left s bytes with
  | zero =>
    cases left with
    | zero =>
      cases h
      rfl
    | succ left => cases h
  | succ fuel ih =>
    cases left with
    | zero =>
      cases h
      rfl
    | succ left =>
      simp only [readLoop] at h
      split at h
      · cases h
      · obtain ⟨⟨rest, s''⟩, hrest, heq⟩ := Option.map_eq_some_iff.mp h
        cases heq
        exact (ih hrest).trans (connected_read s (left + 1))

theorem connected_readFixSize (h : s.readFixSize n = some (bytes, s')) :
    s'.connected = s.connected :=
  connected_readLoop (Option.filter_eq_some_iff.mp h).1

end SocketStream

end Rsylar
