import Mathlib.Data.Int.Notation
import Rsylar.Sylar.ByteArray

/-!
# Writing to a socket

`SocketStream::write` and `Stream::writeFixSize`. A call of `send` takes as many of the bytes as the
kernel has room for, or fails with a result that is not positive; the results are those of a
sequence of numbers.

Whatever the results are, the bytes that go out are the first ones (`written_writeFixSize`), and
they are all of them when no call fails (`writeFixSize_of_sends`).
-/

set_option autoImplicit false
set_option relaxedAutoImplicit false

namespace Rsylar

/-- The side of a socket that is written to. -/
structure SocketSink where
  written : List Byte := []
  /-- what the next calls of `send` return when there are bytes enough -/
  sends : ℕ → ℤ

namespace SocketSink

/-- No call of `send` fails. -/
def Sends (w : SocketSink) : Prop := ∀ i, 0 < w.sends i

def send (data : List Byte) (w : SocketSink) : ℤ × SocketSink :=
  let len := min (w.sends 0) data.length
  (len, { written := w.written ++ data.take len.toNat, sends := fun i ↦ w.sends (i + 1) })

/-- `connected` is what `isConnected` says. -/
def write (connected : Bool) (data : List Byte) (w : SocketSink) : ℤ × SocketSink :=
  if !connected then (-1, w) else w.send data

/-- The loop of `writeFixSize`, every turn of which takes a byte at least; what it returns when all
bytes are out is `length`. -/
def writeLoop (connected : Bool) (length : ℤ) : ℕ → List Byte → SocketSink → ℤ × SocketSink
  | _, [], w => (length, w)
  | 0, _ :: _, w => (length, w)
  | fuel + 1, c :: data, w =>
    let (len, w) := w.write connected (c :: data)
    if len ≤ 0 then (len, w)
    else writeLoop connected length fuel ((c :: data).drop len.toNat) w

/-- The length is returned as an `int`. -/
def writeFixSize (connected : Bool) (data : List Byte) (w : SocketSink) : ℤ × SocketSink :=
  writeLoop connected (BitVec.ofNat 32 data.length).toInt data.length data w

variable {connected : Bool} {length : ℤ} {fuel : ℕ} {data : List Byte} {w : SocketSink}

theorem written_write : ∃ sent, sent <+: data ∧
    (w.write connected data).2.written = w.written ++ sent := by
  rw [write]
  split
  · exact ⟨[], List.nil_prefix, (List.append_nil _).symm⟩
  · exact ⟨_, List.take_prefix _ _, rfl⟩

/-- What goes out is the beginning of the bytes. -/
theorem written_writeLoop (data : List Byte) (w : SocketSink) : ∃ sent, sent <+: data ∧
    (writeLoop connected length fuel data w).2.written = w.written ++ sent := by
  induction fuel generalizing data w with
  | zero =>
    refine ⟨[], List.nil_prefix, ?_⟩
    cases data with
    | nil => exact (List.append_nil _).symm
    | cons c data => exact (List.append_nil _).symm
  | succ fuel ih =>
    cases data with
    | nil => exact ⟨[], List.nil_prefix, (List.append_nil _).symm⟩
    | cons c data =>
      rw [writeLoop]
      cases connected with
      | false =>
        refine ⟨[], List.nil_prefix, ?_⟩
        simp [write]
      | true =>
        simp only [write, send, Bool.not_true, Bool.false_eq_true, if_false]
        generalize (min (w.sends 0) ((c :: data).length : ℤ)) = len
        split
        · exact ⟨_, List.take_prefix _ _, rfl⟩
        · obtain ⟨sent, hsent, hwritten⟩ := ih ((c :: data).drop len.toNat)
            { written := w.written ++ (c :: data).take len.toNat, sends := fun i ↦ w.sends (i + 1) }
          refine ⟨(c :: data).take len.toNat ++ sent, ?_, ?_⟩
          · conv_rhs => rw [← List.take_append_drop len.toNat (c :: data)]
            exact (List.prefix_append_right_inj _).mpr hsent
          · rw [hwritten, List.append_assoc]

theorem written_writeFixSize (connected : Bool) (data : List Byte) (w : SocketSink) :
    ∃ sent, sent <+: data ∧ (w.writeFixSize connected data).2.written = w.written ++ sent :=
  written_writeLoop data w

theorem writeLoop_of_sends (data : List Byte) (hw : w.Sends) (hfuel : data.length ≤ fuel) :
    (writeLoop true length fuel data w).1 = length ∧
      (writeLoop true length fuel data w).2.written = w.written ++ data ∧
      (writeLoop true length fuel data w).2.Sends := by
  induction fuel generalizing data w with
  | zero =>
    obtain rfl := List.eq_nil_of_length_eq_zero (Nat.le_zero.mp hfuel)
    exact ⟨rfl, (List.append_nil _).symm, hw⟩
  | succ fuel ih =>
    cases data with
    | nil => exact ⟨rfl, (List.append_nil _).symm, hw⟩
    | cons c data =>
      have hpos : ¬min (w.sends 0) ((c :: data).length : ℤ) ≤ 0 := by
        have hfirst := hw 0
        rw [List.length_cons]
        omega
      simp only [writeLoop, write, send, Bool.not_true, Bool.false_eq_true, if_false]
      rw [if_neg hpos]
      generalize min (w.sends 0) ((c :: data).length : ℤ) = len at *
      have hrest : ((c :: data).drop len.toNat).length ≤ fuel := by
        rw [List.length_drop]
        omega
      obtain ⟨hresult, hwritten, hsends⟩ := ih ((c :: data).drop len.toNat)
        (w := { written := w.written ++ (c :: data).take len.toNat,
                sends := fun i ↦ w.sends (i + 1) }) (fun i ↦ hw (i + 1)) hrest
      refine ⟨hresult, ?_, hsends⟩
      rw [hwritten, List.append_assoc, List.take_append_drop]

theorem writeFixSize_of_sends (data : List Byte) (hw : w.Sends) :
    (w.writeFixSize true data).1 = (BitVec.ofNat 32 data.length).toInt ∧
      (w.writeFixSize true data).2.written = w.written ++ data ∧
      (w.writeFixSize true data).2.Sends :=
  writeLoop_of_sends data hw (Nat.le_refl _)

end SocketSink

end Rsylar
