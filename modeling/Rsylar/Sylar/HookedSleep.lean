import Mathlib.Algebra.Group.Int.Defs
import Rsylar.Sylar.TimerExpiry

/-!
# The hooked sleeps

`sleep`, `usleep` and `nanosleep` add a timer that schedules the fiber again, and yield. Each
computes the milliseconds in a width of its own: `sleep` multiplies unsigned 32-bit numbers, `usleep`
divides and drops the rest, and `nanosleep` drops the rest, makes an `int` of a 64-bit sum and
extends its sign to 64 bits. Then the timer adds them to the clock modulo `2 ^ 64`.

The timer is never early when the milliseconds are not fewer than those asked for and the clock does
not wrap around (`neverEarly_iff`); the theorem `hookedSleep` says which arguments these are.
-/

set_option autoImplicit false
set_option relaxedAutoImplicit false

namespace Rsylar

/-- `struct timespec`. -/
structure Timespec where
  tv_sec : BitVec 64
  tv_nsec : BitVec 64
deriving DecidableEq

inductive SleepCall
  | sleep (seconds : BitVec 32)
  | usleep (usec : BitVec 32)
  | nanosleep (req : Timespec)
deriving DecidableEq

namespace SleepCall

/-- What the calls give to `addTimer`, as a `uint64_t`. -/
def timerMs : SleepCall → BitVec 64
  | sleep seconds => (seconds * 1000).setWidth 64
  | usleep usec => (usec / 1000).setWidth 64
  | nanosleep req =>
    let timeout_ms : BitVec 32 :=
      (req.tv_sec * 1000 + (req.tv_nsec.sdiv 1000).sdiv 1000).setWidth 32
    timeout_ms.signExtend 64

/-- A request that is not negative and not out of range. -/
def Valid : SleepCall → Prop
  | sleep _ => True
  | usleep _ => True
  | nanosleep req => 0 ≤ req.tv_sec.toInt ∧ 0 ≤ req.tv_nsec.toInt ∧ req.tv_nsec.toInt < 10 ^ 9

instance (call : SleepCall) : Decidable call.Valid :=
  match call with
  | sleep _ | usleep _ => instDecidableTrue
  | nanosleep _ => instDecidableAnd

/-- The time that is asked for, in nanoseconds. -/
def requested : SleepCall → ℕ
  | sleep seconds => seconds.toNat * 10 ^ 9
  | usleep usec => usec.toNat * 10 ^ 3
  | nanosleep req => req.tv_sec.toNat * 10 ^ 9 + req.tv_nsec.toNat

/-- The manager after the call has added its timer, which is that of the number `timerCount`. -/
def addTimer (call : SleepCall) (s : TimerManager) (now cb address : ℕ) : TimerManager :=
  (s.addTimer now call.timerMs.toNat cb false address).1

/-- Whenever the timer is due, the time that is asked for has passed on the clock since the call
read it, in whole milliseconds. -/
def NeverEarly (call : SleepCall) (s : TimerManager) (now cb address : ℕ) : Prop :=
  ∀ clock, ((call.addTimer s now cb address).timer s.timerCount).next ≤ clock →
    now ≤ clock ∧ call.requested ≤ (clock - now) * 10 ^ 6

theorem addTimer_next (call : SleepCall) (s : TimerManager) (now cb address : ℕ) :
    ((call.addTimer s now cb address).timer s.timerCount).next =
      (now + call.timerMs.toNat) % 2 ^ 64 := by
  rw [addTimer, TimerManager.addTimer]
  change (Function.update s.timer s.timerCount _ s.timerCount).next = _
  rw [Function.update_self]
  rfl

/-- The sum is not less than the clock unless it wraps around. -/
theorem neverEarly_iff {call : SleepCall} {s : TimerManager} {now cb address : ℕ}
    (hnow : now < 2 ^ 64) : call.NeverEarly s now cb address ↔
      call.requested ≤ call.timerMs.toNat * 10 ^ 6 ∧ now + call.timerMs.toNat < 2 ^ 64 := by
  have hms := call.timerMs.isLt
  rw [NeverEarly, addTimer_next]
  constructor
  · intro hearly
    obtain ⟨hle, hpassed⟩ := hearly _ (Nat.le_refl _)
    omega
  · rintro ⟨hms, hwrap⟩ clock hclock
    omega

/-! ### The milliseconds -/

theorem sleep_timerMs (seconds : BitVec 32) :
    (sleep seconds).timerMs.toNat = seconds.toNat * 1000 % 2 ^ 32 := by
  rw [timerMs, BitVec.toNat_setWidth, BitVec.toNat_mul]
  have hfactor : (1000 : BitVec 32).toNat = 1000 := rfl
  rw [hfactor]
  omega

theorem usleep_timerMs (usec : BitVec 32) : (usleep usec).timerMs.toNat = usec.toNat / 1000 := by
  have hdivisor : (1000 : BitVec 32).toNat = 1000 := rfl
  rw [timerMs, BitVec.toNat_setWidth, BitVec.toNat_udiv, hdivisor]
  omega

/-- A division of numbers that are not negative. -/
theorem toNat_sdiv_thousand {x : BitVec 64} (h : x.toNat < 2 ^ 63) :
    (x.sdiv 1000).toNat = x.toNat / 1000 := by
  have hdivisor : (1000 : BitVec 64).msb = false := rfl
  have hmsb : x.msb = false := by
    rw [BitVec.msb_eq_false_iff_two_mul_lt]
    omega
  rw [BitVec.toNat_sdiv, hmsb, hdivisor]
  exact BitVec.toNat_udiv

/-- The milliseconds that `nanosleep` computes before they become an `int`. -/
def nanosleepMs (req : Timespec) : ℕ := req.tv_sec.toNat * 1000 + req.tv_nsec.toNat / 10 ^ 6

/-- An `int` from `2 ^ 31` on is negative, and as a `uint64_t` it is a large number. -/
theorem nanosleep_timerMs {req : Timespec} (hvalid : (nanosleep req).Valid) :
    (nanosleep req).timerMs.toNat =
      if nanosleepMs req % 2 ^ 32 < 2 ^ 31 then nanosleepMs req % 2 ^ 32
      else nanosleepMs req % 2 ^ 32 + (2 ^ 64 - 2 ^ 32) := by
  obtain ⟨-, hnsec, hlt⟩ := hvalid
  have hsmall : req.tv_nsec.toNat < 10 ^ 9 := by
    rw [BitVec.toInt_eq_toNat_cond] at hnsec hlt
    have := req.tv_nsec.isLt
    split at hnsec <;> omega
  have hmicro : (req.tv_nsec.sdiv 1000).toNat = req.tv_nsec.toNat / 1000 :=
    toNat_sdiv_thousand (by omega)
  have hmilli : ((req.tv_nsec.sdiv 1000).sdiv 1000).toNat = req.tv_nsec.toNat / 1000 / 1000 := by
    rw [toNat_sdiv_thousand (by omega), hmicro]
  have hfactor : (1000 : BitVec 64).toNat = 1000 := rfl
  have hint : ((req.tv_sec * 1000 + (req.tv_nsec.sdiv 1000).sdiv 1000).setWidth 32).toNat =
      nanosleepMs req % 2 ^ 32 := by
    rw [BitVec.toNat_setWidth, BitVec.toNat_add, BitVec.toNat_mul, hmilli, hfactor, nanosleepMs]
    omega
  rw [timerMs, BitVec.toNat_signExtend, BitVec.toNat_setWidth, BitVec.msb_eq_decide, hint]
  by_cases hneg : nanosleepMs req % 2 ^ 32 < 2 ^ 31
  · rw [if_pos hneg, if_neg (by simpa using hneg)]
    omega
  · rw [if_neg hneg, if_pos (by simpa using hneg)]
    omega

/-- The arguments with which the timer is not early. -/
def Fits (now : ℕ) : SleepCall → Prop
  | sleep seconds => seconds.toNat * 1000 < 2 ^ 32 ∧ now + seconds.toNat * 1000 < 2 ^ 64
  | usleep usec => usec.toNat % 1000 = 0 ∧ now + usec.toNat / 1000 < 2 ^ 64
  | nanosleep req =>
    (req.tv_nsec.toNat % 10 ^ 6 = 0 ∧ nanosleepMs req < 2 ^ 31 ∧ now + nanosleepMs req < 2 ^ 64) ∨
      -- a negative number makes a timer of the far future when the clock is less than it
      (2 ^ 31 ≤ nanosleepMs req % 2 ^ 32 ∧ now + nanosleepMs req % 2 ^ 32 < 2 ^ 32 ∧
        (nanosleep req).requested ≤ (nanosleepMs req % 2 ^ 32 + (2 ^ 64 - 2 ^ 32)) * 10 ^ 6)

end SleepCall

open SleepCall

/-- The timer of a hooked sleep is due only when the time that is asked for has passed, exactly when
the milliseconds fit the width in which they are computed and none is cut. -/
theorem hookedSleep {call : SleepCall} (hvalid : call.Valid) (s : TimerManager) {now : ℕ}
    (hnow : now < 2 ^ 64) (cb address : ℕ) :
    call.NeverEarly s now cb address ↔ call.Fits now := by
  rw [neverEarly_iff hnow]
  cases call with
  | sleep seconds =>
    rw [sleep_timerMs, requested, Fits]
    have := seconds.isLt
    omega
  | usleep usec =>
    rw [usleep_timerMs, requested, Fits]
    omega
  | nanosleep req =>
    rw [nanosleep_timerMs hvalid, Fits, requested]
    have hms : nanosleepMs req = req.tv_sec.toNat * 1000 + req.tv_nsec.toNat / 10 ^ 6 := rfl
    split
    · omega
    · omega

/-- One second and a half. -/
theorem hookedSleep_nanosleep :
    (nanosleep ⟨1, 500000000⟩).NeverEarly {} 1700000000000 7 30 ↔
      (nanosleep ⟨1, 500000000⟩).Fits 1700000000000 :=
  hookedSleep (show (nanosleep ⟨1, 500000000⟩).Valid by decide) {} (by decide) 7 30

/-- The product does not fit 32 bits, half a millisecond is dropped, and an `int` is negative. -/
theorem not_neverEarly :
    ¬(sleep 4294968).NeverEarly {} 1700000000000 7 30 ∧
      ¬(usleep 1500).NeverEarly {} 1700000000000 7 30 ∧
      ¬(nanosleep ⟨2147484, 0⟩).NeverEarly {} 1700000000000 7 30 := by
  have hnow : 1700000000000 < 2 ^ 64 := by decide
  simp only [neverEarly_iff hnow]
  decide

end Rsylar
