import Mathlib.Algebra.Group.Nat.Defs
import Mathlib.Data.Prod.Lex
import Rsylar.Foundations.OrderedSet
import Rsylar.Foundations.TransitionSystem

/-!
# Timers

A timer is an object on the heap: its due time `next` is the key under which the manager keeps it in
the ordered set `timers`, together with its address, and it can be changed while a user of the timer
still holds it. Timers are numbered in the order they are made; a new one has an address that no
timer of the set has, and so has the timer that `listExpiredCb` makes to search with. The times are
counts of milliseconds modulo `2 ^ 64`. A callback that is given to `addTimer` is not empty; it is a
number here, and `none` is the empty function. What a caller reads off the clock is an argument.
-/

set_option autoImplicit false
set_option relaxedAutoImplicit false

namespace Rsylar

open TransitionSystem OrderedSet

structure Timer where
  recurring : Bool := false
  ms : ℕ := 0
  next : ℕ := 0
  cb : Option ℕ := none
  address : ℕ := 0
deriving DecidableEq

/-- The comparator: by the due time, then by the address. -/
def Timer.key (t : Timer) : ℕ ×ₗ ℕ := toLex (t.next, t.address)

inductive TimerFault
  | eraseEnd
deriving DecidableEq

structure TimerManager where
  timer : ℕ → Timer := fun _ ↦ {}
  /-- the number of timers made -/
  timerCount : ℕ := 0
  timers : List ℕ := []
  tickled : Bool := false

namespace TimerManager

/-- A sum of 64-bit numbers. -/
def add64 (a b : ℕ) : ℕ := (a + b) % 2 ^ 64

/-- A difference of 64-bit numbers. -/
def sub64 (a b : ℕ) : ℕ := (a + (2 ^ 64 - b % 2 ^ 64)) % 2 ^ 64

def key (s : TimerManager) (t : ℕ) : ℕ ×ₗ ℕ := (s.timer t).key

def setTimer (s : TimerManager) (t : ℕ) (timer : Timer) : TimerManager :=
  { s with timer := Function.update s.timer t timer }

/-- `m_timers.find`, `none` for `end()`. -/
def find (s : TimerManager) (t : ℕ) : Option ℕ := OrderedSet.find s.key (s.key t) s.timers

def eraseFound (s : TimerManager) (t : ℕ) : TimerManager :=
  { s with timers := OrderedSet.eraseFound s.key (s.key t) s.timers }

def insert (s : TimerManager) (t : ℕ) : TimerManager :=
  { s with timers := OrderedSet.insert s.key t s.timers }

/-- The timer goes to `begin()` and nobody has been tickled. -/
def atFront (s : TimerManager) (t : ℕ) : Bool :=
  (below s.key (s.key t) s.timers).isEmpty && !s.tickled

/-- `addTimer` under the lock: whether the timer is at the front tells whether
`onTimerInsertedAtFront` is called after it. -/
def addTimerLocked (s : TimerManager) (t : ℕ) : TimerManager × Bool :=
  ({ s.insert t with tickled := s.tickled || s.atFront t }, s.atFront t)

def addTimer (s : TimerManager) (now ms cb : ℕ) (recurring : Bool) (address : ℕ) :
    TimerManager × Bool :=
  let timer : Timer :=
    { recurring := recurring, ms := ms, next := add64 now ms, cb := some cb, address := address }
  ({ s.setTimer s.timerCount timer with timerCount := s.timerCount + 1 } :
    TimerManager).addTimerLocked s.timerCount

def cancel (s : TimerManager) (t : ℕ) : Except TimerFault (TimerManager × Bool) :=
  if (s.timer t).cb.isSome then
    let s := s.setTimer t { s.timer t with cb := none }
    match s.find t with
    | some _ => .ok (s.eraseFound t, true)
    | none => .error .eraseEnd
  else .ok (s, false)

def refresh (s : TimerManager) (t now : ℕ) : TimerManager × Bool :=
  if (s.timer t).cb.isNone then (s, false)
  else match s.find t with
    | none => (s, false)
    | some _ =>
      let timer := { s.timer t with next := add64 now (s.timer t).ms }
      (((s.eraseFound t).setTimer t timer).insert t, true)

/-- `reset` under the lock. The first flag is its result, the second tells whether
`onTimerInsertedAtFront` is called after it. -/
def resetLocked (s : TimerManager) (t ms : ℕ) (fromNow : Bool) (now : ℕ) :
    TimerManager × Bool × Bool :=
  if (s.timer t).cb.isNone then (s, false, false)
  else match s.find t with
    | none => (s, false, false)
    | some _ =>
      let start := if fromNow then now else sub64 (s.timer t).next (s.timer t).ms
      let timer := { s.timer t with ms := ms, next := add64 start ms }
      let (s, atFront) := ((s.eraseFound t).setTimer t timer).addTimerLocked t
      (s, true, atFront)

def reset (s : TimerManager) (t ms : ℕ) (fromNow : Bool) (now : ℕ) : TimerManager × Bool × Bool :=
  if ms = (s.timer t).ms ∧ fromNow = false then (s, true, false)
  else s.resetLocked t ms fromNow now

/-- `2 ^ 64 - 1` stands for no timer. -/
def getNextTimer (s : TimerManager) (now : ℕ) : TimerManager × ℕ :=
  ({ s with tickled := false },
    match s.timers with
    | [] => 2 ^ 64 - 1
    | t :: _ => if now ≥ (s.timer t).next then 0 else (s.timer t).next - now)

/-- The timers that `listExpiredCb` takes out: those before the lower bound of a timer that is due
now, and those due now. -/
def expired (s : TimerManager) (now address : ℕ) : List ℕ :=
  let nowTimer : Timer := { next := now, address := address }
  below s.key nowTimer.key s.timers ++
    (lowerBound s.key nowTimer.key s.timers).takeWhile fun t ↦ (s.timer t).next = now

/-- What becomes of one of the timers taken out. -/
def expire (s : TimerManager) (now t : ℕ) : TimerManager :=
  if (s.timer t).recurring then
    (s.setTimer t { s.timer t with next := add64 now (s.timer t).ms }).insert t
  else s.setTimer t { s.timer t with cb := none }

/-- The loop over the timers taken out, with the callbacks it hands out. -/
def expireAll (s : TimerManager) (now : ℕ) : List ℕ → TimerManager × List (Option ℕ)
  | [] => (s, [])
  | t :: ts =>
    let (s', cbs) := (s.expire now t).expireAll now ts
    (s', (s.timer t).cb :: cbs)

def listExpiredCb (s : TimerManager) (now address : ℕ) : TimerManager × List (Option ℕ) :=
  match s.timers with
  | [] => (s, [])
  | t :: _ =>
    if (s.timer t).next > now then (s, [])
    else
      let expired := s.expired now address
      { s with timers := s.timers.drop expired.length }.expireAll now expired

end TimerManager

/-! ### Sequences of operations -/

inductive TimerAction
  | addTimer (now ms cb : ℕ) (recurring : Bool) (address : ℕ)
  | cancel (t : ℕ)
  | refresh (t now : ℕ)
  | reset (t ms : ℕ) (fromNow : Bool) (now : ℕ)
  | listExpiredCb (now address : ℕ)
deriving DecidableEq

/-- An operation on a timer that has been made. What the operation leaves undefined is no step. -/
def TimerManager.step (s : TimerManager) : TimerAction → Option TimerManager
  | .addTimer now ms cb recurring address =>
    if ms < 2 ^ 64 ∧ ∀ t ∈ s.timers, (s.timer t).address ≠ address then
      some (s.addTimer now ms cb recurring address).1
    else none
  | .cancel t =>
    if t < s.timerCount then
      match s.cancel t with
      | .ok (s', _) => some s'
      | .error _ => none
    else none
  | .refresh t now => if t < s.timerCount then some (s.refresh t now).1 else none
  | .reset t ms fromNow now =>
    if t < s.timerCount ∧ ms < 2 ^ 64 then some (s.reset t ms fromNow now).1 else none
  | .listExpiredCb now address => some (s.listExpiredCb now address).1

def timerSystem : Lts TimerManager TimerAction where
  init := {}
  step := TimerManager.step

end Rsylar
