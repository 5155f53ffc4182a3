import Mathlib.Algebra.Group.Int.Defs
import Rsylar.Sylar.Timer

/-!
# The idle loop and its timers

The workers of an IO manager in `idle`, the pipe that tickles them, and the operations on the timers
that any thread may call. The reading of the clock in `getNextTimer`, the call of `epoll_wait` and
its return are steps of their own, and so are the insertion of a timer by `addTimer` or `reset`, the
test of `hasIdleThreads` in the `tickle` that follows it when the lock is given up, and the write to
the pipe. The constructor of a timer reads the clock before `addTimer` takes the lock, and
`listExpiredCb` before it takes its own: those readings are of an earlier moment. `reset` may go on
whatever it has compared before it takes the lock.

`epoll_wait` may return at any time. Bytes are written to the pipe for other reasons as well, and a
worker that processes its events may or may not empty it. Whether a worker that sees no timer stops
depends on the scheduler; here it may.
-/

set_option autoImplicit false
set_option relaxedAutoImplicit false

namespace Rsylar

open TransitionSystem

/-- Where a worker is. -/
inductive IdlePoint
  /-- outside of `idle` -/
  | run
  | stopping
  | epollWait (now nextTimeout : ℕ)
  /-- in `epoll_wait` -/
  | blocked (now : ℕ) (timeout : ℤ)
  | listExpired
  | expired (now : ℕ)
  | events
  /-- not started, or it has left `run` for good -/
  | ended
deriving DecidableEq

namespace IdlePoint

/-- The worker is counted in `m_idleThreadCount`. -/
def InIdle : IdlePoint → Prop
  | .run | .ended => False
  | _ => True

instance : DecidablePred InIdle
  | .run | .ended => instDecidableFalse
  | .stopping | .epollWait _ _ | .blocked _ _ | .listExpired | .expired _ | .events =>
    instDecidableTrue

end IdlePoint

/-- The conversion to a signed number of 32 bits. -/
def toInt32 (n : ℕ) : ℤ :=
  if n % 2 ^ 32 < 2 ^ 31 then (n % 2 ^ 32 : ℕ) else (n % 2 ^ 32 : ℕ) - 2 ^ 32

/-- The timeout that `idle` passes to `epoll_wait`. -/
def epollTimeout (nextTimeout : ℕ) : ℤ :=
  let maxTimeout : ℕ := 1000
  if nextTimeout ≠ 2 ^ 64 - 1 then
    toInt32 (if toInt32 nextTimeout > maxTimeout then maxTimeout else nextTimeout)
  else toInt32 maxTimeout

structure IdleSystem where
  manager : TimerManager := {}
  clock : ℕ := 0
  workers : List IdlePoint
  /-- the bytes of the pipe that have not been read -/
  pipe : ℕ := 0
  /-- the calls that have inserted a timer at the front and are about to tickle -/
  tickling : ℕ := 0
  /-- the calls of `tickle` that have seen an idle thread and are about to write -/
  writing : ℕ := 0

inductive IdleAction
  | clock (now : ℕ)
  | addTimer (now ms cb : ℕ) (recurring : Bool) (address : ℕ)
  | cancel (t : ℕ)
  | refresh (t : ℕ)
  | reset (t ms : ℕ) (fromNow : Bool)
  | tickle
  /-- `tickle` by `schedule` -/
  | wake
  | write
  /-- `stopping` by `stop` -/
  | stop
  | start (w : ℕ)
  | idle (w : ℕ)
  | getNextTimer (w : ℕ)
  | leave (w : ℕ)
  | epollWait (w : ℕ)
  | epollReturn (w : ℕ)
  | readClock (w : ℕ)
  | listExpiredCb (w address : ℕ)
  | readPipe (w : ℕ)
  | yield (w : ℕ)
deriving DecidableEq

namespace IdleSystem

def setManager (s : IdleSystem) (manager : TimerManager) : IdleSystem :=
  { s with manager := manager }

def setPoint (s : IdleSystem) (w : ℕ) (point : IdlePoint) : IdleSystem :=
  { s with workers := s.workers.set w point }

def hasIdleThreads (s : IdleSystem) : Bool := s.workers.any (·.InIdle)

/-- `tickle` up to its write. -/
def tickle (s : IdleSystem) : IdleSystem :=
  if s.hasIdleThreads then { s with writing := s.writing + 1 } else s

/-- A timer has been inserted; the flag tells whether `onTimerInsertedAtFront` is still to come. -/
def inserted (s : IdleSystem) (manager : TimerManager) (atFront : Bool) : IdleSystem :=
  { s with manager := manager, tickling := if atFront then s.tickling + 1 else s.tickling }

/-- A step of worker `w` from one point to another. -/
def move (s : IdleSystem) (w : ℕ) (source target : IdlePoint) : Option IdleSystem :=
  if s.workers[w]? = some source then some (s.setPoint w target) else none

def step (s : IdleSystem) : IdleAction → Option IdleSystem
  | .clock now => if s.clock ≤ now ∧ now < 2 ^ 64 then some { s with clock := now } else none
  | .addTimer now ms cb recurring address =>
    if now ≤ s.clock ∧ ms < 2 ^ 64 ∧
        ∀ t ∈ s.manager.timers, (s.manager.timer t).address ≠ address then
      let (manager, atFront) := s.manager.addTimer now ms cb recurring address
      some (s.inserted manager atFront)
    else none
  | .cancel t =>
    match s.manager.cancel t with
    | .ok (manager, _) => some (s.setManager manager)
    | .error _ => none
  | .refresh t => some (s.setManager (s.manager.refresh t s.clock).1)
  | .reset t ms fromNow =>
    if ms < 2 ^ 64 then
      let (manager, _, atFront) := s.manager.resetLocked t ms fromNow s.clock
      some (s.inserted manager atFront)
    else none
  | .tickle => if 0 < s.tickling then some { s.tickle with tickling := s.tickling - 1 } else none
  | .wake => some s.tickle
  | .write =>
    if 0 < s.writing then some { s with writing := s.writing - 1, pipe := s.pipe + 1 } else none
  | .stop => some (s.setManager (s.manager.getNextTimer s.clock).1)
  | .start w => s.move w .ended .run
  | .idle w => s.move w .run .stopping
  | .getNextTimer w =>
    let (manager, nextTimeout) := s.manager.getNextTimer s.clock
    (s.setManager manager).move w .stopping (.epollWait s.clock nextTimeout)
  | .leave w =>
    match s.workers[w]? with
    | some (.epollWait _ nextTimeout) =>
      if nextTimeout = 2 ^ 64 - 1 then some (s.setPoint w .ended) else none
    | _ => none
  | .epollWait w =>
    match s.workers[w]? with
    | some (.epollWait now nextTimeout) =>
      some (s.setPoint w (.blocked now (epollTimeout nextTimeout)))
    | _ => none
  | .epollReturn w =>
    match s.workers[w]? with
    | some (.blocked _ _) => some (s.setPoint w .listExpired)
    | _ => none
  | .readClock w => s.move w .listExpired (.expired s.clock)
  | .listExpiredCb w address =>
    match s.workers[w]? with
    | some (.expired now) =>
      some ((s.setManager (s.manager.listExpiredCb now address).1).setPoint w .events)
    | _ => none
  | .readPipe w => if s.workers[w]? = some .events then some { s with pipe := 0 } else none
  | .yield w => s.move w .events .run

end IdleSystem

/-- A system with `n` workers, none of which has been started. -/
def idleSystem (n : ℕ) : Lts IdleSystem IdleAction where
  init := { workers := List.replicate n .ended }
  step := IdleSystem.step

end Rsylar
