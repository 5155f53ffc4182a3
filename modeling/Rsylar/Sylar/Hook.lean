import Rsylar.Sylar.IOManager

/-!
# The hooked calls

`do_io` and `connect_with_timeout`, with the timers they arm and with `close`. A call goes from
point to point (`HookPoint`), and each step of a fiber, of the callback of a timer, of a thread in
`close` or of a worker in `idle` is one step of the system, in any order (`HookSystem.step`). The
look at the entry for the `FdCtx` of the descriptor and the reads of its fields are one step.

There is no clock: a timer that is armed may expire at any time. The callback of an expired timer
has three steps, which are the look at `tinfo->cancelled`, the write of it, and `cancelEvent`. A
call of the `IOManager` for a descriptor finds any of the contexts that have been made for this
descriptor, since another thread may have cut the table and filled it again. What has been given to
a scheduler stays in `IOManager.scheduled` until a worker takes it. No part of the program calls
`delEvent`.
-/

set_option autoImplicit false
set_option relaxedAutoImplicit false

namespace Rsylar

open TransitionSystem

/-! ### The contexts of `FdMgr` -/

inductive TimeoutSo
  | rcvtimeo
  | sndtimeo
deriving DecidableEq

/-- A time of `none` is `-1`. -/
structure FdCtx where
  isSocket : Bool
  userNonblock : Bool := false
  isClosed : Bool := false
  recvTimeout : Option ℕ := none
  sendTimeout : Option ℕ := none
deriving DecidableEq

namespace FdCtx

def getTimeout (c : FdCtx) : TimeoutSo → Option ℕ
  | .rcvtimeo => c.recvTimeout
  | .sndtimeo => c.sendTimeout

def setTimeout (c : FdCtx) (v : Option ℕ) : TimeoutSo → FdCtx
  | .rcvtimeo => { c with recvTimeout := v }
  | .sndtimeo => { c with sendTimeout := v }

/-- `fcntl` and `ioctl`. -/
def setFlags (c : FdCtx) (nonblock : Bool) : FdCtx :=
  if c.isClosed || !c.isSocket then c else { c with userNonblock := nonblock }

end FdCtx

/-! ### A hooked call -/

/-- A timer is armed, then its callback is taken out of the set, passes the check of `cancelled`,
sets it, and finishes; or the timer is cancelled while it is armed. -/
inductive TimerState
  | armed
  | expired
  | passed
  | cancelling
  | finished
  | removed
deriving DecidableEq

namespace TimerState

def cancel : TimerState → TimerState
  | armed => removed
  | t => t

/-- The callback is still to come or on its way. -/
def Pending (t : TimerState) : Prop := t ≠ finished ∧ t ≠ removed

instance (t : TimerState) : Decidable t.Pending := inferInstanceAs (Decidable (_ ∧ _))

end TimerState

/-- Where a fiber is. After `addEvent` it waits for the event in context `i`. -/
inductive HookPoint
  | direct
  | call
  | again
  | addEvent
  | addFailed
  | yield (i : ℕ)
  | suspended (i : ℕ)
  | resumed
  | check
  | getsockopt
  | returned (error : Bool)
deriving DecidableEq

inductive HookKind
  | doIo
  | connect
deriving DecidableEq

/-- What an underlying call returns: `EINTR`, `EAGAIN` or `EINPROGRESS`, or anything else. -/
inductive CallResult
  | interrupted
  | again
  | done (error : Bool)
deriving DecidableEq

structure HookedCall where
  kind : HookKind
  fiber : ℕ
  fd : ℕ
  event : IOManager.Event
  /-- `none` for `-1` -/
  timeout : Option ℕ
  point : HookPoint
  /-- `tinfo->cancelled` is set -/
  cancelled : Bool := false
  /-- the timer of the latest wait -/
  timer : Option TimerState := none
  /-- the timers of the waits before it -/
  earlier : List TimerState := []
deriving DecidableEq

/-- A step that touches nothing but the call and its timers. A timer is `none` for that of the
latest wait and a number for an earlier one. -/
inductive HookMove
  | io (res : CallResult)
  | addTimer
  | addFailed
  | yield
  | cancelTimer
  | check
  | getsockopt (error : Bool)
  | expire (j : Option ℕ)
  | timerCheck (j : Option ℕ)
  | timerSet (j : Option ℕ)
deriving DecidableEq

namespace HookedCall

def Returned (c : HookedCall) : Prop := ∃ error, c.point = .returned error

instance (c : HookedCall) : Decidable c.Returned :=
  match h : c.point with
  | .returned error => .isTrue ⟨error, h⟩
  | .direct | .call | .again | .addEvent | .addFailed | .yield _ | .suspended _ | .resumed | .check
  | .getsockopt => .isFalse fun ⟨_, he⟩ ↦ by rw [h] at he; cases he

def Suspended (c : HookedCall) : Prop := ∃ i, c.point = .suspended i

instance (c : HookedCall) : Decidable c.Suspended :=
  match h : c.point with
  | .suspended i => .isTrue ⟨i, h⟩
  | .direct | .call | .again | .addEvent | .addFailed | .yield _ | .resumed | .check | .getsockopt
  | .returned _ => .isFalse fun ⟨_, he⟩ ↦ by rw [h] at he; cases he

def getTimer (c : HookedCall) : Option ℕ → Option TimerState
  | none => c.timer
  | some j => c.earlier[j]?

def setTimer (c : HookedCall) (t : TimerState) : Option ℕ → HookedCall
  | none => { c with timer := some t }
  | some j => { c with earlier := c.earlier.set j t }

/-- The entry of `do_io`. -/
def doIo (fiber fd : ℕ) (event : IOManager.Event) (so : TimeoutSo) (hookEnable : Bool)
    (ctx : Option FdCtx) : HookedCall :=
  let c : HookedCall :=
    { kind := .doIo, fiber := fiber, fd := fd, event := event, timeout := none, point := .direct }
  if !hookEnable then c
  else
    match ctx with
    | none => c
    | some ctx =>
      if ctx.isClosed then { c with point := .returned true }
      else if !ctx.isSocket || ctx.userNonblock then c
      else { c with timeout := ctx.getTimeout so, point := .call }

/-- The entry of `connect_with_timeout`. -/
def connect (fiber fd : ℕ) (timeout : Option ℕ) (hookEnable : Bool) (ctx : Option FdCtx) :
    HookedCall :=
  let c : HookedCall :=
    { kind := .connect, fiber := fiber, fd := fd, event := .write, timeout := none, point := .direct }
  if !hookEnable then c
  else
    match ctx with
    | none => { c with point := .returned true }
    | some ctx =>
      if ctx.isClosed then { c with point := .returned true }
      else if !ctx.isSocket then c
      else if ctx.userNonblock then c
      else { c with timeout := timeout, point := .call }

/-- The underlying call. Only `do_io` repeats a call that was interrupted. -/
def io (c : HookedCall) (res : CallResult) : Option HookedCall :=
  match c.point with
  | .direct =>
    match res with
    | .done error => some { c with point := .returned error }
    | _ => some { c with point := .returned true }
  | .call =>
    match res, c.kind with
    | .done error, _ => some { c with point := .returned error }
    | .interrupted, .doIo => some c
    | .interrupted, .connect => some { c with point := .returned true }
    | .again, _ => some { c with point := .again }
  | _ => none

def step (c : HookedCall) : HookMove → Option HookedCall
  | .io res => c.io res
  | .addTimer => do
    guard (c.point = .again)
    if c.timeout.isSome then
      some { c with
        point := .addEvent, timer := some .armed, earlier := c.earlier ++ c.timer.toList }
    else some { c with point := .addEvent }
  | .addFailed => do
    guard (c.point = .addFailed)
    some { c with
      point := if c.kind = .doIo then .returned true else .getsockopt
      timer := c.timer.map TimerState.cancel }
  | .yield =>
    match c.point with
    | .yield i => some { c with point := .suspended i }
    | _ => none
  | .cancelTimer => do
    guard (c.point = .resumed)
    some { c with point := .check, timer := c.timer.map TimerState.cancel }
  | .check => do
    guard (c.point = .check)
    some { c with
      point := if c.cancelled then .returned true else if c.kind = .doIo then .call else .getsockopt }
  | .getsockopt error => do
    guard (c.point = .getsockopt)
    some { c with point := .returned error }
  | .expire j => do
    guard (c.getTimer j = some .armed)
    some (c.setTimer .expired j)
  | .timerCheck j => do
    guard (c.getTimer j = some .expired)
    -- `tinfo` is gone when the call has returned
    some (c.setTimer (if c.Returned ∨ c.cancelled then .finished else .passed) j)
  | .timerSet j => do
    guard (c.getTimer j = some .passed)
    some { c.setTimer .cancelling j with cancelled := true }

end HookedCall

/-! ### The system -/

/-- A thread in `close`. -/
inductive ClosePoint
  | cancelAll
  | del
  | closeF
  | returned
deriving DecidableEq

structure Closer where
  fd : ℕ
  point : ClosePoint
deriving DecidableEq

structure HookSystem where
  iom : IOManager
  fdCtxs : ℕ → Option FdCtx
  calls : List HookedCall
  closers : List Closer
  fault : Option IOFault

/-- What other code and the workers do with the `IOManager`. -/
inductive OtherOp
  | addEvent (i fd : ℕ) (event : IOManager.Event) (caller : Caller) (ok : Bool)
  | cancelEvent (i fd : ℕ) (event : IOManager.Event) (ok : Bool)
  | cancelAll (i fd : ℕ) (ok : Bool)
  | processReport (report : IOManager.Report) (ok : Bool)
  | contextResize (size : ℕ)
  | schedule (scheduler : ℕ) (task : FiberOrCb)

inductive HookAction
  | doIo (fiber fd : ℕ) (event : IOManager.Event) (so : TimeoutSo) (hookEnable : Bool)
  | connect (fiber fd : ℕ) (timeout : Option ℕ) (hookEnable : Bool)
  | move (k : ℕ) (move : HookMove)
  | addEvent (k i : ℕ) (scheduler : Option ℕ) (ok : Bool)
  | resume (k scheduler : ℕ)
  | timerCancelEvent (k : ℕ) (j : Option ℕ) (i : ℕ) (ok : Bool)
  | other (op : OtherOp)
  | take (scheduler : ℕ) (task : FiberOrCb)
  | socket (fd : ℕ) (isSocket : Bool)
  | setUserNonblock (fd : ℕ) (flag : Bool)
  | setTimeout (fd : ℕ) (v : Option ℕ) (so : TimeoutSo)
  | close (fd : ℕ) (hookEnable : Bool)
  | closeCancelAll (k i : ℕ) (ok : Bool)
  | closeDel (k : ℕ)
  | closeF (k : ℕ)

namespace OtherOp

def apply (iom : IOManager) : OtherOp → Except IOFault IOManager
  | addEvent i fd event caller ok => (iom.addEvent i fd event caller ok).map Prod.fst
  | cancelEvent i fd event ok => (iom.cancelEvent i fd event ok).map Prod.fst
  | cancelAll i fd ok => (iom.cancelAll i fd ok).map Prod.fst
  | processReport report ok => iom.processReport report ok
  | contextResize size => .ok (iom.contextResize size)
  | schedule scheduler task => .ok { iom with scheduled := iom.scheduled ++ [(scheduler, task)] }

end OtherOp

namespace HookSystem

/-- The fiber is in no hooked call. -/
def Free (s : HookSystem) (fiber : ℕ) : Prop := ∀ c ∈ s.calls, c.fiber = fiber → c.Returned

instance (s : HookSystem) (fiber : ℕ) : Decidable (s.Free fiber) :=
  inferInstanceAs (Decidable (∀ c ∈ s.calls, c.fiber = fiber → c.Returned))

/-- Context `i` has been made for the descriptor. -/
def Finds (s : HookSystem) (i fd : ℕ) : Prop := i < s.iom.contextCount ∧ (s.iom.contexts i).fd = fd

instance (s : HookSystem) (i fd : ℕ) : Decidable (s.Finds i fd) := inferInstanceAs (Decidable (_ ∧ _))

/-- The state after call `k` has gone on, with what its step has done to the manager. -/
def setCall (s : HookSystem) (k : ℕ) : Except IOFault (IOManager × HookedCall) → HookSystem
  | .ok (iom, c) => { s with iom := iom, calls := s.calls.set k c }
  | .error e => { s with fault := some e }

def setCloser (s : HookSystem) (k : ℕ) : Except IOFault (IOManager × Closer) → HookSystem
  | .ok (iom, c) => { s with iom := iom, closers := s.closers.set k c }
  | .error e => { s with fault := some e }

def setIom (s : HookSystem) : Except IOFault IOManager → HookSystem
  | .ok iom => { s with iom := iom }
  | .error e => { s with fault := some e }

def setFdCtx (s : HookSystem) (fd : ℕ) (c : Option FdCtx) : HookSystem :=
  { s with fdCtxs := Function.update s.fdCtxs fd c }

/-- `addEvent` by the fiber of the call. -/
def addEvent (iom : IOManager) (c : HookedCall) (i : ℕ) (scheduler : Option ℕ) (ok : Bool) :
    Except IOFault (IOManager × HookedCall) :=
  (iom.addEvent i c.fd c.event { scheduler := scheduler, fiber := c.fiber, exec := true } ok).map
    fun (iom, rt) ↦ (iom, { c with point := if rt then .yield i else .addFailed })

/-- `cancelEvent` by the callback of a timer of the call. -/
def timerCancelEvent (iom : IOManager) (c : HookedCall) (j : Option ℕ) (i : ℕ) (ok : Bool) :
    Except IOFault (IOManager × HookedCall) :=
  (iom.cancelEvent i c.fd c.event ok).map fun (iom, _) ↦ (iom, c.setTimer .finished j)

def closeCancelAll (iom : IOManager) (c : Closer) (i : ℕ) (ok : Bool) :
    Except IOFault (IOManager × Closer) :=
  (iom.cancelAll i c.fd ok).map fun (iom, _) ↦ (iom, { c with point := .del })

def step (s : HookSystem) (a : HookAction) : Option HookSystem :=
  if s.fault.isSome then none
  else
    match a with
    | .doIo fiber fd event so hookEnable => do
      guard (s.Free fiber)
      some { s with calls := s.calls ++ [.doIo fiber fd event so hookEnable (s.fdCtxs fd)] }
    | .connect fiber fd timeout hookEnable => do
      guard (s.Free fiber)
      some { s with calls := s.calls ++ [.connect fiber fd timeout hookEnable (s.fdCtxs fd)] }
    | .move k move => do
      let c ← s.calls[k]?
      let c' ← c.step move
      some (s.setCall k (.ok (s.iom, c')))
    | .addEvent k i scheduler ok => do
      let c ← s.calls[k]?
      guard (c.point = .addEvent ∧ s.Finds i c.fd)
      some (s.setCall k (addEvent s.iom c i scheduler ok))
    | .resume k scheduler => do
      let c ← s.calls[k]?
      guard (c.Suspended ∧ (scheduler, .fiber c.fiber) ∈ s.iom.scheduled)
      some (s.setCall k (.ok ({ s.iom with
        scheduled := s.iom.scheduled.erase (scheduler, .fiber c.fiber) },
        { c with point := .resumed })))
    | .timerCancelEvent k j i ok => do
      let c ← s.calls[k]?
      guard (c.getTimer j = some .cancelling ∧ s.Finds i c.fd)
      some (s.setCall k (timerCancelEvent s.iom c j i ok))
    | .other op => some (s.setIom (op.apply s.iom))
    | .take scheduler task => do
      guard ((scheduler, task) ∈ s.iom.scheduled ∧ ∀ c ∈ s.calls, task = .fiber c.fiber → c.Returned)
      some { s with iom := { s.iom with scheduled := s.iom.scheduled.erase (scheduler, task) } }
    | .socket fd isSocket =>
      some (s.setFdCtx fd (some ((s.fdCtxs fd).getD { isSocket := isSocket })))
    | .setUserNonblock fd flag => some (s.setFdCtx fd ((s.fdCtxs fd).map fun c ↦ c.setFlags flag))
    | .setTimeout fd v so => some (s.setFdCtx fd ((s.fdCtxs fd).map fun c ↦ c.setTimeout v so))
    | .close fd hookEnable =>
      let point := if hookEnable && (s.fdCtxs fd).isSome then .cancelAll else .closeF
      some { s with closers := s.closers ++ [⟨fd, point⟩] }
    | .closeCancelAll k i ok => do
      let c ← s.closers[k]?
      guard (c.point = .cancelAll ∧ s.Finds i c.fd)
      some (s.setCloser k (closeCancelAll s.iom c i ok))
    | .closeDel k => do
      let c ← s.closers[k]?
      -- `cancelAll` is left out when the thread has no `IOManager` or the table is too small
      guard (c.point = .cancelAll ∨ c.point = .del)
      some { s with
        fdCtxs := Function.update s.fdCtxs c.fd none
        closers := s.closers.set k { c with point := .closeF } }
    | .closeF k => do
      let c ← s.closers[k]?
      guard (c.point = .closeF)
      some { s with
        iom := { s.iom with epoll := Function.update s.iom.epoll c.fd none }
        closers := s.closers.set k { c with point := .returned } }

/-! ### The steps -/

inductive Step (s : HookSystem) : HookAction → HookSystem → Prop
  | doIo (fiber fd : ℕ) (event : IOManager.Event) (so : TimeoutSo) (hookEnable : Bool)
      (hfree : s.Free fiber) :
      Step s (.doIo fiber fd event so hookEnable)
        { s with calls := s.calls ++ [.doIo fiber fd event so hookEnable (s.fdCtxs fd)] }
  | connect (fiber fd : ℕ) (timeout : Option ℕ) (hookEnable : Bool) (hfree : s.Free fiber) :
      Step s (.connect fiber fd timeout hookEnable)
        { s with calls := s.calls ++ [.connect fiber fd timeout hookEnable (s.fdCtxs fd)] }
  | move (k : ℕ) (move : HookMove) (c c' : HookedCall) (hc : s.calls[k]? = some c)
      (hmove : c.step move = some c') :
      Step s (.move k move) { s with calls := s.calls.set k c' }
  | addEvent (k i : ℕ) (scheduler : Option ℕ) (ok : Bool) (c : HookedCall)
      (hc : s.calls[k]? = some c) (hpoint : c.point = .addEvent) (hfinds : s.Finds i c.fd) :
      Step s (.addEvent k i scheduler ok) (s.setCall k (addEvent s.iom c i scheduler ok))
  | resume (k scheduler i : ℕ) (c : HookedCall) (hc : s.calls[k]? = some c)
      (hpoint : c.point = .suspended i) (htask : (scheduler, .fiber c.fiber) ∈ s.iom.scheduled) :
      Step s (.resume k scheduler) { s with
        iom := { s.iom with scheduled := s.iom.scheduled.erase (scheduler, .fiber c.fiber) }
        calls := s.calls.set k { c with point := .resumed } }
  | timerCancelEvent (k : ℕ) (j : Option ℕ) (i : ℕ) (ok : Bool) (c : HookedCall)
      (hc : s.calls[k]? = some c) (htimer : c.getTimer j = some .cancelling)
      (hfinds : s.Finds i c.fd) :
      Step s (.timerCancelEvent k j i ok) (s.setCall k (timerCancelEvent s.iom c j i ok))
  | other (op : OtherOp) : Step s (.other op) (s.setIom (op.apply s.iom))
  | take (scheduler : ℕ) (task : FiberOrCb) (htask : (scheduler, task) ∈ s.iom.scheduled)
      (hfree : ∀ c ∈ s.calls, task = .fiber c.fiber → c.Returned) :
      Step s (.take scheduler task)
        { s with iom := { s.iom with scheduled := s.iom.scheduled.erase (scheduler, task) } }
  | socket (fd : ℕ) (isSocket : Bool) : Step s (.socket fd isSocket)
      (s.setFdCtx fd (some ((s.fdCtxs fd).getD { isSocket := isSocket })))
  | setUserNonblock (fd : ℕ) (flag : Bool) : Step s (.setUserNonblock fd flag)
      (s.setFdCtx fd ((s.fdCtxs fd).map fun c ↦ c.setFlags flag))
  | setTimeout (fd : ℕ) (v : Option ℕ) (so : TimeoutSo) : Step s (.setTimeout fd v so)
      (s.setFdCtx fd ((s.fdCtxs fd).map fun c ↦ c.setTimeout v so))
  | close (fd : ℕ) (hookEnable : Bool) (point : ClosePoint) : Step s (.close fd hookEnable)
      { s with closers := s.closers ++ [⟨fd, point⟩] }
  | closeCancelAll (k i : ℕ) (ok : Bool) (c : Closer) (hc : s.closers[k]? = some c)
      (hfinds : s.Finds i c.fd) :
      Step s (.closeCancelAll k i ok) (s.setCloser k (closeCancelAll s.iom c i ok))
  | closeDel (k : ℕ) (c : Closer) (hc : s.closers[k]? = some c) :
      Step s (.closeDel k) { s with
        fdCtxs := Function.update s.fdCtxs c.fd none
        closers := s.closers.set k { c with point := .closeF } }
  | closeF (k : ℕ) (c : Closer) (hc : s.closers[k]? = some c) (hpoint : c.point = .closeF) :
      Step s (.closeF k) { s with
        iom := { s.iom with epoll := Function.update s.iom.epoll c.fd none }
        closers := s.closers.set k { c with point := .returned } }

theorem step_cases {s s' : HookSystem} {a : HookAction} (h : s.step a = some s') :
    s.fault = none ∧ s.Step a s' := by
  unfold step at h
  split at h
  · cases h
  · rename_i hfault
    refine ⟨Option.not_isSome_iff_eq_none.mp hfault, ?_⟩
    cases a with
    | doIo fiber fd event so hookEnable =>
      simp only [Option.bind_eq_bind, Option.bind_eq_some_iff, Option.guard_eq_some',
        Option.some.injEq] at h
      obtain ⟨_, hfree, rfl⟩ := h
      exact .doIo fiber fd event so hookEnable hfree
    | connect fiber fd timeout hookEnable =>
      simp only [Option.bind_eq_bind, Option.bind_eq_some_iff, Option.guard_eq_some',
        Option.some.injEq] at h
      obtain ⟨_, hfree, rfl⟩ := h
      exact .connect fiber fd timeout hookEnable hfree
    | move k move =>
      simp only [Option.bind_eq_bind, Option.bind_eq_some_iff, Option.some.injEq] at h
      obtain ⟨c, hc, c', hmove, rfl⟩ := h
      exact .move k move c c' hc hmove
    | addEvent k i scheduler ok =>
      simp only [Option.bind_eq_bind, Option.bind_eq_some_iff, Option.guard_eq_some',
        Option.some.injEq] at h
      obtain ⟨c, hc, _, ⟨hpoint, hfinds⟩, rfl⟩ := h
      exact .addEvent k i scheduler ok c hc hpoint hfinds
    | resume k scheduler =>
      simp only [Option.bind_eq_bind, Option.bind_eq_some_iff, Option.guard_eq_some',
        Option.some.injEq] at h
      obtain ⟨c, hc, _, ⟨⟨i, hpoint⟩, htask⟩, rfl⟩ := h
      exact .resume k scheduler i c hc hpoint htask
    | timerCancelEvent k j i ok =>
      simp only [Option.bind_eq_bind, Option.bind_eq_some_iff, Option.guard_eq_some',
        Option.some.injEq] at h
      obtain ⟨c, hc, _, ⟨htimer, hfinds⟩, rfl⟩ := h
      exact .timerCancelEvent k j i ok c hc htimer hfinds
    | other op =>
      cases h
      exact .other op
    | take scheduler task =>
      simp only [Option.bind_eq_bind, Option.bind_eq_some_iff, Option.guard_eq_some',
        Option.some.injEq] at h
      obtain ⟨_, ⟨htask, hfree⟩, rfl⟩ := h
      exact .take scheduler task htask hfree
    | socket fd isSocket =>
      cases h
      exact .socket fd isSocket
    | setUserNonblock fd flag =>
      cases h
      exact .setUserNonblock fd flag
    | setTimeout fd v so =>
      cases h
      exact .setTimeout fd v so
    | close fd hookEnable =>
      cases h
      exact .close fd hookEnable _
    | closeCancelAll k i ok =>
      simp only [Option.bind_eq_bind, Option.bind_eq_some_iff, Option.guard_eq_some',
        Option.some.injEq] at h
      obtain ⟨c, hc, _, ⟨-, hfinds⟩, rfl⟩ := h
      exact .closeCancelAll k i ok c hc hfinds
    | closeDel k =>
      simp only [Option.bind_eq_bind, Option.bind_eq_some_iff, Option.guard_eq_some',
        Option.some.injEq] at h
      obtain ⟨c, hc, _, -, rfl⟩ := h
      exact .closeDel k c hc
    | closeF k =>
      simp only [Option.bind_eq_bind, Option.bind_eq_some_iff, Option.guard_eq_some',
        Option.some.injEq] at h
      obtain ⟨c, hc, _, hpoint, rfl⟩ := h
      exact .closeF k c hc hpoint

end HookSystem

/-- The hooked calls of any number of fibers on any number of threads. -/
def hookSystem : Lts HookSystem HookAction where
  init := { iom := .create, fdCtxs := fun _ ↦ none, calls := [], closers := [], fault := none }
  step := HookSystem.step

end Rsylar
