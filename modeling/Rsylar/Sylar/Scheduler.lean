import Mathlib.Data.Fintype.Basic
import Mathlib.Data.Option.Basic
import Rsylar.Foundations.TransitionSystem
import Rsylar.Sylar.IOManager

/-!
# The scheduler

The workers in `Scheduler::run`, the fibers and callbacks they take from `m_fibers`, and the thread
in `stop`. A worker goes from point to point of the loop (`WorkerPoint`), and every read or write of
what the threads share is a step of its own: the search under the lock, the assertion and the write
of `EXEC` in `resume`, the write of the state in `yield` and the swap after it, the decrement of
`m_activeThreadCount`, the look at the state, and the put back or the write of `HOLD`. All are
interleaved in any way with each other and with calls of `schedule` (`Scheduler.step`).

The states of fibers change without the lock, so that a search may pass over an entry which can be
taken by now: a worker may take any entry that it could, after any entries with fibers. Fibers are
numbered in the order they are built, and a swap is between a fiber and the worker that resumes it,
as `SwitchesBack` has it. `registered` are the fibers that an IO event or a timer holds, and
`switchTo` is a call of `schedule` and one of `yield`. An entry has a number, so that its way can be
followed. `start` and `stop` are called once, in this order.
-/

set_option autoImplicit false
set_option relaxedAutoImplicit false

namespace Rsylar

open TransitionSystem

/-! ### Fibers -/

inductive FiberState
  | init
  | hold
  | exec
  | term
  | ready
  | except
deriving DecidableEq

structure Fiber where
  useCaller : Bool
  state : FiberState := .init
  /-- its function has ended or thrown -/
  finished : Bool := false
deriving DecidableEq

namespace Fiber

/-- `TERM` or `EXCEPT` -/
def Ended (f : Fiber) : Prop := f.state = .term ∨ f.state = .except

instance (f : Fiber) : Decidable f.Ended := inferInstanceAs (Decidable (_ ∨ _))

/-- What `yield` writes before the swap. -/
def yield (f : Fiber) : Fiber :=
  if f.useCaller || f.state = .term then f else { f with state := .ready }

/-- The end of `Fiber::run`, with its `yield`. -/
def finish (f : Fiber) (throws : Bool) : Fiber :=
  { f with state := if throws then .except else .term, finished := true }.yield

/-- `Fiber::reset` -/
def reset (f : Fiber) : Fiber := { f with state := .init, finished := false }

end Fiber

/-! ### Workers -/

/-- The threads of a scheduler, and the one among them that calls `stop`, if it uses that. -/
structure SchedulerConfig where
  threads : ℕ
  pos : 0 < threads
  caller : Option (Fin threads)

/-- Where a worker is. The fiber is that of an entry, or `cb_fiber` when `cb` is true.
* `taken`: it has the entry and has counted itself.
* `resuming`: the assertion in `resume` has passed. `running`: the fiber executes.
* `yielding`: the state is written and the swap is to come. `returned`: the swap is done.
* `released`: it has counted itself out. `rescheduling`, `holding`: what it does by the state. -/
inductive WorkerPoint
  | off
  | search
  | taken (task : FiberOrCb)
  | resuming (f : ℕ) (cb : Bool)
  | running (f : ℕ) (cb : Bool)
  | yielding (f : ℕ) (cb : Bool)
  | returned (f : ℕ) (cb : Bool)
  | released (f : ℕ) (cb : Bool)
  | rescheduling (f : ℕ) (cb : Bool)
  | holding (f : ℕ) (cb : Bool)
  | idle
  | exited
deriving DecidableEq

namespace WorkerPoint

/-- A task is executed, up to the swap. -/
def executed : WorkerPoint → Option ℕ
  | running f _ | yielding f _ => some f
  | _ => none

/-- The fiber that the worker has to do with. -/
def fiber : WorkerPoint → Option ℕ
  | taken (.fiber f) | resuming f _ | running f _ | yielding f _ | returned f _ | released f _
  | rescheduling f _ | holding f _ => some f
  | _ => none

/-- The worker has counted itself in `m_activeThreadCount`. -/
def active : WorkerPoint → Bool
  | taken _ | resuming _ _ | running _ _ | yielding _ _ | returned _ _ => true
  | _ => false

def isRunning : WorkerPoint → Bool
  | running _ _ => true
  | _ => false

end WorkerPoint

structure Worker where
  point : WorkerPoint := .off
  cbFiber : Option ℕ := none
  /-- the idle fiber is in state `TERM` -/
  idleTerm : Bool := false
deriving DecidableEq

/-- Where the thread in `stop` is. -/
inductive StopPoint
  | notCalled
  | autoStop
  | single
  | stopping
  | rootFiber
  | joining
  | returned
deriving DecidableEq

structure Entry (threads : ℕ) where
  task : FiberOrCb
  thread : Option (Fin threads)
  ticket : ℕ
deriving DecidableEq

structure Scheduler (c : SchedulerConfig) where
  fibers : ℕ → Fiber := fun _ ↦ { useCaller := false }
  fiberCount : ℕ := 0
  queue : List (Entry c.threads) := []
  tickets : ℕ := 0
  /-- which entry has been taken by which worker -/
  taken : List (ℕ × Fin c.threads) := []
  activeThreadCount : ℕ := 0
  workers : Fin c.threads → Worker := fun _ ↦ {}
  registered : List ℕ := []
  autoStop : Bool := false
  stopping : Bool := true
  stop : StopPoint := .notCalled
  /-- `stopping()` has returned true -/
  stopSeen : Bool := false
  /-- an assertion has failed -/
  fault : Bool := false

inductive SchedulerAction (c : SchedulerConfig)
  | newFiber (useCaller : Bool)
  | schedule (by_ : Option (Fin c.threads)) (task : FiberOrCb) (thread : Option (Fin c.threads))
  | trigger (k : ℕ)
  | start
  | take (w : Fin c.threads) (k : ℕ)
  | searchNone (w : Fin c.threads)
  | enter (w : Fin c.threads)
  | resume (w : Fin c.threads)
  | register (w : Fin c.threads)
  | yield (w : Fin c.threads)
  | finish (w : Fin c.threads) (throws : Bool)
  | swapOut (w : Fin c.threads)
  | release (w : Fin c.threads)
  | look (w : Fin c.threads)
  | reschedule (w : Fin c.threads)
  | hold (w : Fin c.threads)
  | idle (w : Fin c.threads)
  | stop
deriving DecidableEq

namespace Scheduler

variable {c : SchedulerConfig}

def setPoint (s : Scheduler c) (w : Fin c.threads) (point : WorkerPoint) : Scheduler c :=
  { s with workers := Function.update s.workers w { s.workers w with point := point } }

def setFiber (s : Scheduler c) (f : ℕ) (fiber : Fiber) : Scheduler c :=
  { s with fibers := Function.update s.fibers f fiber }

def scheduleNoLock (s : Scheduler c) (task : FiberOrCb) (thread : Option (Fin c.threads)) :
    Scheduler c :=
  { s with queue := s.queue ++ [⟨task, thread, s.tickets⟩], tickets := s.tickets + 1 }

/-- The worker may take the entry: it is for it, and its fiber is not in state `EXEC`. -/
def CanTake (s : Scheduler c) (w : Fin c.threads) (entry : Entry c.threads) : Prop :=
  (entry.thread = none ∨ entry.thread = some w) ∧
    ∀ f, entry.task = .fiber f → (s.fibers f).state ≠ .exec

/-- The search may pass over the entry: it is for another worker, or it may have been in `EXEC`. -/
def CanSkip (w : Fin c.threads) (entry : Entry c.threads) : Prop :=
  (entry.thread ≠ none ∧ entry.thread ≠ some w) ∨ ∃ f, entry.task = .fiber f

instance (s : Scheduler c) (w : Fin c.threads) (entry : Entry c.threads) :
    Decidable (s.CanTake w entry) :=
  match h : entry.task with
  | .cb _ => decidable_of_iff (entry.thread = none ∨ entry.thread = some w) (by simp [CanTake, h])
  | .fiber f => decidable_of_iff ((entry.thread = none ∨ entry.thread = some w) ∧
      (s.fibers f).state ≠ .exec) (by simp [CanTake, h])

instance (w : Fin c.threads) (entry : Entry c.threads) : Decidable (CanSkip w entry) :=
  match h : entry.task with
  | .cb _ => decidable_of_iff (entry.thread ≠ none ∧ entry.thread ≠ some w) (by simp [CanSkip, h])
  | .fiber f => .isTrue (.inr ⟨f, h⟩)

/-- `Scheduler::stopping()` -/
def isStopping (s : Scheduler c) : Prop :=
  s.autoStop = true ∧ s.stopping = true ∧ s.queue = [] ∧ s.activeThreadCount = 0

instance (s : Scheduler c) : Decidable s.isStopping := inferInstanceAs (Decidable (_ ∧ _))

/-- From `taken` on: the state of a fiber is looked at, or `cb_fiber` is made ready. -/
def enter (s : Scheduler c) (w : Fin c.threads) : FiberOrCb → Scheduler c
  | .fiber f =>
    if (s.fibers f).Ended then
      { s.setPoint w .search with
        activeThreadCount := s.activeThreadCount - 1 }
    else if (s.fibers f).state = .exec then { s with fault := true }
    else s.setPoint w (.resuming f false)
  | .cb _ =>
    match (s.workers w).cbFiber with
    | some f =>
      if (s.fibers f).Ended ∨ (s.fibers f).state = .init then
        (s.setFiber f (s.fibers f).reset).setPoint w (.resuming f true)
      else { s with fault := true }
    | none =>
      let f := s.fiberCount
      { s with
        fibers := Function.update s.fibers f ⟨true, .init, false⟩
        fiberCount := f + 1
        workers := Function.update s.workers w
          { s.workers w with point := .resuming f true, cbFiber := some f } }

/-- The swap into a fiber that has finished runs on behind the last `yield`. -/
def resume (s : Scheduler c) (w : Fin c.threads) (f : ℕ) (cb : Bool) : Scheduler c :=
  if (s.fibers f).finished then { s with fault := true }
  else (s.setFiber f { s.fibers f with state := .exec }).setPoint w (.running f cb)

/-- The branches after `resume`. -/
def look (s : Scheduler c) (w : Fin c.threads) (f : ℕ) (cb : Bool) : Scheduler c :=
  if (s.fibers f).state = .ready then s.setPoint w (.rescheduling f cb)
  else if (s.fibers f).Ended then
    if cb then (s.setFiber f (s.fibers f).reset).setPoint w .search else s.setPoint w .search
  else s.setPoint w (.holding f cb)

/-- The worker goes back to the search, without `cb_fiber` when that was it. -/
def leave (s : Scheduler c) (w : Fin c.threads) (cb : Bool) : Scheduler c :=
  { s with
    workers := Function.update s.workers w
      { s.workers w with
        point := .search
        cbFiber := if cb then none else (s.workers w).cbFiber } }

/-- The idle fiber calls `stopping()`. -/
def idle (s : Scheduler c) (w : Fin c.threads) : Scheduler c :=
  if s.isStopping then
    { s with
      workers := Function.update s.workers w { s.workers w with point := .search, idleTerm := true }
      stopSeen := true }
  else s.setPoint w .search

/-- The worker is that of the caller and has not begun, or its root fiber has ended. -/
def RootInitOrTerm (s : Scheduler c) : Prop :=
  ∃ w ∈ c.caller, (s.workers w).point = .off ∨ (s.workers w).point = .exited

instance (s : Scheduler c) : Decidable s.RootInitOrTerm :=
  match h : c.caller with
  | some w => decidable_of_iff ((s.workers w).point = .off ∨ (s.workers w).point = .exited)
      (by simp [RootInitOrTerm, h])
  | none => .isFalse (by simp [RootInitOrTerm, h])

def stopStep (s : Scheduler c) : Option (Scheduler c) :=
  match s.stop with
  | .notCalled => if s.stopping then none else some { s with autoStop := true, stop := .autoStop }
  | .autoStop =>
    if s.RootInitOrTerm ∧ c.threads = 1 then some { s with stopping := true, stop := .single }
    else some { s with stopping := true, stop := .stopping }
  | .single =>
    if s.isStopping then some { s with stop := .returned, stopSeen := true }
    else some { s with stop := .stopping }
  | .stopping =>
    match c.caller with
    | none => some { s with stop := .joining }
    | some w =>
      if s.isStopping then some { s with stop := .joining, stopSeen := true }
      else if (s.workers w).point = .off then some { s.setPoint w .search with stop := .rootFiber }
      else none
  | .rootFiber => do
    guard (∀ w ∈ c.caller, (s.workers w).point = .exited)
    some { s with stop := .joining }
  | .joining => do
    guard (∀ w, c.caller ≠ some w → (s.workers w).point = .exited)
    some { s with stop := .returned }
  | .returned => none

def step (s : Scheduler c) (a : SchedulerAction c) : Option (Scheduler c) :=
  if s.fault then none
  else
    match a with
    | .newFiber useCaller =>
      some { s.setFiber s.fiberCount { useCaller := useCaller } with fiberCount := s.fiberCount + 1 }
    | .schedule by_ task thread => do
      guard (∀ w ∈ by_, (s.workers w).point.isRunning = true)
      some (s.scheduleNoLock task thread)
    | .trigger k => do
      let f ← s.registered[k]?
      some ({ s with registered := s.registered.eraseIdx k }.scheduleNoLock (.fiber f) none)
    | .start => do
      guard (s.stopping = true ∧ s.stop = .notCalled ∧ ∀ w, (s.workers w).point = .off)
      some { s with
        stopping := false
        workers := fun w ↦ if c.caller = some w then s.workers w
          else { s.workers w with point := .search } }
    | .take w k => do
      let entry ← s.queue[k]?
      guard ((s.workers w).point = .search ∧ s.CanTake w entry ∧
        ∀ other ∈ s.queue.take k, CanSkip w other)
      some { s.setPoint w (.taken entry.task) with
        queue := s.queue.eraseIdx k
        taken := s.taken ++ [(entry.ticket, w)]
        activeThreadCount := s.activeThreadCount + 1 }
    | .searchNone w => do
      guard ((s.workers w).point = .search ∧ ∀ entry ∈ s.queue, CanSkip w entry)
      some (s.setPoint w (if (s.workers w).idleTerm then .exited else .idle))
    | .enter w =>
      match (s.workers w).point with
      | .taken task => some (s.enter w task)
      | _ => none
    | .resume w =>
      match (s.workers w).point with
      | .resuming f cb => some (s.resume w f cb)
      | _ => none
    | .register w =>
      match (s.workers w).point with
      | .running f _ => some { s with registered := s.registered ++ [f] }
      | _ => none
    | .yield w =>
      match (s.workers w).point with
      | .running f cb => some ((s.setFiber f (s.fibers f).yield).setPoint w (.yielding f cb))
      | _ => none
    | .finish w throws =>
      match (s.workers w).point with
      | .running f cb =>
        some ((s.setFiber f ((s.fibers f).finish throws)).setPoint w (.yielding f cb))
      | _ => none
    | .swapOut w =>
      match (s.workers w).point with
      | .yielding f cb => some (s.setPoint w (.returned f cb))
      | _ => none
    | .release w =>
      match (s.workers w).point with
      | .returned f cb =>
        some { s.setPoint w (.released f cb) with activeThreadCount := s.activeThreadCount - 1 }
      | _ => none
    | .look w =>
      match (s.workers w).point with
      | .released f cb => some (s.look w f cb)
      | _ => none
    | .reschedule w =>
      match (s.workers w).point with
      | .rescheduling f cb => some ((s.scheduleNoLock (.fiber f) none).leave w cb)
      | _ => none
    | .hold w =>
      match (s.workers w).point with
      | .holding f cb => some ((s.setFiber f { s.fibers f with state := .hold }).leave w cb)
      | _ => none
    | .idle w =>
      match (s.workers w).point with
      | .idle => some (s.idle w)
      | _ => none
    | .stop => s.stopStep

/-! ### The steps -/

inductive Step (s : Scheduler c) : SchedulerAction c → Scheduler c → Prop
  | newFiber (useCaller : Bool) : Step s (.newFiber useCaller)
      { s.setFiber s.fiberCount { useCaller := useCaller } with fiberCount := s.fiberCount + 1 }
  | schedule (by_ : Option (Fin c.threads)) (task : FiberOrCb) (thread : Option (Fin c.threads))
      (hby : ∀ w ∈ by_, (s.workers w).point.isRunning = true) :
      Step s (.schedule by_ task thread) (s.scheduleNoLock task thread)
  | trigger (k f : ℕ) (hf : s.registered[k]? = some f) : Step s (.trigger k)
      ({ s with registered := s.registered.eraseIdx k }.scheduleNoLock (.fiber f) none)
  | start (hstopping : s.stopping = true) (hstop : s.stop = .notCalled)
      (hoff : ∀ w, (s.workers w).point = .off) : Step s .start { s with
      stopping := false
      workers := fun w ↦ if c.caller = some w then s.workers w
        else { s.workers w with point := .search } }
  | take (w : Fin c.threads) (k : ℕ) (entry : Entry c.threads) (hentry : s.queue[k]? = some entry)
      (hpoint : (s.workers w).point = .search) (hcan : s.CanTake w entry) :
      Step s (.take w k) { s.setPoint w (.taken entry.task) with
        queue := s.queue.eraseIdx k
        taken := s.taken ++ [(entry.ticket, w)]
        activeThreadCount := s.activeThreadCount + 1 }
  | searchNone (w : Fin c.threads) (hpoint : (s.workers w).point = .search) :
      Step s (.searchNone w) (s.setPoint w (if (s.workers w).idleTerm then .exited else .idle))
  | drop (w : Fin c.threads) (f : ℕ) (hpoint : (s.workers w).point = .taken (.fiber f))
      (hended : (s.fibers f).Ended) : Step s (.enter w) { s.setPoint w .search with
        activeThreadCount := s.activeThreadCount - 1 }
  | enter (w : Fin c.threads) (f : ℕ) (hpoint : (s.workers w).point = .taken (.fiber f))
      (hended : ¬(s.fibers f).Ended) (hexec : (s.fibers f).state ≠ .exec) :
      Step s (.enter w) (s.setPoint w (.resuming f false))
  | enterCb (w : Fin c.threads) (cb f : ℕ) (hpoint : (s.workers w).point = .taken (.cb cb))
      (hcb : (s.workers w).cbFiber = some f)
      (hstate : (s.fibers f).Ended ∨ (s.fibers f).state = .init) :
      Step s (.enter w) ((s.setFiber f (s.fibers f).reset).setPoint w (.resuming f true))
  | enterNew (w : Fin c.threads) (cb : ℕ) (hpoint : (s.workers w).point = .taken (.cb cb))
      (hcb : (s.workers w).cbFiber = none) : Step s (.enter w) { s with
        fibers := Function.update s.fibers s.fiberCount ⟨true, .init, false⟩
        fiberCount := s.fiberCount + 1
        workers := Function.update s.workers w
          { s.workers w with point := .resuming s.fiberCount true, cbFiber := some s.fiberCount } }
  | resume (w : Fin c.threads) (f : ℕ) (cb : Bool) (hpoint : (s.workers w).point = .resuming f cb)
      (hfinished : (s.fibers f).finished = false) : Step s (.resume w)
        ((s.setFiber f { s.fibers f with state := .exec }).setPoint w (.running f cb))
  | register (w : Fin c.threads) (f : ℕ) (cb : Bool) (hpoint : (s.workers w).point = .running f cb) :
      Step s (.register w) { s with registered := s.registered ++ [f] }
  | yield (w : Fin c.threads) (f : ℕ) (cb : Bool) (hpoint : (s.workers w).point = .running f cb) :
      Step s (.yield w) ((s.setFiber f (s.fibers f).yield).setPoint w (.yielding f cb))
  | finish (w : Fin c.threads) (f : ℕ) (cb throws : Bool)
      (hpoint : (s.workers w).point = .running f cb) :
      Step s (.finish w throws)
        ((s.setFiber f ((s.fibers f).finish throws)).setPoint w (.yielding f cb))
  | swapOut (w : Fin c.threads) (f : ℕ) (cb : Bool) (hpoint : (s.workers w).point = .yielding f cb) :
      Step s (.swapOut w) (s.setPoint w (.returned f cb))
  | release (w : Fin c.threads) (f : ℕ) (cb : Bool) (hpoint : (s.workers w).point = .returned f cb) :
      Step s (.release w) { s.setPoint w (.released f cb) with
        activeThreadCount := s.activeThreadCount - 1 }
  | lookReady (w : Fin c.threads) (f : ℕ) (cb : Bool)
      (hpoint : (s.workers w).point = .released f cb) (hready : (s.fibers f).state = .ready) :
      Step s (.look w) (s.setPoint w (.rescheduling f cb))
  | lookReset (w : Fin c.threads) (f : ℕ) (hpoint : (s.workers w).point = .released f true)
      (hended : (s.fibers f).Ended) :
      Step s (.look w) ((s.setFiber f (s.fibers f).reset).setPoint w .search)
  | lookEnded (w : Fin c.threads) (f : ℕ) (hpoint : (s.workers w).point = .released f false)
      (hended : (s.fibers f).Ended) : Step s (.look w) (s.setPoint w .search)
  | lookHold (w : Fin c.threads) (f : ℕ) (cb : Bool)
      (hpoint : (s.workers w).point = .released f cb) (hready : (s.fibers f).state ≠ .ready)
      (hended : ¬(s.fibers f).Ended) : Step s (.look w) (s.setPoint w (.holding f cb))
  | reschedule (w : Fin c.threads) (f : ℕ) (cb : Bool)
      (hpoint : (s.workers w).point = .rescheduling f cb) :
      Step s (.reschedule w) ((s.scheduleNoLock (.fiber f) none).leave w cb)
  | hold (w : Fin c.threads) (f : ℕ) (cb : Bool) (hpoint : (s.workers w).point = .holding f cb) :
      Step s (.hold w) ((s.setFiber f { s.fibers f with state := .hold }).leave w cb)
  | idleStop (w : Fin c.threads) (hpoint : (s.workers w).point = .idle) (hstopping : s.isStopping) :
      Step s (.idle w) { s with
        workers := Function.update s.workers w { s.workers w with point := .search, idleTerm := true }
        stopSeen := true }
  | idleGo (w : Fin c.threads) (hpoint : (s.workers w).point = .idle) (hstopping : ¬s.isStopping) :
      Step s (.idle w) (s.setPoint w .search)
  | stop (s' : Scheduler c) (h : s.stopStep = some s') : Step s .stop s'
  | fault (a : SchedulerAction c) : Step s a { s with fault := true }

theorem step_cases {s s' : Scheduler c} {a : SchedulerAction c} (h : s.step a = some s') :
    s.fault = false ∧ s.Step a s' := by
  unfold step at h
  split at h
  · cases h
  · rename_i hfault
    refine ⟨by simpa using hfault, ?_⟩
    cases a with
    | newFiber useCaller =>
      cases h
      exact .newFiber useCaller
    | schedule by_ task thread =>
      simp only [Option.bind_eq_bind, Option.bind_eq_some_iff, Option.guard_eq_some',
        Option.some.injEq] at h
      obtain ⟨_, hby, rfl⟩ := h
      exact .schedule by_ task thread hby
    | trigger k =>
      simp only [Option.bind_eq_bind, Option.bind_eq_some_iff, Option.some.injEq] at h
      obtain ⟨f, hf, rfl⟩ := h
      exact .trigger k f hf
    | start =>
      simp only [Option.bind_eq_bind, Option.bind_eq_some_iff, Option.guard_eq_some',
        Option.some.injEq] at h
      obtain ⟨_, ⟨hstopping, hstop, hoff⟩, rfl⟩ := h
      exact .start hstopping hstop hoff
    | take w k =>
      simp only [Option.bind_eq_bind, Option.bind_eq_some_iff, Option.guard_eq_some',
        Option.some.injEq] at h
      obtain ⟨entry, hentry, _, ⟨hpoint, hcan, -⟩, rfl⟩ := h
      exact .take w k entry hentry hpoint hcan
    | searchNone w =>
      simp only [Option.bind_eq_bind, Option.bind_eq_some_iff, Option.guard_eq_some',
        Option.some.injEq] at h
      obtain ⟨_, ⟨hpoint, -⟩, rfl⟩ := h
      exact .searchNone w hpoint
    | enter w =>
      dsimp only at h
      split at h
      · rename_i task hpoint
        cases h
        cases task with
        | fiber f =>
          unfold enter
          dsimp only
          split_ifs with hended hexec
          · exact .drop w f hpoint hended
          · exact .fault _
          · exact .enter w f hpoint hended hexec
        | cb cb =>
          unfold enter
          dsimp only
          split
          · rename_i f hcb
            split_ifs with hstate
            · exact .enterCb w cb f hpoint hcb hstate
            · exact .fault _
          · rename_i hcb
            exact .enterNew w cb hpoint hcb
      · cases h
    | resume w =>
      dsimp only at h
      split at h
      · rename_i f cb hpoint
        cases h
        unfold resume
        split_ifs with hfinished
        · exact .fault _
        · exact .resume w f cb hpoint (by simpa using hfinished)
      · cases h
    | register w =>
      dsimp only at h
      split at h
      · rename_i f cb hpoint
        cases h
        exact .register w f cb hpoint
      · cases h
    | yield w =>
      dsimp only at h
      split at h
      · rename_i f cb hpoint
        cases h
        exact .yield w f cb hpoint
      · cases h
    | finish w throws =>
      dsimp only at h
      split at h
      · rename_i f cb hpoint
        cases h
        exact .finish w f cb throws hpoint
      · cases h
    | swapOut w =>
      dsimp only at h
      split at h
      · rename_i f cb hpoint
        cases h
        exact .swapOut w f cb hpoint
      · cases h
    | release w =>
      dsimp only at h
      split at h
      · rename_i f cb hpoint
        cases h
        exact .release w f cb hpoint
      · cases h
    | look w =>
      dsimp only at h
      split at h
      · rename_i f cb hpoint
        cases h
        unfold look
        split_ifs with hready hended hcb
        · exact .lookReady w f cb hpoint hready
        · subst hcb
          exact .lookReset w f hpoint hended
        · obtain rfl : cb = false := by simpa using hcb
          exact .lookEnded w f hpoint hended
        · exact .lookHold w f cb hpoint hready hended
      · cases h
    | reschedule w =>
      dsimp only at h
      split at h
      · rename_i f cb hpoint
        cases h
        exact .reschedule w f cb hpoint
      · cases h
    | hold w =>
      dsimp only at h
      split at h
      · rename_i f cb hpoint
        cases h
        exact .hold w f cb hpoint
      · cases h
    | idle w =>
      dsimp only at h
      split at h
      · rename_i hpoint
        cases h
        unfold idle
        split_ifs with hstopping
        · exact .idleStop w hpoint hstopping
        · exact .idleGo w hpoint hstopping
      · cases h
    | stop => exact .stop s' h

/-- The steps of `stop`. -/
inductive StopStep (s : Scheduler c) : Scheduler c → Prop
  | call (hstop : s.stop = .notCalled) : StopStep s { s with autoStop := true, stop := .autoStop }
  | single (hstop : s.stop = .autoStop) (hroot : s.RootInitOrTerm) (hone : c.threads = 1) :
      StopStep s { s with stopping := true, stop := .single }
  | stopping (hstop : s.stop = .autoStop) : StopStep s { s with stopping := true, stop := .stopping }
  | singleStop (hstop : s.stop = .single) (hstopping : s.isStopping) :
      StopStep s { s with stop := .returned, stopSeen := true }
  | singleGo (hstop : s.stop = .single) : StopStep s { s with stop := .stopping }
  | noCaller (hstop : s.stop = .stopping) (hcaller : c.caller = none) :
      StopStep s { s with stop := .joining }
  | rootStop (w : Fin c.threads) (hstop : s.stop = .stopping) (hcaller : c.caller = some w)
      (hstopping : s.isStopping) : StopStep s { s with stop := .joining, stopSeen := true }
  | root (w : Fin c.threads) (hstop : s.stop = .stopping) (hcaller : c.caller = some w)
      (hoff : (s.workers w).point = .off) :
      StopStep s { s.setPoint w .search with stop := .rootFiber }
  | rootEnded (hstop : s.stop = .rootFiber)
      (hexited : ∀ w ∈ c.caller, (s.workers w).point = .exited) : StopStep s { s with stop := .joining }
  | joined (hstop : s.stop = .joining)
      (hexited : ∀ w, c.caller ≠ some w → (s.workers w).point = .exited) :
      StopStep s { s with stop := .returned }

theorem stopStep_inv {s s' : Scheduler c} (h : s.stopStep = some s') : s.StopStep s' := by
  unfold stopStep at h
  split at h
  · rename_i hstop
    split_ifs at h
    cases h
    exact .call hstop
  · rename_i hstop
    split_ifs at h with hsingle
    · cases h
      exact .single hstop hsingle.1 hsingle.2
    · cases h
      exact .stopping hstop
  · rename_i hstop
    split_ifs at h with hstopping
    · cases h
      exact .singleStop hstop hstopping
    · cases h
      exact .singleGo hstop
  · rename_i hstop
    split at h
    · rename_i hcaller
      cases h
      exact .noCaller hstop hcaller
    · rename_i w hcaller
      split_ifs at h with hstopping hoff
      · cases h
        exact .rootStop w hstop hcaller hstopping
      · cases h
        exact .root w hstop hcaller hoff
  · rename_i hstop
    simp only [Option.bind_eq_bind, Option.bind_eq_some_iff, Option.guard_eq_some',
      Option.some.injEq] at h
    obtain ⟨_, hexited, rfl⟩ := h
    exact .rootEnded hstop hexited
  · rename_i hstop
    simp only [Option.bind_eq_bind, Option.bind_eq_some_iff, Option.guard_eq_some',
      Option.some.injEq] at h
    obtain ⟨_, hexited, rfl⟩ := h
    exact .joined hstop hexited
  · cases h

/-- `stop` changes at most its own variables and the worker of its own thread. -/
theorem stopStep_cases {s s' : Scheduler c} (h : s.stopStep = some s') :
    (∃ autoStop stopping stop stopSeen, s' = { s with
      autoStop := autoStop, stopping := stopping, stop := stop, stopSeen := stopSeen }) ∨
    ∃ w, (s.workers w).point = .off ∧ s' = { s.setPoint w .search with stop := .rootFiber } := by
  cases stopStep_inv h with
  | root w hstop hcaller hoff => exact .inr ⟨w, hoff, rfl⟩
  | _ => exact .inl ⟨_, _, _, _, rfl⟩

end Scheduler

def scheduler (c : SchedulerConfig) : Lts (Scheduler c) (SchedulerAction c) where
  init := {}
  step := Scheduler.step

end Rsylar
