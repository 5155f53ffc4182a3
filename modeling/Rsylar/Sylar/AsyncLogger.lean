import Rsylar.Foundations.TransitionSystem
import Rsylar.Sylar.LogConfig

/-!
# The asynchronous logger

`AsyncLogger` with the calls of `push`, `start` and `stop` that threads have made and the threads
that run `run`. A step is one access to what they share: an atomic variable, the semaphore, the
pointer to the thread or a section under the mutex. The calls and the threads are numbered, and the
event of a push is known by the number of the call.

An event whose logger is null is dropped. A call of `stop` that has returned remembers how many
pushes had begun by then; nothing reads this but what is said about the calls.
-/

set_option autoImplicit false
set_option relaxedAutoImplicit false

namespace Rsylar

open TransitionSystem

/-- What the asynchronous logger looks at in an event. -/
structure LogEvent where
  /-- the name of the logger, `none` for a null pointer -/
  logger : Option String
  level : LogLevel

/-- Where a call of `push` is: in front of the load of `m_running`, of `logInternal`, of the section
under the lock, of the notification. -/
inductive PushState
  | loading
  | direct
  | queueing
  | notifying
  | returned
deriving DecidableEq

structure PushCall where
  event : LogEvent
  state : PushState

/-- Where a call of `start` is that has set `m_running`. The new thread runs before the pointer to
it is stored. -/
inductive StartState
  | storing
  | creating
  | assigning (thread : ℕ)
  | returned
deriving DecidableEq

/-- Where a call of `stop` is that has cleared `m_running`. -/
inductive StopState
  | setting
  | notifying
  | looking
  | joining (thread : ℕ)
  | resetting
  | clearing
  | returned (began : ℕ)
deriving DecidableEq

/-- Where a thread is in `run`, with the events that it has taken and not logged yet. -/
inductive RunState
  | waiting
  | swapping
  | logging (events : List ℕ)
  | checking
  | lastSwapping
  | lastLogging (events : List ℕ)
  | finished
deriving DecidableEq

structure AsyncLogger where
  running : Bool := false
  stopping : Bool := false
  sem : ℕ := 0
  queue : List ℕ := []
  thread : Option ℕ := none
  pushes : List PushCall := []
  starts : List StartState := []
  stops : List StopState := []
  threads : List RunState := []
  /-- the events that have been passed to `logInternal` -/
  logged : List (LogLevel × ℕ) := []

/-- A call begins, or a call or a thread takes its next step. -/
inductive AsyncAction
  | push (event : LogEvent)
  | pushStep (call : ℕ)
  | start
  | startStep (call : ℕ)
  | stop
  | stopStep (call : ℕ)
  | runStep (thread : ℕ)

namespace AsyncLogger

def setPush (s : AsyncLogger) (p : ℕ) (call : PushCall) (state : PushState) : AsyncLogger :=
  { s with pushes := s.pushes.set p { call with state := state } }

def setStart (s : AsyncLogger) (i : ℕ) (state : StartState) : AsyncLogger :=
  { s with starts := s.starts.set i state }

def setStop (s : AsyncLogger) (i : ℕ) (state : StopState) : AsyncLogger :=
  { s with stops := s.stops.set i state }

def setThread (s : AsyncLogger) (t : ℕ) (state : RunState) : AsyncLogger :=
  { s with threads := s.threads.set t state }

/-- `logInternal` of the logger of an event, when it has one. -/
def logInternal (s : AsyncLogger) (p : ℕ) : AsyncLogger :=
  match s.pushes[p]? with
  | none => s
  | some call =>
    match call.event.logger with
    | none => s
    | some _ => { s with logged := s.logged ++ [(call.event.level, p)] }

def pushStep (s : AsyncLogger) (p : ℕ) (call : PushCall) : Option AsyncLogger :=
  match call.state with
  | .loading => some (s.setPush p call (if s.running then .queueing else .direct))
  | .direct => some ((s.logInternal p).setPush p call .returned)
  | .queueing => some { s.setPush p call .notifying with queue := s.queue ++ [p] }
  | .notifying => some { s.setPush p call .returned with sem := s.sem + 1 }
  | .returned => none

/-- The exchange of `m_running`: a call that finds it set returns. -/
def start (s : AsyncLogger) : AsyncLogger :=
  if s.running then
    { s with starts := s.starts ++ [.returned] }
  else
    { s with running := true, starts := s.starts ++ [.storing] }

def startStep (s : AsyncLogger) (i : ℕ) : StartState → Option AsyncLogger
  | .storing => some { s.setStart i .creating with stopping := false }
  | .creating =>
    some { s.setStart i (.assigning s.threads.length) with threads := s.threads ++ [.waiting] }
  | .assigning thread => some { s.setStart i .returned with thread := some thread }
  | .returned => none

/-- The exchange of `m_running`: a call that finds it cleared returns. -/
def stop (s : AsyncLogger) : AsyncLogger :=
  if s.running then
    { s with running := false, stops := s.stops ++ [.setting] }
  else
    { s with stops := s.stops ++ [.returned s.pushes.length] }

def stopStep (s : AsyncLogger) (i : ℕ) : StopState → Option AsyncLogger
  | .setting => some { s.setStop i .notifying with stopping := true }
  | .notifying => some { s.setStop i .looking with sem := s.sem + 1 }
  | .looking =>
    match s.thread with
    | none => some (s.setStop i .clearing)
    | some thread => some (s.setStop i (.joining thread))
  | .joining thread =>
    if s.threads[thread]? = some .finished then some (s.setStop i .resetting) else none
  | .resetting => some { s.setStop i .clearing with thread := none }
  | .clearing => some { s.setStop i (.returned s.pushes.length) with stopping := false }
  | .returned _ => none

def runStep (s : AsyncLogger) (t : ℕ) : RunState → Option AsyncLogger
  | .waiting => if s.sem = 0 then none else some { s.setThread t .swapping with sem := s.sem - 1 }
  | .swapping => some { s.setThread t (.logging s.queue) with queue := [] }
  | .logging (p :: events) => some ((s.logInternal p).setThread t (.logging events))
  | .logging [] => some (s.setThread t (if s.stopping then .checking else .waiting))
  | .checking => some (s.setThread t (if s.queue = [] then .lastSwapping else .waiting))
  | .lastSwapping => some { s.setThread t (.lastLogging s.queue) with queue := [] }
  | .lastLogging (p :: events) => some ((s.logInternal p).setThread t (.lastLogging events))
  | .lastLogging [] => some (s.setThread t .finished)
  | .finished => none

def step (s : AsyncLogger) : AsyncAction → Option AsyncLogger
  | .push event => some { s with pushes := s.pushes ++ [⟨event, .loading⟩] }
  | .pushStep p => s.pushes[p]?.bind (s.pushStep p)
  | .start => some s.start
  | .startStep i => s.starts[i]?.bind (s.startStep i)
  | .stop => some s.stop
  | .stopStep i => s.stops[i]?.bind (s.stopStep i)
  | .runStep t => s.threads[t]?.bind (s.runStep t)

end AsyncLogger

/-- The logger, which no thread has called yet. -/
def asyncLogger : Lts AsyncLogger AsyncAction where
  init := {}
  step := AsyncLogger.step

end Rsylar
