import Mathlib.Algebra.BigOperators.Group.Finset.Basic
import Mathlib.Data.Finset.SDiff
import Rsylar.Foundations.Fallible
import Rsylar.Foundations.TransitionSystem

/-!
# The IO manager

The table of the `FdContext`s, the events registered in them and the events the kernel knows of. A
call of `addEvent`, `delEvent`, `cancelEvent` or `cancelAll` looks into the table under the lock of
the table, `addEvent` may enlarge the table under a later lock, and the rest of the call runs under
the lock of the context. Each of these is one step, and so is the processing of one report in
`idle`; the calls and the reports of all threads are interleaved in any way (`IOManager.step`).

Contexts live on the heap and are numbered in the order they are made. A report names the context
that the kernel has stored, and events that were registered when `epoll_wait` returned. Whether
`epoll_ctl` succeeds is part of the action, except that the kernel refuses to add what it has and to
change what it has not. A failing assertion ends the process, and so does a call through a scheduler
that is null. `NONE`, the empty set of events, is not the argument of any call.
-/

set_option autoImplicit false
set_option relaxedAutoImplicit false

namespace Rsylar

open TransitionSystem

/-! ### Contexts -/

inductive IOManager.Event
  | read
  | write
deriving DecidableEq

/-- What a scheduler is given. -/
inductive FiberOrCb
  | fiber (f : ℕ)
  | cb (c : ℕ)
deriving DecidableEq

structure EventContext where
  scheduler : Option ℕ := none
  fiber : Option ℕ := none
  cb : Option ℕ := none
deriving DecidableEq

structure FdContext where
  fd : ℕ
  events : Finset IOManager.Event := ∅
  getContext : IOManager.Event → EventContext := fun _ ↦ {}

/-- What ends the process. -/
inductive IOFault
  | eventNotSet
  | nullScheduler
  | contextInUse
  | fiberNotExec
  | eventsLeft
  | outOfBounds
deriving DecidableEq

namespace FdContext

open IOManager

/-- The context without the event, and what is given to which scheduler. -/
def triggerEvent (c : FdContext) (event : Event) :
    Except IOFault (FdContext × Option (ℕ × FiberOrCb)) :=
  if event ∉ c.events then .error .eventNotSet
  else
    let ctx := c.getContext event
    match ctx.scheduler with
    | none => .error .nullScheduler
    | some scheduler =>
      let (ctx, given) := match ctx.cb with
        | some cb => ({ ctx with cb := none }, some (FiberOrCb.cb cb))
        | none => ({ ctx with fiber := none }, ctx.fiber.map FiberOrCb.fiber)
      .ok ({ c with
        events := c.events.erase event
        getContext := Function.update c.getContext event { ctx with scheduler := none } },
        given.map fun task ↦ (scheduler, task))

end FdContext

/-! ### The manager -/

/-- What the kernel knows of a descriptor. -/
structure Registration where
  ctx : ℕ
  events : Finset IOManager.Event

inductive EpollCtlOp
  | add
  | mod
  | del
deriving DecidableEq

/-- The thread that calls `addEvent`: its scheduler, the fiber it executes and whether this fiber is
in state `EXEC`, with the callback of the call. -/
structure Caller where
  scheduler : Option ℕ
  fiber : ℕ
  exec : Bool
  cb : Option ℕ := none
deriving DecidableEq

structure IOManager where
  contexts : ℕ → FdContext
  /-- the number of contexts made -/
  contextCount : ℕ
  fdContexts : List ℕ
  pendingEventCount : ℤ
  epoll : ℕ → Option Registration
  /-- what has been given to which scheduler -/
  scheduled : List (ℕ × FiberOrCb)

namespace IOManager

/-- The new entries of the table are new contexts. -/
def contextResize (s : IOManager) (size : ℕ) : IOManager :=
  let fresh := size - s.fdContexts.length
  { s with
    contexts := fun i ↦
      if s.contextCount ≤ i ∧ i < s.contextCount + fresh then
        { fd := s.fdContexts.length + (i - s.contextCount) }
      else s.contexts i
    contextCount := s.contextCount + fresh
    fdContexts := s.fdContexts.take size ++ (List.range fresh).map fun i ↦ s.contextCount + i }

/-- The constructor makes 32 contexts. -/
def create : IOManager :=
  ({ contexts := fun _ ↦ { fd := 0 }
     contextCount := 0
     fdContexts := []
     pendingEventCount := 0
     epoll := fun _ ↦ none
     scheduled := [] } : IOManager).contextResize 32

/-- `none` when the call fails. -/
def epollCtl (s : IOManager) (op : EpollCtlOp) (fd : ℕ) (registration : Registration) (ok : Bool) :
    Option IOManager :=
  match op with
  | .add =>
    if ok ∧ (s.epoll fd).isNone then
      some { s with epoll := Function.update s.epoll fd (some registration) }
    else none
  | .mod =>
    if ok ∧ (s.epoll fd).isSome then
      some { s with epoll := Function.update s.epoll fd (some registration) }
    else none
  | .del =>
    if ok ∧ (s.epoll fd).isSome then some { s with epoll := Function.update s.epoll fd none }
    else none

/-- `triggerEvent` on context `i` and the decrement after it. -/
def trigger (s : IOManager) (i : ℕ) (event : Event) : Except IOFault IOManager := do
  let (c, given) ← (s.contexts i).triggerEvent event
  pure { s with
    contexts := Function.update s.contexts i c
    pendingEventCount := s.pendingEventCount - 1
    scheduled := s.scheduled ++ given.toList }

def triggerIf (s : IOManager) (i : ℕ) (event : Event) (events : Finset Event) :
    Except IOFault IOManager :=
  if event ∈ events then s.trigger i event else .ok s

/-! ### The calls, under the lock of context `i` -/

/-- True for the return value 0. -/
def addEvent (s : IOManager) (i fd : ℕ) (event : Event) (caller : Caller) (ok : Bool) :
    Except IOFault (IOManager × Bool) :=
  let c := s.contexts i
  if event ∈ c.events then .ok (s, false)
  else
    match s.epollCtl (if c.events = ∅ then .add else .mod) fd ⟨i, insert event c.events⟩ ok with
    | none => .ok (s, false)
    | some s =>
      if c.getContext event ≠ {} then .error .contextInUse
      else if caller.cb.isNone && !caller.exec then .error .fiberNotExec
      else
        let ctx : EventContext :=
          { scheduler := caller.scheduler
            cb := caller.cb
            fiber := if caller.cb.isSome then none else some caller.fiber }
        .ok ({ s with
          contexts := Function.update s.contexts i { c with
            events := insert event c.events
            getContext := Function.update c.getContext event ctx }
          pendingEventCount := s.pendingEventCount + 1 }, true)

def delEvent (s : IOManager) (i fd : ℕ) (event : Event) (ok : Bool) : IOManager × Bool :=
  let c := s.contexts i
  if event ∉ c.events then (s, false)
  else
    let newEvents := c.events.erase event
    match s.epollCtl (if newEvents = ∅ then .del else .mod) fd ⟨i, newEvents⟩ ok with
    | none => (s, false)
    | some s =>
      ({ s with
        contexts := Function.update s.contexts i { c with
          events := newEvents
          getContext := Function.update c.getContext event {} }
        pendingEventCount := s.pendingEventCount - 1 }, true)

def cancelEvent (s : IOManager) (i fd : ℕ) (event : Event) (ok : Bool) :
    Except IOFault (IOManager × Bool) :=
  let c := s.contexts i
  if event ∉ c.events then .ok (s, false)
  else
    let newEvents := c.events.erase event
    match s.epollCtl (if newEvents = ∅ then .del else .mod) fd ⟨i, newEvents⟩ ok with
    | none => .ok (s, false)
    | some s => do
      let s ← s.trigger i event
      pure (s, true)

def cancelAll (s : IOManager) (i fd : ℕ) (ok : Bool) : Except IOFault (IOManager × Bool) :=
  let c := s.contexts i
  if c.events = ∅ then .ok (s, false)
  else
    match s.epollCtl .del fd ⟨i, ∅⟩ ok with
    | none => .ok (s, false)
    | some s => do
      let s ← s.triggerIf i .read (s.contexts i).events
      let s ← s.triggerIf i .write (s.contexts i).events
      if (s.contexts i).events ≠ ∅ then .error .eventsLeft
      else pure (s, true)

/-- A report of `epoll_wait`. -/
structure Report where
  ctx : ℕ
  events : Finset Event
  /-- `EPOLLERR` or `EPOLLHUP` -/
  error : Bool

/-- The events a report is about: with an error, all that are registered now. -/
def realEvents (s : IOManager) (report : Report) : Finset Event :=
  if report.error then report.events ∪ (s.contexts report.ctx).events else report.events

/-- The body of the loop of `idle` for one report. -/
def processReport (s : IOManager) (report : Report) (ok : Bool) : Except IOFault IOManager :=
  let c := s.contexts report.ctx
  let realEvents := s.realEvents report
  if c.events ∩ realEvents = ∅ then .ok s
  else
    let leftEvents := c.events \ realEvents
    match s.epollCtl (if leftEvents = ∅ then .del else .mod) c.fd ⟨report.ctx, leftEvents⟩ ok with
    | none => .ok s
    | some s => do
      let s ← s.triggerIf report.ctx .read realEvents
      s.triggerIf report.ctx .write realEvents

end IOManager

/-! ### The threads -/

inductive IOOp
  | addEvent (event : IOManager.Event) (caller : Caller)
  | delEvent (event : IOManager.Event)
  | cancelEvent (event : IOManager.Event)
  | cancelAll
deriving DecidableEq

/-- A call that has looked into the table. -/
structure IOCall where
  fd : ℕ
  op : IOOp
  /-- the context it has found, `none` when the table was too small -/
  ctx : Option ℕ
deriving DecidableEq

structure IOSystem where
  iom : IOManager
  /-- the calls on the way -/
  calls : List IOCall
  /-- the reports that have been taken from the kernel and not been processed -/
  reports : List IOManager.Report
  fault : Option IOFault

inductive IOAction
  | call (fd : ℕ) (op : IOOp)
  | resize (k : ℕ)
  | finish (k : ℕ) (ok : Bool)
  | epollWait (fd : ℕ) (report : IOManager.Report)
  | process (k : ℕ) (ok : Bool)
  | close (fd : ℕ)

namespace IOSystem

open IOManager

def setIom (s : IOSystem) : Except IOFault IOManager → IOSystem
  | .ok iom => { s with iom := iom }
  | .error e => { s with fault := some e }

/-- The look into the table. Only `addEvent` goes on when the table is too small. -/
def lookup (s : IOSystem) (fd : ℕ) (op : IOOp) : IOSystem :=
  match s.iom.fdContexts[fd]?, op with
  | some i, _ => { s with calls := s.calls ++ [⟨fd, op, some i⟩] }
  | none, .addEvent _ _ => { s with calls := s.calls ++ [⟨fd, op, none⟩] }
  | none, _ => s

/-- `contextResize` and the second look. -/
def resize (s : IOSystem) (k : ℕ) (call : IOCall) : IOSystem :=
  let iom := s.iom.contextResize (call.fd * 3 / 2)
  match iom.fdContexts[call.fd]? with
  | none => { s with iom := iom, fault := some .outOfBounds }
  | some i => { s with iom := iom, calls := s.calls.set k { call with ctx := some i } }

/-- The rest of a call, under the lock of the context. -/
def finish (iom : IOManager) (i fd : ℕ) (op : IOOp) (ok : Bool) : Except IOFault IOManager :=
  match op with
  | .addEvent event caller => (iom.addEvent i fd event caller ok).map Prod.fst
  | .delEvent event => .ok (iom.delEvent i fd event ok).1
  | .cancelEvent event => (iom.cancelEvent i fd event ok).map Prod.fst
  | .cancelAll => (iom.cancelAll i fd ok).map Prod.fst

/-- The kernel reports events that are registered, and errors at any time. -/
def Reportable (iom : IOManager) (fd : ℕ) (report : Report) : Prop :=
  ∃ registration, iom.epoll fd = some registration ∧ registration.ctx = report.ctx ∧
    report.events ⊆ registration.events

instance (iom : IOManager) (fd : ℕ) (report : Report) : Decidable (Reportable iom fd report) :=
  match h : iom.epoll fd with
  | none => .isFalse (by rintro ⟨registration, hsome, -⟩; rw [h] at hsome; cases hsome)
  | some registration =>
    decidable_of_iff (registration.ctx = report.ctx ∧ report.events ⊆ registration.events) (by
      constructor
      · rintro ⟨hctx, hevents⟩
        exact ⟨registration, h, hctx, hevents⟩
      · rintro ⟨registration', hsome, hctx, hevents⟩
        obtain rfl : registration = registration' := Option.some.inj (h.symm.trans hsome)
        exact ⟨hctx, hevents⟩)

def step (s : IOSystem) (a : IOAction) : Option IOSystem :=
  if s.fault.isSome then none
  else
    match a with
    | .call fd op => some (s.lookup fd op)
    | .resize k => do
      let call ← s.calls[k]?
      guard (call.ctx = none)
      some (s.resize k call)
    | .finish k ok => do
      let call ← s.calls[k]?
      let i ← call.ctx
      some ({ s with calls := s.calls.eraseIdx k }.setIom (finish s.iom i call.fd call.op ok))
    | .epollWait fd report => do
      guard (Reportable s.iom fd report)
      some { s with reports := s.reports ++ [report] }
    | .process k ok => do
      let report ← s.reports[k]?
      some ({ s with reports := s.reports.eraseIdx k }.setIom (s.iom.processReport report ok))
    | .close fd => some { s with iom := { s.iom with epoll := Function.update s.iom.epoll fd none } }

end IOSystem

/-! ### The steps -/

/-- The steps of the threads and of the kernel. -/
inductive IOSystem.Step (s : IOSystem) : IOAction → IOSystem → Prop
  | find (fd : ℕ) (op : IOOp) (i : ℕ) (h : s.iom.fdContexts[fd]? = some i) :
      Step s (.call fd op) { s with calls := s.calls ++ [⟨fd, op, some i⟩] }
  | findNone (fd : ℕ) (event : IOManager.Event) (caller : Caller)
      (h : s.iom.fdContexts[fd]? = none) :
      Step s (.call fd (.addEvent event caller))
        { s with calls := s.calls ++ [⟨fd, .addEvent event caller, none⟩] }
  | callFails (fd : ℕ) (op : IOOp) (h : s.iom.fdContexts[fd]? = none) : Step s (.call fd op) s
  | resize (k : ℕ) (call : IOCall) (i : ℕ) (hcall : s.calls[k]? = some call) (hctx : call.ctx = none)
      (h : (s.iom.contextResize (call.fd * 3 / 2)).fdContexts[call.fd]? = some i) :
      Step s (.resize k) { s with
        iom := s.iom.contextResize (call.fd * 3 / 2)
        calls := s.calls.set k { call with ctx := some i } }
  | outOfBounds (k : ℕ) (call : IOCall) (hcall : s.calls[k]? = some call) (hctx : call.ctx = none)
      (h : (s.iom.contextResize (call.fd * 3 / 2)).fdContexts[call.fd]? = none) :
      Step s (.resize k) { s with
        iom := s.iom.contextResize (call.fd * 3 / 2), fault := some .outOfBounds }
  | finish (k : ℕ) (ok : Bool) (call : IOCall) (i : ℕ) (hcall : s.calls[k]? = some call)
      (hctx : call.ctx = some i) :
      Step s (.finish k ok) ({ s with calls := s.calls.eraseIdx k }.setIom
        (finish s.iom i call.fd call.op ok))
  | epollWait (fd : ℕ) (report : IOManager.Report) (h : Reportable s.iom fd report) :
      Step s (.epollWait fd report) { s with reports := s.reports ++ [report] }
  | process (k : ℕ) (ok : Bool) (report : IOManager.Report) (h : s.reports[k]? = some report) :
      Step s (.process k ok) ({ s with reports := s.reports.eraseIdx k }.setIom
        (s.iom.processReport report ok))
  | close (fd : ℕ) : Step s (.close fd)
      { s with iom := { s.iom with epoll := Function.update s.iom.epoll fd none } }

theorem IOSystem.step_cases {s s' : IOSystem} {a : IOAction} (h : s.step a = some s') :
    s.fault = none ∧ s.Step a s' := by
  unfold step at h
  split at h
  · cases h
  · rename_i hfault
    refine ⟨Option.not_isSome_iff_eq_none.mp hfault, ?_⟩
    cases a with
    | call fd op =>
      cases h
      unfold lookup
      cases hfd : s.iom.fdContexts[fd]? with
      | some i => exact .find fd op i hfd
      | none =>
        cases op with
        | addEvent event caller => exact .findNone fd event caller hfd
        | _ => exact .callFails fd _ hfd
    | resize k =>
      simp only [Option.bind_eq_bind, Option.bind_eq_some_iff, Option.guard_eq_some',
        Option.some.injEq] at h
      obtain ⟨call, hcall, _, hctx, rfl⟩ := h
      unfold resize
      dsimp only
      split
      · rename_i hnone
        exact .outOfBounds k call hcall hctx hnone
      · rename_i i hsome
        exact .resize k call i hcall hctx hsome
    | finish k ok =>
      simp only [Option.bind_eq_bind, Option.bind_eq_some_iff, Option.some.injEq] at h
      obtain ⟨call, hcall, i, hctx, rfl⟩ := h
      exact .finish k ok call i hcall hctx
    | epollWait fd report =>
      simp only [Option.bind_eq_bind, Option.bind_eq_some_iff, Option.guard_eq_some',
        Option.some.injEq] at h
      obtain ⟨_, hreport, rfl⟩ := h
      exact .epollWait fd report hreport
    | process k ok =>
      simp only [Option.bind_eq_bind, Option.bind_eq_some_iff, Option.some.injEq] at h
      obtain ⟨report, hreport, rfl⟩ := h
      exact .process k ok report hreport
    | close fd =>
      cases h
      exact .close fd

/-! ### What is done under the lock of a context -/

/-- Only context `i` changes, and the kernel learns of no other. -/
structure SectionStep (i : ℕ) (s s' : IOManager) : Prop where
  fdContexts : s'.fdContexts = s.fdContexts
  contextCount : s'.contextCount = s.contextCount
  fd : (s'.contexts i).fd = (s.contexts i).fd
  others : ∀ j, j ≠ i → s'.contexts j = s.contexts j
  registered : ∀ fd registration, s'.epoll fd = some registration →
    (∃ old, s.epoll fd = some old ∧ old.ctx = registration.ctx) ∨ registration.ctx = i

namespace SectionStep

variable {i fd : ℕ} {s s' t : IOManager} {event : IOManager.Event} {ok : Bool}

theorem refl : SectionStep i s s :=
  ⟨rfl, rfl, rfl, fun _ _ ↦ rfl, fun _ registration h ↦ .inl ⟨registration, h, rfl⟩⟩

theorem trans (h : SectionStep i s s') (h' : SectionStep i s' t) : SectionStep i s t where
  fdContexts := h'.fdContexts.trans h.fdContexts
  contextCount := h'.contextCount.trans h.contextCount
  fd := h'.fd.trans h.fd
  others := fun j hj ↦ (h'.others j hj).trans (h.others j hj)
  registered := by
    intro fd registration hsome
    rcases h'.registered fd registration hsome with ⟨old, hold, hctx⟩ | hctx
    · rcases h.registered fd old hold with ⟨older, holder, hctx'⟩ | hctx'
      · exact .inl ⟨older, holder, hctx'.trans hctx⟩
      · exact .inr (hctx.symm.trans hctx')
    · exact .inr hctx

/-- A change of context `i` that leaves its descriptor. -/
theorem of_update {c : FdContext} (hcontexts : s'.contexts = Function.update s.contexts i c)
    (hfd : c.fd = (s.contexts i).fd)
    (htable : s'.fdContexts = s.fdContexts) (hcount : s'.contextCount = s.contextCount)
    (hepoll : s'.epoll = s.epoll) : SectionStep i s s' where
  fdContexts := htable
  contextCount := hcount
  fd := by rw [hcontexts, Function.update_self, hfd]
  others := fun j hj ↦ by rw [hcontexts, Function.update_of_ne hj]
  registered := fun fd registration h ↦ .inl ⟨registration, hepoll ▸ h, rfl⟩

end SectionStep

namespace IOManager

variable {i fd : ℕ} {s s' : IOManager} {event : Event} {ok : Bool}

theorem epollCtl_some {op : EpollCtlOp} {registration : Registration}
    (h : s.epollCtl op fd registration ok = some s') :
    ∃ entry, (entry = some registration ∨ entry = none) ∧
      s' = { s with epoll := Function.update s.epoll fd entry } := by
  unfold epollCtl at h
  cases op with
  | del =>
    dsimp only at h
    split at h
    · cases h
      exact ⟨none, .inr rfl, rfl⟩
    · cases h
  | _ =>
    dsimp only at h
    split at h
    · cases h
      exact ⟨some registration, .inl rfl, rfl⟩
    · cases h

theorem sectionStep_epollCtl {op : EpollCtlOp} {events : Finset Event}
    (h : s.epollCtl op fd ⟨i, events⟩ ok = some s') : SectionStep i s s' := by
  obtain ⟨entry, hentry, rfl⟩ := epollCtl_some h
  refine ⟨rfl, rfl, rfl, fun _ _ ↦ rfl, fun fd' registration hsome ↦ ?_⟩
  by_cases hfd : fd' = fd
  · subst hfd
    simp only [Function.update_self] at hsome
    rcases hentry with rfl | rfl
    · cases hsome
      exact .inr rfl
    · cases hsome
  · simp only [Function.update_of_ne hfd] at hsome
    exact .inl ⟨registration, hsome, rfl⟩

theorem fd_triggerEvent {c c' : FdContext} {given : Option (ℕ × FiberOrCb)}
    (h : c.triggerEvent event = .ok (c', given)) :
    c'.fd = c.fd ∧ event ∈ c.events ∧ c'.events = c.events.erase event := by
  unfold FdContext.triggerEvent at h
  split at h
  · cases h
  · rename_i hmem
    dsimp only at h
    split at h
    · cases h
    · split at h
      · cases h
        exact ⟨rfl, not_not.mp hmem, rfl⟩
      · cases h
        exact ⟨rfl, not_not.mp hmem, rfl⟩

theorem trigger_ok (h : s.trigger i event = .ok s') : ∃ c given,
    (s.contexts i).triggerEvent event = .ok (c, given) ∧
      s' = { s with
        contexts := Function.update s.contexts i c
        pendingEventCount := s.pendingEventCount - 1
        scheduled := s.scheduled ++ given.toList } := by
  unfold trigger at h
  cases hc : (s.contexts i).triggerEvent event with
  | error e =>
    rw [hc] at h
    cases h
  | ok result =>
    rw [hc] at h
    cases h
    exact ⟨result.1, result.2, rfl, rfl⟩

theorem sectionStep_trigger (h : s.trigger i event = .ok s') : SectionStep i s s' := by
  obtain ⟨c, given, hc, rfl⟩ := trigger_ok h
  exact .of_update rfl (fd_triggerEvent hc).1 rfl rfl rfl

theorem sectionStep_triggerIf {events : Finset Event} (h : s.triggerIf i event events = .ok s') :
    SectionStep i s s' := by
  unfold triggerIf at h
  split at h
  · exact sectionStep_trigger h
  · cases h
    exact .refl

theorem sectionStep_addEvent {caller : Caller} {rt : Bool}
    (h : s.addEvent i fd event caller ok = .ok (s', rt)) : SectionStep i s s' := by
  unfold addEvent at h
  dsimp only at h
  split at h
  · cases h
    exact .refl
  · split at h
    · cases h
      exact .refl
    · rename_i hepoll
      split at h
      · cases h
      · split at h
        · cases h
        · cases h
          obtain ⟨entry, -, rfl⟩ := epollCtl_some hepoll
          exact (sectionStep_epollCtl hepoll).trans (.of_update rfl rfl rfl rfl rfl)

theorem sectionStep_delEvent : SectionStep i s (s.delEvent i fd event ok).1 := by
  unfold delEvent
  dsimp only
  split
  · exact .refl
  · split
    · exact .refl
    · rename_i hepoll
      obtain ⟨entry, -, rfl⟩ := epollCtl_some hepoll
      exact (sectionStep_epollCtl hepoll).trans (.of_update rfl rfl rfl rfl rfl)

theorem sectionStep_cancelEvent {rt : Bool} (h : s.cancelEvent i fd event ok = .ok (s', rt)) :
    SectionStep i s s' := by
  unfold cancelEvent at h
  dsimp only at h
  split at h
  · cases h
    exact .refl
  · split at h
    · cases h
      exact .refl
    · rename_i hepoll
      obtain ⟨t, htrigger, h⟩ := bind_eq_ok.mp h
      cases h
      exact (sectionStep_epollCtl hepoll).trans (sectionStep_trigger htrigger)

theorem sectionStep_cancelAll {rt : Bool} (h : s.cancelAll i fd ok = .ok (s', rt)) :
    SectionStep i s s' := by
  unfold cancelAll at h
  dsimp only at h
  split at h
  · cases h
    exact .refl
  · split at h
    · cases h
      exact .refl
    · rename_i hepoll
      obtain ⟨t, hread, h⟩ := bind_eq_ok.mp h
      obtain ⟨u, hwrite, h⟩ := bind_eq_ok.mp h
      split at h
      · cases h
      · cases h
        exact (sectionStep_epollCtl hepoll).trans
          ((sectionStep_triggerIf hread).trans (sectionStep_triggerIf hwrite))

theorem sectionStep_processReport {report : Report} (h : s.processReport report ok = .ok s') :
    SectionStep report.ctx s s' := by
  unfold processReport at h
  dsimp only at h
  split at h
  · cases h
    exact .refl
  · split at h
    · cases h
      exact .refl
    · rename_i hepoll
      obtain ⟨t, hread, hwrite⟩ := bind_eq_ok.mp h
      exact (sectionStep_epollCtl hepoll).trans
        ((sectionStep_triggerIf hread).trans (sectionStep_triggerIf hwrite))

end IOManager

open IOManager in
theorem IOSystem.sectionStep_finish {i fd : ℕ} {s s' : IOManager} {op : IOOp} {ok : Bool}
    (h : finish s i fd op ok = .ok s') : SectionStep i s s' := by
  have hfst : ∀ {x : Except IOFault (IOManager × Bool)}, x.map Prod.fst = .ok s' →
      ∃ rt, x = .ok (s', rt) := by
    rintro (e | ⟨t, rt⟩) hx
    · cases hx
    · cases hx
      exact ⟨rt, rfl⟩
  cases op with
  | addEvent event caller =>
    obtain ⟨rt, hrt⟩ := hfst h
    exact sectionStep_addEvent hrt
  | delEvent event =>
    cases h
    exact sectionStep_delEvent
  | cancelEvent event =>
    obtain ⟨rt, hrt⟩ := hfst h
    exact sectionStep_cancelEvent hrt
  | cancelAll =>
    obtain ⟨rt, hrt⟩ := hfst h
    exact sectionStep_cancelAll hrt

/-- The manager with any number of threads. -/
def ioManager : Lts IOSystem IOAction where
  init := { iom := .create, calls := [], reports := [], fault := none }
  step := IOSystem.step

end Rsylar
