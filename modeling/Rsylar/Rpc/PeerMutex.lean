import Rsylar.Sylar.FiberExclusion

/-!
# Tasks that call one peer

`AppendEntries`, `InstallSnapshot` and `RequestVote` of a `RaftRpcUtil` are one loop: `try_lock` on
the mutex of the peer, and then the call of the stub and `unlock`, or a `yield` and another try. The
system is the scheduler with callbacks that run this loop. `wait` and `suspend` are what a hooked
call does, in the stub or elsewhere: the fiber is registered as an event or a timer and yields.
`stopping()` is that of `Scheduler`, which returns true earlier than the one of `IOManager`.

The fiber of a callback has `use_caller`, so that its `yield` writes no `READY` and the worker
writes `HOLD` and lets go of it. After a failed `try_lock` nothing else holds it, as in
`overlapRun`. When every `try_lock` succeeds, a task that has started is with a worker, in the queue
or registered until it ends (`noOrphan`).
-/

set_option autoImplicit false
set_option relaxedAutoImplicit false

namespace Rsylar

open TransitionSystem

/-! ### The tasks -/

/-- Where a callback is. `retrying`: `try_lock` has failed, and the `yield` is to come. -/
inductive RpcPoint
  | outside
  | trying
  | retrying
  | calling
deriving DecidableEq

structure RpcTask where
  point : RpcPoint := .outside
  /-- it is registered and about to yield -/
  waits : Bool := false
deriving DecidableEq

structure RpcTasks (c : SchedulerConfig) where
  scheduler : Scheduler c := {}
  /-- what the callback on a fiber does -/
  tasks : ℕ → RpcTask := fun _ ↦ {}
  /-- the fiber that has locked `m_mutex` -/
  mutex : Option ℕ := none

inductive RpcAction (c : SchedulerConfig)
  | run (a : SchedulerAction c)
  | enter (w : Fin c.threads)
  | tryLock (w : Fin c.threads)
  | retry (w : Fin c.threads)
  | unlock (w : Fin c.threads)
  | wait (w : Fin c.threads)
  | suspend (w : Fin c.threads)
  | finish (w : Fin c.threads) (throws : Bool)
deriving DecidableEq

variable {c : SchedulerConfig}

/-- The step is one of the scheduler and not of the fiber that is executed. Only callbacks are
scheduled. -/
def SchedulerAction.ofScheduler : SchedulerAction c → Bool
  | .newFiber _ | .schedule _ (.fiber _) _ | .register _ | .yield _ | .finish _ _ => false
  | _ => true

namespace RpcTasks

/-- The fiber that the worker executes. -/
def running (s : RpcTasks c) (w : Fin c.threads) : Option ℕ :=
  if s.scheduler.fault then none
  else
    match (s.scheduler.workers w).point with
    | .running f _ => some f
    | _ => none

def setTask (s : RpcTasks c) (f : ℕ) (task : RpcTask) : RpcTasks c :=
  { s with tasks := Function.update s.tasks f task }

/-- A stub that throws leaves the mutex locked. -/
def step (s : RpcTasks c) : RpcAction c → Option (RpcTasks c)
  | .run a => do
    guard (a.ofScheduler = true)
    let scheduler ← s.scheduler.step a
    some { s with scheduler := scheduler }
  | .enter w => do
    let f ← s.running w
    guard (s.tasks f = {})
    some (s.setTask f { point := .trying })
  | .tryLock w => do
    let f ← s.running w
    guard (s.tasks f = { point := .trying })
    if s.mutex = none then some { s.setTask f { point := .calling } with mutex := some f }
    else some (s.setTask f { point := .retrying })
  | .retry w => do
    let f ← s.running w
    guard (s.tasks f = { point := .retrying })
    let scheduler ← s.scheduler.step (.yield w)
    some { s.setTask f { point := .trying } with scheduler := scheduler }
  | .unlock w => do
    let f ← s.running w
    guard (s.tasks f = { point := .calling })
    some { s.setTask f {} with mutex := none }
  | .wait w => do
    let f ← s.running w
    guard (s.tasks f = {} ∨ s.tasks f = { point := .calling })
    let scheduler ← s.scheduler.step (.register w)
    some { s.setTask f { s.tasks f with waits := true } with scheduler := scheduler }
  | .suspend w => do
    let f ← s.running w
    guard ((s.tasks f).waits = true)
    let scheduler ← s.scheduler.step (.yield w)
    some { s.setTask f { s.tasks f with waits := false } with scheduler := scheduler }
  | .finish w throws => do
    let f ← s.running w
    guard (s.tasks f = {} ∨ (throws = true ∧ s.tasks f = { point := .calling }))
    let scheduler ← s.scheduler.step (.finish w throws)
    some { s.setTask f {} with scheduler := scheduler }

theorem point_of_running {s : RpcTasks c} {w : Fin c.threads} {f : ℕ} (h : s.running w = some f) :
    s.scheduler.fault = false ∧ ∃ cb, (s.scheduler.workers w).point = .running f cb := by
  unfold running at h
  split_ifs at h with hfault
  split at h
  · rename_i f' cb hpoint
    cases h
    exact ⟨by simpa using hfault, cb, hpoint⟩
  · cases h

/-! ### The steps -/

inductive Step (s : RpcTasks c) : RpcAction c → RpcTasks c → Prop
  | run (a : SchedulerAction c) (scheduler : Scheduler c) (ha : a.ofScheduler = true)
      (hstep : s.scheduler.step a = some scheduler) :
      Step s (.run a) { s with scheduler := scheduler }
  | enter (w : Fin c.threads) (f : ℕ) (hrun : s.running w = some f) (htask : s.tasks f = {}) :
      Step s (.enter w) (s.setTask f { point := .trying })
  | lock (w : Fin c.threads) (f : ℕ) (hrun : s.running w = some f)
      (htask : s.tasks f = { point := .trying }) (hmutex : s.mutex = none) :
      Step s (.tryLock w) { s.setTask f { point := .calling } with mutex := some f }
  | fail (w : Fin c.threads) (f : ℕ) (hrun : s.running w = some f)
      (htask : s.tasks f = { point := .trying }) (hmutex : s.mutex ≠ none) :
      Step s (.tryLock w) (s.setTask f { point := .retrying })
  | retry (w : Fin c.threads) (f : ℕ) (scheduler : Scheduler c) (hrun : s.running w = some f)
      (htask : s.tasks f = { point := .retrying })
      (hstep : s.scheduler.step (.yield w) = some scheduler) :
      Step s (.retry w) { s.setTask f { point := .trying } with scheduler := scheduler }
  | unlock (w : Fin c.threads) (f : ℕ) (hrun : s.running w = some f)
      (htask : s.tasks f = { point := .calling }) :
      Step s (.unlock w) { s.setTask f {} with mutex := none }
  | wait (w : Fin c.threads) (f : ℕ) (scheduler : Scheduler c) (hrun : s.running w = some f)
      (htask : s.tasks f = {} ∨ s.tasks f = { point := .calling })
      (hstep : s.scheduler.step (.register w) = some scheduler) :
      Step s (.wait w) { s.setTask f { s.tasks f with waits := true } with scheduler := scheduler }
  | suspend (w : Fin c.threads) (f : ℕ) (scheduler : Scheduler c) (hrun : s.running w = some f)
      (htask : (s.tasks f).waits = true)
      (hstep : s.scheduler.step (.yield w) = some scheduler) :
      Step s (.suspend w)
        { s.setTask f { s.tasks f with waits := false } with scheduler := scheduler }
  | finish (w : Fin c.threads) (f : ℕ) (throws : Bool) (scheduler : Scheduler c)
      (hrun : s.running w = some f)
      (htask : s.tasks f = {} ∨ (throws = true ∧ s.tasks f = { point := .calling }))
      (hstep : s.scheduler.step (.finish w throws) = some scheduler) :
      Step s (.finish w throws) { s.setTask f {} with scheduler := scheduler }

theorem step_cases {s s' : RpcTasks c} {a : RpcAction c} (h : s.step a = some s') :
    s.Step a s' := by
  cases a with
  | run a =>
    simp only [step, Option.bind_eq_bind, Option.bind_eq_some_iff, Option.guard_eq_some',
      Option.some.injEq] at h
    obtain ⟨_, ha, scheduler, hstep, rfl⟩ := h
    exact .run a scheduler ha hstep
  | enter w =>
    simp only [step, Option.bind_eq_bind, Option.bind_eq_some_iff, Option.guard_eq_some',
      Option.some.injEq] at h
    obtain ⟨f, hrun, _, htask, rfl⟩ := h
    exact .enter w f hrun htask
  | tryLock w =>
    simp only [step, Option.bind_eq_bind, Option.bind_eq_some_iff, Option.guard_eq_some'] at h
    obtain ⟨f, hrun, _, htask, h⟩ := h
    split_ifs at h with hmutex
    · cases h
      exact .lock w f hrun htask hmutex
    · cases h
      exact .fail w f hrun htask hmutex
  | retry w =>
    simp only [step, Option.bind_eq_bind, Option.bind_eq_some_iff, Option.guard_eq_some',
      Option.some.injEq] at h
    obtain ⟨f, hrun, _, htask, scheduler, hstep, rfl⟩ := h
    exact .retry w f scheduler hrun htask hstep
  | unlock w =>
    simp only [step, Option.bind_eq_bind, Option.bind_eq_some_iff, Option.guard_eq_some',
      Option.some.injEq] at h
    obtain ⟨f, hrun, _, htask, rfl⟩ := h
    exact .unlock w f hrun htask
  | wait w =>
    simp only [step, Option.bind_eq_bind, Option.bind_eq_some_iff, Option.guard_eq_some',
      Option.some.injEq] at h
    obtain ⟨f, hrun, _, htask, scheduler, hstep, rfl⟩ := h
    exact .wait w f scheduler hrun htask hstep
  | suspend w =>
    simp only [step, Option.bind_eq_bind, Option.bind_eq_some_iff, Option.guard_eq_some',
      Option.some.injEq] at h
    obtain ⟨f, hrun, _, htask, scheduler, hstep, rfl⟩ := h
    exact .suspend w f scheduler hrun htask hstep
  | finish w throws =>
    simp only [step, Option.bind_eq_bind, Option.bind_eq_some_iff, Option.guard_eq_some',
      Option.some.injEq] at h
    obtain ⟨f, hrun, _, htask, scheduler, hstep, rfl⟩ := h
    exact .finish w f throws scheduler hrun htask hstep

end RpcTasks

def rpcTasks (c : SchedulerConfig) : Lts (RpcTasks c) (RpcAction c) where
  init := {}
  step := RpcTasks.step

/-! ### The property and the condition -/

namespace RpcTasks

/-- The callback on the fiber has started and has not finished. -/
def Started (s : RpcTasks c) (f : ℕ) : Prop :=
  (s.scheduler.fibers f).state ≠ .init ∧ ¬(s.scheduler.fibers f).Ended

/-- A worker has taken the fiber out of the queue or executes it, or it is in the queue, or it is
registered. -/
def Held (s : RpcTasks c) (f : ℕ) : Prop :=
  (∃ w, ((s.scheduler.workers w).point.early = true ∧
    (s.scheduler.workers w).point.fiber = some f) ∨
      (s.scheduler.workers w).point.executed = some f) ∨
  (∃ entry ∈ s.scheduler.queue, entry.task = .fiber f) ∨ f ∈ s.scheduler.registered

instance (s : RpcTasks c) (f : ℕ) : Decidable (s.Started f) := inferInstanceAs (Decidable (_ ∧ _))

instance (s : RpcTasks c) (f : ℕ) : Decidable (s.Held f) :=
  inferInstanceAs (Decidable (_ ∨ _ ∨ _))

end RpcTasks

/-- No task is orphaned, and one that yields after a failed `try_lock` is resumed. -/
structure NoOrphan (r : Run (rpcTasks c)) : Prop where
  held : ∀ k f, (r.state k).Started f → (r.state k).Held f
  resumed : ∀ k w f, r.act k = some (.retry w) → (r.state k).running w = some f →
    ∃ j > k, ∃ w' cb, r.act j = some (.run (.resume w')) ∧
      ((r.state j).scheduler.workers w').point = .resuming f cb

/-- No other task has locked the mutex when a task calls `try_lock`. -/
def LockFree (s : RpcTasks c) : RpcAction c → Prop
  | .tryLock _ => s.mutex = none
  | _ => True

instance : DecidableRel (@LockFree c) := fun s a ↦ by
  unfold LockFree
  split <;> infer_instance

/-! ### What holds of a fiber -/

/-- The worker has taken the fiber and has not resumed it, or executes it. -/
def WorkerPoint.busy (p : WorkerPoint) : Bool := p.early || p.isRunning

/-- A fiber that has started is held by one event, timer or entry, except while a worker has it:
then by none, or by one when it is about to yield. -/
structure TaskOk {n : ℕ} (v : FiberView n) (waits : Bool) : Prop where
  unknown : v.known = false → v.fiber.state = .init
  useCaller : v.known = true → v.fiber.useCaller = true
  ready : v.fiber.state ≠ .ready
  tokens : v.queued + v.registered ≤ 1
  rest : v.fiber.state = .init ∨ v.fiber.Ended → v.queued + v.registered = 0
  early : v.At WorkerPoint.early → v.queued + v.registered = 0
  running : v.At WorkerPoint.isRunning → v.queued + v.registered = waits.toNat
  waiting : waits = true → v.At WorkerPoint.isRunning
  held : v.fiber.state = .exec ∨ v.fiber.state = .hold →
    0 < v.queued + v.registered ∨ v.At WorkerPoint.busy

namespace TaskOk

variable {n : ℕ} {v : FiberView n} {waits : Bool} {w : Fin n} {p : WorkerPoint} {x : Fiber}

/-- A fiber is executed in `EXEC`. -/
theorem exec_of_running (hok : FiberOk v) (h : v.At WorkerPoint.isRunning) :
    v.fiber.state = .exec := by
  obtain ⟨w, p, hp, hrunning⟩ := h
  have hfits := hok.fits w p hp
  cases p with
  | running => exact hfits
  | _ => cases hrunning

/-- A worker with the fiber goes on, where it is not busy with it. -/
theorem at_of_update {kind : WorkerPoint → Bool} {o : Option WorkerPoint}
    {known : Bool} {queued registered : ℕ} {cbOf : Fin n → Bool}
    (h : FiberView.At ⟨x, known, queued, registered, Function.update v.points w o, cbOf⟩ kind)
    (ho : ∀ p ∈ o, kind p = false) : v.At kind := by
  obtain ⟨w', p, hp, hkind⟩ := h
  by_cases hw : w' = w
  · subst hw
    simp only [Function.update_self] at hp
    cases (ho p hp).symm.trans hkind
  · simp only [Function.update_of_ne hw] at hp
    exact ⟨w', p, hp, hkind⟩

/-- Only one worker has the fiber, and it is at no such point. -/
theorem not_at (hok : FiberOk v) (hp : v.points w = some p) (hended : ¬v.fiber.Ended)
    {kind : WorkerPoint → Bool} {o : Option WorkerPoint} (ho : ∀ p ∈ o, kind p = false)
    {known : Bool} {queued registered : ℕ} {cbOf : Fin n → Bool} :
    ¬FiberView.At ⟨x, known, queued, registered, Function.update v.points w o, cbOf⟩ kind := by
  rintro ⟨w', p', hp', hkind⟩
  by_cases hw : w' = w
  · subst hw
    simp only [Function.update_self] at hp'
    cases (ho p' hp').symm.trans hkind
  · simp only [Function.update_of_ne hw] at hp'
    cases (hok.alone hp hended hw).symm.trans hp'

theorem ended_ne (h : x.Ended) : ¬(x.state = .exec ∨ x.state = .hold) := by
  rintro (hstate | hstate) <;> rcases h with h | h <;> cases hstate.symm.trans h

/-- A worker that is not busy with the fiber goes on or leaves it. -/
theorem move (h : TaskOk v waits) (hok : FiberOk v) (hp : v.points w = some p)
    (hbusy : p.busy = false) {o : Option WorkerPoint} (ho : ∀ p' ∈ o, p'.busy = false)
    (huse : x.useCaller = v.fiber.useCaller) (hready : x.state ≠ .ready)
    (hrest : x.state = .init ∨ x.Ended → v.fiber.state = .init ∨ v.fiber.Ended)
    (hheld : x.state = .exec ∨ x.state = .hold → v.fiber.state = .exec ∨ v.fiber.state = .hold)
    {cbOf : Fin n → Bool} :
    TaskOk ⟨x, v.known, v.queued, v.registered, Function.update v.points w o, cbOf⟩ waits := by
  have hearly : ∀ p' : WorkerPoint, p'.busy = false → p'.early = false ∧ p'.isRunning = false :=
    fun p' hp' ↦ Bool.or_eq_false_iff.mp hp'
  exact
    { unknown := fun hknown ↦ by cases (hok.of_known hp).symm.trans hknown
      useCaller := fun hknown ↦ huse.trans (h.useCaller hknown)
      ready := hready
      tokens := h.tokens
      rest := fun hx ↦ h.rest (hrest hx)
      early := fun hat ↦ h.early (at_of_update hat fun p' hp' ↦ (hearly p' (ho p' hp')).1)
      running := fun hat ↦ h.running (at_of_update hat fun p' hp' ↦ (hearly p' (ho p' hp')).2)
      waiting := fun hwaits ↦ (h.waiting hwaits).update hp (hearly p hbusy).2
      held := fun hx ↦ (h.held (hheld hx)).imp_right fun hat ↦ hat.update hp hbusy }

/-- No worker executes the fiber, and nothing else holds it. -/
theorem of_resting (hunknown : v.known = false → v.fiber.state = .init)
    (huse : v.known = true → v.fiber.useCaller = true) (hready : v.fiber.state ≠ .ready)
    (htokens : v.queued + v.registered = 0) (hrunning : ¬v.At WorkerPoint.isRunning)
    (hheld : v.fiber.state = .exec ∨ v.fiber.state = .hold → v.At WorkerPoint.busy) :
    TaskOk v false where
  unknown := hunknown
  useCaller := huse
  ready := hready
  tokens := htokens.le.trans (Nat.zero_le 1)
  rest := fun _ ↦ htokens
  early := fun _ ↦ htokens
  running := fun hat ↦ absurd hat hrunning
  waiting := nofun
  held := fun hstate ↦ .inr (hheld hstate)

/-- The only worker with the fiber has resumed it and goes on. -/
theorem of_alone {waits₀ : Bool} (h : TaskOk v waits₀) (hok : FiberOk v) (hp : v.points w = some p)
    (hended : ¬v.fiber.Ended) {queued registered : ℕ} (huse : x.useCaller = v.fiber.useCaller)
    (hready : x.state ≠ .ready) (htokens : queued + registered ≤ 1)
    (hrest : x.state = .init ∨ x.Ended → queued + registered = 0) {p' : WorkerPoint}
    (hearly : p'.early = false) (hrunning : p'.isRunning = true → queued + registered = waits.toNat)
    (hwaits : waits = true → p'.isRunning = true)
    (hheld : x.state = .exec ∨ x.state = .hold → 0 < queued + registered ∨ p'.busy = true) :
    TaskOk ⟨x, v.known, queued, registered, Function.update v.points w (some p'), v.cbOf⟩
      waits where
  unknown := fun hknown ↦ by cases (hok.of_known hp).symm.trans hknown
  useCaller := fun hknown ↦ huse.trans (h.useCaller hknown)
  ready := hready
  tokens := htokens
  rest := hrest
  early := by
    refine fun hat ↦ absurd hat (not_at hok hp hended ?_)
    rintro q ⟨⟩
    exact hearly
  running := by
    intro hat
    cases hp' : p'.isRunning with
    | true => exact hrunning hp'
    | false =>
      refine absurd hat (not_at hok hp hended ?_)
      rintro q ⟨⟩
      exact hp'
  waiting := fun hw ↦ FiberView.at_update (hwaits hw)
  held := fun hx ↦ (hheld hx).imp_right FiberView.at_update

/-- A fiber that is not executed is not about to yield. -/
theorem waits_eq_false (h : TaskOk v waits) (hok : FiberOk v) (hexec : v.fiber.state ≠ .exec) :
    waits = false := by
  cases hwaits : waits with
  | false => rfl
  | true => exact absurd (exec_of_running hok (h.waiting hwaits)) hexec

/-- A step of the scheduler. -/
theorem run {s : Scheduler c} {a : SchedulerAction c} {g : ℕ} {v' : FiberView c.threads}
    (h : TaskOk (s.view g) waits) (hok : FiberOk (s.view g)) (ha : a.ofScheduler = true)
    (hstep : ViewStep s g (s.view g) a v') : TaskOk v' waits := by
  cases hstep with
  | none => exact h
  | newFiber | schedule | register | yield | finish => cases ha
  | trigger k hg hregistered =>
    have hsum : (s.view g).queued + 1 + ((s.view g).registered - 1) =
        (s.view g).queued + (s.view g).registered := by omega
    exact ⟨h.unknown, h.useCaller, h.ready, hsum.le.trans h.tokens, fun hx ↦ hsum.trans (h.rest hx),
      fun hat ↦ hsum.trans (h.early hat), fun hat ↦ hsum.trans (h.running hat), h.waiting,
      fun hx ↦ (h.held hx).imp_left fun hpos ↦ hsum ▸ hpos⟩
  | take w k hpoint hqueued hexec =>
    obtain rfl := h.waits_eq_false hok hexec
    have htokens := h.tokens
    refine of_resting h.unknown h.useCaller h.ready (by dsimp only; omega) (fun hat ↦ ?_) fun _ ↦
      FiberView.at_update rfl
    refine hexec (exec_of_running hok (at_of_update hat ?_))
    rintro p ⟨⟩
    rfl
  | drop w hpoint hended =>
    have hexec : (s.view g).fiber.state ≠ .exec := fun hexec ↦ ended_ne hended (.inl hexec)
    obtain rfl := h.waits_eq_false hok hexec
    refine of_resting h.unknown h.useCaller h.ready (h.rest (.inr hended)) (fun hat ↦ ?_) fun hx ↦
      absurd hx (ended_ne hended)
    exact hexec (exec_of_running hok (at_of_update hat nofun))
  | enter w hpoint hended hexec =>
    obtain rfl := h.waits_eq_false hok hexec
    refine of_resting h.unknown h.useCaller h.ready (h.early ⟨w, _, hpoint, rfl⟩) ?_ fun _ ↦
      FiberView.at_update rfl
    refine not_at hok hpoint hended ?_
    rintro p ⟨⟩
    rfl
  | enterCb w hpoint hcb hstate =>
    have hexec : (s.view g).fiber.state ≠ .exec := by
      rintro hexec
      rcases hstate with hended | hinit
      · exact ended_ne hended (.inl hexec)
      · cases hinit.symm.trans hexec
    obtain rfl := h.waits_eq_false hok hexec
    refine of_resting (fun _ ↦ rfl) h.useCaller nofun (h.rest hstate.symm) (fun hat ↦ ?_) nofun
    refine hexec (exec_of_running hok (at_of_update hat ?_))
    rintro p ⟨⟩
    rfl
  | enterNew w hpoint hknown =>
    have hinit := h.unknown hknown
    have hexec : (s.view g).fiber.state ≠ .exec := by
      rw [hinit]
      exact nofun
    obtain rfl := h.waits_eq_false hok hexec
    refine of_resting nofun (fun _ ↦ rfl) nofun (h.rest (.inl hinit)) (fun hat ↦ ?_) nofun
    refine hexec (exec_of_running hok (at_of_update hat ?_))
    rintro p ⟨⟩
    rfl
  | resume w cb hpoint hfinished =>
    obtain ⟨hexec, hended⟩ := hok.fits w _ hpoint
    obtain rfl := h.waits_eq_false hok hexec
    have htokens := h.early ⟨w, _, hpoint, rfl⟩
    refine h.of_alone hok hpoint hended ?_ ?_ h.tokens (fun hx ↦ ?_) ?_ (fun _ ↦ htokens) ?_
      fun _ ↦ .inr ?_
    · rfl
    · exact nofun
    · rcases hx with hx | hx | hx <;> cases hx
    · rfl
    · exact nofun
    · rfl
  | swapOut w cb hpoint =>
    refine h.move hok hpoint rfl ?_ rfl h.ready id id
    rintro p ⟨⟩
    rfl
  | release w cb hpoint =>
    refine h.move hok hpoint rfl ?_ rfl h.ready id id
    rintro p ⟨⟩
    rfl
  | lookReady w cb hpoint hready => exact absurd hready h.ready
  | lookReset w hpoint hended =>
    refine h.move hok hpoint rfl ?_ ?_ ?_ (fun _ ↦ .inr hended) ?_
    · exact nofun
    · rfl
    · exact nofun
    · rintro (hx | hx) <;> cases hx
  | lookEnded w hpoint hended => exact h.move hok hpoint rfl (o := none) nofun rfl h.ready id id
  | lookHold w cb hpoint hready hended =>
    refine h.move hok hpoint rfl ?_ rfl h.ready id id
    rintro p ⟨⟩
    rfl
  | reschedule w cb hpoint => exact absurd (hok.fits w _ hpoint).1 h.ready
  | hold w cb hpoint =>
    have hexec : (s.view g).fiber.state = .exec := (hok.fits w _ hpoint).1
    refine h.move hok hpoint rfl ?_ ?_ ?_ (fun hx ↦ ?_) fun _ ↦ .inl hexec
    · exact nofun
    · rfl
    · exact nofun
    · rcases hx with hx | hx | hx <;> cases hx

/-! The steps of the fiber that is executed. -/

/-- What the worker has of it. -/
theorem exec_of_point {g : ℕ} {cb : Bool} (hok : FiberOk v)
    (hp : v.points w = some (.running g cb)) : v.fiber.state = .exec ∧ ¬v.fiber.Ended := by
  have hexec : v.fiber.state = .exec := hok.fits w _ hp
  exact ⟨hexec, fun hended ↦ ended_ne hended (.inl hexec)⟩

theorem wait {g : ℕ} {cb : Bool} (h : TaskOk v false) (hok : FiberOk v)
    (hp : v.points w = some (.running g cb)) :
    TaskOk { v with registered := v.registered + 1 } true := by
  obtain ⟨hexec, hended⟩ := exec_of_point hok hp
  have htokens : v.queued + v.registered = 0 := h.running ⟨w, _, hp, rfl⟩
  have hsum : v.queued + (v.registered + 1) = 1 := by omega
  have heq : { v with registered := v.registered + 1 } = ({ v with
      registered := v.registered + 1
      points := Function.update v.points w (some (.running g cb)) } : FiberView n) := by
    rw [← hp, Function.update_eq_self]
  rw [heq]
  refine h.of_alone hok hp hended rfl h.ready hsum.le (fun hx ↦ ?_) rfl (fun _ ↦ hsum) (fun _ ↦ rfl)
    fun _ ↦ .inr rfl
  rcases hx with hx | hx
  · cases hx.symm.trans hexec
  · exact absurd hx hended

theorem suspend {g : ℕ} {cb : Bool} (h : TaskOk v true) (hok : FiberOk v)
    (hp : v.points w = some (.running g cb)) :
    TaskOk { v with
      fiber := v.fiber.yield
      points := Function.update v.points w (some (.yielding g cb)) } false := by
  obtain ⟨hexec, hended⟩ := exec_of_point hok hp
  have htokens : v.queued + v.registered = 1 := h.running ⟨w, _, hp, rfl⟩
  have hyield : v.fiber.yield = v.fiber := by
    unfold Fiber.yield
    rw [h.useCaller (hok.of_known hp), Bool.true_or, if_pos rfl]
  rw [hyield]
  refine h.of_alone hok hp hended rfl h.ready htokens.le (fun hx ↦ ?_) rfl nofun nofun fun _ ↦
    .inl (by omega)
  rcases hx with hx | hx
  · cases hx.symm.trans hexec
  · exact absurd hx hended

theorem finish {g : ℕ} {cb : Bool} (h : TaskOk v false) (hok : FiberOk v)
    (hp : v.points w = some (.running g cb)) (throws : Bool) :
    TaskOk { v with
      fiber := v.fiber.finish throws
      points := Function.update v.points w (some (.yielding g cb)) } false := by
  obtain ⟨hexec, hended⟩ := exec_of_point hok hp
  have htokens : v.queued + v.registered = 0 := h.running ⟨w, _, hp, rfl⟩
  have hfinish : (v.fiber.finish throws).Ended := by
    refine (Fiber.finish_cases v.fiber throws).resolve_right fun hready ↦ ?_
    cases (h.useCaller (hok.of_known hp)).symm.trans
      ((Fiber.useCaller_finish v.fiber throws).symm.trans hready.2)
  refine h.of_alone hok hp hended (Fiber.useCaller_finish _ _) (fun hready ↦ ?_)
    (htokens.le.trans (Nat.zero_le 1)) (fun _ ↦ htokens) rfl nofun nofun fun hx ↦
    absurd hx (ended_ne hfinish)
  rcases hfinish with hx | hx <;> cases hx.symm.trans hready

end TaskOk

/-! ### Every run -/

namespace Scheduler

variable {s s' : Scheduler c} {w : Fin c.threads} {f : ℕ} {cb : Bool}

theorem step_register (hpoint : (s.workers w).point = .running f cb)
    (h : s.step (.register w) = some s') : s' = { s with registered := s.registered ++ [f] } := by
  unfold step at h
  split_ifs at h
  simp only [hpoint, Option.some.injEq] at h
  exact h.symm

theorem step_yield (hpoint : (s.workers w).point = .running f cb)
    (h : s.step (.yield w) = some s') :
    s' = (s.setFiber f (s.fibers f).yield).setPoint w (.yielding f cb) := by
  unfold step at h
  split_ifs at h
  simp only [hpoint, Option.some.injEq] at h
  exact h.symm

theorem step_finish {throws : Bool} (hpoint : (s.workers w).point = .running f cb)
    (h : s.step (.finish w throws) = some s') :
    s' = (s.setFiber f ((s.fibers f).finish throws)).setPoint w (.yielding f cb) := by
  unfold step at h
  split_ifs at h
  simp only [hpoint, Option.some.injEq] at h
  exact h.symm

end Scheduler

/-- No task is about to yield after a failed `try_lock`. -/
structure RpcInv (s : RpcTasks c) : Prop where
  exclusion : ExclusionInv s.scheduler
  tasks : ∀ f, TaskOk (s.scheduler.view f) (s.tasks f).waits
  point : ∀ f, (s.tasks f).point ≠ .retrying

namespace RpcInv

variable {s s' : RpcTasks c} {a : RpcAction c}

/-- A fiber that is registered may be scheduled. -/
theorem canSchedule (h : RpcInv s) {f : ℕ} (hf : f ∈ s.scheduler.registered) :
    (s.scheduler.view f).CanSchedule := by
  have hok := h.exclusion.fibers f
  have htask := h.tasks f
  have hpos : 0 < (s.scheduler.view f).registered := List.count_pos_iff.mpr hf
  have htokens := htask.tokens
  have hrest : ¬((s.scheduler.view f).fiber.state = .init ∨ (s.scheduler.view f).fiber.Ended) := by
    intro hx
    have := htask.rest hx
    omega
  have hknown : (s.scheduler.view f).known = true := by
    by_contra hknown
    exact hrest (.inl (htask.unknown (by simpa using hknown)))
  have hearly : ∀ w p, (s.scheduler.view f).points w = some p → p.early = false := by
    intro w p hp
    by_contra hearly
    have := htask.early ⟨w, p, hp, by simpa using hearly⟩
    omega
  refine ⟨hknown, by omega, fun w ↦
    ⟨fun p hp ↦ ⟨hearly w p hp, htask.useCaller hknown⟩, fun hcb ↦ ?_⟩⟩
  cases hp : (s.scheduler.view f).points w with
  | none => exact absurd (.inl ((hok.cb w hcb).idle hp).1) hrest
  | some p =>
    have hfits := hok.fits w p hp
    cases p with
    | taken | resuming => cases hearly w _ hp
    | running => exact hfits
    | yielding | returned | released =>
      rcases hfits with ⟨hexec, -⟩ | ⟨hready, -⟩ | hended
      · exact hexec
      · exact absurd hready htask.ready
      · exact absurd (.inr hended) hrest
    | rescheduling => exact absurd hfits.1 htask.ready
    | holding => exact hfits.1
    | off | search | idle | exited => exact hfits.elim

/-- A step of the scheduler schedules no fiber that may not be. -/
theorem exclusionFit (h : RpcInv s) {a : SchedulerAction c} (ha : a.ofScheduler = true) :
    ExclusionFit s.scheduler a := by
  cases a with
  | schedule by_ task thread =>
    cases task with
    | cb n => trivial
    | fiber f => cases ha
  | trigger k => exact fun f hf ↦ h.canSchedule (List.mem_of_getElem? hf)
  | finish => cases ha
  | _ => trivial

/-- The task goes on, and the scheduler stays as it is. -/
theorem setTask (h : RpcInv s) {f : ℕ} {task : RpcTask} (hwaits : task.waits = (s.tasks f).waits)
    (hpoint : task.point ≠ .retrying) {mutex : Option ℕ} :
    RpcInv { s.setTask f task with mutex := mutex } := by
  refine ⟨h.exclusion, fun g ↦ ?_, fun g ↦ ?_⟩
  · by_cases hg : g = f
    · subst hg
      simpa [RpcTasks.setTask, hwaits] using h.tasks g
    · simpa [RpcTasks.setTask, Function.update_of_ne hg] using h.tasks g
  · by_cases hg : g = f
    · subst hg
      simpa [RpcTasks.setTask] using hpoint
    · simpa [RpcTasks.setTask, Function.update_of_ne hg] using h.point g

/-- The fiber that is executed goes on in the scheduler as well. -/
theorem of_fiber (h : RpcInv s) {f : ℕ} {task : RpcTask} {scheduler : Scheduler c}
    {a : SchedulerAction c} (hstep : s.scheduler.step a = some scheduler)
    (ha : ExclusionFit s.scheduler a) (hpoint : task.point ≠ .retrying)
    (htask : TaskOk (scheduler.view f) task.waits)
    (hother : ∀ g, g ≠ f → scheduler.view g = s.scheduler.view g) :
    RpcInv { s.setTask f task with scheduler := scheduler } := by
  refine ⟨h.exclusion.step ha hstep, fun g ↦ ?_, fun g ↦ ?_⟩
  · by_cases hg : g = f
    · subst hg
      simpa [RpcTasks.setTask] using htask
    · simpa [RpcTasks.setTask, Function.update_of_ne hg, hother g hg] using h.tasks g
  · by_cases hg : g = f
    · subst hg
      simpa [RpcTasks.setTask] using hpoint
    · simpa [RpcTasks.setTask, Function.update_of_ne hg] using h.point g

theorem initial : RpcInv (rpcTasks c).init where
  exclusion := ExclusionInv.initial
  tasks := fun _ ↦
    .of_resting (fun _ ↦ rfl) nofun nofun rfl (by rintro ⟨w, p, hp, -⟩; cases hp) (by
      rintro (hx | hx) <;> cases hx)
  point := fun _ ↦ nofun

theorem step (h : RpcInv s) (ha : LockFree s a) (hstep : s.step a = some s') : RpcInv s' := by
  cases RpcTasks.step_cases hstep with
  | run a scheduler hof hsched =>
    refine ⟨h.exclusion.step (h.exclusionFit hof) hsched, fun g ↦ ?_, h.point⟩
    exact (h.tasks g).run (h.exclusion.fibers g) hof
      (Scheduler.viewStep h.exclusion.cb hsched g)
  | enter w f hrun htask =>
    refine h.setTask (by rw [htask]) ?_
    exact nofun
  | lock w f hrun htask hmutex =>
    refine h.setTask (by rw [htask]) ?_
    exact nofun
  | fail w f hrun htask hmutex => exact absurd ha hmutex
  | retry w f scheduler hrun htask => exact absurd (by rw [htask]) (h.point f)
  | unlock w f hrun htask =>
    refine h.setTask (by rw [htask]) ?_
    exact nofun
  | wait w f scheduler hrun htask hsched =>
    obtain ⟨-, cb, hpoint⟩ := RpcTasks.point_of_running hrun
    have hwaits : (s.tasks f).waits = false := by
      rcases htask with htask | htask <;> rw [htask]
    obtain rfl := Scheduler.step_register hpoint hsched
    refine h.of_fiber hsched trivial (h.point f) ?_ fun g hg ↦ Scheduler.view_register_of_ne hg
    rw [Scheduler.view_register]
    exact (hwaits ▸ h.tasks f).wait (h.exclusion.fibers f) (Scheduler.points_eq_some hpoint rfl)
  | suspend w f scheduler hrun htask hsched =>
    obtain ⟨-, cb, hpoint⟩ := RpcTasks.point_of_running hrun
    obtain rfl := Scheduler.step_yield hpoint hsched
    refine h.of_fiber hsched trivial (h.point f) ?_ fun g hg ↦
      Scheduler.view_setFiber_setPoint_of_ne _ hg (.inl (congrArg WorkerPoint.fiber hpoint))
        (.inl rfl)
    rw [Scheduler.view_setPoint_self rfl, Scheduler.view_setFiber]
    exact (htask ▸ h.tasks f).suspend (h.exclusion.fibers f) (Scheduler.points_eq_some hpoint rfl)
  | finish w f throws scheduler hrun htask hsched =>
    obtain ⟨-, cb, hpoint⟩ := RpcTasks.point_of_running hrun
    have hwaits : (s.tasks f).waits = false := by
      rcases htask with htask | ⟨-, htask⟩ <;> rw [htask]
    have htaskOk : TaskOk (s.scheduler.view f) false := hwaits ▸ h.tasks f
    have hview := Scheduler.points_eq_some hpoint (g := f) rfl
    have hfit : ExclusionFit s.scheduler (.finish w throws) := by
      intro f' hf'
      have htokens : (s.scheduler.view f).queued + (s.scheduler.view f).registered = 0 :=
        htaskOk.running ⟨w, _, hview, rfl⟩
      rw [hpoint] at hf'
      cases cb with
      | true =>
        obtain rfl : f = f' := Option.some.inj hf'
        omega
      | false => cases hf'
    obtain rfl := Scheduler.step_finish hpoint hsched
    refine h.of_fiber hsched hfit nofun ?_ fun g hg ↦
      Scheduler.view_setFiber_setPoint_of_ne _ hg (.inl (congrArg WorkerPoint.fiber hpoint))
        (.inl rfl)
    rw [Scheduler.view_setPoint_self rfl, Scheduler.view_setFiber]
    exact htaskOk.finish (h.exclusion.fibers f) hview throws

theorem held (h : RpcInv s) {f : ℕ} (hf : s.Started f) : s.Held f := by
  obtain ⟨hinit, hended⟩ := hf
  have htask := h.tasks f
  have hstate : (s.scheduler.fibers f).state = .exec ∨ (s.scheduler.fibers f).state = .hold := by
    have hready : (s.scheduler.fibers f).state ≠ .ready := htask.ready
    cases hx : (s.scheduler.fibers f).state with
    | init => exact absurd hx hinit
    | hold => exact .inr rfl
    | exec => exact .inl rfl
    | term => exact absurd (.inl hx) hended
    | ready => exact absurd hx hready
    | except => exact absurd (.inr hx) hended
  rcases htask.held hstate with hpos | ⟨w, p, hp, hbusy⟩
  · rcases Nat.add_pos_iff_pos_or_pos.mp hpos with hqueued | hregistered
    · obtain ⟨entry, hmem, htask⟩ := List.countP_pos_iff.mp hqueued
      exact .inr (.inl ⟨entry, hmem, by simpa using htask⟩)
    · exact .inr (.inr (List.count_pos_iff.mp hregistered))
  · have hpoint := Scheduler.point_of_view hp
    have hfiber : p.fiber = some f := by
      by_contra hne
      cases (Scheduler.points_eq_none hpoint hne).symm.trans hp
    refine .inl ⟨w, ?_⟩
    rw [hpoint]
    cases p with
    | taken | resuming => exact .inl ⟨rfl, hfiber⟩
    | running => exact .inr hfiber
    | _ => cases hbusy

end RpcInv

/-- Assumes: every `try_lock` finds the mutex free. A task that has started is with a worker, in the
queue or registered until it ends. -/
theorem noOrphan (r : Run (rpcTasks c)) (hr : r.Obeys LockFree) : NoOrphan r := by
  have hinv : ∀ k, RpcInv (r.state k) :=
    r.invariant RpcInv.initial (fun _ _ _ h ha hstep ↦ h.step ha hstep) hr
  refine ⟨fun k f hf ↦ (hinv k).held hf, fun k w f ha hrun ↦ ?_⟩
  -- no task yields after a failed `try_lock`
  obtain ⟨s', hstep⟩ : ∃ s', (r.state k).step (.retry w) = some s' := ⟨_, r.next k _ ha⟩
  cases RpcTasks.step_cases hstep with
  | retry w f' scheduler hrun' htask => exact absurd (by rw [htask]) ((hinv k).point f')

/-! ### Two tasks -/

/-- The second task calls `try_lock` after the first has unlocked the mutex. -/
def turnsRun : Run (rpcTasks twoWorkers) :=
  Run.ofActions (rpcTasks twoWorkers) [.run .start, .run (.schedule none (.cb 0) none),
    .run (.schedule none (.cb 1) none), .run (.take firstWorker 0), .run (.enter firstWorker),
    .run (.resume firstWorker), .run (.take secondWorker 0), .run (.enter secondWorker),
    .run (.resume secondWorker), .enter firstWorker, .tryLock firstWorker, .wait firstWorker,
    .suspend firstWorker, .run (.swapOut firstWorker), .run (.release firstWorker),
    .run (.look firstWorker), .run (.hold firstWorker), .run (.trigger 0),
    .run (.take firstWorker 0), .run (.enter firstWorker), .run (.resume firstWorker), .unlock firstWorker, .enter secondWorker,
    .tryLock secondWorker, .unlock secondWorker, .finish secondWorker false]
    (by decide +kernel)

theorem noOrphan_turns : NoOrphan turnsRun :=
  noOrphan turnsRun ((Run.obeys_ofActions_iff _ _).mpr (by decide +kernel))

/-- The second task calls `try_lock` while the first waits for the answer of the peer. -/
def overlapRun : Run (rpcTasks twoWorkers) :=
  Run.ofActions (rpcTasks twoWorkers) [.run .start, .run (.schedule none (.cb 0) none),
    .run (.schedule none (.cb 1) none), .run (.take firstWorker 0), .run (.enter firstWorker),
    .run (.resume firstWorker), .run (.take secondWorker 0), .run (.enter secondWorker),
    .run (.resume secondWorker), .enter firstWorker, .tryLock firstWorker, .wait firstWorker,
    .suspend firstWorker, .enter secondWorker, .tryLock secondWorker, .retry secondWorker,
    .run (.swapOut secondWorker), .run (.release secondWorker), .run (.look secondWorker),
    .run (.hold secondWorker)]
    (by decide +kernel)

/-- The worker has let go of it in `HOLD`, and nothing else has it. -/
theorem noOrphan_overlap : ¬NoOrphan overlapRun := by
  intro h
  have hnot : ¬(overlapRun.state 20).Held 1 := by decide +kernel
  exact hnot (h.held 20 1 (by decide +kernel))

end Rsylar
