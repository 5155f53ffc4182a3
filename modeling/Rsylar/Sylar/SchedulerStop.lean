import Mathlib.Algebra.BigOperators.Group.Finset.Piecewise
import Mathlib.Data.List.Perm.Basic
import Rsylar.Sylar.FiberLive

/-!
# The end of the scheduler

Every call of `schedule` makes an entry that one worker takes, once. `stopping()` looks at the queue
and at `m_activeThreadCount`, and both can be 0 while a fiber that has yielded in `READY` is still
to be put back, because the worker counts itself out before it calls `schedule`, as in `putBackRun`.
When nobody calls `stopping()` in between, and nothing is scheduled from outside after it has
returned true, `stop` returns only after all tasks have finished or are in `HOLD` (`stopComplete`).
-/

set_option autoImplicit false
set_option relaxedAutoImplicit false

namespace Rsylar

open TransitionSystem

variable {c : SchedulerConfig}

namespace Scheduler

/-! ### The property and the condition -/

/-- The worker has counted itself out, and is about to put back a fiber that has yielded in `READY`.
-/
def PutsBack (s : Scheduler c) (w : Fin c.threads) : Prop :=
  match (s.workers w).point with
  | .rescheduling _ _ => True
  | .released f _ => (s.fibers f).state = .ready
  | _ => False

instance (s : Scheduler c) (w : Fin c.threads) : Decidable (s.PutsBack w) := by
  unfold PutsBack
  split <;> infer_instance

/-- The step calls `stopping()`. -/
def CallsStopping (s : Scheduler c) : SchedulerAction c → Prop
  | .idle _ => True
  | .stop => s.stop = .single ∨ (s.stop = .stopping ∧ c.caller.isSome = true)
  | _ => False

instance (s : Scheduler c) (a : SchedulerAction c) : Decidable (s.CallsStopping a) :=
  match a with
  | .idle _ => instDecidableTrue
  | .stop => instDecidableOr
  | .newFiber _ | .schedule _ _ _ | .trigger _ | .start | .take _ _ | .searchNone _ | .enter _
  | .resume _ | .register _ | .yield _ | .finish _ _ | .swapOut _ | .release _ | .look _
  | .reschedule _ | .hold _ => instDecidableFalse

/-- Nothing is left to do. -/
structure AllDone (s : Scheduler c) : Prop where
  queue : s.queue = []
  active : ∀ w, (s.workers w).point.active = false
  back : ∀ w, ¬s.PutsBack w

/-- Fiber `f` has been scheduled, or a callback is executed on it. -/
def HasTask (s : Scheduler c) (f : ℕ) : Prop :=
  f < s.fiberCount ∧
    ((∃ entry ∈ s.queue, entry.task = .fiber f) ∨ ∃ w, (s.workers w).point.cb = some f)

/-- Fiber `f` is suspended on purpose or has finished, and in the end a `cb_fiber` has been reset.
-/
def Settled (s : Scheduler c) (f : ℕ) : Prop :=
  (s.fibers f).state = .hold ∨ (s.fibers f).Ended ∨
    ((s.fibers f).state = .init ∧ ∃ w, (s.workers w).cbFiber = some f)

end Scheduler

/-- Each entry is in the queue or taken once by one worker, `stopping()` returns true when all is
done, and so does `stop`. -/
structure StopComplete (r : Run (scheduler c)) : Prop where
  once : ∀ k, ((r.state k).queue.map Entry.ticket ++ (r.state k).taken.map Prod.fst).Perm
    (List.range (r.state k).tickets)
  stopping : ∀ k a, r.act k = some a → (r.state k).CallsStopping a → (r.state k).isStopping →
    (r.state k).AllDone
  returned : ∀ k, (r.state k).stop = .returned → (r.state k).AllDone ∧
    ∀ j ≤ k, ∀ f, (r.state j).HasTask f → (r.state k).Settled f

/-- The step calls `schedule` outside of the workers. -/
def SchedulerAction.FromOutside : SchedulerAction c → Prop
  | .schedule none _ _ | .trigger _ => True
  | _ => False

instance : DecidablePred (@SchedulerAction.FromOutside c)
  | .schedule none _ _ | .trigger _ => instDecidableTrue
  | .schedule (some _) _ _ | .newFiber _ | .start | .take _ _ | .searchNone _ | .enter _
  | .resume _ | .register _ | .yield _ | .finish _ _ | .swapOut _ | .release _ | .look _
  | .reschedule _ | .hold _ | .idle _ | .stop => instDecidableFalse

/-- Once `stop` has set its flags, `stopping()` is called when no worker is about to put a fiber
back, and nothing is scheduled from outside after it has returned true. -/
def StopFit (s : Scheduler c) (a : SchedulerAction c) : Prop :=
  (s.CallsStopping a → s.autoStop = true → s.stopping = true → ∀ w, ¬s.PutsBack w) ∧
    (a.FromOutside → s.stopSeen = false)

instance : DecidableRel (@StopFit c) := fun s a ↦
  inferInstanceAs (Decidable ((s.CallsStopping a → s.autoStop = true → s.stopping = true →
    ∀ w, ¬s.PutsBack w) ∧ (a.FromOutside → s.stopSeen = false)))

namespace Scheduler

variable {s s' : Scheduler c} {a : SchedulerAction c}

/-! ### The entries -/

/-- Every entry is in the queue or has been taken once. -/
def TicketsOk (s : Scheduler c) : Prop :=
  (s.queue.map Entry.ticket ++ s.taken.map Prod.fst).Perm (List.range s.tickets)

namespace TicketsOk

theorem scheduleNoLock (h : s.TicketsOk) (task : FiberOrCb) (thread : Option (Fin c.threads)) :
    (s.scheduleNoLock task thread).TicketsOk := by
  show ((s.queue ++ [_]).map Entry.ticket ++ s.taken.map Prod.fst).Perm (List.range (s.tickets + 1))
  have hlast : ([s.tickets] ++ s.taken.map Prod.fst).Perm (s.taken.map Prod.fst ++ [s.tickets]) :=
    List.perm_append_comm
  rw [List.map_append, List.range_succ, List.append_assoc]
  refine (hlast.append_left (s.queue.map Entry.ticket)).trans ?_
  rw [← List.append_assoc]
  exact h.append_right _

theorem take (h : s.TicketsOk) {w : Fin c.threads} {k : ℕ} {entry : Entry c.threads}
    (hentry : s.queue[k]? = some entry) :
    ((s.queue.eraseIdx k).map Entry.ticket ++ (s.taken ++ [(entry.ticket, w)]).map Prod.fst).Perm
      (List.range s.tickets) := by
  obtain ⟨hk, rfl⟩ := List.getElem?_eq_some_iff.mp hentry
  refine List.Perm.trans ?_ h
  rw [List.map_append, ← List.append_assoc]
  refine List.perm_append_comm.trans ?_
  rw [← List.append_assoc]
  exact ((List.getElem_cons_eraseIdx_perm hk).map Entry.ticket).append_right _

theorem step (h : s.TicketsOk) (hstep : s.step a = some s') : s'.TicketsOk := by
  cases (step_cases hstep).2 with
  | schedule by_ task thread => exact h.scheduleNoLock task thread
  | trigger k f =>
    have hold : TicketsOk { s with registered := s.registered.eraseIdx k } := h
    exact hold.scheduleNoLock (.fiber f) none
  | take w k entry hentry => exact h.take hentry
  | reschedule w f => exact h.scheduleNoLock (.fiber f) none
  | stop _ hs => obtain ⟨_, _, _, _, rfl⟩ | ⟨w, -, rfl⟩ := stopStep_cases hs <;> exact h
  | _ => exact h

end TicketsOk

/-! ### The workers -/

/-- What a step that is not one of `start` or `stop` does to the workers. -/
inductive WorkerStep (s s' : Scheduler c) : Prop
  | still (hworkers : s'.workers = s.workers)
      (hcount : s'.activeThreadCount = s.activeThreadCount) : WorkerStep s s'
  | move (w : Fin c.threads) (p : WorkerPoint) (x : Worker) (hpoint : (s.workers w).point = p)
      (hoff : p ≠ .off) (hexited : p ≠ .exited)
      (hworkers : s'.workers = Function.update s.workers w x)
      (hcount : s'.activeThreadCount =
        s.activeThreadCount + x.point.active.toNat - p.active.toNat) : WorkerStep s s'

/-- A worker at a point that is neither `off` nor `exited` goes on, or no worker does, and `stop` stays
where it is. -/
theorem workerStep (hstep : s.step a = some s') (hstart : a ≠ .start) (hstop : a ≠ .stop) :
    WorkerStep s s' ∧ s'.stop = s.stop ∧ (s.stopSeen = true → s'.stopSeen = true) := by
  cases (step_cases hstep).2 with
  | newFiber | schedule | trigger | register | fault => exact ⟨.still rfl rfl, rfl, id⟩
  | start => exact absurd rfl hstart
  | take w k entry hentry hpoint => exact ⟨.move w _ _ hpoint nofun nofun rfl rfl, rfl, id⟩
  | searchNone w hpoint =>
    exact ⟨.move w _ _ hpoint nofun nofun rfl (by dsimp only; split_ifs <;> rfl), rfl, id⟩
  | drop w f hpoint => exact ⟨.move w _ _ hpoint nofun nofun rfl rfl, rfl, id⟩
  | enter w f hpoint => exact ⟨.move w _ _ hpoint nofun nofun rfl rfl, rfl, id⟩
  | enterCb w cb f hpoint => exact ⟨.move w _ _ hpoint nofun nofun rfl rfl, rfl, id⟩
  | enterNew w cb hpoint => exact ⟨.move w _ _ hpoint nofun nofun rfl rfl, rfl, id⟩
  | resume w f cb hpoint => exact ⟨.move w _ _ hpoint nofun nofun rfl rfl, rfl, id⟩
  | yield w f cb hpoint => exact ⟨.move w _ _ hpoint nofun nofun rfl rfl, rfl, id⟩
  | finish w f cb throws hpoint => exact ⟨.move w _ _ hpoint nofun nofun rfl rfl, rfl, id⟩
  | swapOut w f cb hpoint => exact ⟨.move w _ _ hpoint nofun nofun rfl rfl, rfl, id⟩
  | release w f cb hpoint => exact ⟨.move w _ _ hpoint nofun nofun rfl rfl, rfl, id⟩
  | lookReady w f cb hpoint => exact ⟨.move w _ _ hpoint nofun nofun rfl rfl, rfl, id⟩
  | lookReset w f hpoint => exact ⟨.move w _ _ hpoint nofun nofun rfl rfl, rfl, id⟩
  | lookEnded w f hpoint => exact ⟨.move w _ _ hpoint nofun nofun rfl rfl, rfl, id⟩
  | lookHold w f cb hpoint => exact ⟨.move w _ _ hpoint nofun nofun rfl rfl, rfl, id⟩
  | reschedule w f cb hpoint => exact ⟨.move w _ _ hpoint nofun nofun rfl rfl, rfl, id⟩
  | hold w f cb hpoint => exact ⟨.move w _ _ hpoint nofun nofun rfl rfl, rfl, id⟩
  | idleStop w hpoint => exact ⟨.move w _ _ hpoint nofun nofun rfl rfl, rfl, fun _ ↦ rfl⟩
  | idleGo w hpoint => exact ⟨.move w _ _ hpoint nofun nofun rfl rfl, rfl, id⟩
  | stop => exact absurd rfl hstop

def activeWorkers (s : Scheduler c) : ℕ := ∑ w, (s.workers w).point.active.toNat

theorem activeWorkers_eq_zero : s.activeWorkers = 0 ↔ ∀ w, (s.workers w).point.active = false := by
  unfold activeWorkers
  rw [Finset.sum_eq_zero_iff]
  simp

/-- `m_activeThreadCount` counts the workers from the erase of an entry to the decrement. -/
def ActiveOk (s : Scheduler c) : Prop := s.activeThreadCount = s.activeWorkers

namespace ActiveOk

/-- One worker goes on. -/
theorem update (h : s.ActiveOk) {w : Fin c.threads} {x : Worker} {p : WorkerPoint}
    (hpoint : (s.workers w).point = p) (hworkers : s'.workers = Function.update s.workers w x)
    (hcount : s'.activeThreadCount =
      s.activeThreadCount + x.point.active.toNat - p.active.toNat) : s'.ActiveOk := by
  have heq : (fun w' ↦ (s'.workers w').point.active.toNat) =
      Function.update (fun w' ↦ (s.workers w').point.active.toNat) w x.point.active.toNat := by
    funext w'
    rw [hworkers]
    by_cases hw : w' = w
    · subst hw
      simp only [Function.update_self]
    · simp only [Function.update_of_ne hw]
  have hsum := Finset.add_sum_erase Finset.univ (fun w' ↦ (s.workers w').point.active.toNat)
    (Finset.mem_univ w)
  unfold ActiveOk activeWorkers at h ⊢
  rw [heq, Finset.sum_update_of_mem (Finset.mem_univ w), Finset.sdiff_singleton_eq_erase, hcount, h]
  rw [hpoint] at hsum
  omega

theorem step (h : s.ActiveOk) (hstep : s.step a = some s') : s'.ActiveOk := by
  by_cases hstop : a = .stop
  · subst hstop
    cases (step_cases hstep).2 with
    | stop _ hs =>
      obtain ⟨_, _, _, _, rfl⟩ | ⟨w, hoff, rfl⟩ := stopStep_cases hs
      · exact h
      · exact h.update hoff rfl rfl
    | fault => exact h
  · by_cases hstart : a = .start
    · subst hstart
      cases (step_cases hstep).2 with
      | start hstopping hnot hoff =>
        have hzero : s.activeWorkers = 0 := activeWorkers_eq_zero.mpr fun w ↦ by rw [hoff w]; rfl
        refine h.trans (hzero.trans (activeWorkers_eq_zero.mpr fun w ↦ ?_).symm)
        dsimp only
        split_ifs
        · rw [hoff w]
          rfl
        · rfl
      | fault => exact h
    · cases (workerStep hstep hstart hstop).1 with
      | still hworkers hcount =>
        unfold ActiveOk activeWorkers
        rw [hworkers, hcount]
        exact h
      | move w p x hpoint hoff hexited hworkers hcount => exact h.update hpoint hworkers hcount

/-- When `m_activeThreadCount` is 0 no task is executed. -/
theorem inactive (h : s.ActiveOk) (hzero : s.activeThreadCount = 0) (w : Fin c.threads) :
    (s.workers w).point.active = false :=
  activeWorkers_eq_zero.mp (h.symm.trans hzero) w

end ActiveOk

end Scheduler

/-! ### After `stopping()` has returned true -/

namespace Scheduler

variable {s s' : Scheduler c} {a : SchedulerAction c}

/-- The worker has no task, and the fiber it has resumed will be in `HOLD` or has ended. -/
def AtRest (s : Scheduler c) (w : Fin c.threads) : Prop :=
  (s.workers w).point.active = false ∧ ¬s.PutsBack w

/-- The queue stays empty and the workers at rest, and only then one leaves. -/
structure SeenOk (s : Scheduler c) : Prop where
  queue : s.stopSeen = true → s.queue = []
  rest : s.stopSeen = true → ∀ w, s.AtRest w
  idleTerm : ∀ w, (s.workers w).idleTerm = true → s.stopSeen = true
  exited : ∀ w, (s.workers w).point = .exited → s.stopSeen = true

namespace AtRest

variable {w : Fin c.threads} {p : WorkerPoint}

/-- A worker that is at rest is at such a point. -/
theorem point_eq (h : s.AtRest w) (hpoint : (s.workers w).point = p) :
    p.active = false ∧ (∀ f cb, p ≠ .rescheduling f cb) ∧
      ∀ f cb, p = .released f cb → (s.fibers f).state ≠ .ready := by
  obtain ⟨hactive, hback⟩ := h
  unfold PutsBack at hback
  rw [hpoint] at hactive hback
  refine ⟨hactive, ?_, ?_⟩
  · rintro f cb rfl
    exact hback trivial
  · rintro f cb rfl
    exact hback

theorem of_point (hpoint : (s.workers w).point = p) (hactive : p.active = false)
    (hresched : ∀ f cb, p ≠ .rescheduling f cb) (hreleased : ∀ f cb, p ≠ .released f cb) :
    s.AtRest w := by
  unfold AtRest PutsBack
  rw [hpoint]
  refine ⟨hactive, ?_⟩
  cases p with
  | rescheduling f cb => exact absurd rfl (hresched f cb)
  | released f cb => exact absurd rfl (hreleased f cb)
  | _ => exact id

/-- The worker has not moved, and no fiber has become `READY`. -/
theorem congr (h : s.AtRest w) (hpoint : (s'.workers w).point = (s.workers w).point)
    (hready : ∀ f, (s'.fibers f).state = .ready → (s.fibers f).state = .ready) : s'.AtRest w := by
  obtain ⟨hactive, hback⟩ := h
  unfold AtRest PutsBack at *
  rw [hpoint]
  refine ⟨hactive, fun hback' ↦ hback ?_⟩
  cases hp : (s.workers w).point with
  | released f cb =>
    rw [hp] at hback'
    exact hready f hback'
  | _ =>
    rw [hp] at hback'
    exact hback'

end AtRest

namespace SeenOk

/-- Only a worker goes on, or none. -/
theorem update (h : s.SeenOk) {w : Fin c.threads} {x : Worker}
    (hworkers : s'.workers = Function.update s.workers w x) (hseen : s'.stopSeen = s.stopSeen)
    (hidle : x.idleTerm = true → s.stopSeen = true)
    (hexit : x.point = .exited → s.stopSeen = true)
    (hrest : s.stopSeen = true → s'.queue = [] ∧ s'.AtRest w ∧
      ∀ f, (s'.fibers f).state = .ready → (s.fibers f).state = .ready) : s'.SeenOk where
  queue := fun hs ↦ (hrest (hseen ▸ hs)).1
  rest := by
    intro hs w'
    obtain ⟨-, hrest, hready⟩ := hrest (hseen ▸ hs)
    by_cases hw : w' = w
    · subst hw
      exact hrest
    · refine (h.rest (hseen ▸ hs) w').congr ?_ hready
      rw [hworkers, Function.update_of_ne hw]
  idleTerm := by
    intro w' hidle'
    rw [hseen]
    by_cases hw : w' = w
    · subst hw
      rw [hworkers, Function.update_self] at hidle'
      exact hidle hidle'
    · rw [hworkers, Function.update_of_ne hw] at hidle'
      exact h.idleTerm w' hidle'
  exited := by
    intro w' hexit'
    rw [hseen]
    by_cases hw : w' = w
    · subst hw
      rw [hworkers, Function.update_self] at hexit'
      exact hexit hexit'
    · rw [hworkers, Function.update_of_ne hw] at hexit'
      exact h.exited w' hexit'

/-- No worker goes on. -/
theorem congr (h : s.SeenOk) (hworkers : s'.workers = s.workers) (hseen : s'.stopSeen = s.stopSeen)
    (hqueue : s.stopSeen = true → s'.queue = [])
    (hready : ∀ f, (s'.fibers f).state = .ready → (s.fibers f).state = .ready) : s'.SeenOk where
  queue := fun hs ↦ hqueue (hseen ▸ hs)
  rest := fun hs w ↦ (h.rest (hseen ▸ hs) w).congr (by rw [hworkers]) hready
  idleTerm := fun w hidle ↦ by
    rw [hseen]
    exact h.idleTerm w (hworkers ▸ hidle)
  exited := fun w hexit ↦ by
    rw [hseen]
    exact h.exited w (hworkers ▸ hexit)

/-- A worker with a task goes on. -/
theorem update_active (h : s.SeenOk) {w : Fin c.threads} {p p' : WorkerPoint} {cbFiber : Option ℕ}
    (hpoint : (s.workers w).point = p) (hp : p.active = true)
    (hworkers : s'.workers = Function.update s.workers w
      { s.workers w with point := p', cbFiber := cbFiber })
    (hseen : s'.stopSeen = s.stopSeen) (hp' : p' ≠ .exited) : s'.SeenOk := by
  refine h.update hworkers hseen (h.idleTerm w) (fun hexit ↦ absurd hexit hp') fun hs ↦ ?_
  cases hp.symm.trans ((h.rest hs w).point_eq hpoint).1

/-- A worker without a task goes on. -/
theorem update_rest (h : s.SeenOk) {w : Fin c.threads} {p' : WorkerPoint} {cbFiber : Option ℕ}
    (hworkers : s'.workers = Function.update s.workers w
      { s.workers w with point := p', cbFiber := cbFiber })
    (hseen : s'.stopSeen = s.stopSeen) (hqueue : s'.queue = s.queue)
    (hexit : p' = .exited → s.stopSeen = true) (hactive : p'.active = false)
    (hresched : ∀ f cb, p' ≠ .rescheduling f cb) (hreleased : ∀ f cb, p' ≠ .released f cb)
    (hready : ∀ f, (s'.fibers f).state = .ready → (s.fibers f).state = .ready) : s'.SeenOk := by
  refine h.update hworkers hseen (h.idleTerm w) hexit fun hs ↦
    ⟨hqueue.trans (h.queue hs), .of_point ?_ hactive hresched hreleased, hready⟩
  rw [hworkers, Function.update_self]

/-- A write of another state than `READY`. -/
theorem ready_of_update {f f' : ℕ} {x : Fiber} (hx : x.state ≠ .ready)
    (h : (Function.update s.fibers f x f').state = .ready) : (s.fibers f').state = .ready := by
  by_cases hf : f' = f
  · subst hf
    rw [Function.update_self] at h
    exact absurd h hx
  · rwa [Function.update_of_ne hf] at h

/-- `stopping()` returns true only when all is done. -/
theorem allDone (hactive : s.ActiveOk) (h : s.isStopping) (hback : ∀ w, ¬s.PutsBack w) :
    s.AllDone where
  queue := h.2.2.1
  active := hactive.inactive h.2.2.2
  back := hback

theorem step (h : s.SeenOk) (hactive : s.ActiveOk) (ha : StopFit s a) (hstep : s.step a = some s') :
    s'.SeenOk := by
  cases (step_cases hstep).2 with
  | newFiber useCaller => exact h.congr rfl rfl h.queue fun f ↦ ready_of_update nofun
  | schedule by_ task thread hby =>
    refine h.congr rfl rfl (fun hs ↦ ?_) fun _ ↦ id
    cases by_ with
    | none => cases hs.symm.trans (ha.2 trivial)
    | some w =>
      have hrunning := hby w rfl
      have hrest := (h.rest hs w).1
      cases hpoint : (s.workers w).point with
      | running f cb =>
        rw [hpoint] at hrest
        cases hrest
      | _ =>
        rw [hpoint] at hrunning
        cases hrunning
  | trigger k f hf =>
    refine h.congr rfl rfl (fun hs ↦ ?_) fun _ ↦ id
    cases hs.symm.trans (ha.2 trivial)
  | start hstopping hstop hoff =>
    refine ⟨h.queue, fun hs w ↦ ?_, fun w hidle ↦ ?_, fun w hexit ↦ ?_⟩
    · by_cases hcaller : c.caller = some w
      · exact (h.rest hs w).congr (by simp [hcaller]) fun _ ↦ id
      · exact .of_point (p := .search) (by simp [hcaller]) rfl nofun nofun
    · refine h.idleTerm w ?_
      by_cases hcaller : c.caller = some w
      · simpa [hcaller] using hidle
      · simpa [hcaller] using hidle
    · by_cases hcaller : c.caller = some w
      · simp [hcaller, hoff w] at hexit
      · simp [hcaller] at hexit
  | take w k entry hentry hpoint hcan =>
    refine h.update rfl rfl (h.idleTerm w) nofun fun hs ↦ ?_
    rw [h.queue hs] at hentry
    cases hentry
  | searchNone w hpoint =>
    by_cases hidle : (s.workers w).idleTerm = true
    · rw [if_pos hidle]
      exact h.update_rest rfl rfl rfl (fun _ ↦ h.idleTerm w hidle) rfl nofun nofun fun _ ↦ id
    · rw [if_neg hidle]
      exact h.update_rest rfl rfl rfl nofun rfl nofun nofun fun _ ↦ id
  | drop w f hpoint => exact h.update_active hpoint rfl rfl rfl nofun
  | enter w f hpoint => exact h.update_active hpoint rfl rfl rfl nofun
  | enterCb w cb f hpoint => exact h.update_active hpoint rfl rfl rfl nofun
  | enterNew w cb hpoint => exact h.update_active hpoint rfl rfl rfl nofun
  | resume w f cb hpoint => exact h.update_active hpoint rfl rfl rfl nofun
  | register w f cb hpoint => exact h.congr rfl rfl h.queue fun _ ↦ id
  | yield w f cb hpoint => exact h.update_active hpoint rfl rfl rfl nofun
  | finish w f cb throws hpoint => exact h.update_active hpoint rfl rfl rfl nofun
  | swapOut w f cb hpoint => exact h.update_active hpoint rfl rfl rfl nofun
  | release w f cb hpoint => exact h.update_active hpoint rfl rfl rfl nofun
  | lookReady w f cb hpoint hready =>
    refine h.update rfl rfl (h.idleTerm w) nofun fun hs ↦ ?_
    exact absurd hready (((h.rest hs w).point_eq hpoint).2.2 f cb rfl)
  | lookReset w f hpoint =>
    exact h.update_rest rfl rfl rfl nofun rfl nofun nofun fun _ ↦ ready_of_update nofun
  | lookEnded w f hpoint => exact h.update_rest rfl rfl rfl nofun rfl nofun nofun fun _ ↦ id
  | lookHold w f cb hpoint => exact h.update_rest rfl rfl rfl nofun rfl nofun nofun fun _ ↦ id
  | reschedule w f cb hpoint =>
    refine h.update rfl rfl (h.idleTerm w) nofun fun hs ↦ ?_
    exact absurd rfl (((h.rest hs w).point_eq hpoint).2.1 f cb)
  | hold w f cb hpoint =>
    exact h.update_rest rfl rfl rfl nofun rfl nofun nofun fun _ ↦ ready_of_update nofun
  | idleStop w hpoint hstopping =>
    have hdone := allDone hactive hstopping (ha.1 trivial hstopping.1 hstopping.2.1)
    refine ⟨fun _ ↦ hdone.queue, fun _ w' ↦ ?_, fun _ _ ↦ rfl, fun _ _ ↦ rfl⟩
    have hrest : s.AtRest w' := ⟨hdone.active w', hdone.back w'⟩
    by_cases hw : w' = w
    · subst hw
      exact .of_point (p := .search) (by simp) rfl nofun nofun
    · exact hrest.congr (by simp [Function.update_of_ne hw]) fun _ ↦ id
  | idleGo w hpoint => exact h.update_rest rfl rfl rfl nofun rfl nofun nofun fun _ ↦ id
  | stop s' hs =>
    -- `stopSeen` is set when all is done
    have hseen : ∀ {s₁ : Scheduler c}, s.CallsStopping .stop → s.isStopping →
        s₁.queue = s.queue → s₁.fibers = s.fibers → s₁.workers = s.workers →
        s₁.stopSeen = true → s₁.SeenOk := by
      intro s₁ hcalls hstopping hqueue hfibers hworkers hseen
      have hdone := allDone hactive hstopping (ha.1 hcalls hstopping.1 hstopping.2.1)
      exact ⟨fun _ ↦ hqueue.trans hdone.queue, fun _ w ↦
        AtRest.congr ⟨hdone.active w, hdone.back w⟩ (by rw [hworkers]) fun f ↦ by
          rw [hfibers]
          exact id,
        fun _ _ ↦ hseen, fun _ _ ↦ hseen⟩
    cases stopStep_inv hs with
    | singleStop hstop hstopping => exact hseen (.inl hstop) hstopping rfl rfl rfl rfl
    | rootStop w hstop hcaller hstopping =>
      exact hseen (.inr ⟨hstop, by rw [hcaller]; rfl⟩) hstopping rfl rfl rfl rfl
    | root w hstop hcaller hoff =>
      exact h.update_rest rfl rfl rfl nofun rfl nofun nofun fun _ ↦ id
    | _ => exact h.congr rfl rfl h.queue fun _ ↦ id
  | fault => exact h.congr rfl rfl h.queue fun _ ↦ id

end SeenOk

/-! ### Where `stop` is -/

/-- What `stop` has seen of the workers. The one of its own thread runs only inside of it. -/
def StopOk (s : Scheduler c) : Prop :=
  match s.stop with
  | .notCalled | .autoStop | .stopping => ∀ w ∈ c.caller, (s.workers w).point = .off
  | .single => c.threads = 1 ∧ ∃ w ∈ c.caller, (s.workers w).point = .off
  | .rootFiber => c.caller.isSome = true
  | .joining => (∀ w ∈ c.caller, (s.workers w).point = .off ∨ (s.workers w).point = .exited) ∧
      (c.caller.isSome = true → s.stopSeen = true)
  | .returned => (∀ w, (s.workers w).point = .off ∨ (s.workers w).point = .exited) ∧
      s.stopSeen = true

/-- What a step of a worker keeps. -/
structure SameStop (s s' : Scheduler c) : Prop where
  stop : s'.stop = s.stop
  seen : s.stopSeen = true → s'.stopSeen = true
  points : ∀ w, (s.workers w).point = .off ∨ (s.workers w).point = .exited →
    (s'.workers w).point = (s.workers w).point

theorem SameStop.of_step (hstep : s.step a = some s') (hstart : a ≠ .start) (hstop : a ≠ .stop) :
    SameStop s s' := by
  obtain ⟨hmove, hsame, hseen⟩ := workerStep hstep hstart hstop
  refine ⟨hsame, hseen, fun w hw ↦ ?_⟩
  cases hmove with
  | still hworkers => rw [hworkers]
  | move w' p x hpoint hoff hexited hworkers =>
    have hne : w ≠ w' := by
      rintro rfl
      rw [hpoint] at hw
      exact hw.elim hoff hexited
    rw [hworkers, Function.update_of_ne hne]

namespace StopOk

theorem congr (h : s.StopOk) (hsame : SameStop s s') : s'.StopOk := by
  obtain ⟨hstop, hseen, hpoints⟩ := hsame
  have hoff : ∀ w, (s.workers w).point = .off → (s'.workers w).point = .off := fun w hw ↦
    (hpoints w (.inl hw)).trans hw
  have hend : ∀ w, (s.workers w).point = .off ∨ (s.workers w).point = .exited →
      (s'.workers w).point = .off ∨ (s'.workers w).point = .exited := fun w hw ↦ by
    rwa [hpoints w hw]
  unfold StopOk at *
  rw [hstop]
  cases hs : s.stop with
  | notCalled | autoStop | stopping =>
    rw [hs] at h
    exact fun w hw ↦ hoff w (h w hw)
  | single =>
    rw [hs] at h
    obtain ⟨hone, w, hw, hpoint⟩ := h
    exact ⟨hone, w, hw, hoff w hpoint⟩
  | rootFiber =>
    rw [hs] at h
    exact h
  | joining =>
    rw [hs] at h
    exact ⟨fun w hw ↦ hend w (h.1 w hw), fun hcaller ↦ hseen (h.2 hcaller)⟩
  | returned =>
    rw [hs] at h
    exact ⟨fun w ↦ hend w (h.1 w), hseen h.2⟩

theorem stopStep (h : s.StopOk) (hleft : s.SeenOk) (hs : s.StopStep s') : s'.StopOk := by
  unfold StopOk at h
  cases hs with
  | call hstop =>
    rw [hstop] at h
    exact h
  | single hstop hroot hone =>
    rw [hstop] at h
    obtain ⟨w, hw, -⟩ := hroot
    exact ⟨hone, w, hw, h w hw⟩
  | stopping hstop =>
    rw [hstop] at h
    exact h
  | singleStop hstop hstopping =>
    rw [hstop] at h
    obtain ⟨hone, w, hw, hoff⟩ := h
    refine ⟨fun w' ↦ .inl ?_, rfl⟩
    obtain rfl : w' = w := by
      ext
      have := w.isLt
      have := w'.isLt
      omega
    exact hoff
  | singleGo hstop =>
    rw [hstop] at h
    obtain ⟨-, w, hw, hoff⟩ := h
    intro w' hw'
    obtain rfl : w = w' := Option.some.inj (hw.symm.trans hw')
    exact hoff
  | noCaller hstop hcaller =>
    refine ⟨fun w hw ↦ ?_, fun hsome ↦ ?_⟩
    · rw [hcaller] at hw
      cases hw
    · rw [hcaller] at hsome
      cases hsome
  | rootStop w hstop hcaller hstopping =>
    rw [hstop] at h
    exact ⟨fun w' hw' ↦ .inl (h w' hw'), fun _ ↦ rfl⟩
  | root w hstop hcaller hoff =>
    show c.caller.isSome = true
    rw [hcaller]
    rfl
  | rootEnded hstop hexited =>
    refine ⟨fun w hw ↦ .inr (hexited w hw), fun hsome ↦ ?_⟩
    obtain ⟨w, hw⟩ := Option.isSome_iff_exists.mp hsome
    exact hleft.exited w (hexited w hw)
  | joined hstop hexited =>
    rw [hstop] at h
    refine ⟨fun w ↦ ?_, ?_⟩
    · by_cases hw : c.caller = some w
      · exact h.1 w hw
      · exact .inr (hexited w hw)
    · cases hcaller : c.caller with
      | none =>
        -- there is a thread, and it has left
        exact hleft.exited ⟨0, c.pos⟩ (hexited _ (by rw [hcaller]; exact nofun))
      | some w => exact h.2 (by rw [hcaller]; rfl)

theorem step (h : s.StopOk) (hleft : s.SeenOk) (hstep : s.step a = some s') : s'.StopOk := by
  by_cases hstop : a = .stop
  · subst hstop
    cases (step_cases hstep).2 with
    | stop _ hs => exact h.stopStep hleft (stopStep_inv hs)
    | fault => exact h
  · by_cases hstart : a = .start
    · subst hstart
      cases (step_cases hstep).2 with
      | start hstopping hnot hoff =>
        unfold StopOk at h ⊢
        rw [hnot] at h
        dsimp only
        rw [hnot]
        intro w hw
        rw [if_pos (Option.mem_def.mp hw)]
        exact h w hw
      | fault => exact h
    · exact h.congr (.of_step hstep hstart hstop)

end StopOk

end Scheduler

/-! ### Every run -/

structure StopInv (s : Scheduler c) : Prop where
  cb : s.CbInv
  tickets : s.TicketsOk
  active : s.ActiveOk
  fibers : ∀ g, (s.view g).Live
  seen : s.SeenOk
  stop : s.StopOk

namespace StopInv

variable {s s' : Scheduler c} {a : SchedulerAction c}

theorem initial : StopInv (scheduler c).init where
  cb := Scheduler.CbInv.initial
  tickets := List.Perm.refl []
  active := (Scheduler.activeWorkers_eq_zero.mpr fun _ ↦ rfl).symm
  fibers := fun _ ↦ .of_state nofun nofun
  seen := ⟨nofun, nofun, fun _ ↦ nofun, fun _ ↦ nofun⟩
  stop := fun _ _ ↦ rfl

theorem step (h : StopInv s) (ha : StopFit s a) (hstep : s.step a = some s') : StopInv s' where
  cb := h.cb.step hstep
  tickets := h.tickets.step hstep
  active := h.active.step hstep
  fibers := fun g ↦ (h.fibers g).step (Scheduler.viewStep h.cb hstep g)
  seen := h.seen.step h.active ha hstep
  stop := h.stop.step h.seen hstep

/-- When `stop` has returned no worker has to do with a fiber. -/
theorem allDone_of_returned (h : StopInv s) (hreturned : s.stop = .returned) :
    s.AllDone ∧ ∀ w, (s.workers w).point.fiber = none := by
  have hstop := h.stop
  unfold Scheduler.StopOk at hstop
  rw [hreturned] at hstop
  obtain ⟨hleft, hseen⟩ := hstop
  refine ⟨⟨h.seen.queue hseen, fun w ↦ (h.seen.rest hseen w).1, fun w ↦ (h.seen.rest hseen w).2⟩,
    fun w ↦ ?_⟩
  rcases hleft w with hw | hw <;> rw [hw] <;> rfl

theorem settled_of_returned (h : StopInv s) (hreturned : s.stop = .returned) {f : ℕ}
    (hbegun : (s.view f).Begun) : s.Settled f := by
  obtain ⟨hdone, hnone⟩ := h.allDone_of_returned hreturned
  have hqueued : (s.view f).queued = 0 := by
    show s.queue.countP _ = 0
    rw [hdone.queue]
    rfl
  have hat : ∀ {kind : WorkerPoint → Bool}, ¬(s.view f).At kind := by
    rintro kind ⟨w, p, hp, -⟩
    cases (Scheduler.points_eq_none rfl (by rw [hnone w]; exact nofun)).symm.trans hp
  cases hstate : (s.fibers f).state with
  | init =>
    rcases hbegun.2 hstate with hpos | ⟨w, hw⟩ | hearly
    · omega
    · exact .inr (.inr ⟨hstate, w, by simpa [Scheduler.view] using hw⟩)
    · exact absurd hearly hat
  | hold => exact .inl hstate
  | exec => exact absurd ((h.fibers f).exec hstate) hat
  | term => exact .inr (.inl (.inl hstate))
  | ready =>
    rcases (h.fibers f).ready hstate with hpos | hready
    · omega
    · exact absurd hready hat
  | except => exact .inr (.inl (.inr hstate))

end StopInv

/-- A fiber with a task has begun. -/
theorem FiberView.Begun.of_hasTask {s : Scheduler c} {f : ℕ} (hcb : s.CbInv) (h : s.HasTask f) :
    (s.view f).Begun := by
  obtain ⟨hlt, ⟨entry, hmem, htask⟩ | ⟨w, hw⟩⟩ := h
  · refine ⟨by simpa [Scheduler.view] using hlt, fun _ ↦ .inl ?_⟩
    exact List.countP_pos_iff.mpr ⟨entry, hmem, by simpa using htask⟩
  · refine ⟨by simpa [Scheduler.view] using hlt, fun _ ↦ .inr (.inl ⟨w, ?_⟩)⟩
    simpa [Scheduler.view] using hcb w f hw

/-- A fiber that has begun stays so. -/
theorem FiberView.Begun.of_le {r : Run (scheduler c)} {f j k : ℕ}
    (hinv : ∀ k, (r.state k).CbInv) (h : ((r.state j).view f).Begun) (hjk : j ≤ k) :
    ((r.state k).view f).Begun := by
  induction k, hjk using Nat.le_induction with
  | base => exact h
  | succ k hjk ih =>
    cases ha : r.act k with
    | none =>
      rw [r.pause k ha]
      exact ih
    | some a => exact ih.step (hinv k) (Scheduler.viewStep (hinv k) (r.next k a ha) f)

/-- Completeness. In a run that meets the condition every entry is taken once, and when `stopping()`
or `stop` has answered nothing is left to do. -/
theorem stopComplete (r : Run (scheduler c)) (hr : r.Obeys StopFit) : StopComplete r := by
  have hinv : ∀ k, StopInv (r.state k) :=
    r.invariant StopInv.initial (fun _ _ _ h ha hstep ↦ h.step ha hstep) hr
  refine ⟨fun k ↦ (hinv k).tickets, fun k a ha hcalls hstopping ↦ ?_, fun k hreturned ↦ ?_⟩
  · exact Scheduler.SeenOk.allDone (hinv k).active hstopping
      ((hr k a ha).1 hcalls hstopping.1 hstopping.2.1)
  · refine ⟨((hinv k).allDone_of_returned hreturned).1, fun j hjk f htask ↦ ?_⟩
    have hbegun : ((r.state j).view f).Begun := .of_hasTask (hinv j).cb htask
    exact (hinv k).settled_of_returned hreturned (hbegun.of_le (fun k ↦ (hinv k).cb) hjk)

/-! ### A fiber that yields while the scheduler stops -/

/-- The fiber yields in `READY`, is put back and ends before the scheduler stops. -/
def stopRun : Run (scheduler twoWorkers) :=
  Run.ofActions (scheduler twoWorkers) [.newFiber false, .start, .schedule none (.fiber 0) none,
    .take firstWorker 0, .enter firstWorker, .resume firstWorker, .stop, .stop,
    .yield firstWorker, .swapOut firstWorker, .searchNone secondWorker, .idle secondWorker,
    .release firstWorker, .look firstWorker, .reschedule firstWorker, .take secondWorker 0,
    .enter secondWorker, .resume secondWorker, .finish secondWorker false, .swapOut secondWorker,
    .release secondWorker, .look secondWorker, .searchNone secondWorker, .idle secondWorker,
    .searchNone secondWorker, .searchNone firstWorker, .idle firstWorker, .searchNone firstWorker,
    .stop, .stop]
    (by decide +kernel)

theorem stopComplete_stop : StopComplete stopRun :=
  stopComplete stopRun ((Run.obeys_ofActions_iff _ _).mpr (by decide +kernel))

/-- The idle fiber of the second worker calls `stopping()` before the first worker puts the fiber
back. -/
def putBackRun : Run (scheduler twoWorkers) :=
  Run.ofActions (scheduler twoWorkers) [.newFiber false, .start, .schedule none (.fiber 0) none,
    .take firstWorker 0, .enter firstWorker, .resume firstWorker, .stop, .stop,
    .yield firstWorker, .swapOut firstWorker, .release firstWorker, .searchNone secondWorker,
    .idle secondWorker]
    (by decide +kernel)

/-- `stopping()` returns true, and the fiber is to be put back. -/
theorem stopComplete_putBack : ¬StopComplete putBackRun := by
  intro h
  have hdone := h.stopping 12 (.idle secondWorker) (by decide +kernel) trivial (by decide +kernel)
  exact hdone.back firstWorker (by decide +kernel)

end Rsylar
