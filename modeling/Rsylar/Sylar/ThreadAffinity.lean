import Rsylar.Sylar.FiberExclusion

/-!
# The thread that a task is scheduled for

The thread id of a task is in its entry of the queue and not in the fiber. `Homes` records what it
has been: the id of the entry that a worker has taken last, and for each fiber the id that it has
last been scheduled with, or the id of the callback that it executes. A fiber has a home until it
ends. A step of a fiber goes from a `resume` to the next `yield`, on the worker that has resumed it.

`run` puts a fiber that has yielded back without the id, and so do the events and timers that a fiber
waits for. Then every worker may execute it (`readyRun`). No worker but that of its home ever may
exactly when all the steps meet `HomeFit`, and then every step of a fiber is executed at its home
(`threadAffinity`).
-/

set_option autoImplicit false
set_option relaxedAutoImplicit false

namespace Rsylar

open TransitionSystem

variable {c : SchedulerConfig}

/-! ### Homes -/

structure Homes (threads : ℕ) where
  /-- `ft.thread`, also after the entry is done -/
  ft : Fin threads → Option (Fin threads) := fun _ ↦ none
  home : ℕ → Option (Fin threads) := fun _ ↦ none

namespace Homes

def setHome {n : ℕ} (g : Homes n) (f : ℕ) (thread : Option (Fin n)) : Homes n :=
  { g with home := Function.update g.home f thread }

/-- What a step from `s` to `s'` records. -/
def record (s : Scheduler c) (a : SchedulerAction c) (s' : Scheduler c) (g : Homes c.threads) :
    Homes c.threads :=
  match a with
  | .schedule _ (.fiber f) (some t) => g.setHome f (some t)
  | .take w k => { g with ft := Function.update g.ft w (s.queue[k]?.bind Entry.thread) }
  | .enter w =>
    match (s'.workers w).point with
    | .resuming f true => g.setHome f (g.ft w)
    | _ => g
  | .finish w _ =>
    match (s.workers w).point with
    | .running f _ => g.setHome f none
    | _ => g
  | _ => g

end Homes

/-- The scheduler with the record. -/
def homedScheduler (c : SchedulerConfig) : Lts (Scheduler c × Homes c.threads) (SchedulerAction c) :=
  (scheduler c).withHistory {} Homes.record

/-- A run of the scheduler with its record. -/
def homedRun (r : Run (scheduler c)) : Run (homedScheduler c) :=
  r.withHistory ({} : Homes c.threads) Homes.record

/-- Every step of a fiber that has been scheduled with a thread id is executed by that thread. -/
def StaysHome (r : Run (homedScheduler c)) : Prop :=
  ∀ (k : ℕ) (w : Fin c.threads) (f : ℕ) (cb : Bool), r.act k = some (.resume w) →
    ((r.state k).1.workers w).point = .resuming f cb →
      ∀ t, (r.state k).2.home f = some t → w = t

/-- The fiber that the worker is about to resume. -/
def WorkerPoint.toResume : WorkerPoint → Option ℕ
  | taken (.fiber f) | resuming f _ => some f
  | _ => none

namespace Scheduler

/-- The worker may come to execute the fiber, by an entry of the queue or as the next one. -/
def MayExecute (s : Scheduler c) (w : Fin c.threads) (f : ℕ) : Prop :=
  (∃ entry ∈ s.queue, entry.task = .fiber f ∧ (entry.thread = none ∨ entry.thread = some w)) ∨
    (s.workers w).point.toResume = some f

/-- The fiber in which a worker executes its next callback. -/
def nextCbFiber (s : Scheduler c) (w : Fin c.threads) : ℕ :=
  (s.workers w).cbFiber.getD s.fiberCount

/-- The assertion in `reset` passes. -/
def CbReady (s : Scheduler c) (w : Fin c.threads) : Prop :=
  ∀ f ∈ (s.workers w).cbFiber, (s.fibers f).Ended ∨ (s.fibers f).state = .init

end Scheduler

/-- No worker may execute a fiber that has its home at another one. -/
def OnlyHome (s : Scheduler c × Homes c.threads) : Prop :=
  ∀ f t, s.2.home f = some t → ∀ w, s.1.MayExecute w f → w = t

/-- A fiber that has a home is not put in the queue without a thread id, unless there is one thread
only; and a fiber gets a home only when no other worker may execute it. -/
def HomeFit (s : Scheduler c × Homes c.threads) : SchedulerAction c → Prop
  | .schedule _ (.fiber f) none => ∀ t, s.2.home f = some t → ∀ w, w = t
  | .schedule _ (.fiber f) (some t) => ∀ w, s.1.MayExecute w f → w = t
  | .trigger k => ∀ f ∈ s.1.registered[k]?, ∀ t, s.2.home f = some t → ∀ w, w = t
  | .reschedule w => ∀ f cb, (s.1.workers w).point = .rescheduling f cb →
      ∀ t, s.2.home f = some t → ∀ w', w' = t
  | .enter w => ∀ cb, (s.1.workers w).point = .taken (.cb cb) → s.1.CbReady w →
      ∀ t, s.2.ft w = some t → ∀ w', s.1.MayExecute w' (s.1.nextCbFiber w) → w' = t
  | _ => True

/-! ### Who may execute a fiber after a step -/

namespace Scheduler

variable {s s' : Scheduler c} {a : SchedulerAction c} {w w' : Fin c.threads} {f : ℕ}

/-- The step makes an entry of the fiber for the worker, or the worker a callback of it. -/
def Opens (s : Scheduler c) (a : SchedulerAction c) (w : Fin c.threads) (f : ℕ) : Prop :=
  match a with
  | .schedule _ task thread => task = .fiber f ∧ (thread = none ∨ thread = some w)
  | .trigger k => s.registered[k]? = some f
  | .reschedule w' => ∃ cb, (s.workers w').point = .rescheduling f cb
  | .enter w' => w' = w ∧ (∃ cb, (s.workers w').point = .taken (.cb cb)) ∧ s.CbReady w' ∧
      s.nextCbFiber w' = f
  | _ => False

theorem mayExecute_scheduleNoLock (task : FiberOrCb) (thread : Option (Fin c.threads)) :
    (s.scheduleNoLock task thread).MayExecute w f ↔
      s.MayExecute w f ∨ (task = .fiber f ∧ (thread = none ∨ thread = some w)) := by
  simp only [MayExecute, scheduleNoLock, List.mem_append, List.mem_singleton]
  constructor
  · rintro (⟨entry, hmem | rfl, hentry⟩ | hpoint)
    · exact .inl (.inl ⟨entry, hmem, hentry⟩)
    · exact .inr hentry
    · exact .inl (.inr hpoint)
  · rintro ((⟨entry, hmem, hentry⟩ | hpoint) | hentry)
    · exact .inl ⟨entry, .inl hmem, hentry⟩
    · exact .inr hpoint
    · exact .inl ⟨_, .inr rfl, hentry⟩

/-- A worker goes on without coming to a fiber. -/
theorem MayExecute.of_update (h : s'.MayExecute w f) (hqueue : s'.queue = s.queue)
    {worker : Worker} (hworkers : s'.workers = Function.update s.workers w' worker)
    (hpoint : worker.point.toResume = none ∨
      worker.point.toResume = (s.workers w').point.toResume) : s.MayExecute w f := by
  rcases h with hentry | hresume
  · exact .inl (hqueue ▸ hentry)
  · right
    rw [hworkers] at hresume
    by_cases hw : w = w'
    · subst hw
      rw [Function.update_self] at hresume
      rcases hpoint with hnone | hsame
      · cases hnone.symm.trans hresume
      · exact hsame.symm.trans hresume
    · rwa [Function.update_of_ne hw] at hresume

/-- A worker comes to a callback. -/
theorem MayExecute.of_callback (h : s'.MayExecute w f) (hqueue : s'.queue = s.queue)
    {worker : Worker} (hworkers : s'.workers = Function.update s.workers w' worker) {g : ℕ}
    (hpoint : worker.point = .resuming g true) : s.MayExecute w f ∨ (w' = w ∧ g = f) := by
  rcases h with hentry | hresume
  · exact .inl (.inl (hqueue ▸ hentry))
  · rw [hworkers] at hresume
    by_cases hw : w = w'
    · subst hw
      rw [Function.update_self, hpoint] at hresume
      exact .inr ⟨rfl, Option.some.inj hresume⟩
    · rw [Function.update_of_ne hw] at hresume
      exact .inl (.inr hresume)

theorem mayExecute_of_step (hstep : s.step a = some s') (h : s'.MayExecute w f) :
    s.MayExecute w f ∨ s.Opens a w f := by
  cases (step_cases hstep).2 with
  | newFiber | register | fault => exact .inl h
  | schedule by_ task thread => exact (mayExecute_scheduleNoLock task thread).mp h
  | trigger k g hg =>
    rcases (mayExecute_scheduleNoLock _ _).mp h with hold | ⟨hgf, -⟩
    · exact .inl hold
    · cases hgf
      exact .inr hg
  | start hstopping hstop hoff =>
    refine .inl (h.imp_right fun hresume ↦ ?_)
    dsimp only at hresume
    split_ifs at hresume
    · exact hresume
    · cases hresume
  | take w' k entry hentry hpoint hcan =>
    left
    rcases h with ⟨e, he, hfor⟩ | hresume
    · exact .inl ⟨e, List.mem_of_mem_eraseIdx he, hfor⟩
    · by_cases hw : w = w'
      · subst hw
        -- the entry that the worker has taken was in the queue
        simp only [setPoint, Function.update_self] at hresume
        refine .inl ⟨entry, List.mem_of_getElem? hentry, ?_, hcan.1⟩
        cases htask : entry.task with
        | fiber g =>
          rw [htask] at hresume
          cases hresume
          rfl
        | cb =>
          rw [htask] at hresume
          cases hresume
      · simp only [setPoint, Function.update_of_ne hw] at hresume
        exact .inr hresume
  | searchNone w' hpoint =>
    exact .inl (h.of_update rfl rfl (.inl (by dsimp only; split_ifs <;> rfl)))
  | enter w' g hpoint =>
    exact .inl (h.of_update rfl rfl (.inr (by rw [hpoint]; rfl)))
  | enterCb w' cb g hpoint hcb hstate =>
    have hcases : s.MayExecute w f ∨ (w' = w ∧ g = f) := h.of_callback (s := s) rfl rfl rfl
    refine hcases.imp_right fun ⟨hw, hg⟩ ↦ ⟨hw, ⟨cb, hpoint⟩, fun g' hg' ↦ ?_, ?_⟩
    · cases hcb.symm.trans hg'
      exact hstate
    · rw [nextCbFiber, hcb]
      exact hg
  | enterNew w' cb hpoint hcb =>
    have hcases : s.MayExecute w f ∨ (w' = w ∧ s.fiberCount = f) := h.of_callback (s := s) rfl rfl rfl
    refine hcases.imp_right fun ⟨hw, hg⟩ ↦ ⟨hw, ⟨cb, hpoint⟩, fun g' hg' ↦ ?_, ?_⟩
    · cases hcb.symm.trans hg'
    · rw [nextCbFiber, hcb]
      exact hg
  | reschedule w' g cb hpoint =>
    have hleave : (s.scheduleNoLock (.fiber g) none).MayExecute w f :=
      h.of_update rfl rfl (.inl rfl)
    rcases (mayExecute_scheduleNoLock _ _).mp hleave with hold | ⟨hgf, -⟩
    · exact .inl hold
    · cases hgf
      exact .inr ⟨cb, hpoint⟩
  | stop _ hs =>
    obtain ⟨_, _, _, _, rfl⟩ | ⟨w', -, rfl⟩ := stopStep_cases hs
    · exact .inl h
    · exact .inl (h.of_update rfl rfl (.inl rfl))
  | drop | resume | yield | finish | swapOut | release | lookReady | lookReset | lookEnded | lookHold
  | hold | idleStop | idleGo => exact .inl (h.of_update rfl rfl (.inl rfl))

/-! ### The actions that open a fiber to workers -/

theorem schedule_inv {by_ thread : Option (Fin c.threads)} {task : FiberOrCb}
    (hstep : s.step (.schedule by_ task thread) = some s') : s' = s.scheduleNoLock task thread := by
  unfold step at hstep
  split_ifs at hstep
  simp only [Option.bind_eq_bind, Option.bind_eq_some_iff, Option.some.injEq] at hstep
  obtain ⟨_, _, rfl⟩ := hstep
  rfl

theorem take_inv {k : ℕ} (hstep : s.step (.take w k) = some s') :
    ∃ entry, s.queue[k]? = some entry ∧ s.CanTake w entry := by
  unfold step at hstep
  split_ifs at hstep
  simp only [Option.bind_eq_bind, Option.bind_eq_some_iff, Option.guard_eq_some'] at hstep
  obtain ⟨entry, hentry, _, ⟨-, hcan, -⟩, -⟩ := hstep
  exact ⟨entry, hentry, hcan⟩

theorem trigger_inv {k : ℕ} (hstep : s.step (.trigger k) = some s') (hf : s.registered[k]? = some f) :
    s' = { s with registered := s.registered.eraseIdx k }.scheduleNoLock (.fiber f) none := by
  unfold step at hstep
  split_ifs at hstep
  simp only [hf, Option.bind_eq_bind, Option.bind_some, Option.some.injEq] at hstep
  exact hstep.symm

theorem reschedule_inv {cb : Bool} (hstep : s.step (.reschedule w) = some s')
    (hpoint : (s.workers w).point = .rescheduling f cb) :
    s' = (s.scheduleNoLock (.fiber f) none).leave w cb := by
  unfold step at hstep
  split_ifs at hstep
  simp only [hpoint, Option.some.injEq] at hstep
  exact hstep.symm

theorem enter_inv (hstep : s.step (.enter w) = some s') :
    ∃ task, (s.workers w).point = .taken task ∧ s' = s.enter w task := by
  unfold step at hstep
  split_ifs at hstep
  dsimp only at hstep
  split at hstep
  · rename_i task hpoint
    exact ⟨task, hpoint, (Option.some.inj hstep).symm⟩
  · cases hstep

/-- A worker that enters a callback comes to its `cb_fiber`, when that can be reset. -/
theorem enter_cb (hready : s.CbReady w) (cb : ℕ) : (s.enter w (.cb cb)).queue = s.queue ∧
    ∃ worker, worker.point = .resuming (s.nextCbFiber w) true ∧
      (s.enter w (.cb cb)).workers = Function.update s.workers w worker := by
  unfold enter nextCbFiber
  dsimp only
  cases hcb : (s.workers w).cbFiber with
  | some g =>
    dsimp only
    rw [if_pos (hready g hcb)]
    exact ⟨rfl, _, rfl, rfl⟩
  | none => exact ⟨rfl, _, rfl, rfl⟩

theorem enter_cb_fault (hready : ¬s.CbReady w) (cb : ℕ) :
    s.enter w (.cb cb) = { s with fault := true } := by
  unfold enter
  dsimp only
  cases hcb : (s.workers w).cbFiber with
  | some g =>
    refine if_neg fun hstate ↦ hready fun g' hg' ↦ ?_
    cases hcb.symm.trans hg'
    exact hstate
  | none =>
    refine absurd (fun g' hg' ↦ ?_) hready
    cases hcb.symm.trans hg'

theorem mayExecute_enter_cb (hready : s.CbReady w) {cb : ℕ}
    (hpoint : (s.workers w).point = .taken (.cb cb)) : (s.enter w (.cb cb)).MayExecute w' f ↔
      s.MayExecute w' f ∨ (w = w' ∧ s.nextCbFiber w = f) := by
  obtain ⟨hqueue, worker, hworker, hworkers⟩ := enter_cb hready cb
  refine ⟨fun h ↦ h.of_callback hqueue hworkers hworker, ?_⟩
  rintro ((hentry | hresume) | ⟨rfl, rfl⟩)
  · exact .inl (hqueue.symm ▸ hentry)
  · right
    have hw : w' ≠ w := by
      rintro rfl
      rw [hpoint] at hresume
      cases hresume
    rwa [hworkers, Function.update_of_ne hw]
  · right
    rw [hworkers, Function.update_self, hworker]
    rfl

end Scheduler

/-! ### What a step records -/

namespace Homes

variable {s s' : Scheduler c} {a : SchedulerAction c} {g : Homes c.threads} {w : Fin c.threads}

theorem setHome_home {n : ℕ} (g : Homes n) (f : ℕ) (thread : Option (Fin n)) (f' : ℕ) :
    (g.setHome f thread).home f' = if f' = f then thread else g.home f' :=
  Function.update_apply _ _ _ _

theorem record_enter_cb (hready : s.CbReady w) (cb : ℕ) :
    record s (.enter w) (s.enter w (.cb cb)) g = g.setHome (s.nextCbFiber w) (g.ft w) := by
  obtain ⟨-, worker, hworker, hworkers⟩ := Scheduler.enter_cb hready cb
  unfold record
  dsimp only
  rw [hworkers, Function.update_self, hworker]

theorem record_enter_of_ne (hpoint : ∀ f, (s'.workers w).point ≠ .resuming f true) :
    record s (.enter w) s' g = g := by
  unfold record
  dsimp only
  split
  · rename_i f hf
    exact absurd hf (hpoint f)
  · rfl

/-- The worker comes to no callback. -/
theorem record_enter_same (hstep : s.step (.enter w) = some s')
    (hcb : ¬((∃ cb, (s.workers w).point = .taken (.cb cb)) ∧ s.CbReady w)) :
    record s (.enter w) s' g = g := by
  obtain ⟨task, hpoint, rfl⟩ := Scheduler.enter_inv hstep
  refine record_enter_of_ne fun f hresuming ↦ ?_
  cases task with
  | fiber f' =>
    unfold Scheduler.enter at hresuming
    dsimp only at hresuming
    split_ifs at hresuming
    · simp [Scheduler.setPoint] at hresuming
    · cases hpoint.symm.trans hresuming
    · simp [Scheduler.setPoint] at hresuming
  | cb cb =>
    rw [Scheduler.enter_cb_fault (fun hready ↦ hcb ⟨⟨cb, hpoint⟩, hready⟩)] at hresuming
    cases hpoint.symm.trans hresuming

theorem record_ft (hw : ∀ k, a ≠ .take w k) : (record s a s' g).ft w = g.ft w := by
  unfold record
  split
  · rfl
  · rename_i w' k
    have hne : w ≠ w' := fun heq ↦ hw k (by rw [heq])
    exact Function.update_of_ne hne _ _
  · split <;> rfl
  · split <;> rfl
  · rfl

end Homes

/-! ### One step -/

section

variable {s s' : Scheduler c × Homes c.threads} {a : SchedulerAction c}

theorem homedScheduler_step (hstep : (homedScheduler c).step s a = some s') :
    s.1.step a = some s'.1 ∧ s'.2 = Homes.record s.1 a s'.1 s.2 := by
  obtain ⟨s₁, hs₁, rfl⟩ := Option.map_eq_some_iff.mp hstep
  exact ⟨hs₁, rfl⟩

/-- A worker takes only entries that are for it. -/
def TakesOwn (s : Scheduler c × Homes c.threads) : Prop :=
  ∀ w t, s.2.ft w = some t → w = t

theorem TakesOwn.step (h : TakesOwn s) (hstep : (homedScheduler c).step s a = some s') :
    TakesOwn s' := by
  obtain ⟨hs', hrecord⟩ := homedScheduler_step hstep
  intro w t hft
  rw [hrecord] at hft
  by_cases htake : ∃ k, a = .take w k
  · obtain ⟨k, rfl⟩ := htake
    obtain ⟨entry, hentry, hcan⟩ := Scheduler.take_inv hs'
    have hthread : entry.thread = some t := by
      simpa only [Homes.record, Function.update_self, hentry, Option.bind_some] using hft
    rcases hcan.1 with hnone | hown
    · cases hnone.symm.trans hthread
    · exact Option.some.inj (hown.symm.trans hthread)
  · rw [Homes.record_ft (not_exists.mp htake)] at hft
    exact h w t hft

/-- The step that opens a fiber with a home to a worker opens it to that of its home. -/
theorem onlyHome_of_opens (h : OnlyHome s) (hstep : s.1.step a = some s'.1)
    (hhome : ∀ f t, s'.2.home f = some t → s.2.home f = some t)
    (hopens : ∀ f t, s.2.home f = some t → ∀ w, s.1.Opens a w f → w = t) : OnlyHome s' := by
  intro f t hf w hmay
  have hold := hhome f t hf
  rcases Scheduler.mayExecute_of_step hstep hmay with hmay | hnew
  · exact h f t hold w hmay
  · exact hopens f t hold w hnew

theorem onlyHome_step_iff (htakes : TakesOwn s) (h : OnlyHome s)
    (hstep : (homedScheduler c).step s a = some s') : OnlyHome s' ↔ HomeFit s a := by
  obtain ⟨hs', hrecord⟩ := homedScheduler_step hstep
  cases a with
  | schedule by_ task thread =>
    have hmay : ∀ w f, s'.1.MayExecute w f ↔
        s.1.MayExecute w f ∨ (task = .fiber f ∧ (thread = none ∨ thread = some w)) := by
      intro w f
      rw [Scheduler.schedule_inv hs']
      exact Scheduler.mayExecute_scheduleNoLock task thread
    cases task with
    | cb cb =>
      refine ⟨fun _ ↦ trivial, fun _ ↦ onlyHome_of_opens h hs' (fun f t ↦ ?_) fun f t _ w hw ↦ ?_⟩
      · rw [hrecord]
        exact id
      · cases hw.1
    | fiber f =>
      cases thread with
      | none =>
        have hsame : s'.2 = s.2 := hrecord
        constructor
        · intro hs' t ht w
          exact hs' f t (by rw [hsame]; exact ht) w ((hmay w f).mpr (.inr ⟨rfl, .inl rfl⟩))
        · intro hfit
          refine onlyHome_of_opens h hs' (fun f t ↦ by rw [hsame]; exact id) fun f' t ht w hw ↦ ?_
          cases hw.1
          exact hfit t ht w
      | some t =>
        have hset : s'.2 = s.2.setHome f (some t) := hrecord
        constructor
        · intro hs' w hw
          refine hs' f t ?_ w ((hmay w f).mpr (.inl hw))
          rw [hset, Homes.setHome_home, if_pos rfl]
        · intro hfit f' t' ht' w hw
          rw [hset, Homes.setHome_home] at ht'
          rcases (hmay w f').mp hw with hold | ⟨hf, hthread⟩
          · split_ifs at ht' with hf
            · cases ht'
              exact hfit w (hf ▸ hold)
            · exact h f' t' ht' w hold
          · cases hf
            rw [if_pos rfl] at ht'
            cases ht'
            rcases hthread with hnone | hsome
            · cases hnone
            · exact (Option.some.inj hsome).symm
  | trigger k =>
    have hsame : s'.2 = s.2 := hrecord
    constructor
    · intro hnew f hf t ht w
      refine hnew f t (by rw [hsame]; exact ht) w ?_
      rw [Scheduler.trigger_inv hs' hf]
      exact (Scheduler.mayExecute_scheduleNoLock _ _).mpr (.inr ⟨rfl, .inl rfl⟩)
    · intro hfit
      refine onlyHome_of_opens h hs' (fun f t ↦ by rw [hsame]; exact id) fun f t ht w hw ↦ ?_
      exact hfit f hw t ht w
  | reschedule w =>
    have hsame : s'.2 = s.2 := hrecord
    constructor
    · intro hnew f cb hpoint t ht w'
      refine hnew f t (by rw [hsame]; exact ht) w' ?_
      rw [Scheduler.reschedule_inv hs' hpoint]
      exact .inl ⟨_, List.mem_append_right _ (List.mem_singleton_self _), rfl, .inl rfl⟩
    · intro hfit
      refine onlyHome_of_opens h hs' (fun f t ↦ by rw [hsame]; exact id) fun f t ht w' hw' ↦ ?_
      obtain ⟨cb, hpoint⟩ := hw'
      exact hfit f cb hpoint t ht w'
  | enter w =>
    by_cases hcb : (∃ cb, (s.1.workers w).point = .taken (.cb cb)) ∧ s.1.CbReady w
    · obtain ⟨⟨cb, hpoint⟩, hready⟩ := hcb
      obtain ⟨task, htask, henter⟩ := Scheduler.enter_inv hs'
      obtain rfl : task = .cb cb := by
        cases htask.symm.trans hpoint
        rfl
      have hmay : ∀ w' f, s'.1.MayExecute w' f ↔
          s.1.MayExecute w' f ∨ (w = w' ∧ s.1.nextCbFiber w = f) := by
        intro w' f
        rw [henter]
        exact Scheduler.mayExecute_enter_cb hready hpoint
      have hset : s'.2 = s.2.setHome (s.1.nextCbFiber w) (s.2.ft w) := by
        rw [hrecord, henter]
        exact Homes.record_enter_cb hready cb
      constructor
      · intro hnew cb' _ _ t ht w' hw'
        refine hnew (s.1.nextCbFiber w) t ?_ w' ((hmay w' _).mpr (.inl hw'))
        rw [hset, Homes.setHome_home, if_pos rfl]
        exact ht
      · intro hfit f t ht w' hw'
        rw [hset, Homes.setHome_home] at ht
        split_ifs at ht with hf
        · rcases (hmay w' f).mp hw' with hold | ⟨rfl, -⟩
          · exact hfit cb hpoint hready t ht w' (hf ▸ hold)
          · exact htakes w t ht
        · rcases (hmay w' f).mp hw' with hold | ⟨-, hnext⟩
          · exact h f t ht w' hold
          · exact absurd hnext.symm hf
    · have hsame : s'.2 = s.2 := hrecord.trans (Homes.record_enter_same hs' hcb)
      refine ⟨fun _ cb hpoint hready ↦ absurd ⟨⟨cb, hpoint⟩, hready⟩ hcb, fun _ ↦ ?_⟩
      refine onlyHome_of_opens h hs' (fun f t ↦ by rw [hsame]; exact id) fun f t ht w' hw' ↦ ?_
      exact absurd ⟨hw'.2.1, hw'.2.2.1⟩ hcb
  | finish w throws =>
    refine ⟨fun _ ↦ trivial, fun _ ↦ onlyHome_of_opens h hs' (fun f t ht ↦ ?_) fun _ _ _ _ ↦ False.elim⟩
    rw [hrecord] at ht
    unfold Homes.record at ht
    dsimp only at ht
    split at ht
    · rw [Homes.setHome_home] at ht
      split_ifs at ht
      exact ht
    · exact ht
  | newFiber | start | take | searchNone | resume | register | yield | swapOut | release | look | hold
  | idle | stop =>
    have hhome : s'.2.home = s.2.home := by
      rw [hrecord]
      rfl
    exact ⟨fun _ ↦ trivial, fun _ ↦
      onlyHome_of_opens h hs' (fun f t ht ↦ hhome ▸ ht) fun _ _ _ _ ↦ False.elim⟩

end

/-! ### Runs -/

/-- In a run of any number of workers, only the worker of its home ever may execute a fiber exactly
when every step meets the condition, and then every step of a fiber is executed at its home. -/
theorem threadAffinity (r : Run (homedScheduler c)) :
    ((∀ k, OnlyHome (r.state k)) ↔ r.Obeys HomeFit) ∧ (r.Obeys HomeFit → StaysHome r) := by
  have hiff : (∀ k, OnlyHome (r.state k)) ↔ r.Obeys HomeFit := by
    refine Run.forall_iff_obeys (I := TakesOwn) (fun w t hft ↦ ?_) (fun f t ht ↦ ?_)
      (fun _ _ _ hs hstep ↦ hs.step hstep) (fun _ _ _ hs h hstep ↦ onlyHome_step_iff hs h hstep) r
    · cases hft
    · cases ht
  refine ⟨hiff, fun hr k w f cb _ hpoint t ht ↦ hiff.mpr hr k f t ht w (.inr ?_)⟩
  rw [hpoint]
  rfl

/-! ### A fiber that is put back -/

/-- A fiber is scheduled for the first worker and yields, and the second one takes it when it has been
put back. -/
def readyRun : Run (homedScheduler twoWorkers) :=
  homedRun (.ofActions (scheduler twoWorkers) [.start, .newFiber false,
    .schedule none (.fiber 0) (some firstWorker), .take firstWorker 0, .enter firstWorker,
    .resume firstWorker, .yield firstWorker, .swapOut firstWorker, .release firstWorker,
    .look firstWorker, .reschedule firstWorker, .take secondWorker 0, .enter secondWorker,
    .resume secondWorker] (by decide +kernel))

theorem not_staysHome_ready : (readyRun.state 13).2.home 0 = some firstWorker ∧
    ((readyRun.state 13).1.workers secondWorker).point = .resuming 0 false ∧
      ¬StaysHome readyRun := by
  have hhome : (readyRun.state 13).2.home 0 = some firstWorker := by decide +kernel
  have hpoint : ((readyRun.state 13).1.workers secondWorker).point = .resuming 0 false := by
    decide +kernel
  refine ⟨hhome, hpoint, fun hstays ↦ ?_⟩
  have hsame : secondWorker = firstWorker := hstays 13 secondWorker 0 false rfl hpoint _ hhome
  exact absurd hsame (by decide)

end Rsylar
