import Rsylar.Sylar.Scheduler

/-!
# One fiber in the scheduler

What a step of the scheduler does to one fiber (`ViewStep`). The view of a fiber is its state, how
often it is in the queue and registered, where the workers are that have to do with it, and whose
`cb_fiber` it is. Most steps leave the view of most fibers, so that an invariant about each fiber is
proved on the view, with one case for each step that the fiber takes part in.
-/

set_option autoImplicit false
set_option relaxedAutoImplicit false

namespace Rsylar

open TransitionSystem

/-! ### The view -/

structure FiberView (threads : ℕ) where
  fiber : Fiber
  /-- it has been built -/
  known : Bool
  queued : ℕ
  registered : ℕ
  points : Fin threads → Option WorkerPoint
  cbOf : Fin threads → Bool

/-- The point when it is about fiber `g`. -/
def WorkerPoint.about (p : WorkerPoint) (g : ℕ) : Option WorkerPoint :=
  if p.fiber = some g then some p else none

/-- The fiber of the callback that is executed. -/
def WorkerPoint.cb : WorkerPoint → Option ℕ
  | resuming f true | running f true | yielding f true | returned f true | released f true
  | rescheduling f true | holding f true => some f
  | _ => none

/-- Some worker is at such a point with the fiber. -/
def FiberView.At {n : ℕ} (v : FiberView n) (kind : WorkerPoint → Bool) : Prop :=
  ∃ w p, v.points w = some p ∧ kind p = true

namespace FiberView

variable {n : ℕ} {v : FiberView n} {w : Fin n} {p : WorkerPoint} {kind : WorkerPoint → Bool}
  {x : Fiber} {known : Bool} {queued registered : ℕ} {cbOf : Fin n → Bool}

/-- The worker comes to such a point. -/
theorem at_update (hkind : kind p = true) :
    At ⟨x, known, queued, registered, Function.update v.points w (some p), cbOf⟩ kind :=
  ⟨w, p, by simp only [Function.update_self], hkind⟩

/-- A worker that is at no such point goes on. -/
theorem At.update (h : v.At kind) (hp : v.points w = some p) (hkind : kind p = false)
    {o : Option WorkerPoint} :
    At ⟨x, known, queued, registered, Function.update v.points w o, cbOf⟩ kind := by
  obtain ⟨w', q, hq, hqkind⟩ := h
  have hne : w' ≠ w := by
    rintro rfl
    obtain rfl : q = p := Option.some.inj (hq.symm.trans hp)
    cases hkind.symm.trans hqkind
  exact ⟨w', q, by simp only [Function.update_of_ne hne]; exact hq, hqkind⟩

end FiberView

/-- What a step in `s` does to the view `v` of fiber `g`. -/
inductive ViewStep {c : SchedulerConfig} (s : Scheduler c) (g : ℕ) (v : FiberView c.threads) :
    SchedulerAction c → FiberView c.threads → Prop
  | none (a : SchedulerAction c) : ViewStep s g v a v
  | newFiber (useCaller : Bool) (hknown : v.known = false) :
      ViewStep s g v (.newFiber useCaller)
        { v with fiber := { useCaller := useCaller }, known := true }
  | schedule (by_ thread : Option (Fin c.threads)) :
      ViewStep s g v (.schedule by_ (.fiber g) thread) { v with queued := v.queued + 1 }
  | trigger (k : ℕ) (hg : s.registered[k]? = some g) (hregistered : 0 < v.registered) :
      ViewStep s g v (.trigger k)
      { v with registered := v.registered - 1, queued := v.queued + 1 }
  | take (w : Fin c.threads) (k : ℕ) (hpoint : v.points w = Option.none) (hqueued : 0 < v.queued)
      (hexec : v.fiber.state ≠ .exec) : ViewStep s g v (.take w k)
        { v with
          queued := v.queued - 1
          points := Function.update v.points w (some (.taken (.fiber g))) }
  | drop (w : Fin c.threads) (hpoint : v.points w = some (.taken (.fiber g)))
      (hended : v.fiber.Ended) :
      ViewStep s g v (.enter w) { v with points := Function.update v.points w Option.none }
  | enter (w : Fin c.threads) (hpoint : v.points w = some (.taken (.fiber g)))
      (hended : ¬v.fiber.Ended) (hexec : v.fiber.state ≠ .exec) : ViewStep s g v (.enter w)
        { v with points := Function.update v.points w (some (.resuming g false)) }
  | enterCb (w : Fin c.threads) (hpoint : v.points w = Option.none) (hcb : v.cbOf w = true)
      (hstate : v.fiber.Ended ∨ v.fiber.state = .init) : ViewStep s g v (.enter w)
        { v with
          fiber := v.fiber.reset
          points := Function.update v.points w (some (.resuming g true)) }
  | enterNew (w : Fin c.threads) (hpoint : v.points w = Option.none) (hknown : v.known = false) :
      ViewStep s g v (.enter w)
        { v with
          fiber := { useCaller := true }
          known := true
          points := Function.update v.points w (some (.resuming g true))
          cbOf := Function.update v.cbOf w true }
  | resume (w : Fin c.threads) (cb : Bool) (hpoint : v.points w = some (.resuming g cb))
      (hfinished : v.fiber.finished = false) : ViewStep s g v (.resume w)
        { v with
          fiber := { v.fiber with state := .exec }
          points := Function.update v.points w (some (.running g cb)) }
  | register (w : Fin c.threads) (cb : Bool) (hpoint : v.points w = some (.running g cb)) :
      ViewStep s g v (.register w) { v with registered := v.registered + 1 }
  | yield (w : Fin c.threads) (cb : Bool) (hpoint : v.points w = some (.running g cb)) :
      ViewStep s g v (.yield w)
        { v with
          fiber := v.fiber.yield
          points := Function.update v.points w (some (.yielding g cb)) }
  | finish (w : Fin c.threads) (cb throws : Bool) (hpoint : v.points w = some (.running g cb)) :
      ViewStep s g v (.finish w throws)
        { v with
          fiber := v.fiber.finish throws
          points := Function.update v.points w (some (.yielding g cb)) }
  | swapOut (w : Fin c.threads) (cb : Bool) (hpoint : v.points w = some (.yielding g cb)) :
      ViewStep s g v (.swapOut w)
        { v with points := Function.update v.points w (some (.returned g cb)) }
  | release (w : Fin c.threads) (cb : Bool) (hpoint : v.points w = some (.returned g cb)) :
      ViewStep s g v (.release w)
        { v with points := Function.update v.points w (some (.released g cb)) }
  | lookReady (w : Fin c.threads) (cb : Bool) (hpoint : v.points w = some (.released g cb))
      (hready : v.fiber.state = .ready) : ViewStep s g v (.look w)
        { v with points := Function.update v.points w (some (.rescheduling g cb)) }
  | lookReset (w : Fin c.threads) (hpoint : v.points w = some (.released g true))
      (hended : v.fiber.Ended) : ViewStep s g v (.look w)
        { v with fiber := v.fiber.reset, points := Function.update v.points w Option.none }
  | lookEnded (w : Fin c.threads) (hpoint : v.points w = some (.released g false))
      (hended : v.fiber.Ended) :
      ViewStep s g v (.look w) { v with points := Function.update v.points w Option.none }
  | lookHold (w : Fin c.threads) (cb : Bool) (hpoint : v.points w = some (.released g cb))
      (hready : v.fiber.state ≠ .ready) (hended : ¬v.fiber.Ended) : ViewStep s g v (.look w)
        { v with points := Function.update v.points w (some (.holding g cb)) }
  | reschedule (w : Fin c.threads) (cb : Bool) (hpoint : v.points w = some (.rescheduling g cb)) :
      ViewStep s g v (.reschedule w)
        { v with
          queued := v.queued + 1
          points := Function.update v.points w Option.none
          cbOf := if cb then Function.update v.cbOf w false else v.cbOf }
  | hold (w : Fin c.threads) (cb : Bool) (hpoint : v.points w = some (.holding g cb)) :
      ViewStep s g v (.hold w)
        { v with
          fiber := { v.fiber with state := .hold }
          points := Function.update v.points w Option.none
          cbOf := if cb then Function.update v.cbOf w false else v.cbOf }

namespace Scheduler

variable {c : SchedulerConfig} {s s' : Scheduler c} {a : SchedulerAction c} {g : ℕ}

def view (s : Scheduler c) (g : ℕ) : FiberView c.threads where
  fiber := s.fibers g
  known := g < s.fiberCount
  queued := s.queue.countP fun entry ↦ entry.task = .fiber g
  registered := s.registered.count g
  points := fun w ↦ (s.workers w).point.about g
  cbOf := fun w ↦ (s.workers w).cbFiber = some g

/-- A worker that executes a callback does it on its `cb_fiber`. -/
def CbInv (s : Scheduler c) : Prop :=
  ∀ w f, (s.workers w).point.cb = some f → (s.workers w).cbFiber = some f

namespace CbInv

theorem update (h : s.CbInv) {w : Fin c.threads} {x : Worker}
    (hworkers : s'.workers = Function.update s.workers w x)
    (hx : ∀ f, x.point.cb = some f → x.cbFiber = some f) : s'.CbInv := by
  intro w' f hf
  rw [hworkers] at hf ⊢
  by_cases hw : w' = w
  · subst hw
    rw [Function.update_self] at hf ⊢
    exact hx f hf
  · rw [Function.update_of_ne hw] at hf ⊢
    exact h w' f hf

/-- The worker stays with its callback. -/
theorem setPoint (h : s.CbInv) {w : Fin c.threads} {p p' : WorkerPoint}
    (hworkers : s'.workers = Function.update s.workers w { s.workers w with point := p' })
    (hpoint : (s.workers w).point = p) (hp : p'.cb = p.cb ∨ p'.cb = none) : s'.CbInv := by
  refine h.update hworkers fun f hf ↦ ?_
  rcases hp with hp | hp
  · exact h w f (by rw [hpoint, ← hp]; exact hf)
  · cases hp.symm.trans hf

theorem step (h : s.CbInv) (hstep : s.step a = some s') : s'.CbInv := by
  cases (step_cases hstep).2 with
  | newFiber | schedule | trigger | register | fault => exact h
  | start =>
    intro w f hf
    dsimp only at hf ⊢
    split at hf
    · rename_i hcaller
      rw [if_pos hcaller]
      exact h w f hf
    · cases hf
  | take w k entry hentry hpoint => exact h.setPoint rfl hpoint (.inr rfl)
  | searchNone w hpoint => exact h.setPoint rfl hpoint (.inr (by split_ifs <;> rfl))
  | drop w f hpoint => exact h.setPoint rfl hpoint (.inr rfl)
  | enter w f hpoint => exact h.setPoint rfl hpoint (.inr rfl)
  | enterCb w cb f hpoint hcb =>
    refine h.update rfl fun f' hf' ↦ ?_
    cases hf'
    exact hcb
  | enterNew w cb hpoint hcb =>
    refine h.update rfl fun f' hf' ↦ ?_
    cases hf'
    rfl
  | resume w f cb hpoint => exact h.setPoint rfl hpoint (.inl (by cases cb <;> rfl))
  | yield w f cb hpoint => exact h.setPoint rfl hpoint (.inl (by cases cb <;> rfl))
  | finish w f cb throws hpoint => exact h.setPoint rfl hpoint (.inl (by cases cb <;> rfl))
  | swapOut w f cb hpoint => exact h.setPoint rfl hpoint (.inl (by cases cb <;> rfl))
  | release w f cb hpoint => exact h.setPoint rfl hpoint (.inl (by cases cb <;> rfl))
  | lookReady w f cb hpoint => exact h.setPoint rfl hpoint (.inl (by cases cb <;> rfl))
  | lookReset w f hpoint => exact h.setPoint rfl hpoint (.inr rfl)
  | lookEnded w f hpoint => exact h.setPoint rfl hpoint (.inr rfl)
  | lookHold w f cb hpoint => exact h.setPoint rfl hpoint (.inl (by cases cb <;> rfl))
  | reschedule | hold => exact h.update rfl nofun
  | idleStop => exact h.update rfl nofun
  | idleGo w hpoint => exact h.setPoint rfl hpoint (.inr rfl)
  | stop _ hs =>
    obtain ⟨_, _, _, _, rfl⟩ | ⟨w, -, rfl⟩ := stopStep_cases hs
    · exact h
    · exact h.update rfl nofun

theorem initial : (scheduler c).init.CbInv := nofun

end CbInv

/-! ### Parts of a step -/

theorem view_setPoint (w : Fin c.threads) (p : WorkerPoint) : (s.setPoint w p).view g =
    { s.view g with points := Function.update (s.view g).points w (p.about g) } := by
  unfold view setPoint
  congr 1
  · funext w'
    by_cases hw : w' = w
    · subst hw
      simp only [Function.update_self]
    · simp only [Function.update_of_ne hw]
  · funext w'
    by_cases hw : w' = w
    · subst hw
      simp only [Function.update_self]
    · simp only [Function.update_of_ne hw]

theorem view_setFiber (x : Fiber) : (s.setFiber g x).view g = { s.view g with fiber := x } := by
  unfold view setFiber
  simp only [Function.update_self]

theorem view_setFiber_of_ne {f : ℕ} (hf : g ≠ f) (x : Fiber) :
    (s.setFiber f x).view g = s.view g := by
  unfold view setFiber
  simp only [Function.update_of_ne hf]

theorem view_scheduleNoLock (thread : Option (Fin c.threads)) :
    (s.scheduleNoLock (.fiber g) thread).view g =
      { s.view g with queued := (s.view g).queued + 1 } := by
  unfold view scheduleNoLock
  simp [List.countP_append]

theorem view_scheduleNoLock_of_ne {task : FiberOrCb} (htask : task ≠ .fiber g)
    (thread : Option (Fin c.threads)) : (s.scheduleNoLock task thread).view g = s.view g := by
  unfold view scheduleNoLock
  simp [List.countP_append, htask]

theorem view_register : ({ s with registered := s.registered ++ [g] } : Scheduler c).view g =
    { s.view g with registered := (s.view g).registered + 1 } := by
  unfold view
  simp

theorem view_register_of_ne {f : ℕ} (hg : g ≠ f) :
    ({ s with registered := s.registered ++ [f] } : Scheduler c).view g = s.view g := by
  unfold view
  simp [List.count_append, Ne.symm hg]

theorem view_leave (w : Fin c.threads) (cb : Bool) : (s.leave w cb).view g =
    { s.view g with
      points := Function.update (s.view g).points w none
      cbOf := if cb then Function.update (s.view g).cbOf w false else (s.view g).cbOf } := by
  unfold view leave
  congr 1
  · funext w'
    by_cases hw : w' = w
    · subst hw
      simp only [Function.update_self]
      rfl
    · simp only [Function.update_of_ne hw]
  · cases cb with
    | true =>
      funext w'
      by_cases hw : w' = w
      · subst hw
        simp
      · simp [Function.update_of_ne hw]
    | false =>
      funext w'
      by_cases hw : w' = w
      · subst hw
        simp
      · simp [Function.update_of_ne hw]

/-- The worker has had nothing to do with the fiber, and still has not. -/
theorem update_none {w : Fin c.threads} (h : (s.view g).points w = none) :
    Function.update (s.view g).points w none = (s.view g).points := by
  rw [← h]
  exact Function.update_eq_self w _

theorem points_eq_none {w : Fin c.threads} {p : WorkerPoint} (hpoint : (s.workers w).point = p)
    (hp : p.fiber ≠ some g) : (s.view g).points w = none := by
  show (s.workers w).point.about g = none
  rw [hpoint]
  exact if_neg hp

theorem points_eq_some {w : Fin c.threads} {p : WorkerPoint} (hpoint : (s.workers w).point = p)
    (hp : p.fiber = some g) : (s.view g).points w = some p := by
  show (s.workers w).point.about g = some p
  rw [hpoint]
  exact if_pos hp

/-- A worker comes to a point that is about the fiber. -/
theorem view_setPoint_self {w : Fin c.threads} {p : WorkerPoint} (hp : p.fiber = some g) :
    (s.setPoint w p).view g =
      { s.view g with points := Function.update (s.view g).points w (some p) } := by
  rw [view_setPoint, WorkerPoint.about, if_pos hp]

/-- A worker comes to a point that is about no fiber. -/
theorem view_setPoint_none {w : Fin c.threads} {p : WorkerPoint} (hp : p.fiber = none) :
    (s.setPoint w p).view g =
      { s.view g with points := Function.update (s.view g).points w none } := by
  rw [view_setPoint, WorkerPoint.about, if_neg (by rw [hp]; exact nofun)]

/-- A worker that has to do with another fiber or with none. -/
theorem view_setPoint_of_ne {w : Fin c.threads} {p : WorkerPoint} {f : ℕ} (hg : g ≠ f)
    (hpoint : (s.workers w).point.fiber = some f ∨ (s.workers w).point.fiber = none)
    (hp : p.fiber = some f ∨ p.fiber = none) : (s.setPoint w p).view g = s.view g := by
  have hne : ∀ {q : WorkerPoint}, q.fiber = some f ∨ q.fiber = none → q.fiber ≠ some g := by
    rintro q (hq | hq) heq
    · exact hg (Option.some.inj (heq.symm.trans hq))
    · cases hq.symm.trans heq
  rw [view_setPoint, WorkerPoint.about, if_neg (hne hp),
    update_none (points_eq_none rfl (hne hpoint))]

theorem view_setFiber_setPoint_of_ne {w : Fin c.threads} {p : WorkerPoint} {f : ℕ} (x : Fiber)
    (hg : g ≠ f) (hpoint : (s.workers w).point.fiber = some f ∨ (s.workers w).point.fiber = none)
    (hp : p.fiber = some f ∨ p.fiber = none) :
    ((s.setFiber f x).setPoint w p).view g = s.view g := by
  rw [view_setPoint_of_ne hg (s := s.setFiber f x) hpoint hp, view_setFiber_of_ne hg]

theorem CbInv.view_leave_of_ne (h : s.CbInv) {w : Fin c.threads} {f : ℕ} {cb : Bool} (hg : g ≠ f)
    (hpoint : (s.workers w).point.fiber = some f)
    (hcb : (s.workers w).point.cb = if cb then some f else none) :
    (s.leave w cb).view g = s.view g := by
  have hne : (s.workers w).point.fiber ≠ some g := fun heq ↦
    hg (Option.some.inj (heq.symm.trans hpoint))
  rw [view_leave, update_none (points_eq_none rfl hne)]
  cases cb with
  | false => rfl
  | true =>
    -- the `cb_fiber` that is given up is the other fiber
    have hcbFiber : (s.view g).cbOf w = false := by
      simp [view, h w f hcb, Ne.symm hg]
    rw [if_pos rfl, ← hcbFiber, Function.update_eq_self]

theorem point_of_view {w : Fin c.threads} {p : WorkerPoint} (h : (s.view g).points w = some p) :
    (s.workers w).point = p := by
  have habout : (s.workers w).point.about g = some p := h
  unfold WorkerPoint.about at habout
  split_ifs at habout
  exact Option.some.inj habout

/-! ### A step -/

theorem countP_eraseIdx {α : Type*} (p : α → Bool) {l : List α} {k : ℕ} {x : α}
    (h : l[k]? = some x) : l.countP p = (l.eraseIdx k).countP p + if p x then 1 else 0 := by
  obtain ⟨hk, rfl⟩ := List.getElem?_eq_some_iff.mp h
  rw [← (List.getElem_cons_eraseIdx_perm hk).countP_eq, List.countP_cons]

/-- What a step does to the view of a fiber. -/
theorem viewStep (h : s.CbInv) (hstep : s.step a = some s')
    (g : ℕ) : ViewStep s g (s.view g) a (s'.view g) := by
  cases (step_cases hstep).2 with
  | newFiber useCaller =>
    by_cases hg : g = s.fiberCount
    · subst hg
      have hview : (Scheduler.view { s.setFiber s.fiberCount { useCaller := useCaller } with
          fiberCount := s.fiberCount + 1 } s.fiberCount) =
          { s.view s.fiberCount with fiber := { useCaller := useCaller }, known := true } := by
        unfold view setFiber
        simp
      rw [hview]
      exact .newFiber useCaller (by simp [view])
    · have hview : (Scheduler.view { s.setFiber s.fiberCount { useCaller := useCaller } with
          fiberCount := s.fiberCount + 1 } g) = s.view g := by
        have hlt : g < s.fiberCount + 1 ↔ g < s.fiberCount := by omega
        unfold view setFiber
        simp only [Function.update_of_ne hg, hlt]
      rw [hview]
      exact .none _
  | schedule by_ task thread hby =>
    by_cases htask : task = .fiber g
    · subst htask
      rw [view_scheduleNoLock]
      exact .schedule by_ thread
    · rw [view_scheduleNoLock_of_ne htask]
      exact .none _
  | trigger k f hf =>
    have hcount : s.registered.count g =
        (s.registered.eraseIdx k).count g + if f == g then 1 else 0 :=
      countP_eraseIdx (· == g) hf
    by_cases hg : f = g
    · subst hg
      rw [beq_self_eq_true, if_pos rfl] at hcount
      have hview : ({ s with registered := s.registered.eraseIdx k } : Scheduler c).view f =
          { s.view f with registered := (s.view f).registered - 1 } := by
        unfold view
        simp [hcount]
      rw [view_scheduleNoLock, hview]
      exact .trigger k hf (by simp only [view]; omega)
    · rw [if_neg (by simpa using hg)] at hcount
      have hview : ({ s with registered := s.registered.eraseIdx k } : Scheduler c).view g =
          s.view g := by
        unfold view
        simp [hcount]
      rw [view_scheduleNoLock_of_ne (by simpa using hg), hview]
      exact .none _
  | start hstopping hstop hoff =>
    have hview : (Scheduler.view { s with
        stopping := false
        workers := fun w ↦ if c.caller = some w then s.workers w
          else { s.workers w with point := .search } } g) = s.view g := by
      unfold view
      congr 1
      · funext w
        dsimp only
        split_ifs
        · rfl
        · rw [hoff w]
          rfl
      · funext w
        dsimp only
        split_ifs <;> rfl
    rw [hview]
    exact .none _
  | take w k entry hentry hpoint hcan =>
    have hcount := countP_eraseIdx (fun entry ↦ decide (entry.task = .fiber g)) hentry
    have hview : (Scheduler.view { s.setPoint w (.taken entry.task) with
        queue := s.queue.eraseIdx k
        taken := s.taken ++ [(entry.ticket, w)]
        activeThreadCount := s.activeThreadCount + 1 } g) =
        { (s.setPoint w (.taken entry.task)).view g with
          queued := (s.queue.eraseIdx k).countP fun entry ↦ entry.task = .fiber g } := rfl
    rw [hview, view_setPoint]
    by_cases htask : entry.task = .fiber g
    · simp only [htask, decide_true, if_true] at hcount
      have hqueued : (s.queue.eraseIdx k).countP (fun entry ↦ entry.task = .fiber g) =
          (s.view g).queued - 1 := by
        simp only [view]
        omega
      have habout : (WorkerPoint.taken entry.task).about g = some (.taken (.fiber g)) := by
        rw [htask]
        exact if_pos rfl
      rw [hqueued, habout]
      exact .take w k (points_eq_none hpoint nofun) (by simp only [view]; omega)
        (hcan.2 g htask)
    · simp only [htask, decide_false, Bool.false_eq_true, if_false, Nat.add_zero] at hcount
      have habout : (WorkerPoint.taken entry.task).about g = none := by
        refine if_neg fun hfiber ↦ htask ?_
        cases hentry' : entry.task with
        | fiber f =>
          rw [hentry'] at hfiber
          rw [Option.some.inj hfiber]
        | cb cb =>
          rw [hentry'] at hfiber
          cases hfiber
      rw [← hcount, habout, update_none (points_eq_none hpoint nofun)]
      exact .none _
  | searchNone w hpoint =>
    rw [view_setPoint_none (by split_ifs <;> rfl), update_none (points_eq_none hpoint nofun)]
    exact .none _
  | drop w f hpoint hended =>
    show ViewStep s g (s.view g) _ ((s.setPoint w .search).view g)
    by_cases hg : g = f
    · subst hg
      rw [view_setPoint_none rfl]
      exact .drop w (points_eq_some hpoint rfl) hended
    · rw [view_setPoint_of_ne hg (.inl (congrArg WorkerPoint.fiber hpoint)) (.inr rfl)]
      exact .none _
  | enter w f hpoint hended hexec =>
    by_cases hg : g = f
    · subst hg
      rw [view_setPoint_self rfl]
      exact .enter w (points_eq_some hpoint rfl) hended hexec
    · rw [view_setPoint_of_ne hg (.inl (congrArg WorkerPoint.fiber hpoint)) (.inl rfl)]
      exact .none _
  | enterCb w cb f hpoint hcb hstate =>
    by_cases hg : g = f
    · subst hg
      rw [view_setPoint_self rfl, view_setFiber]
      exact .enterCb w (points_eq_none hpoint nofun) (by simp [view, hcb]) hstate
    · rw [view_setFiber_setPoint_of_ne _ hg (.inr (congrArg WorkerPoint.fiber hpoint)) (.inl rfl)]
      exact .none _
  | enterNew w cb hpoint hcb =>
    by_cases hg : g = s.fiberCount
    · have hview : (Scheduler.view { s with
          fibers := Function.update s.fibers s.fiberCount ⟨true, .init, false⟩
          fiberCount := s.fiberCount + 1
          workers := Function.update s.workers w { s.workers w with
            point := .resuming s.fiberCount true, cbFiber := some s.fiberCount } } g) =
          { s.view g with
            fiber := { useCaller := true }
            known := true
            points := Function.update (s.view g).points w (some (.resuming g true))
            cbOf := Function.update (s.view g).cbOf w true } := by
        subst hg
        unfold view
        congr 1
        · simp
        · simp
        · funext w'
          by_cases hw : w' = w
          · subst hw
            simp [WorkerPoint.about, WorkerPoint.fiber]
          · simp [Function.update_of_ne hw]
        · funext w'
          by_cases hw : w' = w
          · subst hw
            simp
          · simp [Function.update_of_ne hw]
      rw [hview]
      exact .enterNew w (points_eq_none hpoint nofun) (by simp [view, hg])
    · have hne : some s.fiberCount ≠ some g := fun heq ↦ hg (Option.some.inj heq).symm
      have hview : (Scheduler.view { s with
          fibers := Function.update s.fibers s.fiberCount ⟨true, .init, false⟩
          fiberCount := s.fiberCount + 1
          workers := Function.update s.workers w { s.workers w with
            point := .resuming s.fiberCount true, cbFiber := some s.fiberCount } } g) = s.view g := by
        have hlt : g < s.fiberCount + 1 ↔ g < s.fiberCount := by omega
        unfold view
        congr 1
        · simp [Function.update_of_ne hg]
        · simp [hlt]
        · funext w'
          by_cases hw : w' = w
          · subst hw
            have hnone : (s.workers w').point.about g = none := points_eq_none hpoint nofun
            rw [hnone]
            simp only [Function.update_self]
            exact if_neg hne
          · simp [Function.update_of_ne hw]
        · funext w'
          by_cases hw : w' = w
          · subst hw
            simp [hcb, Ne.symm hg]
          · simp [Function.update_of_ne hw]
      rw [hview]
      exact .none _
  | resume w f cb hpoint hfinished =>
    by_cases hg : g = f
    · subst hg
      rw [view_setPoint_self rfl, view_setFiber]
      exact .resume w cb (points_eq_some hpoint rfl) hfinished
    · rw [view_setFiber_setPoint_of_ne _ hg (.inl (congrArg WorkerPoint.fiber hpoint)) (.inl rfl)]
      exact .none _
  | register w f cb hpoint =>
    by_cases hg : g = f
    · subst hg
      rw [view_register]
      exact .register w cb (points_eq_some hpoint rfl)
    · rw [view_register_of_ne hg]
      exact .none _
  | yield w f cb hpoint =>
    by_cases hg : g = f
    · subst hg
      rw [view_setPoint_self rfl, view_setFiber]
      exact .yield w cb (points_eq_some hpoint rfl)
    · rw [view_setFiber_setPoint_of_ne _ hg (.inl (congrArg WorkerPoint.fiber hpoint)) (.inl rfl)]
      exact .none _
  | finish w f cb throws hpoint =>
    by_cases hg : g = f
    · subst hg
      rw [view_setPoint_self rfl, view_setFiber]
      exact .finish w cb throws (points_eq_some hpoint rfl)
    · rw [view_setFiber_setPoint_of_ne _ hg (.inl (congrArg WorkerPoint.fiber hpoint)) (.inl rfl)]
      exact .none _
  | swapOut w f cb hpoint =>
    by_cases hg : g = f
    · subst hg
      rw [view_setPoint_self rfl]
      exact .swapOut w cb (points_eq_some hpoint rfl)
    · rw [view_setPoint_of_ne hg (.inl (congrArg WorkerPoint.fiber hpoint)) (.inl rfl)]
      exact .none _
  | release w f cb hpoint =>
    show ViewStep s g (s.view g) _ ((s.setPoint w (.released f cb)).view g)
    by_cases hg : g = f
    · subst hg
      rw [view_setPoint_self rfl]
      exact .release w cb (points_eq_some hpoint rfl)
    · rw [view_setPoint_of_ne hg (.inl (congrArg WorkerPoint.fiber hpoint)) (.inl rfl)]
      exact .none _
  | lookReady w f cb hpoint hready =>
    by_cases hg : g = f
    · subst hg
      rw [view_setPoint_self rfl]
      exact .lookReady w cb (points_eq_some hpoint rfl) hready
    · rw [view_setPoint_of_ne hg (.inl (congrArg WorkerPoint.fiber hpoint)) (.inl rfl)]
      exact .none _
  | lookReset w f hpoint hended =>
    by_cases hg : g = f
    · subst hg
      rw [view_setPoint_none rfl, view_setFiber]
      exact .lookReset w (points_eq_some hpoint rfl) hended
    · rw [view_setFiber_setPoint_of_ne _ hg (.inl (congrArg WorkerPoint.fiber hpoint)) (.inr rfl)]
      exact .none _
  | lookEnded w f hpoint hended =>
    by_cases hg : g = f
    · subst hg
      rw [view_setPoint_none rfl]
      exact .lookEnded w (points_eq_some hpoint rfl) hended
    · rw [view_setPoint_of_ne hg (.inl (congrArg WorkerPoint.fiber hpoint)) (.inr rfl)]
      exact .none _
  | lookHold w f cb hpoint hready hended =>
    by_cases hg : g = f
    · subst hg
      rw [view_setPoint_self rfl]
      exact .lookHold w cb (points_eq_some hpoint rfl) hready hended
    · rw [view_setPoint_of_ne hg (.inl (congrArg WorkerPoint.fiber hpoint)) (.inl rfl)]
      exact .none _
  | reschedule w f cb hpoint =>
    by_cases hg : g = f
    · subst hg
      rw [view_leave, view_scheduleNoLock]
      exact .reschedule w cb (points_eq_some hpoint rfl)
    · have hnew : (s.scheduleNoLock (.fiber f) none).CbInv := h
      rw [hnew.view_leave_of_ne hg (congrArg WorkerPoint.fiber hpoint)
        ((congrArg WorkerPoint.cb hpoint).trans (by cases cb <;> rfl)),
        view_scheduleNoLock_of_ne fun heq ↦ hg (FiberOrCb.fiber.inj heq).symm]
      exact .none _
  | hold w f cb hpoint =>
    by_cases hg : g = f
    · subst hg
      rw [view_leave, view_setFiber]
      exact .hold w cb (points_eq_some hpoint rfl)
    · have hnew : (s.setFiber f { s.fibers f with state := .hold }).CbInv := h
      rw [hnew.view_leave_of_ne hg (congrArg WorkerPoint.fiber hpoint)
        ((congrArg WorkerPoint.cb hpoint).trans (by cases cb <;> rfl)), view_setFiber_of_ne hg]
      exact .none _
  | idleStop w hpoint hstopping =>
    have hview : (Scheduler.view { s with
        workers := Function.update s.workers w { s.workers w with point := .search, idleTerm := true }
        stopSeen := true } g) = (s.setPoint w .search).view g := by
      unfold view setPoint
      congr 1
      · funext w'
        by_cases hw : w' = w
        · subst hw
          simp only [Function.update_self]
        · simp only [Function.update_of_ne hw]
      · funext w'
        by_cases hw : w' = w
        · subst hw
          simp only [Function.update_self]
        · simp only [Function.update_of_ne hw]
    rw [hview, view_setPoint_none rfl, update_none (points_eq_none hpoint nofun)]
    exact .none _
  | idleGo w hpoint hstopping =>
    rw [view_setPoint_none rfl, update_none (points_eq_none hpoint nofun)]
    exact .none _
  | stop _ hs =>
    obtain ⟨_, _, _, _, rfl⟩ | ⟨w, hoff, rfl⟩ := stopStep_cases hs
    · exact .none _
    · show ViewStep s g (s.view g) _ ((s.setPoint w .search).view g)
      rw [view_setPoint_none rfl, update_none (points_eq_none hoff nofun)]
      exact .none _
  | fault => exact .none _

end Scheduler

end Rsylar
