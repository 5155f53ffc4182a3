import Rsylar.Sylar.IdleLoop
import Rsylar.Sylar.TimerMembership

/-!
# Waking up for a timer

A worker that blocks has read the earliest due time after clearing `m_tickled`, so every timer that
comes to the front later writes to the pipe, unless somebody has been told already and has not read
the timers since. This fails for a delay whose bit 31 is set: its conversion to `int` is negative,
`idle` does not cut it, and the worker waits without end (`longDelayRun`). It also fails for
a `refresh` that overflows 64 bits and so moves its timer to the front, since `refresh` does not
tickle (`overflowRun`). In all other runs somebody wakes up in time (`timerWakeup`).
-/

set_option autoImplicit false
set_option relaxedAutoImplicit false

namespace Rsylar

open TransitionSystem OrderedSet

/-! ### The property and the condition -/

namespace IdleSystem

/-- The workers that run, and there are some, are in `epoll_wait`. -/
def AllBlocked (s : IdleSystem) : Prop :=
  (∃ now timeout, IdlePoint.blocked now timeout ∈ s.workers) ∧
    ∀ point ∈ s.workers, point = .ended ∨ ∃ now timeout, point = .blocked now timeout

/-- The wait of some worker ends, from its reading of the clock, by the time every timer is due. -/
def SomeoneInTime (s : IdleSystem) : Prop :=
  ∃ (now : ℕ) (timeout : ℤ), .blocked now timeout ∈ s.workers ∧ 0 ≤ timeout ∧
    ∀ t ∈ s.manager.timers, now + timeout ≤ max now (s.manager.timer t).next

end IdleSystem

/-- A refreshed timer does not overflow, and a worker that reads the earliest timer finds it due or
a delay whose bit 31 is not set. -/
def WakeFit (s : IdleSystem) : IdleAction → Prop
  | .refresh t => (s.manager.timer t).cb.isSome → s.clock + (s.manager.timer t).ms < 2 ^ 64
  | .getNextTimer _ =>
    ∀ t ∈ s.manager.timers.head?, ((s.manager.timer t).next - s.clock) % 2 ^ 32 < 2 ^ 31
  | _ => True

instance : DecidableRel WakeFit := fun s a ↦ by
  unfold WakeFit
  split <;> infer_instance

/-! ### Timeouts -/

theorem toInt32_of_lt {n : ℕ} (h : n % 2 ^ 32 < 2 ^ 31) : toInt32 n = (n % 2 ^ 32 : ℕ) :=
  if_pos h

theorem epollTimeout_none : epollTimeout (2 ^ 64 - 1) = 1000 := by decide

theorem epollTimeout_of_lt {n : ℕ} (h : n % 2 ^ 32 < 2 ^ 31) :
    epollTimeout n = (min 1000 (n % 2 ^ 32) : ℕ) := by
  have hne : n ≠ 2 ^ 64 - 1 := by omega
  have hlimit : toInt32 1000 = 1000 := by decide
  simp only [epollTimeout, hne, ne_eq, not_false_eq_true, if_true, toInt32_of_lt h]
  split
  · rw [hlimit]
    omega
  · rw [toInt32_of_lt h]
    omega

/-! ### What the operations do to the earliest timer -/

/-- The timer has been started at a reading of the clock. -/
def Timer.Started (clock : ℕ) (timer : Timer) : Prop :=
  timer.cb.isSome → ∃ start ≤ clock, timer.next = TimerManager.add64 start timer.ms

namespace TimerManager

/-- No timer is due before all the timers that were there. -/
def Later (m m' : TimerManager) : Prop :=
  ∀ t, (m'.timer t).cb.isSome → ∃ u, (m.timer u).cb.isSome ∧ (m.timer u).next ≤ (m'.timer t).next

/-- Unless `onTimerInsertedAtFront` is to be called or has been before, no timer is due earlier. -/
structure Insertion (m m' : TimerManager) (atFront : Bool) : Prop where
  tickled : m'.tickled = true → atFront = true ∨ m.tickled = true
  later : atFront = true ∨ m.tickled = true ∨ m.Later m'

variable {m m' : TimerManager} {t : ℕ} {timer : Timer} {clock : ℕ}

theorem Later.refl (m : TimerManager) : m.Later m := fun t ht ↦ ⟨t, ht, le_refl _⟩

theorem Later.insertion (h : m.Later m') (htickled : m'.tickled = m.tickled) :
    Insertion m m' false :=
  ⟨fun h ↦ .inr (htickled ▸ h), .inr (.inr h)⟩

/-- One timer has changed. -/
theorem later_of_update (t : ℕ) (timer : Timer)
    (htimer : m'.timer = Function.update m.timer t timer)
    (h : timer.cb.isSome → ∃ u, (m.timer u).cb.isSome ∧ (m.timer u).next ≤ timer.next) :
    m.Later m' := by
  intro u hu
  rw [htimer] at hu ⊢
  by_cases heq : u = t
  · subst heq
    simpa using h (by simpa using hu)
  · rw [Function.update_of_ne heq] at hu ⊢
    exact ⟨u, hu, le_refl _⟩

theorem started_of_update (t : ℕ) (timer : Timer) (hm : ∀ u, (m.timer u).Started clock)
    (htimer : m'.timer = Function.update m.timer t timer) (h : timer.Started clock) :
    ∀ u, (m'.timer u).Started clock := by
  intro u
  rw [htimer]
  by_cases heq : u = t
  · subst heq
    simpa using h
  · rw [Function.update_of_ne heq]
    exact hm u

/-- A timer that is inserted behind another one is due after it. -/
theorem addTimerLocked_cases (m : TimerManager) (t : ℕ) :
    (m.addTimerLocked t).2 = true ∨ m.tickled = true ∨
      ∃ u ∈ m.timers, (m.timer u).next ≤ (m.timer t).next := by
  cases htickled : m.tickled with
  | true => exact .inr (.inl rfl)
  | false =>
    cases hbelow : below m.key (m.key t) m.timers with
    | nil => exact .inl (by simp [addTimerLocked, atFront, hbelow, htickled])
    | cons u rest =>
      have hu : u ∈ below m.key (m.key t) m.timers := by simp [hbelow]
      have hlt : m.key u < m.key t := lt_of_mem_below hu
      refine .inr (.inr ⟨u, (List.takeWhile_sublist _).subset hu, ?_⟩)
      rcases Prod.Lex.lt_iff.mp hlt with hnext | ⟨heq, -⟩
      · exact le_of_lt hnext
      · exact le_of_eq heq

theorem addTimer_timer (now ms cb : ℕ) (recurring : Bool) (address : ℕ) :
    (m.addTimer now ms cb recurring address).1.timer = Function.update m.timer m.timerCount
      { recurring := recurring, ms := ms, next := add64 now ms, cb := some cb,
        address := address } := rfl

theorem insertion_addTimer (h : TimerInv m []) (now ms cb : ℕ) (recurring : Bool) (address : ℕ) :
    Insertion m (m.addTimer now ms cb recurring address).1
      (m.addTimer now ms cb recurring address).2 := by
  let m₁ : TimerManager :=
    { m.setTimer m.timerCount { recurring := recurring, ms := ms, next := add64 now ms,
                                cb := some cb, address := address } with
      timerCount := m.timerCount + 1 }
  have hnew : m.timerCount ∉ m.timers :=
    fun hmem ↦ lt_irrefl _ (h.made _ ((h.callback _).mpr (.inl hmem)))
  constructor
  · intro htickled
    exact (Bool.or_eq_true _ _ ▸ htickled : m.tickled = true ∨ _).symm
  · rcases m₁.addTimerLocked_cases m.timerCount with hfront | htickled | ⟨u, hu, hle⟩
    · exact .inl hfront
    · exact .inr (.inl htickled)
    · have hne : u ≠ m.timerCount := fun heq ↦ hnew (heq ▸ hu)
      refine .inr (.inr (later_of_update _ _ (addTimer_timer now ms cb recurring address) fun _ ↦ ?_))
      refine ⟨u, (h.callback u).mpr (.inl hu), ?_⟩
      simpa [m₁, setTimer, hne] using hle

theorem sub64_add64 {a b : ℕ} (ha : a < 2 ^ 64) : sub64 (add64 a b) b = a := by
  unfold sub64 add64
  omega

theorem later_cancel (h : TimerInv m []) {out : TimerManager × Bool} (hcancel : m.cancel t = .ok out) :
    m.Later out.1 ∧ out.1.tickled = m.tickled := by
  by_cases hsome : (m.timer t).cb.isSome
  · rw [h.cancel_eq hsome] at hcancel
    cases hcancel
    exact ⟨later_of_update t { m.timer t with cb := none } rfl (by simp), rfl⟩
  · rw [cancel_of_none hsome] at hcancel
    cases hcancel
    exact ⟨.refl m, rfl⟩

theorem started_cancel (h : TimerInv m []) (hstarted : ∀ u, (m.timer u).Started clock)
    {out : TimerManager × Bool} (hcancel : m.cancel t = .ok out) :
    ∀ u, (out.1.timer u).Started clock := by
  by_cases hsome : (m.timer t).cb.isSome
  · rw [h.cancel_eq hsome] at hcancel
    cases hcancel
    exact started_of_update t { m.timer t with cb := none } hstarted rfl (by nofun)
  · rw [cancel_of_none hsome] at hcancel
    cases hcancel
    exact hstarted

/-- A refresh that does not overflow puts the timer off. -/
theorem later_refresh (h : TimerInv m []) (hstarted : (m.timer t).Started clock)
    (hfit : (m.timer t).cb.isSome → clock + (m.timer t).ms < 2 ^ 64) :
    m.Later (m.refresh t clock).1 ∧ (m.refresh t clock).1.tickled = m.tickled := by
  by_cases hsome : (m.timer t).cb.isSome
  · obtain ⟨start, hstart, hnext⟩ := hstarted hsome
    have hlt := hfit hsome
    have hle : (m.timer t).next ≤ add64 clock (m.timer t).ms := by
      rw [hnext]
      unfold add64
      omega
    let timer : Timer := { m.timer t with next := add64 clock (m.timer t).ms }
    rw [h.refresh_eq hsome]
    exact ⟨later_of_update t timer rfl fun _ ↦ ⟨t, hsome, hle⟩, rfl⟩
  · rw [refresh_of_none hsome]
    exact ⟨.refl m, rfl⟩

theorem started_refresh (h : TimerInv m []) (hstarted : ∀ u, (m.timer u).Started clock) (t : ℕ) :
    ∀ u, ((m.refresh t clock).1.timer u).Started clock := by
  by_cases hsome : (m.timer t).cb.isSome
  · rw [h.refresh_eq hsome]
    exact started_of_update t { m.timer t with next := add64 clock (m.timer t).ms }
      hstarted rfl fun _ ↦ ⟨clock, le_refl _, rfl⟩
  · rw [refresh_of_none hsome]
    exact hstarted

theorem insertion_resetLocked (h : TimerInv m []) (t ms : ℕ) (fromNow : Bool) (now : ℕ) :
    Insertion m (m.resetLocked t ms fromNow now).1 (m.resetLocked t ms fromNow now).2.2 := by
  by_cases hsome : (m.timer t).cb.isSome
  · have hmem : t ∈ m.timers := ((h.callback t).mp hsome).resolve_right (by simp)
    rw [h.resetLocked_eq hsome]
    let timer : Timer :=
      { m.timer t with
        ms := ms
        next := add64 (if fromNow then now else sub64 (m.timer t).next (m.timer t).ms) ms }
    let m₁ : TimerManager := (m.eraseFound t).setTimer t timer
    constructor
    · intro htickled
      exact (Bool.or_eq_true _ _ ▸ htickled : m.tickled = true ∨ _).symm
    · rcases m₁.addTimerLocked_cases t with hfront | htickled | ⟨u, hu, hle⟩
      · exact .inl hfront
      · exact .inr (.inl htickled)
      · obtain ⟨hu, hne⟩ := (mem_eraseFound h.sorted hmem).mp hu
        refine .inr (.inr (later_of_update t timer rfl fun _ ↦ ?_))
        refine ⟨u, (h.callback u).mpr (.inl hu), ?_⟩
        simpa [m₁, setTimer, hne, eraseFound] using hle
  · rw [resetLocked_of_none hsome]
    exact (Later.refl m).insertion rfl

theorem started_resetLocked (h : TimerInv m []) (hstarted : ∀ u, (m.timer u).Started clock)
    (hclock : clock < 2 ^ 64) (t ms : ℕ) (fromNow : Bool) :
    ∀ u, ((m.resetLocked t ms fromNow clock).1.timer u).Started clock := by
  by_cases hsome : (m.timer t).cb.isSome
  · rw [h.resetLocked_eq hsome]
    let start := if fromNow then clock else sub64 (m.timer t).next (m.timer t).ms
    have hstart : start ≤ clock := by
      obtain ⟨st, hst, hnext⟩ := hstarted t hsome
      cases fromNow with
      | true => exact le_refl _
      | false =>
        have heq : start = st := by
          simp only [start, hnext]
          exact sub64_add64 (by omega)
        exact heq.trans_le hst
    exact started_of_update t { m.timer t with ms := ms, next := add64 start ms }
      hstarted rfl fun _ ↦ ⟨start, hstart, rfl⟩
  · rw [resetLocked_of_none hsome]
    exact hstarted

theorem started_expireAll {now : ℕ} (hnow : now ≤ clock) : ∀ (out : List ℕ) (m : TimerManager),
    (∀ u, (m.timer u).Started clock) → ∀ u, ((m.expireAll now out).1.timer u).Started clock
  | [], _, h => h
  | t :: out, m, h => by
    refine started_expireAll hnow out (m.expire now t) ?_
    unfold expire
    split
    · refine started_of_update t { m.timer t with next := add64 now (m.timer t).ms } h rfl fun _ ↦ ?_
      exact ⟨now, hnow, rfl⟩
    · exact started_of_update t { m.timer t with cb := none } h rfl (by nofun)

end TimerManager

open TimerManager

/-! ### Workers -/

namespace IdlePoint

/-- The worker will read the timers before it waits. -/
def Awake : IdlePoint → Prop
  | .run | .stopping | .listExpired | .expired _ | .events => True
  | _ => False

/-- The worker has read the timers and waits, or is about to. -/
def Asleep : IdlePoint → Prop
  | .epollWait _ _ | .blocked _ _ => True
  | _ => False

/-- The wait ends by the time `next`. -/
def InTime (next : ℕ) : IdlePoint → Prop
  | .epollWait now nextTimeout =>
    nextTimeout ≠ 2 ^ 64 - 1 ∧ now + epollTimeout nextTimeout ≤ max now next
  | .blocked now timeout => now + timeout ≤ max now next
  | _ => False

/-- The timeout of the worker is not negative, and its readings of the clock are not of the future.
-/
def Fit (clock : ℕ) : IdlePoint → Prop
  | .epollWait _ nextTimeout => 0 ≤ epollTimeout nextTimeout
  | .blocked _ timeout => 0 ≤ timeout
  | .expired now => now ≤ clock
  | _ => True

variable {point : IdlePoint} {next next' clock clock' : ℕ}

theorem InTime.mono (h : point.InTime next) (hle : next ≤ next') : point.InTime next' := by
  cases point with
  | epollWait now nextTimeout => exact ⟨h.1, by have := h.2; omega⟩
  | blocked now timeout =>
    simp only [InTime] at h ⊢
    omega
  | _ => exact h

theorem Fit.mono (h : point.Fit clock) (hle : clock ≤ clock') : point.Fit clock' := by
  cases point with
  | expired now => exact le_trans h hle
  | _ => exact h

theorem inIdle_of_asleep (h : point.Asleep) : point.InIdle := by
  cases point <;> simp_all [InIdle, Asleep]

theorem not_asleep_of_awake (h : point.Awake) : ¬point.Asleep := by
  cases point <;> simp_all [Awake, Asleep]

end IdlePoint

theorem mem_set_of_ne {points : List IdlePoint} {w : ℕ} {point source : IdlePoint}
    (hw : points[w]? = some source) (hpoint : point ∈ points) (hne : point ≠ source)
    (target : IdlePoint) : point ∈ points.set w target := by
  obtain ⟨v, hv⟩ := List.mem_iff_getElem?.mp hpoint
  have hvw : v ≠ w := fun heq ↦ hne (Option.some.inj ((heq ▸ hv).symm.trans hw))
  exact List.mem_iff_getElem?.mpr ⟨v, by rw [List.getElem?_set_ne hvw.symm, hv]⟩

/-! ### The invariant -/

/-- Somebody has been told, or is about to be, or will read the timers anyway. -/
def IdleSystem.Alert (s : IdleSystem) : Prop :=
  0 < s.tickling ∨ 0 < s.writing ∨ 0 < s.pipe ∨ (∃ point ∈ s.workers, point.Awake) ∨
    ∀ point ∈ s.workers, ¬point.Asleep

/-- While nobody is alert, `m_tickled` is false and some worker wakes up in time. -/
structure WakeInv (s : IdleSystem) : Prop where
  timers : TimerInv s.manager []
  clock : s.clock < 2 ^ 64
  started : ∀ t, (s.manager.timer t).Started s.clock
  points : ∀ point ∈ s.workers, point.Fit s.clock
  tickled : s.manager.tickled = true → s.Alert
  covered : s.Alert ∨ ∃ point ∈ s.workers, ∀ t ∈ s.manager.timers,
    point.InTime (s.manager.timer t).next

namespace WakeInv

variable {s s' : IdleSystem} {w : ℕ} {source target : IdlePoint}

theorem initial (n : ℕ) : WakeInv (idleSystem n).init where
  timers := TimerInv.initial
  clock := Nat.two_pow_pos 64
  started := fun t h ↦ by cases h
  points := by
    intro point hpoint
    obtain ⟨-, rfl⟩ := List.mem_replicate.mp hpoint
    trivial
  tickled := fun h ↦ by cases h
  covered := by
    refine .inl (.inr (.inr (.inr (.inr fun point hpoint ↦ ?_))))
    obtain ⟨-, rfl⟩ := List.mem_replicate.mp hpoint
    exact id

/-- Timers and workers are as they were. -/
theorem of_alert (h : WakeInv s) (hmanager : s'.manager = s.manager) (hclock : s'.clock = s.clock)
    (hworkers : s'.workers = s.workers) (halert : s'.Alert) : WakeInv s' where
  timers := hmanager ▸ h.timers
  clock := hclock ▸ h.clock
  started := by
    rw [hmanager, hclock]
    exact h.started
  points := by
    rw [hworkers, hclock]
    exact h.points
  tickled := fun _ ↦ halert
  covered := .inl halert

/-- An operation on the timers. -/
theorem inserted (h : WakeInv s) {m : TimerManager} {atFront : Bool} (hinv : TimerInv m [])
    (hstarted : ∀ t, (m.timer t).Started s.clock) (hm : Insertion s.manager m atFront) :
    WakeInv (s.inserted m atFront) := by
  have hfront : atFront = true → (s.inserted m atFront).Alert := by
    rintro rfl
    exact .inl (Nat.succ_pos _)
  have halert : s.Alert → (s.inserted m atFront).Alert := by
    rintro (htickling | hrest)
    · refine .inl ?_
      simp only [IdleSystem.inserted]
      split <;> omega
    · exact .inr hrest
  refine ⟨hinv, h.clock, hstarted, h.points, fun htickled ↦ ?_, ?_⟩
  · rcases hm.tickled htickled with hfirst | hbefore
    · exact hfront hfirst
    · exact halert (h.tickled hbefore)
  · rcases hm.later with hfirst | hbefore | hlater
    · exact .inl (hfront hfirst)
    · exact .inl (halert (h.tickled hbefore))
    · rcases h.covered with hs | ⟨point, hpoint, htime⟩
      · exact .inl (halert hs)
      · refine .inr ⟨point, hpoint, fun t ht ↦ ?_⟩
        obtain ⟨u, hu, hle⟩ := hlater t ((hinv.callback t).mpr (.inl ht))
        exact (htime u (((h.timers.callback u).mp hu).resolve_right (by simp))).mono hle

theorem points_setPoint (h : WakeInv s) (htarget : target.Fit s.clock) :
    ∀ point ∈ (s.setPoint w target).workers, point.Fit s.clock := by
  intro point hpoint
  rcases List.mem_or_eq_of_mem_set hpoint with hold | rfl
  · exact h.points point hold
  · exact htarget

/-- A worker comes to a point from which it will read the timers. -/
theorem awake (h : WakeInv s) (hw : s.workers[w]? = some source) (htarget : target.Awake)
    (hfit : target.Fit s.clock) : WakeInv (s.setPoint w target) := by
  have hlt : w < s.workers.length := (List.getElem?_eq_some_iff.mp hw).1
  have halert : (s.setPoint w target).Alert :=
    .inr (.inr (.inr (.inl ⟨target, List.mem_set hlt _, htarget⟩)))
  exact ⟨h.timers, h.clock, h.started, h.points_setPoint hfit, fun _ ↦ halert, .inl halert⟩

theorem awake_of_move (h : WakeInv s) (hmove : s.move w source target = some s')
    (htarget : target.Awake) (hfit : target.Fit s.clock) : WakeInv s' := by
  obtain ⟨hw, rfl⟩ := Option.ite_some_none_eq_some.mp hmove
  exact h.awake hw htarget hfit

/-- The worker that reads the earliest timer will wake up in time. -/
theorem getNextTimer (h : WakeInv s)
    (hfit : ∀ t ∈ s.manager.timers.head?,
      ((s.manager.timer t).next - s.clock) % 2 ^ 32 < 2 ^ 31)
    (hmove : (s.setManager (s.manager.getNextTimer s.clock).1).move w .stopping
      (.epollWait s.clock (s.manager.getNextTimer s.clock).2) = some s') : WakeInv s' := by
  obtain ⟨hw, rfl⟩ := Option.ite_some_none_eq_some.mp hmove
  have hlt : w < s.workers.length := (List.getElem?_eq_some_iff.mp hw).1
  have hreads : 0 ≤ epollTimeout (s.manager.getNextTimer s.clock).2 ∧
      ∀ t ∈ s.manager.timers, (IdlePoint.epollWait s.clock (s.manager.getNextTimer s.clock).2).InTime
        (s.manager.timer t).next := by
    cases htimers : s.manager.timers with
    | nil =>
      have hnext : (s.manager.getNextTimer s.clock).2 = 2 ^ 64 - 1 := by
        simp [TimerManager.getNextTimer, htimers]
      rw [hnext, epollTimeout_none]
      exact ⟨by decide, by simp⟩
    | cons t ts =>
      have hbit := hfit t (by simp [htimers])
      have hnext : (s.manager.getNextTimer s.clock).2 = (s.manager.timer t).next - s.clock := by
        simp only [TimerManager.getNextTimer, htimers]
        split <;> omega
      rw [hnext, epollTimeout_of_lt hbit]
      refine ⟨by omega, fun u hu ↦ ⟨by omega, ?_⟩⟩
      have hkey : s.manager.key t ≤ s.manager.key u :=
        h.timers.sorted.head_le (by simp [htimers]) (htimers ▸ hu)
      have hle : (s.manager.timer t).next ≤ (s.manager.timer u).next := Prod.Lex.monotone_fst _ _ hkey
      rw [epollTimeout_of_lt hbit]
      omega
  refine ⟨⟨h.timers.callback, h.timers.disjoint, h.timers.nodup, h.timers.sorted, h.timers.made,
    h.timers.address⟩, h.clock, h.started, h.points_setPoint hreads.1, by nofun, .inr ?_⟩
  exact ⟨_, List.mem_set hlt _, hreads.2⟩

/-- A worker that is not awake does something else. -/
theorem alert_setPoint (hw : s.workers[w]? = some source) (hsource : source.Asleep)
    (halert : s.Alert) : (s.setPoint w target).Alert := by
  rcases halert with htickling | hwriting | hpipe | ⟨point, hpoint, hawake⟩ | hnone
  · exact .inl htickling
  · exact .inr (.inl hwriting)
  · exact .inr (.inr (.inl hpipe))
  · have hne : point ≠ source := fun heq ↦ IdlePoint.not_asleep_of_awake hawake (heq ▸ hsource)
    exact .inr (.inr (.inr (.inl ⟨point, mem_set_of_ne hw hpoint hne _, hawake⟩)))
  · exact absurd hsource (hnone source (List.mem_of_getElem? hw))

/-- A worker that has seen no timer leaves. -/
theorem leave (h : WakeInv s) {now nextTimeout : ℕ}
    (hw : s.workers[w]? = some (.epollWait now nextTimeout)) (hnone : nextTimeout = 2 ^ 64 - 1) :
    WakeInv (s.setPoint w .ended) := by
  refine ⟨h.timers, h.clock, h.started, h.points_setPoint trivial,
    fun htickled ↦ alert_setPoint hw trivial (h.tickled htickled), ?_⟩
  rcases h.covered with halert | ⟨point, hpoint, htime⟩
  · exact .inl (alert_setPoint hw trivial halert)
  · by_cases heq : point = .epollWait now nextTimeout
    · -- then there is no timer, and whoever else is asleep wakes up in time
      have hempty : ∀ t, t ∉ s.manager.timers := fun t ht ↦ (heq ▸ htime t ht).1 hnone
      by_cases hasleep : ∃ point ∈ (s.setPoint w .ended).workers, point.Asleep
      · obtain ⟨other, hother, -⟩ := hasleep
        exact .inr ⟨other, hother, fun t ht ↦ absurd ht (hempty t)⟩
      · exact .inl (.inr (.inr (.inr (.inr fun other hother hsleeps ↦
          hasleep ⟨other, hother, hsleeps⟩))))
    · exact .inr ⟨point, mem_set_of_ne hw hpoint heq _, htime⟩

theorem epollWait (h : WakeInv s) {now nextTimeout : ℕ}
    (hw : s.workers[w]? = some (.epollWait now nextTimeout)) :
    WakeInv (s.setPoint w (.blocked now (epollTimeout nextTimeout))) := by
  have hlt : w < s.workers.length := (List.getElem?_eq_some_iff.mp hw).1
  have hfit : 0 ≤ epollTimeout nextTimeout := h.points _ (List.mem_of_getElem? hw)
  refine ⟨h.timers, h.clock, h.started, h.points_setPoint hfit,
    fun htickled ↦ alert_setPoint hw trivial (h.tickled htickled), ?_⟩
  rcases h.covered with halert | ⟨point, hpoint, htime⟩
  · exact .inl (alert_setPoint hw trivial halert)
  · by_cases heq : point = .epollWait now nextTimeout
    · exact .inr ⟨_, List.mem_set hlt _, fun t ht ↦ (heq ▸ htime t ht).2⟩
    · exact .inr ⟨point, mem_set_of_ne hw hpoint heq _, htime⟩

theorem listExpiredCb (h : WakeInv s) {now : ℕ} (address : ℕ)
    (hw : s.workers[w]? = some (.expired now)) :
    WakeInv ((s.setManager (s.manager.listExpiredCb now address).1).setPoint w .events) := by
  have hlt : w < s.workers.length := (List.getElem?_eq_some_iff.mp hw).1
  have hnow : now ≤ s.clock := h.points _ (List.mem_of_getElem? hw)
  have halert : ((s.setManager (s.manager.listExpiredCb now address).1).setPoint w .events).Alert :=
    .inr (.inr (.inr (.inl ⟨.events, List.mem_set hlt _, trivial⟩)))
  refine ⟨h.timers.listExpiredCb now address, h.clock, ?_, h.points_setPoint trivial,
    fun _ ↦ halert, .inl halert⟩
  change ∀ t, ((s.manager.listExpiredCb now address).1.timer t).Started s.clock
  rw [listExpiredCb_eq]
  exact started_expireAll hnow _ _ h.started

/-- `tickle` writes to the pipe, unless no worker is in `idle`. -/
theorem tickle (h : WakeInv s) : WakeInv { s.tickle with tickling := s.tickling - 1 } := by
  unfold IdleSystem.tickle
  split
  · exact h.of_alert rfl rfl rfl (.inr (.inl (Nat.succ_pos _)))
  · rename_i hnone
    refine h.of_alert rfl rfl rfl (.inr (.inr (.inr (.inr fun point hpoint hasleep ↦ hnone ?_))))
    exact List.any_eq_true.mpr ⟨point, hpoint, by simpa using IdlePoint.inIdle_of_asleep hasleep⟩

theorem wake (h : WakeInv s) : WakeInv s.tickle := by
  unfold IdleSystem.tickle
  split
  · exact h.of_alert rfl rfl rfl (.inr (.inl (Nat.succ_pos _)))
  · exact h

theorem step {n : ℕ} {a : IdleAction} (h : WakeInv s) (ha : WakeFit s a)
    (hstep : (idleSystem n).step s a = some s') : WakeInv s' := by
  have hclock := h.clock
  cases a with
  | clock now =>
    obtain ⟨⟨hle, hlt⟩, rfl⟩ := Option.ite_some_none_eq_some.mp hstep
    refine ⟨h.timers, hlt, fun t hsome ↦ ?_, fun point hpoint ↦ (h.points point hpoint).mono hle,
      h.tickled, h.covered⟩
    obtain ⟨start, hstart, hnext⟩ := h.started t hsome
    exact ⟨start, hstart.trans hle, hnext⟩
  | addTimer now ms cb recurring address =>
    obtain ⟨⟨hnow, -, haddress⟩, rfl⟩ := Option.ite_some_none_eq_some.mp hstep
    refine h.inserted (h.timers.addTimer haddress now ms cb recurring) ?_
      (insertion_addTimer h.timers now ms cb recurring address)
    exact started_of_update _ _ h.started (addTimer_timer now ms cb recurring address)
      fun _ ↦ ⟨now, hnow, rfl⟩
  | cancel t =>
    simp only [idleSystem, IdleSystem.step] at hstep
    split at hstep
    · rename_i hcancel
      cases hstep
      obtain ⟨hlater, htickled⟩ := later_cancel h.timers hcancel
      exact h.inserted (h.timers.cancel hcancel) (started_cancel h.timers h.started hcancel)
        (hlater.insertion htickled)
    · cases hstep
  | refresh t =>
    cases hstep
    obtain ⟨hlater, htickled⟩ := later_refresh h.timers (h.started t) ha
    exact h.inserted (h.timers.refresh t s.clock) (started_refresh h.timers h.started t)
      (hlater.insertion htickled)
  | reset t ms fromNow =>
    obtain ⟨-, rfl⟩ := Option.ite_some_none_eq_some.mp hstep
    exact h.inserted (h.timers.resetLocked t ms fromNow s.clock)
      (started_resetLocked h.timers h.started hclock t ms fromNow)
      (insertion_resetLocked h.timers t ms fromNow s.clock)
  | tickle =>
    obtain ⟨-, rfl⟩ := Option.ite_some_none_eq_some.mp hstep
    exact h.tickle
  | wake =>
    cases hstep
    exact h.wake
  | write =>
    obtain ⟨-, rfl⟩ := Option.ite_some_none_eq_some.mp hstep
    exact h.of_alert rfl rfl rfl (.inr (.inr (.inl (Nat.succ_pos _))))
  | stop =>
    cases hstep
    exact ⟨⟨h.timers.callback, h.timers.disjoint, h.timers.nodup, h.timers.sorted, h.timers.made,
      h.timers.address⟩, h.clock, h.started, h.points, by nofun, h.covered⟩
  | start w => exact h.awake_of_move hstep trivial trivial
  | idle w => exact h.awake_of_move hstep trivial trivial
  | getNextTimer w => exact h.getNextTimer ha hstep
  | leave w =>
    simp only [idleSystem, IdleSystem.step] at hstep
    split at hstep
    · rename_i hw
      obtain ⟨hnone, rfl⟩ := Option.ite_some_none_eq_some.mp hstep
      exact h.leave hw hnone
    · cases hstep
  | epollWait w =>
    simp only [idleSystem, IdleSystem.step] at hstep
    split at hstep
    · rename_i hw
      cases hstep
      exact h.epollWait hw
    · cases hstep
  | epollReturn w =>
    simp only [idleSystem, IdleSystem.step] at hstep
    split at hstep
    · rename_i hw
      cases hstep
      exact h.awake hw trivial trivial
    · cases hstep
  | readClock w => exact h.awake_of_move hstep trivial (le_refl _)
  | listExpiredCb w address =>
    simp only [idleSystem, IdleSystem.step] at hstep
    split at hstep
    · rename_i hw
      cases hstep
      exact h.listExpiredCb address hw
    · cases hstep
  | readPipe w =>
    obtain ⟨hw, rfl⟩ := Option.ite_some_none_eq_some.mp hstep
    exact h.of_alert rfl rfl rfl
      (.inr (.inr (.inr (.inl ⟨.events, List.mem_of_getElem? hw, trivial⟩))))
  | yield w => exact h.awake_of_move hstep trivial trivial

/-- Workers that are all blocked are not awake. -/
theorem someoneInTime (h : WakeInv s) (hblocked : s.AllBlocked) (hpipe : s.pipe = 0) :
    s.SomeoneInTime ∨ 0 < s.tickling ∨ 0 < s.writing := by
  obtain ⟨⟨now₀, timeout₀, hfirst⟩, hall⟩ := hblocked
  rcases h.covered with (htickling | hwriting | hread | ⟨point, hpoint, hawake⟩ | hnone) |
    ⟨point, hpoint, htime⟩
  · exact .inr (.inl htickling)
  · exact .inr (.inr hwriting)
  · omega
  · rcases hall point hpoint with rfl | ⟨now, timeout, rfl⟩
    · exact hawake.elim
    · exact hawake.elim
  · exact absurd trivial (hnone _ hfirst)
  · rcases hall point hpoint with rfl | ⟨now, timeout, rfl⟩
    · exact .inl ⟨now₀, timeout₀, hfirst, h.points _ hfirst, fun t ht ↦ (htime t ht).elim⟩
    · exact .inl ⟨now, timeout, hpoint, h.points _ hpoint, htime⟩

end WakeInv

/-! ### Runs -/

/-- A worker starts, sees a timer of `ms` milliseconds that was made at the time `now`, and blocks.
-/
def blockWith (now ms : ℕ) : List IdleAction :=
  [.clock now, .addTimer now ms 7 false 30, .tickle, .start 0, .idle 0, .getNextTimer 0,
    .epollWait 0]

/-- The timer is due in 2147483648 ms. -/
def longDelayRun : Run (idleSystem 1) :=
  .ofActions (idleSystem 1) (blockWith 1700000000000 (2 ^ 31)) (by decide +kernel)

/-- The due time of the timer is below `2 ^ 64` at first, and overflows when it is refreshed. -/
def overflowRun : Run (idleSystem 1) :=
  .ofActions (idleSystem 1)
    (blockWith 2199023250500 (2 ^ 64 - 2 ^ 41 + 5000) ++ [.clock 2199023250600, .refresh 0])
    (by decide +kernel)

/-- The timer is due in 5 ms. -/
def shortDelayRun : Run (idleSystem 1) :=
  .ofActions (idleSystem 1) (blockWith 1700000000000 5) (by decide +kernel)

/-- The only worker is blocked, and not in time. -/
theorem not_someoneInTime {s : IdleSystem} {now t : ℕ} {timeout : ℤ}
    (hworkers : s.workers = [.blocked now timeout]) (ht : t ∈ s.manager.timers)
    (hlate : timeout < 0 ∨ max now (s.manager.timer t).next < now + timeout) :
    s.AllBlocked ∧ ¬s.SomeoneInTime := by
  refine ⟨⟨⟨now, timeout, by simp [hworkers]⟩, fun point hpoint ↦ .inr ?_⟩, ?_⟩
  · rw [hworkers] at hpoint
    exact ⟨now, timeout, List.mem_singleton.mp hpoint⟩
  · rintro ⟨now', timeout', hmem, hpos, htime⟩
    rw [hworkers] at hmem
    cases List.mem_singleton.mp hmem
    have := htime t ht
    omega

/-- In both runs the worker is blocked, nothing is in the pipe and nobody is about to write to it,
and the worker does not wake up in time; in the first it never does. -/
theorem timerWakeup_late :
    (longDelayRun.state 7).workers = [.blocked 1700000000000 (-2147483648)] ∧
      ((longDelayRun.state 7).AllBlocked ∧ ¬(longDelayRun.state 7).SomeoneInTime) ∧
      (longDelayRun.state 7).pipe = 0 ∧ (longDelayRun.state 7).tickling = 0 ∧
      (longDelayRun.state 7).writing = 0 ∧
      ((overflowRun.state 9).AllBlocked ∧ ¬(overflowRun.state 9).SomeoneInTime) ∧
      (overflowRun.state 9).pipe = 0 ∧ (overflowRun.state 9).tickling = 0 ∧
      (overflowRun.state 9).writing = 0 := by
  have hlong : (longDelayRun.state 7).workers = [.blocked 1700000000000 (-2147483648)] := by
    decide +kernel
  have hoverflow : (overflowRun.state 9).workers = [.blocked 2199023250500 1000] := by
    decide +kernel
  refine ⟨hlong, not_someoneInTime (t := 0) hlong (by decide +kernel) (.inl (by decide)),
    by decide +kernel, by decide +kernel, by decide +kernel,
    not_someoneInTime (t := 0) hoverflow (by decide +kernel) (.inr (by decide +kernel)),
    by decide +kernel, by decide +kernel, by decide +kernel⟩

/-- No worker waits without end, and while all are blocked and nothing is in the pipe, one of them
wakes up in time, or a call that has inserted a timer is still to write to the pipe. -/
theorem timerWakeup {n : ℕ} (r : Run (idleSystem n)) (hr : r.Obeys WakeFit) (k : ℕ) :
    (∀ now timeout, .blocked now timeout ∈ (r.state k).workers → 0 ≤ timeout) ∧
      ((r.state k).AllBlocked → (r.state k).pipe = 0 →
        (r.state k).SomeoneInTime ∨ 0 < (r.state k).tickling ∨ 0 < (r.state k).writing) := by
  have h : WakeInv (r.state k) :=
    r.invariant (WakeInv.initial n) (fun _ _ _ h ha hstep ↦ h.step ha hstep) hr k
  exact ⟨fun now timeout hblocked ↦ h.points _ hblocked, h.someoneInTime⟩

theorem timerWakeup_shortDelay :
    (shortDelayRun.state 7).SomeoneInTime ∨ 0 < (shortDelayRun.state 7).tickling ∨
      0 < (shortDelayRun.state 7).writing := by
  have hfit : shortDelayRun.Obeys WakeFit := (Run.obeys_ofActions_iff _ _).mpr (by decide +kernel)
  have hworkers : (shortDelayRun.state 7).workers = [.blocked 1700000000000 5] := by decide +kernel
  refine (timerWakeup shortDelayRun hfit 7).2 ⟨⟨1700000000000, 5, by simp [hworkers]⟩, ?_⟩
    (by decide +kernel)
  intro point hpoint
  rw [hworkers] at hpoint
  exact .inr ⟨_, _, List.mem_singleton.mp hpoint⟩

end Rsylar
