import Rsylar.Sylar.HookedWait

/-!
# The timeout of a hooked call

The timer of a wait is armed before the event of the wait is added, and its callback acts once: it
cancels whatever is registered when it runs, and it does nothing when `tinfo->cancelled` is set.
When the callback runs before `addEvent`, as in `earlyTimeoutRun`, or when the callback of an
earlier wait of the same call has set `tinfo->cancelled`, no timeout comes any more and the fiber
may wait forever. These are the only ways (`noLostTimeout`), besides a `cancelEvent` that does not
find the event or is refused by the kernel.
-/

set_option autoImplicit false
set_option relaxedAutoImplicit false

namespace Rsylar

open TransitionSystem

/-! ### The property and the condition -/

/-- The fiber waits for its event and the callback of its timer has not finished. -/
structure AwaitsTimer (s : HookSystem) (c : HookedCall) : Prop where
  registered : ∃ i, c.point = .suspended i ∧ s.iom.Registered i c.event c.fiber
  timer : ∃ t ∈ c.timer, t.Pending

/-- A fiber that is suspended with a timeout, and is not about to be resumed, has both to wake it.
-/
def NoLostTimeout (s : HookSystem) : Prop :=
  ∀ c ∈ s.calls, c.timeout.isSome → c.Suspended → ¬s.iom.HasTask c.fiber → AwaitsTimer s c

namespace HookedCall

/-- The fiber has armed its timer and has not been resumed. -/
def Waits (c : HookedCall) : Prop :=
  match c.point with
  | .addEvent | .yield _ | .suspended _ => True
  | _ => False

instance (c : HookedCall) : Decidable c.Waits :=
  match c with
  | { point := .addEvent, .. } | { point := .yield _, .. } | { point := .suspended _, .. } =>
    instDecidableTrue
  | { point := .direct, .. } | { point := .call, .. } | { point := .again, .. }
  | { point := .addFailed, .. } | { point := .resumed, .. } | { point := .check, .. }
  | { point := .getsockopt, .. } | { point := .returned _, .. } => instDecidableFalse

end HookedCall

/-- The callback of the timer of a wait that goes on does not find `tinfo->cancelled` set, and its
`cancelEvent` comes after `addEvent`, finds the event and is not refused. -/
def TimeoutFit (s : HookSystem) : HookAction → Prop
  | .move k (.timerCheck none) => ∀ c ∈ s.calls[k]?, c.Waits → ¬s.iom.HasTask c.fiber →
    c.cancelled = false
  | .timerCancelEvent k none i ok => ∀ c ∈ s.calls[k]?, c.Waits → ¬s.iom.HasTask c.fiber →
    (c.point = .yield i ∨ c.point = .suspended i) ∧ s.iom.Cancels i c.fd c.event ok
  | _ => True

instance : DecidableRel TimeoutFit := fun s a ↦ by
  unfold TimeoutFit
  split <;> infer_instance

/-! ### A call that waits -/

/-- A fiber that waits will be resumed by its event or by its timer. -/
structure TimedWait (iom : IOManager) (c : HookedCall) : Prop where
  wakes : ∀ i, c.point = .yield i ∨ c.point = .suspended i →
    iom.Registered i c.event c.fiber ∨ iom.HasTask c.fiber
  timer : c.Waits → c.timeout.isSome →
    ∃ t, c.timer = some t ∧ t ≠ .removed ∧ (t = .finished → iom.HasTask c.fiber)

namespace TimedWait

variable {iom iom' : IOManager} {c c' : HookedCall}

theorem of_not_waits (h : ¬c.Waits) : TimedWait iom c where
  wakes := by
    rintro i (hpoint | hpoint)
    all_goals exact absurd (by unfold HookedCall.Waits; rw [hpoint]; trivial) h
  timer := fun hwaits ↦ absurd hwaits h

theorem of_point {point : HookPoint} (hpoint : c.point = point)
    (h : ¬({ c with point := point } : HookedCall).Waits) : TimedWait iom c := by
  subst hpoint
  exact of_not_waits h

theorem of_addEvent (hpoint : c.point = .addEvent) (htimer : c.timeout.isSome →
    ∃ t, c.timer = some t ∧ t ≠ .removed ∧ (t = .finished → iom.HasTask c.fiber)) :
    TimedWait iom c where
  wakes := by
    rintro i (heq | heq)
    all_goals cases hpoint.symm.trans heq
  timer := fun _ ↦ htimer

theorem mono (h : TimedWait iom c) (hwakes : Wakes c.fiber iom iom') : TimedWait iom' c where
  wakes := by
    intro i hpoint
    rcases h.wakes i hpoint with hregistered | htask
    · exact hwakes.registered i c.event hregistered
    · exact .inr (hwakes.task htask)
  timer := by
    intro hwaits htimeout
    obtain ⟨t, ht, hremoved, hfinished⟩ := h.timer hwaits htimeout
    exact ⟨t, ht, hremoved, fun heq ↦ hwakes.task (hfinished heq)⟩

/-- The timer of an earlier wait does not matter. -/
theorem setTimer_earlier (h : TimedWait iom c) (t : TimerState) (j : ℕ) :
    TimedWait iom (c.setTimer t (some j)) :=
  ⟨h.wakes, h.timer⟩

/-- The timer of the wait has gone on. -/
theorem setTimer (h : TimedWait iom c) {t : TimerState} (hremoved : t ≠ .removed)
    (hfinished : c.Waits → t = .finished → iom.HasTask c.fiber) :
    TimedWait iom (c.setTimer t none) where
  wakes := h.wakes
  timer := fun hwaits _ ↦ ⟨t, rfl, hremoved, hfinished hwaits⟩

theorem setTimer_any (h : TimedWait iom c) {t : TimerState} (hremoved : t ≠ .removed)
    (hfinished : t ≠ .finished) (j : Option ℕ) : TimedWait iom (c.setTimer t j) := by
  cases j with
  | none => exact h.setTimer hremoved fun _ heq ↦ absurd heq hfinished
  | some j => exact h.setTimer_earlier t j

/-- A move of the call itself. -/
theorem move {s : HookSystem} {k : ℕ} {move : HookMove} (h : TimedWait s.iom c)
    (hc : s.calls[k]? = some c) (ha : TimeoutFit s (.move k move)) (hmove : c.step move = some c') :
    TimedWait s.iom c' := by
  cases move with
  | io res =>
    simp only [HookedCall.step, HookedCall.io] at hmove
    split at hmove
    · split at hmove <;> cases hmove <;> exact of_not_waits id
    · rename_i hpoint
      split at hmove
      · cases hmove
        exact of_not_waits id
      · cases hmove
        exact h
      · cases hmove
        exact of_not_waits id
      · cases hmove
        exact of_not_waits id
    · cases hmove
  | addTimer =>
    simp only [HookedCall.step, Option.bind_eq_bind, Option.bind_eq_some_iff,
      Option.guard_eq_some'] at hmove
    obtain ⟨_, -, hmove⟩ := hmove
    split at hmove
    · cases hmove
      exact of_addEvent rfl fun _ ↦ ⟨.armed, rfl, by simp, by simp⟩
    · rename_i htimeout
      cases hmove
      exact of_addEvent rfl fun hsome ↦ absurd hsome htimeout
  | addFailed =>
    simp only [HookedCall.step, Option.bind_eq_bind, Option.bind_eq_some_iff,
      Option.guard_eq_some', Option.some.injEq] at hmove
    obtain ⟨_, -, rfl⟩ := hmove
    refine of_not_waits ?_
    simp only [HookedCall.Waits]
    split_ifs <;> exact id
  | yield =>
    simp only [HookedCall.step] at hmove
    split at hmove
    · rename_i i hpoint
      cases hmove
      refine ⟨?_, fun _ htimeout ↦ h.timer (by simp [HookedCall.Waits, hpoint]) htimeout⟩
      rintro j (heq | heq)
      · cases heq
      · cases heq
        exact h.wakes i (.inl hpoint)
    · cases hmove
  | cancelTimer =>
    simp only [HookedCall.step, Option.bind_eq_bind, Option.bind_eq_some_iff,
      Option.guard_eq_some', Option.some.injEq] at hmove
    obtain ⟨_, -, rfl⟩ := hmove
    exact of_not_waits id
  | check =>
    simp only [HookedCall.step, Option.bind_eq_bind, Option.bind_eq_some_iff,
      Option.guard_eq_some', Option.some.injEq] at hmove
    obtain ⟨_, -, rfl⟩ := hmove
    refine of_not_waits ?_
    simp only [HookedCall.Waits]
    split_ifs <;> exact id
  | getsockopt error =>
    simp only [HookedCall.step, Option.bind_eq_bind, Option.bind_eq_some_iff,
      Option.guard_eq_some', Option.some.injEq] at hmove
    obtain ⟨_, -, rfl⟩ := hmove
    exact of_not_waits id
  | expire j =>
    simp only [HookedCall.step, Option.bind_eq_bind, Option.bind_eq_some_iff,
      Option.guard_eq_some', Option.some.injEq] at hmove
    obtain ⟨_, -, rfl⟩ := hmove
    exact h.setTimer_any (t := .expired) (by simp) (by simp) j
  | timerCheck j =>
    simp only [HookedCall.step, Option.bind_eq_bind, Option.bind_eq_some_iff,
      Option.guard_eq_some', Option.some.injEq] at hmove
    obtain ⟨_, -, rfl⟩ := hmove
    cases j with
    | some j => exact h.setTimer_earlier _ j
    | none =>
      refine h.setTimer (by split_ifs <;> simp) fun hwaits heq ↦ ?_
      by_contra htask
      -- the call has not returned, and `cancelled` is not set
      have hcancelled := ha c hc hwaits htask
      have hreturned : ¬c.Returned := by
        rintro ⟨error, hpoint⟩
        simp only [HookedCall.Waits, hpoint] at hwaits
      rw [if_neg (by simp [hcancelled, hreturned])] at heq
      cases heq
  | timerSet j =>
    simp only [HookedCall.step, Option.bind_eq_bind, Option.bind_eq_some_iff,
      Option.guard_eq_some', Option.some.injEq] at hmove
    obtain ⟨_, -, rfl⟩ := hmove
    have hset := h.setTimer_any (t := .cancelling) (by simp) (by simp) j
    exact ⟨hset.wakes, hset.timer⟩

/-- What one step preserves. -/
theorem step {s s' : HookSystem} {k : ℕ} {a : HookAction} (h : TimedWait s.iom c)
    (hc : s.calls[k]? = some c) (ha : TimeoutFit s a) (hstep : CallStep s s' k c a c') :
    TimedWait s'.iom c' := by
  cases hstep with
  | idle a hwakes =>
    by_cases hreturned : c.Returned
    · obtain ⟨error, hpoint⟩ := hreturned
      exact of_point hpoint id
    · exact h.mono (hwakes hreturned)
  | move move c' hmove hiom =>
    rw [hiom]
    exact h.move hc ha hmove
  | addEvent i scheduler ok rt hpoint hfinds hadd =>
    have hwaits : c.Waits := by simp [HookedCall.Waits, hpoint]
    have hwakes : Wakes c.fiber s.iom s'.iom := IOManager.wakes_addEvent hadd
    have hmono := h.mono hwakes
    cases rt with
    | false => exact of_not_waits id
    | true =>
      refine ⟨?_, fun _ htimeout ↦ hmono.timer hwaits htimeout⟩
      rintro j (heq | heq)
      · cases heq
        exact .inl (IOManager.registered_addEvent hfinds.1 hadd)
      · cases heq
  | resume scheduler i hpoint => exact of_not_waits id
  | timerCancelEvent j i ok rt htimer hcancel =>
    have hwakes : Wakes c.fiber s.iom s'.iom := IOManager.wakes_cancelEvent hcancel
    have hmono := h.mono hwakes
    cases j with
    | some j => exact hmono.setTimer_earlier _ j
    | none =>
      refine hmono.setTimer (by simp) fun hwaits _ ↦ ?_
      by_cases htask : s.iom.HasTask c.fiber
      · exact hwakes.task htask
      · -- the event is registered, so the callback triggers it
        obtain ⟨hpoint, hcancels⟩ := ha c hc hwaits htask
        have hregistered := (h.wakes i hpoint).resolve_right htask
        exact hregistered.cancelEvent hcancels hcancel

end TimedWait

/-! ### Every run -/

structure TimedInv (s : HookSystem) : Prop where
  exclusive : s.Exclusive
  timed : ∀ (k : ℕ) (c : HookedCall), s.calls[k]? = some c → TimedWait s.iom c

namespace TimedInv

variable {s s' : HookSystem} {a : HookAction}

theorem initial : TimedInv hookSystem.init where
  exclusive := exclusive_init
  timed := fun k c hc ↦ by
    cases (List.getElem?_nil : ([] : List HookedCall)[k]? = none).symm.trans hc

theorem step (h : TimedInv s) (ha : TimeoutFit s a) (hstep : s.step a = some s') : TimedInv s' where
  exclusive := h.exclusive.step hstep
  timed := by
    intro k c' hc'
    cases hc : s.calls[k]? with
    | some c =>
      obtain ⟨d, hd, hcall⟩ := HookSystem.callStep h.exclusive hstep hc
      obtain rfl : d = c' := Option.some.inj (hd.symm.trans hc')
      exact (h.timed k c hc).step hc ha hcall
    | none =>
      -- a call that has just begun does not wait
      rcases (HookSystem.begun_of_step hstep hc hc').point with hpoint | hpoint | hpoint
      all_goals exact .of_point hpoint id

theorem awaitsTimer (h : TimedInv s) : NoLostTimeout s := by
  intro c hmem htimeout hsuspended htask
  obtain ⟨k, hc⟩ := List.getElem?_of_mem hmem
  obtain ⟨i, hpoint⟩ := hsuspended
  have hwait := h.timed k c hc
  obtain ⟨t, ht, hremoved, hfinished⟩ :=
    hwait.timer (by simp [HookedCall.Waits, hpoint]) htimeout
  exact ⟨⟨i, hpoint, (hwait.wakes i (.inr hpoint)).resolve_right htask⟩,
    ⟨t, ht, fun heq ↦ htask (hfinished heq), hremoved⟩⟩

end TimedInv

/-- No timeout is lost: in a run of any fibers, timers and threads that meets the condition, a fiber
that is suspended with a timeout is woken by its event or by its timer. -/
theorem noLostTimeout (r : Run hookSystem) (hr : r.Obeys TimeoutFit) (k : ℕ) :
    NoLostTimeout (r.state k) :=
  (r.invariant TimedInv.initial (fun _ _ _ h ha hstep ↦ h.step ha hstep) hr k).awaitsTimer

/-! ### Two timeouts -/

/-- A fiber finds nothing to read on a socket with a timeout and arms its timer. -/
def readWithTimeout : List HookAction :=
  [.socket 5 true, .setTimeout 5 (some 1) .rcvtimeo, .doIo 1 5 .read .rcvtimeo true,
    .move 0 (.io .again), .move 0 .addTimer]

/-- The timer expires while the fiber waits, and the call returns. -/
def lateTimeoutRun : Run hookSystem :=
  Run.ofActions hookSystem (readWithTimeout ++ [.addEvent 0 5 (some 0) true, .move 0 .yield,
    .move 0 (.expire none), .move 0 (.timerCheck none), .move 0 (.timerSet none),
    .timerCancelEvent 0 none 5 true, .resume 0 0, .move 0 .cancelTimer, .move 0 .check])
    (by decide +kernel)

/-- The fiber is suspended then. -/
theorem noLostTimeout_lateTimeout : NoLostTimeout (lateTimeoutRun.state 7) :=
  noLostTimeout lateTimeoutRun ((Run.obeys_ofActions_iff hookSystem _).mpr (by decide +kernel)) 7

/-- The callback finishes before the fiber has added its event. -/
def earlyTimeoutRun : Run hookSystem :=
  Run.ofActions hookSystem (readWithTimeout ++ [.move 0 (.expire none), .move 0 (.timerCheck none),
    .move 0 (.timerSet none), .timerCancelEvent 0 none 5 true, .addEvent 0 5 (some 0) true,
    .move 0 .yield])
    (by decide +kernel)

/-- The fiber is suspended, and its timer is finished. -/
theorem noLostTimeout_earlyTimeout : ¬∀ k : ℕ, NoLostTimeout (earlyTimeoutRun.state k) := by
  intro h
  have htimer : ∀ c ∈ (earlyTimeoutRun.state 11).calls, c.timeout.isSome → c.Suspended →
      ¬(earlyTimeoutRun.state 11).iom.HasTask c.fiber → ∃ t ∈ c.timer, t.Pending :=
    fun c hc htimeout hsuspended htask ↦ (h 11 c hc htimeout hsuspended htask).timer
  exact absurd htimer (by decide +kernel)

end Rsylar
