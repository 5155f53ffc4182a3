import Rsylar.Sylar.HookedWait

/-!
# A descriptor that is closed during a call

`do_io` looks for its `FdCtx` once, and nothing ever sets `m_isClosed`. `close` wakes the fibers
that wait on the descriptor, and they call again: on a descriptor that is closed, or that belongs to
another connection by then, as in `reusedDescriptorRun`. Only a call that has been timed out before,
or whose `addEvent` has failed, returns without a further call (`closedStayClosed`).
-/

set_option autoImplicit false
set_option relaxedAutoImplicit false

namespace Rsylar

open TransitionSystem

/-! ### The property and the condition -/

/-- From moment `j` on call `k` makes no underlying call. It does not wait, and it fails. -/
structure FailsAfter (r : Run hookSystem) (j k : ℕ) : Prop where
  noCall : ∀ m > j, ∀ res, r.act m ≠ some (.move k (.io res))
  resumed : ∀ m > j, ∀ c ∈ (r.state m).calls[k]?, c.Suspended → (r.state m).iom.HasTask c.fiber
  error : ∀ m > j, ∀ c ∈ (r.state m).calls[k]?, c.Returned → c.point = .returned true

/-- A call of `do_io` that has begun before `close_f` fails after it. -/
def ClosedStayClosed (r : Run hookSystem) : Prop :=
  ∀ (j l k : ℕ) (d : Closer) (c : HookedCall), r.act j = some (.closeF l) →
    (r.state j).closers[l]? = some d → (r.state j).calls[k]? = some c → c.kind = .doIo →
    c.fd = d.fd → ¬c.Returned → FailsAfter r j k

/-- The call has been timed out and is on its way, or `addEvent` has failed, or it has failed. -/
def HookedCall.Failing (iom : IOManager) (c : HookedCall) : Prop :=
  match c.point with
  | .addFailed | .returned true => True
  | .resumed | .check => c.cancelled = true
  | .yield _ | .suspended _ => c.cancelled = true ∧ iom.HasTask c.fiber
  | _ => False

instance (iom : IOManager) (c : HookedCall) : Decidable (c.Failing iom) := by
  unfold HookedCall.Failing
  split <;> infer_instance

/-- `close_f` finds no other call of `do_io` for its descriptor. -/
def CloseFit (s : HookSystem) : HookAction → Prop
  | .closeF l => ∀ d ∈ s.closers[l]?, ∀ c ∈ s.calls, c.kind = .doIo → c.fd = d.fd →
    ¬c.Returned → c.Failing s.iom
  | _ => True

instance : DecidableRel CloseFit := fun s a ↦ by
  unfold CloseFit
  split <;> infer_instance

/-! ### A call that fails -/

namespace HookedCall

variable {s s' : HookSystem} {k : ℕ} {a : HookAction} {iom iom' : IOManager} {c c' : HookedCall}

theorem failing_of_point {point : HookPoint} (hpoint : c.point = point)
    (h : ({ c with point := point } : HookedCall).Failing iom) : c.Failing iom := by
  subst hpoint
  exact h

theorem Failing.point {point : HookPoint} (h : c.Failing iom) (hpoint : c.point = point) :
    ({ c with point := point } : HookedCall).Failing iom := by
  subst hpoint
  exact h

theorem Failing.returned (h : c.Failing iom) (hreturned : c.Returned) :
    c.point = .returned true := by
  obtain ⟨error, hpoint⟩ := hreturned
  cases error with
  | false => exact (h.point hpoint).elim
  | true => exact hpoint

theorem failing_of_returned (h : c.point = .returned true) : c.Failing iom :=
  failing_of_point h trivial

theorem Failing.mono (h : c.Failing iom) (htask : iom.HasTask c.fiber → iom'.HasTask c.fiber) :
    c.Failing iom' := by
  cases hpoint : c.point with
  | yield i =>
    obtain ⟨hcancelled, hhas⟩ := h.point hpoint
    exact failing_of_point hpoint ⟨hcancelled, htask hhas⟩
  | suspended i =>
    obtain ⟨hcancelled, hhas⟩ := h.point hpoint
    exact failing_of_point hpoint ⟨hcancelled, htask hhas⟩
  | returned error => exact failing_of_returned (h.returned ⟨error, hpoint⟩)
  | _ => exact failing_of_point hpoint (h.point hpoint)

/-- It does not call again. -/
theorem Failing.io_eq_none (h : c.Failing iom) (res : CallResult) : c.io res = none := by
  unfold io
  split
  · rename_i hpoint
    exact (h.point hpoint).elim
  · rename_i hpoint
    exact (h.point hpoint).elim
  · rfl

theorem Failing.setTimer (h : c.Failing iom) (t : TimerState) (j : Option ℕ) :
    (c.setTimer t j).Failing iom := by
  cases j <;> exact h

theorem Failing.move {move : HookMove} (h : c.Failing iom) (hkind : c.kind = .doIo)
    (hmove : c.step move = some c') : c'.Failing iom := by
  cases move with
  | io res =>
    cases (h.io_eq_none res).symm.trans hmove
  | addTimer =>
    simp only [step, Option.bind_eq_bind, Option.bind_eq_some_iff, Option.guard_eq_some'] at hmove
    obtain ⟨_, hpoint, -⟩ := hmove
    exact (h.point hpoint).elim
  | addFailed =>
    simp only [step, Option.bind_eq_bind, Option.bind_eq_some_iff, Option.guard_eq_some',
      Option.some.injEq] at hmove
    obtain ⟨_, -, rfl⟩ := hmove
    exact failing_of_point (if_pos hkind) trivial
  | yield =>
    simp only [step] at hmove
    split at hmove
    · rename_i hpoint
      cases hmove
      obtain ⟨hcancelled, hhas⟩ := h.point hpoint
      exact ⟨hcancelled, hhas⟩
    · cases hmove
  | cancelTimer =>
    simp only [step, Option.bind_eq_bind, Option.bind_eq_some_iff, Option.guard_eq_some',
      Option.some.injEq] at hmove
    obtain ⟨_, hpoint, rfl⟩ := hmove
    exact h.point hpoint
  | check =>
    simp only [step, Option.bind_eq_bind, Option.bind_eq_some_iff, Option.guard_eq_some',
      Option.some.injEq] at hmove
    obtain ⟨_, hpoint, rfl⟩ := hmove
    have hcancelled : c.cancelled = true := h.point hpoint
    exact failing_of_point (if_pos hcancelled) trivial
  | getsockopt error =>
    simp only [step, Option.bind_eq_bind, Option.bind_eq_some_iff, Option.guard_eq_some',
      Option.some.injEq] at hmove
    obtain ⟨_, hpoint, rfl⟩ := hmove
    exact (h.point hpoint).elim
  | expire j | timerCheck j =>
    simp only [step, Option.bind_eq_bind, Option.bind_eq_some_iff, Option.guard_eq_some',
      Option.some.injEq] at hmove
    obtain ⟨_, -, rfl⟩ := hmove
    exact h.setTimer _ j
  | timerSet j =>
    simp only [step, Option.bind_eq_bind, Option.bind_eq_some_iff, Option.guard_eq_some',
      Option.some.injEq] at hmove
    obtain ⟨_, -, rfl⟩ := hmove
    -- `cancelled` is set, which no point minds
    have hset := h.setTimer .cancelling j
    unfold Failing at hset ⊢
    dsimp only
    split at hset <;> simp_all

/-- What one step preserves. -/
theorem Failing.step (h : c.Failing s.iom) (hkind : c.kind = .doIo)
    (hstep : CallStep s s' k c a c') : c'.Failing s'.iom := by
  cases hstep with
  | idle a hwakes =>
    by_cases hreturned : c.Returned
    · exact failing_of_returned (h.returned hreturned)
    · exact h.mono (hwakes hreturned).task
  | move move c' hmove hiom =>
    rw [hiom]
    exact h.move hkind hmove
  | addEvent i scheduler ok rt hpoint => exact (h.point hpoint).elim
  | resume scheduler i hpoint => exact (h.point hpoint).1
  | timerCancelEvent j i ok rt htimer hcancel =>
    exact (h.mono (IOManager.wakes_cancelEvent hcancel).task).setTimer _ j

theorem Failing.suspended (h : c.Failing iom) (hsuspended : c.Suspended) : iom.HasTask c.fiber := by
  obtain ⟨i, hpoint⟩ := hsuspended
  exact (h.point hpoint).2

end HookedCall

/-! ### Every run -/

theorem CallStep.kind {s s' : HookSystem} {k : ℕ} {a : HookAction} {c c' : HookedCall}
    (h : CallStep s s' k c a c') : c'.kind = c.kind := by
  cases h with
  | move move c' hmove hiom => exact (HookedCall.sameCall_step hmove).kind
  | timerCancelEvent j => exact (HookedCall.sameCall_setTimer .finished j).kind
  | _ => rfl

/-- A call that fails goes on failing. -/
theorem failing_after (r : Run hookSystem) {j m k : ℕ} {c : HookedCall} (hjm : j ≤ m)
    (hc : (r.state j).calls[k]? = some c) (hkind : c.kind = .doIo)
    (h : c.Failing (r.state j).iom) :
    ∃ c', (r.state m).calls[k]? = some c' ∧ c'.kind = .doIo ∧ c'.Failing (r.state m).iom := by
  induction m, hjm using Nat.le_induction with
  | base => exact ⟨c, hc, hkind, h⟩
  | succ m hjm ih =>
    obtain ⟨c₁, hc₁, hkind₁, h₁⟩ := ih
    cases ha : r.act m with
    | none =>
      rw [r.pause m ha]
      exact ⟨c₁, hc₁, hkind₁, h₁⟩
    | some a =>
      obtain ⟨c₂, hc₂, hcall⟩ := HookSystem.callStep (exclusive r m) (r.next m a ha) hc₁
      exact ⟨c₂, hc₂, hcall.kind.trans hkind₁, h₁.step hkind₁ hcall⟩

/-- Closed descriptors stay closed: in a run of any fibers and threads that meets the condition, a
call of `do_io` makes no underlying call after its descriptor has been closed, and it returns an
error. -/
theorem closedStayClosed (r : Run hookSystem) (hr : r.Obeys CloseFit) : ClosedStayClosed r := by
  intro j l k d c hact hd hc hkind hfd hreturned
  have hfailing : c.Failing (r.state j).iom :=
    hr j _ hact d hd c (List.mem_of_getElem? hc) hkind hfd hreturned
  have hafter : ∀ m > j, ∀ c' ∈ (r.state m).calls[k]?, c'.Failing (r.state m).iom := by
    intro m hm c' hc'
    obtain ⟨c₁, hc₁, -, h₁⟩ := failing_after r hm.le hc hkind hfailing
    obtain rfl : c₁ = c' := Option.some.inj (hc₁.symm.trans hc')
    exact h₁
  refine ⟨fun m hm res hio ↦ ?_, fun m hm c' hc' ↦ (hafter m hm c' hc').suspended,
    fun m hm c' hc' ↦ (hafter m hm c' hc').returned⟩
  obtain ⟨s', hstep⟩ : ∃ s', (r.state m).step (.move k (.io res)) = some s' := ⟨_, r.next m _ hio⟩
  cases (HookSystem.step_cases hstep).2 with
  | move _ _ c₁ c₂ hc₁ hmove => cases ((hafter m hm c₁ hc₁).io_eq_none res).symm.trans hmove

/-! ### Two closes -/

/-- The fiber has been timed out when its descriptor is closed. -/
def closeTimedOutRun : Run hookSystem :=
  Run.ofActions hookSystem [.socket 5 true, .setTimeout 5 (some 1) .rcvtimeo,
    .doIo 1 5 .read .rcvtimeo true, .move 0 (.io .again), .move 0 .addTimer,
    .addEvent 0 5 (some 0) true, .move 0 .yield, .move 0 (.expire none), .move 0 (.timerCheck none),
    .move 0 (.timerSet none), .timerCancelEvent 0 none 5 true, .close 5 true, .closeDel 0, .closeF 0,
    .resume 0 0, .move 0 .cancelTimer, .move 0 .check]
    (by decide +kernel)

theorem closedStayClosed_timedOut : ClosedStayClosed closeTimedOutRun :=
  closedStayClosed closeTimedOutRun ((Run.obeys_ofActions_iff hookSystem _).mpr (by decide +kernel))

/-- A fiber waits to read, its descriptor is closed, and a new socket gets the same number. -/
def reusedDescriptorRun : Run hookSystem :=
  Run.ofActions hookSystem [.socket 5 true, .doIo 1 5 .read .rcvtimeo true, .move 0 (.io .again),
    .move 0 .addTimer, .addEvent 0 5 (some 0) true, .move 0 .yield, .close 5 true,
    .closeCancelAll 0 5 true, .closeDel 0, .closeF 0, .socket 5 true, .resume 0 0,
    .move 0 .cancelTimer, .move 0 .check, .move 0 (.io (.done false))]
    (by decide +kernel)

/-- It reads from the new socket. -/
theorem closedStayClosed_reusedDescriptor : ¬ClosedStayClosed reusedDescriptorRun := by
  intro h
  have hfails : FailsAfter reusedDescriptorRun 9 0 :=
    h 9 0 0 ⟨5, .closeF⟩ ⟨.doIo, 1, 5, .read, none, .suspended 5, false, none, []⟩ rfl
      (by decide +kernel) (by decide +kernel) rfl rfl (by decide)
  exact hfails.noCall 14 (by decide) (.done false) rfl

end Rsylar
