import Rsylar.Sylar.Hook

/-!
# Fibers that wait

A fiber that has added its event is registered with it in a context until the event is triggered,
and then it is in the queue of its scheduler until a worker takes it. Whatever is done with the
`IOManager`, a fiber that is registered stays so or gets into the queue, and none is taken out of
the queue but by the worker that resumes it (`Wakes`).
-/

set_option autoImplicit false
set_option relaxedAutoImplicit false

namespace Rsylar

open TransitionSystem

/-! ### Registered fibers and fibers in the queue -/

namespace IOManager

/-- The fiber waits for the event in context `i`. -/
structure Registered (s : IOManager) (i : ℕ) (event : Event) (fiber : ℕ) : Prop where
  made : i < s.contextCount
  event_mem : event ∈ (s.contexts i).events
  cb : ((s.contexts i).getContext event).cb = none
  fiber : ((s.contexts i).getContext event).fiber = some fiber

/-- A scheduler has the fiber in its queue. -/
def HasTask (s : IOManager) (fiber : ℕ) : Prop := ∃ task ∈ s.scheduled, task.2 = .fiber fiber

instance (s : IOManager) (fiber : ℕ) : Decidable (s.HasTask fiber) :=
  inferInstanceAs (Decidable (∃ task ∈ s.scheduled, task.2 = .fiber fiber))

end IOManager

/-- The fiber stays registered or gets into the queue, and stays in the queue. -/
structure Wakes (fiber : ℕ) (s s' : IOManager) : Prop where
  registered : ∀ (i : ℕ) (event : IOManager.Event), s.Registered i event fiber →
    s'.Registered i event fiber ∨ s'.HasTask fiber
  task : s.HasTask fiber → s'.HasTask fiber

namespace Wakes

variable {fiber : ℕ} {s s' t : IOManager}

theorem refl : Wakes fiber s s := ⟨fun _ _ h ↦ .inl h, fun h ↦ h⟩

theorem of_eq (h : s' = s) : Wakes fiber s s' := h ▸ refl

theorem trans (h : Wakes fiber s s') (h' : Wakes fiber s' t) : Wakes fiber s t where
  registered := by
    intro i event hregistered
    rcases h.registered i event hregistered with hregistered' | htask
    · exact h'.registered i event hregistered'
    · exact .inr (h'.task htask)
  task := fun htask ↦ h'.task (h.task htask)

/-- The contexts stay as they are. -/
theorem of_contexts (hcontexts : s'.contexts = s.contexts)
    (hcount : s'.contextCount = s.contextCount) (htask : s.HasTask fiber → s'.HasTask fiber) :
    Wakes fiber s s' where
  registered := fun _ _ h ↦ .inl
    { made := hcount ▸ h.made
      event_mem := hcontexts ▸ h.event_mem
      cb := hcontexts ▸ h.cb
      fiber := hcontexts ▸ h.fiber }
  task := htask

end Wakes

namespace IOManager

variable {s s' : IOManager} {i fd fiber : ℕ} {event : Event} {ok rt : Bool}

theorem HasTask.append (h : s.HasTask fiber) (hscheduled : ∃ l, s'.scheduled = s.scheduled ++ l) :
    s'.HasTask fiber := by
  obtain ⟨task, hmem, htask⟩ := h
  obtain ⟨l, hl⟩ := hscheduled
  exact ⟨task, hl ▸ List.mem_append_left l hmem, htask⟩

theorem HasTask.erase {task : ℕ × FiberOrCb} (h : s.HasTask fiber) (htask : task.2 ≠ .fiber fiber) :
    ({ s with scheduled := s.scheduled.erase task } : IOManager).HasTask fiber := by
  obtain ⟨other, hmem, hother⟩ := h
  refine ⟨other, (List.mem_erase_of_ne ?_).mpr hmem, hother⟩
  rintro rfl
  exact htask hother

theorem wakes_epollCtl {op : EpollCtlOp} {registration : Registration}
    (h : s.epollCtl op fd registration ok = some s') : Wakes fiber s s' := by
  obtain ⟨entry, -, rfl⟩ := epollCtl_some h
  exact .of_contexts rfl rfl fun htask ↦ htask

/-- What `triggerEvent` does with the fiber that is registered. -/
theorem triggerEvent_registered {c c' : FdContext} {given : Option (ℕ × FiberOrCb)}
    (h : c.triggerEvent event = .ok (c', given)) (hcb : (c.getContext event).cb = none)
    (hfiber : (c.getContext event).fiber = some fiber) :
    ∃ scheduler, given = some (scheduler, .fiber fiber) := by
  unfold FdContext.triggerEvent at h
  split at h
  · cases h
  · dsimp only at h
    split at h
    · cases h
    · rename_i scheduler _
      rw [hcb, hfiber] at h
      cases h
      exact ⟨scheduler, rfl⟩

theorem getContext_triggerEvent {c c' : FdContext} {given : Option (ℕ × FiberOrCb)} {other : Event}
    (h : c.triggerEvent event = .ok (c', given)) (hother : other ≠ event) :
    c'.getContext other = c.getContext other := by
  unfold FdContext.triggerEvent at h
  split at h
  · cases h
  · dsimp only at h
    split at h
    · cases h
    · split at h
      · cases h
        exact Function.update_of_ne hother _ _
      · cases h
        exact Function.update_of_ne hother _ _

/-- The event a fiber waits for gives it to its scheduler. -/
theorem Registered.trigger (hregistered : s.Registered i event fiber)
    (h : s.trigger i event = .ok s') : s'.HasTask fiber := by
  obtain ⟨c, given, hc, rfl⟩ := trigger_ok h
  obtain ⟨scheduler, rfl⟩ := triggerEvent_registered hc hregistered.cb hregistered.fiber
  exact ⟨(scheduler, .fiber fiber), List.mem_append_right _ (List.mem_singleton_self _), rfl⟩

theorem wakes_trigger (h : s.trigger i event = .ok s') : Wakes fiber s s' where
  registered := by
    intro j other hregistered
    by_cases hsame : j = i ∧ other = event
    · obtain ⟨rfl, rfl⟩ := hsame
      exact .inr (hregistered.trigger h)
    · left
      obtain ⟨c, given, hc, rfl⟩ := trigger_ok h
      by_cases hj : j = i
      · subst hj
        have hother : other ≠ event := fun heq ↦ hsame ⟨rfl, heq⟩
        refine ⟨hregistered.made, ?_, ?_, ?_⟩
        · simp only [Function.update_self]
          rw [(fd_triggerEvent hc).2.2]
          exact Finset.mem_erase.mpr ⟨hother, hregistered.event_mem⟩
        · simp only [Function.update_self]
          rw [getContext_triggerEvent hc hother]
          exact hregistered.cb
        · simp only [Function.update_self]
          rw [getContext_triggerEvent hc hother]
          exact hregistered.fiber
      · refine ⟨hregistered.made, ?_, ?_, ?_⟩
        all_goals simp only [Function.update_of_ne hj]
        · exact hregistered.event_mem
        · exact hregistered.cb
        · exact hregistered.fiber
  task := by
    intro htask
    obtain ⟨c, given, -, rfl⟩ := trigger_ok h
    exact htask.append ⟨_, rfl⟩

theorem wakes_triggerIf {events : Finset Event} (h : s.triggerIf i event events = .ok s') :
    Wakes fiber s s' := by
  unfold triggerIf at h
  split at h
  · exact wakes_trigger h
  · cases h
    exact .refl

/-- Either nothing is registered, or the fiber of the caller is. -/
theorem addEvent_cases {caller : Caller} (h : s.addEvent i fd event caller ok = .ok (s', rt)) :
    (rt = false ∧ s' = s) ∨ (rt = true ∧ event ∉ (s.contexts i).events ∧
      s'.contextCount = s.contextCount ∧ s'.scheduled = s.scheduled ∧
      s'.contexts = Function.update s.contexts i { s.contexts i with
        events := insert event (s.contexts i).events
        getContext := Function.update (s.contexts i).getContext event
          { scheduler := caller.scheduler
            cb := caller.cb
            fiber := if caller.cb.isSome then none else some caller.fiber } }) := by
  unfold addEvent at h
  dsimp only at h
  split at h
  · cases h
    exact .inl ⟨rfl, rfl⟩
  · rename_i hmem
    split at h
    · cases h
      exact .inl ⟨rfl, rfl⟩
    · rename_i hepoll
      split at h
      · cases h
      · split at h
        · cases h
        · cases h
          obtain ⟨entry, -, rfl⟩ := epollCtl_some hepoll
          exact .inr ⟨rfl, hmem, rfl, rfl, rfl⟩

theorem wakes_addEvent {caller : Caller} (h : s.addEvent i fd event caller ok = .ok (s', rt)) :
    Wakes fiber s s' := by
  rcases addEvent_cases h with ⟨-, rfl⟩ | ⟨-, hmem, hcount, hscheduled, hcontexts⟩
  · exact .refl
  · refine ⟨fun j other hregistered ↦ .inl ?_, fun htask ↦
      htask.append ⟨[], by rw [hscheduled, List.append_nil]⟩⟩
    by_cases hj : j = i
    · subst hj
      -- no other event is touched, and this one was not registered
      have hother : other ≠ event := by
        rintro rfl
        exact hmem hregistered.event_mem
      refine ⟨hcount ▸ hregistered.made, ?_, ?_, ?_⟩
      all_goals simp only [hcontexts, Function.update_self, Function.update_of_ne hother]
      · exact Finset.mem_insert_of_mem hregistered.event_mem
      · exact hregistered.cb
      · exact hregistered.fiber
    · refine ⟨hcount ▸ hregistered.made, ?_, ?_, ?_⟩
      all_goals simp only [hcontexts, Function.update_of_ne hj]
      · exact hregistered.event_mem
      · exact hregistered.cb
      · exact hregistered.fiber

/-- `addEvent` without a callback registers the fiber that calls it. -/
theorem registered_addEvent {scheduler : Option ℕ} (hi : i < s.contextCount)
    (h : s.addEvent i fd event { scheduler := scheduler, fiber := fiber, exec := true } ok =
      .ok (s', true)) : s'.Registered i event fiber := by
  rcases addEvent_cases h with ⟨hrt, -⟩ | ⟨-, -, hcount, -, hcontexts⟩
  · cases hrt
  · refine ⟨hcount ▸ hi, ?_, ?_, ?_⟩
    all_goals simp only [hcontexts, Function.update_self]
    · exact Finset.mem_insert_self _ _
    · rfl

theorem wakes_cancelEvent (h : s.cancelEvent i fd event ok = .ok (s', rt)) : Wakes fiber s s' := by
  unfold cancelEvent at h
  dsimp only at h
  split at h
  · cases h
    exact .refl
  · split at h
    · cases h
      exact .refl
    · rename_i hepoll
      obtain ⟨t, htrigger, h⟩ := bind_eq_ok.mp h
      cases h
      exact (wakes_epollCtl hepoll).trans (wakes_trigger htrigger)

/-- The call of `epoll_ctl` in `cancelEvent` succeeds when the event is registered. -/
def Cancels (s : IOManager) (i fd : ℕ) (event : Event) (ok : Bool) : Prop :=
  let newEvents := (s.contexts i).events.erase event
  (s.epollCtl (if newEvents = ∅ then .del else .mod) fd ⟨i, newEvents⟩ ok).isSome

instance (s : IOManager) (i fd : ℕ) (event : Event) (ok : Bool) :
    Decidable (s.Cancels i fd event ok) := inferInstanceAs (Decidable (_ = true))

/-- A fiber that is registered is in the queue after a `cancelEvent` that gets through. -/
theorem Registered.cancelEvent (hregistered : s.Registered i event fiber)
    (hcancels : s.Cancels i fd event ok) (h : s.cancelEvent i fd event ok = .ok (s', rt)) :
    s'.HasTask fiber := by
  unfold IOManager.cancelEvent at h
  simp only [if_neg (not_not.mpr hregistered.event_mem)] at h
  split at h
  · rename_i hnone
    simp only [Cancels, hnone] at hcancels
    cases hcancels
  · rename_i t hepoll
    obtain ⟨u, htrigger, h⟩ := bind_eq_ok.mp h
    cases h
    have hkept : t.Registered i event fiber := by
      obtain ⟨entry, -, rfl⟩ := epollCtl_some hepoll
      exact ⟨hregistered.made, hregistered.event_mem, hregistered.cb, hregistered.fiber⟩
    exact hkept.trigger htrigger

theorem wakes_cancelAll (h : s.cancelAll i fd ok = .ok (s', rt)) : Wakes fiber s s' := by
  unfold cancelAll at h
  dsimp only at h
  split at h
  · cases h
    exact .refl
  · split at h
    · cases h
      exact .refl
    · rename_i hepoll
      obtain ⟨t, hread, h⟩ := bind_eq_ok.mp h
      obtain ⟨u, hwrite, h⟩ := bind_eq_ok.mp h
      split at h
      · cases h
      · cases h
        exact (wakes_epollCtl hepoll).trans ((wakes_triggerIf hread).trans (wakes_triggerIf hwrite))

theorem wakes_processReport {report : Report} (h : s.processReport report ok = .ok s') :
    Wakes fiber s s' := by
  unfold processReport at h
  dsimp only at h
  split at h
  · cases h
    exact .refl
  · split at h
    · cases h
      exact .refl
    · rename_i hepoll
      obtain ⟨t, hread, hwrite⟩ := bind_eq_ok.mp h
      exact (wakes_epollCtl hepoll).trans ((wakes_triggerIf hread).trans (wakes_triggerIf hwrite))

theorem wakes_contextResize (size : ℕ) : Wakes fiber s (s.contextResize size) where
  registered := by
    intro j other hregistered
    have hold : (s.contextResize size).contexts j = s.contexts j :=
      if_neg fun hge ↦ absurd hge.1 (not_le.mpr hregistered.made)
    refine .inl ⟨hregistered.made.trans_le (Nat.le_add_right _ _), ?_, ?_, ?_⟩
    all_goals rw [hold]
    · exact hregistered.event_mem
    · exact hregistered.cb
    · exact hregistered.fiber
  task := fun htask ↦ htask

end IOManager

theorem OtherOp.wakes {fiber : ℕ} {s s' : IOManager} {op : OtherOp} (h : op.apply s = .ok s') :
    Wakes fiber s s' := by
  cases op with
  | addEvent i fd event caller ok =>
    obtain ⟨⟨t, rt⟩, hadd, rfl⟩ := map_eq_ok.mp h
    exact IOManager.wakes_addEvent hadd
  | cancelEvent i fd event ok =>
    obtain ⟨⟨t, rt⟩, hcancel, rfl⟩ := map_eq_ok.mp h
    exact IOManager.wakes_cancelEvent hcancel
  | cancelAll i fd ok =>
    obtain ⟨⟨t, rt⟩, hcancel, rfl⟩ := map_eq_ok.mp h
    exact IOManager.wakes_cancelAll hcancel
  | processReport report ok => exact IOManager.wakes_processReport h
  | contextResize size =>
    cases h
    exact IOManager.wakes_contextResize size
  | schedule scheduler task =>
    cases h
    exact .of_contexts rfl rfl fun htask ↦ htask.append ⟨[(scheduler, task)], rfl⟩

/-! ### What a step does to a call -/

/-- It is still the same call, and it does not start again. -/
structure SameCall (c c' : HookedCall) : Prop where
  kind : c'.kind = c.kind
  fiber : c'.fiber = c.fiber
  fd : c'.fd = c.fd
  event : c'.event = c.event
  timeout : c'.timeout = c.timeout
  returned : c.Returned → c'.Returned

namespace HookedCall

variable {c c' : HookedCall}

theorem sameCall_of_point (hpoint : ¬c.Returned) {point : HookPoint} {timer : Option TimerState}
    {earlier : List TimerState} :
    SameCall c { c with point := point, timer := timer, earlier := earlier } :=
  ⟨rfl, rfl, rfl, rfl, rfl, fun h ↦ absurd h hpoint⟩

theorem not_returned {point : HookPoint} (h : c.point = point)
    (hpoint : ∀ error, point ≠ .returned error) : ¬c.Returned := by
  rintro ⟨error, herror⟩
  exact hpoint error (h.symm.trans herror)

theorem sameCall_setTimer (t : TimerState) (j : Option ℕ) : SameCall c (c.setTimer t j) := by
  cases j <;> exact ⟨rfl, rfl, rfl, rfl, rfl, fun h ↦ h⟩

theorem sameCall_io {res : CallResult} (h : c.io res = some c') : SameCall c c' := by
  unfold io at h
  split at h
  · rename_i hpoint
    have hreturned := not_returned hpoint (by simp)
    split at h <;> cases h <;> exact sameCall_of_point hreturned
  · rename_i hpoint
    have hreturned := not_returned hpoint (by simp)
    split at h <;> cases h <;> exact sameCall_of_point hreturned
  · cases h

theorem sameCall_step {move : HookMove} (h : c.step move = some c') : SameCall c c' := by
  cases move with
  | io res => exact sameCall_io h
  | addTimer =>
    simp only [step, Option.bind_eq_bind, Option.bind_eq_some_iff, Option.guard_eq_some'] at h
    obtain ⟨_, hpoint, h⟩ := h
    have hreturned := not_returned hpoint (by simp)
    split at h <;> cases h <;> exact sameCall_of_point hreturned
  | yield =>
    simp only [step] at h
    split at h
    · rename_i hpoint
      cases h
      exact sameCall_of_point (not_returned hpoint (by simp))
    · cases h
  | addFailed | cancelTimer | check | getsockopt =>
    simp only [step, Option.bind_eq_bind, Option.bind_eq_some_iff, Option.guard_eq_some',
      Option.some.injEq] at h
    obtain ⟨_, hpoint, rfl⟩ := h
    exact sameCall_of_point (not_returned hpoint (by simp))
  | expire j | timerCheck j =>
    simp only [step, Option.bind_eq_bind, Option.bind_eq_some_iff, Option.guard_eq_some',
      Option.some.injEq] at h
    obtain ⟨_, -, rfl⟩ := h
    exact sameCall_setTimer _ j
  | timerSet j =>
    simp only [step, Option.bind_eq_bind, Option.bind_eq_some_iff, Option.guard_eq_some',
      Option.some.injEq] at h
    obtain ⟨_, -, rfl⟩ := h
    obtain ⟨hkind, hfiber, hfd, hevent, htimeout, hreturned⟩ :=
      sameCall_setTimer (c := c) .cancelling j
    exact ⟨hkind, hfiber, hfd, hevent, htimeout, hreturned⟩

theorem fiber_doIo (fiber fd : ℕ) (event : IOManager.Event) (so : TimeoutSo) (hookEnable : Bool)
    (ctx : Option FdCtx) : (doIo fiber fd event so hookEnable ctx).fiber = fiber := by
  unfold doIo
  dsimp only
  split_ifs
  · rfl
  · split
    · rfl
    · split_ifs <;> rfl

theorem fiber_connect (fiber fd : ℕ) (timeout : Option ℕ) (hookEnable : Bool)
    (ctx : Option FdCtx) : (connect fiber fd timeout hookEnable ctx).fiber = fiber := by
  unfold connect
  dsimp only
  split_ifs
  · rfl
  · split
    · rfl
    · split_ifs <;> rfl

/-- A call that has just begun. -/
structure Begun (c : HookedCall) : Prop where
  point : c.point = .direct ∨ c.point = .call ∨ c.point = .returned true
  timer : c.timer = none
  cancelled : c.cancelled = false

theorem begun_doIo (fiber fd : ℕ) (event : IOManager.Event) (so : TimeoutSo) (hookEnable : Bool)
    (ctx : Option FdCtx) : (doIo fiber fd event so hookEnable ctx).Begun := by
  unfold doIo
  dsimp only
  split
  · exact ⟨.inl rfl, rfl, rfl⟩
  · split
    · exact ⟨.inl rfl, rfl, rfl⟩
    · split
      · exact ⟨.inr (.inr rfl), rfl, rfl⟩
      · split
        · exact ⟨.inl rfl, rfl, rfl⟩
        · exact ⟨.inr (.inl rfl), rfl, rfl⟩

theorem begun_connect (fiber fd : ℕ) (timeout : Option ℕ) (hookEnable : Bool)
    (ctx : Option FdCtx) : (connect fiber fd timeout hookEnable ctx).Begun := by
  unfold connect
  dsimp only
  split
  · exact ⟨.inl rfl, rfl, rfl⟩
  · split
    · exact ⟨.inr (.inr rfl), rfl, rfl⟩
    · split
      · exact ⟨.inr (.inr rfl), rfl, rfl⟩
      · split
        · exact ⟨.inl rfl, rfl, rfl⟩
        · split
          · exact ⟨.inl rfl, rfl, rfl⟩
          · exact ⟨.inr (.inl rfl), rfl, rfl⟩

end HookedCall

/-- What a step does to call `k`, which is `c` before it. -/
inductive CallStep (s s' : HookSystem) (k : ℕ) (c : HookedCall) : HookAction → HookedCall → Prop
  | idle (a : HookAction) (hwakes : ¬c.Returned → Wakes c.fiber s.iom s'.iom) :
      CallStep s s' k c a c
  | move (move : HookMove) (c' : HookedCall) (hmove : c.step move = some c')
      (hiom : s'.iom = s.iom) : CallStep s s' k c (.move k move) c'
  | addEvent (i : ℕ) (scheduler : Option ℕ) (ok rt : Bool) (hpoint : c.point = .addEvent)
      (hfinds : s.Finds i c.fd)
      (hadd : s.iom.addEvent i c.fd c.event
        { scheduler := scheduler, fiber := c.fiber, exec := true } ok = .ok (s'.iom, rt)) :
      CallStep s s' k c (.addEvent k i scheduler ok)
        { c with point := if rt then .yield i else .addFailed }
  | resume (scheduler i : ℕ) (hpoint : c.point = .suspended i) :
      CallStep s s' k c (.resume k scheduler) { c with point := .resumed }
  | timerCancelEvent (j : Option ℕ) (i : ℕ) (ok rt : Bool)
      (htimer : c.getTimer j = some .cancelling)
      (hcancel : s.iom.cancelEvent i c.fd c.event ok = .ok (s'.iom, rt)) :
      CallStep s s' k c (.timerCancelEvent k j i ok) (c.setTimer .finished j)

namespace HookSystem

/-- No fiber is in two hooked calls. -/
def Exclusive (s : HookSystem) : Prop :=
  ∀ (k k' : ℕ) (c c' : HookedCall), s.calls[k]? = some c → s.calls[k']? = some c' →
    ¬c.Returned → ¬c'.Returned → c.fiber = c'.fiber → k = k'

variable {s s' : HookSystem} {a : HookAction} {k : ℕ} {c : HookedCall}

theorem Exclusive.append (h : s.Exclusive) (hfree : s.Free c.fiber) :
    ({ s with calls := s.calls ++ [c] } : HookSystem).Exclusive := by
  have hcases : ∀ (l : ℕ) (d : HookedCall), (s.calls ++ [c])[l]? = some d →
      s.calls[l]? = some d ∨ (l = s.calls.length ∧ d = c) := by
    intro l d hd
    rcases Nat.lt_or_ge l s.calls.length with hlt | hge
    · rw [List.getElem?_append_left hlt] at hd
      exact .inl hd
    · rw [List.getElem?_append_right hge] at hd
      obtain ⟨hlt, rfl⟩ := List.getElem?_eq_some_iff.mp hd
      have hl : l - s.calls.length = 0 := by simpa using hlt
      exact .inr ⟨by omega, by simp [hl]⟩
  intro l l' d d' hd hd' hreturned hreturned' hfiber
  rcases hcases l d hd with hold | ⟨rfl, rfl⟩
  · rcases hcases l' d' hd' with hold' | ⟨rfl, rfl⟩
    · exact h l l' d d' hold hold' hreturned hreturned' hfiber
    · exact absurd (hfree d (List.mem_of_getElem? hold) hfiber) hreturned
  · rcases hcases l' d' hd' with hold' | ⟨rfl, rfl⟩
    · exact absurd (hfree d' (List.mem_of_getElem? hold') hfiber.symm) hreturned'
    · rfl

theorem Exclusive.set (h : s.Exclusive) {c' : HookedCall} (hc : s.calls[k]? = some c)
    (hsame : SameCall c c') (iom : IOManager) :
    ({ s with iom := iom, calls := s.calls.set k c' } : HookSystem).Exclusive := by
  have hcases : ∀ (l : ℕ) (d : HookedCall), (s.calls.set k c')[l]? = some d → ¬d.Returned →
      ∃ d₀, s.calls[l]? = some d₀ ∧ ¬d₀.Returned ∧ d₀.fiber = d.fiber := by
    intro l d hd hreturned
    by_cases hl : k = l
    · subst hl
      have hlt := (List.getElem?_eq_some_iff.mp hc).1
      rw [List.getElem?_set_self hlt] at hd
      cases hd
      exact ⟨c, hc, fun hreturned' ↦ hreturned (hsame.returned hreturned'), hsame.fiber.symm⟩
    · rw [List.getElem?_set_ne hl] at hd
      exact ⟨d, hd, hreturned, rfl⟩
  intro l l' d d' hd hd' hreturned hreturned' hfiber
  obtain ⟨d₀, hd₀, hlive, hsame₀⟩ := hcases l d hd hreturned
  obtain ⟨d₁, hd₁, hlive₁, hsame₁⟩ := hcases l' d' hd' hreturned'
  exact h l l' d₀ d₁ hd₀ hd₁ hlive hlive₁ (hsame₀.trans (hfiber.trans hsame₁.symm))

/-- The calls stay as they are. -/
theorem Exclusive.of_calls (h : s.Exclusive) (hcalls : s'.calls = s.calls) : s'.Exclusive := by
  unfold Exclusive
  rw [hcalls]
  exact h

theorem setCall_cases {x : Except IOFault (IOManager × HookedCall)} :
    (∃ iom c', x = .ok (iom, c') ∧
      s.setCall k x = { s with iom := iom, calls := s.calls.set k c' }) ∨
    ((s.setCall k x).calls = s.calls ∧ (s.setCall k x).iom = s.iom) := by
  cases x with
  | ok result => exact .inl ⟨result.1, result.2, rfl, rfl⟩
  | error e => exact .inr ⟨rfl, rfl⟩

theorem setCloser_cases {x : Except IOFault (IOManager × Closer)} :
    (s.setCloser k x).calls = s.calls ∧
      ((∃ iom d, x = .ok (iom, d) ∧ (s.setCloser k x).iom = iom) ∨
        (s.setCloser k x).iom = s.iom) := by
  cases x with
  | ok result => exact ⟨rfl, .inl ⟨result.1, result.2, rfl, rfl⟩⟩
  | error e => exact ⟨rfl, .inr rfl⟩

theorem setIom_cases {x : Except IOFault IOManager} :
    (s.setIom x).calls = s.calls ∧
      ((∃ iom, x = .ok iom ∧ (s.setIom x).iom = iom) ∨ (s.setIom x).iom = s.iom) := by
  cases x with
  | ok iom => exact ⟨rfl, .inl ⟨iom, rfl, rfl⟩⟩
  | error e => exact ⟨rfl, .inr rfl⟩

/-- What one step preserves. -/
theorem Exclusive.step (h : s.Exclusive) (hstep : s.step a = some s') : s'.Exclusive := by
  cases (step_cases hstep).2 with
  | doIo fiber fd event so hookEnable hfree =>
    refine h.append ?_
    rwa [HookedCall.fiber_doIo]
  | connect fiber fd timeout hookEnable hfree =>
    refine h.append ?_
    rwa [HookedCall.fiber_connect]
  | move k move c c' hc hmove => exact h.set hc (HookedCall.sameCall_step hmove) s.iom
  | addEvent k i scheduler ok c hc hpoint hfinds =>
    rcases s.setCall_cases (k := k) (x := addEvent s.iom c i scheduler ok) with
      ⟨iom, c', hadd, heq⟩ | ⟨hcalls, -⟩
    · obtain ⟨⟨t, rt⟩, -, hresult⟩ := map_eq_ok.mp hadd
      cases hresult
      rw [heq]
      exact h.set hc (HookedCall.sameCall_of_point (HookedCall.not_returned hpoint (by simp))) _
    · exact h.of_calls hcalls
  | resume k scheduler i c hc hpoint htask =>
    exact h.set hc (HookedCall.sameCall_of_point (HookedCall.not_returned hpoint (by simp))) _
  | timerCancelEvent k j i ok c hc htimer hfinds =>
    rcases s.setCall_cases (k := k) (x := timerCancelEvent s.iom c j i ok) with
      ⟨iom, c', hcancel, heq⟩ | ⟨hcalls, -⟩
    · obtain ⟨⟨t, rt⟩, -, hresult⟩ := map_eq_ok.mp hcancel
      cases hresult
      rw [heq]
      exact h.set hc (HookedCall.sameCall_setTimer .finished j) _
    · exact h.of_calls hcalls
  | other op => exact h.of_calls setIom_cases.1
  | closeCancelAll k i ok c hc hfinds => exact h.of_calls setCloser_cases.1
  | take | socket | setUserNonblock | setTimeout | close | closeDel | closeF => exact h.of_calls rfl

/-- A step of the manager leaves the calls, and no fiber is lost from sight. -/
theorem callStep_idle (hcalls : s'.calls = s.calls) (hc : s.calls[k]? = some c)
    (hwakes : ¬c.Returned → Wakes c.fiber s.iom s'.iom) :
    ∃ c', s'.calls[k]? = some c' ∧ CallStep s s' k c a c' :=
  ⟨c, hcalls ▸ hc, .idle a hwakes⟩

/-- Another call has gone on. -/
theorem callStep_other {l : ℕ} {d : HookedCall} (hcalls : s'.calls = s.calls.set l d)
    (hl : l ≠ k) (hc : s.calls[k]? = some c)
    (hwakes : ¬c.Returned → Wakes c.fiber s.iom s'.iom) :
    ∃ c', s'.calls[k]? = some c' ∧ CallStep s s' k c a c' :=
  ⟨c, by rw [hcalls, List.getElem?_set_ne hl, hc], .idle a hwakes⟩

/-- Call `k` itself has gone on. -/
theorem callStep_self {d : HookedCall} (hcalls : s'.calls = s.calls.set k d)
    (hc : s.calls[k]? = some c) (h : CallStep s s' k c a d) :
    ∃ c', s'.calls[k]? = some c' ∧ CallStep s s' k c a c' :=
  ⟨d, by rw [hcalls, List.getElem?_set_self (List.getElem?_eq_some_iff.mp hc).1], h⟩

theorem callStep (h : s.Exclusive) (hstep : s.step a = some s') (hc : s.calls[k]? = some c) :
    ∃ c', s'.calls[k]? = some c' ∧ CallStep s s' k c a c' := by
  have hlt := (List.getElem?_eq_some_iff.mp hc).1
  cases (step_cases hstep).2 with
  | doIo | connect =>
    exact ⟨c, by rw [List.getElem?_append_left hlt, hc], .idle _ fun _ ↦ .refl⟩
  | move l move d d' hd hmove =>
    by_cases hl : l = k
    · subst hl
      obtain rfl : c = d := Option.some.inj (hc.symm.trans hd)
      exact callStep_self rfl hc (.move move d' hmove rfl)
    · exact callStep_other rfl hl hc fun _ ↦ .refl
  | addEvent l i scheduler ok d hd hpoint hfinds =>
    rcases s.setCall_cases (k := l) (x := addEvent s.iom d i scheduler ok) with
      ⟨iom, d', hsection, heq⟩ | ⟨hcalls, hiom⟩
    · obtain ⟨⟨t, rt⟩, hadd, hresult⟩ := map_eq_ok.mp hsection
      cases hresult
      rw [heq]
      by_cases hl : l = k
      · subst hl
        obtain rfl : c = d := Option.some.inj (hc.symm.trans hd)
        exact callStep_self rfl hc (.addEvent i scheduler ok rt hpoint hfinds hadd)
      · exact callStep_other rfl hl hc fun _ ↦ IOManager.wakes_addEvent hadd
    · exact callStep_idle hcalls hc fun _ ↦ .of_eq hiom
  | resume l scheduler i d hd hpoint htask =>
    by_cases hl : l = k
    · subst hl
      obtain rfl : c = d := Option.some.inj (hc.symm.trans hd)
      exact callStep_self rfl hc (.resume scheduler i hpoint)
    · refine callStep_other rfl hl hc fun hlive ↦ .of_contexts rfl rfl fun hhas ↦ hhas.erase ?_
      -- the task is that of the other fiber
      intro heq
      have hfiber : d.fiber = c.fiber := FiberOrCb.fiber.inj heq
      exact hl (h l k d c hd hc (HookedCall.not_returned hpoint (by simp)) hlive hfiber)
  | timerCancelEvent l j i ok d hd htimer hfinds =>
    rcases s.setCall_cases (k := l) (x := timerCancelEvent s.iom d j i ok) with
      ⟨iom, d', hsection, heq⟩ | ⟨hcalls, hiom⟩
    · obtain ⟨⟨t, rt⟩, hcancel, hresult⟩ := map_eq_ok.mp hsection
      cases hresult
      rw [heq]
      by_cases hl : l = k
      · subst hl
        obtain rfl : c = d := Option.some.inj (hc.symm.trans hd)
        exact callStep_self rfl hc (.timerCancelEvent j i ok rt htimer hcancel)
      · exact callStep_other rfl hl hc fun _ ↦ IOManager.wakes_cancelEvent hcancel
    · exact callStep_idle hcalls hc fun _ ↦ .of_eq hiom
  | other op =>
    obtain ⟨hcalls, ⟨iom, happly, hiom⟩ | hiom⟩ := s.setIom_cases (x := op.apply s.iom)
    · exact callStep_idle hcalls hc fun _ ↦ hiom ▸ OtherOp.wakes happly
    · exact callStep_idle hcalls hc fun _ ↦ .of_eq hiom
  | take scheduler task htask hfree =>
    refine callStep_idle rfl hc fun hlive ↦ .of_contexts rfl rfl fun hhas ↦ hhas.erase fun heq ↦ ?_
    exact hlive (hfree c (List.mem_of_getElem? hc) heq)
  | closeCancelAll l i ok d hd hfinds =>
    obtain ⟨hcalls, ⟨iom, d', hsection, hiom⟩ | hiom⟩ :=
      s.setCloser_cases (k := l) (x := closeCancelAll s.iom d i ok)
    · obtain ⟨⟨t, rt⟩, hcancel, hresult⟩ := map_eq_ok.mp hsection
      cases hresult
      exact callStep_idle hcalls hc fun _ ↦ hiom ▸ IOManager.wakes_cancelAll hcancel
    · exact callStep_idle hcalls hc fun _ ↦ .of_eq hiom
  | socket | setUserNonblock | setTimeout | close | closeDel =>
    exact callStep_idle rfl hc fun _ ↦ .refl
  | closeF => exact callStep_idle rfl hc fun _ ↦ .of_contexts rfl rfl fun htask ↦ htask

/-- A call that was not there has just begun. -/
theorem begun_of_step (hstep : s.step a = some s') (hnone : s.calls[k]? = none)
    (hc : s'.calls[k]? = some c) : c.Begun := by
  have happend : ∀ d : HookedCall, d.Begun → (s.calls ++ [d])[k]? = some c → c.Begun := by
    intro d hd hc
    rw [List.getElem?_append_right (List.getElem?_eq_none_iff.mp hnone)] at hc
    obtain rfl := List.mem_singleton.mp (List.mem_of_getElem? hc)
    exact hd
  have hset : ∀ (l : ℕ) (d : HookedCall), (s.calls.set l d)[k]? = some c → c.Begun := by
    intro l d hc
    have hlt := (List.getElem?_eq_some_iff.mp hc).1
    rw [List.length_set] at hlt
    exact absurd (List.getElem?_eq_none_iff.mp hnone) (not_le.mpr hlt)
  have hsame : s'.calls = s.calls → c.Begun := by
    intro hcalls
    rw [hcalls, hnone] at hc
    cases hc
  cases (step_cases hstep).2 with
  | doIo => exact happend _ (HookedCall.begun_doIo _ _ _ _ _ _) hc
  | connect => exact happend _ (HookedCall.begun_connect _ _ _ _ _) hc
  | move | resume => exact hset _ _ hc
  | addEvent l i scheduler ok d =>
    rcases s.setCall_cases (k := l) (x := addEvent s.iom d i scheduler ok) with
      ⟨iom, d', -, heq⟩ | ⟨hcalls, -⟩
    · rw [heq] at hc
      exact hset l d' hc
    · exact hsame hcalls
  | timerCancelEvent l j i ok d =>
    rcases s.setCall_cases (k := l) (x := timerCancelEvent s.iom d j i ok) with
      ⟨iom, d', -, heq⟩ | ⟨hcalls, -⟩
    · rw [heq] at hc
      exact hset l d' hc
    · exact hsame hcalls
  | other => exact hsame setIom_cases.1
  | closeCancelAll => exact hsame setCloser_cases.1
  | take | socket | setUserNonblock | setTimeout | close | closeDel | closeF => exact hsame rfl

end HookSystem

theorem exclusive_init : hookSystem.init.Exclusive := by
  intro k k' c c' hc
  cases (List.getElem?_nil : ([] : List HookedCall)[k]? = none).symm.trans hc

/-- In no run a fiber is in two hooked calls. -/
theorem exclusive (r : Run hookSystem) (k : ℕ) : (r.state k).Exclusive := by
  have hr : r.Obeys fun _ _ ↦ True := fun _ _ _ ↦ trivial
  exact Run.invariant exclusive_init (fun _ _ _ h _ hstep ↦ h.step hstep) r hr k

end Rsylar
