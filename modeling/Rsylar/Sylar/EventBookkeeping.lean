import Rsylar.Sylar.IOManager

/-!
# The events of the contexts

A bit is set in `events` as long as somebody waits for the event, and `m_pendingEventCount` is the
number of set bits. Every call keeps this, and so does the processing of a report whose events are
all registered. A report can be older than the bits: `idle` masks them when it looks whether there
is something to do, but triggers all events of the report, and the assertion in `triggerEvent` fails
for one that is no longer set, as in `staleReportRun`.

The book is kept in a run exactly when no processed report mixes registered events with others and
every `addEvent` that registers an event is made by a thread that has a scheduler and, without a
callback, a fiber in state `EXEC` (`bookkeeping_iff`).
-/

set_option autoImplicit false
set_option relaxedAutoImplicit false

namespace Rsylar

open TransitionSystem

/-! ### The property and the condition -/

/-- Somebody waits for the event. -/
def EventContext.Waiting (ctx : EventContext) : Prop :=
  ctx.scheduler.isSome ∧ (ctx.fiber.isSome ∨ ctx.cb.isSome)

/-- The number of set bits over all contexts. -/
def IOManager.setBits (s : IOManager) : ℤ :=
  ∑ i ∈ Finset.range s.contextCount, ((s.contexts i).events.card : ℤ)

structure Bookkeeping (s : IOSystem) : Prop where
  bits : ∀ (i : ℕ) (event : IOManager.Event),
    event ∈ (s.iom.contexts i).events ↔ ((s.iom.contexts i).getContext event).Waiting
  pending : s.iom.pendingEventCount = s.iom.setBits
  assertions : s.fault = none

namespace IOManager

/-- The call of `addEvent` gets as far as registering the event. -/
def Registers (s : IOManager) (i fd : ℕ) (event : Event) (ok : Bool) : Prop :=
  let c := s.contexts i
  event ∉ c.events ∧
    (s.epollCtl (if c.events = ∅ then .add else .mod) fd ⟨i, insert event c.events⟩ ok).isSome

/-- The processing of the report gets as far as triggering events. -/
def Triggers (s : IOManager) (report : Report) (ok : Bool) : Prop :=
  let c := s.contexts report.ctx
  let leftEvents := c.events \ s.realEvents report
  c.events ∩ s.realEvents report ≠ ∅ ∧
    (s.epollCtl (if leftEvents = ∅ then .del else .mod) c.fd ⟨report.ctx, leftEvents⟩ ok).isSome

end IOManager

/-- Who registers an event can be woken, and the events that are triggered are registered. -/
def EventsFit (s : IOSystem) : IOAction → Prop
  | .finish k ok => ∀ call ∈ s.calls[k]?, ∀ i ∈ call.ctx, ∀ event caller,
      call.op = .addEvent event caller → s.iom.Registers i call.fd event ok →
        caller.scheduler.isSome ∧ (caller.cb.isSome ∨ caller.exec = true)
  | .process k ok => ∀ report ∈ s.reports[k]?, s.iom.Triggers report ok →
      s.iom.realEvents report ⊆ (s.iom.contexts report.ctx).events
  | _ => True

/-! ### One context -/

namespace FdContext

/-- Who waits for a set event is a fiber or a callback, and an event that is not set has no trace.
-/
structure Ok (c : FdContext) : Prop where
  set : ∀ event ∈ c.events, ∃ scheduler : ℕ,
    (∃ f : ℕ, c.getContext event = { scheduler := some scheduler, fiber := some f }) ∨
      ∃ cb : ℕ, c.getContext event = { scheduler := some scheduler, cb := some cb }
  unset : ∀ event ∉ c.events, c.getContext event = {}

variable {c : FdContext} {event : IOManager.Event}

theorem Ok.waiting_iff (h : c.Ok) : event ∈ c.events ↔ (c.getContext event).Waiting := by
  constructor
  · intro hmem
    obtain ⟨scheduler, ⟨f, heq⟩ | ⟨cb, heq⟩⟩ := h.set event hmem
    · rw [heq]
      exact ⟨rfl, .inl rfl⟩
    · rw [heq]
      exact ⟨rfl, .inr rfl⟩
  · intro hwaiting
    by_contra hmem
    rw [h.unset event hmem] at hwaiting
    exact absurd hwaiting.1 (by decide)

theorem ok_empty (fd : ℕ) : ({ fd := fd } : FdContext).Ok where
  set := fun event hmem ↦ absurd hmem (Finset.notMem_empty event)
  unset := fun _ _ ↦ rfl

/-- The context without the event. -/
def clear (c : FdContext) (event : IOManager.Event) : FdContext :=
  { c with
    events := c.events.erase event
    getContext := Function.update c.getContext event {} }

theorem Ok.clear (h : c.Ok) (event : IOManager.Event) : (c.clear event).Ok where
  set := by
    intro other hother
    obtain ⟨hne, hmem⟩ := Finset.mem_erase.mp hother
    simp only [FdContext.clear, Function.update_of_ne hne]
    exact h.set other hmem
  unset := by
    intro other hother
    by_cases hne : other = event
    · subst hne
      simp only [FdContext.clear, Function.update_self]
    · simp only [FdContext.clear, Function.update_of_ne hne]
      exact h.unset other fun hmem ↦ hother (Finset.mem_erase.mpr ⟨hne, hmem⟩)

theorem Ok.triggerEvent (h : c.Ok) (hmem : event ∈ c.events) :
    ∃ given, c.triggerEvent event = .ok (c.clear event, given) := by
  unfold FdContext.triggerEvent FdContext.clear
  rw [if_neg (not_not.mpr hmem)]
  obtain ⟨scheduler, ⟨f, heq⟩ | ⟨cb, heq⟩⟩ := h.set event hmem
  · rw [heq]
    exact ⟨_, rfl⟩
  · rw [heq]
    exact ⟨_, rfl⟩

/-- The context with one more event. -/
theorem Ok.insert (h : c.Ok) (event : IOManager.Event) {caller : Caller} {scheduler : ℕ}
    (hscheduler : caller.scheduler = some scheduler) :
    ({ c with
      events := insert event c.events
      getContext := Function.update c.getContext event
        { scheduler := caller.scheduler
          cb := caller.cb
          fiber := if caller.cb.isSome then none else some caller.fiber } } : FdContext).Ok where
  set := by
    intro other hother
    by_cases hne : other = event
    · subst hne
      simp only [Function.update_self, hscheduler]
      refine ⟨scheduler, ?_⟩
      cases caller.cb with
      | none => exact .inl ⟨caller.fiber, rfl⟩
      | some cb => exact .inr ⟨cb, rfl⟩
    · simp only [Function.update_of_ne hne]
      exact h.set other (Finset.mem_of_mem_insert_of_ne hother hne)
  unset := by
    intro other hother
    obtain ⟨hne, hmem⟩ := not_or.mp (fun hor ↦ hother (Finset.mem_insert.mpr hor))
    simp only [Function.update_of_ne hne]
    exact h.unset other hmem

end FdContext

/-! ### The count -/

/-- Every context is in order, and the set bits are counted. -/
structure Balanced (s : IOManager) : Prop where
  contexts : ∀ i : ℕ, (s.contexts i).Ok
  pending : s.pendingEventCount = s.setBits

namespace Balanced

open IOManager

variable {s s' : IOManager} {i fd : ℕ} {event : IOManager.Event} {ok : Bool}

/-- A change of one context, with the count brought up to date. -/
theorem update (h : Balanced s) {c : FdContext} (hi : i < s.contextCount) (hc : c.Ok)
    (hcontexts : s'.contexts = Function.update s.contexts i c)
    (hcount : s'.contextCount = s.contextCount)
    (hpending : s'.pendingEventCount =
      s.pendingEventCount + c.events.card - (s.contexts i).events.card) : Balanced s' where
  contexts := by
    intro j
    rw [hcontexts]
    by_cases hj : j = i
    · subst hj
      rw [Function.update_self]
      exact hc
    · rw [Function.update_of_ne hj]
      exact h.contexts j
  pending := by
    have hmem := Finset.mem_range.mpr hi
    have hrest : ∑ j ∈ (Finset.range s.contextCount).erase i, ((s'.contexts j).events.card : ℤ) =
        ∑ j ∈ (Finset.range s.contextCount).erase i, ((s.contexts j).events.card : ℤ) := by
      refine Finset.sum_congr rfl fun j hj ↦ ?_
      rw [hcontexts, Function.update_of_ne (Finset.ne_of_mem_erase hj)]
    have hnew := Finset.add_sum_erase _ (fun j ↦ ((s'.contexts j).events.card : ℤ)) hmem
    have hold := Finset.add_sum_erase _ (fun j ↦ ((s.contexts j).events.card : ℤ)) hmem
    have hself : s'.contexts i = c := by rw [hcontexts, Function.update_self]
    simp only [hrest, hself] at hnew
    have hbits := h.pending
    unfold IOManager.setBits at hbits ⊢
    rw [hcount, hpending, hbits, ← hnew, ← hold]
    omega

theorem epoll (h : Balanced s) (epoll : ℕ → Option Registration) :
    Balanced { s with epoll := epoll } :=
  ⟨h.contexts, h.pending⟩

theorem of_epollCtl (h : Balanced s) {op : EpollCtlOp} {registration : Registration}
    (hepoll : s.epollCtl op fd registration ok = some s') :
    Balanced s' ∧ s'.contexts = s.contexts ∧ s'.contextCount = s.contextCount ∧
      s'.pendingEventCount = s.pendingEventCount := by
  obtain ⟨entry, -, rfl⟩ := epollCtl_some hepoll
  exact ⟨h.epoll _, rfl, rfl, rfl⟩

theorem card_clear {c : FdContext} (hmem : event ∈ c.events) :
    ((c.clear event).events.card : ℤ) = c.events.card - 1 := by
  have hcard := Finset.card_erase_add_one hmem
  unfold FdContext.clear
  dsimp only
  omega

theorem trigger (h : Balanced s) (hi : i < s.contextCount)
    (hmem : event ∈ (s.contexts i).events) :
    ∃ s', s.trigger i event = .ok s' ∧ Balanced s' ∧ s'.contextCount = s.contextCount ∧
      (s'.contexts i).events = (s.contexts i).events.erase event := by
  obtain ⟨given, hgiven⟩ := (h.contexts i).triggerEvent hmem
  refine ⟨{ s with
    contexts := Function.update s.contexts i ((s.contexts i).clear event)
    pendingEventCount := s.pendingEventCount - 1
    scheduled := s.scheduled ++ given.toList }, ?_, ?_, rfl, ?_⟩
  · unfold IOManager.trigger
    rw [hgiven]
    rfl
  · refine h.update hi ((h.contexts i).clear event) rfl rfl ?_
    rw [card_clear hmem]
    dsimp only
    omega
  · simp only [Function.update_self]
    rfl

theorem triggerIf (h : Balanced s) (hi : i < s.contextCount) (event : Event)
    (events : Finset Event) (hmem : event ∈ events → event ∈ (s.contexts i).events) :
    ∃ s', s.triggerIf i event events = .ok s' ∧ Balanced s' ∧ s'.contextCount = s.contextCount ∧
      (s'.contexts i).events =
        if event ∈ events then (s.contexts i).events.erase event else (s.contexts i).events := by
  unfold IOManager.triggerIf
  by_cases hevent : event ∈ events
  · simp only [if_pos hevent]
    exact h.trigger hi (hmem hevent)
  · simp only [if_neg hevent]
    exact ⟨s, rfl, h, rfl, rfl⟩

/-! ### The calls -/

theorem addEvent (h : Balanced s) (hi : i < s.contextCount) {caller : Caller}
    (hcaller : s.Registers i fd event ok →
      caller.scheduler.isSome ∧ (caller.cb.isSome ∨ caller.exec = true)) :
    ∃ s' rt, s.addEvent i fd event caller ok = .ok (s', rt) ∧ Balanced s' := by
  unfold IOManager.addEvent
  dsimp only
  by_cases hmem : event ∈ (s.contexts i).events
  · rw [if_pos hmem]
    exact ⟨s, false, rfl, h⟩
  · rw [if_neg hmem]
    split
    · exact ⟨s, false, rfl, h⟩
    · rename_i t hepoll
      obtain ⟨hscheduler, hfiber⟩ := hcaller ⟨hmem, by rw [hepoll]; rfl⟩
      obtain ⟨scheduler, hscheduler⟩ := Option.isSome_iff_exists.mp hscheduler
      obtain ⟨ht, hcontexts, hcount, hpending⟩ := h.of_epollCtl hepoll
      have hunset := (h.contexts i).unset event hmem
      rw [if_neg (not_not.mpr hunset), if_neg (by
        rcases hfiber with hcb | hexec
        · simp [Option.isSome_iff_ne_none.mp hcb]
        · simp [hexec])]
      refine ⟨_, true, rfl, ht.update (hcount ▸ hi) ((h.contexts i).insert event hscheduler) ?_ rfl ?_⟩
      · rw [hcontexts]
      · simp only [Finset.card_insert_of_notMem hmem, hcontexts]
        omega

theorem delEvent (h : Balanced s) (hi : i < s.contextCount) :
    Balanced (s.delEvent i fd event ok).1 := by
  unfold IOManager.delEvent
  dsimp only
  by_cases hmem : event ∈ (s.contexts i).events
  · rw [if_neg (not_not.mpr hmem)]
    split
    · exact h
    · rename_i t hepoll
      obtain ⟨ht, hcontexts, hcount, -⟩ := h.of_epollCtl hepoll
      refine ht.update (hcount ▸ hi) ((h.contexts i).clear event) ?_ rfl ?_
      · rw [hcontexts]
        rfl
      · rw [card_clear hmem, hcontexts]
        dsimp only
        omega
  · rw [if_pos hmem]
    exact h

theorem cancelEvent (h : Balanced s) (hi : i < s.contextCount) :
    ∃ s' rt, s.cancelEvent i fd event ok = .ok (s', rt) ∧ Balanced s' := by
  unfold IOManager.cancelEvent
  dsimp only
  by_cases hmem : event ∈ (s.contexts i).events
  · rw [if_neg (not_not.mpr hmem)]
    split
    · exact ⟨s, false, rfl, h⟩
    · rename_i t hepoll
      obtain ⟨ht, hcontexts, hcount, -⟩ := h.of_epollCtl hepoll
      rw [← hcontexts] at hmem
      obtain ⟨u, hu, hbalanced, -, -⟩ := ht.trigger (hcount ▸ hi) hmem
      exact ⟨u, true, bind_eq_ok.mpr ⟨u, hu, rfl⟩, hbalanced⟩
  · rw [if_pos hmem]
    exact ⟨s, false, rfl, h⟩

theorem cancelAll (h : Balanced s) (hi : i < s.contextCount) :
    ∃ s' rt, s.cancelAll i fd ok = .ok (s', rt) ∧ Balanced s' := by
  unfold IOManager.cancelAll
  dsimp only
  by_cases hempty : (s.contexts i).events = ∅
  · rw [if_pos hempty]
    exact ⟨s, false, rfl, h⟩
  · rw [if_neg hempty]
    split
    · exact ⟨s, false, rfl, h⟩
    · rename_i t hepoll
      obtain ⟨ht, hcontexts, hcount, -⟩ := h.of_epollCtl hepoll
      obtain ⟨u, hu, hbalanced, hcount', hevents⟩ :=
        ht.triggerIf (hcount ▸ hi) .read (t.contexts i).events id
      obtain ⟨v, hv, hbalanced', -, hevents'⟩ :=
        hbalanced.triggerIf (hcount' ▸ hcount ▸ hi) .write (u.contexts i).events id
      have hnone : (v.contexts i).events = ∅ := by
        refine Finset.eq_empty_iff_forall_notMem.mpr fun event ↦ ?_
        rw [hevents', hevents]
        cases event <;> split_ifs <;> simp_all
      refine ⟨v, true, bind_eq_ok.mpr ⟨u, hu, bind_eq_ok.mpr ⟨v, hv, ?_⟩⟩, hbalanced'⟩
      rw [if_neg (not_not.mpr hnone)]
      rfl

theorem processReport (h : Balanced s) {report : Report} (hi : report.ctx < s.contextCount)
    (hfit : s.Triggers report ok → s.realEvents report ⊆ (s.contexts report.ctx).events) :
    ∃ s', s.processReport report ok = .ok s' ∧ Balanced s' := by
  unfold IOManager.processReport
  dsimp only
  by_cases hempty : (s.contexts report.ctx).events ∩ s.realEvents report = ∅
  · rw [if_pos hempty]
    exact ⟨s, rfl, h⟩
  · rw [if_neg hempty]
    split
    · exact ⟨s, rfl, h⟩
    · rename_i t hepoll
      have hsub := hfit ⟨hempty, by rw [hepoll]; rfl⟩
      obtain ⟨ht, hcontexts, hcount, -⟩ := h.of_epollCtl hepoll
      rw [← hcontexts] at hsub
      obtain ⟨u, hu, hbalanced, hcount', hevents⟩ :=
        ht.triggerIf (hcount ▸ hi) .read (s.realEvents report) fun hmem ↦ hsub hmem
      obtain ⟨v, hv, hbalanced', -, -⟩ :=
        hbalanced.triggerIf (hcount' ▸ hcount ▸ hi) .write (s.realEvents report) fun hmem ↦ by
          -- the event of the first trigger is another one
          rw [hevents]
          split
          · exact Finset.mem_erase.mpr ⟨by decide, hsub hmem⟩
          · exact hsub hmem
      exact ⟨v, bind_eq_ok.mpr ⟨u, hu, hv⟩, hbalanced'⟩

theorem contextResize (h : Balanced s) (size : ℕ) : Balanced (s.contextResize size) where
  contexts := by
    intro j
    simp only [IOManager.contextResize]
    split
    · exact FdContext.ok_empty _
    · exact h.contexts j
  pending := by
    have hpending := h.pending
    unfold IOManager.setBits at hpending ⊢
    show s.pendingEventCount = _
    have hold : ∀ j ∈ Finset.range s.contextCount,
        ((s.contexts j).events.card : ℤ) = ((s.contextResize size).contexts j).events.card := by
      intro j hj
      have hlt := Finset.mem_range.mp hj
      simp only [IOManager.contextResize]
      rw [if_neg fun hge ↦ absurd hge.1 (not_le.mpr hlt)]
    rw [hpending, Finset.sum_congr rfl hold]
    refine Finset.sum_subset (Finset.range_subset_range.mpr (Nat.le_add_right _ _)) fun j hj hnew ↦ ?_
    -- a new context has no events
    have hge := not_lt.mp fun hlt ↦ hnew (Finset.mem_range.mpr hlt)
    simp only [IOManager.contextResize]
    rw [if_pos ⟨hge, Finset.mem_range.mp hj⟩]
    rfl

end Balanced

/-! ### Every run -/

/-- What holds as long as the condition is met. -/
structure BookInv (s : IOSystem) : Prop where
  balanced : Balanced s.iom
  table : ∀ i ∈ s.iom.fdContexts, i < s.iom.contextCount
  registered : ∀ (fd : ℕ) (registration : Registration), s.iom.epoll fd = some registration →
    registration.ctx < s.iom.contextCount
  calls : ∀ call ∈ s.calls, ∀ i ∈ call.ctx, i < s.iom.contextCount
  reports : ∀ report ∈ s.reports, report.ctx < s.iom.contextCount
  /-- so that no resize is for a descriptor that is too small for it -/
  large : 32 ≤ s.iom.fdContexts.length
  waiting : ∀ call ∈ s.calls, call.ctx = none → 32 ≤ call.fd
  fault : s.fault = none

namespace BookInv

variable {s s' : IOSystem} {a : IOAction}

theorem bookkeeping (h : BookInv s) : Bookkeeping s where
  bits := fun i _ ↦ (h.balanced.contexts i).waiting_iff
  pending := h.balanced.pending
  assertions := h.fault

theorem initial : BookInv ioManager.init where
  balanced := Balanced.contextResize ⟨fun _ ↦ FdContext.ok_empty 0, rfl⟩ 32
  table := by decide
  registered := nofun
  calls := nofun
  reports := nofun
  large := by decide
  waiting := nofun
  fault := rfl

/-- A section leaves everything that is not about its context. -/
theorem sectionStep (h : BookInv s) {i : ℕ} {iom : IOManager} (hi : i < s.iom.contextCount)
    (hstep : SectionStep i s.iom iom) (hbalanced : Balanced iom) : BookInv { s with iom := iom } where
  balanced := hbalanced
  table := by
    dsimp only
    rw [hstep.fdContexts, hstep.contextCount]
    exact h.table
  registered := by
    intro fd registration hsome
    dsimp only
    rw [hstep.contextCount]
    rcases hstep.registered fd registration hsome with ⟨old, hold, hctx⟩ | hctx
    · exact hctx ▸ h.registered fd old hold
    · exact hctx ▸ hi
  calls := by
    dsimp only
    rw [hstep.contextCount]
    exact h.calls
  reports := by
    dsimp only
    rw [hstep.contextCount]
    exact h.reports
  large := by
    dsimp only
    rw [hstep.fdContexts]
    exact h.large
  waiting := h.waiting
  fault := h.fault

theorem erase_call (h : BookInv s) (k : ℕ) : BookInv { s with calls := s.calls.eraseIdx k } :=
  { h with
    calls := fun call hcall ↦ h.calls call (List.mem_of_mem_eraseIdx hcall)
    waiting := fun call hcall ↦ h.waiting call (List.mem_of_mem_eraseIdx hcall) }

theorem erase_report (h : BookInv s) (k : ℕ) :
    BookInv { s with reports := s.reports.eraseIdx k } :=
  { h with reports := fun report hreport ↦ h.reports report (List.mem_of_mem_eraseIdx hreport) }

theorem finish (h : BookInv s) {k i : ℕ} {ok : Bool} {call : IOCall}
    (hcall : s.calls[k]? = some call) (hctx : call.ctx = some i)
    (ha : EventsFit s (.finish k ok)) :
    ∃ iom, IOSystem.finish s.iom i call.fd call.op ok = .ok iom ∧ Balanced iom := by
  have hi := h.calls call (List.mem_of_getElem? hcall) i hctx
  unfold IOSystem.finish
  cases hop : call.op with
  | addEvent event caller =>
    obtain ⟨iom, rt, hadd, hbalanced⟩ :=
      h.balanced.addEvent hi (ha call hcall i hctx event caller hop)
    exact ⟨iom, map_eq_ok.mpr ⟨(iom, rt), hadd, rfl⟩, hbalanced⟩
  | delEvent event => exact ⟨_, rfl, h.balanced.delEvent hi⟩
  | cancelEvent event =>
    obtain ⟨iom, rt, hcancel, hbalanced⟩ :
        ∃ iom rt, s.iom.cancelEvent i call.fd event ok = .ok (iom, rt) ∧ Balanced iom :=
      h.balanced.cancelEvent hi
    exact ⟨iom, map_eq_ok.mpr ⟨(iom, rt), hcancel, rfl⟩, hbalanced⟩
  | cancelAll =>
    obtain ⟨iom, rt, hcancel, hbalanced⟩ := h.balanced.cancelAll hi
    exact ⟨iom, map_eq_ok.mpr ⟨(iom, rt), hcancel, rfl⟩, hbalanced⟩

theorem resize (h : BookInv s) {k i : ℕ} {call : IOCall} (hcall : s.calls[k]? = some call)
    (hctx : call.ctx = none)
    (hfound : (s.iom.contextResize (call.fd * 3 / 2)).fdContexts[call.fd]? = some i) :
    BookInv { s with
      iom := s.iom.contextResize (call.fd * 3 / 2)
      calls := s.calls.set k { call with ctx := some i } } := by
  have hgrow : s.iom.contextCount ≤ (s.iom.contextResize (call.fd * 3 / 2)).contextCount :=
    Nat.le_add_right _ _
  have htable : ∀ j ∈ (s.iom.contextResize (call.fd * 3 / 2)).fdContexts,
      j < (s.iom.contextResize (call.fd * 3 / 2)).contextCount := by
    intro j hj
    rcases List.mem_append.mp hj with hold | hnew
    · exact (h.table j (List.mem_of_mem_take hold)).trans_le hgrow
    · obtain ⟨l, hl, rfl⟩ := List.mem_map.mp hnew
      exact Nat.add_lt_add_left (List.mem_range.mp hl) _
  have hset : ∀ c ∈ s.calls.set k { call with ctx := some i },
      c = { call with ctx := some i } ∨ c ∈ s.calls := fun c hc ↦
    (List.mem_or_eq_of_mem_set hc).symm
  refine ⟨h.balanced.contextResize _, htable, fun fd registration hsome ↦
    (h.registered fd registration hsome).trans_le hgrow, fun c hc j hj ↦ ?_, fun report hreport ↦
    (h.reports report hreport).trans_le hgrow, ?_, fun c hc hnone ↦ ?_, h.fault⟩
  · rcases hset c hc with rfl | hold
    · cases hj
      exact htable i (List.mem_of_getElem? hfound)
    · exact (h.calls c hold j hj).trans_le hgrow
  · have hfd := h.waiting call (List.mem_of_getElem? hcall) hctx
    simp only [IOManager.contextResize, List.length_append, List.length_take, List.length_map,
      List.length_range]
    omega
  · rcases hset c hc with rfl | hold
    · cases hnone
    · exact h.waiting c hold hnone

/-- What one step preserves. -/
theorem step (h : BookInv s) (ha : EventsFit s a) (hstep : s.step a = some s') : BookInv s' := by
  cases (IOSystem.step_cases hstep).2 with
  | find fd op i hfound =>
    have hi := h.table i (List.mem_of_getElem? hfound)
    refine { h with calls := fun call hcall j hj ↦ ?_, waiting := fun call hcall hnone ↦ ?_ }
    · rcases List.mem_append.mp hcall with hold | hnew
      · exact h.calls call hold j hj
      · obtain rfl := List.mem_singleton.mp hnew
        cases hj
        exact hi
    · rcases List.mem_append.mp hcall with hold | hnew
      · exact h.waiting call hold hnone
      · obtain rfl := List.mem_singleton.mp hnew
        cases hnone
  | findNone fd event caller hfound =>
    refine { h with calls := fun call hcall j hj ↦ ?_, waiting := fun call hcall hnone ↦ ?_ }
    · rcases List.mem_append.mp hcall with hold | hnew
      · exact h.calls call hold j hj
      · obtain rfl := List.mem_singleton.mp hnew
        cases hj
    · rcases List.mem_append.mp hcall with hold | hnew
      · exact h.waiting call hold hnone
      · obtain rfl := List.mem_singleton.mp hnew
        exact h.large.trans (List.getElem?_eq_none_iff.mp hfound)
  | callFails fd op _ => exact h
  | resize k call i hcall hctx hfound => exact h.resize hcall hctx hfound
  | outOfBounds k call hcall hctx hnone =>
    have hfd := h.waiting call (List.mem_of_getElem? hcall) hctx
    have hlength := List.getElem?_eq_none_iff.mp hnone
    simp only [IOManager.contextResize, List.length_append, List.length_take, List.length_map,
      List.length_range] at hlength
    omega
  | finish k ok call i hcall hctx =>
    obtain ⟨iom, hfinish, hbalanced⟩ := h.finish hcall hctx ha
    rw [hfinish]
    exact (h.erase_call k).sectionStep (h.calls call (List.mem_of_getElem? hcall) i hctx)
      (IOSystem.sectionStep_finish hfinish) hbalanced
  | epollWait fd report hreport =>
    refine { h with reports := fun other hother ↦ ?_ }
    rcases List.mem_append.mp hother with hold | hnew
    · exact h.reports other hold
    · obtain rfl := List.mem_singleton.mp hnew
      obtain ⟨registration, hsome, hctx, -⟩ := hreport
      exact hctx ▸ h.registered fd registration hsome
  | process k ok report hreport =>
    have hi := h.reports report (List.mem_of_getElem? hreport)
    obtain ⟨iom, hprocess, hbalanced⟩ := h.balanced.processReport hi (ha report hreport)
    rw [hprocess]
    exact (h.erase_report k).sectionStep hi (IOManager.sectionStep_processReport hprocess) hbalanced
  | close fd =>
    refine { h with balanced := h.balanced.epoll _, registered := fun fd' registration hsome ↦ ?_ }
    by_cases hfd : fd' = fd
    · subst hfd
      simp only [Function.update_self] at hsome
      cases hsome
    · simp only [Function.update_of_ne hfd] at hsome
      exact h.registered fd' registration hsome

end BookInv

/-! ### The condition is needed -/

namespace IOManager

variable {s s' : IOManager} {i fd : ℕ} {event : Event} {caller : Caller} {ok rt : Bool}

/-- An event that is registered has the scheduler of its caller. -/
theorem addEvent_registers (hregisters : s.Registers i fd event ok)
    (h : s.addEvent i fd event caller ok = .ok (s', rt)) :
    (caller.cb.isSome ∨ caller.exec = true) ∧ event ∈ (s'.contexts i).events ∧
      ((s'.contexts i).getContext event).scheduler = caller.scheduler := by
  obtain ⟨hmem, hepoll⟩ := hregisters
  obtain ⟨t, hepoll⟩ := Option.isSome_iff_exists.mp hepoll
  unfold addEvent at h
  simp only [if_neg hmem, hepoll] at h
  split at h
  · cases h
  · split at h
    · cases h
    · rename_i hfiber
      cases h
      refine ⟨?_, ?_, ?_⟩
      · cases hcb : caller.cb with
        | none => exact .inr (by simpa [hcb] using hfiber)
        | some cb => exact .inl rfl
      · simp only [Function.update_self]
        exact Finset.mem_insert_self _ _
      · simp only [Function.update_self]

theorem triggerIf_mem {events : Finset Event} (h : s.triggerIf i event events = .ok s')
    (hmem : event ∈ events) : event ∈ (s.contexts i).events := by
  unfold triggerIf at h
  rw [if_pos hmem] at h
  obtain ⟨c, given, hc, -⟩ := trigger_ok h
  exact (fd_triggerEvent hc).2.1

theorem events_triggerIf {events : Finset Event} (h : s.triggerIf i event events = .ok s') :
    (s'.contexts i).events ⊆ (s.contexts i).events := by
  unfold triggerIf at h
  split at h
  · obtain ⟨c, given, hc, rfl⟩ := trigger_ok h
    simp only [Function.update_self]
    rw [(fd_triggerEvent hc).2.2]
    exact Finset.erase_subset _ _
  · cases h
    exact Finset.Subset.refl _

theorem processReport_triggers {report : Report} (htriggers : s.Triggers report ok)
    (h : s.processReport report ok = .ok s') :
    s.realEvents report ⊆ (s.contexts report.ctx).events := by
  obtain ⟨hsome, hepoll⟩ := htriggers
  obtain ⟨t, hepoll⟩ := Option.isSome_iff_exists.mp hepoll
  unfold processReport at h
  simp only [if_neg hsome, hepoll] at h
  obtain ⟨u, hread, hwrite⟩ := bind_eq_ok.mp h
  obtain ⟨entry, -, heq⟩ := epollCtl_some hepoll
  have hcontexts : t.contexts = s.contexts := by rw [heq]
  rw [← hcontexts]
  intro event hmem
  cases event with
  | read => exact triggerIf_mem hread hmem
  | write => exact events_triggerIf hread (triggerIf_mem hwrite hmem)

end IOManager

/-- A step that leaves the book in order has met the condition. -/
theorem eventsFit_of_bookkeeping {s s' : IOSystem} {a : IOAction} (hstep : s.step a = some s')
    (h : Bookkeeping s') : EventsFit s a := by
  have hok : ∀ {t : IOSystem} {x : Except IOFault IOManager}, s' = t.setIom x →
      ∃ iom, x = .ok iom ∧ s'.iom = iom := by
    rintro t (e | iom) rfl
    · exact absurd h.assertions (by simp [IOSystem.setIom])
    · exact ⟨iom, rfl, rfl⟩
  cases a with
  | finish k ok =>
    intro call hcall i hctx event caller hop hregisters
    have hs' : s' = { s with calls := s.calls.eraseIdx k }.setIom
        (IOSystem.finish s.iom i call.fd call.op ok) := by
      cases (IOSystem.step_cases hstep).2 with
      | finish _ _ call' i' hcall' hctx' =>
        obtain rfl : call = call' := Option.some.inj (hcall.symm.trans hcall')
        obtain rfl : i = i' := Option.some.inj (hctx.symm.trans hctx')
        rfl
    obtain ⟨iom, hfinish, hiom⟩ := hok hs'
    rw [hop] at hfinish
    obtain ⟨⟨iom', rt⟩, hadd, rfl⟩ := map_eq_ok.mp hfinish
    obtain ⟨hfiber, hmem, hscheduler⟩ := IOManager.addEvent_registers hregisters hadd
    rw [← show s'.iom = iom' from hiom] at hmem hscheduler
    exact ⟨hscheduler ▸ ((h.bits i event).mp hmem).1, hfiber⟩
  | process k ok =>
    intro report hreport htriggers
    have hs' : s' = { s with reports := s.reports.eraseIdx k }.setIom
        (s.iom.processReport report ok) := by
      cases (IOSystem.step_cases hstep).2 with
      | process _ _ report' hreport' =>
        obtain rfl : report = report' := Option.some.inj (hreport.symm.trans hreport')
        rfl
    obtain ⟨iom, hprocess, -⟩ := hok hs'
    exact IOManager.processReport_triggers htriggers hprocess
  | _ => trivial

/-- Event bookkeeping. In a run of any calls and reports on any threads the book is in order at
every moment exactly when every step meets the condition. -/
theorem bookkeeping_iff (r : Run ioManager) :
    (∀ k : ℕ, Bookkeeping (r.state k)) ↔ r.Obeys EventsFit := by
  constructor
  · intro h k a ha
    exact eventsFit_of_bookkeeping (r.next k a ha) (h (k + 1))
  · intro h k
    exact (r.invariant BookInv.initial (fun s a s' hs ha hstep ↦ hs.step ha hstep) h k).bookkeeping

/-! ### A stale report -/

def waitingFiber (f : ℕ) : Caller where
  scheduler := some 0
  fiber := f
  exec := true

/-- A fiber waits to read and another one to write. Both events are reported, and the first is
cancelled before the report is processed. -/
def staleReport : List IOAction :=
  [.call 5 (.addEvent .read (waitingFiber 1)), .finish 0 true,
    .call 5 (.addEvent .write (waitingFiber 2)), .finish 0 true,
    .epollWait 5 ⟨5, {.read, .write}, false⟩, .call 5 (.cancelEvent .read), .finish 0 true,
    .process 0 true]

def staleReportRun : Run ioManager :=
  Run.ofActions ioManager staleReport (by decide +kernel)

/-- The assertion in `triggerEvent` fails. -/
theorem bookkeeping_staleReport : ¬∀ k : ℕ, Bookkeeping (staleReportRun.state k) := by
  intro h
  exact absurd (h 8).assertions (by decide +kernel)

end Rsylar
