import Mathlib.Data.List.Flatten
import Rsylar.Sylar.AsyncLogger

/-!
# What becomes of a pushed event

An event that has been queued or logged directly is in one place: among those logged, in the queue
or with a thread that has taken it (`Accounted`). What is lost is lost because it stays in the
queue: an event may be queued when the thread has already looked there for the last time.

When `start` and `stop` take turns and no event is queued too late (`Orderly`), the calls and the
threads go through the phases of `Phase`, and whenever a call of `stop` returns the queue is empty
and no thread holds an event. So what began before it is logged, once, when it has returned
(`Delivered`).
-/

set_option autoImplicit false
set_option relaxedAutoImplicit false

namespace Rsylar

open TransitionSystem

namespace RunState

/-- The events that a thread holds. -/
def held : RunState → List ℕ
  | .logging events => events
  | .lastLogging events => events
  | _ => []

/-- The thread has not looked into the queue for the last time. -/
def LooksAgain : RunState → Prop
  | .lastLogging _ | .finished => False
  | _ => True

instance : DecidablePred LooksAgain := fun r ↦
  match r with
  | .lastLogging _ | .finished => .isFalse id
  | .waiting | .swapping | .logging _ | .checking | .lastSwapping => .isTrue trivial

end RunState

/-- How often the event of a push that is there has been queued or logged directly. -/
def PushState.timesPlaced : PushState → ℕ
  | .loading | .direct | .queueing => 0
  | .notifying | .returned => 1

/-- The number of pushes that had begun when the call returned. -/
def StopState.began : StopState → Option ℕ
  | .returned began => some began
  | _ => none

namespace AsyncLogger

/-! ### Where the events are -/

/-- How often the event of push `p` has been queued or logged directly. -/
def timesPlaced (s : AsyncLogger) (p : ℕ) : ℕ :=
  (s.pushes[p]?.map fun call ↦ call.state.timesPlaced).getD 0

/-- The events that are logged, queued or held by a thread. -/
def places (s : AsyncLogger) : List ℕ :=
  s.logged.map Prod.snd ++ s.queue ++ s.threads.flatMap RunState.held

/-- An event that has been placed is in one place; and every event has a logger. -/
structure Accounted (s : AsyncLogger) : Prop where
  loggers : ∀ call ∈ s.pushes, call.event.logger ≠ none
  places : ∀ p, s.places.count p = s.timesPlaced p

/-- How often the event of a push has been passed to `logInternal`. -/
def timesLogged (s : AsyncLogger) (p : ℕ) : ℕ :=
  (s.logged.map Prod.snd).count p

/-- Once a call of `stop` and all pushes that began before it returned have returned, each of their
events has been passed to `logInternal` exactly once. -/
def Delivered (s : AsyncLogger) : Prop :=
  ∀ stop ∈ s.stops, ∀ began ∈ stop.began,
    (∀ p < began, ∃ call ∈ s.pushes[p]?, call.state = .returned) →
      ∀ p < began, s.timesLogged p = 1

/-- No call of `start` or `stop` is on its way that has changed `m_running`. -/
def Quiet (s : AsyncLogger) : Prop :=
  (∀ start ∈ s.starts, start = .returned) ∧ ∀ stop ∈ s.stops, stop.began ≠ none

instance (s : AsyncLogger) : Decidable s.Quiet := instDecidableAnd

/-- The event of push `p` can be queued: a thread will look into the queue again, and no `stop` has
returned since the push began. -/
def InTime (s : AsyncLogger) (p : ℕ) : Prop :=
  (s.running = true ∨ ∃ thread ∈ s.threads, thread.LooksAgain) ∧
    ∀ stop ∈ s.stops, ∀ began ∈ stop.began, began ≤ p

instance (s : AsyncLogger) (p : ℕ) : Decidable (s.InTime p) := instDecidableAnd

/-- `start` and `stop` take turns, no event is queued too late, and every event has a logger. -/
def Orderly (s : AsyncLogger) : AsyncAction → Prop
  | .push event => event.logger ≠ none
  | .pushStep p => (∃ call ∈ s.pushes[p]?, call.state = .queueing) → s.InTime p
  | .start => s.running = true ∨ s.Quiet
  | .stop => s.Quiet
  | _ => True

instance : DecidableRel Orderly := fun s a ↦
  match a with
  | .push event => inferInstanceAs (Decidable (event.logger ≠ none))
  | .pushStep p =>
    inferInstanceAs (Decidable ((∃ call ∈ s.pushes[p]?, call.state = .queueing) → s.InTime p))
  | .start => inferInstanceAs (Decidable (s.running = true ∨ s.Quiet))
  | .stop => inferInstanceAs (Decidable s.Quiet)
  | .startStep _ | .stopStep _ | .runStep _ => .isTrue trivial

/-! ### Every event is in one place -/

theorem count_single (p q : ℕ) : [p].count q = if q = p then 1 else 0 := by
  by_cases h : q = p
  · simp [h]
  · simp [h, Ne.symm h]

theorem count_held_set {threads : List RunState} {t : ℕ} {r : RunState}
    (h : threads[t]? = some r) (r' : RunState) (p : ℕ) :
    ((threads.set t r').flatMap RunState.held).count p + r.held.count p =
      (threads.flatMap RunState.held).count p + r'.held.count p := by
  induction threads generalizing t with
  | nil => cases h
  | cons first threads ih =>
    cases t with
    | zero =>
      cases h
      simp only [List.set_cons_zero, List.flatMap_cons, List.count_append]
      omega
    | succ t =>
      have htail := ih h
      simp only [List.set_cons_succ, List.flatMap_cons, List.count_append]
      omega

theorem timesPlaced_setPush {s : AsyncLogger} {p : ℕ} {call : PushCall}
    (h : s.pushes[p]? = some call) (state : PushState) (q : ℕ) :
    (s.setPush p call state).timesPlaced q =
      if q = p then state.timesPlaced else s.timesPlaced q := by
  obtain ⟨hlt, -⟩ := List.getElem?_eq_some_iff.mp h
  unfold timesPlaced setPush
  by_cases hq : q = p
  · subst hq
    simp [hlt]
  · simp [hq, List.getElem?_set_ne (Ne.symm hq)]

theorem logInternal_frame (s : AsyncLogger) (p : ℕ) :
    ∃ logged, s.logInternal p = { s with logged := logged } := by
  unfold logInternal
  split
  · exact ⟨s.logged, rfl⟩
  · split
    · exact ⟨s.logged, rfl⟩
    · exact ⟨_, rfl⟩

/-- An event with a logger is passed to it. -/
theorem logInternal_eq {s : AsyncLogger} (hloggers : ∀ call ∈ s.pushes, call.event.logger ≠ none)
    {p : ℕ} {call : PushCall} (h : s.pushes[p]? = some call) :
    s.logInternal p = { s with logged := s.logged ++ [(call.event.level, p)] } := by
  have hlogger := hloggers call (List.mem_of_getElem? h)
  unfold logInternal
  rw [h]
  cases hname : call.event.logger with
  | none => exact absurd hname hlogger
  | some name => simp [hname]

namespace Accounted

variable {s s' : AsyncLogger}

theorem initial : Accounted {} where
  loggers := fun call hcall ↦ by cases hcall
  places := fun p ↦ by simp [AsyncLogger.places, timesPlaced]

/-- The events stay where they are, up to their order. -/
theorem of_same (h : s.Accounted) (hpushes : s'.pushes = s.pushes)
    (hplaces : ∀ p, s'.places.count p = s.places.count p) : s'.Accounted where
  loggers := by
    rw [hpushes]
    exact h.loggers
  places := by
    intro p
    unfold timesPlaced
    rw [hplaces, h.places, hpushes]
    rfl

theorem push (h : s.Accounted) {event : LogEvent} (hlogger : event.logger ≠ none) :
    Accounted { s with pushes := s.pushes ++ [⟨event, .loading⟩] } where
  loggers := by
    intro call hcall
    rcases List.mem_append.mp hcall with hold | hnew
    · exact h.loggers call hold
    · rw [List.mem_singleton.mp hnew]
      exact hlogger
  places := by
    intro p
    refine (h.places p).trans ?_
    unfold timesPlaced
    rcases Nat.lt_trichotomy p s.pushes.length with hlt | rfl | hgt
    · rw [List.getElem?_append_left hlt]
    · simp [PushState.timesPlaced]
    · rw [List.getElem?_eq_none hgt.le, List.getElem?_eq_none (by simp; omega)]

/-- A push takes a step, which places its event or not. -/
theorem setPush (h : s.Accounted) {p : ℕ} {call : PushCall} (hcall : s.pushes[p]? = some call)
    {state : PushState} (hpushes : s'.pushes = s.pushes.set p { call with state := state })
    (hplaces : ∀ q, s'.places.count q + (if q = p then call.state.timesPlaced else 0) =
      s.places.count q + if q = p then state.timesPlaced else 0) : s'.Accounted where
  loggers := by
    intro c hc
    rw [hpushes] at hc
    rcases List.mem_or_eq_of_mem_set hc with hold | rfl
    · exact h.loggers c hold
    · exact h.loggers call (List.mem_of_getElem? hcall)
  places := by
    intro q
    obtain ⟨hlt, -⟩ := List.getElem?_eq_some_iff.mp hcall
    have hq := hplaces q
    rw [h.places] at hq
    unfold timesPlaced at hq ⊢
    rw [hpushes]
    by_cases heq : q = p
    · subst heq
      simp only [hcall, if_pos, Option.map_some, Option.getD_some] at hq
      simp only [List.getElem?_set_self hlt, Option.map_some, Option.getD_some]
      omega
    · rw [if_neg heq, if_neg heq] at hq
      rw [List.getElem?_set_ne (Ne.symm heq)]
      exact hq

theorem pushStep (h : s.Accounted) {p : ℕ} {call : PushCall} (hcall : s.pushes[p]? = some call)
    (hstep : s.pushStep p call = some s') : s'.Accounted := by
  unfold AsyncLogger.pushStep at hstep
  cases hstate : call.state with
  | loading =>
    rw [hstate] at hstep
    cases hstep
    refine h.setPush hcall rfl fun q ↦ ?_
    rw [hstate]
    cases s.running <;> rfl
  | direct =>
    rw [hstate, logInternal_eq h.loggers hcall] at hstep
    cases hstep
    refine h.setPush hcall rfl fun q ↦ ?_
    rw [hstate]
    simp only [AsyncLogger.places, AsyncLogger.setPush, PushState.timesPlaced, List.map_append,
      List.map_cons, List.map_nil, List.count_append, count_single, ite_self]
    omega
  | queueing =>
    rw [hstate] at hstep
    cases hstep
    refine h.setPush hcall rfl fun q ↦ ?_
    rw [hstate]
    simp only [AsyncLogger.places, AsyncLogger.setPush, PushState.timesPlaced,
      List.count_append, count_single, ite_self]
    omega
  | notifying =>
    rw [hstate] at hstep
    cases hstep
    refine h.setPush hcall rfl fun q ↦ ?_
    rw [hstate]
    rfl
  | returned =>
    rw [hstate] at hstep
    cases hstep

theorem startStep (h : s.Accounted) {i : ℕ} {state : StartState}
    (hstep : s.startStep i state = some s') : s'.Accounted := by
  cases state with
  | storing =>
    cases hstep
    exact h.of_same rfl fun _ ↦ rfl
  | creating =>
    cases hstep
    refine h.of_same rfl fun q ↦ ?_
    simp [AsyncLogger.places, AsyncLogger.setStart, RunState.held]
  | assigning thread =>
    cases hstep
    exact h.of_same rfl fun _ ↦ rfl
  | returned => cases hstep

theorem stopStep (h : s.Accounted) {i : ℕ} {state : StopState}
    (hstep : s.stopStep i state = some s') : s'.Accounted := by
  unfold AsyncLogger.stopStep at hstep
  split at hstep
  · cases hstep
    exact h.of_same rfl fun _ ↦ rfl
  · cases hstep
    exact h.of_same rfl fun _ ↦ rfl
  · split at hstep <;> cases hstep <;> exact h.of_same rfl fun _ ↦ rfl
  · split at hstep <;> cases hstep
    exact h.of_same rfl fun _ ↦ rfl
  · cases hstep
    exact h.of_same rfl fun _ ↦ rfl
  · cases hstep
    exact h.of_same rfl fun _ ↦ rfl
  · cases hstep

/-- An event that is somewhere is that of a push. -/
theorem exists_call (h : s.Accounted) {p : ℕ} (hmem : p ∈ s.places) :
    ∃ call, s.pushes[p]? = some call := by
  have hpos : 0 < s.places.count p := List.count_pos_iff.mpr hmem
  rw [h.places, timesPlaced] at hpos
  cases hcall : s.pushes[p]? with
  | none => simp [hcall] at hpos
  | some call => exact ⟨call, rfl⟩

/-- A thread that moves on. -/
theorem setThread (h : s.Accounted) {t : ℕ} {state : RunState} (hstate : s.threads[t]? = some state)
    {state' : RunState} (hpushes : s'.pushes = s.pushes)
    (hthreads : s'.threads = s.threads.set t state')
    (hplaces : ∀ q, (s'.logged.map Prod.snd).count q + s'.queue.count q + state'.held.count q =
      (s.logged.map Prod.snd).count q + s.queue.count q + state.held.count q) : s'.Accounted := by
  refine h.of_same hpushes fun q ↦ ?_
  have hset := count_held_set hstate state' q
  have hq := hplaces q
  simp only [AsyncLogger.places, List.count_append, hthreads]
  omega

theorem logs (h : s.Accounted) {t p : ℕ} {events : List ℕ} {state : RunState}
    (hstate : s.threads[t]? = some state) (hheld : state.held = p :: events) {state' : RunState}
    (hheld' : state'.held = events) : ((s.logInternal p).setThread t state').Accounted := by
  have hmem : p ∈ s.places := by
    refine List.mem_append_right _ (List.mem_flatMap.mpr ⟨state, List.mem_of_getElem? hstate, ?_⟩)
    rw [hheld]
    exact List.mem_cons_self
  obtain ⟨call, hcall⟩ := h.exists_call hmem
  rw [logInternal_eq h.loggers hcall]
  refine h.setThread hstate rfl rfl fun q ↦ ?_
  have hcons : (p :: events).count q = [p].count q + events.count q := by
    rw [← List.singleton_append, List.count_append]
  simp only [AsyncLogger.setThread, List.map_append, List.map_cons, List.map_nil,
    List.count_append, hheld, hheld', hcons]
  omega

/-- A thread takes the events of the queue, logs one of its own, or moves on. -/
theorem runStep (h : s.Accounted) {t : ℕ} {state : RunState} (hstate : s.threads[t]? = some state)
    (hstep : s.runStep t state = some s') : s'.Accounted := by
  unfold AsyncLogger.runStep at hstep
  split at hstep
  · split at hstep <;> cases hstep
    exact h.setThread hstate rfl rfl fun _ ↦ rfl
  · cases hstep
    exact h.setThread hstate rfl rfl fun q ↦ by simp [RunState.held, AsyncLogger.setThread]
  · cases hstep
    exact h.logs hstate rfl rfl
  · cases hstep
    refine h.setThread hstate rfl rfl fun q ↦ ?_
    cases s.stopping <;> rfl
  · cases hstep
    refine h.setThread hstate rfl rfl fun q ↦ ?_
    split <;> rfl
  · cases hstep
    exact h.setThread hstate rfl rfl fun q ↦ by simp [RunState.held, AsyncLogger.setThread]
  · cases hstep
    exact h.logs hstate rfl rfl
  · cases hstep
    exact h.setThread hstate rfl rfl fun _ ↦ rfl
  · cases hstep

/-- Every step of a logger whose events have loggers keeps the events accounted for. -/
theorem step (h : s.Accounted) {a : AsyncAction} (ha : s.Orderly a) (hstep : s.step a = some s') :
    s'.Accounted := by
  cases a with
  | push event =>
    cases hstep
    exact h.push ha
  | pushStep p =>
    obtain ⟨call, hcall, hstep⟩ := Option.bind_eq_some_iff.mp hstep
    exact h.pushStep hcall hstep
  | start =>
    cases hstep
    unfold AsyncLogger.start
    split <;> exact h.of_same rfl fun _ ↦ rfl
  | startStep i =>
    obtain ⟨state, -, hstep⟩ := Option.bind_eq_some_iff.mp hstep
    exact h.startStep hstep
  | stop =>
    cases hstep
    unfold AsyncLogger.stop
    split <;> exact h.of_same rfl fun _ ↦ rfl
  | stopStep i =>
    obtain ⟨state, -, hstep⟩ := Option.bind_eq_some_iff.mp hstep
    exact h.stopStep hstep
  | runStep t =>
    obtain ⟨state, hstate, hstep⟩ := Option.bind_eq_some_iff.mp hstep
    exact h.runStep hstate hstep

end Accounted

/-! ### The phases of calls that take turns -/

section Only

variable {α : Type*} {rest : α → Prop} {l : List α} {i : ℕ} {a b : α}

/-- All but the element at one place are of the given kind. -/
def Only (rest : α → Prop) (l : List α) (i : ℕ) (a : α) : Prop :=
  l[i]? = some a ∧ ∀ j b, l[j]? = some b → j ≠ i → rest b

theorem only_concat (h : ∀ b ∈ l, rest b) (a : α) : Only rest (l ++ [a]) l.length a := by
  refine ⟨by simp, fun j b hb hj ↦ ?_⟩
  have hlt : j < l.length := by
    have hle := (List.getElem?_eq_some_iff.mp hb).1
    rw [List.length_append, List.length_singleton] at hle
    omega
  rw [List.getElem?_append_left hlt] at hb
  exact h b (List.mem_of_getElem? hb)

theorem Only.concat (h : Only rest l i a) (hb : rest b) : Only rest (l ++ [b]) i a := by
  obtain ⟨hlt, -⟩ := List.getElem?_eq_some_iff.mp h.1
  refine ⟨by rw [List.getElem?_append_left hlt, h.1], fun j c hc hj ↦ ?_⟩
  rcases Nat.lt_or_ge j l.length with hold | hnew
  · rw [List.getElem?_append_left hold] at hc
    exact h.2 j c hc hj
  · rw [List.getElem?_append_right hnew] at hc
    rwa [List.mem_singleton.mp (List.mem_of_getElem? hc)]

theorem Only.set (h : Only rest l i a) (b : α) : Only rest (l.set i b) i b := by
  obtain ⟨hlt, -⟩ := List.getElem?_eq_some_iff.mp h.1
  refine ⟨List.getElem?_set_self hlt, fun j c hc hj ↦ ?_⟩
  rw [List.getElem?_set_ne (Ne.symm hj)] at hc
  exact h.2 j c hc hj

theorem forall_concat (h : ∀ b ∈ l, rest b) (ha : rest a) : ∀ b ∈ l ++ [a], rest b := by
  intro b hb
  rcases List.mem_append.mp hb with hb | hb
  · exact h b hb
  · rwa [List.mem_singleton.mp hb]

/-- The element becomes one of the others. -/
theorem Only.set_rest (h : Only rest l i a) (hb : rest b) : ∀ c ∈ l.set i b, rest c := by
  intro c hc
  obtain ⟨j, hj⟩ := List.mem_iff_getElem?.mp hc
  by_cases heq : j = i
  · subst heq
    rw [(h.set b).1] at hj
    cases hj
    exact hb
  · exact (h.set b).2 j c hj heq

theorem Only.eq (h : Only rest l i a) {j : ℕ} (hb : l[j]? = some b) (hnot : ¬ rest b) :
    j = i ∧ b = a := by
  by_cases heq : j = i
  · subst heq
    exact ⟨rfl, Option.some.inj (hb.symm.trans h.1)⟩
  · exact absurd (h.2 j b hb heq) hnot

end Only

/-- The thread is in the loop and has not seen that it is to stop. -/
def Loops : RunState → Prop
  | .waiting | .swapping | .logging _ => True
  | _ => False

/-- Calls of `start` and `stop` that have returned, and threads that have ended. -/
abbrev Started (start : StartState) : Prop := start = .returned

abbrev Stopped (stop : StopState) : Prop := stop.began ≠ none

abbrev Ended (thread : RunState) : Prop := thread = .finished

inductive Phase (s : AsyncLogger) : Prop
  | idle (hrunning : s.running = false) (hstarts : ∀ start ∈ s.starts, Started start)
      (hstops : ∀ stop ∈ s.stops, Stopped stop) (hthreads : ∀ thread ∈ s.threads, Ended thread)
      (hthread : s.thread = none) (hqueue : s.queue = [])
  | starting (i : ℕ) (state : StartState) (hrunning : s.running = true)
      (hstarts : Only Started s.starts i state)
      (hstate : state = .storing ∨ state = .creating ∧ s.stopping = false)
      (hstops : ∀ stop ∈ s.stops, Stopped stop) (hthreads : ∀ thread ∈ s.threads, Ended thread)
  | created (i t : ℕ) (r : RunState) (hrunning : s.running = true) (hstopping : s.stopping = false)
      (hstarts : Only Started s.starts i (.assigning t))
      (hstops : ∀ stop ∈ s.stops, Stopped stop) (hthreads : Only Ended s.threads t r)
      (hloops : Loops r)
  | started (t : ℕ) (r : RunState) (hrunning : s.running = true) (hstopping : s.stopping = false)
      (hstarts : ∀ start ∈ s.starts, Started start) (hstops : ∀ stop ∈ s.stops, Stopped stop)
      (hthreads : Only Ended s.threads t r) (hloops : Loops r) (hthread : s.thread = some t)
  /-- Nothing is queued any more once the thread has looked into the queue for the last time. -/
  | stopping (i t : ℕ) (state : StopState) (r : RunState) (hrunning : s.running = false)
      (hstarts : ∀ start ∈ s.starts, Started start) (hstops : Only Stopped s.stops i state)
      (hjoin : ∀ t', state = .joining t' → t' = t) (hreset : state = .resetting → r = .finished)
      (hstate : ¬ Stopped state ∧ state ≠ .clearing)
      (hthreads : Only Ended s.threads t r) (hthread : s.thread = some t)
      (hqueue : ¬ r.LooksAgain → s.queue = [])
  | clearing (i : ℕ) (hrunning : s.running = false)
      (hstarts : ∀ start ∈ s.starts, Started start) (hstops : Only Stopped s.stops i .clearing)
      (hthreads : ∀ thread ∈ s.threads, Ended thread) (hthread : s.thread = none)
      (hqueue : s.queue = [])

namespace Phase

variable {s s' : AsyncLogger}

theorem initial : Phase {} :=
  .idle rfl (fun _ h ↦ by cases h) (fun _ h ↦ by cases h) (fun _ h ↦ by cases h) rfl rfl

/-- The pushes, the semaphore and what is logged play no part. -/
theorem frame (h : s.Phase) (pushes : List PushCall) (sem : ℕ) (logged : List (LogLevel × ℕ)) :
    Phase { s with pushes := pushes, sem := sem, logged := logged } := by
  cases h with
  | idle hrunning hstarts hstops hthreads hthread hqueue =>
    exact .idle hrunning hstarts hstops hthreads hthread hqueue
  | starting i state hrunning hstarts hstate hstops hthreads =>
    exact .starting i state hrunning hstarts hstate hstops hthreads
  | created i t r hrunning hstopping hstarts hstops hthreads hloops =>
    exact .created i t r hrunning hstopping hstarts hstops hthreads hloops
  | started t r hrunning hstopping hstarts hstops hthreads hloops hthread =>
    exact .started t r hrunning hstopping hstarts hstops hthreads hloops hthread
  | stopping i t state r hrunning hstarts hstops hjoin hreset hstate hthreads hthread hqueue =>
    exact .stopping i t state r hrunning hstarts hstops hjoin hreset hstate hthreads hthread hqueue
  | clearing i hrunning hstarts hstops hthreads hthread hqueue =>
    exact .clearing i hrunning hstarts hstops hthreads hthread hqueue

/-- An event is queued while a thread will look into the queue again. -/
theorem queue (h : s.Phase)
    (hlooks : s.running = true ∨ ∃ thread ∈ s.threads, thread.LooksAgain) (queue : List ℕ) :
    Phase { s with queue := queue } := by
  have hnone : (∀ thread ∈ s.threads, Ended thread) →
      ¬ ∃ thread ∈ s.threads, thread.LooksAgain := by
    rintro hthreads ⟨thread, hmem, hagain⟩
    rw [hthreads thread hmem] at hagain
    exact hagain
  cases h with
  | idle hrunning hstarts hstops hthreads hthread hqueue =>
    rw [hrunning] at hlooks
    exact absurd (hlooks.resolve_left Bool.false_ne_true) (hnone hthreads)
  | starting i state hrunning hstarts hstate hstops hthreads =>
    exact .starting i state hrunning hstarts hstate hstops hthreads
  | created i t r hrunning hstopping hstarts hstops hthreads hloops =>
    exact .created i t r hrunning hstopping hstarts hstops hthreads hloops
  | started t r hrunning hstopping hstarts hstops hthreads hloops hthread =>
    exact .started t r hrunning hstopping hstarts hstops hthreads hloops hthread
  | stopping i t state r hrunning hstarts hstops hjoin hreset hstate hthreads hthread hqueue =>
    refine .stopping i t state r hrunning hstarts hstops hjoin hreset hstate hthreads hthread ?_
    intro hlast
    rw [hrunning] at hlooks
    obtain ⟨thread, hmem, hagain⟩ := hlooks.resolve_left Bool.false_ne_true
    obtain ⟨j, hj⟩ := List.mem_iff_getElem?.mp hmem
    have hnot : ¬ Ended thread := by
      rintro rfl
      exact hagain
    obtain ⟨-, rfl⟩ := hthreads.eq hj hnot
    exact absurd hagain hlast
  | clearing i hrunning hstarts hstops hthreads hthread hqueue =>
    rw [hrunning] at hlooks
    exact absurd (hlooks.resolve_left Bool.false_ne_true) (hnone hthreads)

/-- A call of `start` that sets `m_running` begins when no other is on its way. -/
theorem start (h : s.Phase) (ha : s.running = true ∨ s.Quiet) : s.start.Phase := by
  unfold AsyncLogger.start
  cases h with
  | idle hrunning hstarts hstops hthreads hthread hqueue =>
    rw [if_neg (by rw [hrunning]; exact Bool.false_ne_true)]
    exact .starting _ .storing rfl (only_concat hstarts _) (.inl rfl) hstops hthreads
  | starting i state hrunning hstarts hstate hstops hthreads =>
    rw [if_pos hrunning]
    exact .starting i state hrunning (hstarts.concat rfl) hstate hstops hthreads
  | created i t r hrunning hstopping hstarts hstops hthreads hloops =>
    rw [if_pos hrunning]
    exact .created i t r hrunning hstopping (hstarts.concat rfl) hstops hthreads hloops
  | started t r hrunning hstopping hstarts hstops hthreads hloops hthread =>
    rw [if_pos hrunning]
    exact .started t r hrunning hstopping (forall_concat hstarts rfl) hstops hthreads hloops hthread
  | stopping i t state r hrunning hstarts hstops hjoin hreset hstate hthreads hthread hqueue =>
    have hquiet := ha.resolve_left (by rw [hrunning]; exact Bool.false_ne_true)
    exact absurd (hquiet.2 state (List.mem_of_getElem? hstops.1)) hstate.1
  | clearing i hrunning hstarts hstops hthreads hthread hqueue =>
    have hquiet := ha.resolve_left (by rw [hrunning]; exact Bool.false_ne_true)
    exact absurd rfl (hquiet.2 .clearing (List.mem_of_getElem? hstops.1))

theorem startStep (h : s.Phase) {i : ℕ} {state : StartState} (hstate : s.starts[i]? = some state)
    (hstep : s.startStep i state = some s') : s'.Phase := by
  have hnot : ¬ Started state := by
    rintro rfl
    cases hstep
  have hquiet : ¬ ∀ start ∈ s.starts, Started start :=
    fun hall ↦ hnot (hall state (List.mem_of_getElem? hstate))
  cases h with
  | idle _ hstarts => exact absurd hstarts hquiet
  | starting i' state' hrunning hstarts hstate' hstops hthreads =>
    obtain ⟨rfl, rfl⟩ := hstarts.eq hstate hnot
    rcases hstate' with rfl | ⟨rfl, hstopping⟩
    · cases hstep
      exact .starting i .creating hrunning (hstarts.set _) (.inr ⟨rfl, rfl⟩) hstops hthreads
    · cases hstep
      exact .created i _ .waiting hrunning hstopping (hstarts.set _) hstops
        (only_concat hthreads _) trivial
  | created i' t r hrunning hstopping hstarts hstops hthreads hloops =>
    obtain ⟨rfl, rfl⟩ := hstarts.eq hstate hnot
    cases hstep
    exact .started t r hrunning hstopping (hstarts.set_rest rfl) hstops hthreads hloops rfl
  | started _ _ _ _ hstarts => exact absurd hstarts hquiet
  | stopping _ _ _ _ _ hstarts => exact absurd hstarts hquiet
  | clearing _ _ hstarts => exact absurd hstarts hquiet

/-- A call of `stop` begins when no other is on its way. -/
theorem stop (h : s.Phase) (ha : s.Quiet) : s.stop.Phase := by
  unfold AsyncLogger.stop
  cases h with
  | idle hrunning hstarts hstops hthreads hthread hqueue =>
    rw [if_neg (by rw [hrunning]; exact Bool.false_ne_true)]
    exact .idle hrunning hstarts (forall_concat hstops nofun) hthreads hthread hqueue
  | starting i state hrunning hstarts hstate hstops hthreads =>
    have hreturned : state = .returned := ha.1 state (List.mem_of_getElem? hstarts.1)
    rcases hstate with rfl | ⟨rfl, -⟩ <;> cases hreturned
  | created i t r hrunning hstopping hstarts hstops hthreads hloops =>
    cases ha.1 _ (List.mem_of_getElem? hstarts.1)
  | started t r hrunning hstopping hstarts hstops hthreads hloops hthread =>
    rw [if_pos hrunning]
    refine .stopping _ t .setting r rfl hstarts (only_concat hstops _) nofun nofun
      ⟨fun hstopped ↦ hstopped rfl, nofun⟩ hthreads hthread fun hlast ↦ ?_
    cases r <;> first | exact absurd trivial hlast | exact hloops.elim
  | stopping i t state r hrunning hstarts hstops hjoin hreset hstate hthreads hthread hqueue =>
    exact absurd (ha.2 state (List.mem_of_getElem? hstops.1)) hstate.1
  | clearing i hrunning hstarts hstops hthreads hthread hqueue =>
    exact absurd rfl (ha.2 .clearing (List.mem_of_getElem? hstops.1))

theorem stopStep (h : s.Phase) {i : ℕ} {state : StopState} (hstate : s.stops[i]? = some state)
    (hstep : s.stopStep i state = some s') : s'.Phase := by
  have hnot : ¬ Stopped state := by
    cases state with
    | returned began => cases hstep
    | _ => exact fun hstopped ↦ hstopped rfl
  have hquiet : ¬ ∀ stop ∈ s.stops, Stopped stop :=
    fun hall ↦ hnot (hall state (List.mem_of_getElem? hstate))
  cases h with
  | idle _ _ hstops => exact absurd hstops hquiet
  | starting _ _ _ _ _ hstops => exact absurd hstops hquiet
  | created _ _ _ _ _ _ hstops => exact absurd hstops hquiet
  | started _ _ _ _ _ hstops => exact absurd hstops hquiet
  | stopping i' t state' r hrunning hstarts hstops hjoin hreset hstate' hthreads hthread hqueue =>
    obtain ⟨rfl, rfl⟩ := hstops.eq hstate hnot
    -- On its way the call of `stop` changes neither the queue nor the threads.
    have hmoves : ∀ next : StopState, (∀ t', next = .joining t' → t' = t) →
        (next = .resetting → r = .finished) → ¬ Stopped next ∧ next ≠ .clearing →
        (s.setStop i next).Phase := fun next hjoin' hreset' hnext ↦
      .stopping i t next r hrunning hstarts (hstops.set next) hjoin' hreset' hnext hthreads hthread
        hqueue
    cases state with
    | setting =>
      cases hstep
      exact .stopping i t .notifying r hrunning hstarts (hstops.set _) nofun nofun
        ⟨fun hstopped ↦ hstopped rfl, nofun⟩ hthreads hthread hqueue
    | notifying =>
      cases hstep
      exact (hmoves .looking nofun nofun ⟨fun hstopped ↦ hstopped rfl, nofun⟩).frame _ _ _
    | looking =>
      simp only [AsyncLogger.stopStep, hthread] at hstep
      cases hstep
      refine hmoves (.joining t) (fun t' heq ↦ ?_) nofun ⟨fun hstopped ↦ hstopped rfl, nofun⟩
      cases heq
      rfl
    | joining t' =>
      obtain rfl := hjoin t' rfl
      simp only [AsyncLogger.stopStep] at hstep
      split at hstep
      · rename_i hended
        cases hstep
        refine hmoves .resetting nofun (fun _ ↦ ?_) ⟨fun hstopped ↦ hstopped rfl, nofun⟩
        exact Option.some.inj (hthreads.1.symm.trans hended)
      · cases hstep
    | resetting =>
      obtain rfl := hreset rfl
      cases hstep
      refine .clearing i hrunning hstarts (hstops.set _) (fun thread hmem ↦ ?_) rfl (hqueue id)
      obtain ⟨j, hj⟩ := List.mem_iff_getElem?.mp hmem
      by_contra hrunning'
      exact hrunning' (hthreads.eq hj hrunning').2
    | clearing => exact absurd rfl hstate'.2
    | returned began => cases hstep
  | clearing i' hrunning hstarts hstops hthreads hthread hqueue =>
    obtain ⟨rfl, rfl⟩ := hstops.eq hstate hnot
    cases hstep
    exact .idle hrunning hstarts (hstops.set_rest nofun) hthreads hthread hqueue

/-- A thread in the loop stays there as long as it is not to stop. -/
theorem runStep_loops {t : ℕ} {state : RunState} (hloops : Loops state)
    (hstopping : s.stopping = false) (hstep : s.runStep t state = some s') :
    ∃ next, Loops next ∧ ∃ queue sem logged, s' = { s.setThread t next with
      queue := queue, sem := sem, logged := logged } := by
  cases state with
  | waiting =>
    simp only [AsyncLogger.runStep] at hstep
    split at hstep
    · cases hstep
    · cases hstep
      exact ⟨.swapping, trivial, _, _, _, rfl⟩
  | swapping =>
    cases hstep
    exact ⟨.logging s.queue, trivial, _, _, _, rfl⟩
  | logging events =>
    cases events with
    | nil =>
      simp only [AsyncLogger.runStep, hstopping] at hstep
      cases hstep
      exact ⟨.waiting, trivial, _, _, _, rfl⟩
    | cons p events =>
      obtain ⟨logged, heq⟩ := s.logInternal_frame p
      simp only [AsyncLogger.runStep, heq] at hstep
      cases hstep
      exact ⟨.logging events, trivial, _, _, _, rfl⟩
  | checking => exact hloops.elim
  | lastSwapping => exact hloops.elim
  | lastLogging events => exact hloops.elim
  | finished => exact hloops.elim

/-- A thread that looks into the queue for the last time leaves it empty. -/
theorem runStep_queue {t : ℕ} {state : RunState} (hstep : s.runStep t state = some s') :
    ∃ next, ∃ queue sem logged, s' = { s.setThread t next with
      queue := queue, sem := sem, logged := logged } ∧
        (¬ next.LooksAgain → queue = [] ∨ queue = s.queue ∧ ¬ state.LooksAgain) := by
  unfold AsyncLogger.runStep at hstep
  split at hstep
  · split at hstep
    · cases hstep
    · cases hstep
      exact ⟨.swapping, _, _, _, rfl, fun hlast ↦ absurd trivial hlast⟩
  · cases hstep
    exact ⟨.logging s.queue, _, _, _, rfl, fun _ ↦ .inl rfl⟩
  · rename_i p events
    obtain ⟨logged, heq⟩ := s.logInternal_frame p
    rw [heq] at hstep
    cases hstep
    exact ⟨.logging events, _, _, _, rfl, fun hlast ↦ absurd trivial hlast⟩
  · cases hstep
    refine ⟨_, _, _, _, rfl, fun hlast ↦ absurd ?_ hlast⟩
    split <;> trivial
  · cases hstep
    refine ⟨_, _, _, _, rfl, fun hlast ↦ absurd ?_ hlast⟩
    split <;> trivial
  · cases hstep
    exact ⟨.lastLogging s.queue, _, _, _, rfl, fun _ ↦ .inl rfl⟩
  · rename_i p events
    obtain ⟨logged, heq⟩ := s.logInternal_frame p
    rw [heq] at hstep
    cases hstep
    exact ⟨.lastLogging events, _, _, _, rfl, fun _ ↦ .inr ⟨rfl, id⟩⟩
  · cases hstep
    exact ⟨.finished, _, _, _, rfl, fun _ ↦ .inr ⟨rfl, id⟩⟩
  · cases hstep

theorem runStep (h : s.Phase) {t : ℕ} {state : RunState} (hstate : s.threads[t]? = some state)
    (hstep : s.runStep t state = some s') : s'.Phase := by
  have hnot : ¬ Ended state := by
    rintro rfl
    cases hstep
  have hbusy : ¬ ∀ thread ∈ s.threads, Ended thread :=
    fun hall ↦ hnot (hall state (List.mem_of_getElem? hstate))
  cases h with
  | idle _ _ _ hthreads => exact absurd hthreads hbusy
  | starting _ _ _ _ _ _ hthreads => exact absurd hthreads hbusy
  | created i t' r hrunning hstopping hstarts hstops hthreads hloops =>
    obtain ⟨rfl, rfl⟩ := hthreads.eq hstate hnot
    obtain ⟨next, hnext, queue, sem, logged, rfl⟩ := runStep_loops hloops hstopping hstep
    exact .created i t next hrunning hstopping hstarts hstops (hthreads.set next) hnext
  | started t' r hrunning hstopping hstarts hstops hthreads hloops hthread =>
    obtain ⟨rfl, rfl⟩ := hthreads.eq hstate hnot
    obtain ⟨next, hnext, queue, sem, logged, rfl⟩ := runStep_loops hloops hstopping hstep
    exact .started t next hrunning hstopping hstarts hstops (hthreads.set next) hnext hthread
  | stopping i t' stop r hrunning hstarts hstops hjoin hreset hstop hthreads hthread hqueue =>
    obtain ⟨rfl, rfl⟩ := hthreads.eq hstate hnot
    obtain ⟨next, queue, sem, logged, rfl, hlooks⟩ := runStep_queue hstep
    refine .stopping i t stop next hrunning hstarts hstops hjoin
      (fun heq ↦ absurd (hreset heq) hnot) hstop (hthreads.set next) hthread fun hlast ↦ ?_
    rcases hlooks hlast with hempty | ⟨hsame, hlast'⟩
    · exact hempty
    · exact hsame.trans (hqueue hlast')
  | clearing _ _ _ _ hthreads => exact absurd hthreads hbusy

/-- Every orderly step leads from phase to phase. -/
theorem step (h : s.Phase) {a : AsyncAction} (ha : s.Orderly a) (hstep : s.step a = some s') :
    s'.Phase := by
  cases a with
  | push event =>
    cases hstep
    exact h.frame _ _ _
  | pushStep p =>
    obtain ⟨call, hcall, hstep⟩ := Option.bind_eq_some_iff.mp hstep
    unfold AsyncLogger.pushStep at hstep
    split at hstep
    · cases hstep
      exact h.frame _ _ _
    · obtain ⟨logged, heq⟩ := s.logInternal_frame p
      rw [heq] at hstep
      cases hstep
      exact h.frame _ _ _
    · rename_i hqueueing
      cases hstep
      exact (h.queue (ha ⟨call, hcall, hqueueing⟩).1 _).frame _ _ _
    · cases hstep
      exact h.frame _ _ _
    · cases hstep
  | start =>
    cases hstep
    exact h.start ha
  | startStep i =>
    obtain ⟨state, hstate, hstep⟩ := Option.bind_eq_some_iff.mp hstep
    exact h.startStep hstate hstep
  | stop =>
    cases hstep
    exact h.stop ha
  | stopStep i =>
    obtain ⟨state, hstate, hstep⟩ := Option.bind_eq_some_iff.mp hstep
    exact h.stopStep hstate hstep
  | runStep t =>
    obtain ⟨state, hstate, hstep⟩ := Option.bind_eq_some_iff.mp hstep
    exact h.runStep hstate hstep

end Phase

/-! ### What is on its way when a call of `stop` returns -/

/-- The events that are queued or held by a thread. -/
def onTheWay (s : AsyncLogger) : List ℕ :=
  s.queue ++ s.threads.flatMap RunState.held

/-- No event of a push that began before a `stop` returned is on its way. -/
def Settled (s : AsyncLogger) : Prop :=
  ∀ stop ∈ s.stops, ∀ began ∈ stop.began, ∀ p < began, p ∉ s.onTheWay

section Settled

variable {s s' : AsyncLogger}

theorem onTheWay_of_ended (hthreads : ∀ thread ∈ s.threads, Ended thread) (hqueue : s.queue = []) :
    s.onTheWay = [] := by
  have hheld : s.threads.flatMap RunState.held = [] := by
    rw [List.flatMap_eq_nil_iff]
    intro thread hmem
    rw [hthreads thread hmem]
    rfl
  rw [onTheWay, hqueue, hheld]
  rfl

/-- A thread gets no event but those of the queue. -/
theorem mem_onTheWay_setThread {t : ℕ} {state next : RunState} {queue : List ℕ}
    (hstate : s.threads[t]? = some state)
    (hqueue : ∀ p, p ∈ queue → p ∈ s.queue) (hheld : ∀ p ∈ next.held, p ∈ s.queue ∨ p ∈ state.held)
    {p : ℕ} (hp : p ∈ queue ++ (s.threads.set t next).flatMap RunState.held) : p ∈ s.onTheWay := by
  rcases List.mem_append.mp hp with hp | hp
  · exact List.mem_append_left _ (hqueue p hp)
  · obtain ⟨thread, hmem, hin⟩ := List.mem_flatMap.mp hp
    rcases List.mem_or_eq_of_mem_set hmem with hold | rfl
    · exact List.mem_append_right _ (List.mem_flatMap.mpr ⟨thread, hold, hin⟩)
    · rcases hheld p hin with hin | hin
      · exact List.mem_append_left _ hin
      · exact List.mem_append_right _
          (List.mem_flatMap.mpr ⟨state, List.mem_of_getElem? hstate, hin⟩)

theorem onTheWay_runStep {t : ℕ} {state : RunState} (hstate : s.threads[t]? = some state)
    (hstep : s.runStep t state = some s') {p : ℕ} (hp : p ∈ s'.onTheWay) : p ∈ s.onTheWay := by
  have hlogs : ∀ q events (next : RunState), state.held = q :: events → next.held = events →
      p ∈ ((s.logInternal q).setThread t next).onTheWay → p ∈ s.onTheWay := by
    intro q events next hheld hnext hin
    obtain ⟨logged, heq⟩ := s.logInternal_frame q
    rw [heq] at hin
    refine mem_onTheWay_setThread hstate (fun _ h ↦ h) (fun r hr ↦ .inr ?_) hin
    rw [hheld]
    exact List.mem_cons_of_mem _ (hnext ▸ hr)
  have hmoves : ∀ next : RunState, next.held = [] → p ∈ (s.setThread t next).onTheWay →
      p ∈ s.onTheWay := by
    intro next hnext hin
    refine mem_onTheWay_setThread hstate (fun _ h ↦ h) (fun r hr ↦ ?_) hin
    rw [hnext] at hr
    cases hr
  have htakes : ∀ next : RunState, next.held = s.queue →
      p ∈ onTheWay { s.setThread t next with queue := [] } → p ∈ s.onTheWay := by
    intro next hnext hin
    refine mem_onTheWay_setThread hstate (fun r hr ↦ ?_) (fun r hr ↦ .inl (hnext ▸ hr)) hin
    cases hr
  unfold AsyncLogger.runStep at hstep
  split at hstep
  · split at hstep
    · cases hstep
    · cases hstep
      exact hmoves .swapping rfl hp
  · cases hstep
    exact htakes _ rfl hp
  · cases hstep
    exact hlogs _ _ _ rfl rfl hp
  · cases hstep
    exact hmoves _ (by split <;> rfl) hp
  · cases hstep
    exact hmoves _ (by split <;> rfl) hp
  · cases hstep
    exact htakes _ rfl hp
  · cases hstep
    exact hlogs _ _ _ rfl rfl hp
  · cases hstep
    exact hmoves .finished rfl hp
  · cases hstep

/-- Only what is queued gets on its way. -/
theorem onTheWay_step {a : AsyncAction} (hstep : s.step a = some s') {p : ℕ}
    (hp : p ∈ s'.onTheWay) : p ∈ s.onTheWay ∨
      a = .pushStep p ∧ ∃ call ∈ s.pushes[p]?, call.state = .queueing := by
  cases a with
  | push event =>
    cases hstep
    exact .inl hp
  | pushStep q =>
    obtain ⟨call, hcall, hstep⟩ := Option.bind_eq_some_iff.mp hstep
    unfold AsyncLogger.pushStep at hstep
    split at hstep
    · cases hstep
      exact .inl hp
    · obtain ⟨logged, heq⟩ := s.logInternal_frame q
      rw [heq] at hstep
      cases hstep
      exact .inl hp
    · rename_i hqueueing
      cases hstep
      rcases List.mem_append.mp hp with hp | hp
      · rcases List.mem_append.mp hp with hp | hp
        · exact .inl (List.mem_append_left _ hp)
        · obtain rfl := List.mem_singleton.mp hp
          exact .inr ⟨rfl, call, hcall, hqueueing⟩
      · exact .inl (List.mem_append_right _ hp)
    · cases hstep
      exact .inl hp
    · cases hstep
  | start =>
    cases hstep
    unfold AsyncLogger.start at hp
    split at hp <;> exact .inl hp
  | startStep i =>
    obtain ⟨state, -, hstep⟩ := Option.bind_eq_some_iff.mp hstep
    cases state with
    | storing =>
      cases hstep
      exact .inl hp
    | creating =>
      cases hstep
      simp only [onTheWay, setStart, List.flatMap_append] at hp
      simpa [onTheWay, RunState.held] using hp
    | assigning thread =>
      cases hstep
      exact .inl hp
    | returned => cases hstep
  | stop =>
    cases hstep
    unfold AsyncLogger.stop at hp
    split at hp <;> exact .inl hp
  | stopStep i =>
    obtain ⟨state, -, hstep⟩ := Option.bind_eq_some_iff.mp hstep
    unfold AsyncLogger.stopStep at hstep
    split at hstep
    · cases hstep
      exact .inl hp
    · cases hstep
      exact .inl hp
    · split at hstep <;> cases hstep <;> exact .inl hp
    · split at hstep <;> cases hstep
      exact .inl hp
    · cases hstep
      exact .inl hp
    · cases hstep
      exact .inl hp
    · cases hstep
  | runStep t =>
    obtain ⟨state, hstate, hstep⟩ := Option.bind_eq_some_iff.mp hstep
    exact .inl (onTheWay_runStep hstate hstep hp)

/-- A call of `stop` that returns leaves nothing on its way. -/
theorem stops_step (h : s.Phase) {a : AsyncAction} (ha : s.Orderly a)
    (hstep : s.step a = some s') {stop : StopState} (hstop : stop ∈ s'.stops)
    (hnew : stop ∉ s.stops) (hstopped : Stopped stop) : s'.onTheWay = [] := by
  cases a with
  | push event =>
    cases hstep
    exact absurd hstop hnew
  | pushStep p =>
    obtain ⟨call, -, hstep⟩ := Option.bind_eq_some_iff.mp hstep
    unfold AsyncLogger.pushStep at hstep
    split at hstep
    · cases hstep
      exact absurd hstop hnew
    · obtain ⟨logged, heq⟩ := s.logInternal_frame p
      rw [heq] at hstep
      cases hstep
      exact absurd hstop hnew
    · cases hstep
      exact absurd hstop hnew
    · cases hstep
      exact absurd hstop hnew
    · cases hstep
  | start =>
    cases hstep
    unfold AsyncLogger.start at hstop
    split at hstop <;> exact absurd hstop hnew
  | startStep i =>
    obtain ⟨state, -, hstep⟩ := Option.bind_eq_some_iff.mp hstep
    cases state <;> cases hstep <;> exact absurd hstop hnew
  | stop =>
    cases hstep
    unfold AsyncLogger.stop at hstop ⊢
    split at hstop
    · rcases List.mem_append.mp hstop with hold | hlast
      · exact absurd hold hnew
      · exact absurd (congrArg StopState.began (List.mem_singleton.mp hlast)) hstopped
    · rename_i hrunning
      rw [if_neg hrunning]
      -- Nothing else is on its way, so the logger is idle.
      cases h with
      | idle _ _ _ hthreads _ hqueue => exact onTheWay_of_ended hthreads hqueue
      | starting _ _ htrue => exact absurd htrue hrunning
      | created _ _ _ htrue => exact absurd htrue hrunning
      | started _ _ htrue => exact absurd htrue hrunning
      | stopping _ _ state _ _ _ hstops _ _ hstate =>
        exact absurd (ha.2 state (List.mem_of_getElem? hstops.1)) hstate.1
      | clearing _ _ _ hstops => exact absurd rfl (ha.2 .clearing (List.mem_of_getElem? hstops.1))
  | stopStep i =>
    obtain ⟨state, hstate, hstep⟩ := Option.bind_eq_some_iff.mp hstep
    have hmoves : ∀ next : StopState, stop ∈ s.stops.set i next → next.began = none → False := by
      intro next hmem hnone
      rcases List.mem_or_eq_of_mem_set hmem with hold | rfl
      · exact hnew hold
      · exact hstopped hnone
    cases state with
    | setting =>
      cases hstep
      exact (hmoves _ hstop rfl).elim
    | notifying =>
      cases hstep
      exact (hmoves _ hstop rfl).elim
    | looking =>
      simp only [AsyncLogger.stopStep] at hstep
      split at hstep <;> cases hstep <;> exact (hmoves _ hstop rfl).elim
    | joining t =>
      simp only [AsyncLogger.stopStep] at hstep
      split at hstep <;> cases hstep
      exact (hmoves _ hstop rfl).elim
    | resetting =>
      cases hstep
      exact (hmoves _ hstop rfl).elim
    | clearing =>
      cases hstep
      have hnot : ¬ Stopped .clearing := fun h ↦ h rfl
      have hquiet : ¬ ∀ stop ∈ s.stops, Stopped stop :=
        fun hall ↦ hnot (hall _ (List.mem_of_getElem? hstate))
      cases h with
      | idle _ _ hstops => exact absurd hstops hquiet
      | starting _ _ _ _ _ hstops => exact absurd hstops hquiet
      | created _ _ _ _ _ _ hstops => exact absurd hstops hquiet
      | started _ _ _ _ _ hstops => exact absurd hstops hquiet
      | stopping _ _ state' _ _ _ hstops _ _ hstate' =>
        exact absurd (hstops.eq hstate hnot).2.symm hstate'.2
      | clearing _ _ _ _ hthreads _ hqueue => exact onTheWay_of_ended hthreads hqueue
    | returned began => cases hstep
  | runStep t =>
    obtain ⟨state, -, hstep⟩ := Option.bind_eq_some_iff.mp hstep
    obtain ⟨next, queue, sem, logged, rfl, -⟩ := Phase.runStep_queue hstep
    exact absurd hstop hnew

theorem Settled.step (h : s.Settled) (hphase : s.Phase) {a : AsyncAction} (ha : s.Orderly a)
    (hstep : s.step a = some s') : s'.Settled := by
  intro stop hstop began hbegan p hp hway
  by_cases hold : stop ∈ s.stops
  · rcases onTheWay_step hstep hway with hway | ⟨rfl, hcall⟩
    · exact h stop hold began hbegan p hp hway
    · have hle := (ha hcall).2 stop hold began hbegan
      omega
  · have hstopped : Stopped stop := by
      rw [Option.mem_def] at hbegan
      rw [Stopped, hbegan]
      nofun
    rw [stops_step hphase ha hstep hstop hold hstopped] at hway
    cases hway

end Settled

/-! ### Delivery -/

structure DeliveryInv (s : AsyncLogger) : Prop where
  accounted : s.Accounted
  phase : s.Phase
  settled : s.Settled

theorem DeliveryInv.logged_once {s : AsyncLogger} (h : s.DeliveryInv) : s.Delivered := by
  intro stop hstop began hbegan hreturned p hp
  obtain ⟨call, hcall, hstate⟩ := hreturned p hp
  have hplaces := h.accounted.places p
  have hplaced : s.timesPlaced p = 1 := by
    rw [timesPlaced, Option.mem_def.mp hcall, Option.map_some, Option.getD_some, hstate]
    rfl
  have hway := List.count_eq_zero.mpr (h.settled stop hstop began hbegan p hp)
  rw [onTheWay, List.count_append] at hway
  rw [hplaced, AsyncLogger.places, List.count_append, List.count_append] at hplaces
  unfold timesLogged
  omega

/-- In an orderly run the events of the pushes that have begun before a `stop` returns are logged,
once each, when these pushes have returned. -/
theorem delivered (r : Run asyncLogger) (hr : r.Obeys Orderly) (k : ℕ) : (r.state k).Delivered := by
  have hinv : ∀ k, (r.state k).DeliveryInv := r.invariant
    ⟨Accounted.initial, Phase.initial, fun _ hstop ↦ by cases hstop⟩
    (fun s a s' h ha hstep ↦ ⟨h.accounted.step ha hstep, h.phase.step ha hstep,
      h.settled.step h.phase ha hstep⟩) hr
  exact (hinv k).logged_once

section Examples

/-- `start` up to its return, with the thread waiting for the semaphore. -/
def startAll : List AsyncAction :=
  [.start, .startStep 0, .startStep 0, .startStep 0]

/-- `stop` up to the join, while the thread takes the events and finds the queue empty. -/
def stopAndDrain : List AsyncAction :=
  [.stop, .stopStep 0, .stopStep 0, .stopStep 0, .runStep 0, .runStep 0]

def rootEvent : LogEvent :=
  ⟨some "root", .info⟩

/-- The event is queued while `run` waits, and the thread logs it in front of its last look. -/
def timelyActions : List AsyncAction :=
  startAll ++ [.push rootEvent, .pushStep 0, .pushStep 0] ++ stopAndDrain ++
    [.pushStep 0, .runStep 0, .runStep 0, .runStep 0, .runStep 0, .runStep 0] ++
    [.stopStep 0, .stopStep 0, .stopStep 0]

def timelyRun : Run asyncLogger :=
  .ofActions asyncLogger timelyActions (by decide +kernel)

theorem delivered_timely :
    (timelyRun.state 22).stops = [.returned 1] ∧ (timelyRun.state 22).timesLogged 0 = 1 := by
  have hobeys : timelyRun.Obeys Orderly :=
    (Run.obeys_ofActions_iff asyncLogger (by decide +kernel)).mpr (by decide +kernel)
  have hstops : (timelyRun.state 22).stops = [.returned 1] := by decide +kernel
  refine ⟨hstops, delivered timelyRun hobeys 22 (.returned 1) ?_ 1 rfl (fun p hp ↦ ?_) 0 one_pos⟩
  · rw [hstops]
    exact List.mem_singleton_self _
  · obtain rfl : p = 0 := by omega
    decide +kernel

/-- The push has read `m_running`, but queues its event when `stop` has joined the thread. -/
def lateActions : List AsyncAction :=
  startAll ++ [.push rootEvent, .pushStep 0] ++ stopAndDrain ++
    [.runStep 0, .runStep 0, .runStep 0, .runStep 0] ++
    [.stopStep 0, .stopStep 0, .stopStep 0, .pushStep 0, .pushStep 0]

def lateRun : Run asyncLogger :=
  .ofActions asyncLogger lateActions (by decide +kernel)

theorem delivered_late : ¬ ∀ (r : Run asyncLogger) (k : ℕ), (r.state k).Delivered := by
  intro hall
  have hstops : (lateRun.state 21).stops = [.returned 1] := by decide +kernel
  have honce := hall lateRun 21 (.returned 1) (hstops ▸ List.mem_singleton_self _) 1 rfl
    (fun p hp ↦ by
      obtain rfl : p = 0 := by omega
      decide +kernel) 0 one_pos
  have hnever : (lateRun.state 21).timesLogged 0 = 0 := by decide +kernel
  rw [hnever] at honce
  cases honce

end Examples

end AsyncLogger

end Rsylar
