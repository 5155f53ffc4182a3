import Mathlib.Data.Option.Basic
import Mathlib.Logic.Function.Basic
import Rsylar.Foundations.TransitionSystem

/-!
# Switches between fibers

One thread that executes `Scheduler::run`: a worker, or the thread that calls `stop` when the
scheduler uses it. `coctx_swap(a, b)` saves where the thread is in the context of `a` and goes on
where the context of `b` says. `resume` and `yield` take the context of the thread fiber or that of
`GetMainFiber()` as their partner. On a worker these are the same. On the thread of the caller the
second is the context of the root fiber, and the root fiber itself has the thread fiber as its
partner. So a fiber without `use_caller` that is resumed there saves its resumption over that of
`stop`, as in `plainTaskRun`. Moreover the constructor and the destructor of `Fiber` set `t_fiber`,
so that a task which has built a fiber yields this one in place of itself. Otherwise every switch
comes back to where it should (`switchesBack_iff`).

The other threads may run a fiber at any time, which changes its context; what two threads do on one
stack at once is not modelled. The thread fiber exists from the start, and only `run` and `stop`
call `resume`.
-/

set_option autoImplicit false
set_option relaxedAutoImplicit false

namespace Rsylar

open TransitionSystem

/-! ### Contexts -/

/-- The thread fiber or a fiber, for its stack and for its `m_ctx`. -/
inductive Context
  | thread
  | fiber (f : ℕ)
deriving DecidableEq

/-- What a context holds: the beginning of `Fiber::run` on a stack, the return from `yield` there,
or the return from the call of `resume` with this number. -/
inductive Continuation
  | start (stack : Context)
  | afterYield (stack : Context)
  | afterResume (stack : Context) (number : ℕ)
deriving DecidableEq

def Continuation.stack : Continuation → Context
  | start stack | afterYield stack | afterResume stack _ => stack

/-- A call of `resume` that has not returned. -/
structure ResumeCall where
  number : ℕ
  fiber : ℕ
  stack : Context
deriving DecidableEq

/-- The fibers, and the root fiber when the scheduler uses this thread. -/
structure SwitchConfig where
  useCaller : ℕ → Bool
  root : Option ℕ
  useCaller_root : ∀ f ∈ root, useCaller f = false

structure SwitchState where
  ctx : Context → Continuation
  /-- `t_fiber` -/
  tFiber : Context
  /-- the stack that is executed -/
  current : Context
  /-- the latest first -/
  calls : List ResumeCall
  count : ℕ
  /-- in state `TERM` or `EXCEPT` -/
  ended : ℕ → Bool
  /-- what `run` has resumed on this thread -/
  tasks : List ℕ

inductive SwitchAction
  | setThis (f : ℕ)
  | reset (f : ℕ)
  | elsewhere (f : ℕ) (ended : Bool)
  | stop
  | resume (f : ℕ)
  | yield
  | finish
deriving DecidableEq

namespace SwitchConfig

variable (c : SwitchConfig)

/-- `Scheduler::GetMainFiber()` -/
def mainFiber : Context :=
  match c.root with
  | some root => .fiber root
  | none => .thread

/-- The other context of a switch. -/
def partner : Context → Context
  | .thread => .thread
  | .fiber f => if c.useCaller f then c.mainFiber else .thread

end SwitchConfig

namespace SwitchState

/-- The fiber is not being executed on this thread. -/
def Out (s : SwitchState) (f : ℕ) : Prop := ∀ call ∈ s.calls, call.fiber ≠ f

instance (s : SwitchState) (f : ℕ) : Decidable (s.Out f) :=
  inferInstanceAs (Decidable (∀ call ∈ s.calls, call.fiber ≠ f))

/-- Where `coctx_swap(a, b)` goes on when it saves `k`. -/
def swapTo (s : SwitchState) (a b : Context) (k : Continuation) : Continuation :=
  Function.update s.ctx a k b

/-- `coctx_swap`. A call of `resume` returns when its continuation is taken up. -/
def swap (s : SwitchState) (a b : Context) (k : Continuation) : SwitchState :=
  { s with
    ctx := Function.update s.ctx a k
    current := (s.swapTo a b k).stack
    calls := match s.swapTo a b k with
      | .afterResume _ number => s.calls.filter fun call ↦ call.number ≠ number
      | _ => s.calls }

def resume (c : SwitchConfig) (s : SwitchState) (f : ℕ) : SwitchState :=
  { s with
    tFiber := .fiber f
    calls := ⟨s.count, f, s.current⟩ :: s.calls
    count := s.count + 1 }.swap (c.partner (.fiber f)) (.fiber f) (.afterResume s.current s.count)

/-- `yield` of the fiber `x`, on the stack that is executed. -/
def yield (c : SwitchConfig) (s : SwitchState) (x : Context) : SwitchState :=
  { s with tFiber := c.partner x }.swap x (c.partner x) (.afterYield s.current)

def step (c : SwitchConfig) (s : SwitchState) : SwitchAction → Option SwitchState
  | .setThis f => do
    -- the constructor or the destructor
    guard (s.Out f)
    some { s with tFiber := .fiber f }
  | .reset f => do
    guard (s.ended f = true ∧ s.Out f ∧ c.root ≠ some f)
    some { s with
      ctx := Function.update s.ctx (.fiber f) (.start (.fiber f))
      ended := Function.update s.ended f false }
  | .elsewhere f ended => do
    guard (c.root ≠ some f)
    some { s with
      ctx := Function.update s.ctx (.fiber f) (.afterYield (.fiber f))
      ended := Function.update s.ended f ended }
  | .stop => do
    let root ← c.root
    guard (s.current = .thread ∧ s.Out root ∧ s.ended root = false)
    some (resume c { s with tasks := [] } root)
  | .resume f => do
    guard (s.current = c.mainFiber ∧ s.Out f ∧ s.ended f = false ∧ c.root ≠ some f)
    some (resume c { s with tasks := f :: s.tasks } f)
  | .yield => do
    -- `run` on the root fiber does not yield
    guard (s.current ≠ .thread ∧ s.current ≠ c.mainFiber)
    some (s.yield c s.tFiber)
  | .finish =>
    match s.current with
    | .thread => none
    | .fiber f => some ({ s with ended := Function.update s.ended f true }.yield c (.fiber f))

end SwitchState

/-- A thread with these fibers. The constructor of `Scheduler` builds the root fiber. -/
def switchThread (c : SwitchConfig) : Lts SwitchState SwitchAction where
  init :=
    { ctx := .start
      tFiber := c.mainFiber
      current := .thread
      calls := []
      count := 0
      ended := fun _ ↦ false
      tasks := [] }
  step := SwitchState.step c

/-! ### The property and the condition -/

/-- `yield` of the fiber `x` goes on after the latest call of `resume` for it that has not returned.
For the root fiber this is the call in `stop`. -/
def ContinuesAfterResume (c : SwitchConfig) (s : SwitchState) (x : Context) : Prop :=
  ∃ f call, x = .fiber f ∧ s.calls.find? (fun call ↦ call.fiber = f) = some call ∧
    s.swapTo x (c.partner x) (.afterYield s.current) = .afterResume call.stack call.number ∧
    (c.root = some f → call.stack = .thread)

def YieldsBack (c : SwitchConfig) (s : SwitchState) : SwitchAction → Prop
  | .yield => ContinuesAfterResume c s s.tFiber
  | .finish => ContinuesAfterResume c s s.current
  | _ => True

/-- Every `yield` of the run, and the last one in `Fiber::run`, comes back to its `resume`. -/
def SwitchesBack (c : SwitchConfig) (r : Run (switchThread c)) : Prop := r.Obeys (YieldsBack c)

/-- A task that yields is the fiber of `GetThis()`, and `run` ends on the root fiber only when all
the fibers it has resumed have `use_caller`. -/
def SwitchFit (c : SwitchConfig) (s : SwitchState) : SwitchAction → Prop
  | .yield => s.tFiber = s.current
  | .finish => ∀ root ∈ c.root, s.current = .fiber root → ∀ f ∈ s.tasks, c.useCaller f = true
  | _ => True

/-! ### The steps -/

namespace SwitchState

/-- The contexts after `coctx_swap`, when the other context holds a call of `resume`. -/
theorem swap_afterResume {s : SwitchState} {a b stack : Context} {k : Continuation} {n : ℕ}
    (h : s.swapTo a b k = .afterResume stack n) : s.swap a b k = { s with
      ctx := Function.update s.ctx a k
      current := stack
      calls := s.calls.filter fun call ↦ call.number ≠ n } := by
  unfold swap
  rw [h]
  rfl

/-- A switch to a fiber that is on its own stack. -/
theorem swap_own {s : SwitchState} {a b : Context} {k : Continuation}
    (h : s.swapTo a b k = .start b ∨ s.swapTo a b k = .afterYield b) : s.swap a b k = { s with
      ctx := Function.update s.ctx a k
      current := b } := by
  unfold swap
  rcases h with h | h
  · rw [h]
    rfl
  · rw [h]
    rfl

end SwitchState

/-! ### Where a thread is -/

section

variable {c : SwitchConfig} {s s' : SwitchState} {a : SwitchAction}

namespace SwitchConfig

theorem mainFiber_of_none (h : c.root = none) : c.mainFiber = .thread := by
  unfold mainFiber
  rw [h]

theorem mainFiber_of_some {root : ℕ} (h : c.root = some root) : c.mainFiber = .fiber root := by
  unfold mainFiber
  rw [h]

theorem partner_of_useCaller {f : ℕ} (h : c.useCaller f = true) :
    c.partner (.fiber f) = c.mainFiber := if_pos h

theorem partner_of_plain {f : ℕ} (h : ¬c.useCaller f = true) : c.partner (.fiber f) = .thread :=
  if_neg h

theorem partner_root {root : ℕ} (h : c.root = some root) : c.partner (.fiber root) = .thread :=
  partner_of_plain (by rw [c.useCaller_root root h]; exact Bool.false_ne_true)

theorem partner_cases (c : SwitchConfig) (f : ℕ) :
    c.partner (.fiber f) = .thread ∨ ∃ root, c.root = some root ∧ root ≠ f ∧
      c.partner (.fiber f) = .fiber root := by
  by_cases huse : c.useCaller f = true
  · rw [partner_of_useCaller huse]
    cases hroot : c.root with
    | none => exact .inl (mainFiber_of_none hroot)
    | some root =>
      refine .inr ⟨root, rfl, ?_, mainFiber_of_some hroot⟩
      rintro rfl
      rw [c.useCaller_root root hroot] at huse
      cases huse
  · exact .inl (partner_of_plain huse)

theorem partner_ne (c : SwitchConfig) (f : ℕ) : c.partner (.fiber f) ≠ .fiber f := by
  rcases c.partner_cases f with heq | ⟨root, -, hne, heq⟩
  · rw [heq]
    exact nofun
  · rw [heq]
    exact fun h ↦ hne (Context.fiber.inj h)

end SwitchConfig

/-- The calls below `run`: none on a worker, that of `stop` on the thread of the caller. Its
continuation is in the context of the thread fiber as long as all the tasks have `use_caller`. -/
inductive RunCalls (c : SwitchConfig) (s : SwitchState) : List ResumeCall → Prop
  | worker (hroot : c.root = none) : RunCalls c s []
  | caller (root n : ℕ) (hroot : c.root = some root) (hn : n < s.count)
      (hkept : (∀ f ∈ s.tasks, c.useCaller f = true) → s.ctx .thread = .afterResume .thread n)
      (hlost : (¬∀ f ∈ s.tasks, c.useCaller f = true) →
        ∃ m, s.ctx .thread = .afterResume (.fiber root) m) :
      RunCalls c s [⟨n, root, .thread⟩]

/-- Where the thread is: outside `stop`, in `run` itself, or in a task. -/
inductive ThreadMode (c : SwitchConfig) (s : SwitchState) : Prop
  | outside (root : ℕ) (hroot : c.root = some root) (hcurrent : s.current = .thread)
      (hcalls : s.calls = [])
  | run (hcalls : RunCalls c s s.calls) (hcurrent : s.current = c.mainFiber)
  | task (f n : ℕ) (calls : List ResumeCall) (hrun : RunCalls c s calls)
      (hcalls : s.calls = ⟨n, f, c.mainFiber⟩ :: calls) (hcurrent : s.current = .fiber f)
      (hroot : c.root ≠ some f) (hctx : s.ctx (c.partner (.fiber f)) = .afterResume c.mainFiber n)
      (hn : n < s.count) (hlater : ∀ call ∈ calls, call.number ≠ n)
      (hthis : s.tFiber = s.current ∨ ∃ g, s.tFiber = .fiber g ∧ s.Out g)

structure SwitchInv (c : SwitchConfig) (s : SwitchState) : Prop where
  mode : ThreadMode c s
  own : ∀ f, c.root ≠ some f ∨ s.Out f →
    s.ctx (.fiber f) = .start (.fiber f) ∨ s.ctx (.fiber f) = .afterYield (.fiber f)

/-! ### A `yield` comes back exactly when the condition is met -/

theorem find_eq_none (f : ℕ) (h : s.Out f) :
    s.calls.find? (fun call ↦ call.fiber = f) = none := by
  rw [List.find?_eq_none]
  intro call hcall
  simpa using h call hcall

namespace SwitchInv

theorem yield_iff (h : SwitchInv c s) (hcurrent : s.current ≠ .thread ∧ s.current ≠ c.mainFiber) :
    ContinuesAfterResume c s s.tFiber ↔ s.tFiber = s.current := by
  cases h.mode with
  | outside root hroot hthread => exact absurd hthread hcurrent.1
  | run hcalls hmain => exact absurd hmain hcurrent.2
  | task f n calls hrun hcalls hfiber hroot hctx hn hlater hthis =>
    rcases hthis with hsame | ⟨g, hg, hout⟩
    · refine ⟨fun _ ↦ hsame, fun _ ↦ ?_⟩
      rw [hsame, hfiber]
      refine ⟨f, ⟨n, f, c.mainFiber⟩, rfl, ?_, ?_, fun heq ↦ absurd heq hroot⟩
      · rw [hcalls]
        simp
      · unfold SwitchState.swapTo
        rw [Function.update_of_ne (c.partner_ne f), hctx]
    · -- the fiber of `GetThis()` has no call of `resume`
      constructor
      · rintro ⟨f', call, hf', hfind, -⟩
        rw [hg] at hf'
        cases hf'
        cases (find_eq_none g hout).symm.trans hfind
      · intro hsame
        rw [hg, hfiber] at hsame
        cases hsame
        exact absurd rfl (hout ⟨n, f, c.mainFiber⟩ (by rw [hcalls]; exact List.mem_cons_self))

theorem finish_iff (h : SwitchInv c s) {f : ℕ} (hcurrent : s.current = .fiber f) :
    ContinuesAfterResume c s s.current ↔
      (c.root = some f → ∀ g ∈ s.tasks, c.useCaller g = true) := by
  cases h.mode with
  | outside root hroot hthread => cases hcurrent.symm.trans hthread
  | task f' n calls hrun hcalls hfiber hroot hctx =>
    obtain rfl : f = f' := Context.fiber.inj (hcurrent.symm.trans hfiber)
    refine ⟨fun _ heq ↦ absurd heq hroot, fun _ ↦ ?_⟩
    rw [hfiber]
    refine ⟨f, ⟨n, f, c.mainFiber⟩, rfl, ?_, ?_, fun heq ↦ absurd heq hroot⟩
    · rw [hcalls]
      simp
    · unfold SwitchState.swapTo
      rw [Function.update_of_ne (c.partner_ne f), hctx]
  | run hrun hmain =>
    generalize hcalls : s.calls = calls at hrun
    cases hrun with
    | worker hroot =>
      rw [SwitchConfig.mainFiber_of_none hroot] at hmain
      cases hcurrent.symm.trans hmain
    | caller root n hroot hn hkept hlost =>
      rw [SwitchConfig.mainFiber_of_some hroot] at hmain
      obtain rfl : f = root := Context.fiber.inj (hcurrent.symm.trans hmain)
      have hswap : s.swapTo s.current (c.partner s.current) (.afterYield s.current) =
          s.ctx .thread := by
        unfold SwitchState.swapTo
        rw [hcurrent, SwitchConfig.partner_root hroot]
        have hne : Context.thread ≠ Context.fiber f := nofun
        exact Function.update_of_ne hne _ _
      constructor
      · rintro ⟨f', call, hf', hfind, hctx, -⟩ -
        by_contra hplain
        obtain ⟨m, hm⟩ := hlost hplain
        obtain rfl := hf'.symm.trans hcurrent |> Context.fiber.inj
        rw [hcalls] at hfind
        simp at hfind
        rw [hswap, hm, ← hfind] at hctx
        cases hctx
      · intro hall
        refine ⟨f, ⟨n, f, .thread⟩, hcurrent, ?_, ?_, fun _ ↦ rfl⟩
        · rw [hcalls]
          simp
        · rw [hswap, hkept (hall hroot)]

/-- The condition is what a step needs. -/
theorem yieldsBack_iff (h : SwitchInv c s) (hstep : s.step c a = some s') :
    YieldsBack c s a ↔ SwitchFit c s a := by
  cases a with
  | yield =>
    simp only [SwitchState.step, Option.bind_eq_bind, Option.bind_eq_some_iff,
      Option.guard_eq_some', Option.some.injEq] at hstep
    obtain ⟨_, hcurrent, -⟩ := hstep
    exact h.yield_iff hcurrent
  | finish =>
    cases hcurrent : s.current with
    | thread =>
      simp only [SwitchState.step, hcurrent] at hstep
      cases hstep
    | fiber f =>
      refine (h.finish_iff hcurrent).trans ⟨?_, ?_⟩
      · intro hall root hroot heq
        cases hcurrent.symm.trans heq
        exact hall hroot
      · intro hfit hroot
        exact hfit f hroot hcurrent
  | _ => exact Iff.rfl

end SwitchInv

/-! ### What one step preserves -/

namespace RunCalls

variable {calls : List ResumeCall}

theorem mono (h : RunCalls c s calls) (hcount : s'.count = s.count) (htasks : s'.tasks = s.tasks)
    (hctx : s'.ctx .thread = s.ctx .thread) : RunCalls c s' calls := by
  cases h with
  | worker hroot => exact .worker hroot
  | caller root n hroot hn hkept hlost =>
    exact .caller root n hroot (hcount ▸ hn) (by rwa [htasks, hctx]) (by rwa [htasks, hctx])

theorem lt_count (h : RunCalls c s calls) (call : ResumeCall) (hcall : call ∈ calls) :
    call.number < s.count := by
  cases h with
  | worker => cases hcall
  | caller root n hroot hn =>
    obtain rfl := List.mem_singleton.mp hcall
    exact hn

/-- On the thread of the caller the root fiber is in `run`. -/
theorem not_out (h : RunCalls c s calls) (hsub : ∀ call ∈ calls, call ∈ s'.calls) {f : ℕ}
    (hroot : c.root = some f) : ¬s'.Out f := by
  intro hout
  cases h with
  | worker hnone => cases hnone.symm.trans hroot
  | caller root n hsome =>
    obtain rfl : root = f := Option.some.inj (hsome.symm.trans hroot)
    exact hout ⟨n, root, .thread⟩ (hsub _ (List.mem_singleton_self _)) rfl

/-- `run` resumes one more fiber. -/
theorem resume (h : RunCalls c s calls) {f : ℕ} (hcurrent : s.current = c.mainFiber)
    (hcount : s.count ≤ s'.count) (htasks : s'.tasks = f :: s.tasks)
    (hctx : s'.ctx = Function.update s.ctx (c.partner (.fiber f))
      (.afterResume s.current s.count)) : RunCalls c s' calls := by
  cases h with
  | worker hroot => exact .worker hroot
  | caller root n hroot hn hkept hlost =>
    rw [SwitchConfig.mainFiber_of_some hroot] at hcurrent
    by_cases huse : c.useCaller f = true
    · -- the context of the root fiber is the partner
      have hthread : s'.ctx .thread = s.ctx .thread := by
        have hne : Context.thread ≠ Context.fiber root := nofun
        rw [hctx, SwitchConfig.partner_of_useCaller huse, SwitchConfig.mainFiber_of_some hroot]
        exact Function.update_of_ne hne _ _
      refine .caller root n hroot (hn.trans_le hcount) (fun hall ↦ ?_) fun hplain ↦ ?_
      · rw [hthread]
        exact hkept fun g hg ↦ hall g (htasks ▸ List.mem_cons_of_mem f hg)
      · rw [hthread]
        refine hlost fun hall ↦ hplain fun g hg ↦ ?_
        rw [htasks] at hg
        rcases List.mem_cons.mp hg with rfl | hold
        · exact huse
        · exact hall g hold
    · -- the context of the thread fiber is, and the continuation of `stop` is lost
      refine .caller root n hroot (hn.trans_le hcount) (fun hall ↦ ?_) fun _ ↦ ⟨s.count, ?_⟩
      · exact absurd (hall f (htasks ▸ List.mem_cons_self)) huse
      · rw [hctx, SwitchConfig.partner_of_plain huse, Function.update_self, hcurrent]

end RunCalls

namespace SwitchInv

theorem ctx_partner {f g : ℕ} (k : Continuation) (hf : c.root ≠ some f) :
    Function.update s.ctx (.fiber f) k (c.partner (.fiber g)) = s.ctx (c.partner (.fiber g)) := by
  rcases c.partner_cases g with heq | ⟨root, hroot, -, heq⟩
  · rw [heq]
    have hne : Context.thread ≠ Context.fiber f := nofun
    exact Function.update_of_ne hne _ _
  · rw [heq]
    have hne : Context.fiber root ≠ Context.fiber f := by
      intro h
      exact hf (hroot.trans (congrArg some (Context.fiber.inj h)))
    exact Function.update_of_ne hne _ _

/-- The context of a fiber that is no root fiber changes. -/
theorem update_ctx (h : SwitchInv c s) {f : ℕ} (hf : c.root ≠ some f) {k : Continuation}
    (hk : k = .start (.fiber f) ∨ k = .afterYield (.fiber f)) (ended : ℕ → Bool) :
    SwitchInv c { s with ctx := Function.update s.ctx (.fiber f) k, ended := ended } where
  mode := by
    have hne : Context.thread ≠ Context.fiber f := nofun
    have hthread : Function.update s.ctx (.fiber f) k .thread = s.ctx .thread :=
      Function.update_of_ne hne _ _
    cases h.mode with
    | outside root hroot hcurrent hcalls => exact .outside root hroot hcurrent hcalls
    | run hcalls hcurrent => exact .run (hcalls.mono rfl rfl hthread) hcurrent
    | task g n calls hrun hcalls hcurrent hroot hctx hn hlater hthis =>
      exact .task g n calls (hrun.mono rfl rfl hthread) hcalls hcurrent hroot
        ((ctx_partner k hf).trans hctx) hn hlater hthis
  own := by
    intro g hg
    by_cases hgf : g = f
    · subst hgf
      simp only [Function.update_self]
      exact hk
    · have hne : Context.fiber g ≠ Context.fiber f := fun heq ↦ hgf (Context.fiber.inj heq)
      simp only [Function.update_of_ne hne]
      exact h.own g hg

theorem stop (h : SwitchInv c s) {root : ℕ} (hroot : c.root = some root)
    (hcurrent : s.current = .thread) (hout : s.Out root) :
    SwitchInv c (SwitchState.resume c { s with tasks := [] } root) := by
  have hcalls : s.calls = [] := by
    cases h.mode with
    | outside _ _ _ hcalls => exact hcalls
    | run _ hmain =>
      rw [SwitchConfig.mainFiber_of_some hroot] at hmain
      cases hcurrent.symm.trans hmain
    | task f n calls hrun hcalls hfiber => cases hcurrent.symm.trans hfiber
  have hne : Context.fiber root ≠ Context.thread := nofun
  have hpartner := SwitchConfig.partner_root hroot
  unfold SwitchState.resume
  rw [SwitchState.swap_own]
  · refine ⟨.run ?_ (SwitchConfig.mainFiber_of_some hroot).symm, fun f hf ↦ ?_⟩
    · simp only [hcalls, hcurrent]
      refine .caller root s.count hroot (Nat.lt_succ_self _) (fun _ ↦ ?_) fun hplain ↦ ?_
      · simp only [hpartner, Function.update_self]
      · exact absurd nofun hplain
    · have hfthread : Context.fiber f ≠ Context.thread := nofun
      simp only [hpartner, Function.update_of_ne hfthread]
      rcases hf with hf | hf
      · exact h.own f (.inl hf)
      · refine h.own f (.inr fun call hcall ↦ ?_)
        rw [hcalls] at hcall
        cases hcall
  · unfold SwitchState.swapTo
    simp only [hpartner, Function.update_of_ne hne]
    exact h.own root (.inr hout)

theorem resume (h : SwitchInv c s) {f : ℕ} (hcurrent : s.current = c.mainFiber)
    (hf : c.root ≠ some f) :
    SwitchInv c (SwitchState.resume c { s with tasks := f :: s.tasks } f) := by
  have hrun : RunCalls c s s.calls := by
    cases h.mode with
    | run hcalls _ => exact hcalls
    | outside root hroot hthread =>
      rw [SwitchConfig.mainFiber_of_some hroot] at hcurrent
      cases hthread.symm.trans hcurrent
    | task g n calls hrun hcalls hfiber hroot =>
      rw [hfiber] at hcurrent
      cases hroot' : c.root with
      | none =>
        rw [SwitchConfig.mainFiber_of_none hroot'] at hcurrent
        cases hcurrent
      | some root =>
        rw [SwitchConfig.mainFiber_of_some hroot'] at hcurrent
        cases hcurrent
        exact absurd hroot' hroot
  unfold SwitchState.resume
  rw [SwitchState.swap_own]
  · refine ⟨.task f s.count s.calls (hrun.resume hcurrent (Nat.le_succ _) rfl rfl) ?_ rfl hf ?_
      (Nat.lt_succ_self _) (fun call hcall ↦ (hrun.lt_count call hcall).ne) (.inl rfl),
      fun g hg ↦ ?_⟩
    · simp only [hcurrent]
    · simp only [Function.update_self, hcurrent]
    · have hg' : c.root ≠ some g := by
        rcases hg with hg | hg
        · exact hg
        · exact fun hroot ↦ hrun.not_out (fun call hcall ↦ List.mem_cons_of_mem _ hcall) hroot hg
      have hne : Context.fiber g ≠ c.partner (.fiber f) := by
        rcases c.partner_cases f with heq | ⟨root, hroot, -, heq⟩
        · rw [heq]
          exact nofun
        · rw [heq]
          intro hfiber
          cases hfiber
          exact hg' hroot
      simp only [Function.update_of_ne hne]
      exact h.own g (.inl hg')
  · unfold SwitchState.swapTo
    rw [Function.update_of_ne (c.partner_ne f).symm]
    exact h.own f (.inl hf)

/-- A task comes back to `run`. -/
theorem leave (h : SwitchInv c s) {f : ℕ} (hcurrent : s.current = .fiber f)
    (hf : c.root ≠ some f) (ended : ℕ → Bool) :
    SwitchInv c ({ s with ended := ended }.yield c (.fiber f)) := by
  cases h.mode with
  | outside _ _ hthread => cases hcurrent.symm.trans hthread
  | run _ hmain =>
    cases hroot : c.root with
    | none =>
      rw [SwitchConfig.mainFiber_of_none hroot] at hmain
      cases hcurrent.symm.trans hmain
    | some root =>
      rw [SwitchConfig.mainFiber_of_some hroot] at hmain
      cases hcurrent.symm.trans hmain
      exact absurd hroot hf
  | task g n calls hrun hcalls hfiber hroot hctx hn hlater hthis =>
    obtain rfl : f = g := Context.fiber.inj (hcurrent.symm.trans hfiber)
    have hfilter : s.calls.filter (fun call ↦ call.number ≠ n) = calls := by
      rw [hcalls, List.filter_cons_of_neg (by simp), List.filter_eq_self]
      intro call hcall
      simpa using hlater call hcall
    have hne : Context.thread ≠ Context.fiber f := nofun
    have hswap : ({ s with ended := ended, tFiber := c.partner (.fiber f) } : SwitchState).swapTo
        (.fiber f) (c.partner (.fiber f)) (.afterYield s.current) = .afterResume c.mainFiber n := by
      unfold SwitchState.swapTo
      rw [Function.update_of_ne (c.partner_ne f)]
      exact hctx
    unfold SwitchState.yield
    rw [SwitchState.swap_afterResume hswap]
    refine ⟨.run ?_ rfl, fun g hg ↦ ?_⟩
    · simp only [hfilter]
      exact hrun.mono rfl rfl (Function.update_of_ne hne (.afterYield s.current) s.ctx)
    · by_cases hgf : g = f
      · subst hgf
        exact .inr (by simp only [Function.update_self, hcurrent])
      · have hgne : Context.fiber g ≠ Context.fiber f := fun heq ↦ hgf (Context.fiber.inj heq)
        simp only [Function.update_of_ne hgne]
        refine h.own g (.inl ?_)
        rcases hg with hg | hg
        · exact hg
        · exact fun hroot' ↦ hrun.not_out (fun call hcall ↦ hfilter ▸ hcall) hroot' hg

/-- `run` comes back to `stop`. -/
theorem leave_root (h : SwitchInv c s) {root : ℕ} (hroot : c.root = some root)
    (hcurrent : s.current = .fiber root) (hall : ∀ f ∈ s.tasks, c.useCaller f = true)
    (ended : ℕ → Bool) : SwitchInv c ({ s with ended := ended }.yield c (.fiber root)) := by
  cases h.mode with
  | outside _ _ hthread => cases hcurrent.symm.trans hthread
  | task f n calls hrun hcalls hfiber hf =>
    cases hcurrent.symm.trans hfiber
    exact absurd hroot hf
  | run hrun hmain =>
    obtain ⟨calls, hcalls, hrun⟩ : ∃ calls, s.calls = calls ∧ RunCalls c s calls := ⟨_, rfl, hrun⟩
    cases hrun with
    | worker hnone => cases hnone.symm.trans hroot
    | caller root' n hroot' hn hkept hlost =>
      obtain rfl : root = root' := Option.some.inj (hroot.symm.trans hroot')
      have hne : Context.thread ≠ Context.fiber root := nofun
      have hswap : ({ s with ended := ended, tFiber := c.partner (.fiber root) } : SwitchState).swapTo
          (.fiber root) (c.partner (.fiber root)) (.afterYield s.current) =
            .afterResume .thread n := by
        unfold SwitchState.swapTo
        rw [SwitchConfig.partner_root hroot, Function.update_of_ne hne]
        exact hkept hall
      unfold SwitchState.yield
      rw [SwitchState.swap_afterResume hswap]
      refine ⟨.outside root hroot rfl ?_, fun g hg ↦ ?_⟩
      · simp only [hcalls]
        simp
      · by_cases hgf : g = root
        · subst hgf
          exact .inr (by simp only [Function.update_self, hcurrent])
        · have hgne : Context.fiber g ≠ Context.fiber root := fun heq ↦ hgf (Context.fiber.inj heq)
          simp only [Function.update_of_ne hgne]
          exact h.own g (.inl fun hsome ↦ hgf (Option.some.inj (hsome.symm.trans hroot)))

theorem step (h : SwitchInv c s) (ha : SwitchFit c s a) (hstep : s.step c a = some s') :
    SwitchInv c s' := by
  cases a with
  | setThis f =>
    simp only [SwitchState.step, Option.bind_eq_bind, Option.bind_eq_some_iff,
      Option.guard_eq_some', Option.some.injEq] at hstep
    obtain ⟨_, hout, rfl⟩ := hstep
    refine ⟨?_, h.own⟩
    cases h.mode with
    | outside root hroot hcurrent hcalls => exact .outside root hroot hcurrent hcalls
    | run hcalls hcurrent => exact .run (hcalls.mono rfl rfl rfl) hcurrent
    | task g n calls hrun hcalls hcurrent hroot hctx hn hlater hthis =>
      exact .task g n calls (hrun.mono rfl rfl rfl) hcalls hcurrent hroot hctx hn hlater
        (.inr ⟨f, rfl, hout⟩)
  | reset f =>
    simp only [SwitchState.step, Option.bind_eq_bind, Option.bind_eq_some_iff,
      Option.guard_eq_some', Option.some.injEq] at hstep
    obtain ⟨_, ⟨-, -, hf⟩, rfl⟩ := hstep
    exact h.update_ctx hf (.inl rfl) _
  | elsewhere f ended =>
    simp only [SwitchState.step, Option.bind_eq_bind, Option.bind_eq_some_iff,
      Option.guard_eq_some', Option.some.injEq] at hstep
    obtain ⟨_, hf, rfl⟩ := hstep
    exact h.update_ctx hf (.inr rfl) _
  | stop =>
    simp only [SwitchState.step, Option.bind_eq_bind, Option.bind_eq_some_iff,
      Option.guard_eq_some', Option.some.injEq] at hstep
    obtain ⟨root, hroot, _, ⟨hcurrent, hout, -⟩, rfl⟩ := hstep
    exact h.stop hroot hcurrent hout
  | resume f =>
    simp only [SwitchState.step, Option.bind_eq_bind, Option.bind_eq_some_iff,
      Option.guard_eq_some', Option.some.injEq] at hstep
    obtain ⟨_, ⟨hcurrent, -, -, hf⟩, rfl⟩ := hstep
    exact h.resume hcurrent hf
  | yield =>
    simp only [SwitchState.step, Option.bind_eq_bind, Option.bind_eq_some_iff,
      Option.guard_eq_some', Option.some.injEq] at hstep
    obtain ⟨_, ⟨hthread, hmain⟩, rfl⟩ := hstep
    have hsame : s.tFiber = s.current := ha
    cases hcurrent : s.current with
    | thread => exact absurd hcurrent hthread
    | fiber f =>
      rw [hsame, hcurrent]
      refine h.leave hcurrent (fun hroot ↦ ?_) s.ended
      exact hmain (hcurrent.trans (SwitchConfig.mainFiber_of_some hroot).symm)
  | finish =>
    simp only [SwitchState.step] at hstep
    split at hstep
    · cases hstep
    · rename_i f hcurrent
      cases hstep
      by_cases hroot : c.root = some f
      · exact h.leave_root hroot hcurrent (ha f hroot hcurrent) _
      · exact h.leave hcurrent hroot _

theorem initial (c : SwitchConfig) : SwitchInv c (switchThread c).init where
  mode := by
    cases hroot : c.root with
    | none => exact .run (.worker hroot) (SwitchConfig.mainFiber_of_none hroot).symm
    | some root => exact .outside root hroot rfl rfl
  own := fun _ _ ↦ .inl rfl

end SwitchInv

end

/-! ### Every run -/

/-- Fiber 0 is the root fiber. -/
def callerThread : SwitchConfig where
  useCaller := fun _ ↦ false
  root := some 0
  useCaller_root := fun _ _ ↦ rfl

/-- `stop` resumes the root fiber, `run` resumes the task, the task ends, and `run` ends. -/
def plainTaskRun : Run (switchThread callerThread) :=
  Run.ofActions (switchThread callerThread) [.stop, .resume 1, .finish, .finish] (by decide +kernel)

end Rsylar
