import Rsylar.Sylar.FiberView

/-!
# One worker for a fiber

The state `EXEC` keeps a fiber in the queue while it is executed. But `yield` of a fiber without
`use_caller` writes `READY` before the swap, so that one which has called `switchTo`, or whose event
is triggered early, can be resumed elsewhere before its context is saved, as in `switchToRun`;
between the search and the write of `EXEC` a second entry can be taken; and a `cb_fiber` is used
again while an old entry has it. No fiber is executed twice when no call of `schedule` makes such an
entry (`fibersExclusive`).
-/

set_option autoImplicit false
set_option relaxedAutoImplicit false

namespace Rsylar

open TransitionSystem

variable {c : SchedulerConfig}

/-! ### The property and the condition -/

/-- No two workers execute a fiber, and none resumes it before the swap of its last run is done. -/
structure FibersExclusive (r : Run (scheduler c)) : Prop where
  executed : ∀ (k : ℕ) (w w' : Fin c.threads) (f : ℕ),
    ((r.state k).workers w).point.executed = some f →
      ((r.state k).workers w').point.executed = some f → w = w'
  resumed : ∀ (k : ℕ) (w : Fin c.threads) (f : ℕ) (cb : Bool), r.act k = some (.resume w) →
    ((r.state k).workers w).point = .resuming f cb →
      ∀ w', ((r.state k).workers w').point.executed ≠ some f

namespace WorkerPoint

/-- The worker has taken the fiber and not written `EXEC`. -/
def early : WorkerPoint → Bool
  | taken _ | resuming _ _ => true
  | _ => false

def isTaken : WorkerPoint → Bool
  | taken _ => true
  | _ => false

theorem executed_eq_some {p : WorkerPoint} {f : ℕ} (h : p.executed = some f) :
    p.fiber = some f ∧ p.isTaken = false := by
  cases p with
  | running | yielding => exact ⟨h, rfl⟩
  | _ => cases h

end WorkerPoint

/-- The fiber is not in the queue, the workers that have to do with it have resumed it and it has
`use_caller`, and it is not a `cb_fiber` that has ended. -/
def FiberView.CanSchedule {n : ℕ} (v : FiberView n) : Prop :=
  v.known = true ∧ v.queued = 0 ∧
    ∀ w, (∀ p ∈ v.points w, p.early = false ∧ v.fiber.useCaller = true) ∧
      (v.cbOf w = true → v.fiber.state = .exec)

instance {n : ℕ} (v : FiberView n) : Decidable v.CanSchedule :=
  inferInstanceAs (Decidable (_ ∧ _ ∧ _))

/-- Every fiber that is scheduled may be, and a callback ends only when its fiber is not in the
queue. -/
def ExclusionFit (s : Scheduler c) : SchedulerAction c → Prop
  | .schedule _ (.fiber f) _ => (s.view f).CanSchedule
  | .trigger k => ∀ f ∈ s.registered[k]?, (s.view f).CanSchedule
  | .finish w _ => ∀ f ∈ (s.workers w).point.cb, (s.view f).queued = 0
  | _ => True

instance : DecidableRel (@ExclusionFit c) := fun s a ↦ by
  unfold ExclusionFit
  split <;> infer_instance

/-! ### What holds of a fiber -/

/-- What the state of a fiber is at the points of its worker. -/
def Fiber.Fits (x : Fiber) : WorkerPoint → Prop
  | .taken _ => x.state ≠ .exec
  | .resuming _ _ => x.state ≠ .exec ∧ ¬x.Ended
  | .running _ _ => x.state = .exec
  | .yielding _ _ | .returned _ _ | .released _ _ =>
    (x.state = .exec ∧ x.useCaller = true) ∨ (x.state = .ready ∧ x.useCaller = false) ∨ x.Ended
  | .rescheduling _ _ => x.state = .ready ∧ x.useCaller = false
  | .holding _ _ => x.state = .exec ∧ x.useCaller = true
  | _ => False

namespace Fiber

theorem useCaller_finish (x : Fiber) (throws : Bool) :
    (x.finish throws).useCaller = x.useCaller := by
  unfold finish yield
  split_ifs <;> rfl

/-- Only without `use_caller` an exception is taken for a `yield`. -/
theorem finish_cases (x : Fiber) (throws : Bool) : (x.finish throws).Ended ∨
    ((x.finish throws).state = .ready ∧ (x.finish throws).useCaller = false) := by
  unfold finish yield Ended
  cases throws <;> cases huse : x.useCaller <;> simp

end Fiber

/-- What holds of the `cb_fiber` of worker `w`. Without a callback it is in state `INIT`. -/
structure CbFiberOk {n : ℕ} (v : FiberView n) (w : Fin n) : Prop where
  useCaller : v.fiber.useCaller = true
  only : ∀ w', v.cbOf w' = true → w' = w
  points : ∀ w' p, v.points w' = some p → w' = w ∧ p.cb.isSome = true
  idle : v.points w = none → v.fiber.state = .init ∧ v.queued = 0
  ended : v.fiber.Ended → v.queued = 0

/-- Two workers have to do with a fiber only when it has ended and one of them is about to drop it.
-/
structure FiberOk {n : ℕ} (v : FiberView n) : Prop where
  known : v.known = false →
    v.queued = 0 ∧ (∀ w, v.points w = none) ∧ ∀ w, v.cbOf w = false
  queued_le : v.queued ≤ 1
  fits : ∀ w p, v.points w = some p → v.fiber.Fits p
  queued : 0 < v.queued → ∀ w p, v.points w = some p →
    v.fiber.useCaller = true ∧ (v.fiber.state = .exec ∨ v.fiber.Ended)
  unique : ∀ w w' p p', w ≠ w' → v.points w = some p → v.points w' = some p' →
    v.fiber.Ended ∧ (p.isTaken = true ∨ p'.isTaken = true)
  cbPoint : ∀ w p, v.points w = some p → p.cb.isSome = true → v.cbOf w = true
  cb : ∀ w, v.cbOf w = true → CbFiberOk v w

namespace FiberOk

variable {n : ℕ} {v : FiberView n} {w : Fin n} {p p' : WorkerPoint} {x : Fiber}

theorem of_known (h : FiberOk v) (hp : v.points w = some p) : v.known = true := by
  by_contra hknown
  cases ((h.known (by simpa using hknown)).2.1 w).symm.trans hp

/-- No other worker has to do with a fiber that has not ended. -/
theorem alone (h : FiberOk v) (hp : v.points w = some p) (hended : ¬v.fiber.Ended) {w' : Fin n}
    (hw : w' ≠ w) : v.points w' = none := by
  cases hp' : v.points w' with
  | none => rfl
  | some p' => exact absurd (h.unique w' w p' p hw hp' hp).1 hended

/-- The worker goes on with the fiber. -/
theorem move (h : FiberOk v) (hp : v.points w = some p) (huse : x.useCaller = v.fiber.useCaller)
    (hother : x = v.fiber ∨ ¬v.fiber.Ended) (hended : v.fiber.Ended → x.Ended) (hfits : x.Fits p')
    (hcb : p'.cb = p.cb) (htaken : p.isTaken = true → ¬v.fiber.Ended)
    (hqueued : 0 < v.queued → v.fiber.state = .exec ∨ v.fiber.Ended → x.state = .exec ∨ x.Ended)
    (hcbEnded : v.cbOf w = true → x.Ended → v.queued = 0) :
    FiberOk { v with fiber := x, points := Function.update v.points w (some p') } where
  known := fun hknown ↦ by cases (h.of_known hp).symm.trans hknown
  queued_le := h.queued_le
  fits := by
    intro w₁ p₁ hp₁
    by_cases hw : w₁ = w
    · subst hw
      simp only [Function.update_self] at hp₁
      cases hp₁
      exact hfits
    · simp only [Function.update_of_ne hw] at hp₁
      rcases hother with rfl | hlive
      · exact h.fits w₁ p₁ hp₁
      · cases (h.alone hp hlive hw).symm.trans hp₁
  queued := by
    intro hpos w₁ p₁ _
    obtain ⟨huse', hstate⟩ := h.queued hpos w p hp
    exact ⟨huse.trans huse', hqueued hpos hstate⟩
  unique := by
    intro w₁ w₂ p₁ p₂ hne hp₁ hp₂
    by_cases hw₁ : w₁ = w
    · subst hw₁
      simp only [Function.update_of_ne hne.symm] at hp₂
      obtain ⟨hold, htaken'⟩ := h.unique w₁ w₂ p p₂ hne hp hp₂
      exact ⟨hended hold, .inr (htaken'.resolve_left fun ht ↦ htaken ht hold)⟩
    · simp only [Function.update_of_ne hw₁] at hp₁
      by_cases hw₂ : w₂ = w
      · subst hw₂
        obtain ⟨hold, htaken'⟩ := h.unique w₁ w₂ p₁ p hne hp₁ hp
        exact ⟨hended hold, .inl (htaken'.resolve_right fun ht ↦ htaken ht hold)⟩
      · simp only [Function.update_of_ne hw₂] at hp₂
        obtain ⟨hold, htaken'⟩ := h.unique w₁ w₂ p₁ p₂ hne hp₁ hp₂
        exact ⟨hended hold, htaken'⟩
  cbPoint := by
    intro w₁ p₁ hp₁ hsome
    by_cases hw : w₁ = w
    · subst hw
      simp only [Function.update_self] at hp₁
      cases hp₁
      exact h.cbPoint w₁ p hp (hcb ▸ hsome)
    · simp only [Function.update_of_ne hw] at hp₁
      exact h.cbPoint w₁ p₁ hp₁ hsome
  cb := by
    intro w₁ hcbOf
    obtain ⟨huse', honly, hpoints, -, -⟩ := h.cb w₁ hcbOf
    obtain ⟨rfl, hsome⟩ := hpoints w p hp
    refine ⟨huse.trans huse', honly, fun w₂ p₂ hp₂ ↦ ?_, fun hnone ↦ ?_, hcbEnded hcbOf⟩
    · by_cases hw : w₂ = w
      · subst hw
        simp only [Function.update_self] at hp₂
        cases hp₂
        exact ⟨rfl, hcb ▸ hsome⟩
      · simp only [Function.update_of_ne hw] at hp₂
        exact hpoints w₂ p₂ hp₂
    · simp only [Function.update_self] at hnone
      cases hnone

/-- The worker is done with a fiber of an entry. -/
theorem remove (h : FiberOk v) (hcbOf : ∀ w', v.cbOf w' = true → w' ≠ w) :
    FiberOk { v with points := Function.update v.points w none } := by
  have hsub : ∀ w₁ p₁, Function.update v.points w none w₁ = some p₁ → v.points w₁ = some p₁ := by
    intro w₁ p₁ hp₁
    by_cases hw : w₁ = w
    · subst hw
      rw [Function.update_self] at hp₁
      cases hp₁
    · rwa [Function.update_of_ne hw] at hp₁
  exact
    { known := fun hknown ↦ by
        obtain ⟨hqueued, hpoints, hcb⟩ := h.known hknown
        refine ⟨hqueued, fun w₁ ↦ ?_, hcb⟩
        cases hp₁ : Function.update v.points w none w₁ with
        | none => exact hp₁
        | some p₁ => cases (hpoints w₁).symm.trans (hsub w₁ p₁ hp₁)
      queued_le := h.queued_le
      fits := fun w₁ p₁ hp₁ ↦ h.fits w₁ p₁ (hsub w₁ p₁ hp₁)
      queued := fun hpos w₁ p₁ hp₁ ↦ h.queued hpos w₁ p₁ (hsub w₁ p₁ hp₁)
      unique := fun w₁ w₂ p₁ p₂ hne hp₁ hp₂ ↦
        h.unique w₁ w₂ p₁ p₂ hne (hsub w₁ p₁ hp₁) (hsub w₂ p₂ hp₂)
      cbPoint := fun w₁ p₁ hp₁ hsome ↦ h.cbPoint w₁ p₁ (hsub w₁ p₁ hp₁) hsome
      cb := fun w₁ hcb ↦ by
        obtain ⟨huse, honly, hpoints, hidle, hended⟩ := h.cb w₁ hcb
        refine ⟨huse, honly, fun w₂ p₂ hp₂ ↦ hpoints w₂ p₂ (hsub w₂ p₂ hp₂), fun hnone ↦ ?_, hended⟩
        simp only [Function.update_of_ne (hcbOf w₁ hcb)] at hnone
        exact hidle hnone }

/-- No worker has to do with the fiber, and it is nobody's `cb_fiber`. -/
theorem of_free (hknown : v.known = true) (hqueued : v.queued ≤ 1)
    (hpoints : ∀ w, v.points w = none) (hcbOf : ∀ w, v.cbOf w = false) : FiberOk v where
  known := fun hunknown ↦ by cases hknown.symm.trans hunknown
  queued_le := hqueued
  fits := fun w p hp ↦ by cases (hpoints w).symm.trans hp
  queued := fun _ w p hp ↦ by cases (hpoints w).symm.trans hp
  unique := fun w _ p _ _ hp ↦ by cases (hpoints w).symm.trans hp
  cbPoint := fun w p hp ↦ by cases (hpoints w).symm.trans hp
  cb := fun w hcb ↦ by cases (hcbOf w).symm.trans hcb

/-- A worker is about to resume its `cb_fiber`. -/
theorem of_callback {g : ℕ} (hknown : v.known = true) (hqueued : v.queued = 0)
    (huse : v.fiber.useCaller = true) (hinit : v.fiber.state = .init)
    (hpoint : v.points w = some (.resuming g true)) (hpoints : ∀ w', w' ≠ w → v.points w' = none)
    (hcbOf : ∀ w', v.cbOf w' = true ↔ w' = w) : FiberOk v := by
  have honly : ∀ w' p', v.points w' = some p' → w' = w ∧ p' = .resuming g true := by
    intro w' p' hp'
    by_cases hw : w' = w
    · subst hw
      exact ⟨rfl, Option.some.inj (hp'.symm.trans hpoint)⟩
    · cases (hpoints w' hw).symm.trans hp'
  have hended : ¬v.fiber.Ended := by simp [Fiber.Ended, hinit]
  refine ⟨fun hunknown ↦ ?_, hqueued.le.trans (Nat.zero_le 1), fun w' p' hp' ↦ ?_, fun hpos ↦ ?_,
    fun w₁ w₂ p₁ p₂ hne hp₁ hp₂ ↦ ?_, fun w' p' hp' _ ↦ ?_, fun w' hw' ↦ ?_⟩
  · cases hknown.symm.trans hunknown
  · obtain ⟨-, rfl⟩ := honly w' p' hp'
    exact ⟨by simp [hinit], hended⟩
  · omega
  · exact absurd ((honly w₁ p₁ hp₁).1.trans (honly w₂ p₂ hp₂).1.symm) hne
  · exact (hcbOf w').mpr (honly w' p' hp').1
  · obtain rfl := (hcbOf w').mp hw'
    refine ⟨huse, fun w₁ h₁ ↦ (hcbOf w₁).mp h₁, fun w₁ p₁ hp₁ ↦ ?_, fun hnone ↦ ?_,
      fun h ↦ absurd h hended⟩
    · obtain ⟨hw₁, rfl⟩ := honly w₁ p₁ hp₁
      exact ⟨hw₁, rfl⟩
    · cases hnone.symm.trans hpoint

/-- The `cb_fiber` of a worker without a callback. -/
theorem of_idleCallback (hknown : v.known = true) (hqueued : v.queued = 0)
    (huse : v.fiber.useCaller = true) (hinit : v.fiber.state = .init)
    (hpoints : ∀ w', v.points w' = none) (hcbOf : ∀ w', v.cbOf w' = true → w' = w) : FiberOk v where
  known := fun hunknown ↦ by cases hknown.symm.trans hunknown
  queued_le := hqueued.le.trans (Nat.zero_le 1)
  fits := fun w' p' hp' ↦ by cases (hpoints w').symm.trans hp'
  queued := fun _ w' p' hp' ↦ by cases (hpoints w').symm.trans hp'
  unique := fun w' _ p' _ _ hp' ↦ by cases (hpoints w').symm.trans hp'
  cbPoint := fun w' p' hp' ↦ by cases (hpoints w').symm.trans hp'
  cb := fun w' hw' ↦
    { useCaller := huse
      only := fun w₁ h₁ ↦ (hcbOf w₁ h₁).trans (hcbOf w' hw').symm
      points := fun w₁ p₁ hp₁ ↦ by cases (hpoints w₁).symm.trans hp₁
      idle := fun _ ↦ ⟨hinit, hqueued⟩
      ended := fun _ ↦ hqueued }

theorem schedule (h : FiberOk v) (hcan : v.CanSchedule) (registered : ℕ) :
    FiberOk { v with registered := registered, queued := v.queued + 1 } := by
  obtain ⟨hknown, hqueued, hcan⟩ := hcan
  refine ⟨fun hunknown ↦ ?_, by simp [hqueued], h.fits, fun _ w p hp ↦ ?_, h.unique, h.cbPoint,
    fun w hcb ↦ ?_⟩
  · cases hknown.symm.trans hunknown
  · obtain ⟨hearly, huse⟩ := (hcan w).1 p hp
    have hfits := h.fits w p hp
    refine ⟨huse, ?_⟩
    cases p with
    | taken | resuming => cases hearly
    | running => exact .inl hfits
    | yielding | returned | released =>
      rcases hfits with ⟨hexec, -⟩ | ⟨-, hplain⟩ | hended
      · exact .inl hexec
      · cases huse.symm.trans hplain
      · exact .inr hended
    | rescheduling => cases huse.symm.trans hfits.2
    | holding => exact .inl hfits.1
    | off | search | idle | exited => exact hfits.elim
  · obtain ⟨huse, honly, hpoints, hidle, hended⟩ := h.cb w hcb
    have hexec := (hcan w).2 hcb
    refine ⟨huse, honly, hpoints, fun hnone ↦ ?_, fun hend ↦ ?_⟩
    · cases hexec.symm.trans (hidle hnone).1
    · rcases hend with hend | hend
      · cases hexec.symm.trans hend
      · cases hexec.symm.trans hend

theorem take (h : FiberOk v) {f : ℕ} (hpoint : v.points w = none) (hqueued : 0 < v.queued)
    (hexec : v.fiber.state ≠ .exec) :
    FiberOk { v with
      queued := v.queued - 1
      points := Function.update v.points w (some (.taken (.fiber f))) } := by
  have hzero : v.queued - 1 = 0 := by
    have hle := h.queued_le
    omega
  -- whoever has to do with the fiber has ended it
  have hended : ∀ w' p', v.points w' = some p' → v.fiber.Ended := fun w' p' hp' ↦
    (h.queued hqueued w' p' hp').2.resolve_left hexec
  have hcbOf : ∀ w', ¬v.cbOf w' = true := by
    intro w' hcb
    have hok := h.cb w' hcb
    cases hp' : v.points w' with
    | none =>
      have := (hok.idle hp').2
      omega
    | some p' =>
      have := hok.ended (hended w' p' hp')
      omega
  refine ⟨fun hunknown ↦ ?_, hzero.le.trans (Nat.zero_le 1), fun w₁ p₁ hp₁ ↦ ?_, fun hpos ↦ ?_,
    fun w₁ w₂ p₁ p₂ hne hp₁ hp₂ ↦ ?_, fun w₁ p₁ hp₁ hsome ↦ ?_, fun w₁ hcb ↦ absurd hcb (hcbOf w₁)⟩
  · have := (h.known hunknown).1
    omega
  · by_cases hw : w₁ = w
    · subst hw
      simp only [Function.update_self] at hp₁
      cases hp₁
      exact hexec
    · simp only [Function.update_of_ne hw] at hp₁
      exact h.fits w₁ p₁ hp₁
  · exact absurd hpos (by simp [hzero])
  · by_cases hw₁ : w₁ = w
    · subst hw₁
      simp only [Function.update_self] at hp₁
      simp only [Function.update_of_ne hne.symm] at hp₂
      cases hp₁
      exact ⟨hended w₂ p₂ hp₂, .inl rfl⟩
    · simp only [Function.update_of_ne hw₁] at hp₁
      by_cases hw₂ : w₂ = w
      · subst hw₂
        simp only [Function.update_self] at hp₂
        cases hp₂
        exact ⟨hended w₁ p₁ hp₁, .inr rfl⟩
      · simp only [Function.update_of_ne hw₂] at hp₂
        exact h.unique w₁ w₂ p₁ p₂ hne hp₁ hp₂
  · by_cases hw : w₁ = w
    · subst hw
      simp only [Function.update_self] at hp₁
      cases hp₁
      cases hsome
    · simp only [Function.update_of_ne hw] at hp₁
      exact h.cbPoint w₁ p₁ hp₁ hsome

/-- The worker of an entry has no callback with this fiber. -/
theorem cbOf_ne (h : FiberOk v) (hp : v.points w = some p) (hcb : p.cb.isSome = false) :
    ∀ w', v.cbOf w' = true → w' ≠ w := by
  rintro w' hcbOf rfl
  cases hcb.symm.trans ((h.cb w' hcbOf).points w' p hp).2

/-- A fiber that is put away goes on to no point. -/
theorem put_away (h : FiberOk v) {g : ℕ} {cb : Bool} (hp : v.points w = some p)
    (hpcb : p.cb = if cb then some g else none) (hended : ¬v.fiber.Ended) {x : Fiber} {queued : ℕ}
    (hqueued : queued ≤ 1) :
    FiberOk { v with
      fiber := x
      queued := queued
      points := Function.update v.points w none
      cbOf := if cb then Function.update v.cbOf w false else v.cbOf } := by
  refine of_free (h.of_known hp) hqueued (fun w₁ ↦ ?_) fun w₁ ↦ ?_
  · by_cases hw : w₁ = w
    · subst hw
      simp only [Function.update_self]
    · simp only [Function.update_of_ne hw]
      exact h.alone hp hended hw
  · cases cb with
    | true =>
      by_cases hw : w₁ = w
      · subst hw
        simp
      · have honly : ¬v.cbOf w₁ = true := fun hcbOf ↦ hw ((h.cb w₁ hcbOf).points w p hp).1.symm
        simpa [Function.update_of_ne hw] using honly
    | false =>
      have hnone : ¬v.cbOf w₁ = true := by
        intro hcbOf
        have hsome := ((h.cb w₁ hcbOf).points w p hp).2
        rw [hpcb] at hsome
        cases hsome
      simpa using hnone

theorem step {s : Scheduler c} {a : SchedulerAction c} {g : ℕ} {v' : FiberView c.threads}
    (h : FiberOk (s.view g)) (ha : ExclusionFit s a) (hstep : ViewStep s g (s.view g) a v') :
    FiberOk v' := by
  cases hstep with
  | none => exact h
  | newFiber useCaller hknown =>
    obtain ⟨hqueued, hpoints, hcbOf⟩ := h.known hknown
    exact of_free rfl (hqueued.le.trans (Nat.zero_le 1)) hpoints hcbOf
  | schedule by_ thread => exact h.schedule ha _
  | trigger k hg hregistered => exact h.schedule (ha g hg) _
  | take w k hpoint hqueued hexec => exact h.take hpoint hqueued hexec
  | drop w hpoint hended => exact h.remove (h.cbOf_ne hpoint rfl)
  | enter w hpoint hended hexec =>
    exact h.move hpoint rfl (.inl rfl) id ⟨hexec, hended⟩ rfl (fun _ ↦ hended) (fun _ ↦ id)
      fun hcb ↦ (h.cb w hcb).ended
  | enterCb w hpoint hcb hstate =>
    have hok := h.cb w hcb
    have hpoints : ∀ w', (s.view g).points w' = none := by
      intro w'
      cases hp' : (s.view g).points w' with
      | none => rfl
      | some p' =>
        obtain ⟨rfl, -⟩ := hok.points w' p' hp'
        cases hpoint.symm.trans hp'
    refine @of_callback _ _ w g ?_ (hok.idle hpoint).2 hok.useCaller rfl ?_ ?_ fun w' ↦
      ⟨hok.only w', fun heq ↦ heq ▸ hcb⟩
    · by_contra hknown
      cases ((h.known (by simpa using hknown)).2.2 w).symm.trans hcb
    · simp only [Function.update_self]
    · intro w' hw'
      simp only [Function.update_of_ne hw']
      exact hpoints w'
  | enterNew w hpoint hknown =>
    obtain ⟨hqueued, hpoints, hcbOf⟩ := h.known hknown
    refine @of_callback _ _ w g rfl hqueued rfl rfl ?_ ?_ fun w' ↦ ?_
    · simp only [Function.update_self]
    · intro w' hw'
      simp only [Function.update_of_ne hw']
      exact hpoints w'
    · by_cases hw : w' = w
      · subst hw
        simp
      · simp [hw, hcbOf w']
  | resume w cb hpoint hfinished =>
    have hfits := h.fits w _ hpoint
    refine h.move hpoint rfl (.inr hfits.2) (fun hended ↦ absurd hended hfits.2) rfl
      (by cases cb <;> rfl) nofun (fun _ _ ↦ .inl rfl) fun _ hended ↦ ?_
    rcases hended with hended | hended <;> cases hended
  | register w cb hpoint =>
    exact ⟨h.known, h.queued_le, h.fits, h.queued, h.unique, h.cbPoint, fun w hcb ↦
      ⟨(h.cb w hcb).useCaller, (h.cb w hcb).only, (h.cb w hcb).points, (h.cb w hcb).idle,
        (h.cb w hcb).ended⟩⟩
  | yield w cb hpoint =>
    have hexec : (s.view g).fiber.state = .exec := h.fits w _ hpoint
    have hlive : ¬(s.view g).fiber.Ended := by simp [Fiber.Ended, hexec]
    have hyield : ¬(s.view g).fiber.yield.Ended := by
      unfold Fiber.yield
      split_ifs
      · exact hlive
      · simp [Fiber.Ended]
    refine h.move hpoint ?_ (.inr hlive) (fun hended ↦ absurd hended hlive) ?_
      (by cases cb <;> rfl) nofun (fun hpos _ ↦ ?_) fun _ hended ↦ absurd hended hyield
    · unfold Fiber.yield
      split_ifs <;> rfl
    · unfold Fiber.yield
      split_ifs with huse
      · exact .inl ⟨hexec, by simpa [hexec] using huse⟩
      · exact .inr (.inl ⟨rfl, by simpa [hexec] using huse⟩)
    · have huse := (h.queued hpos w _ hpoint).1
      unfold Fiber.yield
      rw [huse, Bool.true_or, if_pos rfl]
      exact .inl hexec
  | finish w cb throws hpoint =>
    have hexec : (s.view g).fiber.state = .exec := h.fits w _ hpoint
    have hlive : ¬(s.view g).fiber.Ended := by simp [Fiber.Ended, hexec]
    refine h.move hpoint ?_ (.inr hlive) (fun hended ↦ absurd hended hlive) ?_
      (by cases cb <;> rfl) nofun (fun hpos _ ↦ .inr ?_) fun hcb _ ↦ ?_
    · exact Fiber.useCaller_finish _ _
    · rcases Fiber.finish_cases (s.view g).fiber throws with hended | hready
      · exact .inr (.inr hended)
      · exact .inr (.inl hready)
    · rcases Fiber.finish_cases (s.view g).fiber throws with hended | hready
      · exact hended
      · have huse := (h.queued hpos w _ hpoint).1
        rw [← Fiber.useCaller_finish _ throws] at huse
        cases huse.symm.trans hready.2
    · have hsome := ((h.cb w hcb).points w _ hpoint).2
      cases cb with
      | true => exact ha g (by rw [Scheduler.point_of_view hpoint]; rfl)
      | false => cases hsome
  | swapOut w cb hpoint =>
    have hfits : (s.view g).fiber.Fits (.yielding g cb) := h.fits w _ hpoint
    exact h.move hpoint rfl (.inl rfl) id hfits (by cases cb <;> rfl) nofun
      (fun _ ↦ id) fun hcb ↦ (h.cb w hcb).ended
  | release w cb hpoint =>
    have hfits : (s.view g).fiber.Fits (.returned g cb) := h.fits w _ hpoint
    exact h.move hpoint rfl (.inl rfl) id hfits (by cases cb <;> rfl) nofun
      (fun _ ↦ id) fun hcb ↦ (h.cb w hcb).ended
  | lookReady w cb hpoint hready =>
    refine h.move hpoint rfl (.inl rfl) id ⟨hready, ?_⟩ (by cases cb <;> rfl) nofun
      (fun _ ↦ id) fun hcb ↦ (h.cb w hcb).ended
    rcases h.fits w _ hpoint with ⟨hexec, -⟩ | ⟨-, hplain⟩ | hended | hended
    · cases hready.symm.trans hexec
    · exact hplain
    · cases hready.symm.trans hended
    · cases hready.symm.trans hended
  | lookReset w hpoint hended =>
    have hcb := h.cbPoint w _ hpoint rfl
    have hok := h.cb w hcb
    refine of_idleCallback (w := w) (h.of_known hpoint) (hok.ended hended) hok.useCaller rfl
      (fun w' ↦ ?_) hok.only
    by_cases hw : w' = w
    · subst hw
      simp only [Function.update_self]
    · simp only [Function.update_of_ne hw]
      cases hp' : (s.view g).points w' with
      | none => rfl
      | some p' => exact absurd (hok.points w' p' hp').1 hw
  | lookEnded w hpoint hended => exact h.remove (h.cbOf_ne hpoint rfl)
  | lookHold w cb hpoint hready hended =>
    refine h.move hpoint rfl (.inl rfl) id ?_ (by cases cb <;> rfl) nofun (fun _ ↦ id)
      fun hcb ↦ (h.cb w hcb).ended
    rcases h.fits w _ hpoint with hexec | ⟨hready', -⟩ | hended'
    · exact hexec
    · exact absurd hready' hready
    · exact absurd hended' hended
  | reschedule w cb hpoint =>
    obtain ⟨hready, hplain⟩ := h.fits w _ hpoint
    have hlive : ¬(s.view g).fiber.Ended := by simp [Fiber.Ended, hready]
    have hqueued : (s.view g).queued = 0 := by
      by_contra hpos
      cases ((h.queued (by omega) w _ hpoint).1).symm.trans hplain
    exact h.put_away (g := g) hpoint (by cases cb <;> rfl) hlive (by omega)
  | hold w cb hpoint =>
    obtain ⟨hexec, -⟩ := h.fits w _ hpoint
    have hlive : ¬(s.view g).fiber.Ended := by simp [Fiber.Ended, hexec]
    exact h.put_away (g := g) hpoint (by cases cb <;> rfl) hlive h.queued_le

end FiberOk

/-! ### Every run -/

structure ExclusionInv (s : Scheduler c) : Prop where
  cb : s.CbInv
  fibers : ∀ g, FiberOk (s.view g)

namespace ExclusionInv

variable {s s' : Scheduler c} {a : SchedulerAction c}

theorem initial : ExclusionInv (scheduler c).init where
  cb := Scheduler.CbInv.initial
  fibers := fun _ ↦
    { known := fun _ ↦ ⟨rfl, fun _ ↦ rfl, fun _ ↦ rfl⟩
      queued_le := Nat.zero_le 1
      fits := nofun
      queued := fun _ ↦ nofun
      unique := fun _ _ _ _ _ ↦ nofun
      cbPoint := nofun
      cb := nofun }

theorem step (h : ExclusionInv s) (ha : ExclusionFit s a) (hstep : s.step a = some s') :
    ExclusionInv s' where
  cb := h.cb.step hstep
  fibers := fun g ↦ (h.fibers g).step ha (Scheduler.viewStep h.cb hstep g)

theorem executed (h : ExclusionInv s) {w w' : Fin c.threads} {f : ℕ}
    (hw : (s.workers w).point.executed = some f) (hw' : (s.workers w').point.executed = some f) :
    w = w' := by
  by_contra hne
  obtain ⟨hfiber, htaken⟩ := WorkerPoint.executed_eq_some hw
  obtain ⟨hfiber', htaken'⟩ := WorkerPoint.executed_eq_some hw'
  rcases ((h.fibers f).unique w w' _ _ hne (Scheduler.points_eq_some rfl hfiber)
    (Scheduler.points_eq_some rfl hfiber')).2 with heq | heq
  · cases htaken.symm.trans heq
  · cases htaken'.symm.trans heq

theorem resumed (h : ExclusionInv s) {w : Fin c.threads} {f : ℕ} {cb : Bool}
    (hw : (s.workers w).point = .resuming f cb) (w' : Fin c.threads) :
    (s.workers w').point.executed ≠ some f := by
  intro hw'
  have hpoint : (s.view f).points w = some (.resuming f cb) := Scheduler.points_eq_some hw rfl
  have hne : w ≠ w' := by
    rintro rfl
    rw [hw] at hw'
    cases hw'
  -- a fiber that is about to be resumed has not ended
  have hlive := ((h.fibers f).fits w _ hpoint).2
  exact hlive ((h.fibers f).unique w w' _ _ hne hpoint
    (Scheduler.points_eq_some rfl (WorkerPoint.executed_eq_some hw').1)).1

end ExclusionInv

/-- Mutual exclusion. In a run of any workers, fibers and calls that meets the condition, a fiber is
executed by one worker at a time, and it is resumed only after the swap of its last run. -/
theorem fibersExclusive (r : Run (scheduler c)) (hr : r.Obeys ExclusionFit) : FibersExclusive r := by
  have hinv : ∀ k, ExclusionInv (r.state k) :=
    r.invariant ExclusionInv.initial (fun _ _ _ h ha hstep ↦ h.step ha hstep) hr
  exact ⟨fun k _ _ _ hw hw' ↦ (hinv k).executed hw hw', fun k _ _ _ _ hw ↦ (hinv k).resumed hw⟩

/-! ### Two workers -/

def twoWorkers : SchedulerConfig where
  threads := 2
  pos := Nat.two_pos
  caller := none

def firstWorker : Fin twoWorkers.threads := ⟨0, Nat.two_pos⟩

def secondWorker : Fin twoWorkers.threads := ⟨1, Nat.one_lt_two⟩

/-- A fiber waits for an event and is resumed by the other worker. -/
def eventRun : Run (scheduler twoWorkers) :=
  Run.ofActions (scheduler twoWorkers) [.newFiber true, .start, .schedule none (.fiber 0) none,
    .take firstWorker 0, .enter firstWorker, .resume firstWorker, .register firstWorker, .trigger 0,
    .yield firstWorker, .swapOut firstWorker, .release firstWorker, .look firstWorker,
    .hold firstWorker, .take secondWorker 0, .enter secondWorker, .resume secondWorker]
    (by decide +kernel)

theorem fibersExclusive_event : FibersExclusive eventRun :=
  fibersExclusive eventRun ((Run.obeys_ofActions_iff _ _).mpr (by decide +kernel))

/-- A fiber without `use_caller` calls `switchTo`. It is resumed after it has written `READY`. -/
def switchToRun : Run (scheduler twoWorkers) :=
  Run.ofActions (scheduler twoWorkers) [.newFiber false, .start, .schedule none (.fiber 0) none,
    .take firstWorker 0, .enter firstWorker, .resume firstWorker,
    .schedule (some firstWorker) (.fiber 0) (some secondWorker), .yield firstWorker,
    .take secondWorker 0, .enter secondWorker, .resume secondWorker]
    (by decide +kernel)

/-- Both workers execute it. -/
theorem fibersExclusive_switchTo : ¬FibersExclusive switchToRun := by
  intro h
  have hsame : firstWorker = secondWorker :=
    h.executed 11 firstWorker secondWorker 0 (by decide +kernel) (by decide +kernel)
  exact absurd hsame (by decide)

end Rsylar
