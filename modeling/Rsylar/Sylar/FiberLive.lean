import Rsylar.Sylar.FiberExclusion

/-!
# No fiber is forgotten

In any run, a fiber in `EXEC` is with a worker that has resumed it, and one in `READY` is in the
queue or with a worker that will put it there (`Live`). One that has once been scheduled is in
`INIT` only before it is resumed, or as a `cb_fiber` that has been reset (`Begun`).
-/

set_option autoImplicit false
set_option relaxedAutoImplicit false

namespace Rsylar

variable {c : SchedulerConfig}

namespace WorkerPoint

/-- The worker is between the write of `EXEC` and the one of `HOLD`. -/
def resumed : WorkerPoint → Bool
  | running _ _ | yielding _ _ | returned _ _ | released _ _ | holding _ _ => true
  | _ => false

/-- The worker has taken the fiber and has not looked at its state after the swap, or it has seen
`READY`. -/
def keepsReady : WorkerPoint → Bool
  | taken _ | resuming _ _ | running _ _ | yielding _ _ | returned _ _ | released _ _
  | rescheduling _ _ => true
  | _ => false

end WorkerPoint

namespace FiberView

variable {n : ℕ} {v : FiberView n} {w : Fin n} {p p' : WorkerPoint} {x : Fiber}

/-- In `EXEC` a worker has resumed it, and in `READY` it is in the queue or some worker will put it
there. -/
structure Live (v : FiberView n) : Prop where
  exec : v.fiber.state = .exec → v.At WorkerPoint.resumed
  ready : v.fiber.state = .ready → 0 < v.queued ∨ v.At WorkerPoint.keepsReady

/-- In `INIT` it is about to be resumed, or it is a `cb_fiber`. -/
def Begun (v : FiberView n) : Prop :=
  v.known = true ∧
    (v.fiber.state = .init → 0 < v.queued ∨ (∃ w, v.cbOf w = true) ∨ v.At WorkerPoint.early)

namespace Live

/-- The worker goes on, and would put the fiber back. -/
theorem move (hready : p'.keepsReady = true)
    (hexec : x.state = .exec → p'.resumed = true) :
    Live { v with fiber := x, points := Function.update v.points w (some p') } where
  exec := fun h ↦ at_update (hexec h)
  ready := fun _ ↦ .inr (at_update hready)

/-- A fiber that is neither in `EXEC` nor in `READY`. -/
theorem of_state (hexec : v.fiber.state ≠ .exec) (hready : v.fiber.state ≠ .ready) : Live v where
  exec := fun h ↦ absurd h hexec
  ready := fun h ↦ absurd h hready

theorem of_ended (h : v.fiber.Ended) : Live v := by
  refine of_state (fun hexec ↦ ?_) fun hready ↦ ?_
  · rcases h with h | h <;> cases hexec.symm.trans h
  · rcases h with h | h <;> cases hready.symm.trans h

theorem step {s : Scheduler c} {a : SchedulerAction c} {g : ℕ} {v' : FiberView c.threads}
    (h : Live (s.view g)) (hstep : ViewStep s g (s.view g) a v') : Live v' := by
  cases hstep with
  | none => exact h
  | newFiber => exact of_state (by simp) (by simp)
  | schedule => exact ⟨h.exec, fun _ ↦ .inl (Nat.succ_pos _)⟩
  | trigger => exact ⟨h.exec, fun _ ↦ .inl (Nat.succ_pos _)⟩
  | take w k hpoint hqueued hexec =>
    exact ⟨fun hexec' ↦ absurd hexec' hexec, fun _ ↦ .inr (at_update rfl)⟩
  | drop w hpoint hended => exact of_ended hended
  | enter w hpoint hended hexec => exact move rfl fun hexec' ↦ absurd hexec' hexec
  | enterCb w hpoint hcb hstate => exact of_state (by simp [Fiber.reset]) (by simp [Fiber.reset])
  | enterNew w hpoint hknown => exact of_state (by simp) (by simp)
  | resume w cb hpoint hfinished => exact move rfl fun _ ↦ rfl
  | register w cb hpoint => exact ⟨h.exec, h.ready⟩
  | yield w cb hpoint => exact move rfl fun _ ↦ rfl
  | finish w cb throws hpoint => exact move rfl fun _ ↦ rfl
  | swapOut w cb hpoint => exact move rfl fun _ ↦ rfl
  | release w cb hpoint => exact move rfl fun _ ↦ rfl
  | lookReady w cb hpoint hready => exact move rfl fun hexec ↦ by cases hready.symm.trans hexec
  | lookReset w hpoint hended => exact of_state (by simp [Fiber.reset]) (by simp [Fiber.reset])
  | lookEnded w hpoint hended => exact of_ended hended
  | lookHold w cb hpoint hready hended =>
    exact ⟨fun _ ↦ at_update rfl, fun hready' ↦ absurd hready' hready⟩
  | reschedule w cb hpoint =>
    exact ⟨fun hexec ↦ (h.exec hexec).update hpoint rfl, fun _ ↦ .inl (Nat.succ_pos _)⟩
  | hold w cb hpoint => exact of_state (by simp) (by simp)

end Live

namespace Begun

/-- A worker that has resumed the fiber goes on. -/
theorem move (h : Begun v) (hp : v.points w = some p) (hearly : p.early = false)
    (hstate : x.state = .init → v.fiber.state = .init) {o : Option WorkerPoint} :
    Begun { v with fiber := x, points := Function.update v.points w o } := by
  refine ⟨h.1, fun hinit ↦ ?_⟩
  rcases h.2 (hstate hinit) with hqueued | hcb | hat
  · exact .inl hqueued
  · exact .inr (.inl hcb)
  · exact .inr (.inr (hat.update hp hearly))

theorem of_state (hknown : v.known = true) (hinit : v.fiber.state ≠ .init) : Begun v :=
  ⟨hknown, fun h ↦ absurd h hinit⟩

theorem step {s : Scheduler c} {a : SchedulerAction c} {g : ℕ} {v' : FiberView c.threads}
    (hcb : s.CbInv) (h : Begun (s.view g)) (hstep : ViewStep s g (s.view g) a v') : Begun v' := by
  have hended : (s.view g).fiber.Ended → (s.view g).fiber.state ≠ .init := by
    rintro (h | h) hinit <;> cases h.symm.trans hinit
  cases hstep with
  | none => exact h
  | newFiber useCaller hknown => cases hknown.symm.trans h.1
  | schedule => exact ⟨h.1, fun _ ↦ .inl (Nat.succ_pos _)⟩
  | trigger => exact ⟨h.1, fun _ ↦ .inl (Nat.succ_pos _)⟩
  | take => exact ⟨h.1, fun _ ↦ .inr (.inr (at_update rfl))⟩
  | drop w hpoint hend => exact of_state h.1 (hended hend)
  | enter => exact ⟨h.1, fun _ ↦ .inr (.inr (at_update rfl))⟩
  | enterCb => exact ⟨h.1, fun _ ↦ .inr (.inr (at_update rfl))⟩
  | enterNew w hpoint hknown => cases hknown.symm.trans h.1
  | resume => exact of_state h.1 (by simp)
  | register => exact ⟨h.1, h.2⟩
  | yield w cb hpoint =>
    refine h.move hpoint rfl fun hinit ↦ ?_
    unfold Fiber.yield at hinit
    split_ifs at hinit
    exact hinit
  | finish w cb throws hpoint =>
    refine of_state h.1 fun hinit ↦ ?_
    rcases Fiber.finish_cases (s.view g).fiber throws with (h | h) | ⟨h, -⟩ <;>
      cases h.symm.trans hinit
  | swapOut w cb hpoint => exact h.move hpoint rfl id
  | release w cb hpoint => exact h.move hpoint rfl id
  | lookReady w cb hpoint => exact h.move hpoint rfl id
  | lookReset w hpoint =>
    have hcbOf : (s.view g).cbOf w = true := by
      have := hcb w g (by rw [Scheduler.point_of_view hpoint]; rfl)
      simpa [Scheduler.view] using this
    exact ⟨h.1, fun _ ↦ .inr (.inl ⟨w, hcbOf⟩)⟩
  | lookEnded w hpoint hend => exact of_state h.1 (hended hend)
  | lookHold w cb hpoint => exact h.move hpoint rfl id
  | reschedule => exact ⟨h.1, fun _ ↦ .inl (Nat.succ_pos _)⟩
  | hold => exact of_state h.1 (by simp)

end Begun

end FiberView

end Rsylar
