import Rsylar.Sylar.IOManager

/-!
# The table of contexts

`addEvent` decides to enlarge the table under one lock and does it under a later one, to a size that
depends on its descriptor alone. When another call has enlarged the table further meanwhile, it is
cut: the contexts at its end are lost with the events registered in them, as in `cutTableRun`. So no
context is lost exactly when no resize finds a table that is larger than what it resizes to
(`keepsContexts_iff`).
-/

set_option autoImplicit false
set_option relaxedAutoImplicit false

namespace Rsylar

open TransitionSystem

/-- The resize does not cut the table. -/
def Enlarges (s : IOSystem) : IOAction → Prop
  | .resize k => ∀ call ∈ s.calls[k]?, s.iom.fdContexts.length ≤ call.fd * 3 / 2
  | _ => True

/-- The table does not shrink and keeps its contexts, and the context of every registered event is
the one that a call for its descriptor finds. -/
structure KeepsContexts (r : Run ioManager) : Prop where
  size : ∀ j k : ℕ, j ≤ k →
    (r.state j).iom.fdContexts.length ≤ (r.state k).iom.fdContexts.length
  reachable : ∀ j k fd i : ℕ, j ≤ k → (r.state j).iom.fdContexts[fd]? = some i →
    (r.state k).iom.fdContexts[fd]? = some i
  found : ∀ k i : ℕ, i < (r.state k).iom.contextCount → ((r.state k).iom.contexts i).events ≠ ∅ →
    (r.state k).iom.fdContexts[((r.state k).iom.contexts i).fd]? = some i

/-! ### A resize -/

namespace IOManager

variable (s : IOManager) (size : ℕ)

theorem length_contextResize : (s.contextResize size).fdContexts.length = size := by
  simp only [contextResize, List.length_append, List.length_take, List.length_map, List.length_range]
  omega

variable {s size}

theorem contextResize_getElem? (h : s.fdContexts.length ≤ size) {fd i : ℕ}
    (hfd : s.fdContexts[fd]? = some i) : (s.contextResize size).fdContexts[fd]? = some i := by
  simp only [contextResize, List.take_of_length_le h]
  rw [List.getElem?_append_left (List.getElem?_eq_some_iff.mp hfd).1]
  exact hfd

/-- Every context made is in the table at its descriptor. -/
def Tabled (s : IOManager) : Prop :=
  ∀ i < s.contextCount, s.fdContexts[(s.contexts i).fd]? = some i

theorem Tabled.contextResize (h : s.Tabled) (hsize : s.fdContexts.length ≤ size) :
    (s.contextResize size).Tabled := by
  intro i hi
  rcases Nat.lt_or_ge i s.contextCount with hold | hnew
  · have hcontext : (s.contextResize size).contexts i = s.contexts i :=
      if_neg fun hge ↦ absurd hge.1 (not_le.mpr hold)
    rw [hcontext]
    exact contextResize_getElem? hsize (h i hold)
  · have hcontext : (s.contextResize size).contexts i =
        { fd := s.fdContexts.length + (i - s.contextCount) } := if_pos ⟨hnew, hi⟩
    have hlt : i - s.contextCount < size - s.fdContexts.length := by
      have hcount : i < s.contextCount + (size - s.fdContexts.length) := hi
      omega
    rw [hcontext]
    simp only [IOManager.contextResize, List.take_of_length_le hsize]
    rw [List.getElem?_append_right (Nat.le_add_right _ _), Nat.add_sub_cancel_left,
      List.getElem?_map, List.getElem?_range hlt, Option.map_some, Nat.add_sub_cancel' hnew]

theorem tabled_create : create.Tabled :=
  Tabled.contextResize (fun _ hi ↦ absurd hi (Nat.not_lt_zero _)) (Nat.zero_le _)

theorem Tabled.sectionStep {s' : IOManager} {j : ℕ} (h : s.Tabled) (hstep : SectionStep j s s') :
    s'.Tabled := by
  intro i hi
  rw [hstep.contextCount] at hi
  have hfd : (s'.contexts i).fd = (s.contexts i).fd := by
    by_cases hij : i = j
    · exact hij ▸ hstep.fd
    · rw [hstep.others i hij]
  rw [hstep.fdContexts, hfd]
  exact h i hi

end IOManager

/-! ### The table in every run -/

/-- What a step does to the table, when it is not cut. -/
structure TableStep (s s' : IOManager) : Prop where
  size : s.fdContexts.length ≤ s'.fdContexts.length
  reachable : ∀ fd i : ℕ, s.fdContexts[fd]? = some i → s'.fdContexts[fd]? = some i
  tabled : s.Tabled → s'.Tabled

theorem TableStep.refl (s : IOManager) : TableStep s s :=
  ⟨le_refl _, fun _ _ ↦ id, id⟩

theorem SectionStep.tableStep {i : ℕ} {s s' : IOManager} (h : SectionStep i s s') :
    TableStep s s' where
  size := h.fdContexts ▸ le_refl _
  reachable := fun _ _ hfd ↦ h.fdContexts ▸ hfd
  tabled := fun htabled ↦ htabled.sectionStep h

theorem IOSystem.setIom_cases (s : IOSystem) (x : Except IOFault IOManager) :
    (∃ iom, x = .ok iom ∧ s.setIom x = { s with iom := iom }) ∨
      ∃ e, x = .error e ∧ s.setIom x = { s with fault := some e } := by
  cases x with
  | ok iom => exact .inl ⟨iom, rfl, rfl⟩
  | error e => exact .inr ⟨e, rfl, rfl⟩

variable {s s' : IOSystem} {a : IOAction}

theorem tableStep_step (ha : Enlarges s a) (hstep : s.step a = some s') :
    TableStep s.iom s'.iom := by
  have hresize : ∀ {call : IOCall}, s.iom.fdContexts.length ≤ call.fd * 3 / 2 →
      TableStep s.iom (s.iom.contextResize (call.fd * 3 / 2)) := fun hsize ↦
    ⟨by rwa [IOManager.length_contextResize], fun _ _ ↦ IOManager.contextResize_getElem? hsize,
      fun htabled ↦ htabled.contextResize hsize⟩
  cases (IOSystem.step_cases hstep).2 with
  | resize k call i hcall _ _ => exact hresize (ha call hcall)
  | outOfBounds k call hcall _ _ => exact hresize (ha call hcall)
  | finish k ok call i _ _ =>
    rcases IOSystem.setIom_cases { s with calls := s.calls.eraseIdx k }
      (IOSystem.finish s.iom i call.fd call.op ok) with ⟨iom, hfinish, heq⟩ | ⟨e, -, heq⟩
    · rw [heq]
      exact (IOSystem.sectionStep_finish hfinish).tableStep
    · rw [heq]
      exact .refl _
  | process k ok report _ =>
    rcases IOSystem.setIom_cases { s with reports := s.reports.eraseIdx k }
      (s.iom.processReport report ok) with ⟨iom, hprocess, heq⟩ | ⟨e, -, heq⟩
    · rw [heq]
      exact (IOManager.sectionStep_processReport hprocess).tableStep
    · rw [heq]
      exact .refl _
  | close fd => exact ⟨le_refl _, fun _ _ ↦ id, id⟩
  | _ => exact .refl _

theorem length_resize {k : ℕ} (hstep : s.step (.resize k) = some s') {call : IOCall}
    (hcall : s.calls[k]? = some call) : s'.iom.fdContexts.length = call.fd * 3 / 2 := by
  cases (IOSystem.step_cases hstep).2 with
  | resize _ call' i hcall' _ _ =>
    obtain rfl : call = call' := Option.some.inj (hcall.symm.trans hcall')
    exact IOManager.length_contextResize _ _
  | outOfBounds _ call' hcall' _ _ =>
    obtain rfl : call = call' := Option.some.inj (hcall.symm.trans hcall')
    exact IOManager.length_contextResize _ _

/-- Registered descriptors are not dropped, in a run of any calls by any threads, exactly when no
resize finds a table that is larger than what it asks for. -/
theorem keepsContexts_iff (r : Run ioManager) : KeepsContexts r ↔ r.Obeys Enlarges := by
  constructor
  · intro h k a ha
    cases a with
    | resize l =>
      intro call hcall
      rw [← length_resize (r.next k _ ha) hcall]
      exact h.size k (k + 1) (Nat.le_succ k)
    | _ => trivial
  · intro h
    have hnext : ∀ k : ℕ, TableStep (r.state k).iom (r.state (k + 1)).iom := by
      intro k
      cases ha : r.act k with
      | none =>
        rw [r.pause k ha]
        exact .refl _
      | some a => exact tableStep_step (h k a ha) (r.next k a ha)
    have htabled : ∀ k : ℕ, (r.state k).iom.Tabled := by
      intro k
      induction k with
      | zero =>
        rw [r.state_zero]
        exact IOManager.tabled_create
      | succ k ih => exact (hnext k).tabled ih
    refine ⟨fun j k hjk ↦ ?_, fun j k fd i hjk hfd ↦ ?_, fun k i hi _ ↦ htabled k i hi⟩
    · exact monotone_nat_of_le_succ (fun k ↦ (hnext k).size) hjk
    · induction k, hjk using Nat.le_induction with
      | base => exact hfd
      | succ k _ ih => exact (hnext k).reachable fd i ih

/-! ### A table that is cut -/

def readingFiber : Caller where
  scheduler := some 0
  fiber := 0
  exec := true

/-- Two calls find the table too small, and the one with the smaller descriptor resizes it last. -/
def cutTable : List IOAction :=
  [.call 100 (.addEvent .read readingFiber), .call 40 (.addEvent .read readingFiber), .resize 0,
    .finish 0 true, .resize 0]

def cutTableRun : Run ioManager :=
  Run.ofActions ioManager cutTable (by decide +kernel)

/-- The event of descriptor 100 is registered, and its context is not in the table. -/
theorem keepsContexts_cutTable : ¬KeepsContexts cutTableRun := by
  intro h
  have hevents : ((cutTableRun.state 5).iom.contexts 100).events ≠ ∅ := by decide +kernel
  have hfound := h.found 5 100 (by decide +kernel) hevents
  exact absurd hfound (by decide +kernel)

end Rsylar
