import Mathlib.Data.List.Chain
import Mathlib.Logic.Function.Basic
import Rsylar.Foundations.TransitionSystem

/-!
# Configuration variables and their listeners

`setValue` calls the listeners under the read lock and assigns the value under the write lock, so
another call may come between its two sections. `ConfigSystem` are the threads inside `setValue`: a
call that has called the listeners is in `pending` until it assigns. Listeners may be added and
removed at any time; `received` is what the listener of a key has been called with.

When a call notifies while another one is pending, the listeners hear the values in one order and
the variable may take them in the other (`crossedRun`). As long as this does not happen, the
listeners and the variable agree, and it is the only way for them to disagree while the listeners
stay the same (`configListeners`).
-/

set_option autoImplicit false
set_option relaxedAutoImplicit false

namespace Rsylar

open TransitionSystem

variable {T : Type*}

structure ConfigVar (T : Type*) where
  val : T
  /-- the keys of `m_cbs` -/
  cbs : List ℕ := []
  /-- `s_fun_id` -/
  funId : ℕ := 0
  /-- the old and the new value of every call of the listener of a key -/
  received : ℕ → List (T × T) := fun _ ↦ []

namespace ConfigVar

/-- The section of `setValue` under the read lock, without the comparison. -/
def notify (s : ConfigVar T) (v : T) : ConfigVar T :=
  { s with
    received := fun key ↦
      if key ∈ s.cbs then s.received key ++ [(s.val, v)] else s.received key }

/-- The section of `setValue` under the write lock. -/
def assign (s : ConfigVar T) (v : T) : ConfigVar T :=
  { s with val := v }

def addListener (s : ConfigVar T) : ConfigVar T :=
  { s with cbs := s.cbs ++ [s.funId + 1], funId := s.funId + 1 }

def delListener (s : ConfigVar T) (key : ℕ) : ConfigVar T :=
  { s with cbs := s.cbs.filter (· ≠ key) }

/-- The new value of every notification is the old value of the next. -/
def Consecutive (calls : List (T × T)) : Prop :=
  calls.IsChain fun first second ↦ second.1 = first.2

/-- The last notification, if there was one, was of the value `v`. -/
def EndsWith (calls : List (T × T)) (v : T) : Prop :=
  ∀ last ∈ calls.getLast?, last.2 = v

end ConfigVar

structure ConfigSystem (T : Type*) where
  var : ConfigVar T
  /-- the values of the calls that have called the listeners and not assigned yet -/
  pending : List T := []

inductive ConfigAction (T : Type*)
  | notify (v : T)
  | assign (i : ℕ)
  | addListener
  | delListener (key : ℕ)

namespace ConfigSystem

/-- Every listener has heard the values one after the other, and once all calls have returned the
last value it has heard is that of the variable. -/
structure Consistent (s : ConfigSystem T) : Prop where
  consecutive : ∀ key ∈ s.var.cbs, ConfigVar.Consecutive (s.var.received key)
  last : s.pending = [] → ∀ key ∈ s.var.cbs, ConfigVar.EndsWith (s.var.received key) s.var.val

/-- No call notifies while another one is between its two sections. -/
def Alone (s : ConfigSystem T) : ConfigAction T → Prop
  | .notify v => v = s.var.val ∨ s.pending = []
  | _ => True

instance [DecidableEq T] (s : ConfigSystem T) (a : ConfigAction T) : Decidable (s.Alone a) :=
  match a with
  | .notify _ => instDecidableOr
  | .assign _ | .addListener | .delListener _ => instDecidableTrue

/-- The step is one of `setValue`. -/
def SetsValue (_ : ConfigSystem T) : ConfigAction T → Prop
  | .notify _ | .assign _ => True
  | _ => False

def step [DecidableEq T] (s : ConfigSystem T) : ConfigAction T → Option (ConfigSystem T)
  | .notify v =>
    if v = s.var.val then some s
    else some { var := s.var.notify v, pending := s.pending ++ [v] }
  | .assign i =>
    match s.pending[i]? with
    | some v => some { var := s.var.assign v, pending := s.pending.eraseIdx i }
    | none => none
  | .addListener => some { s with var := s.var.addListener }
  | .delListener key => some { s with var := s.var.delListener key }

end ConfigSystem

/-- A variable with the listeners `1, …, n`, which have heard nothing. -/
def configSystem [DecidableEq T] (val : T) (n : ℕ) : Lts (ConfigSystem T) (ConfigAction T) where
  init := { var := { val := val, cbs := (List.range n).map (· + 1), funId := n } }
  step := ConfigSystem.step

/-! ### Calls that do not overlap -/

/-- At most one call is pending, and every listener has heard the value it is about to assign. -/
structure ConfigInv (s : ConfigSystem T) : Prop where
  keys : ∀ key ∈ s.var.cbs, key ≤ s.var.funId
  fresh : ∀ key, s.var.funId < key → s.var.received key = []
  single : s.pending.length ≤ 1
  differs : ∀ v ∈ s.pending, v ≠ s.var.val
  consecutive : ∀ key, ConfigVar.Consecutive (s.var.received key)
  last : ∀ key ∈ s.var.cbs,
    ConfigVar.EndsWith (s.var.received key) (s.pending.headD s.var.val)

/-- The listeners have heard of the pending call. -/
structure ConfigHeard (s : ConfigSystem T) : Prop where
  listeners : s.var.cbs ≠ []
  heard : s.pending ≠ [] → ∀ key ∈ s.var.cbs, s.var.received key ≠ []

section

variable {s s' : ConfigSystem T} {a : ConfigAction T}

theorem ConfigInv.initial [DecidableEq T] (val : T) (n : ℕ) : ConfigInv (configSystem val n).init where
  keys := by
    intro key hkey
    obtain ⟨i, hi, rfl⟩ := List.mem_map.mp hkey
    exact List.mem_range.mp hi
  fresh := fun _ _ ↦ rfl
  single := Nat.zero_le 1
  differs := fun _ hv ↦ by cases hv
  consecutive := fun _ ↦ List.isChain_nil
  last := fun _ _ _ hlast ↦ by cases hlast

/-- A call that notifies while no other is pending. -/
theorem ConfigInv.notify (h : ConfigInv s) (hpending : s.pending = []) {v : T}
    (hne : v ≠ s.var.val) : ConfigInv { var := s.var.notify v, pending := s.pending ++ [v] } where
  keys := h.keys
  fresh := by
    intro key hkey
    have hnot : key ∉ s.var.cbs := fun hmem ↦ absurd (h.keys key hmem) (not_le.mpr hkey)
    simpa only [ConfigVar.notify, hnot, if_false] using h.fresh key hkey
  single := by simp [hpending]
  differs := by
    intro w hw
    rw [hpending, List.nil_append, List.mem_singleton] at hw
    exact hw ▸ hne
  consecutive := by
    intro key
    by_cases hkey : key ∈ s.var.cbs
    · have hlast := h.last key hkey
      rw [hpending, List.headD_nil] at hlast
      simp only [ConfigVar.notify, hkey, if_true]
      exact (h.consecutive key).append (List.isChain_singleton _) fun last hmem new hnew ↦ by
        cases hnew
        exact (hlast last hmem).symm
    · simpa only [ConfigVar.notify, hkey, if_false] using h.consecutive key
  last := by
    intro key hkey last hlast
    change key ∈ s.var.cbs at hkey
    simp only [ConfigVar.notify, hkey, if_true, List.getLast?_append, List.getLast?_singleton] at hlast
    cases hlast
    simp [hpending]

theorem ConfigInv.assign (h : ConfigInv s) {i : ℕ} {v : T} (hi : s.pending[i]? = some v) :
    ConfigInv { var := s.var.assign v, pending := s.pending.eraseIdx i } := by
  obtain ⟨hlt, hv⟩ := List.getElem?_eq_some_iff.mp hi
  have hlength := h.single
  obtain ⟨w, hw⟩ := List.length_eq_one_iff.mp (show s.pending.length = 1 by omega)
  obtain rfl : i = 0 := by omega
  have hpending : s.pending = [v] := by simp_all
  refine ⟨h.keys, h.fresh, by simp [hpending], by simp [hpending], h.consecutive, ?_⟩
  intro key hkey
  have hlast := h.last key hkey
  rw [hpending] at hlast
  simpa [hpending, ConfigVar.assign] using hlast

theorem ConfigInv.addListener (h : ConfigInv s) :
    ConfigInv { s with var := s.var.addListener } where
  keys := by
    intro key hkey
    rcases List.mem_append.mp hkey with hold | hnew
    · exact (h.keys key hold).trans (Nat.le_succ _)
    · exact (List.mem_singleton.mp hnew).le
  fresh := fun key hkey ↦ h.fresh key ((Nat.lt_succ_self _).trans hkey)
  single := h.single
  differs := h.differs
  consecutive := h.consecutive
  last := by
    intro key hkey
    rcases List.mem_append.mp hkey with hold | hnew
    · exact h.last key hold
    · intro last hlast
      obtain rfl := List.mem_singleton.mp hnew
      rw [show s.var.addListener.received (s.var.funId + 1) = [] from
        h.fresh _ (Nat.lt_succ_self _)] at hlast
      cases hlast

theorem ConfigInv.delListener (h : ConfigInv s) (key : ℕ) :
    ConfigInv { s with var := s.var.delListener key } where
  keys := fun k hk ↦ h.keys k (List.mem_filter.mp hk).1
  fresh := h.fresh
  single := h.single
  differs := h.differs
  consecutive := h.consecutive
  last := fun k hk ↦ h.last k (List.mem_filter.mp hk).1

theorem ConfigInv.consistent (h : ConfigInv s) : s.Consistent where
  consecutive := fun key _ ↦ h.consecutive key
  last := fun hpending key hkey ↦ by simpa [hpending] using h.last key hkey

variable [DecidableEq T]

theorem ConfigInv.step {val : T} {n : ℕ} (h : ConfigInv s) (ha : s.Alone a)
    (hstep : (configSystem val n).step s a = some s') : ConfigInv s' := by
  cases a with
  | notify v =>
    simp only [configSystem, ConfigSystem.step] at hstep
    split at hstep
    · cases hstep
      exact h
    · rename_i hne
      cases hstep
      exact h.notify (ha.resolve_left hne) hne
  | assign i =>
    simp only [configSystem, ConfigSystem.step] at hstep
    split at hstep
    · rename_i hi
      cases hstep
      exact h.assign hi
    · cases hstep
  | addListener =>
    cases hstep
    exact h.addListener
  | delListener key =>
    cases hstep
    exact h.delListener key

/-! ### Calls that overlap -/

theorem ConfigHeard.step {val : T} {n : ℕ} (h : ConfigHeard s) (ha : s.SetsValue a)
    (hstep : (configSystem val n).step s a = some s') : ConfigHeard s' := by
  cases a with
  | notify v =>
    simp only [configSystem, ConfigSystem.step] at hstep
    split at hstep
    · cases hstep
      exact h
    · cases hstep
      refine ⟨h.listeners, fun _ key hkey ↦ ?_⟩
      change key ∈ s.var.cbs at hkey
      simp [ConfigVar.notify, hkey]
  | assign i =>
    simp only [configSystem, ConfigSystem.step] at hstep
    split at hstep
    · cases hstep
      refine ⟨h.listeners, fun hpending ↦ h.heard fun hnil ↦ hpending ?_⟩
      simp [hnil]
    · cases hstep
  | addListener => exact ha.elim
  | delListener key => exact ha.elim

/-- A call that notifies while another is pending tells the listeners of a value that does not
follow the one they have heard. -/
theorem alone_of_consistent {val : T} {n : ℕ} (h : ConfigInv s) (hheard : ConfigHeard s)
    (hstep : (configSystem val n).step s a = some s') (hs' : s'.Consistent) : s.Alone a := by
  cases a with
  | notify v =>
    by_contra hover
    obtain ⟨hne, hpending⟩ := not_or.mp hover
    simp only [configSystem, ConfigSystem.step, hne, if_false] at hstep
    cases hstep
    obtain ⟨key, hkey⟩ := List.exists_mem_of_ne_nil _ hheard.listeners
    obtain ⟨last, hlast⟩ := Option.ne_none_iff_exists'.mp fun hnone ↦
      hheard.heard hpending key hkey (List.getLast?_eq_none_iff.mp hnone)
    obtain ⟨w, rest, hw⟩ := List.exists_cons_of_ne_nil hpending
    have hchain := hs'.consecutive key hkey
    simp only [ConfigVar.Consecutive, ConfigVar.notify, hkey, if_true, List.isChain_append] at hchain
    have hval : s.var.val = last.2 := hchain.2.2 last hlast _ rfl
    have hheadlast : last.2 = w := by simpa [hw] using h.last key hkey last hlast
    exact h.differs w (by simp [hw]) (hheadlast ▸ hval.symm)
  | _ => trivial

end

/-! ### Runs -/

/-- While no call notifies between the two sections of another, the listeners are consistent with
the variable; and if they always are, and the listeners stay the same, no call ever does. -/
theorem configListeners [DecidableEq T] {val : T} {n : ℕ} (r : Run (configSystem val n)) :
    (r.Obeys ConfigSystem.Alone → ∀ k, (r.state k).Consistent) ∧
      (0 < n → r.Obeys ConfigSystem.SetsValue → (∀ k, (r.state k).Consistent) →
        r.Obeys ConfigSystem.Alone) := by
  constructor
  · intro hr k
    exact (r.invariant (ConfigInv.initial val n) (fun _ _ _ h ha hstep ↦ h.step ha hstep)
      hr k).consistent
  · intro hn hsets hconsistent
    have hinv : ∀ k, ConfigInv (r.state k) ∧ ConfigHeard (r.state k) := by
      intro k
      induction k with
      | zero =>
        rw [r.state_zero]
        refine ⟨ConfigInv.initial val n, ?_, fun hpending ↦ absurd rfl hpending⟩
        simpa [configSystem] using Nat.ne_of_gt hn
      | succ k ih =>
        cases ha : r.act k with
        | none =>
          rw [r.pause k ha]
          exact ih
        | some a =>
          have hnext := r.next k a ha
          have halone := alone_of_consistent ih.1 ih.2 hnext (hconsistent (k + 1))
          exact ⟨ih.1.step halone hnext, ih.2.step (hsets k a ha) hnext⟩
    intro k a ha
    exact alone_of_consistent (hinv k).1 (hinv k).2 (r.next k a ha) (hconsistent (k + 1))

/-- Two calls set 1 and 2: the listener hears of 2 last, and the variable keeps 1. -/
def crossedRun : Run (configSystem 0 1) :=
  .ofActions (configSystem 0 1) [.notify 1, .notify 2, .assign 1, .assign 0] (by decide +kernel)

/-- The second call begins when the first has returned. -/
def orderlyRun : Run (configSystem 0 1) :=
  .ofActions (configSystem 0 1) [.notify 1, .assign 0, .notify 2, .assign 0] (by decide +kernel)

theorem configListeners_crossed :
    (crossedRun.state 4).var.received 1 = [(0, 1), (0, 2)] ∧ (crossedRun.state 4).var.val = 1 ∧
      ¬(crossedRun.state 4).Consistent := by
  have hreceived : (crossedRun.state 4).var.received 1 = [(0, 1), (0, 2)] := by decide +kernel
  have hval : (crossedRun.state 4).var.val = 1 := by decide +kernel
  refine ⟨hreceived, hval, fun h ↦ ?_⟩
  have hlast := h.last (by decide +kernel) 1 (by decide +kernel) (0, 2) (by rw [hreceived]; rfl)
  rw [hval] at hlast
  cases hlast

theorem configListeners_orderly :
    (orderlyRun.state 4).var.received 1 = [(0, 1), (1, 2)] ∧ (orderlyRun.state 4).Consistent :=
  ⟨by decide +kernel, (configListeners orderlyRun).1 ((Run.obeys_ofActions_iff _ _).mpr
    (by decide +kernel)) 4⟩

end Rsylar
