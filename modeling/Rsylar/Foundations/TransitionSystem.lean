import Mathlib.Data.Set.Insert

/-!
# Labelled transition systems, their runs and their pasts

A system is an initial state and a partial step function: all nondeterminism is in the choice of the
action, so a run is determined by its actions. A run assigns a state to every moment `0, 1, …`; a
moment without an action is a pause, so finite executions are runs as well (`Run.ofActions`).

Two facts about a run reach backwards. `Run.past` is the set of the views a run has shown up to a
moment, and `Run.Happened` says that a transition of a given kind was taken before a moment. Both
only grow. `Run.invariant` is the induction rule for a property of the state,
`Run.invariant_past` for a property of the state together with its past, and
`Run.invariant_happened` for a property of the state together with the events before it. All three
are relative to a condition on the transitions taken, so that a property can be proved of the runs
that meet it. `Run.withHistory` adds a variable to a run that records its transitions.
-/

set_option autoImplicit false
set_option relaxedAutoImplicit false

namespace TransitionSystem

/-- A labelled transition system: `step s a` is the state after action `a`, or `none` when the
action is not enabled in `s`. -/
structure Lts (σ α : Type*) where
  init : σ
  step : σ → α → Option σ

variable {σ α ν ε : Type*} {M : Lts σ α}

/-- The state after a list of actions, `none` when one of them is not enabled. -/
def Lts.exec (M : Lts σ α) (s : σ) : List α → Option σ
  | [] => some s
  | a :: as => (M.step s a).bind fun s' ↦ M.exec s' as

/-- A run: the state at every moment and the action taken there, `none` for a pause. -/
structure Run (M : Lts σ α) where
  state : ℕ → σ
  act : ℕ → Option α
  state_zero : state 0 = M.init
  pause : ∀ k, act k = none → state (k + 1) = state k
  next : ∀ k a, act k = some a → M.step (state k) a = some (state (k + 1))

namespace Run

/-- Every transition of the run meets the condition `ok` on its source state and its action. -/
def Obeys (r : Run M) (ok : σ → α → Prop) : Prop :=
  ∀ k a, r.act k = some a → ok (r.state k) a

/-- The views shown at the moments up to `k`. -/
def past (r : Run M) (view : σ → ν) (k : ℕ) : Set ν :=
  {v | ∃ j ≤ k, view (r.state j) = v}

/-- A transition of the kind `event` was taken before moment `k`. -/
def Happened (r : Run M) (event : σ → α → ε → Prop) (k : ℕ) (e : ε) : Prop :=
  ∃ j < k, ∃ a, r.act j = some a ∧ event (r.state j) a e

theorem mem_past_self (r : Run M) (view : σ → ν) (k : ℕ) : view (r.state k) ∈ r.past view k :=
  ⟨k, le_refl k, rfl⟩

theorem mem_past_of_le (r : Run M) (view : σ → ν) {j k : ℕ} (h : j ≤ k) :
    view (r.state j) ∈ r.past view k :=
  ⟨j, h, rfl⟩

theorem past_mono (r : Run M) (view : σ → ν) {j k : ℕ} (h : j ≤ k) :
    r.past view j ⊆ r.past view k := by
  rintro v ⟨i, hi, rfl⟩
  exact ⟨i, hi.trans h, rfl⟩

theorem past_zero (r : Run M) (view : σ → ν) : r.past view 0 = {view M.init} := by
  ext v
  constructor
  · rintro ⟨j, hj, rfl⟩
    obtain rfl : j = 0 := by omega
    rw [r.state_zero]
    rfl
  · rintro rfl
    exact ⟨0, le_refl 0, by rw [r.state_zero]⟩

theorem past_succ (r : Run M) (view : σ → ν) (k : ℕ) :
    r.past view (k + 1) = insert (view (r.state (k + 1))) (r.past view k) := by
  ext v
  constructor
  · rintro ⟨j, hj, rfl⟩
    rcases Nat.lt_or_ge k j with hlt | hle
    · obtain rfl : j = k + 1 := by omega
      exact Set.mem_insert _ _
    · exact Set.mem_insert_of_mem _ ⟨j, hle, rfl⟩
  · rintro (rfl | ⟨j, hj, rfl⟩)
    · exact ⟨k + 1, le_refl _, rfl⟩
    · exact ⟨j, by omega, rfl⟩

/-- A pause adds nothing to the past. -/
theorem past_pause (r : Run M) (view : σ → ν) {k : ℕ} (h : r.act k = none) :
    r.past view (k + 1) = r.past view k := by
  rw [past_succ, r.pause k h]
  exact Set.insert_eq_of_mem (r.mem_past_self view k)

/-- Assumes: a property of the initial state that every transition meeting `ok` keeps. It holds at
every moment of every run that obeys `ok`. -/
theorem invariant {P : σ → Prop} {ok : σ → α → Prop} (h0 : P M.init)
    (hstep : ∀ s a s', P s → ok s a → M.step s a = some s' → P s')
    (r : Run M) (hr : r.Obeys ok) (k : ℕ) : P (r.state k) := by
  induction k with
  | zero => rw [r.state_zero]; exact h0
  | succ k ih =>
    cases ha : r.act k with
    | none => rw [r.pause k ha]; exact ih
    | some a => exact hstep _ a _ ih (hr k a ha) (r.next k a ha)

/-- Assumes: an invariant, and a property that a transition keeps exactly when it meets `ok`. The
property holds at every moment of a run exactly when the run obeys `ok`. -/
theorem forall_iff_obeys {I P : σ → Prop} {ok : σ → α → Prop} (h0 : I M.init) (hP0 : P M.init)
    (hinv : ∀ s a s', I s → M.step s a = some s' → I s')
    (hkeep : ∀ s a s', I s → P s → M.step s a = some s' → (P s' ↔ ok s a)) (r : Run M) :
    (∀ k, P (r.state k)) ↔ r.Obeys ok := by
  have hI : ∀ k, I (r.state k) := r.invariant h0
    (fun s a s' hs (_ : True) hstep ↦ hinv s a s' hs hstep) fun _ _ _ ↦ trivial
  constructor
  · intro h k a ha
    exact (hkeep _ a _ (hI k) (h k) (r.next k a ha)).mp (h (k + 1))
  · intro h k
    have hboth : I (r.state k) ∧ P (r.state k) := by
      refine r.invariant (P := fun s ↦ I s ∧ P s) ⟨h0, hP0⟩ ?_ h k
      rintro s a s' ⟨hs, hPs⟩ ha hstep
      exact ⟨hinv s a s' hs hstep, (hkeep s a s' hs hPs hstep).mpr ha⟩
    exact hboth.2

/-- A quantity that no transition between two moments lowers has not fallen between them. -/
theorem le_between {β : Type*} [Preorder β] (r : Run M) (f : σ → β) {j k : ℕ} (hjk : j ≤ k)
    (hstep : ∀ l a, j ≤ l → l < k → r.act l = some a → f (r.state l) ≤ f (r.state (l + 1))) :
    f (r.state j) ≤ f (r.state k) := by
  induction k, hjk using Nat.le_induction with
  | base => exact le_refl _
  | succ k hjk ih =>
    refine (ih fun l a hl hlt ↦ hstep l a hl (by omega)).trans ?_
    cases ha : r.act k with
    | none => rw [r.pause k ha]
    | some a => exact hstep k a hjk (Nat.lt_succ_self k) ha

/-- The induction rule for a property of the state and of the views shown so far. Assumes: it holds
initially, where only the initial view has been shown, and a transition meeting `ok` keeps it when
the new view joins the past. -/
theorem invariant_past {view : σ → ν} {P : Set ν → σ → Prop} {ok : σ → α → Prop}
    (h0 : P {view M.init} M.init)
    (hstep : ∀ H s a s', P H s → ok s a → M.step s a = some s' → P (insert (view s') H) s')
    (r : Run M) (hr : r.Obeys ok) (k : ℕ) : P (r.past view k) (r.state k) := by
  induction k with
  | zero => rw [r.past_zero, r.state_zero]; exact h0
  | succ k ih =>
    cases ha : r.act k with
    | none => rw [r.past_pause view ha, r.pause k ha]; exact ih
    | some a =>
      rw [past_succ]
      exact hstep _ _ a _ ih (hr k a ha) (r.next k a ha)

theorem Happened.mono {r : Run M} {event : σ → α → ε → Prop} {j k : ℕ} {e : ε}
    (h : r.Happened event j e) (hjk : j ≤ k) : r.Happened event k e := by
  obtain ⟨i, hi, a, ha, he⟩ := h
  exact ⟨i, by omega, a, ha, he⟩

/-- The induction rule for a property of the state and of the events before it. Assumes: the
property grows with the set of events, holds initially with no event, and is kept by a transition
meeting `ok` when the events of the transition join. -/
theorem invariant_happened {event : σ → α → ε → Prop} {P : (ε → Prop) → σ → Prop}
    {ok : σ → α → Prop} (h0 : P (fun _ ↦ False) M.init)
    (hstep : ∀ H s a s', P H s → ok s a → M.step s a = some s' →
      P (fun e ↦ H e ∨ event s a e) s')
    (r : Run M) (hr : r.Obeys ok) (k : ℕ) : P (r.Happened event k) (r.state k) := by
  induction k with
  | zero =>
    have hnone : r.Happened event 0 = fun _ ↦ False := by
      funext e
      exact propext ⟨fun ⟨j, hj, _⟩ ↦ by omega, False.elim⟩
    rw [hnone, r.state_zero]
    exact h0
  | succ k ih =>
    cases ha : r.act k with
    | none =>
      have hsame : r.Happened event (k + 1) = r.Happened event k := by
        funext e
        refine propext ⟨?_, fun h ↦ h.mono (by omega)⟩
        rintro ⟨j, hj, a, haj, he⟩
        have hne : j ≠ k := by
          rintro rfl
          rw [ha] at haj
          cases haj
        exact ⟨j, by omega, a, haj, he⟩
      rw [hsame, r.pause k ha]
      exact ih
    | some a =>
      have hmore : r.Happened event (k + 1) =
          fun e ↦ r.Happened event k e ∨ event (r.state k) a e := by
        funext e
        refine propext ⟨?_, ?_⟩
        · rintro ⟨j, hj, b, hb, he⟩
          rcases Nat.lt_or_ge j k with hlt | hge
          · exact Or.inl ⟨j, hlt, b, hb, he⟩
          · obtain rfl : j = k := by omega
            rw [ha] at hb
            cases hb
            exact Or.inr he
        · rintro (h | he)
          · exact h.mono (by omega)
          · exact ⟨k, by omega, a, ha, he⟩
      rw [hmore]
      exact hstep _ _ a _ ih (hr k a ha) (r.next k a ha)

end Run

/-! ### History variables -/

/-- The system with a variable that records the transitions and has no effect on them. -/
def Lts.withHistory {γ : Type*} (M : Lts σ α) (empty : γ) (record : σ → α → σ → γ → γ) :
    Lts (σ × γ) α where
  init := (M.init, empty)
  step := fun s a ↦ (M.step s.1 a).map fun s' ↦ (s', record s.1 a s' s.2)

/-- What a run has recorded up to a moment. -/
def Run.history {γ : Type*} (r : Run M) (empty : γ) (record : σ → α → σ → γ → γ) : ℕ → γ
  | 0 => empty
  | k + 1 =>
    match r.act k with
    | none => r.history empty record k
    | some a => record (r.state k) a (r.state (k + 1)) (r.history empty record k)

/-- Every run is one of the system with the variable. -/
def Run.withHistory {γ : Type*} (r : Run M) (empty : γ) (record : σ → α → σ → γ → γ) :
    Run (M.withHistory empty record) where
  state := fun k ↦ (r.state k, r.history empty record k)
  act := r.act
  state_zero := by rw [r.state_zero]; rfl
  pause := by
    intro k hk
    rw [r.pause k hk, Run.history, hk]
  next := by
    intro k a hk
    rw [Lts.withHistory, Run.history, hk]
    dsimp only
    rw [r.next k a hk, Option.map_some]

/-! ### Finite executions are runs -/

theorem Lts.exec_append (M : Lts σ α) (s : σ) (as bs : List α) :
    M.exec s (as ++ bs) = (M.exec s as).bind fun s' ↦ M.exec s' bs := by
  induction as generalizing s with
  | nil => rfl
  | cons a as ih =>
    simp only [List.cons_append, Lts.exec]
    cases M.step s a with
    | none => rfl
    | some s' => exact ih s'

/-- The state after the first `k` of the actions, the initial state when one is not enabled. -/
def Lts.stateAfter (M : Lts σ α) (as : List α) (k : ℕ) : σ :=
  (M.exec M.init (as.take k)).getD M.init

theorem Lts.exec_take_isSome (M : Lts σ α) {as : List α} (h : (M.exec M.init as).isSome) (k : ℕ) :
    M.exec M.init (as.take k) = some (M.stateAfter as k) := by
  rw [← List.take_append_drop k as, Lts.exec_append] at h
  unfold Lts.stateAfter
  cases hk : M.exec M.init (as.take k) with
  | none => rw [hk] at h; cases h
  | some s => rfl

/-- A list of actions that are enabled one after the other is a run that pauses afterwards. -/
def Run.ofActions (M : Lts σ α) (as : List α) (h : (M.exec M.init as).isSome) : Run M where
  state := M.stateAfter as
  act := fun k ↦ as[k]?
  state_zero := rfl
  pause := by
    intro k hk
    have hlen : as.length ≤ k := List.getElem?_eq_none_iff.mp hk
    unfold Lts.stateAfter
    rw [List.take_of_length_le hlen, List.take_of_length_le (by omega)]
  next := by
    intro k a hk
    have hsucc := M.exec_take_isSome h (k + 1)
    rw [List.take_add_one, hk, Lts.exec_append, M.exec_take_isSome h k] at hsucc
    simpa [Lts.exec] using hsucc

/-- The condition holds of the actions, taken one after the other from the state on. -/
def Lts.AllSteps (M : Lts σ α) (ok : σ → α → Prop) : σ → List α → Prop
  | _, [] => True
  | s, a :: as => ok s a ∧ ∀ s' ∈ M.step s a, M.AllSteps ok s' as

instance Lts.decidableAllSteps (M : Lts σ α) (ok : σ → α → Prop) [DecidableRel ok] :
    ∀ (s : σ) (as : List α), Decidable (M.AllSteps ok s as)
  | _, [] => .isTrue trivial
  | s, a :: as =>
    have := fun s' ↦ M.decidableAllSteps ok s' as
    inferInstanceAs (Decidable (ok s a ∧ ∀ s' ∈ M.step s a, M.AllSteps ok s' as))

theorem Lts.allSteps_iff (M : Lts σ α) {ok : σ → α → Prop} {s₀ s : σ} {as : List α}
    (h : (M.exec s as).isSome) : M.AllSteps ok s as ↔
      ∀ k a, as[k]? = some a → ok ((M.exec s (as.take k)).getD s₀) a := by
  induction as generalizing s with
  | nil => simp [AllSteps]
  | cons b bs ih =>
    cases hb : M.step s b with
    | none =>
      rw [Lts.exec, hb] at h
      cases h
    | some s' =>
      rw [Lts.exec, hb] at h
      have htake : ∀ k, M.exec s ((b :: bs).take (k + 1)) = M.exec s' (bs.take k) := by
        intro k
        rw [List.take_succ_cons, Lts.exec, hb]
        rfl
      constructor
      · rintro ⟨hok, hall⟩ k a ha
        cases k with
        | zero =>
          cases ha
          exact hok
        | succ k =>
          rw [htake]
          exact (ih h).mp (hall s' hb) k a ha
      · intro hall
        refine ⟨hall 0 b rfl, fun t ht ↦ ?_⟩
        obtain rfl : s' = t := Option.some.inj (hb.symm.trans ht)
        refine (ih h).mpr fun k a ha ↦ ?_
        rw [← htake]
        exact hall (k + 1) a ha

/-- A condition on a finite execution is checked action by action. -/
theorem Run.obeys_ofActions_iff (M : Lts σ α) {as : List α} (h : (M.exec M.init as).isSome)
    {ok : σ → α → Prop} : (Run.ofActions M as h).Obeys ok ↔ M.AllSteps ok M.init as :=
  (M.allSteps_iff h).symm

/-- A condition on the actions alone is checked on the list. -/
theorem Run.obeys_ofActions (M : Lts σ α) {as : List α} (h : (M.exec M.init as).isSome)
    {ok : σ → α → Prop} (hok : ∀ a ∈ as, ∀ s, ok s a) : (Run.ofActions M as h).Obeys ok :=
  fun _ a ha ↦ hok a (List.mem_of_getElem? ha) _

end TransitionSystem
