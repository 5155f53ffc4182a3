import Rsylar.Sylar.TimerMembership

/-!
# What expiry does to the timers

`listExpiredCb` cuts the set at the lower bound of a timer that is due now and goes on over the
timers that are due at the same time, so what it takes out are the timers that are due, in the order
of the set (`expired_eq_filter`), whatever address the timer has that it searches with. Each of them
is put back with a new due time or loses its callback, and no other timer changes
(`listExpiredExact`).

A timer that has lost its callback is not in the set, and nothing gives it one again. `cancel` and
`refresh` refuse it; `reset` refuses it unless there is nothing to change (`deadTimers`).
-/

set_option autoImplicit false
set_option relaxedAutoImplicit false

namespace Rsylar

open TransitionSystem OrderedSet

namespace TimerManager

variable {s : TimerManager}

/-! ### The timers that are taken out -/

theorem expired_eq_filter (hs : Sorted s.key s.timers) (now address : ℕ) :
    s.expired now address = s.timers.filter fun t ↦ (s.timer t).next ≤ now := by
  let nowTimer : Timer := { next := now, address := address }
  have hbelow : (below s.key nowTimer.key s.timers).filter (fun t ↦ (s.timer t).next ≤ now) =
      below s.key nowTimer.key s.timers := by
    refine List.filter_eq_self.mpr fun t ht ↦ decide_eq_true ?_
    rcases Prod.Lex.lt_iff.mp (lt_of_mem_below ht) with hlt | ⟨heq, -⟩
    · exact Nat.le_of_lt hlt
    · exact Nat.le_of_eq heq
  have hge : ∀ t ∈ lowerBound s.key nowTimer.key s.timers, now ≤ (s.timer t).next := by
    intro t ht
    rcases Prod.Lex.le_iff.mp (le_of_mem_lowerBound hs ht) with hlt | ⟨heq, -⟩
    · exact Nat.le_of_lt hlt
    · exact Nat.le_of_eq heq
  have hsame : (lowerBound s.key nowTimer.key s.timers).takeWhile (fun t ↦ (s.timer t).next = now) =
      (lowerBound s.key nowTimer.key s.timers).filter fun t ↦ (s.timer t).next ≤ now := by
    have hsorted : Sorted s.key (lowerBound s.key nowTimer.key s.timers) :=
      hs.sublist (List.dropWhile_sublist _)
    rw [hsorted.takeWhile_eq_filter]
    · refine List.filter_congr fun t ht ↦ decide_eq_decide.mpr ⟨Nat.le_of_eq, fun hle ↦ ?_⟩
      exact Nat.le_antisymm hle (hge t ht)
    · intro t ht u hu hlt hnow
      have hle : (s.timer t).next ≤ (s.timer u).next := by
        rcases Prod.Lex.lt_iff.mp hlt with hnext | ⟨heq, -⟩
        · exact Nat.le_of_lt hnext
        · exact Nat.le_of_eq heq
      rw [decide_eq_true_iff] at hnow ⊢
      exact Nat.le_antisymm (hnow ▸ hle) (hge t ht)
  have hsplit : s.timers = below s.key nowTimer.key s.timers ++
      lowerBound s.key nowTimer.key s.timers := (below_append_lowerBound _ _).symm
  conv_rhs => rw [hsplit, List.filter_append, hbelow, ← hsame]
  rfl

/-! ### What becomes of them -/

/-- What a timer that is due is afterwards. -/
def renewed (s : TimerManager) (now t : ℕ) : Timer :=
  if (s.timer t).recurring then { s.timer t with next := add64 now (s.timer t).ms }
  else { s.timer t with cb := none }

theorem expire_timer (s : TimerManager) (now t : ℕ) :
    (s.expire now t).timer t = s.renewed now t := by
  unfold expire renewed
  split
  · exact Function.update_self ..
  · exact Function.update_self ..

theorem renewed_congr {s' : TimerManager} {t : ℕ} (h : s'.timer t = s.timer t) (now : ℕ) :
    s'.renewed now t = s.renewed now t := by
  rw [renewed, renewed, h]

theorem expireAll_timer (now : ℕ) {out : List ℕ} (hnodup : out.Nodup) (t : ℕ) :
    (s.expireAll now out).1.timer t = if t ∈ out then s.renewed now t else s.timer t := by
  induction out generalizing s with
  | nil => rfl
  | cons u out ih =>
    obtain ⟨hu, hout⟩ := List.nodup_cons.mp hnodup
    have hrest : (s.expireAll now (u :: out)).1.timer t =
        if t ∈ out then (s.expire now u).renewed now t else (s.expire now u).timer t := ih hout
    by_cases heq : t = u
    · obtain rfl := heq
      rw [hrest, if_neg hu, if_pos List.mem_cons_self, expire_timer]
    · have hsame := expire_timer_of_ne (s := s) now heq
      rw [hrest, renewed_congr hsame, hsame]
      simp only [List.mem_cons, heq, false_or]

/-- What `listExpiredCb` promises of the manager before it, the one after it and the callbacks. -/
structure ExpiresExactly (s : TimerManager) (now : ℕ) (s' : TimerManager)
    (cbs : List (Option ℕ)) : Prop where
  /-- each timer that is due, once, in the order of the due times -/
  callbacks : ∃ due : List ℕ, cbs = due.map (fun t ↦ (s.timer t).cb) ∧ due.Nodup ∧
    (∀ t, t ∈ due ↔ t ∈ s.timers ∧ (s.timer t).next ≤ now) ∧
    due.Pairwise fun t u ↦ (s.timer t).next ≤ (s.timer u).next
  once : ∀ t ∈ s.timers, (s.timer t).next ≤ now → (s.timer t).recurring = false →
    t ∉ s'.timers ∧ (s'.timer t).cb = none
  recurring : ∀ t ∈ s.timers, (s.timer t).next ≤ now → (s.timer t).recurring = true →
    t ∈ s'.timers ∧ s'.timer t = { s.timer t with next := add64 now (s.timer t).ms }
  others : ∀ t, ¬(t ∈ s.timers ∧ (s.timer t).next ≤ now) →
    s'.timer t = s.timer t ∧ (t ∈ s'.timers ↔ t ∈ s.timers)

end TimerManager

open TimerManager

/-- `listExpiredCb` hands out the callbacks of the timers that are due at the time it has read, and
changes these timers only. -/
theorem listExpiredExact {s : TimerManager} (h : TimerInv s []) (now address : ℕ) :
    s.ExpiresExactly now (s.listExpiredCb now address).1 (s.listExpiredCb now address).2 := by
  have hout := expired_eq_filter h.sorted now address
  have hnodup : (s.expired now address).Nodup := hout ▸ h.sorted.nodup.filter _
  have hdue : ∀ t, t ∈ s.expired now address ↔ t ∈ s.timers ∧ (s.timer t).next ≤ now := by
    intro t
    rw [hout, List.mem_filter, decide_eq_true_iff]
  have hafter := h.listExpiredCb now address
  have htimer : ∀ t, (s.listExpiredCb now address).1.timer t =
      if t ∈ s.timers ∧ (s.timer t).next ≤ now then s.renewed now t else s.timer t := by
    intro t
    rw [listExpiredCb_eq, expireAll_timer now hnodup]
    simp only [hdue]
    rfl
  have hset : ∀ t, t ∈ (s.listExpiredCb now address).1.timers ↔
      ((s.listExpiredCb now address).1.timer t).cb.isSome :=
    fun t ↦ ((hafter.callback t).trans (by simp)).symm
  have hbefore : ∀ t, t ∈ s.timers ↔ (s.timer t).cb.isSome :=
    fun t ↦ ((h.callback t).trans (by simp)).symm
  refine ⟨⟨s.expired now address, ?_, hnodup, hdue, ?_⟩, ?_, ?_, ?_⟩
  · rw [listExpiredCb_eq]
    exact expireAll_snd now hnodup
  · rw [hout]
    refine List.Pairwise.imp (fun hlt ↦ ?_) (h.sorted.sublist List.filter_sublist)
    rcases Prod.Lex.lt_iff.mp hlt with hnext | ⟨heq, -⟩
    · exact Nat.le_of_lt hnext
    · exact Nat.le_of_eq heq
  · intro t ht hnext honce
    have hcb : ((s.listExpiredCb now address).1.timer t).cb = none := by
      rw [htimer, if_pos ⟨ht, hnext⟩, renewed, honce]
      rfl
    exact ⟨by rw [hset, hcb]; simp, hcb⟩
  · intro t ht hnext hagain
    have hsame : (s.listExpiredCb now address).1.timer t =
        { s.timer t with next := add64 now (s.timer t).ms } := by
      rw [htimer, if_pos ⟨ht, hnext⟩, renewed, if_pos hagain]
    refine ⟨?_, hsame⟩
    rw [hset, hsame]
    exact (hbefore t).mp ht
  · intro t hnot
    have hsame : (s.listExpiredCb now address).1.timer t = s.timer t := by
      rw [htimer, if_neg hnot]
    exact ⟨hsame, by rw [hset, hsame, hbefore]⟩

/-- The two timers are due at the same time, and the recurring one has the lower address. -/
theorem listExpiredExact_twoTimers : (twoTimersRun.state 2).ExpiresExactly 5
    ((twoTimersRun.state 2).listExpiredCb 5 10).1 ((twoTimersRun.state 2).listExpiredCb 5 10).2 :=
  listExpiredExact (timerInv_run twoTimersRun 2) 5 10

/-! ### Dead timers -/

/-- The step hands out the callback of a timer that runs once, or it cancels the timer. -/
def Dies (r : Run timerSystem) (j t : ℕ) : Prop :=
  (HandsOut r j t ∧ ((r.state j).timer t).recurring = false) ∨
    ∃ s', r.act j = some (.cancel t) ∧ (r.state j).cancel t = .ok (s', true)

theorem cb_after_dies (r : Run timerSystem) {j t : ℕ} (h : Dies r j t) :
    t < (r.state (j + 1)).timerCount ∧ ((r.state (j + 1)).timer t).cb = none := by
  rcases h with ⟨hout, honce⟩ | ⟨s', ha, hcancel⟩
  · exact cb_after_handsOut r hout honce
  · exact cb_after_cancel r ha hcancel

theorem cb_of_dies (r : Run timerSystem) {j k t : ℕ} (h : Dies r j t) (hjk : j < k) :
    ((r.state k).timer t).cb = none := by
  obtain ⟨hmade, hcb⟩ := cb_after_dies r h
  exact cb_none_run r hjk hmade hcb

/-- A timer that has died is never in the set again, and `cancel`, `refresh` and `reset` refuse it
exactly when `reset` is not asked for the time that the timer has already. -/
theorem deadTimers (r : Run timerSystem) {j k t : ℕ} (h : Dies r j t) (hjk : j < k) (ms : ℕ)
    (fromNow : Bool) (now now' : ℕ) :
    (t ∉ (r.state k).timers ∧ (r.state k).cancel t = .ok (r.state k, false) ∧
      ((r.state k).refresh t now).2 = false ∧
      ((r.state k).reset t ms fromNow now').2.1 = false) ↔
      ¬(ms = ((r.state k).timer t).ms ∧ fromNow = false) := by
  have hcb := cb_of_dies r h hjk
  have hnone : ¬((r.state k).timer t).cb.isSome := by simp [hcb]
  have hnot : t ∉ (r.state k).timers := fun hmem ↦
    hnone (((timerInv_run r k).callback t).mpr (.inl hmem))
  constructor
  · rintro ⟨-, -, -, hreset⟩ hsame
    rw [reset, if_pos hsame] at hreset
    cases hreset
  · intro hdiffers
    refine ⟨hnot, cancel_of_none hnone, ?_, ?_⟩
    · rw [refresh_of_none hnone]
    · rw [reset, if_neg hdiffers, resetLocked_of_none hnone]

theorem deadTimers_twoTimers :
    (0 ∉ (twoTimersRun.state 4).timers ∧
      (twoTimersRun.state 4).cancel 0 = .ok (twoTimersRun.state 4, false) ∧
      ((twoTimersRun.state 4).refresh 0 6).2 = false ∧
      ((twoTimersRun.state 4).reset 0 5 true 6).2.1 = false) ↔
      ¬(5 = ((twoTimersRun.state 4).timer 0).ms ∧ true = false) :=
  deadTimers twoTimersRun (j := 2) (.inl ⟨⟨5, 10, rfl, by decide +kernel⟩, by decide +kernel⟩)
    (by decide) 5 true 6 6

/-- After the timer has been handed out, `reset` to the same time says that it has been reset. -/
theorem reset_deadTimer : Dies twoTimersRun 2 0 ∧
    ((twoTimersRun.state 3).reset 0 5 false 6).2.1 = true :=
  ⟨.inl ⟨⟨5, 10, rfl, by decide +kernel⟩, by decide +kernel⟩, by decide +kernel⟩

end Rsylar
