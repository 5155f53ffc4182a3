import Rsylar.Sylar.Timer

/-!
# Which timers are in the set

A timer has a callback exactly while it is in the ordered set, and the set is in the order of the
due times that the timers have now. Each operation that changes a due time takes the timer out
first, so the invariant also speaks of the timers that are taken out (`TimerInv`). Nothing here
depends on the readings of the clock.
-/

set_option autoImplicit false
set_option relaxedAutoImplicit false

namespace Rsylar

open TransitionSystem OrderedSet

/-- What holds of the manager between two operations. -/
structure TimerManager.Membership (s : TimerManager) : Prop where
  callback : ∀ t, (s.timer t).cb.isSome ↔ t ∈ s.timers
  sorted : Sorted s.key s.timers
  nodup : s.timers.Nodup

/-- `listExpiredCb` hands out the callback of the timer. -/
def HandsOut (r : Run timerSystem) (k t : ℕ) : Prop :=
  ∃ now address, r.act k = some (.listExpiredCb now address) ∧ t ∈ (r.state k).expired now address

namespace TimerManager

theorem expired_eq_nil {s : TimerManager} {t : ℕ} {ts : List ℕ} {now : ℕ}
    (htimers : s.timers = t :: ts) (h : now < (s.timer t).next) (address : ℕ) :
    s.expired now address = [] := by
  have hbelow : ¬s.key t < ({ next := now, address := address } : Timer).key := by
    intro hlt
    rcases Prod.Lex.lt_iff.mp hlt with hnext | ⟨heq, -⟩
    · exact absurd hnext (not_lt.mpr (le_of_lt h))
    · exact absurd heq (ne_of_gt h)
  simp [expired, below, lowerBound, htimers, hbelow, ne_of_gt h]

/-- `listExpiredCb` is its loop, also when it returns early. -/
theorem listExpiredCb_eq (s : TimerManager) (now address : ℕ) :
    s.listExpiredCb now address =
      ({ s with timers := s.timers.drop (s.expired now address).length } :
        TimerManager).expireAll now (s.expired now address) := by
  unfold listExpiredCb
  split
  · rename_i hnil
    have hexpired : s.expired now address = [] := by simp [expired, below, lowerBound, hnil]
    rw [hexpired]
    rfl
  · rename_i t ts hcons
    split
    · rename_i hlater
      rw [expired_eq_nil hcons hlater address]
      rfl
    · rfl

theorem cancel_of_none {s : TimerManager} {t : ℕ} (h : ¬(s.timer t).cb.isSome) :
    s.cancel t = .ok (s, false) :=
  if_neg h

theorem refresh_of_none {s : TimerManager} {t : ℕ} (h : ¬(s.timer t).cb.isSome) (now : ℕ) :
    s.refresh t now = (s, false) :=
  if_pos (by simpa using h)

theorem resetLocked_of_none {s : TimerManager} {t : ℕ} (h : ¬(s.timer t).cb.isSome) (ms : ℕ)
    (fromNow : Bool) (now : ℕ) : s.resetLocked t ms fromNow now = (s, false, false) :=
  if_pos (by simpa using h)

/-! ### Timers that are taken out -/

/-- The timers in the set and the timers `out` that are taken out of it have callbacks, and no two
of them have the same address. -/
structure TimerInv (s : TimerManager) (out : List ℕ) : Prop where
  callback : ∀ t, (s.timer t).cb.isSome ↔ t ∈ s.timers ∨ t ∈ out
  disjoint : ∀ t ∈ out, t ∉ s.timers
  nodup : out.Nodup
  sorted : Sorted s.key s.timers
  made : ∀ t, (s.timer t).cb.isSome → t < s.timerCount
  address : ∀ t u, (s.timer t).cb.isSome → (s.timer u).cb.isSome →
    (s.timer t).address = (s.timer u).address → t = u

namespace TimerInv

variable {s : TimerManager} {out : List ℕ} {t : ℕ} {timer : Timer}

theorem membership (h : TimerInv s []) : s.Membership where
  callback := fun t ↦ (h.callback t).trans (by simp)
  sorted := h.sorted
  nodup := h.sorted.nodup

theorem initial : TimerInv {} [] where
  callback := by simp
  disjoint := by simp
  nodup := List.nodup_nil
  sorted := List.Pairwise.nil
  made := by simp
  address := by simp

theorem find (h : TimerInv s out) (ht : t ∈ s.timers) : s.find t = some t :=
  find_of_mem h.sorted ht

/-- The timer is taken out. -/
theorem eraseFound (h : TimerInv s out) (ht : t ∈ s.timers) :
    TimerInv (s.eraseFound t) (t :: out) := by
  have hmem : ∀ u, u ∈ (s.eraseFound t).timers ↔ u ∈ s.timers ∧ u ≠ t :=
    fun u ↦ mem_eraseFound h.sorted ht
  refine ⟨fun u ↦ (h.callback u).trans ?_, ?_, ?_, h.sorted.eraseFound _, h.made, h.address⟩
  · rw [hmem, List.mem_cons]
    by_cases hu : u = t
    · subst hu
      simp [ht]
    · simp [hu]
  · intro u hu hin
    obtain ⟨hin, hne⟩ := (hmem u).mp hin
    rcases List.mem_cons.mp hu with heq | hu
    · exact hne heq
    · exact h.disjoint u hu hin
  · exact List.nodup_cons.mpr ⟨fun hout ↦ h.disjoint t hout ht, h.nodup⟩

/-- The first timers of the set are taken out. -/
theorem drop (h : TimerInv s []) (n : ℕ) :
    TimerInv { s with timers := s.timers.drop n } (s.timers.take n) := by
  have hsplit : s.timers.take n ++ s.timers.drop n = s.timers := List.take_append_drop n s.timers
  have hnodup := h.sorted.nodup
  rw [← hsplit] at hnodup
  obtain ⟨htake, -, hdisjoint⟩ := List.nodup_append.mp hnodup
  refine ⟨fun t ↦ (h.callback t).trans ?_, fun t ht hd ↦ hdisjoint t ht t hd rfl, htake,
    h.sorted.sublist (List.drop_sublist n _), h.made, h.address⟩
  simp only [List.not_mem_nil, or_false]
  rw [or_comm, ← List.mem_append, hsplit]

/-- The callback of a timer that is taken out is gone. -/
theorem clear (h : TimerInv s (t :: out)) :
    TimerInv (s.setTimer t { s.timer t with cb := none }) out := by
  obtain ⟨hnotMem, hnodup⟩ := List.nodup_cons.mp h.nodup
  have hcb : ∀ u, ((s.setTimer t { s.timer t with cb := none }).timer u).cb.isSome →
      u ≠ t ∧ (s.timer u).cb.isSome := by
    intro u hu
    by_cases heq : u = t
    · subst heq
      simp [setTimer] at hu
    · exact ⟨heq, by simpa [setTimer, heq] using hu⟩
  have hsame : ∀ u, ((s.setTimer t { s.timer t with cb := none }).timer u).key = (s.timer u).key ∧
      ((s.setTimer t { s.timer t with cb := none }).timer u).address = (s.timer u).address := by
    intro u
    by_cases heq : u = t
    · subst heq
      simp [setTimer, Timer.key]
    · simp [setTimer, heq]
  refine ⟨?_, fun u hu ↦ h.disjoint u (List.mem_cons_of_mem t hu), hnodup,
    h.sorted.congr fun u _ ↦ (hsame u).1, fun u hu ↦ h.made u (hcb u hu).2, ?_⟩
  · intro u
    by_cases heq : u = t
    · subst heq
      have hnot := h.disjoint u List.mem_cons_self
      simp [setTimer, hnotMem, hnot]
    · have := h.callback u
      simpa [setTimer, heq] using this
  · intro u v hu hv haddress
    rw [(hsame u).2, (hsame v).2] at haddress
    exact h.address u v (hcb u hu).2 (hcb v hv).2 haddress

/-- A timer that is taken out is put back under its new key. -/
theorem put (h : TimerInv s (t :: out)) (haddress : timer.address = (s.timer t).address)
    (hsome : timer.cb.isSome) : TimerInv ((s.setTimer t timer).insert t) out := by
  obtain ⟨hnotMem, hnodup⟩ := List.nodup_cons.mp h.nodup
  have hnot : t ∉ s.timers := h.disjoint t List.mem_cons_self
  have hcb : (s.timer t).cb.isSome := (h.callback t).mpr (.inr List.mem_cons_self)
  have hcbs : ∀ u, ((s.setTimer t timer).timer u).cb.isSome ↔ (s.timer u).cb.isSome := by
    intro u
    by_cases heq : u = t
    · subst heq
      simp [setTimer, hsome, hcb]
    · simp [setTimer, heq]
  have haddresses : ∀ u, ((s.setTimer t timer).timer u).address = (s.timer u).address := by
    intro u
    by_cases heq : u = t
    · subst heq
      simpa [setTimer] using haddress
    · simp [setTimer, heq]
  have hsorted : Sorted (s.setTimer t timer).key s.timers := by
    refine h.sorted.congr fun u hu ↦ ?_
    have hne : u ≠ t := fun heq ↦ hnot (heq ▸ hu)
    simp [key, setTimer, hne]
  have hkey : ∀ u ∈ s.timers, (s.setTimer t timer).key u ≠ (s.setTimer t timer).key t := by
    intro u hu hkeys
    have haddr : ((s.setTimer t timer).timer u).address = ((s.setTimer t timer).timer t).address :=
      congrArg (fun k ↦ (ofLex k).2) hkeys
    rw [haddresses, haddresses] at haddr
    exact hnot (h.address u t ((h.callback u).mpr (.inl hu)) hcb haddr ▸ hu)
  have hmem : ∀ u, u ∈ ((s.setTimer t timer).insert t).timers ↔ u = t ∨ u ∈ s.timers :=
    fun u ↦ mem_insert hsorted hkey
  refine ⟨fun u ↦ (hcbs u).trans ((h.callback u).trans ?_), ?_, hnodup, hsorted.insert hkey,
    fun u hu ↦ h.made u ((hcbs u).mp hu), fun u v hu hv haddr ↦ ?_⟩
  · rw [hmem, List.mem_cons, or_left_comm, or_assoc]
  · intro u hu hin
    rcases (hmem u).mp hin with heq | hin
    · exact hnotMem (heq ▸ hu)
    · exact h.disjoint u (List.mem_cons_of_mem t hu) hin
  · change ((s.setTimer t timer).timer u).address = ((s.setTimer t timer).timer v).address at haddr
    rw [haddresses, haddresses] at haddr
    exact h.address u v ((hcbs u).mp hu) ((hcbs v).mp hv) haddr

/-! ### The operations -/

/-- The manager with a new timer that is not in the set yet. -/
theorem make (h : TimerInv s []) (hcb : timer.cb.isSome)
    (haddress : ∀ t ∈ s.timers, (s.timer t).address ≠ timer.address) :
    TimerInv { s.setTimer s.timerCount timer with timerCount := s.timerCount + 1 }
      [s.timerCount] := by
  have hnot : s.timerCount ∉ s.timers :=
    fun hmem ↦ lt_irrefl _ (h.made _ ((h.callback _).mpr (.inl hmem)))
  have hother : ∀ u, u ≠ s.timerCount → (s.setTimer s.timerCount timer).timer u = s.timer u :=
    fun u hu ↦ Function.update_of_ne hu ..
  have hself : (s.setTimer s.timerCount timer).timer s.timerCount = timer :=
    Function.update_self ..
  have hmem : ∀ u, (s.timer u).cb.isSome → u ∈ s.timers :=
    fun u hu ↦ ((h.callback u).mp hu).resolve_right (by simp)
  refine ⟨fun u ↦ ?_, fun u hu ↦ List.mem_singleton.mp hu ▸ hnot, by simp, ?_, fun u hu ↦ ?_,
    fun u v hu hv heq ↦ ?_⟩
  · by_cases hu : u = s.timerCount
    · subst hu
      simp [hself, hcb]
    · simp [h.callback u, hu, TimerManager.setTimer]
  · refine h.sorted.congr fun u hu ↦ ?_
    exact congrArg Timer.key (hother u fun heq ↦ hnot (heq ▸ hu))
  · by_cases hu' : u = s.timerCount
    · exact hu' ▸ Nat.lt_succ_self _
    · rw [hother u hu'] at hu
      exact (h.made u hu).trans (Nat.lt_succ_self _)
  · by_cases hu' : u = s.timerCount
    · by_cases hv' : v = s.timerCount
      · rw [hu', hv']
      · rw [hother v hv'] at hv heq
        rw [hu', hself] at heq
        exact absurd heq.symm (haddress v (hmem v hv))
    · rw [hother u hu'] at hu heq
      by_cases hv' : v = s.timerCount
      · rw [hv', hself] at heq
        exact absurd heq (haddress u (hmem u hu))
      · rw [hother v hv'] at hv heq
        exact h.address u v hu hv heq

theorem addTimer (h : TimerInv s []) {address : ℕ}
    (haddress : ∀ t ∈ s.timers, (s.timer t).address ≠ address) (now ms cb : ℕ) (recurring : Bool) :
    TimerInv (s.addTimer now ms cb recurring address).1 [] := by
  let timer : Timer :=
    { recurring := recurring, ms := ms, next := add64 now ms, cb := some cb, address := address }
  let s₁ : TimerManager := { s.setTimer s.timerCount timer with timerCount := s.timerCount + 1 }
  have hmade : TimerInv s₁ [s.timerCount] := h.make rfl haddress
  have hput : TimerInv ((s₁.setTimer s.timerCount timer).insert s.timerCount) [] :=
    hmade.put (by simp [TimerManager.setTimer, s₁]) rfl
  have hset : s₁.setTimer s.timerCount timer = s₁ := by simp [TimerManager.setTimer, s₁]
  rw [hset] at hput
  exact ⟨hput.callback, hput.disjoint, hput.nodup, hput.sorted, hput.made, hput.address⟩

/-- A timer with a callback is found and erased. -/
theorem cancel_eq (h : TimerInv s []) (hsome : (s.timer t).cb.isSome) :
    s.cancel t = .ok ((s.eraseFound t).setTimer t { s.timer t with cb := none }, true) := by
  have hkey : (s.setTimer t { s.timer t with cb := none }).key = s.key := by
    funext u
    by_cases heq : u = t
    · subst heq
      simp [key, TimerManager.setTimer, Timer.key]
    · simp [key, TimerManager.setTimer, heq]
  have hmem : t ∈ s.timers := ((h.callback t).mp hsome).resolve_right (by simp)
  have hfind : (s.setTimer t { s.timer t with cb := none }).find t = some t := by
    rw [TimerManager.find, hkey]
    exact h.find hmem
  rw [TimerManager.cancel, if_pos hsome]
  simp only [hfind, TimerManager.eraseFound, hkey]
  rfl

theorem cancel (h : TimerInv s []) {out : TimerManager × Bool} (hcancel : s.cancel t = .ok out) :
    TimerInv out.1 [] := by
  by_cases hsome : (s.timer t).cb.isSome
  · rw [h.cancel_eq hsome] at hcancel
    cases hcancel
    exact (h.eraseFound (((h.callback t).mp hsome).resolve_right (by simp))).clear
  · rw [cancel_of_none hsome] at hcancel
    cases hcancel
    exact h

/-- A timer with a callback is found, erased and put back. -/
theorem refresh_eq (h : TimerInv s []) (hsome : (s.timer t).cb.isSome) (now : ℕ) :
    s.refresh t now = (((s.eraseFound t).setTimer t
      { s.timer t with next := add64 now (s.timer t).ms }).insert t, true) := by
  have hmem : t ∈ s.timers := ((h.callback t).mp hsome).resolve_right (by simp)
  rw [TimerManager.refresh, if_neg (by simpa using Option.ne_none_iff_isSome.mpr hsome), h.find hmem]

theorem refresh (h : TimerInv s []) (t now : ℕ) : TimerInv (s.refresh t now).1 [] := by
  by_cases hsome : (s.timer t).cb.isSome
  · rw [h.refresh_eq hsome]
    exact (h.eraseFound (((h.callback t).mp hsome).resolve_right (by simp))).put rfl hsome
  · rw [refresh_of_none hsome]
    exact h

theorem resetLocked_eq (h : TimerInv s []) (hsome : (s.timer t).cb.isSome) (ms : ℕ)
    (fromNow : Bool) (now : ℕ) : s.resetLocked t ms fromNow now =
      let out := ((s.eraseFound t).setTimer t { s.timer t with
        ms := ms
        next := add64 (if fromNow then now else sub64 (s.timer t).next (s.timer t).ms) ms
        }).addTimerLocked t
      (out.1, true, out.2) := by
  have hmem : t ∈ s.timers := ((h.callback t).mp hsome).resolve_right (by simp)
  rw [TimerManager.resetLocked, if_neg (by simpa using Option.ne_none_iff_isSome.mpr hsome),
    h.find hmem]

theorem resetLocked (h : TimerInv s []) (t ms : ℕ) (fromNow : Bool) (now : ℕ) :
    TimerInv (s.resetLocked t ms fromNow now).1 [] := by
  by_cases hsome : (s.timer t).cb.isSome
  · let timer : Timer :=
      { s.timer t with
        ms := ms
        next := add64 (if fromNow then now else sub64 (s.timer t).next (s.timer t).ms) ms }
    have hput : TimerInv (((s.eraseFound t).setTimer t timer).insert t) [] :=
      (h.eraseFound (((h.callback t).mp hsome).resolve_right (by simp))).put rfl hsome
    rw [h.resetLocked_eq hsome]
    exact ⟨hput.callback, hput.disjoint, hput.nodup, hput.sorted, hput.made, hput.address⟩
  · rw [resetLocked_of_none hsome]
    exact h

theorem reset (h : TimerInv s []) (t ms : ℕ) (fromNow : Bool) (now : ℕ) :
    TimerInv (s.reset t ms fromNow now).1 [] := by
  unfold TimerManager.reset
  split
  · exact h
  · exact h.resetLocked t ms fromNow now

theorem expire (h : TimerInv s (t :: out)) (now : ℕ) : TimerInv (s.expire now t) out := by
  unfold TimerManager.expire
  split
  · exact h.put rfl ((h.callback t).mpr (.inr List.mem_cons_self))
  · exact h.clear

theorem expireAll (now : ℕ) : ∀ {out : List ℕ} {s : TimerManager}, TimerInv s out →
    TimerInv (s.expireAll now out).1 []
  | [], _, h => h
  | _ :: _, _, h => (h.expire now).expireAll now

theorem expired_isTake (s : TimerManager) (now address : ℕ) :
    s.expired now address <+: s.timers := by
  let nowTimer : Timer := { next := now, address := address }
  have hsplit : below s.key nowTimer.key s.timers ++ lowerBound s.key nowTimer.key s.timers =
      s.timers := below_append_lowerBound _ _
  obtain ⟨rest, hrest⟩ := List.takeWhile_prefix (fun t ↦ (s.timer t).next = now)
    (l := lowerBound s.key nowTimer.key s.timers)
  exact ⟨rest, by rw [expired, List.append_assoc, hrest, hsplit]⟩

theorem listExpiredCb (h : TimerInv s []) (now address : ℕ) :
    TimerInv (s.listExpiredCb now address).1 [] := by
  have htake : s.expired now address = s.timers.take (s.expired now address).length :=
    List.prefix_iff_eq_take.mp (expired_isTake s now address)
  have hdrop := h.drop (s.expired now address).length
  rw [← htake] at hdrop
  rw [listExpiredCb_eq]
  exact hdrop.expireAll now

theorem step {s' : TimerManager} {a : TimerAction} (h : TimerInv s [])
    (hstep : timerSystem.step s a = some s') : TimerInv s' [] := by
  cases a with
  | addTimer now ms cb recurring address =>
    obtain ⟨⟨-, haddress⟩, rfl⟩ := Option.ite_some_none_eq_some.mp hstep
    exact h.addTimer haddress now ms cb recurring
  | cancel t =>
    simp only [timerSystem, TimerManager.step] at hstep
    split at hstep
    · split at hstep
      · rename_i hcancel
        cases hstep
        exact h.cancel hcancel
      · cases hstep
    · cases hstep
  | refresh t now =>
    obtain ⟨-, rfl⟩ := Option.ite_some_none_eq_some.mp hstep
    exact h.refresh t now
  | reset t ms fromNow now =>
    obtain ⟨-, rfl⟩ := Option.ite_some_none_eq_some.mp hstep
    exact h.reset t ms fromNow now
  | listExpiredCb now address =>
    cases hstep
    exact h.listExpiredCb now address

end TimerInv

/-! ### A callback that is gone does not come back -/

/-- A timer that has lost its callback does not get it back. -/
structure CbStep (s s' : TimerManager) : Prop where
  count : s.timerCount ≤ s'.timerCount
  cb : ∀ t < s.timerCount, (s.timer t).cb = none → (s'.timer t).cb = none

namespace CbStep

variable {s s' : TimerManager}

theorem refl (s : TimerManager) : CbStep s s := ⟨le_refl _, fun _ _ h ↦ h⟩

theorem trans {s'' : TimerManager} (h : CbStep s s') (h' : CbStep s' s'') : CbStep s s'' :=
  ⟨h.count.trans h'.count, fun t ht hcb ↦ h'.cb t (ht.trans_le h.count) (h.cb t ht hcb)⟩

theorem setTimer {t : ℕ} {timer : Timer} (h : (s.timer t).cb = none → timer.cb = none) :
    CbStep s (s.setTimer t timer) where
  count := le_refl _
  cb := fun u _ hcb ↦ by
    by_cases heq : u = t
    · subst heq
      simpa [TimerManager.setTimer] using h hcb
    · simpa [TimerManager.setTimer, heq] using hcb

theorem setTimer_next (s : TimerManager) (t next : ℕ) :
    CbStep s (s.setTimer t { s.timer t with next := next }) :=
  setTimer fun h ↦ h

theorem addTimer (s : TimerManager) (now ms cb : ℕ) (recurring : Bool) (address : ℕ) :
    CbStep s (s.addTimer now ms cb recurring address).1 where
  count := Nat.le_succ _
  cb := fun u hu hcb ↦ by
    have heq : (s.addTimer now ms cb recurring address).1.timer u = s.timer u :=
      Function.update_of_ne (ne_of_lt hu) ..
    rw [heq, hcb]

theorem cancel {t : ℕ} {out : TimerManager × Bool} (h : s.cancel t = .ok out) :
    CbStep s out.1 := by
  simp only [TimerManager.cancel] at h
  split at h
  · split at h
    · cases h
      exact ⟨le_refl _, (setTimer fun _ ↦ rfl).cb⟩
    · cases h
  · cases h
    exact refl s

theorem refresh (s : TimerManager) (t now : ℕ) : CbStep s (s.refresh t now).1 := by
  unfold TimerManager.refresh
  split
  · exact refl s
  · split
    · exact refl s
    · exact ⟨le_refl _, (setTimer_next s t _).cb⟩

theorem resetLocked (s : TimerManager) (t ms : ℕ) (fromNow : Bool) (now : ℕ) :
    CbStep s (s.resetLocked t ms fromNow now).1 := by
  unfold TimerManager.resetLocked
  split
  · exact refl s
  · split
    · exact refl s
    · let timer (next : ℕ) : Timer := { s.timer t with ms := ms, next := next }
      have h (next : ℕ) : CbStep s (s.setTimer t (timer next)) := setTimer fun h ↦ h
      exact ⟨le_refl _, (h _).cb⟩

theorem reset (s : TimerManager) (t ms : ℕ) (fromNow : Bool) (now : ℕ) :
    CbStep s (s.reset t ms fromNow now).1 := by
  unfold TimerManager.reset
  split
  · exact refl s
  · exact resetLocked s t ms fromNow now

theorem expire (s : TimerManager) (now t : ℕ) : CbStep s (s.expire now t) := by
  unfold TimerManager.expire
  split
  · exact ⟨le_refl _, (setTimer_next s t _).cb⟩
  · exact setTimer fun _ ↦ rfl

theorem expireAll (now : ℕ) : ∀ (out : List ℕ) (s : TimerManager),
    CbStep s (s.expireAll now out).1
  | [], s => refl s
  | t :: out, s => (expire s now t).trans (expireAll now out _)

theorem listExpiredCb (s : TimerManager) (now address : ℕ) :
    CbStep s (s.listExpiredCb now address).1 := by
  have h := expireAll now (s.expired now address)
    { s with timers := s.timers.drop (s.expired now address).length }
  rw [listExpiredCb_eq]
  exact ⟨h.count, h.cb⟩

theorem step {a : TimerAction} (hstep : timerSystem.step s a = some s') : CbStep s s' := by
  cases a with
  | addTimer now ms cb recurring address =>
    obtain ⟨-, rfl⟩ := Option.ite_some_none_eq_some.mp hstep
    exact addTimer s now ms cb recurring address
  | cancel t =>
    simp only [timerSystem, TimerManager.step] at hstep
    split at hstep
    · split at hstep
      · rename_i hcancel
        cases hstep
        exact cancel hcancel
      · cases hstep
    · cases hstep
  | refresh t now =>
    obtain ⟨-, rfl⟩ := Option.ite_some_none_eq_some.mp hstep
    exact refresh s t now
  | reset t ms fromNow now =>
    obtain ⟨-, rfl⟩ := Option.ite_some_none_eq_some.mp hstep
    exact reset s t ms fromNow now
  | listExpiredCb now address =>
    cases hstep
    exact listExpiredCb s now address

end CbStep

theorem expire_timer_of_ne {s : TimerManager} {t u : ℕ} (now : ℕ) (hne : t ≠ u) :
    (s.expire now u).timer t = s.timer t := by
  unfold expire
  split
  · exact Function.update_of_ne hne ..
  · exact Function.update_of_ne hne ..

/-- After the loop, a timer taken out that is not recurring has lost its callback. -/
theorem expireAll_cb (now : ℕ) {t : ℕ} : ∀ {out : List ℕ} {s : TimerManager}, t ∈ out →
    out.Nodup → (s.timer t).recurring = false → (∀ u ∈ out, u < s.timerCount) →
    ((s.expireAll now out).1.timer t).cb = none
  | u :: out, s, ht, hnodup, honce, hmade => by
    obtain ⟨hu, hout⟩ := List.nodup_cons.mp hnodup
    have hstep := CbStep.expire s now u
    rcases List.mem_cons.mp ht with rfl | ht
    · have hnone : ((s.expire now t).timer t).cb = none := by
        simp [expire, honce, setTimer]
      exact (CbStep.expireAll now out _).cb t ((hmade t List.mem_cons_self).trans_le hstep.count)
        hnone
    · have htimer : (s.expire now u).timer t = s.timer t :=
        expire_timer_of_ne now fun heq ↦ hu (heq ▸ ht)
      have hrest := expireAll_cb now (s := s.expire now u) ht hout (by rw [htimer, honce])
        fun v hv ↦ (hmade v (List.mem_cons_of_mem u hv)).trans_le hstep.count
      exact hrest

theorem expireAll_snd (now : ℕ) : ∀ {out : List ℕ} {s : TimerManager}, out.Nodup →
    (s.expireAll now out).2 = out.map fun t ↦ (s.timer t).cb
  | [], _, _ => rfl
  | u :: out, s, hnodup => by
    obtain ⟨hu, hout⟩ := List.nodup_cons.mp hnodup
    have htimer : ∀ t ∈ out, (s.expire now u).timer t = s.timer t :=
      fun t ht ↦ expire_timer_of_ne now fun heq ↦ hu (heq ▸ ht)
    have hrest := expireAll_snd now (s := s.expire now u) hout
    rw [List.map_congr_left fun t ht ↦ by rw [htimer t ht]] at hrest
    exact congrArg ((s.timer u).cb :: ·) hrest

end TimerManager

open TimerManager

/-! ### Runs -/

theorem timerInv_run (r : Run timerSystem) (k : ℕ) : TimerInv (r.state k) [] := by
  have hstep : ∀ s a s', TimerInv s [] → True → timerSystem.step s a = some s' → TimerInv s' [] :=
    fun s a s' h _ hstep ↦ h.step hstep
  exact r.invariant TimerInv.initial hstep (fun _ _ _ ↦ trivial) k

theorem cb_none_run (r : Run timerSystem) {j k t : ℕ} (hjk : j ≤ k)
    (hmade : t < (r.state j).timerCount) (hcb : ((r.state j).timer t).cb = none) :
    ((r.state k).timer t).cb = none := by
  have hlater : t < (r.state k).timerCount ∧ ((r.state k).timer t).cb = none := by
    induction k, hjk using Nat.le_induction with
    | base => exact ⟨hmade, hcb⟩
    | succ k _ ih =>
      cases ha : r.act k with
      | none => rwa [r.pause k ha]
      | some a =>
        have hstep := CbStep.step (r.next k a ha)
        exact ⟨ih.1.trans_le hstep.count, hstep.cb t ih.1 ih.2⟩
  exact hlater.2

/-- Once a timer has lost its callback, it is not handed out. -/
theorem not_handsOut_of_cb (r : Run timerSystem) {j k t : ℕ} (hjk : j ≤ k)
    (hmade : t < (r.state j).timerCount) (hcb : ((r.state j).timer t).cb = none) :
    ¬HandsOut r k t := by
  rintro ⟨now, address, -, hexpired⟩
  have hmem : t ∈ (r.state k).timers := (TimerInv.expired_isTake _ now address).subset hexpired
  have hsome := ((timerInv_run r k).callback t).mpr (.inl hmem)
  simp [cb_none_run r hjk hmade hcb] at hsome

theorem cb_of_handsOut (r : Run timerSystem) {k t : ℕ} (h : HandsOut r k t) :
    ((r.state k).timer t).cb.isSome := by
  obtain ⟨now, address, -, hexpired⟩ := h
  have hmem : t ∈ (r.state k).timers := (TimerInv.expired_isTake _ now address).subset hexpired
  exact ((timerInv_run r k).callback t).mpr (.inl hmem)

/-- A timer that is handed out and is not recurring has no callback afterwards. -/
theorem cb_after_handsOut (r : Run timerSystem) {k t : ℕ} (h : HandsOut r k t)
    (honce : ((r.state k).timer t).recurring = false) :
    t < (r.state (k + 1)).timerCount ∧ ((r.state (k + 1)).timer t).cb = none := by
  have hinv := timerInv_run r k
  have hmade : t < (r.state k).timerCount := hinv.made t (cb_of_handsOut r h)
  obtain ⟨now, address, ha, hexpired⟩ := h
  have hnext := r.next k _ ha
  have htake := TimerInv.expired_isTake (r.state k) now address
  have hnodup : ((r.state k).expired now address).Nodup :=
    hinv.sorted.nodup.sublist htake.sublist
  have hbelow : ∀ u ∈ (r.state k).expired now address, u < (r.state k).timerCount :=
    fun u hu ↦ hinv.made u ((hinv.callback u).mpr (.inl (htake.subset hu)))
  refine ⟨hmade.trans_le (CbStep.step hnext).count, ?_⟩
  have heq : r.state (k + 1) = ((r.state k).listExpiredCb now address).1 :=
    (Option.some.inj hnext).symm
  rw [heq, listExpiredCb_eq]
  exact expireAll_cb now (s := { r.state k with timers := _ }) hexpired hnodup honce hbelow

/-- A timer that is cancelled has no callback afterwards. -/
theorem cb_after_cancel (r : Run timerSystem) {j t : ℕ} {s' : TimerManager}
    (ha : r.act j = some (.cancel t)) (hcancel : (r.state j).cancel t = .ok (s', true)) :
    t < (r.state (j + 1)).timerCount ∧ ((r.state (j + 1)).timer t).cb = none := by
  have hsome : ((r.state j).timer t).cb.isSome := by
    by_contra hnone
    rw [cancel_of_none hnone] at hcancel
    cases hcancel
  have hnext := r.next j _ ha
  have hmade := (timerInv_run r j).made t hsome
  have hstate : r.state (j + 1) = s' := by
    simp only [timerSystem, TimerManager.step, hmade, if_true, hcancel] at hnext
    exact (Option.some.inj hnext).symm
  refine ⟨hmade.trans_le (CbStep.step hnext).count, ?_⟩
  rw [(timerInv_run r j).cancel_eq hsome] at hcancel
  cases hcancel
  rw [hstate]
  simp [setTimer]

/-- After every operation exactly the timers with a callback are in the set, at the place of their
due times and once. So `cancel` never erases `end()`; the callbacks handed out are those of the
expired timers, of each once; a timer that is not recurring is handed out at most once, and after
its `cancel` has returned true it is not handed out. -/
theorem timerMembership (r : Run timerSystem) :
    (∀ k, (r.state k).Membership) ∧
    (∀ k t, (r.state k).cancel t ≠ .error .eraseEnd) ∧
    (∀ k now address, ((r.state k).expired now address).Nodup ∧
      ((r.state k).listExpiredCb now address).2 =
        ((r.state k).expired now address).map fun t ↦ ((r.state k).timer t).cb) ∧
    (∀ j k t, HandsOut r j t → ((r.state j).timer t).recurring = false → HandsOut r k t →
      k ≤ j) ∧
    (∀ j k t s', r.act j = some (.cancel t) → (r.state j).cancel t = .ok (s', true) → j < k →
      ¬HandsOut r k t) := by
  refine ⟨fun k ↦ (timerInv_run r k).membership, fun k t herror ↦ ?_, fun k now address ↦ ?_,
    fun j k t hj honce hk ↦ ?_, fun j k t s' ha hcancel hjk ↦ ?_⟩
  · by_cases hsome : ((r.state k).timer t).cb.isSome
    · rw [(timerInv_run r k).cancel_eq hsome] at herror
      cases herror
    · rw [cancel_of_none hsome] at herror
      cases herror
  · have htake := TimerInv.expired_isTake (r.state k) now address
    have hnodup := (timerInv_run r k).sorted.nodup.sublist htake.sublist
    rw [listExpiredCb_eq]
    exact ⟨hnodup, expireAll_snd now hnodup⟩
  · by_contra hlt
    obtain ⟨hmade, hcb⟩ := cb_after_handsOut r hj honce
    exact not_handsOut_of_cb r (by omega) hmade hcb hk
  · obtain ⟨hmade, hcb⟩ := cb_after_cancel r ha hcancel
    exact not_handsOut_of_cb r (j := j + 1) hjk hmade hcb

/-- A timer that runs once and a recurring one, both due at 5. -/
def twoTimersRun : Run timerSystem :=
  .ofActions timerSystem
    [.addTimer 0 5 7 false 30, .addTimer 0 5 8 true 20, .listExpiredCb 5 10, .cancel 0, .cancel 1]
    (by decide +kernel)

theorem timerMembership_twoTimers :
    ((twoTimersRun.state 2).listExpiredCb 5 10).2 = [some 8, some 7] ∧
      ¬HandsOut twoTimersRun 3 0 ∧ (twoTimersRun.state 5).Membership := by
  have hout : HandsOut twoTimersRun 2 0 := ⟨5, 10, rfl, by decide +kernel⟩
  refine ⟨by decide +kernel, fun h ↦ ?_, (timerMembership twoTimersRun).1 5⟩
  exact absurd ((timerMembership twoTimersRun).2.2.2.1 2 3 0 hout (by decide +kernel) h) (by decide)

end Rsylar
