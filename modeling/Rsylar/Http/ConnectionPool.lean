import Mathlib.Data.List.Perm.Basic
import Rsylar.Foundations.TransitionSystem

/-!
# The connection pool

`HttpConnectionPool` with any number of threads in `getConnection` and `ReleasePtr`. A call goes
from one section to the next and other threads may come between: it reads the clock, looks through
the idle connections under the lock, counts those it has thrown away, and connects when it has found
none. The clock may show any time at any moment, and a connection may be closed while it is leased
or idle. A connection that a call has in its hands counts as leased.

`m_createTime` is never set and the two tests of the age are the wrong way round, so a connection is
reused when the clock is beyond `m_maxAliveTime`, however old it is. `m_maxSize` is not looked at.
The number of connections is right all the same (`PoolInv`), and the policy is kept in a run exactly
when each test happens to give the right result (`connectionPool_policy`).
-/

set_option autoImplicit false
set_option relaxedAutoImplicit false

namespace Rsylar.Http

open TransitionSystem

/-- `m_maxSize`, `m_maxAliveTime` and `m_maxRequest` of a pool. -/
structure PoolLimits where
  maxSize : ℕ
  maxAliveTime : ℕ
  maxRequest : ℕ

structure HttpConnection where
  createTime : ℕ := 0
  request : ℕ := 0
  connected : Bool := true
  /-- the time at which it was made, which the code does not keep -/
  openedAt : ℕ
deriving DecidableEq

/-- It is connected, younger than the limit, and has served fewer requests than the limit. -/
def HttpConnection.Usable (limits : PoolLimits) (conn : HttpConnection) (now : ℕ) : Prop :=
  conn.connected ∧ now < conn.openedAt + limits.maxAliveTime ∧ conn.request < limits.maxRequest

instance (limits : PoolLimits) (conn : HttpConnection) (now : ℕ) :
    Decidable (conn.Usable limits now) :=
  instDecidableAnd

/-- A call between two of its sections. -/
inductive PoolCall
  /-- `getConnection` before the lock -/
  | waiting (now : ℕ)
  /-- in the loop, under the lock -/
  | popping (now : ℕ) (invalid : List HttpConnection)
  /-- behind the lock, with what the loop has found -/
  | popped (ptr : Option HttpConnection) (invalid : List HttpConnection)
  /-- before the connection is made -/
  | connecting
  /-- `ReleasePtr` with a connection that is to be deleted -/
  | deleting (conn : HttpConnection)
  /-- `ReleasePtr` before the lock -/
  | keeping (conn : HttpConnection)
deriving DecidableEq

/-- The connections in the hands of a call. -/
def PoolCall.held : PoolCall → List HttpConnection
  | waiting _ | connecting => []
  | popping _ invalid => invalid
  | popped ptr invalid => ptr.toList ++ invalid
  | deleting conn | keeping conn => [conn]

structure HttpConnectionPool where
  conns : List HttpConnection := []
  total : ℤ := 0
  locked : Bool := false
  clock : ℕ := 0
  leased : List HttpConnection := []
  calls : List PoolCall := []
  /-- the idle connections that have been handed out, with the time of the call -/
  handedOut : List (HttpConnection × ℕ) := []
  /-- the connections that have been thrown away, with the time of the test -/
  discarded : List (HttpConnection × ℕ) := []

inductive PoolAction
  | tick (now : ℕ)
  | closeIdle (i : ℕ)
  | closeLeased (i : ℕ)
  | getConnection
  | lock (i : ℕ)
  | pop (i : ℕ)
  | settle (i : ℕ)
  | connectFail (i : ℕ)
  | create (i : ℕ)
  | release (i : ℕ)
  | delete (i : ℕ)
  | keep (i : ℕ)

namespace HttpConnectionPool

/-- The calls after one of them has gone on to its next section, if there is one. -/
def next (s : HttpConnectionPool) (i : ℕ) (call : List PoolCall) : HttpConnectionPool :=
  { s with calls := s.calls.eraseIdx i ++ call }

def close (conn : HttpConnection) : HttpConnection := { conn with connected := false }

/-- One turn of the loop of `getConnection`. -/
def pop (limits : PoolLimits) (s : HttpConnectionPool) (i now : ℕ)
    (invalid : List HttpConnection) : HttpConnectionPool :=
  match s.conns with
  | [] => { s.next i [.popped none invalid] with locked := false }
  | conn :: conns =>
    if !conn.connected || now < conn.createTime + limits.maxAliveTime then
      { s.next i [.popping now (invalid ++ [conn])] with
        conns := conns, discarded := s.discarded ++ [(conn, now)] }
    else
      { s.next i [.popped (some conn) invalid] with
        conns := conns, locked := false, handedOut := s.handedOut ++ [(conn, now)] }

/-- Behind the lock: `m_total -= invalid_conns.size()`, and the connection that has been found goes
to the caller. -/
def settle (s : HttpConnectionPool) (i : ℕ) (ptr : Option HttpConnection)
    (invalid : List HttpConnection) : HttpConnectionPool :=
  match ptr with
  | some conn =>
    { s.next i [] with total := s.total - invalid.length, leased := s.leased ++ [conn] }
  | none => { s.next i [.connecting] with total := s.total - invalid.length }

/-- `ReleasePtr` up to the lock. -/
def release (limits : PoolLimits) (s : HttpConnectionPool) (i : ℕ) (ptr : HttpConnection) :
    HttpConnectionPool :=
  let conn := { ptr with request := ptr.request + 1 }
  if !conn.connected || s.clock ≤ conn.createTime + limits.maxAliveTime ||
      limits.maxRequest ≤ conn.request then
    { s with
      leased := s.leased.eraseIdx i, calls := s.calls ++ [.deleting conn],
      discarded := s.discarded ++ [(conn, s.clock)] }
  else { s with leased := s.leased.eraseIdx i, calls := s.calls ++ [.keeping conn] }

def step (limits : PoolLimits) (s : HttpConnectionPool) : PoolAction → Option HttpConnectionPool
  | .tick now => some { s with clock := now }
  | .closeIdle i => some { s with conns := s.conns.modify i close }
  | .closeLeased i => some { s with leased := s.leased.modify i close }
  | .getConnection => some { s with calls := s.calls ++ [.waiting s.clock] }
  | .lock i =>
    match s.calls[i]? with
    | some (.waiting now) =>
      if s.locked then none else some { s.next i [.popping now []] with locked := true }
    | _ => none
  | .pop i =>
    match s.calls[i]? with
    | some (.popping now invalid) => some (s.pop limits i now invalid)
    | _ => none
  | .settle i =>
    match s.calls[i]? with
    | some (.popped ptr invalid) => some (s.settle i ptr invalid)
    | _ => none
  | .connectFail i =>
    match s.calls[i]? with
    | some .connecting => some (s.next i [])
    | _ => none
  | .create i =>
    match s.calls[i]? with
    | some .connecting =>
      some { s.next i [] with
        total := s.total + 1, leased := s.leased ++ [{ openedAt := s.clock }] }
    | _ => none
  | .release i =>
    match s.leased[i]? with
    | some ptr => some (s.release limits i ptr)
    | none => none
  | .delete i =>
    match s.calls[i]? with
    | some (.deleting _) => some { s.next i [] with total := s.total - 1 }
    | _ => none
  | .keep i =>
    match s.calls[i]? with
    | some (.keeping conn) =>
      if s.locked then none else some { s.next i [] with conns := s.conns ++ [conn] }
    | _ => none

end HttpConnectionPool

def connectionPool (limits : PoolLimits) : Lts HttpConnectionPool PoolAction where
  init := {}
  step := HttpConnectionPool.step limits

namespace HttpConnectionPool

/-- The connections in the hands of calls. -/
def held (s : HttpConnectionPool) : List HttpConnection := s.calls.flatMap PoolCall.held

/-- What is handed out is usable, what is thrown away is not, and the connections are counted and no
more than the limit. -/
structure Policy (limits : PoolLimits) (s : HttpConnectionPool) : Prop where
  handedOut : ∀ h ∈ s.handedOut, h.1.Usable limits h.2
  discarded : ∀ d ∈ s.discarded, ¬d.1.Usable limits d.2
  counted : s.total = s.conns.length + s.leased.length + s.held.length
  bounded : s.total ≤ limits.maxSize

/-- The tests of the step give the right result. An idle connection that is connected is young
exactly when the clock of the call is not below the limit for the age; a usable connection is
released when the clock is beyond the limit; and a connection is made when there is room for it. -/
def Fitting (limits : PoolLimits) (s : HttpConnectionPool) : PoolAction → Prop
  | .pop i => ∀ now invalid conn conns, s.calls[i]? = some (.popping now invalid) →
      s.conns = conn :: conns → conn.connected →
        (limits.maxAliveTime ≤ now ↔ now < conn.openedAt + limits.maxAliveTime)
  | .release i => ∀ conn, s.leased[i]? = some conn →
      HttpConnection.Usable limits { conn with request := conn.request + 1 } s.clock →
        limits.maxAliveTime < s.clock
  | .create _ => s.total < limits.maxSize
  | _ => True

end HttpConnectionPool

/-! ### The invariant -/

namespace HttpConnectionPool

/-- All connections. -/
def all (s : HttpConnectionPool) : List HttpConnection := s.conns ++ s.leased ++ s.held

end HttpConnectionPool

/-- The connections are counted, `m_createTime` has never been set, and an idle connection has
served fewer requests than the limit. -/
structure PoolInv (limits : PoolLimits) (s : HttpConnectionPool) : Prop where
  counted : s.total = s.all.length
  created : ∀ conn ∈ s.all, conn.createTime = 0
  served : ∀ conn ∈ s.conns, conn.request < limits.maxRequest
  kept : ∀ conn, .keeping conn ∈ s.calls → conn.request < limits.maxRequest

section Steps

open HttpConnectionPool

variable {limits : PoolLimits} {s s' : HttpConnectionPool} {i : ℕ} {call : PoolCall}
  {calls : List PoolCall}

theorem perm_calls (h : s.calls[i]? = some call) : (call :: s.calls.eraseIdx i).Perm s.calls := by
  obtain ⟨hi, rfl⟩ := List.getElem?_eq_some_iff.mp h
  exact List.getElem_cons_eraseIdx_perm hi

theorem perm_leased {conn : HttpConnection} (h : s.leased[i]? = some conn) :
    (conn :: s.leased.eraseIdx i).Perm s.leased := by
  obtain ⟨hi, rfl⟩ := List.getElem?_eq_some_iff.mp h
  exact List.getElem_cons_eraseIdx_perm hi

namespace PoolInv

theorem initial (limits : PoolLimits) : PoolInv limits {} where
  counted := rfl
  created := by simp [all, held]
  served := by simp
  kept := by simp

/-- A call goes on: it moves connections and leaves those behind that are `gone`. -/
theorem advanced (h : PoolInv limits s) (gone : List HttpConnection)
    (hcall : s.calls[i]? = some call) (hcalls : s'.calls = s.calls.eraseIdx i ++ calls)
    (hcount : ∀ conn, s.conns.count conn + s.leased.count conn + call.held.count conn =
      s'.conns.count conn + s'.leased.count conn + (calls.flatMap PoolCall.held).count conn +
        gone.count conn)
    (htotal : s'.total = s.total - gone.length)
    (hserved : ∀ conn ∈ s'.conns, conn ∈ s.conns ∨ call = .keeping conn)
    (hkept : ∀ conn, .keeping conn ∉ calls) : PoolInv limits s' := by
  have hperm : s.all.Perm (s'.all ++ gone) := by
    refine List.perm_iff_count.mpr fun conn ↦ ?_
    have hheld : (call.held ++ (s.calls.eraseIdx i).flatMap PoolCall.held).Perm s.held :=
      (perm_calls hcall).flatMap_right PoolCall.held
    have hheld' : s'.held = (s.calls.eraseIdx i).flatMap PoolCall.held ++
        calls.flatMap PoolCall.held := by
      rw [held, hcalls, List.flatMap_append]
    have hconn := hcount conn
    simp only [all, List.count_append, ← hheld.count_eq, hheld'] at hconn ⊢
    omega
  refine ⟨?_, ?_, ?_, ?_⟩
  · have hlength := hperm.length_eq
    rw [List.length_append] at hlength
    have hcounted := h.counted
    omega
  · intro conn hconn
    exact h.created conn (hperm.mem_iff.mpr (List.mem_append_left gone hconn))
  · intro conn hconn
    obtain hidle | rfl := hserved conn hconn
    · exact h.served conn hidle
    · exact h.kept conn (List.mem_of_getElem? hcall)
  · intro conn hconn
    rw [hcalls] at hconn
    exact h.kept conn (List.eraseIdx_subset
      ((List.mem_append.mp hconn).resolve_right (hkept conn)))

theorem pop {now : ℕ} {invalid : List HttpConnection} (h : PoolInv limits s)
    (hcall : s.calls[i]? = some (.popping now invalid)) :
    PoolInv limits (s.pop limits i now invalid) := by
  rw [HttpConnectionPool.pop]
  split
  · rename_i hconns
    refine h.advanced [] hcall rfl (fun conn ↦ ?_)
      (by simp [HttpConnectionPool.next]) (fun _ hconn ↦ .inl hconn) (by simp)
    simp [HttpConnectionPool.next, PoolCall.held]
  · rename_i conn conns hconns
    have hidle : ∀ other ∈ conns, other ∈ s.conns ∨ PoolCall.popping now invalid = .keeping other :=
      fun other hother ↦ .inl (hconns ▸ List.mem_cons_of_mem conn hother)
    split
    · refine h.advanced [] hcall rfl (fun other ↦ ?_)
        (by simp [HttpConnectionPool.next]) hidle (by simp)
      simp [HttpConnectionPool.next, PoolCall.held, hconns, List.count_cons]
      omega
    · refine h.advanced [] hcall rfl (fun other ↦ ?_)
        (by simp [HttpConnectionPool.next]) hidle (by simp)
      simp [HttpConnectionPool.next, PoolCall.held, hconns, List.count_cons]
      omega

theorem settle {ptr : Option HttpConnection} {invalid : List HttpConnection}
    (h : PoolInv limits s) (hcall : s.calls[i]? = some (.popped ptr invalid)) :
    PoolInv limits (s.settle i ptr invalid) := by
  cases ptr with
  | some conn =>
    refine h.advanced invalid hcall rfl (fun other ↦ ?_) rfl
      (fun _ hother ↦ .inl hother) (by simp)
    simp [HttpConnectionPool.settle, HttpConnectionPool.next, PoolCall.held, List.count_cons]
    omega
  | none =>
    refine h.advanced invalid hcall rfl (fun other ↦ ?_) rfl
      (fun _ hother ↦ .inl hother) (by simp)
    simp [HttpConnectionPool.settle, HttpConnectionPool.next, PoolCall.held]

/-- A call of `ReleasePtr` takes a connection from the leased ones and counts a request. -/
theorem released {ptr : HttpConnection} (h : PoolInv limits s) (conn : HttpConnection)
    (hptr : s.leased[i]? = some ptr) (hconn : conn.createTime = ptr.createTime)
    (htotal : s'.total = s.total) (hconns : s'.conns = s.conns)
    (hleased : s'.leased = s.leased.eraseIdx i) (hcalls : s'.calls = s.calls ++ [call])
    (hheld : call.held = [conn])
    (hkept : ∀ other, call = .keeping other → other.request < limits.maxRequest) :
    PoolInv limits s' where
  counted := by
    have hlength := (perm_leased hptr).length_eq
    have hcounted := h.counted
    simp only [all, held, hconns, hleased, hcalls, htotal, hheld, List.length_append,
      List.length_cons, List.length_nil, List.flatMap_append, List.flatMap_cons, List.flatMap_nil,
      List.append_nil] at hlength hcounted ⊢
    omega
  created := by
    intro other hother
    have hzero : ptr.createTime = 0 :=
      h.created ptr (by simp [all, List.mem_of_getElem? hptr])
    simp only [all, held, hconns, hleased, hcalls, hheld, List.flatMap_append, List.flatMap_cons,
      List.flatMap_nil, List.append_nil, List.mem_append, List.mem_singleton] at hother
    obtain (hidle | hmem) | hcall | rfl := hother
    · exact h.created other (by simp [all, hidle])
    · exact h.created other (by simp [all, List.eraseIdx_subset hmem])
    · exact h.created other (by simp only [all, held, List.mem_append]; exact .inr hcall)
    · rw [hconn, hzero]
  served := by
    rw [hconns]
    exact h.served
  kept := by
    intro other hother
    rw [hcalls, List.mem_append, List.mem_singleton] at hother
    obtain hmem | heq := hother
    · exact h.kept other hmem
    · exact hkept other heq.symm

theorem release {ptr : HttpConnection} (h : PoolInv limits s) (hptr : s.leased[i]? = some ptr) :
    PoolInv limits (s.release limits i ptr) := by
  rw [HttpConnectionPool.release]
  split
  · exact h.released { ptr with request := ptr.request + 1 } hptr rfl rfl rfl rfl rfl rfl
      (fun _ heq ↦ by cases heq)
  · rename_i htest
    refine h.released { ptr with request := ptr.request + 1 } hptr rfl rfl rfl rfl rfl rfl
      (fun _ heq ↦ ?_)
    cases heq
    simp only [Bool.or_eq_true, decide_eq_true_eq, not_or] at htest
    exact Nat.lt_of_not_le htest.2

theorem mem_modify_close {l : List HttpConnection} {conn : HttpConnection}
    (h : conn ∈ l.modify i close) :
    ∃ other ∈ l, conn.createTime = other.createTime ∧ conn.request = other.request := by
  obtain ⟨j, hj, rfl⟩ := List.mem_iff_getElem.mp h
  rw [List.length_modify] at hj
  refine ⟨l[j], List.getElem_mem hj, ?_⟩
  rw [List.getElem_modify]
  split
  · exact ⟨rfl, rfl⟩
  · exact ⟨rfl, rfl⟩

/-- Closing a connection changes nothing that the invariant speaks of. -/
theorem closed {conns leased : List HttpConnection} (h : PoolInv limits s)
    (hconns : conns.length = s.conns.length) (hleased : leased.length = s.leased.length)
    (hsame : ∀ conn ∈ conns, ∃ other ∈ s.conns,
      conn.createTime = other.createTime ∧ conn.request = other.request)
    (hsame' : ∀ conn ∈ leased, ∃ other ∈ s.leased,
      conn.createTime = other.createTime ∧ conn.request = other.request) :
    PoolInv limits { s with conns := conns, leased := leased } where
  counted := by
    have hcounted := h.counted
    simp only [all, held, List.length_append, hconns, hleased] at hcounted ⊢
    exact hcounted
  created := by
    intro conn hconn
    simp only [all, List.mem_append] at hconn
    obtain (hidle | hlease) | hcall := hconn
    · obtain ⟨other, hother, hzero, -⟩ := hsame conn hidle
      rw [hzero]
      exact h.created other (by simp [all, hother])
    · obtain ⟨other, hother, hzero, -⟩ := hsame' conn hlease
      rw [hzero]
      exact h.created other (by simp [all, hother])
    · exact h.created conn (by simp only [all, List.mem_append]; exact .inr hcall)
  served := by
    intro conn hconn
    obtain ⟨other, hother, -, hrequest⟩ := hsame conn hconn
    rw [hrequest]
    exact h.served other hother
  kept := h.kept

theorem connectFail (h : PoolInv limits s) (hcall : s.calls[i]? = some .connecting) :
    PoolInv limits (s.next i []) := by
  refine h.advanced [] hcall rfl (fun conn ↦ ?_) (by simp [HttpConnectionPool.next])
    (fun _ hconn ↦ .inl hconn) (by simp)
  simp [HttpConnectionPool.next, PoolCall.held]

theorem create (h : PoolInv limits s) : PoolInv limits
    { s with total := s.total + 1, leased := s.leased ++ [{ openedAt := s.clock }] } where
  counted := by
    have hcounted := h.counted
    simp only [all, held, List.length_append, List.length_singleton] at hcounted ⊢
    omega
  created := by
    intro conn hconn
    simp only [all, List.mem_append, List.mem_singleton] at hconn
    obtain (hidle | hmem | rfl) | hcall := hconn
    · exact h.created conn (by simp [all, hidle])
    · exact h.created conn (by simp [all, hmem])
    · rfl
    · exact h.created conn (by simp only [all, List.mem_append]; exact .inr hcall)
  served := h.served
  kept := h.kept

theorem step {a : PoolAction} (h : PoolInv limits s) (hstep : s.step limits a = some s') :
    PoolInv limits s' := by
  cases a with
  | tick now =>
    cases hstep
    exact ⟨h.counted, h.created, h.served, h.kept⟩
  | closeIdle j =>
    cases hstep
    exact h.closed (List.length_modify ..) rfl (fun _ ↦ mem_modify_close)
      (fun conn hconn ↦ ⟨conn, hconn, rfl, rfl⟩)
  | closeLeased j =>
    cases hstep
    exact h.closed rfl (List.length_modify ..) (fun conn hconn ↦ ⟨conn, hconn, rfl, rfl⟩)
      (fun _ ↦ mem_modify_close)
  | getConnection =>
    cases hstep
    have hall : (s.all : List HttpConnection) =
        all { s with calls := s.calls ++ [.waiting s.clock] } := by
      simp [all, held, PoolCall.held]
    exact ⟨hall ▸ h.counted, hall ▸ h.created, h.served, fun conn hconn ↦ h.kept conn (by
      simpa using hconn)⟩
  | lock j =>
    simp only [HttpConnectionPool.step] at hstep
    split at hstep
    · rename_i now hcall
      split_ifs at hstep
      cases hstep
      refine h.advanced [] hcall rfl (fun conn ↦ ?_) (by simp [HttpConnectionPool.next])
        (fun _ hconn ↦ .inl hconn) (by simp)
      simp [HttpConnectionPool.next, PoolCall.held]
    · cases hstep
  | pop j =>
    simp only [HttpConnectionPool.step] at hstep
    split at hstep
    · rename_i now invalid hcall
      cases hstep
      exact h.pop hcall
    · cases hstep
  | settle j =>
    simp only [HttpConnectionPool.step] at hstep
    split at hstep
    · rename_i ptr invalid hcall
      cases hstep
      exact h.settle hcall
    · cases hstep
  | connectFail j =>
    simp only [HttpConnectionPool.step] at hstep
    split at hstep
    · rename_i hcall
      cases hstep
      exact h.connectFail hcall
    · cases hstep
  | create j =>
    simp only [HttpConnectionPool.step] at hstep
    split at hstep
    · rename_i hcall
      cases hstep
      exact (h.connectFail hcall).create
    · cases hstep
  | release j =>
    simp only [HttpConnectionPool.step] at hstep
    split at hstep
    · rename_i ptr hptr
      cases hstep
      exact h.release hptr
    · cases hstep
  | delete j =>
    simp only [HttpConnectionPool.step] at hstep
    split at hstep
    · rename_i conn hcall
      cases hstep
      refine h.advanced [conn] hcall rfl (fun other ↦ ?_) rfl
        (fun _ hother ↦ .inl hother) (by simp)
      simp [HttpConnectionPool.next, PoolCall.held]
    · cases hstep
  | keep j =>
    simp only [HttpConnectionPool.step] at hstep
    split at hstep
    · rename_i conn hcall
      split_ifs at hstep
      cases hstep
      refine h.advanced [] hcall rfl (fun other ↦ ?_) (by simp [HttpConnectionPool.next])
        (fun other hother ↦ ?_) (by simp)
      · simp [HttpConnectionPool.next, PoolCall.held]
        omega
      · obtain hidle | heq := List.mem_append.mp hother
        · exact .inl hidle
        · exact .inr (by rw [List.mem_singleton.mp heq])
    · cases hstep

end PoolInv

/-- Under the invariant the policy is about what is handed out or thrown away and the limit. -/
theorem policy_iff (h : PoolInv limits s) : s.Policy limits ↔
    (∀ x ∈ s.handedOut, x.1.Usable limits x.2) ∧ (∀ x ∈ s.discarded, ¬x.1.Usable limits x.2) ∧
      s.total ≤ limits.maxSize := by
  have hcounted := h.counted
  rw [all, List.length_append, List.length_append] at hcounted
  constructor
  · intro hpolicy
    exact ⟨hpolicy.handedOut, hpolicy.discarded, hpolicy.bounded⟩
  · rintro ⟨hhanded, hdiscarded, hbounded⟩
    exact ⟨hhanded, hdiscarded, by exact_mod_cast hcounted, hbounded⟩

/-- The policy is kept when nothing is handed out or thrown away and no connection is made. -/
theorem policy_of_same (h : PoolInv limits s') (hpolicy : s.Policy limits)
    (hhanded : s'.handedOut = s.handedOut) (hdiscarded : s'.discarded = s.discarded)
    (htotal : s'.total ≤ s.total) : s'.Policy limits := by
  rw [policy_iff h, hhanded, hdiscarded]
  exact ⟨hpolicy.handedOut, hpolicy.discarded, htotal.trans hpolicy.bounded⟩

theorem policy_discard_iff {conn : HttpConnection} {now : ℕ} (h : PoolInv limits s')
    (hpolicy : s.Policy limits) (hhanded : s'.handedOut = s.handedOut)
    (hdiscarded : s'.discarded = s.discarded ++ [(conn, now)]) (htotal : s'.total = s.total) :
    s'.Policy limits ↔ ¬conn.Usable limits now := by
  rw [policy_iff h, hhanded, hdiscarded, htotal, List.forall_mem_append,
    and_iff_right hpolicy.handedOut, and_iff_right hpolicy.discarded, and_iff_left hpolicy.bounded,
    List.forall_mem_singleton]

theorem policy_handOut_iff {conn : HttpConnection} {now : ℕ} (h : PoolInv limits s')
    (hpolicy : s.Policy limits) (hhanded : s'.handedOut = s.handedOut ++ [(conn, now)])
    (hdiscarded : s'.discarded = s.discarded) (htotal : s'.total = s.total) :
    s'.Policy limits ↔ conn.Usable limits now := by
  rw [policy_iff h, hhanded, hdiscarded, htotal, List.forall_mem_append,
    and_iff_right hpolicy.handedOut, and_iff_right hpolicy.discarded, and_iff_left hpolicy.bounded,
    List.forall_mem_singleton]

/-- A turn of the loop keeps the policy when the test of the age gives the right result. -/
theorem policy_pop_iff {now : ℕ} {invalid : List HttpConnection} (h : PoolInv limits s)
    (hpolicy : s.Policy limits) (hcall : s.calls[i]? = some (.popping now invalid)) :
    (s.pop limits i now invalid).Policy limits ↔ s.Fitting limits (.pop i) := by
  have hinv := h.pop hcall
  cases hconns : s.conns with
  | nil =>
    have hresult : s.pop limits i now invalid =
        { s.next i [.popped none invalid] with locked := false } := by
      simp only [HttpConnectionPool.pop, hconns]
    rw [hresult] at hinv ⊢
    refine iff_of_true (policy_of_same hinv hpolicy rfl rfl le_rfl) ?_
    intro _ _ conn conns _ hcons
    rw [hconns] at hcons
    cases hcons
  | cons conn conns =>
    have hzero : conn.createTime = 0 := h.created conn (by simp [all, hconns])
    have hserved : conn.request < limits.maxRequest := h.served conn (by simp [hconns])
    have hfitting : s.Fitting limits (.pop i) ↔ (conn.connected →
        (limits.maxAliveTime ≤ now ↔ now < conn.openedAt + limits.maxAliveTime)) := by
      constructor
      · intro hfit
        exact hfit now invalid conn conns hcall hconns
      · intro hfit now' invalid' conn' conns' hcall' hconns'
        cases hcall.symm.trans hcall'
        cases hconns.symm.trans hconns'
        exact hfit
    rw [hfitting]
    by_cases htest : conn.connected ∧ limits.maxAliveTime ≤ now
    · have hresult : s.pop limits i now invalid = { s.next i [.popped (some conn) invalid] with
          conns := conns, locked := false, handedOut := s.handedOut ++ [(conn, now)] } := by
        simp [HttpConnectionPool.pop, hconns, hzero, htest.1, htest.2]
      rw [hresult] at hinv ⊢
      rw [policy_handOut_iff hinv hpolicy rfl rfl rfl, HttpConnection.Usable,
        and_iff_right htest.1, and_iff_left hserved]
      exact ⟨fun hyoung _ ↦ iff_of_true htest.2 hyoung, fun hfit ↦ (hfit htest.1).mp htest.2⟩
    · have hresult : s.pop limits i now invalid =
          { s.next i [.popping now (invalid ++ [conn])] with
            conns := conns, discarded := s.discarded ++ [(conn, now)] } := by
        simp only [HttpConnectionPool.pop, hconns, hzero, Nat.zero_add]
        rw [if_pos]
        simpa [or_iff_not_imp_left] using htest
      rw [hresult] at hinv ⊢
      rw [policy_discard_iff hinv hpolicy rfl rfl rfl]
      constructor
      · intro hnot hconnected
        exact iff_of_false (fun hle ↦ htest ⟨hconnected, hle⟩)
          fun hyoung ↦ hnot ⟨hconnected, hyoung, hserved⟩
      · rintro hfit ⟨hconnected, hyoung, -⟩
        exact htest ⟨hconnected, (hfit hconnected).mpr hyoung⟩

theorem policy_release_iff {ptr : HttpConnection} (h : PoolInv limits s)
    (hpolicy : s.Policy limits) (hptr : s.leased[i]? = some ptr) :
    (s.release limits i ptr).Policy limits ↔ s.Fitting limits (.release i) := by
  have hinv := h.release hptr
  have hzero : ptr.createTime = 0 := h.created ptr (by simp [all, List.mem_of_getElem? hptr])
  have hfitting : s.Fitting limits (.release i) ↔
      (HttpConnection.Usable limits { ptr with request := ptr.request + 1 } s.clock →
        limits.maxAliveTime < s.clock) := by
    constructor
    · intro hfit
      exact hfit ptr hptr
    · intro hfit conn hconn
      cases hptr.symm.trans hconn
      exact hfit
  rw [hfitting]
  rw [HttpConnectionPool.release] at hinv ⊢
  split
  · rename_i htest
    rw [if_pos htest] at hinv
    rw [policy_discard_iff hinv hpolicy rfl rfl rfl]
    simp only [Bool.or_eq_true, Bool.not_eq_true', decide_eq_true_eq, hzero,
      Nat.zero_add] at htest
    constructor
    · intro hnot husable
      exact absurd husable hnot
    · rintro hfit ⟨hconnected, hyoung, hserved⟩
      have hlt := hfit ⟨hconnected, hyoung, hserved⟩
      obtain (hclosed | hle) | hge := htest
      · exact absurd hconnected (by simp [hclosed])
      · omega
      · exact Nat.not_le.mpr hserved hge
  · rename_i htest
    rw [if_neg htest] at hinv
    simp only [Bool.or_eq_true, decide_eq_true_eq, not_or, Nat.not_le, hzero,
      Nat.zero_add] at htest
    exact iff_of_true (policy_of_same hinv hpolicy rfl rfl le_rfl) fun _ ↦ htest.1.2

theorem policy_step_iff {a : PoolAction} (h : PoolInv limits s) (hpolicy : s.Policy limits)
    (hstep : s.step limits a = some s') : s'.Policy limits ↔ s.Fitting limits a := by
  have hinv : PoolInv limits s' := h.step hstep
  cases a with
  | tick now =>
    cases hstep
    exact iff_of_true (policy_of_same hinv hpolicy rfl rfl le_rfl) trivial
  | closeIdle j =>
    cases hstep
    exact iff_of_true (policy_of_same hinv hpolicy rfl rfl le_rfl) trivial
  | closeLeased j =>
    cases hstep
    exact iff_of_true (policy_of_same hinv hpolicy rfl rfl le_rfl) trivial
  | getConnection =>
    cases hstep
    exact iff_of_true (policy_of_same hinv hpolicy rfl rfl le_rfl) trivial
  | lock j =>
    simp only [HttpConnectionPool.step] at hstep
    split at hstep
    · split_ifs at hstep
      cases hstep
      exact iff_of_true (policy_of_same hinv hpolicy rfl rfl le_rfl) trivial
    · cases hstep
  | pop j =>
    simp only [HttpConnectionPool.step] at hstep
    split at hstep
    · rename_i now invalid hcall
      cases hstep
      exact policy_pop_iff h hpolicy hcall
    · cases hstep
  | settle j =>
    simp only [HttpConnectionPool.step] at hstep
    split at hstep
    · rename_i ptr invalid hcall
      cases hstep
      refine iff_of_true ?_ trivial
      cases ptr with
      | some conn =>
        exact policy_of_same hinv hpolicy rfl rfl (Int.sub_le_self _ (Int.natCast_nonneg _))
      | none =>
        exact policy_of_same hinv hpolicy rfl rfl (Int.sub_le_self _ (Int.natCast_nonneg _))
    · cases hstep
  | connectFail j =>
    simp only [HttpConnectionPool.step] at hstep
    split at hstep
    · cases hstep
      exact iff_of_true (policy_of_same hinv hpolicy rfl rfl le_rfl) trivial
    · cases hstep
  | create j =>
    simp only [HttpConnectionPool.step] at hstep
    split at hstep
    · cases hstep
      rw [policy_iff hinv]
      exact ⟨fun hnew ↦ Int.add_one_le_iff.mp hnew.2.2,
        fun hroom ↦ ⟨hpolicy.handedOut, hpolicy.discarded, Int.add_one_le_iff.mpr hroom⟩⟩
    · cases hstep
  | release j =>
    simp only [HttpConnectionPool.step] at hstep
    split at hstep
    · rename_i ptr hptr
      cases hstep
      exact policy_release_iff h hpolicy hptr
    · cases hstep
  | delete j =>
    simp only [HttpConnectionPool.step] at hstep
    split at hstep
    · cases hstep
      refine iff_of_true (policy_of_same hinv hpolicy rfl rfl ?_) trivial
      exact Int.sub_le_self _ (by decide)
    · cases hstep
  | keep j =>
    simp only [HttpConnectionPool.step] at hstep
    split at hstep
    · split_ifs at hstep
      cases hstep
      exact iff_of_true (policy_of_same hinv hpolicy rfl rfl le_rfl) trivial
    · cases hstep

end Steps

/-- In every run of calls of any threads the policy is kept exactly when all tests fit. -/
theorem connectionPool_policy (limits : PoolLimits) (r : Run (connectionPool limits)) :
    (∀ k, (r.state k).Policy limits) ↔ r.Obeys (HttpConnectionPool.Fitting limits) := by
  have hinit : (connectionPool limits).init.Policy limits :=
    (policy_iff (PoolInv.initial limits)).mpr ⟨by simp, by simp, by simp⟩
  refine Run.forall_iff_obeys (I := PoolInv limits) (PoolInv.initial limits) hinit ?_ ?_ r
  · intro s a s' hs hstep
    exact hs.step hstep
  · intro s a s' hs hpolicy hstep
    exact policy_step_iff hs hpolicy hstep

def smallLimits : PoolLimits := ⟨1, 10, 5⟩

/-- A connection is made at 100, released, and leased again at 1000. -/
def leasedAgain : List PoolAction :=
  [.tick 100, .getConnection, .lock 0, .pop 0, .settle 0, .create 0, .release 0, .keep 0,
    .tick 1000, .getConnection, .lock 0, .pop 0]

def leasedAgainRun : Run (connectionPool smallLimits) :=
  .ofActions (connectionPool smallLimits) leasedAgain (by decide +kernel)

/-- Its age is 900 and the limit is 10. -/
theorem not_policy_leasedAgain :
    ¬ ∀ (limits : PoolLimits) (r : Run (connectionPool limits)) (k : ℕ),
      (r.state k).Policy limits := by
  intro h
  have hhanded : (leasedAgainRun.state 12).handedOut =
      [({ request := 1, openedAt := 100 }, 1000)] := by decide +kernel
  have hpolicy := (h smallLimits leasedAgainRun 12).handedOut
  rw [hhanded, List.forall_mem_singleton] at hpolicy
  exact absurd hpolicy (by decide)

end Rsylar.Http
