import Rsylar.Raft.IndexOrder
import Rsylar.Raft.StateMachineSafety

/-!
# The order of commits

What a server has committed and applied moves forward as long as its process lasts, with one
exception. `Start` computes the commit index of a leader anew from `matchIndex`, which an election
sets to zero: the search may stop below what the server has already committed, and ends at the
snapshot when it finds nothing (`Raft.start_commitIndex_le_iff`). The other places that write the
commit index take a maximum. In the runs in which every leader that runs `Start` finds its commit
index again (`StartRecommits`) the order holds (`commitOrder`); in `lostCommitRun` a new leader that
has applied an entry goes back to commit index 0.
-/

set_option autoImplicit false
set_option relaxedAutoImplicit false

namespace Rsylar

open TextArchive TransitionSystem

variable {n : ℕ}

/-! ### What `Start` finds again -/

/-- There is an index up to the entry that `Start` appends which `leaderUpdateCommitIndex` may
commit and which is not below the commit index, or nothing is committed beyond the snapshot. -/
def Raft.Recommits (r : Raft n) (me : Fin n) : Prop :=
  r.commitIndex ≤ r.lastSnapshotIncludeIndex ∨
    ∃ index, index ≤ r.getLastLogIndex + 1 ∧ r.commitIndex ≤ index ∧
      r.lastSnapshotIncludeIndex < index ∧ r.reachedByMajority me index ∧
      (index = r.getLastLogIndex + 1 ∨ r.getLogTermFromLogIndex index = .ok r.currentTerm)

instance (r : Raft n) (me : Fin n) : Decidable (r.Recommits me) :=
  inferInstanceAs (Decidable (_ ∨ ∃ index, index ≤ _ ∧ _))

namespace Raft

variable {r r' : Raft n}

theorem Numbered.append (h : r.Numbered) {e : LogEntry}
    (hindex : e.logIndex = r.getLastLogIndex + 1) :
    Numbered { r with logs := r.logs ++ [e] } := by
  rw [h.getLastLogIndex_eq] at hindex
  exact NumberedFrom.append h (numberedFrom_singleton hindex)

theorem Numbered.getLastLogIndex_append (h : r.Numbered) {e : LogEntry}
    (hindex : e.logIndex = r.getLastLogIndex + 1) :
    getLastLogIndex { r with logs := r.logs ++ [e] } = r.getLastLogIndex + 1 := by
  have happend := (h.append hindex).getLastLogIndex_eq
  simp only [List.length_append, List.length_singleton] at happend
  rw [happend, h.getLastLogIndex_eq]
  rfl

/-- The terms beyond the snapshot once an entry has been appended. -/
theorem Numbered.getLogTermFromLogIndex_append (h : r.Numbered) {e : LogEntry}
    (hindex : e.logIndex = r.getLastLogIndex + 1) {index term : ℕ}
    (hlt : r.lastSnapshotIncludeIndex < index) :
    getLogTermFromLogIndex { r with logs := r.logs ++ [e] } index = .ok term ↔
      (index = r.getLastLogIndex + 1 ∧ e.logTerm = term) ∨
        r.getLogTermFromLogIndex index = .ok term := by
  have hlast := h.getLastLogIndex_eq
  have hentry : ∀ a, entryAt { r with logs := r.logs ++ [e] } index = .ok a ↔
      (index = r.getLastLogIndex + 1 ∧ e = a) ∨ r.entryAt index = .ok a := by
    intro a
    rw [(h.append hindex).entryAt_iff, h.entryAt_iff]
    show r.lastSnapshotIncludeIndex < index ∧
      (r.logs ++ [e])[index - r.lastSnapshotIncludeIndex - 1]? = some a ↔ _
    rw [List.getElem?_append]
    constructor
    · rintro ⟨-, hget⟩
      split at hget
      · exact Or.inr ⟨hlt, hget⟩
      · have hpos := (List.getElem?_eq_some_iff.mp hget).1
        rw [List.length_singleton] at hpos
        rw [List.getElem?_singleton, if_pos (by omega)] at hget
        exact Or.inl ⟨by omega, Option.some.inj hget⟩
    · rintro (⟨rfl, rfl⟩ | ⟨-, hget⟩)
      · refine ⟨hlt, ?_⟩
        rw [if_neg (by omega), List.getElem?_singleton, if_pos (by omega)]
      · exact ⟨hlt, by rw [if_pos (List.getElem?_eq_some_iff.mp hget).1]; exact hget⟩
  simp only [getLogTermFromLogIndex_eq_ok]
  constructor
  · rintro (⟨heq, -, -⟩ | ⟨a, ha, rfl⟩)
    · exact absurd heq (by show index ≠ r.lastSnapshotIncludeIndex; omega)
    · rcases (hentry a).mp ha with ⟨heq, rfl⟩ | ha
      · exact Or.inl ⟨heq, rfl⟩
      · exact Or.inr (Or.inr ⟨a, ha, rfl⟩)
  · rintro (⟨heq, rfl⟩ | ⟨heq, -, -⟩ | ⟨a, ha, rfl⟩)
    · exact Or.inr ⟨e, (hentry e).mpr (Or.inl ⟨heq, rfl⟩), rfl⟩
    · omega
    · exact Or.inr ⟨a, (hentry a).mpr (Or.inr ha), rfl⟩

variable [Codec LogEntry] [Codec (BoostPersistRaftNode n)]

/-- `Start` keeps the commit index from going back exactly when the leader finds it again. -/
theorem start_commitIndex_le_iff (h : r.Numbered) {me : Fin n} {command : String}
    {result : Option (ℕ × ℕ)} (hr : r.start me command = .ok (r', result)) :
    r.commitIndex ≤ r'.commitIndex ↔ (r.status = .leader → r.Recommits me) := by
  rcases start_cases hr with ⟨hfollow, rfl, -⟩ | ⟨hlead, e, q, found, heq, rfl, hfound, rfl, -⟩
  · exact ⟨fun _ hlead ↦ absurd hlead hfollow, fun _ ↦ le_refl _⟩
  · have hindex : e.logIndex = r.getLastLogIndex + 1 := by rw [heq]
    have hterm : e.logTerm = r.currentTerm := by rw [heq]
    have hlast : getLastLogIndex (persist { r with logs := r.logs ++ [e] }) =
        r.getLastLogIndex + 1 := h.getLastLogIndex_append hindex
    constructor
    · intro hle _
      cases found with
      | none => exact Or.inl hle
      | some index =>
        obtain ⟨hlt, hreached, hat⟩ := committableUpTo_some hfound
        refine Or.inr ⟨index, ?_, hle, hlt, hreached, ?_⟩
        · rcases getLogTermFromLogIndex_eq_ok.mp hat with ⟨-, hin, -⟩ | ⟨a, ha, -⟩
          · exact hin.trans hlast.le
          · exact (entryAt_eq_ok.mp ha).2.1.trans hlast.le
        · exact ((h.getLogTermFromLogIndex_append hindex hlt).mp hat).imp_left And.left
    · intro hrecommits
      rcases hrecommits hlead with hsnapshot | ⟨index, hin, hle, hlt, hreached, hat⟩
      · cases found with
        | none => exact hsnapshot
        | some index => exact hsnapshot.trans (committableUpTo_some hfound).1.le
      · obtain ⟨largest, rfl, hlargest⟩ := le_committableUpTo hfound (hin.trans hlast.ge) hlt
          hreached ((h.getLogTermFromLogIndex_append hindex hlt).mpr
            (hat.imp_left fun heq ↦ ⟨heq, hterm⟩))
        exact hle.trans hlargest

end Raft

/-! ### The order of every run -/

section Runs

variable [Codec LogEntry] [Codec (BoostPersistRaftNode n)]

/-- A leader that runs `Start` finds its commit index again. -/
def StartRecommits (s : Cluster n) : Action n → Prop
  | .start i _ => (s.servers i).status = .leader → (s.servers i).Recommits i
  | _ => True

instance : DecidableRel (StartRecommits : Cluster n → Action n → Prop) := fun s a ↦
  match a with
  | .start i _ => inferInstanceAs (Decidable ((s.servers i).status = .leader → _))
  | .doElection _ | .requestVote _ _ | .sendRequestVote _ _ _ | .doHeartBeat _
  | .appendEntries _ _ | .sendAppendEntries _ _ _ | .getApplyLogs _ | .applierPush _
  | .snapshot _ _ _ | .leaderSendSnapShot _ | .installSnapshot _ | .leaderSendSnapShotReply _ _
  | .pushMsgToKvServer _ _ | .restart _ => .isTrue trivial

/-- The process of server `i` is not replaced between the two moments. -/
def SameProcess (r : Run (raft n)) (i : Fin n) (j k : ℕ) : Prop :=
  ∀ l, j ≤ l → l < k → r.act l ≠ some (.restart i)

/-- What is applied is committed, and neither index moves back while a process lasts. -/
def CommitOrder (r : Run (raft n)) : Prop :=
  (∀ k i, ((r.state k).servers i).lastApplied ≤ ((r.state k).servers i).commitIndex) ∧
    ∀ i j k, j ≤ k → SameProcess r i j k →
      ((r.state j).servers i).commitIndex ≤ ((r.state k).servers i).commitIndex ∧
        ((r.state j).servers i).lastApplied ≤ ((r.state k).servers i).lastApplied

variable {s s' : Cluster n}

/-- What one step does to the indices of a server that finds its commit index again. -/
theorem ShapeInv.forward_step (h : ShapeInv s) {a : Action n} (hstep : s.step a = some s')
    (hrecommits : StartRecommits s a) (i : Fin n) (ha : a ≠ .restart i) :
    ∃ extra, ForwardStep extra (s.servers i) (s'.servers i) := by
  rcases h.index_step hstep i ha with hforward | ⟨command, r, result, rfl, hr, heq⟩
  · exact hforward
  · obtain ⟨extra, hindex⟩ := indexStep_start (h.servers i) hr
    have hle := (Raft.start_commitIndex_le_iff (h.servers i).numbered hr).mpr hrecommits
    exact ⟨extra, heq ▸ ⟨hindex, hle⟩⟩

/-- What is applied stays committed over one step. -/
theorem ShapeInv.applied_le_step (h : ShapeInv s) {a : Action n} (hstep : s.step a = some s')
    (hrecommits : StartRecommits s a)
    (happlied : ∀ i, (s.servers i).lastApplied ≤ (s.servers i).commitIndex) (i : Fin n) :
    (s'.servers i).lastApplied ≤ (s'.servers i).commitIndex := by
  by_cases ha : a = .restart i
  · subst ha
    cases Cluster.step_cases hstep with
    | exit j e _ => exact happlied i
    | restart j r data hr =>
      rw [Raft.restart_eq] at hr
      cases hr
      simp only [Cluster.replace, Function.update_self]
      exact le_refl 0
  · obtain ⟨extra, hforward⟩ := h.forward_step hstep hrecommits i ha
    exact hforward.applied_new.trans (max_le ((happlied i).trans hforward.commit_le) (le_refl _))

/-- The order of commits. It holds in every run in which a leader that runs `Start` finds its commit
index again. -/
theorem commitOrder (r : Run (raft n)) (hr : r.Obeys StartRecommits) : CommitOrder r := by
  constructor
  · intro k
    induction k with
    | zero =>
      rw [r.state_zero]
      exact fun i ↦ le_refl 0
    | succ k ih =>
      cases ha : r.act k with
      | none => rw [r.pause k ha]; exact ih
      | some a => exact (shapeInv_run r k).applied_le_step (r.next k a ha) (hr k a ha) ih
  · intro i j k hjk hsame
    have hforward : ∀ l a, j ≤ l → l < k → r.act l = some a →
        ∃ extra, ForwardStep extra ((r.state l).servers i) ((r.state (l + 1)).servers i) := by
      intro l a hjl hlk ha
      refine (shapeInv_run r l).forward_step (r.next l a ha) (hr l a ha) i fun heq ↦ ?_
      exact hsame l hjl hlk (heq ▸ ha)
    refine ⟨r.le_between (fun s ↦ (s.servers i).commitIndex) hjk fun l a hjl hlk ha ↦ ?_,
      r.le_between (fun s ↦ (s.servers i).lastApplied) hjk fun l a hjl hlk ha ↦ ?_⟩
    · obtain ⟨extra, hstep⟩ := hforward l a hjl hlk ha
      exact hstep.commit_le
    · obtain ⟨extra, hstep⟩ := hforward l a hjl hlk ha
      exact hstep.applied_le

end Runs

/-! ### A new leader that goes back -/

section Examples

open scoped Archive

/-- Server 1 has committed and applied the first entry when it leads, and its first `Start` finds no
majority: `matchIndex` is zero. -/
def lostCommit : List (Action 2) :=
  firstCommit ++ [.start 1 "y"]

def lostCommitRun : Run (raft 2) :=
  Run.ofActions (raft 2) lostCommit (by decide +kernel)

/-- From commit index 1 to 0, with lastApplied at 1. -/
theorem commitOrder_lostCommit : ∃ r : Run (raft 2), ¬ CommitOrder r := by
  refine ⟨lostCommitRun, fun horder ↦ ?_⟩
  have happlied : ((lostCommitRun.state 15).servers 1).lastApplied = 1 := by decide +kernel
  have hcommit : ((lostCommitRun.state 15).servers 1).commitIndex = 0 := by decide +kernel
  have hle := horder.1 15 1
  omega

/-- The run up to the second election meets the condition. -/
theorem commitOrder_firstCommit : CommitOrder firstCommitRun :=
  commitOrder firstCommitRun (by rw [firstCommitRun, Run.obeys_ofActions_iff]; decide +kernel)

end Examples

end Rsylar
