import Rsylar.Raft.IndexOrder
import Rsylar.Raft.StateMachineSafety

/-!
# The two commit rules

A leader commits in two ways. `Start` looks at `matchIndex` and commits the largest index of its
term that a majority has reached; `sendAppendEntries` counts the successes of one heartbeat, and
commits the request that completes a majority when that request ends in the present term. The second
rule leaves an entry behind when its majority comes from different heartbeats. As long as each
success that gives an index its majority also completes a majority of its own heartbeat
(`RoundCommits`), the leader has committed every index of its term that a majority has reached
(`CoverInv`), and the rules agree (`commitCompleteness`). In `splitRoundsRun` five servers hold an
entry of the leader's term on three of them, and the leader has not committed it.
-/

set_option autoImplicit false
set_option relaxedAutoImplicit false

namespace Rsylar

open TextArchive TransitionSystem

variable {n : ℕ}

/-! ### What a leader has to commit -/

namespace Raft

/-- A leader has committed the indices of its term that a majority has reached. -/
def CommitsCovered (r : Raft n) (me : Fin n) : Prop :=
  r.status = .leader → ∀ index, r.commitIndex < index →
    r.getLogTermFromLogIndex index = .ok r.currentTerm → ¬ r.reachedByMajority me index

/-- Has a majority reached `index` once `server` is known to have reached `last`? -/
def ReachedWith (r : Raft n) (me server : Fin n) (last index : ℕ) : Prop :=
  n / 2 + 1 ≤ (Finset.univ.filter fun i ↦
    i = me ∨ index ≤ r.matchIndex i ∨ (i = server ∧ index ≤ last)).card

instance (r : Raft n) (me server : Fin n) (last index : ℕ) :
    Decidable (r.ReachedWith me server last index) :=
  inferInstanceAs (Decidable (_ ≤ _))

/-- If the answer of `server` gives an index of the present term its majority, then it completes a
majority of its heartbeat, and its request ends in the present term. -/
def RoundCovers (r : Raft n) (me server : Fin n) (args : AppendEntriesArgs n) (appendNums : ℕ) :
    Prop :=
  (∃ index, index ≤ r.getLastLogIndex ∧ r.commitIndex < index ∧
      r.getLogTermFromLogIndex index = .ok r.currentTerm ∧
      r.ReachedWith me server (args.prevLogIndex + args.entries.length) index) →
    n / 2 + 1 ≤ appendNums + 1 ∧
      args.entries.getLast?.map LogEntry.logTerm = some r.currentTerm

instance (r : Raft n) (me server : Fin n) (args : AppendEntriesArgs n) (appendNums : ℕ) :
    Decidable (r.RoundCovers me server args appendNums) :=
  inferInstanceAs (Decidable ((∃ index, index ≤ _ ∧ _) → _))

variable {r r' : Raft n} {me : Fin n}

theorem reachedByMajority_setMatchIndex {server : Fin n} {last index : ℕ} :
    (r.setMatchIndex server (max (r.matchIndex server) last)).reachedByMajority me index ↔
      r.ReachedWith me server last index := by
  unfold reachedByMajority ReachedWith
  have hsame : ∀ i, (i = me ∨ index ≤ (r.setMatchIndex server
      (max (r.matchIndex server) last)).matchIndex i) ↔
      (i = me ∨ index ≤ r.matchIndex i ∨ (i = server ∧ index ≤ last)) := by
    intro i
    by_cases hi : i = server
    · subst hi
      simp
    · simp [hi]
  simp only [hsame]

/-- An index below which only the leader counts is not reached. -/
theorem not_reachedByMajority_of_zero (hn : 2 ≤ n) (hzero : ∀ i, r.matchIndex i = 0) {index : ℕ}
    (hpos : 0 < index) : ¬ r.reachedByMajority me index := by
  unfold reachedByMajority
  have hself : (Finset.univ.filter fun i ↦ i = me ∨ index ≤ r.matchIndex i) = {me} := by
    ext i
    simp [hzero i, hpos.ne']
  rw [hself, Finset.card_singleton]
  omega

theorem getLogTermFromLogIndex_le {index term : ℕ}
    (h : r.getLogTermFromLogIndex index = .ok term) : index ≤ r.getLastLogIndex := by
  rcases getLogTermFromLogIndex_eq_ok.mp h with ⟨-, hle, -⟩ | ⟨e, he, -⟩
  · exact hle
  · exact (entryAt_eq_ok.mp he).2.1

theorem commitsCovered_of_not_leader (h : r.status ≠ .leader) : r.CommitsCovered me :=
  fun hlead ↦ absurd hlead h

/-- A leader that looks at the same log, the same commit index and the same `matchIndex`. -/
theorem CommitsCovered.of_same (h : r.CommitsCovered me)
    (hlead : r'.status = .leader → r.status = .leader ∧ r.currentTerm = r'.currentTerm)
    (hlogs : r'.logs = r.logs) (hsnapshot : r'.lastSnapshotIncludeIndex = r.lastSnapshotIncludeIndex)
    (hsnapshotTerm : r'.lastSnapshotIncludeTerm = r.lastSnapshotIncludeTerm)
    (hcommit : r'.commitIndex = r.commitIndex) (hmatch : r'.matchIndex = r.matchIndex) :
    r'.CommitsCovered me := by
  intro hleads index hlt hterm hreached
  obtain ⟨hled, hsame⟩ := hlead hleads
  rw [getLogTermFromLogIndex_congr hlogs hsnapshot hsnapshotTerm, ← hsame] at hterm
  unfold reachedByMajority at hreached
  rw [hmatch] at hreached
  exact h hled index (hcommit ▸ hlt) hterm hreached

/-! ### The handlers of a leader -/

theorem CommitsCovered.sendAppendEntries (h : r.CommitsCovered me) {server : Fin n}
    {args : AppendEntriesArgs n} {reply : AppendEntriesReply} {appendNums appendNums' : ℕ}
    (hcovers : r.status = .leader → reply.term = r.currentTerm → reply.success = true →
      r.RoundCovers me server args appendNums)
    (hr : r.sendAppendEntries server args reply appendNums = .ok (r', appendNums')) :
    r'.CommitsCovered me := by
  rcases sendAppendEntries_cases hr with ⟨rfl, -⟩ | ⟨-, -, rfl, -⟩ |
    ⟨-, -, -, -, index, -, rfl⟩ | ⟨hlead, hterm, hsuccess, reached, rfl, -, hcases⟩
  · exact h
  · exact commitsCovered_of_not_leader nofun
  · exact h.of_same (fun hlead ↦ ⟨hlead, rfl⟩) rfl rfl rfl rfl rfl
  · have hcovers := hcovers hlead hterm hsuccess
    rcases hcases with ⟨rfl, -, hnot⟩ | ⟨-, -, -, rfl⟩
    · -- Nothing is committed, so the answer gives no index its majority.
      intro _ index hlt hat hreached
      obtain ⟨hmajority, hends⟩ := hcovers ⟨index, getLogTermFromLogIndex_le hat, hlt, hat,
        reachedByMajority_setMatchIndex.mp hreached⟩
      exact hnot hmajority hends
    · -- Beyond the request the answer counts for nothing.
      intro _ index hlt hat hreached
      have hlt : max r.commitIndex (args.prevLogIndex + args.entries.length) < index := hlt
      refine h hlead index (by omega) hat ?_
      have hwith : r.ReachedWith me server (args.prevLogIndex + args.entries.length) index :=
        reachedByMajority_setMatchIndex.mp hreached
      refine le_trans hwith (Finset.card_le_card fun i hi ↦ ?_)
      simp only [Finset.mem_filter, Finset.mem_univ, true_and] at hi ⊢
      omega

theorem CommitsCovered.getApplyLogs (h : r.CommitsCovered me) {msgs : List ApplyMsg}
    (hr : r.getApplyLogs = .ok (r', msgs)) : r'.CommitsCovered me := by
  obtain ⟨rfl, -⟩ := getApplyLogs_cases hr
  exact h.of_same (fun hlead ↦ ⟨hlead, rfl⟩) rfl rfl rfl rfl rfl

theorem CommitsCovered.leaderSendSnapShot (h : r.CommitsCovered me) (i : Fin n) :
    (r.leaderSendSnapShot i).1.CommitsCovered me :=
  h.of_same (fun hlead ↦ ⟨hlead, rfl⟩) rfl rfl rfl rfl rfl

variable [Codec LogEntry] [Codec (BoostPersistRaftNode n)]

theorem CommitsCovered.doElection (h : r.CommitsCovered me) (hn : 2 ≤ n) (i : Fin n) :
    (r.doElection i).1.CommitsCovered me := by
  rcases r.doElection_cases i with ⟨-, heq⟩ | ⟨-, hone, -⟩ | ⟨-, -, heq⟩
  · rw [heq]
    exact h
  · omega
  · rw [heq]
    exact commitsCovered_of_not_leader nofun

theorem CommitsCovered.requestVote (h : r.CommitsCovered me) {args : RequestVoteArgs n}
    {reply : RequestVoteReply} (hr : r.requestVote args = .ok (r', reply)) :
    r'.CommitsCovered me := by
  have hleads := (quiet_requestVote hr).leads
  rcases requestVote_cases hr with ⟨-, rfl, -⟩ | ⟨-, rfl, -⟩ | ⟨-, -, -, rfl, -⟩
  · exact h.of_same hleads rfl rfl rfl rfl rfl
  · exact h.of_same hleads (by simp) (by simp) (by simp) (by simp)
      (by unfold enterTerm; split <;> rfl)
  · exact h.of_same hleads (r.enterTerm_logs _) (r.enterTerm_lastSnapshotIncludeIndex _)
      (r.enterTerm_lastSnapshotIncludeTerm _) (r.enterTerm_commitIndex _)
      (by unfold enterTerm; split <;> rfl)

/-- A new leader knows of nobody. -/
theorem CommitsCovered.sendRequestVote (h : r.CommitsCovered me) (hn : 2 ≤ n)
    {reply : RequestVoteReply} {votedNum votedNum' : ℕ}
    (hr : r.sendRequestVote reply votedNum = .ok (r', votedNum')) : r'.CommitsCovered me := by
  rcases sendRequestVote_cases hr with ⟨-, rfl, -⟩ | ⟨rfl, -⟩ | ⟨-, -, -, rfl, -⟩ |
    ⟨-, -, -, -, rfl, -⟩
  · exact commitsCovered_of_not_leader nofun
  · exact h
  · exact h
  · exact fun _ index hlt _ ↦ not_reachedByMajority_of_zero hn (fun i ↦ rfl) (by omega)

/-- The rule of `Start` leaves nothing behind. -/
theorem CommitsCovered.start (h : r.CommitsCovered me) {i : Fin n} (hi : i = me) {command : String}
    {result : Option (ℕ × ℕ)} (hr : r.start i command = .ok (r', result)) :
    r'.CommitsCovered me := by
  subst hi
  rcases start_cases hr with ⟨-, rfl, -⟩ | ⟨-, e, q, found, -, rfl, hfound, rfl, -⟩
  · exact h
  · intro _ index hlt hat hreached
    have hsnapshot : r.lastSnapshotIncludeIndex < index := by
      cases found with
      | none => exact hlt
      | some found => exact (committableUpTo_some hfound).1.trans hlt
    obtain ⟨largest, rfl, hle⟩ := le_committableUpTo hfound (getLogTermFromLogIndex_le hat)
      hsnapshot hreached hat
    exact absurd hle (not_le_of_gt hlt)

theorem CommitsCovered.appendEntries (h : r.CommitsCovered me) {args : AppendEntriesArgs n}
    {reply : AppendEntriesReply} (hr : r.appendEntries args = .ok (r', reply)) :
    r'.CommitsCovered me := by
  rcases appendEntries_cases hr with ⟨-, rfl, -⟩ | ⟨-, -, rfl⟩ | ⟨-, -, -, -, q, hq, -, rfl⟩
  · exact h
  · exact commitsCovered_of_not_leader nofun
  · refine commitsCovered_of_not_leader ?_
    show q.status ≠ .leader
    rw [mergeEntries_logs hq]
    nofun

theorem CommitsCovered.snapshot (h : r.CommitsCovered me) (hnumbered : r.Numbered) {index : ℕ}
    {data : String} (hr : r.snapshot index data = .ok r') : r'.CommitsCovered me := by
  obtain ⟨hle, -, hlogs⟩ := snapshot_logs hnumbered hr
  have hnumbered' := (logStep_snapshot hnumbered hr).numbered
  have hfind := fun index e ↦ @entryAt_of_drop _ _ _ hnumbered hnumbered' hle hlogs index e
  rcases snapshot_cases hr with rfl | ⟨-, -, e, logs, q, -, -, rfl, rfl⟩
  · exact h
  · intro hlead j hlt hat hreached
    have hlt : max r.commitIndex index < j := hlt
    refine h hlead j (by omega) ?_ hreached
    rcases getLogTermFromLogIndex_eq_ok.mp hat with ⟨heq, -, -⟩ | ⟨a, ha, hterm⟩
    · have heq : j = index := heq
      omega
    · exact getLogTermFromLogIndex_eq_ok.mpr (Or.inr ⟨a, hfind j a ha, hterm⟩)

/-- An answer to a snapshot says nothing about indices beyond what is committed. -/
theorem CommitsCovered.leaderSendSnapShotReply (h : r.CommitsCovered me) {server : Fin n}
    {args : InstallSnapshotRequest n} (hle : args.lastSnapshotIncludeIndex ≤ r.commitIndex)
    (reply : InstallSnapshotResponse) :
    (r.leaderSendSnapShotReply server args reply).CommitsCovered me := by
  rcases r.leaderSendSnapShotReply_cases server args reply with heq | ⟨-, heq⟩ | ⟨hlead, -, -, heq⟩
  · rw [heq]
    exact h
  · rw [heq]
    exact commitsCovered_of_not_leader nofun
  · rw [heq]
    intro _ index hlt hat hreached
    have hlt : r.commitIndex < index := hlt
    refine h hlead index hlt hat (le_trans hreached (Finset.card_le_card fun i hi ↦ ?_))
    simp only [Finset.mem_filter, Finset.mem_univ, true_and, setMatchIndex_matchIndex,
      Function.update_apply] at hi ⊢
    split at hi <;> omega

theorem CommitsCovered.installSnapshot (h : r.CommitsCovered me) {args : InstallSnapshotRequest n}
    {reply : InstallSnapshotResponse} {msg : Option ApplyMsg}
    (hr : r.installSnapshot args = .ok (r', reply, msg)) : r'.CommitsCovered me := by
  rcases installSnapshot_cases hr with ⟨-, rfl⟩ | ⟨p, -, ⟨-, rfl⟩ | ⟨-, logs, q, -, rfl, rfl⟩⟩
  · exact h
  · exact commitsCovered_of_not_leader nofun
  · exact commitsCovered_of_not_leader nofun

end Raft

/-! ### The invariant -/

/-- Every leader has committed the indices of its term that a majority has reached. -/
def CoverInv (s : Cluster n) : Prop :=
  ∀ i, (s.servers i).CommitsCovered i

/-- A success at a leader that gives an index of its term a majority completes a majority of its
heartbeat. -/
def RoundCommits (s : Cluster n) : Action n → Prop
  | .sendAppendEntries k peer reply => ∀ round ∈ s.heartbeats[k]?,
    ∀ args ∈ round.requests.lookup peer, (s.servers round.caller).status = .leader →
      reply.term = (s.servers round.caller).currentTerm → reply.success = true →
      (s.servers round.caller).RoundCovers round.caller peer args round.appendNums
  | _ => True

instance : DecidableRel (RoundCommits : Cluster n → Action n → Prop) := fun s a ↦
  match a with
  | .sendAppendEntries k peer reply => inferInstanceAs (Decidable (∀ round ∈ s.heartbeats[k]?,
    ∀ args ∈ round.requests.lookup peer, (s.servers round.caller).status = .leader →
      reply.term = (s.servers round.caller).currentTerm → reply.success = true →
      (s.servers round.caller).RoundCovers round.caller peer args round.appendNums))
  | .doElection _ | .requestVote _ _ | .sendRequestVote _ _ _ | .start _ _ | .doHeartBeat _
  | .appendEntries _ _ | .getApplyLogs _ | .applierPush _ | .snapshot _ _ _
  | .leaderSendSnapShot _ | .installSnapshot _ | .leaderSendSnapShotReply _ _
  | .pushMsgToKvServer _ _ | .restart _ => .isTrue trivial

section Step

variable [Codec LogEntry] [Codec (BoostPersistRaftNode n)] {s s' : Cluster n}

namespace CoverInv

omit [Codec LogEntry] [Codec (BoostPersistRaftNode n)] in
theorem initial : CoverInv (Cluster.initial : Cluster n) :=
  fun _ ↦ Raft.commitsCovered_of_not_leader nofun

omit [Codec LogEntry] [Codec (BoostPersistRaftNode n)] in
theorem setServer (h : CoverInv s) {i : Fin n} {r : Raft n} (hr : r.CommitsCovered i)
    (j : Fin n) : ((s.setServer i r).servers j).CommitsCovered j := by
  by_cases hj : j = i
  · subst hj
    simpa only [Cluster.setServer, Function.update_self] using hr
  · simpa only [Cluster.setServer, Function.update_of_ne hj] using h j

/-- What one step preserves. -/
theorem step (h : CoverInv s) (hshape : ShapeInv s) (hn : 2 ≤ n) {a : Action n}
    (ha : RoundCommits s a) (hstep : s.step a = some s') : CoverInv s' := by
  intro j
  cases Cluster.step_cases hstep with
  | exit i e _ => exact h j
  | doElection i r request hr =>
    have hcovered := (h i).doElection hn i
    rw [hr] at hcovered
    exact h.setServer hcovered j
  | requestVote k peer round r reply _ _ hr =>
    exact h.setServer ((h peer).requestVote hr) j
  | sendRequestVote k peer reply round r votedNum _ _ _ hr =>
    exact h.setServer ((h _).sendRequestVote hn hr) j
  | start i command r result hr => exact h.setServer ((h i).start rfl hr) j
  | doHeartBeat_idle i _ => exact h j
  | doHeartBeat i sent _ => exact h j
  | appendEntries k peer round args r reply _ _ hr =>
    exact h.setServer ((h peer).appendEntries hr) j
  | sendAppendEntries k peer reply round args r appendNums hround hargs _ _ hr =>
    exact h.setServer ((h _).sendAppendEntries (ha round hround args hargs) hr) j
  | getApplyLogs i r msgs hr => exact h.setServer ((h i).getApplyLogs hr) j
  | applierPush i msg msgs _ => exact h j
  | snapshot i index data r hr =>
    exact h.setServer ((h i).snapshot (hshape.servers i).numbered hr) j
  | leaderSendSnapShot k i peer r args _ hr =>
    have hcovered := (h i).leaderSendSnapShot i
    rw [hr] at hcovered
    exact h.setServer hcovered j
  | installSnapshot k call r reply msg _ hr =>
    exact h.setServer ((h _).installSnapshot hr) j
  | leaderSendSnapShotReply k reply call r hcall hpending _ hr =>
    cases hr
    have hle := hshape.calls call (List.mem_of_getElem? hcall) hpending
    exact h.setServer ((h _).leaderSendSnapShotReply
      (hle.trans (hshape.servers _).snapshot_committed) reply) j
  | pushMsgToKvServer i k msg _ => exact h j
  | restart i r data hr =>
    by_cases hj : j = i
    · subst hj
      rw [Raft.restart_eq] at hr
      cases hr
      simp only [Cluster.replace, Function.update_self]
      exact Raft.commitsCovered_of_not_leader fun hlead ↦ by cases hlead
    · simpa only [Cluster.replace, Function.update_of_ne hj] using h j

end CoverInv

end Step

/-! ### The rules in every run -/

section Runs

variable [Codec LogEntry] [Codec (BoostPersistRaftNode n)]

theorem coverInv_run (r : Run (raft n)) (hr : r.Obeys RoundCommits) (hn : 2 ≤ n) (k : ℕ) :
    CoverInv (r.state k) := by
  induction k with
  | zero =>
    rw [r.state_zero]
    exact CoverInv.initial
  | succ k ih =>
    cases ha : r.act k with
    | none => rw [r.pause k ha]; exact ih
    | some a => exact ih.step (shapeInv_run r k) hn (hr k a ha) (r.next k a ha)

/-- After a leader has processed a successful answer to an append request it has committed the
indices of its term that a majority has reached. -/
def CommitCompleteness (r : Run (raft n)) : Prop :=
  ∀ k m peer reply round, r.act k = some (.sendAppendEntries m peer reply) →
    (r.state k).heartbeats[m]? = some round → reply.success = true →
    ((r.state (k + 1)).servers round.caller).status = .leader →
    ∀ index, ((r.state (k + 1)).servers round.caller).getLogTermFromLogIndex index =
        .ok ((r.state (k + 1)).servers round.caller).currentTerm →
      ((r.state (k + 1)).servers round.caller).reachedByMajority round.caller index →
      index ≤ ((r.state (k + 1)).servers round.caller).commitIndex

/-- Commit completeness. It holds in every run in which each success that gives an index of the
present term its majority completes a majority of its heartbeat. -/
theorem commitCompleteness (r : Run (raft n)) (hr : r.Obeys RoundCommits) :
    CommitCompleteness r := by
  intro k m peer reply round ha hround _ hlead index hat hreached
  -- The answer came from another server.
  have hn : 2 ≤ n := by
    obtain ⟨old, args, hold, hargs⟩ : ∃ old args, (r.state k).heartbeats[m]? = some old ∧
        old.requests.lookup peer = some args := by
      have hperform := r.next k _ ha
      simp only [raft, Cluster.step, Option.bind_eq_bind, Option.bind_eq_some_iff,
        Cluster.perform] at hperform
      obtain ⟨_, ⟨old, hold, args, hargs, -⟩, -⟩ := hperform
      exact ⟨old, args, hold, hargs⟩
    obtain ⟨hother, -⟩ := (shapeInv_run r k).requests old (List.mem_of_getElem? hold) peer args
      (mem_of_lookup hargs)
    have hcard : ({peer, old.caller} : Finset (Fin n)).card = 2 := Finset.card_pair hother
    have hle := Finset.card_le_univ ({peer, old.caller} : Finset (Fin n))
    rw [hcard, Fintype.card_fin] at hle
    exact hle
  by_contra hlt
  exact coverInv_run r hr hn (k + 1) round.caller hlead index (by omega) hat hreached

end Runs

/-! ### A majority from two heartbeats -/

section Examples

open scoped Archive

/-- Server 0 leads with the votes of 1 and 2. Server 1 answers its first heartbeat, server 2 the
second. -/
def splitRounds : List (Action 5) :=
  [.doElection 0, .requestVote 0 1, .sendRequestVote 0 1 (voteOf 1), .requestVote 0 2,
    .sendRequestVote 0 2 (voteOf 1), .start 0 "x",
    .doHeartBeat 0, .appendEntries 0 1, .sendAppendEntries 0 1 (accepted 1),
    .doHeartBeat 0, .appendEntries 1 2, .sendAppendEntries 1 2 (accepted 1)]

def splitRoundsRun : Run (raft 5) :=
  Run.ofActions (raft 5) splitRounds (by decide +kernel)

/-- The entry of term 1 is known to be on servers 0, 1 and 2, and the commit index is 0. -/
theorem commitCompleteness_splitRounds : ∃ r : Run (raft 5), ¬ CommitCompleteness r := by
  refine ⟨splitRoundsRun, fun hcomplete ↦ ?_⟩
  have hround : ∃ round, (splitRoundsRun.state 11).heartbeats[1]? = some round ∧ round.caller = 0 := by
    have hcaller : ((splitRoundsRun.state 11).heartbeats[1]?).map AppendRound.caller = some 0 := by
      decide +kernel
    exact Option.map_eq_some_iff.mp hcaller
  obtain ⟨round, hround, hcaller⟩ := hround
  have hle := hcomplete 11 1 2 (accepted 1) round rfl hround rfl
  rw [hcaller] at hle
  have hcommit : ((splitRoundsRun.state 12).servers 0).commitIndex = 0 := by decide +kernel
  have hone := hle (by decide +kernel) 1 (by decide +kernel) (by decide +kernel)
  rw [hcommit] at hone
  omega

/-- With two servers each success completes a majority. -/
theorem commitCompleteness_firstCommit : CommitCompleteness firstCommitRun :=
  commitCompleteness firstCommitRun (by rw [firstCommitRun, Run.obeys_ofActions_iff]; decide +kernel)

end Examples

end Rsylar
