import Rsylar.Raft.BackOff
import Rsylar.Raft.QuorumCommit

/-!
# The bounds of the next indices

What a leader takes its peers to hold is within its log: that the next index of a peer is not beyond
the end of the log and `matchIndex` within it are known from the commits (`LeaderInv.assumed_le`).
Here the next indices are found to be at least 1. A refusal names an index that is at least 1, unless
it refuses a request at index 0; and such a request is not refused, since nobody has another term at
index 0 (`Raft.Rooted`). So no check of a heartbeat fails, and none of an answer to it.
-/

set_option autoImplicit false
set_option relaxedAutoImplicit false

namespace Rsylar

open TextArchive TransitionSystem Consensus

variable {n : ℕ}

namespace Raft

/-- Where nothing has been compacted the term before the first entry is 0. -/
def Rooted (r : Raft n) : Prop :=
  r.lastSnapshotIncludeIndex = 0 → r.lastSnapshotIncludeTerm = 0

/-- A leader's next indices are at least 1. -/
structure NextIndexInv (r : Raft n) : Prop where
  rooted : r.Rooted
  next_pos : r.status = .leader → ∀ peer, 1 ≤ r.nextIndex peer

variable {r r' : Raft n}

theorem NextIndexInv.of_same (h : r.NextIndexInv)
    (hlead : r'.status = .leader → r.status = .leader)
    (hsnapshot : r'.lastSnapshotIncludeIndex = r.lastSnapshotIncludeIndex)
    (hterm : r'.lastSnapshotIncludeTerm = r.lastSnapshotIncludeTerm)
    (hnext : r'.nextIndex = r.nextIndex) : r'.NextIndexInv where
  rooted := by
    intro hzero
    rw [hterm]
    exact h.rooted (hsnapshot ▸ hzero)
  next_pos := by
    intro hleads peer
    rw [hnext]
    exact h.next_pos (hlead hleads) peer

/-- A server that follows, at the same snapshot or a later one. -/
theorem NextIndexInv.of_follower (h : r.NextIndexInv) (hfollows : r'.status ≠ .leader)
    (hsnapshot : (r'.lastSnapshotIncludeIndex = r.lastSnapshotIncludeIndex ∧
      r'.lastSnapshotIncludeTerm = r.lastSnapshotIncludeTerm) ∨
        0 < r'.lastSnapshotIncludeIndex) : r'.NextIndexInv where
  rooted := by
    intro hzero
    rcases hsnapshot with ⟨hindex, hterm⟩ | hpos
    · rw [hterm]
      exact h.rooted (hindex ▸ hzero)
    · omega
  next_pos := fun hleads ↦ absurd hleads hfollows

/-! ### The handlers -/

/-- The next index that a peer gets from an answer. -/
theorem NextIndexInv.setMatchIndex (h : r.NextIndexInv) (server : Fin n) (index : ℕ) :
    (r.setMatchIndex server index).NextIndexInv where
  rooted := h.rooted
  next_pos := by
    intro hleads peer
    show 1 ≤ Function.update r.nextIndex server (index + 1) peer
    by_cases hpeer : peer = server
    · rw [hpeer, Function.update_self]
      exact Nat.succ_pos index
    · rw [Function.update_of_ne hpeer]
      exact h.next_pos hleads peer

theorem NextIndexInv.sendAppendEntries (h : r.NextIndexInv) {server : Fin n}
    {args : AppendEntriesArgs n} {reply : AppendEntriesReply} {appendNums appendNums' : ℕ}
    (hupdate : reply.success = false → ∀ index, reply.updateNextIndex = some index → 1 ≤ index)
    (hr : r.sendAppendEntries server args reply appendNums = .ok (r', appendNums')) :
    r'.NextIndexInv := by
  rcases sendAppendEntries_cases hr with ⟨rfl, -⟩ | ⟨-, -, rfl, -⟩ |
    ⟨-, -, hfail, -, index, hindex, rfl⟩ | ⟨-, -, -, reached, -, -, hcases⟩
  · exact h
  · exact h.of_follower nofun (.inl ⟨rfl, rfl⟩)
  · refine ⟨h.rooted, fun hleads peer ↦ ?_⟩
    show 1 ≤ Function.update r.nextIndex server index peer
    by_cases hpeer : peer = server
    · rw [hpeer, Function.update_self]
      exact hupdate hfail index hindex
    · rw [Function.update_of_ne hpeer]
      exact h.next_pos hleads peer
  · rcases hcases with ⟨rfl, -⟩ | ⟨-, -, -, rfl⟩
    · exact h.setMatchIndex server reached
    · exact (h.setMatchIndex server reached).of_same id rfl rfl rfl

theorem NextIndexInv.getApplyLogs (h : r.NextIndexInv) {msgs : List ApplyMsg}
    (hr : r.getApplyLogs = .ok (r', msgs)) : r'.NextIndexInv := by
  obtain ⟨rfl, -⟩ := getApplyLogs_cases hr
  exact h.of_same id rfl rfl rfl

section Handlers

variable [Codec LogEntry] [Codec (BoostPersistRaftNode n)]

/-- A new leader starts behind the end of its log. -/
theorem NextIndexInv.doElection (h : r.NextIndexInv) (me : Fin n) :
    (r.doElection me).1.NextIndexInv := by
  rcases r.doElection_cases me with ⟨-, heq⟩ | ⟨-, -, heq⟩ | ⟨-, -, heq⟩ <;> rw [heq]
  · exact h
  · exact ⟨h.rooted, fun _ _ ↦ Nat.succ_pos _⟩
  · exact h.of_follower nofun (.inl ⟨rfl, rfl⟩)

theorem NextIndexInv.requestVote (h : r.NextIndexInv) {args : RequestVoteArgs n}
    {reply : RequestVoteReply} (hr : r.requestVote args = .ok (r', reply)) : r'.NextIndexInv := by
  have hleads : r'.status = .leader → r.status = .leader :=
    fun hlead ↦ ((quiet_requestVote hr).leads hlead).1
  rcases requestVote_cases hr with ⟨-, rfl, -⟩ | ⟨-, rfl, -⟩ | ⟨-, -, -, rfl, -⟩
  · exact h.of_same hleads rfl rfl rfl
  · exact h.of_same hleads (r.enterTerm_lastSnapshotIncludeIndex _)
      (r.enterTerm_lastSnapshotIncludeTerm _) (by unfold enterTerm; split <;> rfl)
  · exact h.of_same hleads (r.enterTerm_lastSnapshotIncludeIndex _)
      (r.enterTerm_lastSnapshotIncludeTerm _) (by unfold enterTerm; split <;> rfl)

theorem NextIndexInv.sendRequestVote (h : r.NextIndexInv) {reply : RequestVoteReply}
    {votedNum votedNum' : ℕ} (hr : r.sendRequestVote reply votedNum = .ok (r', votedNum')) :
    r'.NextIndexInv := by
  rcases sendRequestVote_cases hr with ⟨-, rfl, -⟩ | ⟨rfl, -⟩ | ⟨-, -, -, rfl, -⟩ |
    ⟨-, -, -, -, rfl, -⟩
  · exact h.of_follower nofun (.inl ⟨rfl, rfl⟩)
  · exact h
  · exact h
  · exact ⟨h.rooted, fun _ _ ↦ Nat.succ_pos _⟩

theorem NextIndexInv.start (h : r.NextIndexInv) {me : Fin n} {command : String}
    {result : Option (ℕ × ℕ)} (hr : r.start me command = .ok (r', result)) : r'.NextIndexInv := by
  rcases start_cases hr with ⟨-, rfl, -⟩ | ⟨-, e, q, found, -, rfl, -, rfl, -⟩
  · exact h
  · exact h.of_same id rfl rfl rfl

theorem NextIndexInv.appendEntries (h : r.NextIndexInv) {args : AppendEntriesArgs n}
    {reply : AppendEntriesReply} (hr : r.appendEntries args = .ok (r', reply)) :
    r'.NextIndexInv := by
  rcases appendEntries_cases hr with ⟨-, rfl, -⟩ | ⟨-, -, rfl⟩ | ⟨-, -, -, -, q, hq, -, rfl⟩
  · exact h
  · exact h.of_follower nofun (.inl ⟨r.enterTerm_lastSnapshotIncludeIndex _,
      r.enterTerm_lastSnapshotIncludeTerm _⟩)
  · have hsame := mergeEntries_logs hq
    refine h.of_follower ?_ (.inl ⟨?_, ?_⟩)
    · show q.status ≠ .leader
      rw [hsame]
      nofun
    · show q.lastSnapshotIncludeIndex = _
      rw [hsame]
      exact r.enterTerm_lastSnapshotIncludeIndex _
    · show q.lastSnapshotIncludeTerm = _
      rw [hsame]
      exact r.enterTerm_lastSnapshotIncludeTerm _

theorem NextIndexInv.snapshot (h : r.NextIndexInv) {index : ℕ} {data : String}
    (hr : r.snapshot index data = .ok r') : r'.NextIndexInv := by
  rcases snapshot_cases hr with rfl | ⟨hlt, -, e, logs, q, -, -, rfl, rfl⟩
  · exact h
  · exact ⟨fun hzero ↦ absurd hzero (Nat.zero_lt_of_lt hlt).ne', h.next_pos⟩

omit [Codec LogEntry] [Codec (BoostPersistRaftNode n)] in
theorem NextIndexInv.leaderSendSnapShot (h : r.NextIndexInv) (me : Fin n) :
    (r.leaderSendSnapShot me).1.NextIndexInv :=
  h.of_same id rfl rfl rfl

theorem NextIndexInv.leaderSendSnapShotReply (h : r.NextIndexInv) (server : Fin n)
    (args : InstallSnapshotRequest n) (reply : InstallSnapshotResponse) :
    (r.leaderSendSnapShotReply server args reply).NextIndexInv := by
  rcases r.leaderSendSnapShotReply_cases server args reply with heq | ⟨-, heq⟩ | ⟨-, -, -, heq⟩ <;>
    rw [heq]
  · exact h
  · exact h.of_follower nofun (.inl ⟨rfl, rfl⟩)
  · exact h.setMatchIndex server _

theorem NextIndexInv.installSnapshot (h : r.NextIndexInv) {args : InstallSnapshotRequest n}
    {reply : InstallSnapshotResponse} {msg : Option ApplyMsg}
    (hr : r.installSnapshot args = .ok (r', reply, msg)) : r'.NextIndexInv := by
  rcases installSnapshot_cases hr with ⟨-, rfl⟩ | ⟨p, hp, ⟨-, rfl⟩ | ⟨hlt, logs, q, -, rfl, rfl⟩⟩
  · exact h
  · refine h.of_follower nofun (.inl ?_)
    rcases hp with ⟨-, rfl⟩ | ⟨-, rfl⟩ <;> exact ⟨rfl, rfl⟩
  · exact h.of_follower nofun (.inr (Nat.zero_lt_of_lt hlt))

/-- A refusal names an index that is at least 1. -/
theorem Rooted.refused_pos (h : r.Rooted) (hshape : r.Shape) {args : AppendEntriesArgs n}
    {reply : AppendEntriesReply} {index : ℕ}
    (hentries : NumberedFrom args.prevLogIndex args.entries)
    (hprev : args.prevLogIndex = 0 → args.prevLogTerm = 0)
    (hr : r.appendEntries args = .ok (r', reply)) (hfail : reply.success = false)
    (hindex : reply.updateNextIndex = some index) : 1 ≤ index := by
  have hnumbered := hshape.numbered
  rcases Nat.lt_or_ge args.term r.currentTerm with hold | hterm
  · unfold appendEntries at hr
    simp only [if_pos hold] at hr
    cases hr
    cases hindex
  rcases Nat.lt_or_ge r.getLastLogIndex args.prevLogIndex with hbeyond | hlast
  · rw [appendEntries_beyond hterm hbeyond] at hr
    cases hr
    cases hindex
    exact Nat.succ_pos _
  rcases Nat.lt_or_ge args.prevLogIndex r.lastSnapshotIncludeIndex with hbelow | hle
  · rw [hnumbered.appendEntries_belowSnapshot hterm hbelow] at hr
    cases hr
  by_cases hmatch : r.getLogTermFromLogIndex args.prevLogIndex = .ok args.prevLogTerm
  · rw [hnumbered.appendEntries_merge hterm hshape.commit_le hentries hmatch] at hr
    split at hr
    · cases hr
      cases hfail
    · cases hr
  · obtain ⟨update, heq, hbeyond, -⟩ := hnumbered.appendEntries_mismatch hterm hle hlast hmatch
    rw [heq] at hr
    cases hr
    obtain rfl : update = index := Option.some.inj hindex
    rcases hbeyond with hlt | rfl
    · exact Nat.zero_lt_of_lt hlt
    · -- At index 0 the terms are both 0.
      by_contra hzero
      have hzero : args.prevLogIndex = 0 := by omega
      have hsnapshot : r.lastSnapshotIncludeIndex = 0 := by omega
      refine hmatch (getLogTermFromLogIndex_eq_ok.mpr (.inl ⟨by omega, by omega, ?_⟩))
      rw [h hsnapshot, hprev hzero]

end Handlers

/-- A request at index 0 has term 0 there. -/
theorem Rooted.heartBeatTo (h : r.Rooted) (hnumbered : r.Numbered) {me server : Fin n}
    {args : AppendEntriesArgs n} (hto : r.heartBeatTo me server = .ok (some args))
    (hzero : args.prevLogIndex = 0) : args.prevLogTerm = 0 := by
  obtain ⟨-, -, -, -, -, hprev⟩ := heartBeatTo_some hto
  rcases hprev with ⟨hindex, hterm⟩ | ⟨e, he, -⟩
  · rw [hterm]
    exact h (hindex.symm.trans hzero)
  · obtain ⟨hlt, -⟩ := hnumbered.entryAt_iff.mp he
    omega

/-! ### A leader within the bounds -/

/-- What the peers are taken to hold is within the log. -/
def BoundedIndices (r : Raft n) : Prop :=
  ∀ peer, 1 ≤ r.nextIndex peer ∧ r.nextIndex peer ≤ r.getLastLogIndex + 1 ∧
    r.matchIndex peer ≤ r.getLastLogIndex

theorem NextIndexInv.bounded (h : r.NextIndexInv) (hlead : r.status = .leader)
    (hassumed : ∀ peer, r.assumed peer ≤ r.getLastLogIndex + 1) : r.BoundedIndices := by
  intro peer
  have hpos := h.next_pos hlead peer
  have hle := hassumed peer
  unfold assumed at hle
  exact ⟨hpos, by omega, by omega⟩

/-- No check of a heartbeat fails. -/
theorem BoundedIndices.heartBeats_total (h : r.BoundedIndices) (hnumbered : r.Numbered)
    (me : Fin n) (servers : List (Fin n)) : ∃ sent, r.heartBeats me servers = .ok sent := by
  induction servers with
  | nil => exact ⟨[], rfl⟩
  | cons server servers ih =>
    obtain ⟨sent, hsent⟩ := ih
    obtain ⟨hone, hle, -⟩ := h server
    obtain ⟨request, hrequest⟩ : ∃ request, r.heartBeatTo me server = .ok request := by
      rcases hnumbered.heartBeatTo_total hone hle with ⟨-, heq⟩ | ⟨-, args, heq⟩
      · exact ⟨none, heq⟩
      · exact ⟨some args, heq⟩
    exact ⟨_, bind_eq_ok.mpr ⟨request, hrequest, bind_eq_ok.mpr ⟨sent, hsent, rfl⟩⟩⟩

theorem BoundedIndices.doHeartBeat_total (h : r.BoundedIndices) (hnumbered : r.Numbered)
    (hlead : r.status = .leader) (me : Fin n) : ∃ sent, r.doHeartBeat me = .ok (some sent) := by
  obtain ⟨sent, hsent⟩ :=
    h.heartBeats_total hnumbered me ((List.finRange n).filter (· ≠ me))
  refine ⟨sent, ?_⟩
  unfold doHeartBeat
  rw [if_pos hlead]
  exact bind_eq_ok.mpr ⟨sent, hsent, rfl⟩

/-- No check of an answer fails: a success for the leader's term is about an index of its log. -/
theorem sendAppendEntries_total (hcommit : r.commitIndex ≤ r.getLastLogIndex) {server : Fin n}
    {args : AppendEntriesArgs n} {reply : AppendEntriesReply}
    (hmatched : r.status = .leader → r.matchIndex server ≤ r.getLastLogIndex)
    (hend : r.status = .leader → reply.term = r.currentTerm → reply.success = true →
      args.prevLogIndex + args.entries.length ≤ r.getLastLogIndex) (appendNums : ℕ) :
    ∃ r' appendNums', r.sendAppendEntries server args reply appendNums = .ok (r', appendNums') := by
  unfold sendAppendEntries
  split
  · exact ⟨_, _, rfl⟩
  split
  · exact ⟨_, _, rfl⟩
  rename_i hlater
  split
  · exact ⟨_, _, rfl⟩
  rename_i hearlier
  split
  · exact ⟨_, _, rfl⟩
  rename_i hleads
  have hlead : r.status = .leader := not_not.mp hleads
  have hterm : reply.term = r.currentTerm := by omega
  by_cases hsuccess : reply.success = true
  · have hlast := hend hlead hterm hsuccess
    have hmatch := hmatched hlead
    have hreached : max (r.matchIndex server) (args.prevLogIndex + args.entries.length) + 1 ≤
        r.getLastLogIndex + 1 := by omega
    rw [if_neg (not_not.mpr hsuccess)]
    by_cases hmajority : 1 + n / 2 ≤ appendNums + 1
    · simp only [if_pos hmajority]
      refine ⟨_, 0, bind_eq_ok.mpr ⟨(), myAssert_eq_ok.mpr hterm, bind_eq_ok.mpr
        ⟨(), myAssert_eq_ok.mpr hreached, bind_eq_ok.mpr ⟨(), myAssert_eq_ok.mpr ?_, rfl⟩⟩⟩⟩
      split
      · exact max_le hcommit hlast
      · exact hcommit
    · simp only [if_neg hmajority]
      exact ⟨_, _, bind_eq_ok.mpr ⟨(), myAssert_eq_ok.mpr hterm, bind_eq_ok.mpr
        ⟨(), myAssert_eq_ok.mpr hreached, rfl⟩⟩⟩
  · rw [if_pos hsuccess]
    cases reply.updateNextIndex with
    | none => exact ⟨_, _, bind_eq_ok.mpr ⟨(), myAssert_eq_ok.mpr hterm, rfl⟩⟩
    | some index => exact ⟨_, _, bind_eq_ok.mpr ⟨(), myAssert_eq_ok.mpr hterm, rfl⟩⟩

end Raft

/-! ### The invariant -/

structure NextInv (s : Cluster n) : Prop where
  servers : ∀ i, (s.servers i).NextIndexInv
  requests : ∀ round ∈ s.heartbeats, ∀ peer args, (peer, args) ∈ round.requests →
    args.prevLogIndex = 0 → args.prevLogTerm = 0
  /-- A refusal in flight names an index that is at least 1. -/
  replies : ∀ round ∈ s.heartbeats, ∀ peer reply, (peer, reply) ∈ round.replies →
    reply.success = false → ∀ index, reply.updateNextIndex = some index → 1 ≤ index

section Step

variable [Codec LogEntry] [Codec (BoostPersistRaftNode n)] {s s' : Cluster n}

namespace NextInv

omit [Codec LogEntry] [Codec (BoostPersistRaftNode n)] in
theorem initial : NextInv (Cluster.initial : Cluster n) where
  servers := fun _ ↦ ⟨fun _ ↦ rfl, nofun⟩
  requests := fun round hround ↦ by cases hround
  replies := fun round hround ↦ by cases hround

omit [Codec LogEntry] [Codec (BoostPersistRaftNode n)] in
/-- A server in the place of another, when the heartbeats stay. -/
theorem setServer (h : NextInv s) {i : Fin n} {r : Raft n} (hr : r.NextIndexInv)
    (hservers : s'.servers = (s.setServer i r).servers) (hrounds : s'.heartbeats = s.heartbeats) :
    NextInv s' where
  servers := by
    intro j
    rw [hservers]
    by_cases hj : j = i
    · subst hj
      simpa only [Cluster.setServer, Function.update_self] using hr
    · simpa only [Cluster.setServer, Function.update_of_ne hj] using h.servers j
  requests := fun round hround ↦ h.requests round (hrounds ▸ hround)
  replies := fun round hround ↦ h.replies round (hrounds ▸ hround)

omit [Codec LogEntry] [Codec (BoostPersistRaftNode n)] in
/-- A heartbeat in the place of another. -/
theorem setRound (h : NextInv s) {k : ℕ} {round : AppendRound n}
    (hround : s.heartbeats[k]? = some round) {i : Fin n} {r : Raft n} (hr : r.NextIndexInv)
    {round' : AppendRound n} (hrequests : round'.requests = round.requests)
    (hreplies : ∀ peer reply, (peer, reply) ∈ round'.replies → reply.success = false →
      ∀ index, reply.updateNextIndex = some index → 1 ≤ index) :
    NextInv { s.setServer i r with heartbeats := s.heartbeats.set k round' } where
  servers := by
    have hset : NextInv (s.setServer i r) := h.setServer hr rfl rfl
    exact hset.servers
  requests := by
    intro a ha
    rcases List.mem_or_eq_of_mem_set ha with ha | rfl
    · exact h.requests a ha
    · rw [hrequests]
      exact h.requests round (List.mem_of_getElem? hround)
  replies := by
    intro a ha
    rcases List.mem_or_eq_of_mem_set ha with ha | rfl
    · exact h.replies a ha
    · exact hreplies

/-- What one step preserves. -/
theorem step (h : NextInv s) (hshape : ShapeInv s) {a : Action n} (ha : NoRestart s a)
    (hstep : s.step a = some s') : NextInv s' := by
  cases Cluster.step_cases hstep with
  | exit i e _ => exact ⟨h.servers, h.requests, h.replies⟩
  | doElection i r request hr =>
    have hserver := (h.servers i).doElection i
    rw [hr] at hserver
    exact h.setServer hserver rfl rfl
  | requestVote k peer round r reply _ _ hr =>
    exact h.setServer ((h.servers peer).requestVote hr) rfl rfl
  | sendRequestVote k peer reply round r votedNum _ _ _ hr =>
    exact h.setServer ((h.servers round.caller).sendRequestVote hr) rfl rfl
  | start i command r result hr => exact h.setServer ((h.servers i).start hr) rfl rfl
  | doHeartBeat_idle i _ => exact h
  | doHeartBeat i sent hr =>
    refine ⟨h.servers, fun round hround ↦ ?_, fun round hround ↦ ?_⟩
    · rcases List.mem_append.mp hround with hold | hnew
      · exact h.requests round hold
      · rw [List.mem_singleton.mp hnew]
        intro peer args hmem hzero
        obtain ⟨-, -, hto⟩ := heartBeatTo_of_begin hr hmem
        exact (h.servers i).rooted.heartBeatTo (hshape.servers i).numbered hto hzero
    · rcases List.mem_append.mp hround with hold | hnew
      · exact h.replies round hold
      · rw [List.mem_singleton.mp hnew]
        exact fun peer reply hmem ↦ absurd hmem List.not_mem_nil
  | appendEntries k peer round args r reply hround hargs hr =>
    have hmem := List.mem_of_getElem? hround
    refine h.setRound hround ((h.servers peer).appendEntries hr) rfl fun p answer hanswer ↦ ?_
    rcases List.mem_append.mp hanswer with hold | hnew
    · exact h.replies round hmem p answer hold
    · cases List.mem_singleton.mp hnew
      intro hfail index hindex
      exact (h.servers peer).rooted.refused_pos (hshape.servers peer)
        (hshape.requests round hmem peer args (mem_of_lookup hargs)).2
        (h.requests round hmem peer args (mem_of_lookup hargs)) hr hfail hindex
  | sendAppendEntries k peer reply round args r appendNums hround hargs _ hreply hr =>
    have hmem := List.mem_of_getElem? hround
    exact h.setRound hround ((h.servers round.caller).sendAppendEntries
      (h.replies round hmem peer reply hreply) hr) rfl (h.replies round hmem)
  | getApplyLogs i r msgs hr => exact h.setServer ((h.servers i).getApplyLogs hr) rfl rfl
  | applierPush i msg msgs _ => exact ⟨h.servers, h.requests, h.replies⟩
  | snapshot i index data r hr => exact h.setServer ((h.servers i).snapshot hr) rfl rfl
  | leaderSendSnapShot k i peer r args _ hr =>
    have hserver := (h.servers i).leaderSendSnapShot i
    rw [hr] at hserver
    exact h.setServer hserver rfl rfl
  | installSnapshot k call r reply msg _ hr =>
    exact h.setServer ((h.servers call.server).installSnapshot hr) rfl rfl
  | leaderSendSnapShotReply k reply call r _ _ _ hr =>
    cases hr
    exact h.setServer ((h.servers call.caller).leaderSendSnapShotReply _ _ _) rfl rfl
  | pushMsgToKvServer i k msg _ => exact ⟨h.servers, h.requests, h.replies⟩
  | restart i r data _ => exact ha.elim

end NextInv

end Step

/-! ### The bounds in every run -/

section Runs

variable [Codec LogEntry] [Codec (BoostPersistRaftNode n)]

theorem nextInv_run (r : Run (raft n)) (hr : r.Obeys NoRestart) (k : ℕ) : NextInv (r.state k) := by
  induction k with
  | zero =>
    rw [r.state_zero]
    exact NextInv.initial
  | succ k ih =>
    cases ha : r.act k with
    | none =>
      rw [r.pause k ha]
      exact ih
    | some a => exact ih.step (shapeInv_run r k) (hr k a ha) (r.next k a ha)

/-- The answer `reply` of `peer` can be handled by server `i`, which counts `appendNums` successes
so far. -/
def RoundAnswered (s : Cluster n) (i peer : Fin n) (args : AppendEntriesArgs n)
    (reply : AppendEntriesReply) (appendNums : ℕ) : Prop :=
  ∃ round ∈ s.heartbeats, round.caller = i ∧ round.appendNums = appendNums ∧
    round.requests.lookup peer = some args ∧ peer ∈ round.pending ∧ (peer, reply) ∈ round.replies

/-- What a leader takes its peers to hold is within its log. It finds the entry in front of the next
index of every peer that is not to get the snapshot, and no check fails when it sends a heartbeat
or handles an answer. -/
structure LeaderBounds (s : Cluster n) (i : Fin n) : Prop where
  bounded : (s.servers i).BoundedIndices
  getPrevLogInfo : ∀ peer, (s.servers i).lastSnapshotIncludeIndex < (s.servers i).nextIndex peer →
    ∃ info, (s.servers i).getPrevLogInfo peer = .ok info
  doHeartBeat : ∃ sent, (s.servers i).doHeartBeat i = .ok (some sent)
  sendAppendEntries : ∀ peer args reply appendNums, RoundAnswered s i peer args reply appendNums →
    ∃ result, (s.servers i).sendAppendEntries peer args reply appendNums = .ok result

/-- The bounds hold of every leader in every run without restarts. -/
theorem leaderBounds (r : Run (raft n)) (hr : r.Obeys NoRestart) (k : ℕ) (i : Fin n)
    (hlead : ((r.state k).servers i).status = .leader) : LeaderBounds (r.state k) i := by
  have hshape := (shapeInv_run r k).servers i
  have hquorum := quorumInv_run r hr k
  have hbounded := ((nextInv_run r hr k).servers i).bounded hlead
    (hquorum.leaders i hlead).assumed_le
  refine ⟨hbounded, fun peer hlt ↦ ?_, hbounded.doHeartBeat_total hshape.numbered hlead i, ?_⟩
  · obtain ⟨term, hinfo⟩ := hshape.numbered.getPrevLogInfo_total hlt (hbounded peer).2.1
    exact ⟨_, hinfo⟩
  · rintro peer args reply appendNums ⟨round, hround, rfl, rfl, hargs, -, hreply⟩
    -- A success answers a request of the leader's term, which ends within its log.
    have hend : reply.term = ((r.state k).servers round.caller).currentTerm →
        reply.success = true → args.prevLogIndex + args.entries.length ≤
          ((r.state k).servers round.caller).getLastLogIndex := by
      intro hterm hsuccess
      obtain ⟨hsame, -⟩ :=
        (hquorum.rounds round hround).accepted peer args reply hargs hreply hsuccess
      exact (hquorum.requests round hround peer args (mem_of_lookup hargs) hlead
        (hterm.symm.trans hsame)).end_le
    obtain ⟨r', appendNums', heq⟩ := Raft.sendAppendEntries_total hshape.commit_le
      (fun _ ↦ (hbounded peer).2.2) (fun _ ↦ hend) round.appendNums
    exact ⟨_, heq⟩

end Runs

section Examples

open scoped Archive

theorem leaderBounds_firstCommit :
    ((firstCommitRun.state 7).servers 0).status = .leader ∧
      LeaderBounds (firstCommitRun.state 7) 0 := by
  have hlead : ((firstCommitRun.state 7).servers 0).status = .leader := by decide +kernel
  exact ⟨hlead, leaderBounds firstCommitRun firstCommitRun_noRestart 7 0 hlead⟩

end Examples

end Rsylar
