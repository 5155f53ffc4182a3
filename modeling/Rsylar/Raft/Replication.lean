import Rsylar.Foundations.ReplicatedLog
import Rsylar.Raft.EntryIdentity

/-!
# Replication

The servers of a cluster without restarts and snapshots move as the peers of
`Consensus.ReplicaInv` do, with one exception: `AppendEntries` writes the entries of a request over
the log and leaves what follows them, so a log that disagrees with the request and is longer keeps a
tail that belongs to neither (`Raft.LeavesStaleTail`). In the runs in which that never happens every
handler is a `Consensus.Move`, and the invariant `ReplicationInv` adds what the messages and the
counters stand for: a vote request carries the last index and term of a candidate's log, the
requests of a heartbeat carry one log of a leader, its counter `appendNums` and the leader's
`matchIndex` count servers that have held that log, and the entries up to every `commitIndex` are
decided.
-/

set_option autoImplicit false
set_option relaxedAutoImplicit false

namespace Rsylar

open TextArchive TransitionSystem Consensus

variable {n : ℕ}

/-! ### The runs -/

/-- The condition of a run in which no process is replaced by a new one and no snapshot is taken. -/
def CoreOnly (_ : Cluster n) : Action n → Prop
  | .restart _ => False
  | .snapshot _ _ _ => False
  | _ => True

/-- The server accepts the request, an entry of it disagrees with the log, and the log reaches
beyond the request. -/
def Raft.LeavesStaleTail (r : Raft n) (args : AppendEntriesArgs n) : Prop :=
  r.currentTerm ≤ args.term ∧ r.matchLog args.prevLogIndex args.prevLogTerm = .ok true ∧
    args.prevLogIndex + args.entries.length < r.getLastLogIndex ∧
    ∃ log ∈ args.entries, r.getLogTermFromLogIndex log.logIndex ≠ .ok log.logTerm

/-- The condition of a run in which no request leaves a stale tail. -/
def NoStaleTail (s : Cluster n) : Action n → Prop
  | .appendEntries k peer => ∀ round ∈ s.heartbeats[k]?, ∀ args ∈ round.requests.lookup peer,
      ¬ (s.servers peer).LeavesStaleTail args
  | _ => True

instance (r : Raft n) (args : AppendEntriesArgs n) : Decidable (r.LeavesStaleTail args) :=
  inferInstanceAs (Decidable (_ ∧ _))

instance (s : Cluster n) : DecidablePred (NoStaleTail s) := fun a ↦
  match a with
  | .appendEntries k peer => inferInstanceAs (Decidable (∀ round ∈ s.heartbeats[k]?,
      ∀ args ∈ round.requests.lookup peer, ¬ (s.servers peer).LeavesStaleTail args))
  | .doElection _ | .requestVote _ _ | .sendRequestVote _ _ _ | .start _ _ | .doHeartBeat _
  | .sendAppendEntries _ _ _ | .getApplyLogs _ | .applierPush _ | .snapshot _ _ _
  | .leaderSendSnapShot _ | .installSnapshot _ | .leaderSendSnapShotReply _ _
  | .pushMsgToKvServer _ _ | .restart _ => isTrue trivial

theorem CoreOnly.noRestart {s : Cluster n} {a : Action n} (h : CoreOnly s a) : NoRestart s a := by
  cases a with
  | restart i => exact h
  | _ => trivial

/-! ### Logs without a snapshot -/

section Logs

variable {r : Raft n}

theorem getLastLogTerm_eq (h : r.lastSnapshotIncludeTerm = 0) :
    r.getLastLogTerm = lastTerm LogEntry.logTerm r.logs := by
  unfold Raft.getLastLogTerm Raft.getLastLogIndexAndTerm lastTerm
  cases r.logs.getLast? with
  | none => exact h
  | some e => rfl

theorem getLastLogIndex_eq_length (hnum : r.Numbered) (h : r.lastSnapshotIncludeIndex = 0) :
    r.getLastLogIndex = r.logs.length := by
  rw [hnum.getLastLogIndex_eq, h, Nat.zero_add]

/-- The entry with index `m + 1` is at position `m`. -/
theorem mem_logs_iff (hnum : r.Numbered) (h : r.lastSnapshotIncludeIndex = 0) {e : LogEntry} :
    e ∈ r.logs ↔ ∃ m, r.logs[m]? = some e ∧ e.logIndex = m + 1 := by
  constructor
  · intro he
    obtain ⟨m, hm⟩ := List.getElem?_of_mem he
    have hindex := hnum m e hm
    exact ⟨m, hm, by omega⟩
  · rintro ⟨m, hm, -⟩
    exact List.mem_of_getElem? hm

theorem entryAt_iff_getElem (hnum : r.Numbered) (h : r.lastSnapshotIncludeIndex = 0) {m : ℕ}
    {e : LogEntry} : r.entryAt (m + 1) = .ok e ↔ r.logs[m]? = some e := by
  rw [hnum.entryAt_iff, h]
  exact and_iff_right (Nat.succ_pos m)

/-- An index has a term when it is `0`, with term `0`, or the index of an entry. -/
theorem getLogTerm_iff_getElem (hnum : r.Numbered) (h : r.lastSnapshotIncludeIndex = 0)
    (hzero : r.lastSnapshotIncludeTerm = 0) {index term : ℕ} :
    r.getLogTermFromLogIndex index = .ok term ↔ (index = 0 ∧ term = 0) ∨
      ∃ m e, index = m + 1 ∧ r.logs[m]? = some e ∧ e.logTerm = term := by
  rw [Raft.getLogTermFromLogIndex_eq_ok, h, hzero]
  constructor
  · rintro (⟨hindex, -, hterm⟩ | ⟨e, he, hterm⟩)
    · exact Or.inl ⟨hindex, hterm⟩
    · cases index with
      | zero =>
        obtain ⟨hlt, -⟩ := hnum.entryAt_iff.mp he
        omega
      | succ m => exact Or.inr ⟨m, e, rfl, (entryAt_iff_getElem hnum h).mp he, hterm⟩
  · rintro (⟨hindex, hterm⟩ | ⟨m, e, rfl, he, hterm⟩)
    · exact Or.inl ⟨hindex, by omega, hterm⟩
    · exact Or.inr ⟨e, (entryAt_iff_getElem hnum h).mpr he, hterm⟩

theorem upToDate_iff (hnum : r.Numbered) (h : r.lastSnapshotIncludeIndex = 0)
    (hzero : r.lastSnapshotIncludeTerm = 0) {l : List LogEntry} :
    r.upToDate l.length (lastTerm LogEntry.logTerm l) ↔ UpToDate LogEntry.logTerm l r.logs := by
  unfold Raft.upToDate UpToDate
  rw [getLastLogTerm_eq hzero, getLastLogIndex_eq_length hnum h]

end Logs

/-- Writing what a log has after position `p` over a log that agrees with it up to `p`. -/
theorem writeAt_drop {l m : List LogEntry} {p : ℕ} (hp : p ≤ l.length) (h : m.take p = l.take p) :
    writeAt m p (l.drop p) = l ++ m.drop l.length := by
  unfold writeAt
  rw [h, List.take_append_drop, List.length_drop]
  congr 2
  omega

/-! ### What the messages and the counters stand for -/

/-- A vote request describes a log with which its sender stood for election. -/
def VoteRequestInv (H : Set (Fin n → Peer (Fin n) LogEntry)) (round : VoteRound n) : Prop :=
  ∃ l, Stood H round.caller round.args.term l ∧ round.args.lastLogIndex = l.length ∧
    round.args.lastLogTerm = lastTerm LogEntry.logTerm l

/-- A request of the leader of term `t` that carries a part of its log `l`. -/
structure Carries (H : Set (Fin n → Peer (Fin n) LogEntry)) (t : ℕ) (l : List LogEntry)
    (args : AppendEntriesArgs n) : Prop where
  term : args.term = t
  prev_le : args.prevLogIndex ≤ l.length
  entries : args.entries = l.drop args.prevLogIndex
  prev : ∀ m, args.prevLogIndex = m + 1 → ∃ e, l[m]? = some e ∧ e.logTerm = args.prevLogTerm
  commit_le : args.leaderCommit ≤ l.length
  decided : Decided LogEntry.logTerm H t (l.take args.leaderCommit)

/-- The requests of a heartbeat carry one log `l` of the leader of term `t`, its successes come from
servers that have held `l` in term `t`, and its counter counts such servers. -/
structure HeartbeatInv (H : Set (Fin n → Peer (Fin n) LogEntry)) (t : ℕ) (l : List LogEntry)
    (round : AppendRound n) : Prop where
  leader : LeaderLog H round.caller t l
  requests : ∀ peer args, (peer, args) ∈ round.requests → Carries H t l args
  replies : ∀ peer reply, (peer, reply) ∈ round.replies → reply.success = true →
    reply.term = t ∧ Acked H peer t l
  count : ∃ Q : Finset (Fin n), (∀ v ∈ Q, Acked H v t l) ∧ round.appendNums ≤ Q.card ∧
    Disjoint Q round.pending

/-- The indices of a server. -/
structure ServerInv (H : Set (Fin n → Peer (Fin n) LogEntry)) (r : Raft n) : Prop where
  snapshotIndex : r.lastSnapshotIncludeIndex = 0
  snapshotTerm : r.lastSnapshotIncludeTerm = 0
  commit_le : r.commitIndex ≤ r.logs.length
  decided : Decided LogEntry.logTerm H r.currentTerm (r.logs.take r.commitIndex)
  /-- What a leader knows of its peers. -/
  reached : r.status = .leader → ∀ j, r.matchIndex j = 0 ∨
    (r.matchIndex j ≤ r.logs.length ∧ Acked H j r.currentTerm (r.logs.take (r.matchIndex j)))

section Growth

variable {H H' : Set (Fin n → Peer (Fin n) LogEntry)} {t : ℕ} {l : List LogEntry}

theorem Stood.mono (h : H ⊆ H') {c : Fin n} (hl : Stood H c t l) : Stood H' c t l := by
  obtain ⟨p, hp, hrest⟩ := hl
  exact ⟨p, hp.mono h, hrest⟩

theorem VoteRequestInv.mono (h : H ⊆ H') {round : VoteRound n} (hround : VoteRequestInv H round) :
    VoteRequestInv H' round := by
  obtain ⟨l, hl, hrest⟩ := hround
  exact ⟨l, Stood.mono h hl, hrest⟩

theorem Carries.mono (h : H ⊆ H') {args : AppendEntriesArgs n} (hargs : Carries H t l args) :
    Carries H' t l args where
  term := hargs.term
  prev_le := hargs.prev_le
  entries := hargs.entries
  prev := hargs.prev
  commit_le := hargs.commit_le
  decided := hargs.decided.mono h (le_refl t)

theorem HeartbeatInv.mono (h : H ⊆ H') {round : AppendRound n} (hround : HeartbeatInv H t l round) :
    HeartbeatInv H' t l round where
  leader := hround.leader.mono h
  requests := fun peer args hmem ↦ (hround.requests peer args hmem).mono h
  replies := fun peer reply hmem hsuccess ↦
    (hround.replies peer reply hmem hsuccess).imp_right fun hack ↦ hack.mono h
  count := by
    obtain ⟨Q, hQ, hnum, hdisj⟩ := hround.count
    exact ⟨Q, fun v hv ↦ (hQ v hv).mono h, hnum, hdisj⟩

/-- The indices of a server that has kept its log and its commit index. -/
theorem ServerInv.of_same (h : H ⊆ H') {r r' : Raft n} (hr : ServerInv H r)
    (hindex : r'.lastSnapshotIncludeIndex = r.lastSnapshotIncludeIndex)
    (hzero : r'.lastSnapshotIncludeTerm = r.lastSnapshotIncludeTerm) (hlogs : r'.logs = r.logs)
    (hcommit : r'.commitIndex = r.commitIndex) (hterm : r.currentTerm ≤ r'.currentTerm)
    (hlead : r'.status = .leader → (∀ j, r'.matchIndex j = 0) ∨
      (r.status = .leader ∧ r'.currentTerm = r.currentTerm ∧ r'.matchIndex = r.matchIndex)) :
    ServerInv H' r' where
  snapshotIndex := hindex.trans hr.snapshotIndex
  snapshotTerm := hzero.trans hr.snapshotTerm
  commit_le := by
    rw [hcommit, hlogs]
    exact hr.commit_le
  decided := by
    rw [hcommit, hlogs]
    exact hr.decided.mono h hterm
  reached := by
    intro hstatus j
    rcases hlead hstatus with hnone | ⟨hold, hsame, hmatch⟩
    · exact Or.inl (hnone j)
    · rw [hmatch, hlogs, hsame]
      exact (hr.reached hold j).imp_right fun hack ↦ ⟨hack.1, hack.2.mono h⟩

theorem ServerInv.mono (h : H ⊆ H') {r : Raft n} (hr : ServerInv H r) : ServerInv H' r :=
  hr.of_same h rfl rfl rfl rfl (le_refl _) fun hlead ↦ Or.inr ⟨hlead, rfl, rfl⟩

end Growth

/-! ### An accepted request -/

section Accepted

variable {H H' : Set (Fin n → Peer (Fin n) LogEntry)} {cur : Fin n → Peer (Fin n) LogEntry}
  {i j : Fin n} {r r' : Raft n} {t : ℕ} {l : List LogEntry} {args : AppendEntriesArgs n}

/-- A log that agrees with the request where the request begins and at its entries agrees with all
of the log the request carries. -/
theorem take_eq_of_entries (h : ReplicaInv LogEntry.logTerm H cur) (hseen : Seen H i r.peer)
    (hleader : LeaderLog H j t l) (hnum : r.Numbered) (hr : ServerInv H r)
    (hargs : Carries H t l args) (hentries : NumberedFrom args.prevLogIndex args.entries)
    (htake : r.logs.take args.prevLogIndex = l.take args.prevLogIndex)
    (hagree : ∀ log ∈ args.entries, r.getLogTermFromLogIndex log.logIndex = .ok log.logTerm) :
    r.logs.take l.length = l.take l.length := by
  rcases hargs.prev_le.eq_or_lt with heq | hlt
  · rwa [heq] at htake
  · -- The last entry of the request: log matching at its index.
    obtain ⟨m, hm⟩ : ∃ m, l.length = m + 1 := ⟨l.length - 1, by omega⟩
    have hlast : l[m]? = some l[m] := List.getElem?_eq_getElem (by omega)
    have hat : args.entries[m - args.prevLogIndex]? = some l[m] := by
      rw [hargs.entries, List.getElem?_drop, ← hlast]
      congr 1
      omega
    have hindex := hentries _ _ hat
    have hterm := hagree _ (List.mem_of_getElem? hat)
    rw [getLogTerm_iff_getElem hnum hr.snapshotIndex hr.snapshotTerm] at hterm
    obtain ⟨p, hp, -, -, rfl⟩ := hleader
    rcases hterm with ⟨hzero, -⟩ | ⟨m', e, hm', he, het⟩
    · omega
    · obtain rfl : m' = m := by omega
      rw [hm]
      exact h.take_eq hseen hp he hlast het

/-- An accepted request leaves a log that holds the log of the leader as it is, and makes any other
log that of the leader. -/
theorem accepted_log (h : ReplicaInv LogEntry.logTerm H cur) (hseen : Seen H i r.peer)
    (hleader : LeaderLog H j t l) (hnum : r.Numbered) (hr : ServerInv H r)
    (hargs : Carries H t l args) (hentries : NumberedFrom args.prevLogIndex args.entries)
    (hprev : r.getLogTermFromLogIndex args.prevLogIndex = .ok args.prevLogTerm)
    (htail : l.length < r.logs.length → ∀ log ∈ args.entries,
      r.getLogTermFromLogIndex log.logIndex = .ok log.logTerm) :
    (l <+: r.logs ∧ writeAt r.logs args.prevLogIndex args.entries = r.logs) ∨
      (¬ l <+: r.logs ∧ writeAt r.logs args.prevLogIndex args.entries = l) := by
  have htake : r.logs.take args.prevLogIndex = l.take args.prevLogIndex := by
    cases hm : args.prevLogIndex with
    | zero => simp
    | succ m =>
      obtain ⟨e, he, het⟩ := hargs.prev m hm
      rw [getLogTerm_iff_getElem hnum hr.snapshotIndex hr.snapshotTerm] at hprev
      obtain ⟨p, hp, -, -, rfl⟩ := hleader
      rcases hprev with ⟨hzero, -⟩ | ⟨m', e', hm', he', het'⟩
      · omega
      · obtain rfl : m' = m := by omega
        exact h.take_eq hseen hp he' he (het'.trans het.symm)
  have hwrite : writeAt r.logs args.prevLogIndex args.entries = l ++ r.logs.drop l.length := by
    rw [hargs.entries]
    exact writeAt_drop hargs.prev_le htake
  by_cases hpre : l <+: r.logs
  · refine Or.inl ⟨hpre, ?_⟩
    obtain ⟨rest, heq⟩ := hpre
    rw [hwrite, ← heq, List.drop_left]
  · refine Or.inr ⟨hpre, ?_⟩
    have hshort : r.logs.length ≤ l.length := by
      by_contra hlong
      have heq := take_eq_of_entries h hseen hleader hnum hr hargs hentries htake
        (htail (Nat.lt_of_not_le hlong))
      rw [List.take_length] at heq
      exact hpre (heq ▸ List.take_prefix _ _)
    rw [hwrite, List.drop_of_length_le hshort, List.append_nil]

/-- What was decided is still there after an accepted request. -/
theorem decided_kept (h : ReplicaInv LogEntry.logTerm H cur) (hleader : LeaderLog H j t l)
    (hr : ServerInv H r) (hterm : r.currentTerm ≤ t) {logs : List LogEntry}
    (hlogs : logs = r.logs ∨ (¬ l <+: r.logs ∧ logs = l)) :
    r.commitIndex ≤ logs.length ∧ logs.take r.commitIndex = r.logs.take r.commitIndex := by
  rcases hlogs with rfl | ⟨hpre, rfl⟩
  · exact ⟨hr.commit_le, rfl⟩
  · have hlen : (r.logs.take r.commitIndex).length = r.commitIndex :=
      List.length_take_of_le hr.commit_le
    rcases h.decided_leader_comparable hr.decided hterm hleader with hdl | hld
    · have heq := List.prefix_iff_eq_take.mp hdl
      rw [hlen] at heq
      refine ⟨?_, heq.symm⟩
      have hle := hdl.length_le
      omega
    · exact absurd (hld.trans (List.take_prefix _ _)) hpre

variable [Codec LogEntry] [Codec (BoostPersistRaftNode n)]

/-- A follower that answers an append request, as a move, with its indices, and with the log of the
leader when it accepts. -/
theorem appendEntries_move (h : ReplicaInv LogEntry.logTerm H cur) (hseen : Seen H i r.peer)
    (hother : j ≠ i) (hleader : LeaderLog H j t l) (hnum : r.Numbered) (hr : ServerInv H r)
    (hargs : Carries H t l args) (hentries : NumberedFrom args.prevLogIndex args.entries)
    (hstale : ¬ r.LeavesStaleTail args) (hsub : H ⊆ H') {reply : AppendEntriesReply}
    (hstep : r.appendEntries args = .ok (r', reply)) :
    Move LogEntry.logTerm H i r.peer r'.peer ∧ ServerInv H' r' ∧
      (reply.success = true → reply.term = t ∧ r'.currentTerm = t ∧ l <+: r'.logs) := by
  -- Every answer to a request that is not outdated comes from a follower of the term of the request.
  have hfollow : ∀ q : Raft n, r.currentTerm ≤ args.term →
      q.currentTerm = (r.enterTerm args.term).currentTerm →
      q.votedFor = (r.enterTerm args.term).votedFor → q.status = .follower →
      (q.logs = r.logs ∨ q.logs = l ∧ ¬ l <+: r.logs) →
      Move LogEntry.logTerm H i r.peer q.peer := by
    intro q hle hterm hvote hstatus hlogs
    have hqterm : q.currentTerm = t := by
      rw [hterm, r.enterTerm_currentTerm _ hle, hargs.term]
    have hleader' : LeaderLog H j q.peer.term l := by
      show LeaderLog H j q.currentTerm l
      rw [hqterm]
      exact hleader
    refine Move.follow j l q.peer hother hleader' ?_ ?_ ?_ hstatus hlogs
    · show r.currentTerm ≤ q.currentTerm
      rw [hqterm, ← hargs.term]
      exact hle
    · intro heq
      change r.currentTerm = q.currentTerm at heq
      rcases r.enterTerm_cases _ hle with ⟨hlt, -⟩ | ⟨-, hsame⟩
      · rw [hqterm, ← hargs.term] at heq
        omega
      · rw [hsame] at hvote
        exact hvote
    · intro hlt
      change r.currentTerm < q.currentTerm at hlt
      rcases r.enterTerm_cases _ hle with ⟨-, hlater⟩ | ⟨hsame, -⟩
      · rw [hlater] at hvote
        exact hvote
      · rw [hqterm, ← hargs.term] at hlt
        omega
  rcases Raft.appendEntries_cases hstep with ⟨-, rfl, hfail⟩ | ⟨hle, hfail, rfl⟩ |
    ⟨hle, hsuccess, hreply, hprev, q, hq, hlen, rfl⟩
  · exact ⟨.stay, hr.mono hsub, fun hsuccess ↦ by rw [hfail] at hsuccess; cases hsuccess⟩
  · refine ⟨hfollow _ hle rfl rfl rfl (Or.inl (by simp)), hr.of_same hsub (by simp) (by simp)
      (by simp) (by simp) ?_ (fun hlead ↦ by cases hlead), fun hsuccess ↦ by
        rw [hfail] at hsuccess; cases hsuccess⟩
    show r.currentTerm ≤ (r.enterTerm args.term).currentTerm
    rw [r.enterTerm_currentTerm _ hle]
    exact hle
  · obtain ⟨rfl, -, -⟩ := appendEntries_logs hnum hentries hprev hq
    have hterm : (r.enterTerm args.term).currentTerm = t := by
      rw [r.enterTerm_currentTerm _ hle, hargs.term]
    have htail : l.length < r.logs.length → ∀ log ∈ args.entries,
        r.getLogTermFromLogIndex log.logIndex = .ok log.logTerm := by
      intro hlong log hlog
      by_contra hdiffers
      refine hstale ⟨hle, Raft.matchLog_eq_true.mpr hprev, ?_, log, hlog, hdiffers⟩
      have hprev_le := hargs.prev_le
      rw [getLastLogIndex_eq_length hnum hr.snapshotIndex, hargs.entries, List.length_drop]
      omega
    have hcases := accepted_log h hseen hleader hnum hr hargs hentries hprev htail
    rw [← Nat.sub_zero args.prevLogIndex, ← hr.snapshotIndex] at hcases
    have hnumbered := (logStep_appendEntries hnum hentries hstep).numbered
    generalize writeAt r.logs (args.prevLogIndex - r.lastSnapshotIncludeIndex) args.entries = logs
      at hcases hnumbered hlen
    have hnew : logs = r.logs ∨ (¬ l <+: r.logs ∧ logs = l) :=
      hcases.imp_left fun hsame ↦ hsame.2
    have hpre : l <+: logs := by
      rcases hcases with ⟨hpre, rfl⟩ | ⟨-, rfl⟩
      · exact hpre
      · exact List.prefix_refl _
    obtain ⟨hcommit, hkept⟩ := decided_kept h hleader hr (hargs.term ▸ hle) hnew
    have hlast := getLastLogIndex_eq_length hnumbered (by simpa using hr.snapshotIndex)
    change Raft.getLastLogIndex { (r.enterTerm args.term).asFollower with logs := logs } = logs.length
      at hlast
    have hleaderCommit : args.leaderCommit ≤ logs.length := hargs.commit_le.trans hpre.length_le
    have hdecided : Decided LogEntry.logTerm H t (logs.take args.leaderCommit) := by
      obtain ⟨rest, heq⟩ := hpre
      rw [← heq, List.take_append_of_le_length hargs.commit_le]
      exact hargs.decided
    refine ⟨hfollow _ hle rfl rfl rfl (hnew.imp_right And.symm), ⟨?_, ?_, ?_, ?_, ?_⟩,
      fun _ ↦ ⟨hreply.trans hargs.term, hterm, hpre⟩⟩
    · simpa using hr.snapshotIndex
    · simpa using hr.snapshotTerm
    · show (if _ < _ then _ else _) ≤ logs.length
      rw [hlast]
      split
      · exact min_le_right _ _
      · simpa using hcommit
    · show Decided LogEntry.logTerm H' (r.enterTerm args.term).currentTerm
        (logs.take (if _ < _ then _ else _))
      rw [hlast, hterm, min_eq_left hleaderCommit]
      split
      · exact hdecided.mono hsub (le_refl _)
      · simp only [Raft.asFollower_commitIndex, Raft.enterTerm_commitIndex, hkept]
        exact hr.decided.mono hsub (hargs.term ▸ hle)
    · intro hlead
      cases hlead

end Accepted

/-! ### Elections -/

section Elections

variable {H H' : Set (Fin n → Peer (Fin n) LogEntry)} {i j : Fin n} {r r' : Raft n}
  [Codec LogEntry] [Codec (BoostPersistRaftNode n)]

theorem doElection_move (hr : ServerInv H r) (hsub : H ⊆ H') :
    Move LogEntry.logTerm H i r.peer (r.doElection i).1.peer ∧ ServerInv H' (r.doElection i).1 := by
  rcases r.doElection_cases i with ⟨-, heq⟩ | ⟨-, hone, heq⟩ | ⟨-, -, heq⟩
  · rw [heq]
    exact ⟨.stay, hr.mono hsub⟩
  · rw [heq]
    refine ⟨.crown (r.currentTerm + 1) (Nat.lt_succ_self _) ?_, hr.of_same hsub rfl rfl rfl rfl
      (Nat.le_succ _) fun _ ↦ Or.inl fun _ ↦ rfl⟩
    unfold IsMajority
    rw [Fintype.card_fin, Finset.card_singleton]
    omega
  · rw [heq]
    exact ⟨.stand (r.currentTerm + 1) (Nat.lt_succ_self _), hr.of_same hsub rfl rfl rfl rfl
      (Nat.le_succ _) fun hlead ↦ by cases hlead⟩

theorem requestVote_move (hnum : r.Numbered) (hr : ServerInv H r) (hsub : H ⊆ H')
    {round : VoteRound n} (hcandidate : round.args.candidateId = round.caller)
    (hround : VoteRequestInv H round) (hother : i ≠ round.caller) {reply : RequestVoteReply}
    (hstep : r.requestVote round.args = .ok (r', reply)) :
    Move LogEntry.logTerm H i r.peer r'.peer ∧ ServerInv H' r' := by
  have hsame : ∀ q : Raft n, r.currentTerm ≤ round.args.term →
      q.currentTerm = (r.enterTerm round.args.term).currentTerm → q.logs = r.logs →
      q.commitIndex = r.commitIndex → q.matchIndex = (r.enterTerm round.args.term).matchIndex →
      q.status = (r.enterTerm round.args.term).status →
      q.lastSnapshotIncludeIndex = r.lastSnapshotIncludeIndex →
      q.lastSnapshotIncludeTerm = r.lastSnapshotIncludeTerm → ServerInv H' q := by
    intro q hle hterm hlogs hcommit hmatch hstatus hindex hzero
    refine hr.of_same hsub hindex hzero hlogs hcommit ?_ fun hlead ↦ Or.inr ?_
    · rw [hterm, r.enterTerm_currentTerm _ hle]
      exact hle
    · rcases r.enterTerm_cases _ hle with ⟨-, heq⟩ | ⟨-, heq⟩
      · rw [hstatus, heq] at hlead
        cases hlead
      · rw [heq] at hterm hmatch hstatus
        exact ⟨hstatus.symm.trans hlead, hterm, hmatch⟩
  rcases Raft.requestVote_cases hstep with ⟨-, rfl, -⟩ | ⟨hle, rfl, -⟩ | ⟨hle, hup, hfree, rfl, -⟩
  · exact ⟨.stay, hr.of_same hsub rfl rfl rfl rfl (le_refl _) fun hlead ↦ Or.inr ⟨hlead, rfl, rfl⟩⟩
  · refine ⟨?_, hsame _ hle rfl (by simp) (by simp) rfl rfl (by simp) (by simp)⟩
    rcases r.enterTerm_cases _ hle with ⟨hlt, heq⟩ | ⟨-, heq⟩
    · rw [heq]
      exact .raise round.args.term hlt
    · rw [heq]
      exact .stay
  · refine ⟨?_, hsame _ hle rfl (by simp) (by simp) rfl rfl (by simp) (by simp)⟩
    obtain ⟨l, hstood, hindex, hlast⟩ := hround
    rw [hindex, hlast, upToDate_iff hnum hr.snapshotIndex hr.snapshotTerm] at hup
    rw [hcandidate] at hfree ⊢
    have hterm := r.enterTerm_currentTerm _ hle
    refine .grant round.caller l _ hother.symm (hle.trans_eq hterm.symm) ?_ ?_ rfl
      (r.enterTerm_logs _) ?_ hup
    · intro heq
      change r.currentTerm = (r.enterTerm round.args.term).currentTerm at heq
      rcases r.enterTerm_cases _ hle with ⟨hlt, -⟩ | ⟨-, hkept⟩
      · omega
      · rw [hkept] at hfree ⊢
        exact ⟨hfree, rfl⟩
    · intro hlt
      change r.currentTerm < (r.enterTerm round.args.term).currentTerm at hlt
      rcases r.enterTerm_cases _ hle with ⟨-, hlater⟩ | ⟨hsame, -⟩
      · rw [hlater]
        rfl
      · omega
    · show Stood H round.caller (r.enterTerm round.args.term).currentTerm l
      rw [hterm]
      exact hstood

/-- The answer that wins an election finds a candidate. -/
theorem sendRequestVote_move (hr : ServerInv H r) (hsub : H ⊆ H') {reply : RequestVoteReply}
    {votedNum votedNum' : ℕ}
    (hwin : reply.term = r.currentTerm → reply.voteGranted = true → n / 2 + 1 ≤ votedNum + 1 →
      r.status ≠ .leader → r.status = .candidate ∧ Elected H r.currentTerm i)
    (hstep : r.sendRequestVote reply votedNum = .ok (r', votedNum')) :
    Move LogEntry.logTerm H i r.peer r'.peer ∧ ServerInv H' r' := by
  rcases Raft.sendRequestVote_cases hstep with ⟨hlt, rfl, -⟩ | ⟨rfl, -⟩ | ⟨-, -, -, rfl, -⟩ |
    ⟨hterm, hgranted, hmajority, hnot, rfl, -⟩
  · exact ⟨.raise reply.term hlt, hr.of_same hsub rfl rfl rfl rfl hlt.le fun hlead ↦ by cases hlead⟩
  · exact ⟨.stay, hr.mono hsub⟩
  · exact ⟨.stay, hr.mono hsub⟩
  · obtain ⟨hrole, helected⟩ := hwin hterm hgranted hmajority hnot
    exact ⟨.win hrole helected, hr.of_same hsub rfl rfl rfl rfl (le_refl _) fun _ ↦
      Or.inl fun _ ↦ rfl⟩

end Elections

/-! ### The leader -/

section Leader

variable {H H' : Set (Fin n → Peer (Fin n) LogEntry)} {cur : Fin n → Peer (Fin n) LogEntry}
  {i : Fin n} {r r' : Raft n} {t : ℕ} {l : List LogEntry}

/-- A request reaches the end of the log it carries. -/
theorem Carries.end_eq {args : AppendEntriesArgs n} (h : Carries H t l args) :
    args.prevLogIndex + args.entries.length = l.length := by
  have hle := h.prev_le
  rw [h.entries, List.length_drop]
  omega

/-- A request that ends in an entry of the leader's term carries a log that does. -/
theorem Carries.endsIn {args : AppendEntriesArgs n} (h : Carries H t l args) {u : ℕ}
    (hlast : args.entries.getLast?.map LogEntry.logTerm = some u) : EndsIn LogEntry.logTerm u l := by
  obtain ⟨e, he, heu⟩ := Option.map_eq_some_iff.mp hlast
  rw [h.entries, List.getLast?_drop] at he
  split at he
  · cases he
  · exact ⟨e, he, heu⟩

/-- One more server that has held the log is counted. -/
theorem HeartbeatInv.counted {round : AppendRound n} (h : HeartbeatInv H t l round) {server : Fin n}
    (hpending : server ∈ round.pending) (hack : Acked H server t l) :
    ∃ Q : Finset (Fin n), (∀ v ∈ Q, Acked H v t l) ∧ round.appendNums + 1 ≤ Q.card ∧
      Disjoint Q (round.pending.erase server) := by
  obtain ⟨Q, hQ, hnum, hdisj⟩ := h.count
  have hnew : server ∉ Q := fun hin ↦ Finset.disjoint_left.mp hdisj hin hpending
  refine ⟨insert server Q, fun v hv ↦ ?_, ?_, ?_⟩
  · rcases Finset.mem_insert.mp hv with rfl | hv
    · exact hack
    · exact hQ v hv
  · rw [Finset.card_insert_of_notMem hnew]
    omega
  · rw [Finset.disjoint_insert_left]
    exact ⟨Finset.notMem_erase _ _, hdisj.mono_right (Finset.erase_subset _ _)⟩

/-- What `leaderUpdateCommitIndex` finds is the end of a committed log. -/
theorem reached_committed (hnum : r.Numbered) (hindex : r.lastSnapshotIncludeIndex = 0)
    (hzero : r.lastSnapshotIncludeTerm = 0) (hleader : LeaderLog H i r.currentTerm r.logs)
    (hreached : ∀ j, r.matchIndex j = 0 ∨
      Acked H j r.currentTerm (r.logs.take (r.matchIndex j))) {index : ℕ}
    (hmajority : r.reachedByMajority i index)
    (hterm : r.getLogTermFromLogIndex index = .ok r.currentTerm) :
    index ≤ r.logs.length ∧
      Decided LogEntry.logTerm H r.currentTerm (r.logs.take index) := by
  rcases (getLogTerm_iff_getElem hnum hindex hzero).mp hterm with
    ⟨rfl, -⟩ | ⟨m, e, rfl, he, het⟩
  · exact ⟨Nat.zero_le _, Or.inl (List.take_zero)⟩
  · obtain ⟨hm, -⟩ := List.getElem?_eq_some_iff.mp he
    have hpre := List.take_prefix (m + 1) r.logs
    refine ⟨hm, Committed.decided ⟨⟨e, ?_, het⟩, ⟨i, r.logs, hleader, hpre⟩,
      Finset.univ.filter fun j ↦ j = i ∨ m + 1 ≤ r.matchIndex j, ?_, fun v hv ↦ ?_⟩⟩
    · rw [List.take_add_one, he]
      simp
    · unfold Raft.reachedByMajority at hmajority
      unfold IsMajority
      rw [Fintype.card_fin]
      omega
    · rcases (Finset.mem_filter.mp hv).2 with rfl | hle
      · exact hleader.acked.of_prefix hpre
      · rcases hreached v with hnone | hack
        · omega
        · exact hack.of_prefix (List.take_prefix_take_left hle)

theorem start_move [Codec LogEntry] [Codec (BoostPersistRaftNode n)] (hnum : r.Numbered)
    (hr : ServerInv H r) (hsub : H ⊆ H') (hseen : Seen H' i r'.peer) (hnum' : r'.Numbered)
    {command : String} {result : Option (ℕ × ℕ)}
    (hstep : r.start i command = .ok (r', result)) :
    Move LogEntry.logTerm H i r.peer r'.peer ∧ ServerInv H' r' := by
  rcases Raft.start_cases hstep with ⟨-, rfl, -⟩ | ⟨hlead, e, q, found, he, hq, hfound, rfl, -⟩
  · exact ⟨.stay, hr.mono hsub⟩
  · subst hq
    have hterm : e.logTerm = r.currentTerm := by rw [he]
    have hleader : LeaderLog H' i r.currentTerm (r.logs ++ [e]) := ⟨_, hseen, rfl, hlead, rfl⟩
    -- What the peers have held is in the longer log as well.
    have hreached : ∀ j, r.matchIndex j = 0 ∨ (r.matchIndex j ≤ (r.logs ++ [e]).length ∧
        Acked H' j r.currentTerm ((r.logs ++ [e]).take (r.matchIndex j))) := by
      intro j
      refine (hr.reached hlead j).imp_right fun ⟨hle, hack⟩ ↦ ⟨?_, ?_⟩
      · rw [List.length_append]
        omega
      · rw [List.take_append_of_le_length hle]
        exact hack.mono hsub
    refine ⟨.append e hlead hterm, ?_⟩
    cases found with
    | none =>
      have hzero : r.lastSnapshotIncludeIndex = 0 := hr.snapshotIndex
      refine ⟨hzero, hr.snapshotTerm, ?_, Or.inl ?_, fun _ ↦ hreached⟩
      · exact hzero.trans_le (Nat.zero_le _)
      · show List.take r.lastSnapshotIncludeIndex _ = []
        rw [hzero, List.take_zero]
    | some index =>
      obtain ⟨-, hmajority, hat⟩ := Raft.committableUpTo_some hfound
      obtain ⟨hle, hdecided⟩ := reached_committed hnum' hr.snapshotIndex hr.snapshotTerm hleader
        (fun j ↦ (hreached j).imp_right And.right) hmajority hat
      exact ⟨hr.snapshotIndex, hr.snapshotTerm, hle, hdecided, fun _ ↦ hreached⟩

/-- The answer to an append request, with what a success shows about the server that sent it. -/
theorem sendAppendEntries_move (h : ReplicaInv LogEntry.logTerm H cur) (hcur : cur i = r.peer)
    (hr : ServerInv H r) (hsub : H ⊆ H') {round : AppendRound n} (hcaller : round.caller = i)
    (hround : HeartbeatInv H t l round) {server : Fin n} {args : AppendEntriesArgs n}
    (hargs : Carries H t l args) (hpending : server ∈ round.pending) {reply : AppendEntriesReply}
    (hreply : (server, reply) ∈ round.replies) {appendNums : ℕ}
    (hstep : r.sendAppendEntries server args reply round.appendNums = .ok (r', appendNums)) :
    Move LogEntry.logTerm H i r.peer r'.peer ∧ ServerInv H' r' ∧
      HeartbeatInv H t l
        { round with appendNums := appendNums, pending := round.pending.erase server } := by
  have hsame : HeartbeatInv H t l { round with pending := round.pending.erase server } := by
    obtain ⟨Q, hQ, hnum, hdisj⟩ := hround.count
    exact ⟨hround.leader, hround.requests, hround.replies, Q, hQ, hnum,
      hdisj.mono_right (Finset.erase_subset _ _)⟩
  rcases Raft.sendAppendEntries_cases hstep with ⟨rfl, rfl⟩ | ⟨-, hlt, rfl, rfl⟩ |
    ⟨hlead, -, -, rfl, index, -, rfl⟩ | ⟨hlead, hterm, hsuccess, reached, hreached, hle, hcases⟩
  · exact ⟨.stay, hr.mono hsub, hsame⟩
  · exact ⟨.raise reply.term hlt, hr.of_same hsub rfl rfl rfl rfl hlt.le
      (fun hlead ↦ by cases hlead), hsame⟩
  · exact ⟨.stay, hr.of_same hsub rfl rfl rfl rfl (le_refl _) (fun _ ↦ Or.inr ⟨hlead, rfl, rfl⟩),
      hsame⟩
  · obtain ⟨hreplyTerm, hack⟩ := hround.replies server reply hreply hsuccess
    have hcurrent : r.currentTerm = t := hterm.symm.trans hreplyTerm
    obtain ⟨Q, hQ, hnum, hdisj⟩ := hround.counted hpending hack
    have hcounted : ∀ k, k ≤ round.appendNums + 1 → HeartbeatInv H t l
        { round with appendNums := k, pending := round.pending.erase server } := fun k hk ↦
      ⟨hround.leader, hround.requests, hround.replies, Q, hQ, hk.trans hnum, hdisj⟩
    -- The leader still holds the log that the request carried.
    have hpre : l <+: r.logs := by
      obtain ⟨p, hp, hpt, hpr, rfl⟩ := hround.leader
      rw [hcaller] at hp
      have hlatest := h.latest i p hp
      rw [hcur] at hlatest
      exact hlatest (hpt.trans hcurrent.symm) (by rw [hpr]; decide) (by
        show r.status ≠ .follower
        rw [hlead]
        decide)
    have htake : r.logs.take l.length = l := by
      obtain ⟨rest, heq⟩ := hpre
      rw [← heq, List.take_left]
    have hmatch : ∀ j, Function.update r.matchIndex server reached j = 0 ∨
        (Function.update r.matchIndex server reached j ≤ r.logs.length ∧
          Acked H' j r.currentTerm
            (r.logs.take (Function.update r.matchIndex server reached j))) := by
      intro j
      by_cases hj : j = server
      · subst hj
        rw [Function.update_self, hreached, hargs.end_eq]
        rcases le_total l.length (r.matchIndex j) with hmax | hmax
        · rw [max_eq_left hmax]
          exact (hr.reached hlead j).imp_right fun hold ↦ ⟨hold.1, hold.2.mono hsub⟩
        · rw [max_eq_right hmax, htake, hcurrent]
          exact Or.inr ⟨hpre.length_le, hack.mono hsub⟩
      · rw [Function.update_of_ne hj]
        exact (hr.reached hlead j).imp_right fun hold ↦ ⟨hold.1, hold.2.mono hsub⟩
    rcases hcases with ⟨rfl, hnums⟩ | ⟨hmajority, rfl, hlast, rfl⟩
    · refine ⟨.stay, ⟨hr.snapshotIndex, hr.snapshotTerm, hr.commit_le,
        hr.decided.mono hsub (le_refl _), fun _ ↦ hmatch⟩, hcounted _ ?_⟩
      omega
    · -- The request is committed.
      have hcommitted : Committed LogEntry.logTerm H' t l := by
        refine Committed.mono hsub ⟨hcurrent ▸ hargs.endsIn hlast,
          ⟨i, l, hcaller ▸ hround.leader, List.prefix_refl _⟩, Q, ?_, hQ⟩
        unfold IsMajority
        rw [Fintype.card_fin]
        omega
      refine ⟨.stay, ⟨hr.snapshotIndex, hr.snapshotTerm, ?_, ?_, fun _ ↦ hmatch⟩,
        hcounted 0 (Nat.zero_le _)⟩
      · show max r.commitIndex (args.prevLogIndex + args.entries.length) ≤ r.logs.length
        rw [hargs.end_eq]
        exact max_le hr.commit_le hpre.length_le
      · show Decided LogEntry.logTerm H' r.currentTerm
          (r.logs.take (max r.commitIndex (args.prevLogIndex + args.entries.length)))
        rw [hargs.end_eq]
        rcases le_total r.commitIndex l.length with hmax | hmax
        · rw [max_eq_right hmax, htake, hcurrent]
          exact hcommitted.decided
        · rw [max_eq_left hmax]
          exact hr.decided.mono hsub (le_refl _)

end Leader

/-! ### The invariant -/

structure ReplicationInv (H : Set (Fin n → Peer (Fin n) LogEntry)) (s : Cluster n) : Prop where
  identity : IdentityInv H s
  replica : ReplicaInv LogEntry.logTerm H s.view
  servers : ∀ i, ServerInv H (s.servers i)
  elections : ∀ round ∈ s.elections, VoteRequestInv H round
  heartbeats : ∀ round ∈ s.heartbeats, ∃ t l, HeartbeatInv H t l round
  noTasks : s.snapshotTasks = []
  noCalls : s.snapshotCalls = []

namespace ReplicationInv

section Step

variable {H : Set (Fin n → Peer (Fin n) LogEntry)} {s s' : Cluster n}

theorem initial : ReplicationInv {(Cluster.initial : Cluster n).view} (Cluster.initial : Cluster n) where
  identity := IdentityInv.initial
  replica := ReplicaInv.initial (fun _ ↦ rfl) (fun _ ↦ rfl) fun _ ↦ rfl
  servers := fun i ↦ ⟨rfl, rfl, le_refl _, Or.inl rfl, fun hlead ↦ by cases hlead⟩
  elections := fun round hround ↦ by cases hround
  heartbeats := fun round hround ↦ by cases hround
  noTasks := rfl
  noCalls := rfl

theorem elections_mono (h : ReplicationInv H s) (round : VoteRound n) (hround : round ∈ s.elections) :
    VoteRequestInv (insert s'.view H) round :=
  (h.elections round hround).mono (Set.subset_insert _ _)

theorem heartbeats_mono (h : ReplicationInv H s) (round : AppendRound n)
    (hround : round ∈ s.heartbeats) : ∃ t l, HeartbeatInv (insert s'.view H) t l round := by
  obtain ⟨t, l, hinv⟩ := h.heartbeats round hround
  exact ⟨t, l, hinv.mono (Set.subset_insert _ _)⟩

/-- An election that changes keeps its caller and its request. -/
theorem elections_set (h : ReplicationInv H s) {k : ℕ} {round round' : VoteRound n}
    (hround : s.elections[k]? = some round) (hcaller : round'.caller = round.caller)
    (hargs : round'.args = round.args) (a : VoteRound n) (ha : a ∈ s.elections.set k round') :
    VoteRequestInv (insert s'.view H) a := by
  rcases List.mem_or_eq_of_mem_set ha with ha | rfl
  · exact h.elections_mono a ha
  · have hinv : VoteRequestInv (insert s'.view H) round :=
      h.elections_mono round (List.mem_of_getElem? hround)
    unfold VoteRequestInv at hinv ⊢
    rwa [hcaller, hargs]

theorem heartbeats_set (h : ReplicationInv H s) {k : ℕ} {round' : AppendRound n} {t : ℕ}
    {l : List LogEntry} (hinv : HeartbeatInv (insert s'.view H) t l round') (a : AppendRound n)
    (ha : a ∈ s.heartbeats.set k round') : ∃ t l, HeartbeatInv (insert s'.view H) t l a := by
  rcases List.mem_or_eq_of_mem_set ha with ha | rfl
  · exact h.heartbeats_mono a ha
  · exact ⟨t, l, hinv⟩

/-- A step in which one server runs a handler. -/
theorem frame_set (h : ReplicationInv H s) (hidentity : IdentityInv (insert s'.view H) s') {i : Fin n}
    {r : Raft n} (hservers : s'.servers = (s.setServer i r).servers)
    (hmove : Move LogEntry.logTerm H i (s.servers i).peer r.peer ∧ ServerInv (insert s'.view H) r)
    (helections : ∀ round ∈ s'.elections, VoteRequestInv (insert s'.view H) round)
    (hheartbeats : ∀ round ∈ s'.heartbeats, ∃ t l, HeartbeatInv (insert s'.view H) t l round)
    (htasks : s'.snapshotTasks = s.snapshotTasks) (hcalls : s'.snapshotCalls = s.snapshotCalls) :
    ReplicationInv (insert s'.view H) s' := by
  have hself : s'.servers i = r := by
    rw [hservers]
    simp [Cluster.setServer]
  have hother : ∀ j, j ≠ i → s'.servers j = s.servers j := by
    intro j hj
    rw [hservers]
    simp [Cluster.setServer, hj]
  refine ⟨hidentity, h.replica.step fun j ↦ ?_, fun j ↦ ?_, helections, hheartbeats,
    htasks.trans h.noTasks, hcalls.trans h.noCalls⟩
  · show Move LogEntry.logTerm H j (s.servers j).peer (s'.servers j).peer
    by_cases hj : j = i
    · subst hj
      rw [hself]
      exact hmove.1
    · rw [hother j hj]
      exact .stay
  · by_cases hj : j = i
    · subst hj
      rw [hself]
      exact hmove.2
    · rw [hother j hj]
      exact (h.servers j).mono (Set.subset_insert _ _)

/-- A step in which no server changes. -/
theorem frame (h : ReplicationInv H s) (hidentity : IdentityInv (insert s'.view H) s')
    (hservers : s'.servers = s.servers) (helections : s'.elections = s.elections)
    (hheartbeats : ∀ round ∈ s'.heartbeats, ∃ t l, HeartbeatInv (insert s'.view H) t l round)
    (htasks : s'.snapshotTasks = []) (hcalls : s'.snapshotCalls = []) :
    ReplicationInv (insert s'.view H) s' := by
  refine ⟨hidentity, h.replica.step fun j ↦ ?_, fun j ↦ ?_, ?_, hheartbeats, htasks, hcalls⟩
  · show Move LogEntry.logTerm H j (s.servers j).peer (s'.servers j).peer
    rw [hservers]
    exact .stay
  · rw [hservers]
    exact (h.servers j).mono (Set.subset_insert _ _)
  · rw [helections]
    exact fun round hround ↦ h.elections_mono round hround

/-- A candidate that has gathered the votes of a majority is still a candidate. -/
theorem candidate_of_elected (h : ReplicationInv H s) {i : Fin n}
    (hvoted : Voted H i (s.servers i).currentTerm i)
    (helected : Elected H (s.servers i).currentTerm i)
    (hnot : (s.servers i).status ≠ .leader) : (s.servers i).status = .candidate := by
  have hballot := h.identity.election.ballot
  obtain ⟨p, hp, hpt, hpv⟩ := hvoted
  have hvote : (s.view i).vote = some i := hballot.vote_kept i p i hp hpt hpv
  cases hrole : (s.servers i).status with
  | leader => exact absurd hrole hnot
  | candidate => rfl
  | follower =>
    obtain ⟨j, hj, hled⟩ := h.replica.demoted i hvote hrole
    exact absurd (hballot.elected_unique (hballot.led_elected _ _ hled) helected) hj

variable [Codec LogEntry] [Codec (BoostPersistRaftNode n)]

theorem step_doElection (h : ReplicationInv H s) (hidentity : IdentityInv (insert s'.view H) s')
    {i : Fin n} {r : Raft n} {request : Option (RequestVoteArgs n)}
    (hr : (s.servers i).doElection i = (r, request)) (hs' : s' = { s.setServer i r with
      elections := s.elections ++ (request.map (VoteRound.begin i)).toList }) :
    ReplicationInv (insert s'.view H) s' := by
  have hself : s'.view i = r.peer := by
    rw [hs']
    exact Cluster.view_setServer_self s i r
  have hmove := @doElection_move _ _ (insert s'.view H) i _ _ _ (h.servers i) (Set.subset_insert _ _)
  rw [hr] at hmove
  refine h.frame_set hidentity (hs' ▸ rfl) hmove ?_ (hs' ▸ h.heartbeats_mono) (hs' ▸ rfl) (hs' ▸ rfl)
  · intro round hround
    rw [hs'] at hround
    rcases List.mem_append.mp hround with hold | hnew
    · exact h.elections_mono round hold
    · rcases (s.servers i).doElection_cases i with ⟨-, heq⟩ | ⟨-, -, heq⟩ | ⟨-, -, heq⟩ <;>
        obtain ⟨rfl, rfl⟩ := Prod.mk.inj (heq.symm.trans hr)
      · simp at hnew
      · simp at hnew
      · obtain rfl : round = _ := by simpa using hnew
        have hserver := h.servers i
        exact ⟨(s.servers i).logs, ⟨s'.view i, seen_cur _ _, congrArg Peer.term hself,
            congrArg Peer.role hself, congrArg Peer.log hself⟩,
          getLastLogIndex_eq_length (h.identity.numbered i) hserver.snapshotIndex,
          getLastLogTerm_eq hserver.snapshotTerm⟩

theorem step_sendRequestVote (h : ReplicationInv H s)
    (hidentity : IdentityInv (insert s'.view H) s') {k : ℕ} {peer : Fin n} {round : VoteRound n}
    {r : Raft n} {reply : RequestVoteReply} {votedNum : ℕ} (hround : s.elections[k]? = some round)
    (hpending : peer ∈ round.pending) (hreply : (peer, reply) ∈ round.replies)
    (hr : (s.servers round.caller).sendRequestVote reply round.votedNum = .ok (r, votedNum))
    (hs' : s' = { s.setServer round.caller r with
      elections := s.elections.set k
        { round with votedNum := votedNum, pending := round.pending.erase peer } }) :
    ReplicationInv (insert s'.view H) s' := by
  have hvotes := h.identity.election.rounds k round hround
  have hwin : reply.term = (s.servers round.caller).currentTerm → reply.voteGranted = true →
      n / 2 + 1 ≤ round.votedNum + 1 → (s.servers round.caller).status ≠ .leader →
      (s.servers round.caller).status = .candidate ∧
        Elected H (s.servers round.caller).currentTerm round.caller := by
    intro hterm hgranted hmajority hnot
    obtain ⟨hreplyTerm, hvoted⟩ := hvotes.granted peer reply hreply hgranted
    have helected := hvotes.elected hpending hvoted hmajority
    have hown := hvotes.own_vote
    rw [← hreplyTerm, hterm] at helected hown
    exact ⟨h.candidate_of_elected hown helected hnot, helected⟩
  refine h.frame_set hidentity (hs' ▸ rfl)
    (sendRequestVote_move (h.servers _) (Set.subset_insert _ _) hwin hr) (fun a ha ↦ ?_)
    (hs' ▸ h.heartbeats_mono) (hs' ▸ rfl) (hs' ▸ rfl)
  rw [hs'] at ha
  refine h.elections_set hround ?_ ?_ a ha
  · rfl
  · rfl

omit [Codec LogEntry] [Codec (BoostPersistRaftNode n)] in
/-- A heartbeat sends the log of its leader, and to nobody the snapshot. -/
theorem step_doHeartBeat (h : ReplicationInv H s) (hidentity : IdentityInv (insert s'.view H) s')
    {i : Fin n} {sent : List (Fin n × Option (AppendEntriesArgs n))}
    (hr : (s.servers i).doHeartBeat i = .ok (some sent)) (hs' : s' = { s with
      heartbeats := s.heartbeats ++ [AppendRound.begin i sent]
      snapshotTasks := s.snapshotTasks ++ (snapshotPeers sent).map fun peer ↦ (i, peer) }) :
    ReplicationInv (insert s'.view H) s' := by
  have hserver := h.servers i
  have hnum := h.identity.numbered i
  rcases Raft.doHeartBeat_cases hr with ⟨-, hnone⟩ | ⟨hlead, sent', hsome, hto⟩
  · cases hnone
  cases hsome
  have hnoSnapshot : snapshotPeers sent = [] := by
    rw [snapshotPeers, List.map_eq_nil_iff, List.filter_eq_nil_iff]
    rintro ⟨server, request⟩ hmem hisNone
    obtain rfl : request = none := by simpa using hisNone
    obtain ⟨hone, hzero⟩ := Raft.heartBeatTo_none (hto _ _ hmem).2
    have hindex := hserver.snapshotIndex
    omega
  refine h.frame hidentity (by rw [hs']) (by rw [hs']) ?_ ?_ (by rw [hs']; exact h.noCalls)
  · intro round hround
    have hmem : round ∈ s.heartbeats ++ [AppendRound.begin i sent] := by
      rw [hs'] at hround
      exact hround
    rcases List.mem_append.mp hmem with hold | hnew
    · exact h.heartbeats_mono round hold
    · rw [List.mem_singleton.mp hnew]
      have hleader : LeaderLog (insert s'.view H) i (s.servers i).currentTerm (s.servers i).logs :=
        ⟨s.view i, (h.replica.ballot.seen_self i).mono (Set.subset_insert _ _), rfl, hlead, rfl⟩
      refine ⟨(s.servers i).currentTerm, (s.servers i).logs, hleader, fun peer args hargs ↦ ?_,
        fun peer reply hreply ↦ absurd hreply List.not_mem_nil, {i}, fun v hv ↦ ?_, le_refl _, ?_⟩
      · obtain ⟨⟨server, request⟩, hin, hrequest⟩ := List.mem_filterMap.mp hargs
        obtain ⟨args', hsomeArgs, heq⟩ := Option.map_eq_some_iff.mp hrequest
        cases heq
        cases hsomeArgs
        obtain ⟨hterm, -, hcommit, hend, hentries, hprev⟩ :=
          Raft.heartBeatTo_some (hto _ _ hin).2
        rw [getLastLogIndex_eq_length hnum hserver.snapshotIndex] at hend
        rw [hserver.snapshotIndex, Nat.sub_zero] at hentries
        refine ⟨hterm, by omega, hentries, fun m hm ↦ ?_, hcommit ▸ hserver.commit_le,
          hcommit ▸ hserver.decided.mono (Set.subset_insert _ _) (le_refl _)⟩
        rcases hprev with ⟨hindex, -⟩ | ⟨e, he, het⟩
        · rw [hserver.snapshotIndex] at hindex
          omega
        · rw [hm, entryAt_iff_getElem hnum hserver.snapshotIndex] at he
          exact ⟨e, he, het⟩
      · rw [Finset.mem_singleton.mp hv]
        exact hleader.acked
      · simp [AppendRound.begin]
  · rw [hs']
    show s.snapshotTasks ++ _ = []
    rw [h.noTasks, hnoSnapshot]
    rfl

theorem step_appendEntries (h : ReplicationInv H s) (hidentity : IdentityInv (insert s'.view H) s')
    {k : ℕ} {peer : Fin n} {round : AppendRound n} {args : AppendEntriesArgs n} {r : Raft n}
    {reply : AppendEntriesReply} (hround : s.heartbeats[k]? = some round)
    (hargs : round.requests.lookup peer = some args)
    (hr : (s.servers peer).appendEntries args = .ok (r, reply))
    (hstale : ¬ (s.servers peer).LeavesStaleTail args)
    (hs' : s' = { s.setServer peer r with
      heartbeats := s.heartbeats.set k
        { round with replies := round.replies ++ [(peer, reply)] } }) :
    ReplicationInv (insert s'.view H) s' := by
  have hsub : H ⊆ insert s'.view H := Set.subset_insert _ _
  have hmem := List.mem_of_getElem? hround
  have hrequest := h.identity.requests round hmem peer args (mem_of_lookup hargs)
  obtain ⟨t, l, hinv⟩ := h.heartbeats round hmem
  obtain ⟨hmove, hserver, hsuccess⟩ := appendEntries_move h.replica (h.replica.ballot.seen_self peer)
    hrequest.other.symm hinv.leader (h.identity.numbered peer) (h.servers peer)
    (hinv.requests peer args (mem_of_lookup hargs)) hrequest.numbered hstale hsub hr
  have hself : s'.view peer = r.peer := by
    rw [hs']
    exact Cluster.view_setServer_self s peer r
  have hgrown := hinv.mono hsub
  have hround' : HeartbeatInv (insert s'.view H) t l
      { round with replies := round.replies ++ [(peer, reply)] } := by
    refine ⟨hgrown.leader, hgrown.requests, fun v answer hanswer hyes ↦ ?_, hgrown.count⟩
    rcases List.mem_append.mp hanswer with hold | hnew
    · exact hgrown.replies v answer hold hyes
    · obtain ⟨rfl, rfl⟩ := Prod.mk.inj (List.mem_singleton.mp hnew)
      obtain ⟨hterm, hcurrent, hpre⟩ := hsuccess hyes
      refine ⟨hterm, s'.view v, seen_cur _ _, ?_, ?_, round.caller, l, hgrown.leader,
        List.prefix_refl _⟩
      · rw [hself]
        exact hcurrent
      · rw [hself]
        exact hpre
  refine h.frame_set hidentity (hs' ▸ rfl) ⟨hmove, hserver⟩ (hs' ▸ h.elections_mono)
    (fun a ha ↦ ?_) (hs' ▸ rfl) (hs' ▸ rfl)
  rw [hs'] at ha
  exact h.heartbeats_set hround' a ha

omit [Codec LogEntry] [Codec (BoostPersistRaftNode n)] in
theorem step_sendAppendEntries (h : ReplicationInv H s)
    (hidentity : IdentityInv (insert s'.view H) s') {k : ℕ} {peer : Fin n} {round : AppendRound n}
    {args : AppendEntriesArgs n} {r : Raft n} {reply : AppendEntriesReply} {appendNums : ℕ}
    (hround : s.heartbeats[k]? = some round) (hargs : round.requests.lookup peer = some args)
    (hpending : peer ∈ round.pending) (hreply : (peer, reply) ∈ round.replies)
    (hr : (s.servers round.caller).sendAppendEntries peer args reply round.appendNums =
      .ok (r, appendNums))
    (hs' : s' = { s.setServer round.caller r with
      heartbeats := s.heartbeats.set k
        { round with appendNums := appendNums, pending := round.pending.erase peer } }) :
    ReplicationInv (insert s'.view H) s' := by
  obtain ⟨t, l, hinv⟩ := h.heartbeats round (List.mem_of_getElem? hround)
  obtain ⟨hmove, hserver, hround'⟩ := sendAppendEntries_move h.replica rfl (h.servers round.caller)
    (Set.subset_insert s'.view H) rfl hinv (hinv.requests peer args (mem_of_lookup hargs)) hpending
    hreply hr
  refine h.frame_set hidentity (hs' ▸ rfl) ⟨hmove, hserver⟩ (hs' ▸ h.elections_mono)
    (fun a ha ↦ ?_) (hs' ▸ rfl) (hs' ▸ rfl)
  rw [hs'] at ha
  exact h.heartbeats_set (hround'.mono (Set.subset_insert _ _)) a ha

/-- Every step of a cluster without restarts and snapshots that leaves no stale tail keeps the
invariant. -/
theorem step (h : ReplicationInv H s) {a : Action n} (ha : CoreOnly s a) (hstale : NoStaleTail s a)
    (hstep : s.step a = some s') : ReplicationInv (insert s'.view H) s' := by
  have hidentity := h.identity.step ha.noRestart hstep
  have hsub : H ⊆ insert s'.view H := Set.subset_insert _ _
  cases Cluster.step_cases hstep with
  | exit i e _ => exact h.frame hidentity rfl rfl h.heartbeats_mono h.noTasks h.noCalls
  | doElection i r request hr => exact h.step_doElection hidentity hr rfl
  | requestVote k peer round r reply hround hpeer hr =>
    exact h.frame_set hidentity rfl
      (requestVote_move (h.identity.numbered peer) (h.servers peer) hsub
        (h.identity.election.rounds k round hround).candidate
        (h.elections round (List.mem_of_getElem? hround)) hpeer hr)
      (h.elections_set hround rfl rfl) h.heartbeats_mono rfl rfl
  | sendRequestVote k peer reply round r votedNum hround hpending hreply hr =>
    exact h.step_sendRequestVote hidentity hround hpending hreply hr rfl
  | start i command r result hr =>
    have hself : (s.setServer i r).view i = r.peer := Cluster.view_setServer_self s i r
    have hnum : r.Numbered := by
      have hnum := hidentity.numbered i
      simpa [Cluster.setServer] using hnum
    exact h.frame_set hidentity rfl
      (start_move (h.identity.numbered i) (h.servers i) hsub (hself ▸ seen_cur _ i) hnum hr)
      h.elections_mono h.heartbeats_mono rfl rfl
  | doHeartBeat_idle i _ =>
    exact h.frame hidentity rfl rfl h.heartbeats_mono h.noTasks h.noCalls
  | doHeartBeat i sent hr => exact h.step_doHeartBeat hidentity hr rfl
  | appendEntries k peer round args r reply hround hargs hr =>
    exact h.step_appendEntries hidentity hround hargs hr (hstale round hround args hargs) rfl
  | sendAppendEntries k peer reply round args r appendNums hround hargs hpending hreply hr =>
    exact h.step_sendAppendEntries hidentity hround hargs hpending hreply hr rfl
  | getApplyLogs i r msgs hr =>
    obtain ⟨rfl, -⟩ := Raft.getApplyLogs_cases hr
    exact h.frame_set hidentity rfl
      ⟨.stay, (h.servers i).of_same hsub rfl rfl rfl rfl (le_refl _) fun hlead ↦
        Or.inr ⟨hlead, rfl, rfl⟩⟩ h.elections_mono h.heartbeats_mono rfl rfl
  | applierPush i msg msgs _ => exact h.frame hidentity rfl rfl h.heartbeats_mono h.noTasks h.noCalls
  | snapshot i index data r _ => exact ha.elim
  | leaderSendSnapShot k i peer r args htask _ =>
    rw [h.noTasks] at htask
    cases htask
  | installSnapshot k call r reply msg hcall _ =>
    rw [h.noCalls] at hcall
    cases hcall
  | leaderSendSnapShotReply k reply call r hcall _ _ _ =>
    rw [h.noCalls] at hcall
    cases hcall
  | pushMsgToKvServer i k msg _ =>
    exact h.frame hidentity rfl rfl h.heartbeats_mono h.noTasks h.noCalls
  | restart i r data _ => exact ha.elim

end Step

end ReplicationInv

/-- The invariant of every run without restarts, snapshots and stale tails. -/
theorem replicationInv_run [Codec LogEntry] [Codec (BoostPersistRaftNode n)] (r : Run (raft n))
    (hr : r.Obeys CoreOnly) (hstale : r.Obeys NoStaleTail) (k : ℕ) :
    ReplicationInv (r.past Cluster.view k) (r.state k) := by
  have hboth : r.Obeys fun s a ↦ CoreOnly s a ∧ NoStaleTail s a :=
    fun j a ha ↦ ⟨hr j a ha, hstale j a ha⟩
  exact r.invariant_past ReplicationInv.initial
    (fun _ _ _ _ h ha hstep ↦ h.step ha.1 ha.2 hstep) hboth k

end Rsylar
