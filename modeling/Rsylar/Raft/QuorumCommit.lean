import Rsylar.Raft.IndexOrder
import Rsylar.Raft.StateMachineSafety

/-!
# Commits and their majorities

What a leader counts is what its peers have held. A peer that accepts a request has the entries of
the request in its log while it is in the term of the request (`RoundInv.accepted`). Below
`Raft.assumed`, where the next request starts and what is known to match, a leader's entries of its
own term have been held by the peer (`LeaderInv.held`): an election puts it behind every entry the
new leader can have made, and the answers raise it to the end of a request, or bring it back to the
start of one. The successes that the requests of a heartbeat count together come from different
peers (`RoundInv.counted`), and these requests end at one index.

So both commit rules commit an entry of the leader's term that a majority has held in that term
(`quorumCommit`). Snapshots may be taken and installed; no process is replaced.
-/

set_option autoImplicit false
set_option relaxedAutoImplicit false

namespace Rsylar

open TextArchive TransitionSystem Consensus

variable {n : ℕ}

/-! ### What a peer has held -/

/-- Server `p` has had an entry with this index and this term in its log while it was in the term.
-/
def Held (H : Set (Fin n → Peer (Fin n) LogEntry)) (index term : ℕ) (p : Fin n) : Prop :=
  ∃ q, Seen H p q ∧ q.term = term ∧ ∃ e ∈ q.log, e.logIndex = index ∧ e.logTerm = term

theorem Held.mono {H H' : Set (Fin n → Peer (Fin n) LogEntry)} (hsub : H ⊆ H') {index term : ℕ}
    {p : Fin n} (h : Held H index term p) : Held H' index term p := by
  obtain ⟨q, hq, hterm, he⟩ := h
  exact ⟨q, hq.mono hsub, hterm, he⟩

namespace Raft

/-- The indices below it, from the leader's log, `peer` is taken to hold. -/
def assumed (r : Raft n) (peer : Fin n) : ℕ :=
  max (r.nextIndex peer) (r.matchIndex peer + 1)

/-- A leader of the same term as before, whose log has grown at its end and has lost at its start
what a snapshot covers. -/
structure StaysLeader (r r' : Raft n) : Prop where
  leads : r.status = .leader
  term : r.currentTerm = r'.currentTerm
  new : ∀ e ∈ r'.logs, e ∈ r.logs ∨ r.getLastLogIndex < e.logIndex
  old : ∀ e ∈ r.logs, r'.lastSnapshotIncludeIndex < e.logIndex → e ∈ r'.logs

variable {r r' : Raft n}

theorem StaysLeader.of_logs (hlead : r.status = .leader) (hterm : r.currentTerm = r'.currentTerm)
    (hlogs : r'.logs = r.logs) : r.StaysLeader r' where
  leads := hlead
  term := hterm
  new := fun _ he ↦ Or.inl (hlogs ▸ he)
  old := fun _ he _ ↦ hlogs.symm ▸ he

theorem assumed_becomeLeader (r : Raft n) (peer : Fin n) :
    r.becomeLeader.assumed peer = r.getLastLogIndex + 1 := by
  show max (r.getLastLogIndex + 1) (0 + 1) = _
  omega

theorem assumed_setMatchIndex (r : Raft n) (server peer : Fin n) (index : ℕ) :
    (r.setMatchIndex server index).assumed peer =
      if peer = server then index + 1 else r.assumed peer := by
  unfold assumed setMatchIndex
  by_cases h : peer = server
  · subst h
    simp
  · simp [h]

variable [Codec LogEntry] [Codec (BoostPersistRaftNode n)]

/-! ### A leader after a handler -/

theorem staysLeader_requestVote {args : RequestVoteArgs n} {reply : RequestVoteReply}
    (hr : r.requestVote args = .ok (r', reply)) (hlead : r'.status = .leader) :
    r.StaysLeader r' ∧ ∀ peer, r'.assumed peer = r.assumed peer := by
  obtain ⟨hold, hterm⟩ := (quiet_requestVote hr).leads hlead
  have hsame : r.currentTerm ≤ args.term → (r.enterTerm args.term).currentTerm = r.currentTerm →
      r.enterTerm args.term = r := by
    intro hle heq
    rcases r.enterTerm_cases args.term hle with ⟨hlt, hdown⟩ | ⟨-, hsame⟩
    · rw [r.enterTerm_currentTerm _ hle] at heq
      omega
    · exact hsame
  rcases requestVote_cases hr with ⟨-, rfl, -⟩ | ⟨hle, rfl, -⟩ | ⟨hle, -, -, rfl, -⟩
  · exact ⟨.of_logs hold rfl rfl, fun _ ↦ rfl⟩
  · rw [hsame hle hterm.symm]
    exact ⟨.of_logs hold rfl rfl, fun _ ↦ rfl⟩
  · rw [hsame hle hterm.symm]
    exact ⟨.of_logs hold rfl rfl, fun _ ↦ rfl⟩

theorem staysLeader_appendEntries {args : AppendEntriesArgs n} {reply : AppendEntriesReply}
    (hr : r.appendEntries args = .ok (r', reply)) (hlead : r'.status = .leader) :
    r.StaysLeader r' ∧ ∀ peer, r'.assumed peer = r.assumed peer := by
  rcases appendEntries_cases hr with ⟨-, rfl, -⟩ | ⟨-, -, rfl⟩ | ⟨-, -, -, -, q, hq, -, rfl⟩
  · exact ⟨.of_logs hlead rfl rfl, fun _ ↦ rfl⟩
  · cases hlead
  · have hfollows : q.status = .follower := by
      rw [mergeEntries_logs hq]
      rfl
    cases hfollows.symm.trans hlead

theorem staysLeader_installSnapshot {args : InstallSnapshotRequest n}
    {reply : InstallSnapshotResponse} {msg : Option ApplyMsg}
    (hr : r.installSnapshot args = .ok (r', reply, msg)) (hlead : r'.status = .leader) :
    r.StaysLeader r' ∧ ∀ peer, r'.assumed peer = r.assumed peer := by
  rcases installSnapshot_cases hr with ⟨-, rfl⟩ | ⟨p, -, ⟨-, rfl⟩ | ⟨-, logs, q, -, rfl, rfl⟩⟩
  · exact ⟨.of_logs hlead rfl rfl, fun _ ↦ rfl⟩
  · cases hlead
  · cases hlead

/-- The new entry has the next index. -/
theorem staysLeader_start {me : Fin n} {command : String} {result : Option (ℕ × ℕ)}
    (hr : r.start me command = .ok (r', result)) (hlead : r'.status = .leader) :
    r.StaysLeader r' ∧ ∀ peer, r'.assumed peer = r.assumed peer := by
  rcases start_cases hr with ⟨-, rfl, -⟩ | ⟨hold, e, q, found, heq, rfl, -, rfl, -⟩
  · exact ⟨.of_logs hlead rfl rfl, fun _ ↦ rfl⟩
  · refine ⟨⟨hold, rfl, fun a ha ↦ ?_, fun a ha _ ↦ List.mem_append_left _ ha⟩, fun _ ↦ rfl⟩
    rcases List.mem_append.mp ha with ha | ha
    · exact Or.inl ha
    · rw [List.mem_singleton.mp ha, heq]
      exact Or.inr (Nat.lt_succ_self _)

theorem staysLeader_snapshot (h : r.Numbered) {index : ℕ} {data : String}
    (hr : r.snapshot index data = .ok r') (hlead : r'.status = .leader) :
    r.StaysLeader r' ∧ ∀ peer, r'.assumed peer = r.assumed peer := by
  obtain ⟨hle, -, hlogs⟩ := snapshot_logs h hr
  obtain ⟨hold, hterm⟩ := (quiet_snapshot hr).leads hlead
  refine ⟨⟨hold, hterm, fun e he ↦ Or.inl (List.mem_of_mem_drop (hlogs ▸ he)), fun e he hlt ↦ ?_⟩, ?_⟩
  · rw [hlogs]
    exact NumberedFrom.mem_drop h he (by omega)
  · rcases snapshot_cases hr with rfl | ⟨-, -, e, logs, q, -, -, rfl, rfl⟩ <;> exact fun _ ↦ rfl

end Raft

/-! ### What a step makes of a leader -/

/-- An answer reports that the log of `peer` goes up to below `bound`. -/
inductive Reported (s : Cluster n) (j : Fin n) : Action n → Fin n → ℕ → Prop
  | refused (k : ℕ) (peer : Fin n) (reply : AppendEntriesReply) (round : AppendRound n)
      (args : AppendEntriesArgs n) (bound : ℕ) (hround : s.heartbeats[k]? = some round)
      (hcaller : round.caller = j) (hargs : round.requests.lookup peer = some args)
      (hreply : (peer, reply) ∈ round.replies) (hterm : reply.term = (s.servers j).currentTerm)
      (hfail : reply.success = false) (hupdate : reply.updateNextIndex = some bound) :
      Reported s j (.sendAppendEntries k peer reply) peer bound
  | accepted (k : ℕ) (peer : Fin n) (reply : AppendEntriesReply) (round : AppendRound n)
      (args : AppendEntriesArgs n) (hround : s.heartbeats[k]? = some round)
      (hcaller : round.caller = j) (hargs : round.requests.lookup peer = some args)
      (hreply : (peer, reply) ∈ round.replies) (hterm : reply.term = (s.servers j).currentTerm)
      (hsuccess : reply.success = true) :
      Reported s j (.sendAppendEntries k peer reply) peer
        (args.prevLogIndex + args.entries.length + 1)
  | installed (k : ℕ) (reply : InstallSnapshotResponse) (call : SnapshotCall n)
      (hcall : s.snapshotCalls[k]? = some call) (hcaller : call.caller = j)
      (hpending : call.pending = true) :
      Reported s j (.leaderSendSnapShotReply k reply) call.server
        (call.args.lastSnapshotIncludeIndex + 1)

/-- A server that leads after a step has led before, and raises what it assumes of a peer as far as
an answer reports; or it is a new leader. -/
inductive LeaderMove (H : Set (Fin n → Peer (Fin n) LogEntry)) (s : Cluster n) (j : Fin n)
    (a : Action n) (r : Raft n) : Prop
  | stays (h : (s.servers j).StaysLeader r)
      (hassumed : ∀ peer, r.assumed peer ≤ (s.servers j).assumed peer ∨ ∃ bound,
        r.assumed peer ≤ max ((s.servers j).assumed peer) bound ∧ Reported s j a peer bound)
  | elected (hnot : ¬ Led H r.currentTerm j) (hlogs : r.logs = (s.servers j).logs)
      (hassumed : ∀ peer, r.assumed peer = r.getLastLogIndex + 1)

section Step

variable {H : Set (Fin n → Peer (Fin n) LogEntry)} {s s' : Cluster n}

theorem leaderMove_same {j : Fin n} {a : Action n} (hlead : (s.servers j).status = .leader) :
    LeaderMove H s j a (s.servers j) :=
  .stays (.of_logs hlead rfl rfl) fun _ ↦ Or.inl (le_refl _)

/-- A handler that leaves alone what is assumed of the peers. -/
theorem leaderMove_of_assumed {j : Fin n} {r : Raft n} {a : Action n}
    (h : (s.servers j).StaysLeader r ∧ ∀ peer, r.assumed peer = (s.servers j).assumed peer) :
    LeaderMove H s j a r :=
  .stays h.1 fun peer ↦ Or.inl (h.2 peer).le

theorem leaderMove_setServer {i j : Fin n} {r : Raft n} {a : Action n}
    (h : r.status = .leader → LeaderMove H s i a r)
    (hlead : ((s.setServer i r).servers j).status = .leader) :
    LeaderMove H s j a ((s.setServer i r).servers j) := by
  by_cases hj : j = i
  · subst hj
    simp only [Cluster.setServer, Function.update_self] at hlead ⊢
    exact h hlead
  · simp only [Cluster.setServer, Function.update_of_ne hj] at hlead ⊢
    exact leaderMove_same hlead

/-- Who wins an election has not led its term. -/
theorem ElectionInv.not_led_of_win (h : ElectionInv H s) {k : ℕ} {round : VoteRound n}
    {peer : Fin n} {reply : RequestVoteReply} (hround : s.elections[k]? = some round)
    (hpending : peer ∈ round.pending) (hreply : (peer, reply) ∈ round.replies)
    (hgranted : reply.voteGranted = true) (hmajority : n / 2 + 1 ≤ round.votedNum + 1) :
    ¬ Led H reply.term round.caller := by
  have hinv := h.rounds k round hround
  obtain ⟨hterm, -⟩ := hinv.granted peer reply hreply hgranted
  have hpos : 0 < round.pending.card := Finset.card_pos.mpr ⟨peer, hpending⟩
  rcases hinv.count with ⟨hnot, -⟩ | hwon
  · rwa [hterm]
  · omega

variable [Codec LogEntry] [Codec (BoostPersistRaftNode n)]

theorem leaderMove_doElection (h : ElectionInv H s) {i : Fin n} {a : Action n} {r : Raft n}
    {request : Option (RequestVoteArgs n)} (hr : (s.servers i).doElection i = (r, request))
    (hlead : r.status = .leader) : LeaderMove H s i a r := by
  rcases (s.servers i).doElection_cases i with ⟨hold, heq⟩ | ⟨-, -, heq⟩ | ⟨-, -, heq⟩ <;>
    obtain ⟨rfl, -⟩ := Prod.mk.inj (heq.symm.trans hr)
  · exact leaderMove_same hold
  · refine .elected (fun hled ↦ ?_) rfl (Raft.assumed_becomeLeader _)
    exact absurd (h.ballot.led_le hled) (Nat.not_succ_le_self _)
  · cases hlead

theorem leaderMove_sendRequestVote (h : ElectionInv H s) {k : ℕ} {round : VoteRound n}
    {peer : Fin n} {reply : RequestVoteReply} {a : Action n} {r : Raft n} {votedNum : ℕ}
    (hround : s.elections[k]? = some round) (hpending : peer ∈ round.pending)
    (hreply : (peer, reply) ∈ round.replies)
    (hr : (s.servers round.caller).sendRequestVote reply round.votedNum = .ok (r, votedNum))
    (hlead : r.status = .leader) : LeaderMove H s round.caller a r := by
  rcases Raft.sendRequestVote_cases hr with ⟨-, rfl, -⟩ | ⟨rfl, -⟩ | ⟨-, -, -, rfl, -⟩ |
    ⟨hterm, hgranted, hmajority, -, rfl, -⟩
  · cases hlead
  · exact leaderMove_same hlead
  · exact leaderMove_same hlead
  · refine .elected ?_ rfl (Raft.assumed_becomeLeader _)
    have hnot := h.not_led_of_win hround hpending hreply hgranted hmajority
    rwa [hterm] at hnot

omit [Codec LogEntry] [Codec (BoostPersistRaftNode n)] in
theorem leaderMove_sendAppendEntries {k : ℕ} {round : AppendRound n} {peer : Fin n}
    {args : AppendEntriesArgs n} {reply : AppendEntriesReply} {r : Raft n} {appendNums : ℕ}
    (hround : s.heartbeats[k]? = some round) (hargs : round.requests.lookup peer = some args)
    (hreply : (peer, reply) ∈ round.replies)
    (hr : (s.servers round.caller).sendAppendEntries peer args reply round.appendNums =
      .ok (r, appendNums)) (hlead : r.status = .leader) :
    LeaderMove H s round.caller (.sendAppendEntries k peer reply) r := by
  have hset : ∀ (q : Raft n) (index : ℕ), q.logs = (s.servers round.caller).logs →
      q.currentTerm = (s.servers round.caller).currentTerm →
      (s.servers round.caller).status = .leader →
      (∀ p, q.assumed p ≤ if p = peer then
        max ((s.servers round.caller).assumed p) index else (s.servers round.caller).assumed p) →
      Reported s round.caller (.sendAppendEntries k peer reply) peer index →
      LeaderMove H s round.caller (.sendAppendEntries k peer reply) q := by
    intro q index hlogs hterm hold hassumed hreported
    refine .stays (.of_logs hold hterm.symm hlogs) fun p ↦ ?_
    have hle := hassumed p
    split at hle
    · rename_i hp
      subst hp
      exact Or.inr ⟨index, hle, hreported⟩
    · exact Or.inl hle
  rcases Raft.sendAppendEntries_cases hr with ⟨rfl, -⟩ | ⟨-, -, rfl, -⟩ |
    ⟨hold, hterm, hfail, -, index, hupdate, rfl⟩ | ⟨hold, hterm, hsuccess, reached, rfl, -, hcases⟩
  · exact leaderMove_same hlead
  · cases hlead
  · refine hset _ index rfl rfl hold (fun p ↦ ?_)
      (.refused k peer reply round args index hround rfl hargs hreply hterm hfail hupdate)
    unfold Raft.assumed
    by_cases hp : p = peer
    · subst hp
      simp only [Function.update_self, if_pos]
      omega
    · simp [hp]
  · have hreported : Reported s round.caller (.sendAppendEntries k peer reply) peer
        (args.prevLogIndex + args.entries.length + 1) :=
      .accepted k peer reply round args hround rfl hargs hreply hterm hsuccess
    have hassumed : ∀ p, ((s.servers round.caller).setMatchIndex peer
        (max ((s.servers round.caller).matchIndex peer)
          (args.prevLogIndex + args.entries.length))).assumed p ≤ if p = peer then
        max ((s.servers round.caller).assumed p) (args.prevLogIndex + args.entries.length + 1)
        else (s.servers round.caller).assumed p := by
      intro p
      rw [Raft.assumed_setMatchIndex]
      split
      · rename_i hp
        subst hp
        unfold Raft.assumed
        omega
      · exact le_refl _
    rcases hcases with ⟨rfl, -⟩ | ⟨-, -, -, rfl⟩
    · exact hset _ _ rfl rfl hold hassumed hreported
    · exact hset _ _ rfl rfl hold hassumed hreported

theorem leaderMove_leaderSendSnapShotReply {k : ℕ} {call : SnapshotCall n}
    {reply : InstallSnapshotResponse} (hcall : s.snapshotCalls[k]? = some call)
    (hpending : call.pending = true)
    (hlead : ((s.servers call.caller).leaderSendSnapShotReply call.server call.args reply).status =
      .leader) :
    LeaderMove H s call.caller (.leaderSendSnapShotReply k reply)
      ((s.servers call.caller).leaderSendSnapShotReply call.server call.args reply) := by
  rcases (s.servers call.caller).leaderSendSnapShotReply_cases call.server call.args reply with
    heq | ⟨-, heq⟩ | ⟨hold, -, -, heq⟩ <;> rw [heq] at hlead ⊢
  · exact leaderMove_same hlead
  · cases hlead
  · refine .stays (.of_logs hold rfl rfl) fun p ↦ ?_
    rw [Raft.assumed_setMatchIndex]
    split
    · rename_i hp
      subst hp
      exact Or.inr ⟨_, le_max_right _ _, .installed k reply call hcall rfl hpending⟩
    · exact Or.inl (le_refl _)

/-- What every step of a cluster without restarts makes of a leader. -/
theorem leaderMove_step (h : IdentityInv H s) {a : Action n} (ha : NoRestart s a)
    (hstep : s.step a = some s') (j : Fin n) (hlead : (s'.servers j).status = .leader) :
    LeaderMove H s j a (s'.servers j) := by
  cases Cluster.step_cases hstep with
  | exit i e _ => exact leaderMove_same hlead
  | doElection i r request hr =>
    exact leaderMove_setServer (leaderMove_doElection h.election hr) hlead
  | requestVote k peer round r reply _ _ hr =>
    exact leaderMove_setServer
      (fun hl ↦ leaderMove_of_assumed (Raft.staysLeader_requestVote hr hl)) hlead
  | sendRequestVote k peer reply round r votedNum hround hpending hreply hr =>
    exact leaderMove_setServer
      (leaderMove_sendRequestVote h.election hround hpending hreply hr) hlead
  | start i command r result hr =>
    exact leaderMove_setServer
      (fun hl ↦ leaderMove_of_assumed (Raft.staysLeader_start hr hl)) hlead
  | doHeartBeat_idle i _ => exact leaderMove_same hlead
  | doHeartBeat i sent _ => exact leaderMove_same hlead
  | appendEntries k peer round args r reply _ _ hr =>
    exact leaderMove_setServer
      (fun hl ↦ leaderMove_of_assumed (Raft.staysLeader_appendEntries hr hl)) hlead
  | sendAppendEntries k peer reply round args r appendNums hround hargs _ hreply hr =>
    exact leaderMove_setServer (leaderMove_sendAppendEntries hround hargs hreply hr) hlead
  | getApplyLogs i r msgs hr =>
    obtain ⟨rfl, -⟩ := Raft.getApplyLogs_cases hr
    exact leaderMove_setServer
      (fun hl ↦ leaderMove_of_assumed ⟨.of_logs hl rfl rfl, fun _ ↦ rfl⟩) hlead
  | applierPush i msg msgs _ => exact leaderMove_same hlead
  | snapshot i index data r hr =>
    exact leaderMove_setServer
      (fun hl ↦ leaderMove_of_assumed (Raft.staysLeader_snapshot (h.numbered i) hr hl)) hlead
  | leaderSendSnapShot k i peer r args _ hr =>
    cases hr
    exact leaderMove_setServer
      (fun hl ↦ leaderMove_of_assumed ⟨.of_logs hl rfl rfl, fun _ ↦ rfl⟩) hlead
  | installSnapshot k call r reply msg _ hr =>
    exact leaderMove_setServer
      (fun hl ↦ leaderMove_of_assumed (Raft.staysLeader_installSnapshot hr hl)) hlead
  | leaderSendSnapShotReply k reply call r hcall hpending _ hr =>
    cases hr
    exact leaderMove_setServer (leaderMove_leaderSendSnapShotReply hcall hpending) hlead
  | pushMsgToKvServer i k msg _ => exact leaderMove_same hlead
  | restart i r data _ => exact ha.elim

end Step

/-! ### The invariant -/

/-- What a leader assumes of its peers is right for its entries of its own term. -/
structure LeaderInv (H : Set (Fin n → Peer (Fin n) LogEntry)) (r : Raft n) : Prop where
  assumed_le : ∀ peer, r.assumed peer ≤ r.getLastLogIndex + 1
  held : ∀ peer, ∀ e ∈ r.logs, e.logTerm = r.currentTerm → e.logIndex < r.assumed peer →
    Held H e.logIndex r.currentTerm peer

/-- What is known of a request to `peer` as long as its sender `r` leads the term of the request. -/
structure RequestInv (H : Set (Fin n → Peer (Fin n) LogEntry)) (r : Raft n) (peer : Fin n)
    (args : AppendEntriesArgs n) : Prop where
  end_le : args.prevLogIndex + args.entries.length ≤ r.getLastLogIndex
  /-- Entries of its term that the request does not carry have been held. -/
  before : ∀ e ∈ r.logs, e.logTerm = args.term → e.logIndex ≤ args.prevLogIndex →
    Held H e.logIndex args.term peer
  carried : ∀ e ∈ r.logs, args.prevLogIndex < e.logIndex →
    e.logIndex ≤ args.prevLogIndex + args.entries.length → e ∈ args.entries
  kept : ∀ e ∈ args.entries, r.lastSnapshotIncludeIndex < e.logIndex → e ∈ r.logs

/-- What is known of the requests of one heartbeat and of their answers. -/
structure RoundInv (H : Set (Fin n → Peer (Fin n) LogEntry)) (round : AppendRound n) : Prop where
  same_end : ∀ peer args peer' args', (peer, args) ∈ round.requests →
    (peer', args') ∈ round.requests → args.term = args'.term ∧
      args.prevLogIndex + args.entries.length = args'.prevLogIndex + args'.entries.length
  accepted : ∀ peer args reply, round.requests.lookup peer = some args →
    (peer, reply) ∈ round.replies → reply.success = true → reply.term = args.term ∧
      ∀ e ∈ args.entries, e.logTerm = args.term → Held H e.logIndex args.term peer
  refused : ∀ peer args reply index, round.requests.lookup peer = some args →
    (peer, reply) ∈ round.replies → reply.success = false → reply.updateNextIndex = some index →
      reply.term = args.term ∧ index ≤ args.prevLogIndex + 1
  /-- The counter counts the leader and peers whose calls have returned a success. -/
  counted : ∃ Q : Finset (Fin n), Disjoint Q round.pending ∧ round.appendNums ≤ Q.card + 1 ∧
    ∀ peer ∈ Q, ∃ args reply, round.requests.lookup peer = some args ∧
      (peer, reply) ∈ round.replies ∧ reply.success = true

structure QuorumInv (H : Set (Fin n → Peer (Fin n) LogEntry)) (s : Cluster n) : Prop where
  leaders : ∀ i, (s.servers i).status = .leader → LeaderInv H (s.servers i)
  requests : ∀ round ∈ s.heartbeats, ∀ peer args, (peer, args) ∈ round.requests →
    (s.servers round.caller).status = .leader →
    (s.servers round.caller).currentTerm = args.term →
    RequestInv H (s.servers round.caller) peer args
  rounds : ∀ round ∈ s.heartbeats, RoundInv H round

section Preservation

variable {H H' : Set (Fin n → Peer (Fin n) LogEntry)} {s s' : Cluster n} {r r' : Raft n}

theorem RoundInv.mono (hsub : H ⊆ H') {round : AppendRound n} (h : RoundInv H round) :
    RoundInv H' round where
  same_end := h.same_end
  accepted := fun peer args reply hargs hreply hsuccess ↦ by
    obtain ⟨hterm, hheld⟩ := h.accepted peer args reply hargs hreply hsuccess
    exact ⟨hterm, fun e he hsame ↦ (hheld e he hsame).mono hsub⟩
  refused := h.refused
  counted := h.counted

/-- A request of a leader that has gone on leading. -/
theorem RequestInv.stays (hsub : H ⊆ H') {peer : Fin n} {args : AppendEntriesArgs n}
    (h : RequestInv H r peer args) (hstays : r.StaysLeader r')
    (hlast : r.getLastLogIndex ≤ r'.getLastLogIndex)
    (hsnapshot : r.lastSnapshotIncludeIndex ≤ r'.lastSnapshotIncludeIndex) :
    RequestInv H' r' peer args where
  end_le := h.end_le.trans hlast
  before := by
    intro e he hterm hle
    have hend := h.end_le
    rcases hstays.new e he with hold | hbeyond
    · exact (h.before e hold hterm hle).mono hsub
    · omega
  carried := by
    intro e he hlt hle
    have hend := h.end_le
    rcases hstays.new e he with hold | hbeyond
    · exact h.carried e hold hlt hle
    · omega
  kept := fun e he hlt ↦ hstays.old e (h.kept e he (by omega)) hlt

/-- A leader that assumes of its peers what it did, or more of one that has held it. -/
theorem LeaderInv.stays (hsub : H ⊆ H') (h : LeaderInv H r) (hstays : r.StaysLeader r')
    (hlast : r.getLastLogIndex ≤ r'.getLastLogIndex)
    (hassumed : ∀ peer, r'.assumed peer ≤ r.assumed peer ∨ ∃ bound,
      r'.assumed peer ≤ max (r.assumed peer) bound ∧ bound ≤ r.getLastLogIndex + 1 ∧
      ∀ e ∈ r.logs, e.logTerm = r.currentTerm → e.logIndex < bound →
        Held H e.logIndex r.currentTerm peer) : LeaderInv H' r' where
  assumed_le := by
    intro peer
    have hle := h.assumed_le peer
    rcases hassumed peer with hle' | ⟨bound, hle', hbound, -⟩ <;> omega
  held := by
    intro peer e he hterm hlt
    rw [← hstays.term] at hterm ⊢
    have hle := h.assumed_le peer
    rcases hstays.new e he with hold | hbeyond
    · rcases hassumed peer with hle' | ⟨bound, hle', -, hheld⟩
      · exact (h.held peer e hold hterm (by omega)).mono hsub
      · rcases Nat.lt_or_ge e.logIndex (r.assumed peer) with hbelow | habove
        · exact (h.held peer e hold hterm hbelow).mono hsub
        · exact (hheld e hold hterm (by omega)).mono hsub
    · rcases hassumed peer with hle' | ⟨bound, hle', hbound, -⟩ <;> omega

namespace QuorumInv

theorem initial : QuorumInv {(Cluster.initial : Cluster n).view} (Cluster.initial : Cluster n) where
  leaders := fun i hlead ↦ by cases hlead
  requests := fun round hround ↦ by cases hround
  rounds := fun round hround ↦ by cases hround

/-- What an answer reports is in the log of the leader, and the peer has held the leader's entries
of its own term up to there. -/
theorem reported (h : QuorumInv H s) (hshape : ShapeInv s) {a : Action n} {j peer : Fin n}
    {bound : ℕ} (hlead : (s.servers j).status = .leader) (hr : Reported s j a peer bound) :
    bound ≤ (s.servers j).getLastLogIndex + 1 ∧ ∀ e ∈ (s.servers j).logs,
      e.logTerm = (s.servers j).currentTerm → e.logIndex < bound →
        Held H e.logIndex (s.servers j).currentTerm peer := by
  cases hr with
  | refused k peer reply round args bound hround hcaller hargs hreply hterm hfail hupdate =>
    subst hcaller
    have hmem := List.mem_of_getElem? hround
    obtain ⟨hsame, hle⟩ := (h.rounds round hmem).refused peer args reply bound hargs hreply hfail
      hupdate
    have hterm : (s.servers round.caller).currentTerm = args.term := hterm.symm.trans hsame
    have hrequest := h.requests round hmem peer args (mem_of_lookup hargs) hlead hterm
    have hend := hrequest.end_le
    refine ⟨by omega, fun e he heq hlt ↦ ?_⟩
    rw [hterm] at heq ⊢
    exact hrequest.before e he heq (by omega)
  | accepted k peer reply round args hround hcaller hargs hreply hterm hsuccess =>
    subst hcaller
    have hmem := List.mem_of_getElem? hround
    obtain ⟨hsame, hheld⟩ := (h.rounds round hmem).accepted peer args reply hargs hreply hsuccess
    have hterm : (s.servers round.caller).currentTerm = args.term := hterm.symm.trans hsame
    have hrequest := h.requests round hmem peer args (mem_of_lookup hargs) hlead hterm
    have hend := hrequest.end_le
    refine ⟨by omega, fun e he heq hlt ↦ ?_⟩
    rw [hterm] at heq ⊢
    rcases Nat.lt_or_ge args.prevLogIndex e.logIndex with habove | hbelow
    · exact hheld e (hrequest.carried e he habove (by omega)) heq
    · exact hrequest.before e he heq hbelow
  | installed k reply call hcall hcaller hpending =>
    subst hcaller
    -- The entries of the leader are behind its snapshot.
    have hle := hshape.calls call (List.mem_of_getElem? hcall) hpending
    have hlast := (hshape.servers call.caller).numbered.getLastLogIndex_eq
    refine ⟨by omega, fun e he heq hlt ↦ ?_⟩
    obtain ⟨m, hm⟩ := List.mem_iff_getElem?.mp he
    have hindex := (hshape.servers call.caller).numbered m e hm
    omega

/-- The heartbeats after a step that changes none. -/
theorem rounds_same (h : QuorumInv H s) (heq : s'.heartbeats = s.heartbeats) :
    ∀ round ∈ s'.heartbeats, RoundInv (insert s'.view H) round :=
  fun round hround ↦ (h.rounds round (heq ▸ hround)).mono (Set.subset_insert _ _)

theorem rounds_set (h : QuorumInv H s) {k : ℕ} {round : AppendRound n}
    (heq : s'.heartbeats = s.heartbeats.set k round) (hround : RoundInv (insert s'.view H) round) :
    ∀ round ∈ s'.heartbeats, RoundInv (insert s'.view H) round := by
  intro a ha
  rw [heq] at ha
  rcases List.mem_or_eq_of_mem_set ha with ha | rfl
  · exact (h.rounds a ha).mono (Set.subset_insert _ _)
  · exact hround

/-- One more answer. -/
theorem round_answered {round : AppendRound n} (hinv : RoundInv H round) {peer : Fin n}
    {args : AppendEntriesArgs n} {reply : AppendEntriesReply}
    (hargs : round.requests.lookup peer = some args)
    (haccepted : reply.success = true → reply.term = args.term ∧
      ∀ e ∈ args.entries, e.logTerm = args.term → Held H e.logIndex args.term peer)
    (hrefused : ∀ index, reply.success = false → reply.updateNextIndex = some index →
      reply.term = args.term ∧ index ≤ args.prevLogIndex + 1) :
    RoundInv H { round with replies := round.replies ++ [(peer, reply)] } where
  same_end := hinv.same_end
  accepted := by
    intro v args' answer hlookup hanswer hsuccess
    rcases List.mem_append.mp hanswer with hold | hnew
    · exact hinv.accepted v args' answer hlookup hold hsuccess
    · cases List.mem_singleton.mp hnew
      obtain rfl : args = args' := Option.some.inj (hargs.symm.trans hlookup)
      exact haccepted hsuccess
  refused := by
    intro v args' answer index hlookup hanswer hfail hupdate
    rcases List.mem_append.mp hanswer with hold | hnew
    · exact hinv.refused v args' answer index hlookup hold hfail hupdate
    · cases List.mem_singleton.mp hnew
      obtain rfl : args = args' := Option.some.inj (hargs.symm.trans hlookup)
      exact hrefused index hfail hupdate
  counted := by
    obtain ⟨Q, hdisjoint, hcard, hQ⟩ := hinv.counted
    refine ⟨Q, hdisjoint, hcard, fun v hv ↦ ?_⟩
    obtain ⟨args', answer, hlookup, hanswer, hsuccess⟩ := hQ v hv
    exact ⟨args', answer, hlookup, List.mem_append_left _ hanswer, hsuccess⟩

/-- One more call has returned: its success is counted, or the counter stays or starts again. -/
theorem round_returned {round : AppendRound n} (hinv : RoundInv H round) {peer : Fin n}
    {args : AppendEntriesArgs n} {reply : AppendEntriesReply}
    (hargs : round.requests.lookup peer = some args) (hpending : peer ∈ round.pending)
    (hreply : (peer, reply) ∈ round.replies) {appendNums : ℕ}
    (hnums : appendNums ≤ round.appendNums ∨
      reply.success = true ∧ appendNums ≤ round.appendNums + 1) :
    RoundInv H { round with appendNums := appendNums, pending := round.pending.erase peer } where
  same_end := hinv.same_end
  accepted := hinv.accepted
  refused := hinv.refused
  counted := by
    obtain ⟨Q, hdisjoint, hcard, hQ⟩ := hinv.counted
    have hdisjoint' := hdisjoint.mono_right (Finset.erase_subset peer round.pending)
    rcases hnums with hle | ⟨hsuccess, hle⟩
    · exact ⟨Q, hdisjoint', hle.trans hcard, hQ⟩
    · have hnew : peer ∉ Q := fun hmem ↦ Finset.disjoint_left.mp hdisjoint hmem hpending
      refine ⟨insert peer Q, ?_, ?_, fun v hv ↦ ?_⟩
      · rw [Finset.disjoint_insert_left]
        exact ⟨Finset.notMem_erase _ _, hdisjoint'⟩
      · rw [Finset.card_insert_of_notMem hnew]
        exact hle.trans (Nat.add_le_add_right hcard 1)
      · rcases Finset.mem_insert.mp hv with rfl | hv
        · exact ⟨args, reply, hargs, hreply, hsuccess⟩
        · exact hQ v hv

/-- The requests of a new heartbeat. -/
theorem requestInv_of_begin {i peer : Fin n} {args : AppendEntriesArgs n} (h : LeaderInv H (s.servers i))
    (hnumbered : (s.servers i).Numbered)
    (hto : (s.servers i).heartBeatTo i peer = .ok (some args)) :
    RequestInv H (s.servers i) peer args := by
  obtain ⟨hterm, -, -, hend, hentries, hprev⟩ := Raft.heartBeatTo_some hto
  have hnext := Raft.heartBeatTo_prevLogIndex hto
  have hle : (s.servers i).lastSnapshotIncludeIndex ≤ args.prevLogIndex := by
    rcases hprev with ⟨heq, -⟩ | ⟨e, he, -⟩
    · exact heq.ge
    · exact (hnumbered.entryAt_iff.mp he).1.le
  refine ⟨hend.le, fun e he heq hbelow ↦ ?_, fun e he habove _ ↦ ?_, fun e he _ ↦ ?_⟩
  · have hassumed : (s.servers i).nextIndex peer ≤ (s.servers i).assumed peer := le_max_left _ _
    rw [hterm] at heq ⊢
    exact h.held peer e he heq (by omega)
  · rw [hentries]
    exact NumberedFrom.mem_drop hnumbered he (by omega)
  · rw [hentries] at he
    exact List.mem_of_mem_drop he

theorem roundInv_of_begin {i : Fin n} {sent : List (Fin n × Option (AppendEntriesArgs n))}
    (hr : (s.servers i).doHeartBeat i = .ok (some sent)) : RoundInv H (AppendRound.begin i sent) where
  same_end := by
    intro peer args peer' args' hmem hmem'
    obtain ⟨-, -, hto⟩ := heartBeatTo_of_begin hr hmem
    obtain ⟨-, -, hto'⟩ := heartBeatTo_of_begin hr hmem'
    obtain ⟨hterm, -, -, hend, -⟩ := Raft.heartBeatTo_some hto
    obtain ⟨hterm', -, -, hend', -⟩ := Raft.heartBeatTo_some hto'
    exact ⟨hterm.trans hterm'.symm, hend.trans hend'.symm⟩
  accepted := fun _ _ _ _ hreply ↦ absurd hreply List.not_mem_nil
  refused := fun _ _ _ _ _ hreply ↦ absurd hreply List.not_mem_nil
  counted := ⟨∅, Finset.disjoint_empty_left _, le_refl 1, fun _ hv ↦ absurd hv (Finset.notMem_empty _)⟩

variable [Codec LogEntry] [Codec (BoostPersistRaftNode n)]

/-- The leaders after a step. -/
theorem leaders_step (h : QuorumInv H s) (hidentity : IdentityInv H s) (hshape : ShapeInv s)
    (hidentity' : IdentityInv (insert s'.view H) s') {a : Action n} (ha : NoRestart s a)
    (hstep : s.step a = some s') (i : Fin n) (hlead : (s'.servers i).status = .leader) :
    LeaderInv (insert s'.view H) (s'.servers i) := by
  have hsub : H ⊆ insert s'.view H := Set.subset_insert _ _
  have hlast := hshape.last_le_step hstep i fun heq ↦ by
    rw [heq] at ha
    exact ha.elim
  rcases leaderMove_step hidentity ha hstep i hlead with ⟨hstays, hassumed⟩ | ⟨hnot, hlogs, hassumed⟩
  · refine (h.leaders i hstays.leads).stays hsub hstays hlast fun peer ↦ ?_
    rcases hassumed peer with hle | ⟨bound, hle, hreported⟩
    · exact Or.inl hle
    · obtain ⟨hbound, hheld⟩ := h.reported hshape hstays.leads hreported
      exact Or.inr ⟨bound, hle, hbound, hheld⟩
  · refine ⟨fun peer ↦ (hassumed peer).le, fun peer e he hterm _ ↦ ?_⟩
    -- A new leader has no entry of its term.
    rw [hlogs] at he
    obtain ⟨j, hj⟩ := hidentity.led e ⟨i, s.view i, hidentity.election.ballot.seen_self i, he⟩
    rw [hterm] at hj
    have hled : Led (insert s'.view H) (s'.servers i).currentTerm i :=
      ⟨s'.view i, hidentity'.election.ballot.seen_self i, rfl, hlead⟩
    obtain rfl := hidentity'.election.ballot.led_unique (hj.mono hsub) hled
    exact absurd hj hnot

/-- The requests of the heartbeats that there were before the step. -/
theorem requests_step (h : QuorumInv H s) (hidentity : IdentityInv H s) (hshape : ShapeInv s)
    {a : Action n} (ha : NoRestart s a) (hstep : s.step a = some s') {round : AppendRound n}
    (hround : round ∈ s.heartbeats) {peer : Fin n} {args : AppendEntriesArgs n}
    (hmem : (peer, args) ∈ round.requests)
    (hlead : (s'.servers round.caller).status = .leader)
    (hterm : (s'.servers round.caller).currentTerm = args.term) :
    RequestInv (insert s'.view H) (s'.servers round.caller) peer args := by
  have hne : a ≠ .restart round.caller := fun heq ↦ by
    rw [heq] at ha
    exact ha.elim
  rcases leaderMove_step hidentity ha hstep round.caller hlead with ⟨hstays, -⟩ | ⟨hnot, -, -⟩
  · exact (h.requests round hround peer args hmem hstays.leads (hstays.term.trans hterm)).stays
      (Set.subset_insert _ _) hstays
      (hshape.last_le_step hstep _ fun heq ↦ absurd heq hne)
      (hshape.snapshot_le_step hstep _ hne)
  · rw [hterm] at hnot
    exact absurd (hidentity.requests round hround peer args hmem).led hnot

/-- A request that is accepted is in the log of its peer, in the term of the request. -/
theorem held_of_accepted {peer : Fin n} {args : AppendEntriesArgs n}
    {r : Raft n} {reply : AppendEntriesReply} (hnumbered : (s.servers peer).Numbered)
    (hentries : NumberedFrom args.prevLogIndex args.entries)
    (hr : (s.servers peer).appendEntries args = .ok (r, reply)) (hsuccess : reply.success = true)
    (hself : s'.view peer = r.peer) :
    reply.term = args.term ∧ ∀ e ∈ args.entries, e.logTerm = args.term →
      Held (insert s'.view H) e.logIndex args.term peer := by
  rcases Raft.appendEntries_cases hr with ⟨-, -, hno⟩ | ⟨-, hno, -⟩ |
    ⟨hle, -, hterm, hprev, q, hq, -, rfl⟩
  · rw [hno] at hsuccess
    cases hsuccess
  · rw [hno] at hsuccess
    cases hsuccess
  · obtain ⟨rfl, -, -⟩ := appendEntries_logs hnumbered hentries hprev hq
    refine ⟨hterm, fun e he hsame ↦ ⟨s'.view peer, seen_cur s'.view peer, ?_, e, ?_, rfl, hsame⟩⟩
    · rw [hself]
      exact Raft.enterTerm_currentTerm _ _ hle
    · rw [hself]
      exact mem_writeAt_of_mem he

/-- What one step preserves. -/
theorem step (h : QuorumInv H s) (hidentity : IdentityInv H s) (hshape : ShapeInv s)
    (hidentity' : IdentityInv (insert s'.view H) s') {a : Action n} (ha : NoRestart s a)
    (hstep : s.step a = some s') : QuorumInv (insert s'.view H) s' := by
  have hleaders := h.leaders_step hidentity hshape hidentity' ha hstep
  have hrequests : SameRequests s s' → ∀ round ∈ s'.heartbeats, ∀ peer args,
      (peer, args) ∈ round.requests → (s'.servers round.caller).status = .leader →
      (s'.servers round.caller).currentTerm = args.term →
      RequestInv (insert s'.view H) (s'.servers round.caller) peer args := by
    intro hsent round hround peer args hmem hlead hterm
    obtain ⟨old, hold, hcaller, hsame⟩ := hsent round hround
    rw [← hcaller] at hlead hterm ⊢
    exact h.requests_step hidentity hshape ha hstep hold (hsame ▸ hmem) hlead hterm
  have hsub : H ⊆ insert s'.view H := Set.subset_insert _ _
  cases Cluster.step_cases hstep with
  | doHeartBeat i sent hr =>
    refine ⟨hleaders, fun round hround peer args hmem hlead hterm ↦ ?_, fun round hround ↦ ?_⟩
    · rcases List.mem_append.mp hround with hold | hnew
      · exact h.requests_step hidentity hshape ha hstep hold hmem hlead hterm
      · rw [List.mem_singleton.mp hnew] at hmem hlead ⊢
        obtain ⟨-, -, hto⟩ := heartBeatTo_of_begin hr hmem
        exact requestInv_of_begin (hleaders i hlead) (hidentity.numbered i) hto
    · rcases List.mem_append.mp hround with hold | hnew
      · exact (h.rounds round hold).mono hsub
      · rw [List.mem_singleton.mp hnew]
        exact roundInv_of_begin hr
  | appendEntries k peer round args r reply hround hargs hr =>
    have hmem := List.mem_of_getElem? hround
    have hrequest := hidentity.requests round hmem peer args (mem_of_lookup hargs)
    refine ⟨hleaders, hrequests (.of_set hround rfl rfl rfl), h.rounds_set rfl
      (round_answered ((h.rounds round hmem).mono hsub) hargs (fun hsuccess ↦ ?_)
        fun index hfail hupdate ↦ Raft.appendEntries_updateNextIndex hr hfail hupdate)⟩
    exact held_of_accepted (hidentity.numbered peer) hrequest.numbered hr hsuccess
      (Cluster.view_setServer_self s peer r)
  | sendAppendEntries k peer reply round args r appendNums hround hargs hpending hreply hr =>
    have hnums : appendNums ≤ round.appendNums ∨
        reply.success = true ∧ appendNums ≤ round.appendNums + 1 := by
      rcases Raft.sendAppendEntries_cases hr with ⟨-, rfl⟩ | ⟨-, -, -, rfl⟩ | ⟨-, -, -, rfl, -⟩ |
        ⟨-, -, hsuccess, _, -, -, ⟨-, rfl | rfl, -⟩ | ⟨-, rfl, -⟩⟩
      · exact Or.inl (le_refl _)
      · exact Or.inl (le_refl _)
      · exact Or.inl (le_refl _)
      · exact Or.inr ⟨hsuccess, le_refl _⟩
      · exact Or.inl (Nat.zero_le _)
      · exact Or.inl (Nat.zero_le _)
    exact ⟨hleaders, hrequests (.of_set hround rfl rfl rfl), h.rounds_set rfl
      (round_returned ((h.rounds round (List.mem_of_getElem? hround)).mono hsub) hargs hpending
        hreply hnums)⟩
  | restart i r data _ => exact ha.elim
  | _ => exact ⟨hleaders, hrequests (.of_eq rfl), h.rounds_same rfl⟩

/-! ### The two commit rules -/

omit [Codec LogEntry] [Codec (BoostPersistRaftNode n)] in
/-- The peers that `matchIndex` counts have held the leader's entry of its own term. -/
theorem matched_majority (h : QuorumInv H s) (hidentity : IdentityInv H s) {i : Fin n}
    (hlead : (s.servers i).status = .leader) {e : LogEntry} (he : e ∈ (s.servers i).logs)
    (hterm : e.logTerm = (s.servers i).currentTerm)
    (hreached : (s.servers i).reachedByMajority i e.logIndex) :
    ∃ Q : Finset (Fin n), n / 2 + 1 ≤ Q.card ∧ i ∈ Q ∧
      ∀ p ∈ Q, Held H e.logIndex (s.servers i).currentTerm p := by
  refine ⟨_, hreached, by simp, fun p hp ↦ ?_⟩
  rcases (Finset.mem_filter.mp hp).2 with rfl | hle
  · exact ⟨s.view p, hidentity.election.ballot.seen_self p, rfl, e, he, rfl, hterm⟩
  · have hassumed : (s.servers i).matchIndex p + 1 ≤ (s.servers i).assumed p := le_max_right _ _
    exact (h.leaders i hlead).held p e he hterm (by omega)

omit [Codec LogEntry] [Codec (BoostPersistRaftNode n)] in
/-- The peers that a heartbeat counts have held the last entry of its requests. -/
theorem counted_majority (h : QuorumInv H s) (hidentity : IdentityInv H s) (hshape : ShapeInv s)
    {k : ℕ} {round : AppendRound n} {peer : Fin n} {args : AppendEntriesArgs n}
    {reply : AppendEntriesReply} (hround : s.heartbeats[k]? = some round)
    (hargs : round.requests.lookup peer = some args) (hpending : peer ∈ round.pending)
    (hreply : (peer, reply) ∈ round.replies)
    (hlead : (s.servers round.caller).status = .leader)
    (hterm : reply.term = (s.servers round.caller).currentTerm) (hsuccess : reply.success = true)
    (hmajority : n / 2 + 1 ≤ round.appendNums + 1) {e : LogEntry}
    (he : e ∈ (s.servers round.caller).logs)
    (heterm : e.logTerm = (s.servers round.caller).currentTerm)
    (hend : e.logIndex = args.prevLogIndex + args.entries.length) :
    ∃ Q : Finset (Fin n), n / 2 + 1 ≤ Q.card ∧ round.caller ∈ Q ∧
      ∀ p ∈ Q, Held H e.logIndex (s.servers round.caller).currentTerm p := by
  have hmem := List.mem_of_getElem? hround
  have hinv := h.rounds round hmem
  obtain ⟨Q, hdisjoint, hcard, hQ⟩ := hinv.counted
  -- A peer that has answered with a success.
  have hpeer : ∀ p args' answer, round.requests.lookup p = some args' →
      (p, answer) ∈ round.replies → answer.success = true → p ≠ round.caller ∧
        Held H e.logIndex (s.servers round.caller).currentTerm p := by
    intro p args' answer hlookup hanswer hyes
    obtain ⟨hsame, hsameEnd⟩ := hinv.same_end p args' peer args (mem_of_lookup hlookup)
      (mem_of_lookup hargs)
    have hanswerTerm : answer.term = (s.servers round.caller).currentTerm := by
      rw [(hinv.accepted p args' answer hlookup hanswer hyes).1, hsame,
        ← (hinv.accepted peer args reply hargs hreply hsuccess).1, hterm]
    obtain ⟨-, hheld⟩ := h.reported hshape hlead
      (.accepted k p answer round args' hround rfl hlookup hanswer hanswerTerm hyes)
    exact ⟨(hshape.requests round hmem p args' (mem_of_lookup hlookup)).1,
      hheld e he heterm (by omega)⟩
  have hnewPeer : peer ∉ Q := fun hin ↦ Finset.disjoint_left.mp hdisjoint hin hpending
  have hcaller : round.caller ∉ insert peer Q := by
    intro hin
    rcases Finset.mem_insert.mp hin with heq | hin
    · exact (hpeer peer args reply hargs hreply hsuccess).1 heq.symm
    · obtain ⟨args', answer, hlookup, hanswer, hyes⟩ := hQ _ hin
      exact (hpeer _ args' answer hlookup hanswer hyes).1 rfl
  refine ⟨insert round.caller (insert peer Q), ?_, Finset.mem_insert_self _ _, fun p hp ↦ ?_⟩
  · rw [Finset.card_insert_of_notMem hcaller, Finset.card_insert_of_notMem hnewPeer]
    omega
  · rcases Finset.mem_insert.mp hp with rfl | hp
    · exact ⟨s.view round.caller, hidentity.election.ballot.seen_self _, rfl, e, he, rfl, heterm⟩
    rcases Finset.mem_insert.mp hp with rfl | hp
    · exact (hpeer p args reply hargs hreply hsuccess).2
    · obtain ⟨args', answer, hlookup, hanswer, hyes⟩ := hQ p hp
      exact (hpeer p args' answer hlookup hanswer hyes).2

end QuorumInv

end Preservation

/-! ### Quorum commit of every run -/

section Runs

variable [Codec LogEntry] [Codec (BoostPersistRaftNode n)]

theorem quorumInv_run (r : Run (raft n)) (hr : r.Obeys NoRestart) (k : ℕ) :
    QuorumInv (r.past Cluster.view k) (r.state k) := by
  induction k with
  | zero =>
    rw [r.past_zero, r.state_zero]
    exact QuorumInv.initial
  | succ k ih =>
    cases ha : r.act k with
    | none =>
      rw [r.past_pause Cluster.view ha, r.pause k ha]
      exact ih
    | some a =>
      have hidentity' := identityInv_run r hr (k + 1)
      rw [r.past_succ] at hidentity' ⊢
      exact ih.step (identityInv_run r hr k) (shapeInv_run r k) hidentity' (hr k a ha)
        (r.next k a ha)

/-- By moment `k` server `p` has had an entry with this index and this term in its log while it was
in the term. -/
def HasHeld (r : Run (raft n)) (k : ℕ) (p : Fin n) (index term : ℕ) : Prop :=
  ∃ j ≤ k, ((r.state j).servers p).currentTerm = term ∧
    ∃ e ∈ ((r.state j).servers p).logs, e.logIndex = index ∧ e.logTerm = term

/-- The action runs `sendAppendEntries` or `leaderUpdateCommitIndex` at server `i`. -/
def RunsCommitRule (s : Cluster n) (i : Fin n) : Action n → Prop
  | .sendAppendEntries m _ _ => ∃ round, s.heartbeats[m]? = some round ∧ round.caller = i
  | .start j _ => j = i
  | _ => False

/-- When a commit rule raises the commit index, the leader has an entry of its term there, and a
majority, the leader among them, has held an entry with this index and this term in the term. -/
def QuorumCommit (r : Run (raft n)) : Prop :=
  ∀ k a i, r.act k = some a → RunsCommitRule (r.state k) i a →
    ((r.state k).servers i).commitIndex < ((r.state (k + 1)).servers i).commitIndex →
    ((r.state k).servers i).status = .leader ∧
    ∃ e, ((r.state (k + 1)).servers i).entryAt
        ((r.state (k + 1)).servers i).commitIndex = .ok e ∧
      e.logTerm = ((r.state k).servers i).currentTerm ∧
      ∃ Q : Finset (Fin n), IsMajority Q ∧ i ∈ Q ∧ ∀ p ∈ Q, HasHeld r (k + 1) p
        ((r.state (k + 1)).servers i).commitIndex ((r.state k).servers i).currentTerm

omit [Codec LogEntry] [Codec (BoostPersistRaftNode n)] in
theorem isMajority_of_le {Q : Finset (Fin n)} (h : n / 2 + 1 ≤ Q.card) : IsMajority Q := by
  unfold IsMajority
  rw [Fintype.card_fin]
  omega

theorem hasHeld_of_held (r : Run (raft n)) {j k : ℕ} (hjk : j ≤ k) {p : Fin n} {index term : ℕ}
    (h : Held (r.past Cluster.view j) index term p) : HasHeld r k p index term := by
  obtain ⟨q, ⟨f, ⟨l, hl, rfl⟩, rfl⟩, hterm, he⟩ := h
  exact ⟨l, hl.trans hjk, hterm, he⟩

/-- The rule of `Start`. -/
theorem quorumCommit_start (r : Run (raft n)) (hr : r.Obeys NoRestart) {k : ℕ} {i : Fin n}
    {command : String} {q : Raft n} {result : Option (ℕ × ℕ)}
    (hstart : ((r.state k).servers i).start i command = .ok (q, result))
    (hself : (r.state (k + 1)).servers i = q)
    (hlt : ((r.state k).servers i).commitIndex < q.commitIndex) :
    ((r.state k).servers i).status = .leader ∧ ∃ e, q.entryAt q.commitIndex = .ok e ∧
      e.logTerm = ((r.state k).servers i).currentTerm ∧
      ∃ Q : Finset (Fin n), n / 2 + 1 ≤ Q.card ∧ i ∈ Q ∧ ∀ p ∈ Q,
        Held (r.past Cluster.view (k + 1)) q.commitIndex ((r.state k).servers i).currentTerm p := by
  have hidentity := identityInv_run r hr (k + 1)
  have hquorum := quorumInv_run r hr (k + 1)
  have hcommitted := ((shapeInv_run r k).servers i).snapshot_committed
  rcases Raft.start_cases hstart with ⟨-, rfl, -⟩ | ⟨hlead, e, p, found, -, rfl, hfound, rfl, -⟩
  · exact absurd hlt (lt_irrefl _)
  · cases found with
    | none => exact absurd hlt (not_lt_of_ge hcommitted)
    | some index =>
      obtain ⟨hbeyond, hreached, hat⟩ := Raft.committableUpTo_some hfound
      rcases Raft.getLogTermFromLogIndex_eq_ok.mp hat with ⟨heq, -, -⟩ | ⟨e', he', hterm⟩
      · exact absurd heq hbeyond.ne'
      have hnumbered := hidentity.numbered i
      rw [hself] at hnumbered
      have hat' : Raft.entryAt _ index = .ok e' := he'
      obtain rfl := hnumbered.logIndex_of_entryAt hat'
      have hmem : e' ∈ ((r.state (k + 1)).servers i).logs := by
        rw [hself]
        exact List.mem_of_getElem? (hnumbered.entryAt_iff.mp hat').2
      have hmajority := hquorum.matched_majority hidentity (i := i) (by rw [hself]; exact hlead) hmem
        (by rw [hself]; exact hterm) (by rw [hself]; exact hreached)
      rw [hself] at hmajority
      exact ⟨hlead, e', hat', hterm, hmajority⟩

/-- The rule of `sendAppendEntries`. -/
theorem quorumCommit_sendAppendEntries (r : Run (raft n)) (hr : r.Obeys NoRestart) {k m : ℕ}
    {peer : Fin n} {reply : AppendEntriesReply} {round : AppendRound n}
    {args : AppendEntriesArgs n} {q : Raft n} {appendNums : ℕ}
    (hround : (r.state k).heartbeats[m]? = some round)
    (hargs : round.requests.lookup peer = some args) (hpending : peer ∈ round.pending)
    (hreply : (peer, reply) ∈ round.replies)
    (hsend : ((r.state k).servers round.caller).sendAppendEntries peer args reply
      round.appendNums = .ok (q, appendNums))
    (hlt : ((r.state k).servers round.caller).commitIndex < q.commitIndex) :
    ((r.state k).servers round.caller).status = .leader ∧ ∃ e, q.entryAt q.commitIndex = .ok e ∧
      e.logTerm = ((r.state k).servers round.caller).currentTerm ∧
      ∃ Q : Finset (Fin n), n / 2 + 1 ≤ Q.card ∧ round.caller ∈ Q ∧ ∀ p ∈ Q,
        Held (r.past Cluster.view k) q.commitIndex
          ((r.state k).servers round.caller).currentTerm p := by
  have hidentity := identityInv_run r hr k
  have hquorum := quorumInv_run r hr k
  have hshape := shapeInv_run r k
  have hmem := List.mem_of_getElem? hround
  rcases Raft.sendAppendEntries_cases hsend with ⟨rfl, -⟩ | ⟨-, -, rfl, -⟩ |
    ⟨-, -, -, -, index, -, rfl⟩ | ⟨hlead, hterm, hsuccess, reached, -, -, ⟨rfl, -⟩ |
      ⟨hmajority, -, hlast, rfl⟩⟩
  · exact absurd hlt (lt_irrefl _)
  · exact absurd hlt (lt_irrefl _)
  · exact absurd hlt (lt_irrefl _)
  · exact absurd hlt (lt_irrefl _)
  · -- The last entry of the request is in the log of the leader.
    obtain ⟨e, he, heterm⟩ := Option.map_eq_some_iff.mp hlast
    obtain ⟨hin, hindex⟩ :=
      ((hidentity.requests round hmem peer args (mem_of_lookup hargs)).numbered).getLast he
    obtain ⟨hsame, -⟩ := (hquorum.rounds round hmem).accepted peer args reply hargs hreply hsuccess
    have hrequest := hquorum.requests round hmem peer args (mem_of_lookup hargs) hlead
      (hterm.symm.trans hsame)
    have hlt : ((r.state k).servers round.caller).commitIndex <
        max ((r.state k).servers round.caller).commitIndex
          (args.prevLogIndex + args.entries.length) := hlt
    have hcommit : max ((r.state k).servers round.caller).commitIndex
        (args.prevLogIndex + args.entries.length) = e.logIndex := by omega
    have hcommitted := (hshape.servers round.caller).snapshot_committed
    have hlog := hrequest.kept e hin (by omega)
    have hheld := hquorum.counted_majority hidentity hshape hround hargs hpending hreply hlead hterm
      hsuccess hmajority hlog heterm hindex
    rw [← hcommit] at hheld
    refine ⟨hlead, e, ?_, heterm, hheld⟩
    show Raft.entryAt _ (max _ _) = _
    rw [hcommit]
    exact (hidentity.numbered round.caller).entryAt_of_mem hlog

/-- Quorum commit. It holds in every run without restarts. -/
theorem quorumCommit (r : Run (raft n)) (hr : r.Obeys NoRestart) : QuorumCommit r := by
  intro k a i ha hrule hlt
  have hstep := r.next k a ha
  have hself : ∀ q : Raft n, ∀ s' : Cluster n, s'.servers = ((r.state k).setServer i q).servers →
      s'.servers i = q := by
    intro q s' hservers
    rw [hservers]
    simp [Cluster.setServer]
  generalize hs' : r.state (k + 1) = s' at hstep hlt ⊢
  cases Cluster.step_cases hstep with
  | exit j e _ => exact absurd hlt (lt_irrefl _)
  | start j command q result hq =>
    obtain rfl : j = i := hrule
    rw [hself q _ rfl] at hlt ⊢
    obtain ⟨hlead, e, he, hterm, Q, hcard, hin, hheld⟩ := quorumCommit_start r hr hq
      (by rw [hs']; exact hself q _ rfl) hlt
    exact ⟨hlead, e, he, hterm, Q, isMajority_of_le hcard, hin, fun p hp ↦
      hasHeld_of_held r (le_refl _) (hheld p hp)⟩
  | sendAppendEntries m peer reply round args q appendNums hround hargs hpending hreply hq =>
    obtain ⟨round', hround', rfl⟩ := hrule
    obtain rfl : round = round' := Option.some.inj (hround.symm.trans hround')
    rw [hself q _ rfl] at hlt ⊢
    obtain ⟨hlead, e, he, hterm, Q, hcard, hin, hheld⟩ := quorumCommit_sendAppendEntries r hr hround
      hargs hpending hreply hq hlt
    exact ⟨hlead, e, he, hterm, Q, isMajority_of_le hcard, hin, fun p hp ↦
      hasHeld_of_held r (Nat.le_succ k) (hheld p hp)⟩
  | _ => exact hrule.elim

end Runs

/-! ### A first commit -/

section Examples

open scoped Archive

theorem firstCommitRun_noRestart : firstCommitRun.Obeys NoRestart :=
  Run.obeys_ofActions _ _ (by simp [firstCommit, NoRestart])

theorem quorumCommit_firstCommit :
    ((firstCommitRun.state 6).servers 0).commitIndex = 0 ∧
      ((firstCommitRun.state 7).servers 0).commitIndex = 1 ∧ QuorumCommit firstCommitRun :=
  ⟨by decide +kernel, by decide +kernel, quorumCommit firstCommitRun firstCommitRun_noRestart⟩

end Examples

end Rsylar
