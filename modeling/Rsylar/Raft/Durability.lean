import Rsylar.Raft.Archive
import Rsylar.Raft.ElectionSafety

/-!
# Durability

What a server has saved, compared with what it has in memory and with what the next process on its
files gets. The fields that `persistData` writes are the `DurableState`; `Raft.lastSaved` reads them
back from the string last given to `SaveRaftState` or `Save`, as `readPersist` would.

Every handler that changes one of these fields saves them before it gives the lock up, except the
part of `sendAppendEntries` that learns of a later term: it takes the term over and clears the vote,
and the string stays (`durable_run`, `Raft.not_durable_stepDown`). The constructor of the persister
truncates the files before they are read, so the next process starts with the fields of a new server
whatever was saved (`Raft.restart_eq`, `Raft.recovers_iff`).
-/

set_option autoImplicit false
set_option relaxedAutoImplicit false

namespace Rsylar

open TextArchive TransitionSystem

variable {n : ℕ}

/-- The fields that are to survive a crash. -/
structure DurableState (n : ℕ) where
  currentTerm : ℕ
  votedFor : Option (Fin n)
  logs : List LogEntry
  lastSnapshotIncludeIndex : ℕ
  lastSnapshotIncludeTerm : ℕ
deriving DecidableEq

/-- The fields of a server that has saved nothing. -/
def DurableState.initial : DurableState n where
  currentTerm := 0
  votedFor := none
  logs := []
  lastSnapshotIncludeIndex := 0
  lastSnapshotIncludeTerm := 0

namespace Raft

variable [Codec LogEntry]

def durable (r : Raft n) : DurableState n where
  currentTerm := r.currentTerm
  votedFor := r.votedFor
  logs := r.logs
  lastSnapshotIncludeIndex := r.lastSnapshotIncludeIndex
  lastSnapshotIncludeTerm := r.lastSnapshotIncludeTerm

section LastSaved

variable [Codec (BoostPersistRaftNode n)]

/-- What the string last saved says, the initial fields when nothing was saved. -/
def lastSaved (r : Raft n) : Except Abort (DurableState n) :=
  ((fresh r.persister).readPersist r.persister.lastRaftState).map durable

/-- The string last saved says what the server has in memory. -/
def Durable (r : Raft n) : Prop :=
  r.lastSaved = .ok r.durable

instance (r : Raft n) : Decidable r.Durable :=
  inferInstanceAs (Decidable (_ = _))

/-- A new process on the files of this one starts with what was last saved, and its store with the
snapshot last saved. -/
def Recovers (r : Raft n) : Prop :=
  ∃ q snapshot, r.restart = .ok (q, snapshot) ∧ r.lastSaved = .ok q.durable ∧
    snapshot = r.persister.lastSnapshot

end LastSaved

/-! ### What was saved -/

section Saved

variable {r q : Raft n}

theorem lastSaved_congr [Codec (BoostPersistRaftNode n)]
    (h : r.persister.lastRaftState = q.persister.lastRaftState) : r.lastSaved = q.lastSaved := by
  unfold lastSaved readPersist
  rw [h]
  split
  · rfl
  · split <;> rfl

variable [NonemptyCodec (BoostPersistRaftNode n)]

/-- Reading back what `persistData` has written. -/
theorem lastSaved_of_persistData (h : r.persister.lastRaftState = q.persistData) :
    r.lastSaved = .ok q.durable := by
  have hlogs : (q.logs.map Codec.encode).map (fun item ↦ (Codec.decode item).getD {}) = q.logs := by
    rw [List.map_map]
    refine List.map_id'' (fun e ↦ ?_) _
    simp [Codec.decode_encode]
  unfold lastSaved readPersist
  rw [h]
  unfold persistData
  rw [if_neg (NonemptyCodec.encode_ne_empty _), Codec.decode_encode]
  simp only [Except.map, durable, hlogs]

theorem durable_of_persistData (h : r.persister.lastRaftState = r.persistData) : r.Durable :=
  lastSaved_of_persistData h

theorem durable_persist (r : Raft n) : r.persist.Durable :=
  durable_of_persistData rfl

/-- A server that has kept its fields and saved nothing. -/
theorem Durable.of_same (h : r.Durable) (hdurable : q.durable = r.durable)
    (hlast : q.persister.lastRaftState = r.persister.lastRaftState) : q.Durable := by
  unfold Durable
  rw [hdurable, lastSaved_congr hlast]
  exact h

end Saved

/-! ### The handlers -/

section Handlers

variable [NonemptyCodec (BoostPersistRaftNode n)] {r r' : Raft n}

theorem Durable.doElection (h : r.Durable) (me : Fin n) : (r.doElection me).1.Durable := by
  rcases r.doElection_cases me with ⟨-, heq⟩ | ⟨-, -, heq⟩ | ⟨-, -, heq⟩
  · rw [heq]
    exact h
  · rw [heq]
    exact durable_persist _
  · rw [heq]
    exact durable_persist _

theorem durable_requestVote {args : RequestVoteArgs n} {reply : RequestVoteReply}
    (hr : r.requestVote args = .ok (r', reply)) : r'.Durable := by
  rcases requestVote_cases hr with ⟨-, rfl, -⟩ | ⟨-, rfl, -⟩ | ⟨-, -, -, rfl, -⟩ <;>
    exact durable_persist _

theorem Durable.sendRequestVote (h : r.Durable) {reply : RequestVoteReply} {votedNum votedNum' : ℕ}
    (hr : r.sendRequestVote reply votedNum = .ok (r', votedNum')) : r'.Durable := by
  rcases sendRequestVote_cases hr with ⟨-, rfl, -⟩ | ⟨rfl, -⟩ | ⟨-, -, -, rfl, -⟩ |
    ⟨-, -, -, -, rfl, -⟩
  · exact durable_persist _
  · exact h
  · exact h
  · exact durable_persist _

theorem Durable.start (h : r.Durable) {me : Fin n} {command : String} {result : Option (ℕ × ℕ)}
    (hr : r.start me command = .ok (r', result)) : r'.Durable := by
  rcases start_cases hr with ⟨-, rfl, -⟩ | ⟨-, e, q, found, -, rfl, -, rfl, -⟩
  · exact h
  · exact (durable_persist { r with logs := r.logs ++ [e] }).of_same rfl rfl

theorem Durable.appendEntries (h : r.Durable) {args : AppendEntriesArgs n}
    {reply : AppendEntriesReply} (hr : r.appendEntries args = .ok (r', reply)) : r'.Durable := by
  rcases appendEntries_cases hr with ⟨-, rfl, -⟩ | ⟨-, -, rfl⟩ | ⟨-, -, -, -, q, -, -, rfl⟩
  · exact h
  · exact durable_persist _
  · exact durable_persist _

/-- Every answer but one that teaches a later term. -/
theorem Durable.sendAppendEntries (h : r.Durable) {server : Fin n} {args : AppendEntriesArgs n}
    {reply : AppendEntriesReply} {appendNums appendNums' : ℕ}
    (hlater : ¬ (reply.appState = .appNormal ∧ r.currentTerm < reply.term))
    (hr : r.sendAppendEntries server args reply appendNums = .ok (r', appendNums')) :
    r'.Durable := by
  rcases sendAppendEntries_cases hr with ⟨rfl, -⟩ | ⟨hnormal, hlt, -⟩ |
    ⟨-, -, -, -, index, -, rfl⟩ | ⟨-, -, -, reached, -, -, ⟨rfl, -⟩ | ⟨-, -, -, rfl⟩⟩
  · exact h
  · exact absurd ⟨hnormal, hlt⟩ hlater
  · exact h.of_same rfl rfl
  · exact h.of_same rfl rfl
  · exact h.of_same rfl rfl

/-- A server that learns of a later term from `sendAppendEntries` has not saved it. -/
theorem not_durable_stepDown (h : r.Durable) {term : ℕ} (hlt : r.currentTerm < term) :
    ¬ (r.stepDown term).Durable := by
  intro hafter
  have hsame : (r.stepDown term).lastSaved = r.lastSaved := lastSaved_congr rfl
  rw [Durable, hsame, h] at hafter
  have hterm := congrArg DurableState.currentTerm (Except.ok.inj hafter)
  exact absurd hterm hlt.ne

theorem Durable.getApplyLogs (h : r.Durable) {msgs : List ApplyMsg}
    (hr : r.getApplyLogs = .ok (r', msgs)) : r'.Durable := by
  obtain ⟨rfl, -⟩ := getApplyLogs_cases hr
  exact h.of_same rfl rfl

theorem Durable.snapshot (h : r.Durable) {index : ℕ} {data : String}
    (hr : r.snapshot index data = .ok r') : r'.Durable := by
  rcases snapshot_cases hr with rfl | ⟨-, -, e, logs, q, -, -, rfl, rfl⟩
  · exact h
  · exact durable_of_persistData rfl

theorem Durable.leaderSendSnapShotReply (h : r.Durable) (server : Fin n)
    (args : InstallSnapshotRequest n) (reply : InstallSnapshotResponse) :
    (r.leaderSendSnapShotReply server args reply).Durable := by
  rcases r.leaderSendSnapShotReply_cases server args reply with heq | ⟨-, heq⟩ | ⟨-, -, -, heq⟩
  · rw [heq]
    exact h
  · rw [heq]
    exact durable_persist _
  · rw [heq]
    exact h.of_same rfl rfl

theorem Durable.installSnapshot (h : r.Durable) {args : InstallSnapshotRequest n}
    {reply : InstallSnapshotResponse} {msg : Option ApplyMsg}
    (hr : r.installSnapshot args = .ok (r', reply, msg)) : r'.Durable := by
  rcases installSnapshot_cases hr with ⟨-, rfl⟩ | ⟨p, hp, hr⟩
  · exact h
  · have hpDurable : p.Durable := by
      rcases hp with ⟨-, rfl⟩ | ⟨-, rfl⟩
      · exact durable_persist _
      · exact h
    rcases hr with ⟨-, rfl⟩ | ⟨-, logs, q, -, rfl, rfl⟩
    · exact hpDurable.of_same rfl rfl
    · exact durable_of_persistData rfl

end Handlers

/-! ### The next process -/

section Restart

variable [Codec (BoostPersistRaftNode n)]

/-- Whatever was saved, the next process starts with the fields of a new server and no snapshot. -/
theorem restart_eq (r : Raft n) :
    r.restart = .ok (fresh r.persister.restart.readSnapshot.2, "") := by
  unfold restart restore init
  rw [Persister.readRaftState_restart]
  simp only [readPersist, if_pos, bind, Except.bind, pure, Except.pure, fresh, lt_irrefl, if_false,
    Persister.readSnapshot_restart]

theorem recovers_iff (r : Raft n) :
    r.Recovers ↔ r.lastSaved = .ok .initial ∧ r.persister.lastSnapshot = "" := by
  unfold Recovers
  rw [restart_eq]
  constructor
  · rintro ⟨q, snapshot, hrestart, hsaved, hsnapshot⟩
    cases hrestart
    exact ⟨hsaved, hsnapshot.symm⟩
  · rintro ⟨hsaved, hsnapshot⟩
    exact ⟨_, _, rfl, hsaved, hsnapshot.symm⟩

end Restart

end Raft

/-! ### Persist before release -/

/-- The condition of a run in which no answer to an append request teaches a later term, and no
process is replaced once the old one has saved something. -/
def NoUnsavedTerm [Codec LogEntry] [Codec (BoostPersistRaftNode n)] (s : Cluster n) :
    Action n → Prop
  | .sendAppendEntries k _ reply => ∀ round ∈ s.heartbeats[k]?,
      ¬ (reply.appState = .appNormal ∧ (s.servers round.caller).currentTerm < reply.term)
  | .restart i => (s.servers i).lastSaved = .ok .initial
  | _ => True

instance [Codec LogEntry] [Codec (BoostPersistRaftNode n)] (s : Cluster n) :
    DecidablePred (NoUnsavedTerm s) := fun a ↦
  match a with
  | .sendAppendEntries k _ reply => inferInstanceAs (Decidable (∀ round ∈ s.heartbeats[k]?,
      ¬ (reply.appState = .appNormal ∧ (s.servers round.caller).currentTerm < reply.term)))
  | .restart i => inferInstanceAs (Decidable ((s.servers i).lastSaved = .ok .initial))
  | .doElection _ | .requestVote _ _ | .sendRequestVote _ _ _ | .start _ _ | .doHeartBeat _
  | .appendEntries _ _ | .getApplyLogs _ | .applierPush _ | .snapshot _ _ _
  | .leaderSendSnapShot _ | .installSnapshot _ | .leaderSendSnapShotReply _ _
  | .pushMsgToKvServer _ _ => isTrue trivial

section Step

variable [Codec LogEntry] [NonemptyCodec (BoostPersistRaftNode n)] {s s' : Cluster n}

theorem durable_setServer (h : ∀ i, (s.servers i).Durable) {i : Fin n} {r : Raft n}
    (hr : r.Durable) (j : Fin n) : ((s.setServer i r).servers j).Durable := by
  by_cases hj : j = i
  · subst hj
    simpa [Cluster.setServer] using hr
  · simpa [Cluster.setServer, hj] using h j

/-- What one step preserves. -/
theorem durable_step (h : ∀ i, (s.servers i).Durable) {a : Action n} (ha : NoUnsavedTerm s a)
    (hstep : s.step a = some s') : ∀ i, (s'.servers i).Durable := by
  cases Cluster.step_cases hstep with
  | exit i e _ => exact h
  | doElection i r request hr =>
    have hdurable := (h i).doElection i
    rw [hr] at hdurable
    exact durable_setServer h hdurable
  | requestVote k peer round r reply _ _ hr =>
    exact durable_setServer h (Raft.durable_requestVote hr)
  | sendRequestVote k peer reply round r votedNum _ _ _ hr =>
    exact durable_setServer h ((h _).sendRequestVote hr)
  | start i command r result hr => exact durable_setServer h ((h i).start hr)
  | doHeartBeat_idle i _ => exact h
  | doHeartBeat i sent _ => exact h
  | appendEntries k peer round args r reply _ _ hr =>
    exact durable_setServer h ((h peer).appendEntries hr)
  | sendAppendEntries k peer reply round args r appendNums hround _ _ _ hr =>
    exact durable_setServer h ((h _).sendAppendEntries (ha round hround) hr)
  | getApplyLogs i r msgs hr => exact durable_setServer h ((h i).getApplyLogs hr)
  | applierPush i msg msgs _ => exact h
  | snapshot i index data r hr => exact durable_setServer h ((h i).snapshot hr)
  | leaderSendSnapShot k i peer r args _ hr =>
    cases hr
    exact durable_setServer h ((h i).of_same rfl rfl)
  | installSnapshot k call r reply msg _ hr => exact durable_setServer h ((h _).installSnapshot hr)
  | leaderSendSnapShotReply k reply call r _ _ _ hr =>
    cases hr
    exact durable_setServer h ((h _).leaderSendSnapShotReply _ _ _)
  | pushMsgToKvServer i k msg _ => exact h
  | restart i r data hr =>
    -- The new process has the initial fields, and that is what was saved.
    rw [Raft.restart_eq] at hr
    cases hr
    have hsaved : (Raft.fresh (s.servers i).persister.restart.readSnapshot.2).lastSaved =
        (s.servers i).lastSaved := Raft.lastSaved_congr rfl
    exact durable_setServer h (hsaved.trans ha)

/-- Persist before release. In every run in which no answer to an append request teaches a later
term and no process with something saved is replaced, the string last saved by a server says what it
has in memory, at every moment. -/
theorem persistBeforeRelease (r : Run (raft n)) (hr : r.Obeys NoUnsavedTerm) (k : ℕ) (i : Fin n) :
    ((r.state k).servers i).Durable :=
  @Run.invariant _ _ (raft n) (fun s ↦ ∀ i, (s.servers i).Durable) NoUnsavedTerm (fun _ ↦ rfl)
    (fun _ _ _ h ha hstep ↦ durable_step h ha hstep) r hr k i

end Step

section Examples

open scoped Archive

/-- A leader of term 1 replicates an entry; its peer stands for term 2 and refuses the next
heartbeat. -/
def laterTerm : List (Action 2) :=
  [.doElection 0, .requestVote 0 1, .sendRequestVote 0 1 ⟨1, true, .normal⟩, .start 0 "x",
    .doHeartBeat 0, .appendEntries 0 1, .sendAppendEntries 0 1 ⟨1, true, some 0, .appNormal⟩,
    .doHeartBeat 0, .doElection 1, .appendEntries 1 1]

def laterTermRun : Run (raft 2) :=
  Run.ofActions (raft 2) laterTerm (by decide +kernel)

theorem laterTermRun_noUnsavedTerm : laterTermRun.Obeys NoUnsavedTerm := by
  rw [laterTermRun, Run.obeys_ofActions_iff]
  decide +kernel

/-- The leader processes the refusal: in memory its term is 2, in the saved string it is 1. -/
theorem persistBeforeRelease_laterTerm :
    ∃ r : Run (raft 2), ∃ k i, ¬ ((r.state k).servers i).Durable := by
  refine ⟨Run.ofActions (raft 2)
    (laterTerm ++ [.sendAppendEntries 1 1 ⟨2, false, none, .appNormal⟩]) (by decide +kernel),
    11, 0, ?_⟩
  decide +kernel

theorem persistBeforeRelease_leader :
    ((laterTermRun.state 10).servers 0).status = .leader ∧
      ((laterTermRun.state 10).servers 0).Durable :=
  ⟨by decide +kernel, persistBeforeRelease laterTermRun laterTermRun_noUnsavedTerm 10 0⟩

end Examples

/-! ### Crash recovery -/

/-- A server in term 0 has neither led nor committed nor saved anything. -/
structure Raft.TermInv [Codec LogEntry] [Codec (BoostPersistRaftNode n)] (r : Raft n) : Prop where
  leads : r.status = .leader → 0 < r.currentTerm
  commits : 0 < r.commitIndex → 0 < r.currentTerm
  saved : (r.persister.lastRaftState = "" ∧ r.persister.lastSnapshot = "") ∨
    ∃ d, r.lastSaved = .ok d ∧ 0 < d.currentTerm

namespace Raft

variable [Codec LogEntry] [NonemptyCodec (BoostPersistRaftNode n)] {r r' : Raft n}

theorem termInv_of_persistData (h : r.persister.lastRaftState = r.persistData)
    (hpos : 0 < r.currentTerm) : r.TermInv where
  leads := fun _ ↦ hpos
  commits := fun _ ↦ hpos
  saved := Or.inr ⟨r.durable, lastSaved_of_persistData h, hpos⟩

theorem TermInv.of_same (h : r.TermInv)
    (hlast : r'.persister.lastRaftState = r.persister.lastRaftState)
    (hsnapshot : r'.persister.lastSnapshot = r.persister.lastSnapshot)
    (hkept : 0 < r'.currentTerm ∨
      (r'.currentTerm = r.currentTerm ∧ (r'.status = .leader → r.status = .leader) ∧
        r'.commitIndex = r.commitIndex)) : r'.TermInv where
  leads := by
    intro hlead
    rcases hkept with hpos | ⟨hterm, hrole, -⟩
    · exact hpos
    · rw [hterm]
      exact h.leads (hrole hlead)
  commits := by
    intro hcommit
    rcases hkept with hpos | ⟨hterm, -, hsame⟩
    · exact hpos
    · rw [hterm]
      exact h.commits (hsame ▸ hcommit)
  saved := by
    rw [hlast, hsnapshot, lastSaved_congr hlast]
    exact h.saved

theorem TermInv.doElection (h : r.TermInv) (me : Fin n) : (r.doElection me).1.TermInv := by
  rcases r.doElection_cases me with ⟨-, heq⟩ | ⟨-, -, heq⟩ | ⟨-, -, heq⟩
  · rw [heq]
    exact h
  · rw [heq]
    exact termInv_of_persistData rfl (Nat.succ_pos _)
  · rw [heq]
    exact termInv_of_persistData rfl (Nat.succ_pos _)

theorem termInv_requestVote {args : RequestVoteArgs n} (hpos : 0 < args.term)
    {reply : RequestVoteReply} (hr : r.requestVote args = .ok (r', reply)) : r'.TermInv := by
  rcases requestVote_cases hr with ⟨hlt, rfl, -⟩ | ⟨hle, rfl, -⟩ | ⟨hle, -, -, rfl, -⟩
  · exact termInv_of_persistData rfl (hpos.trans hlt)
  · exact termInv_of_persistData rfl (hpos.trans_eq (r.enterTerm_currentTerm _ hle).symm)
  · exact termInv_of_persistData rfl (hpos.trans_eq (r.enterTerm_currentTerm _ hle).symm)

theorem TermInv.sendRequestVote (h : r.TermInv) {reply : RequestVoteReply} {votedNum votedNum' : ℕ}
    (hgranted : reply.voteGranted = true → 0 < reply.term)
    (hr : r.sendRequestVote reply votedNum = .ok (r', votedNum')) : r'.TermInv := by
  rcases sendRequestVote_cases hr with ⟨hlt, rfl, -⟩ | ⟨rfl, -⟩ | ⟨-, -, -, rfl, -⟩ |
    ⟨hterm, hyes, -, -, rfl, -⟩
  · exact termInv_of_persistData rfl (Nat.zero_lt_of_lt hlt)
  · exact h
  · exact h
  · exact termInv_of_persistData rfl ((hgranted hyes).trans_eq hterm)

theorem TermInv.start (h : r.TermInv) {me : Fin n} {command : String} {result : Option (ℕ × ℕ)}
    (hr : r.start me command = .ok (r', result)) : r'.TermInv := by
  rcases start_cases hr with ⟨-, rfl, -⟩ | ⟨hlead, e, q, found, -, rfl, -, rfl, -⟩
  · exact h
  · exact termInv_of_persistData rfl (h.leads hlead)

theorem TermInv.appendEntries (h : r.TermInv) {args : AppendEntriesArgs n} (hpos : 0 < args.term)
    {reply : AppendEntriesReply} (hr : r.appendEntries args = .ok (r', reply)) : r'.TermInv := by
  rcases appendEntries_cases hr with ⟨-, rfl, -⟩ | ⟨hle, -, rfl⟩ | ⟨hle, -, -, -, q, hq, -, rfl⟩
  · exact h
  · exact termInv_of_persistData rfl (hpos.trans_eq (r.enterTerm_currentTerm _ hle).symm)
  · refine termInv_of_persistData rfl ?_
    show 0 < q.currentTerm
    rw [mergeEntries_logs hq]
    exact hpos.trans_eq (r.enterTerm_currentTerm _ hle).symm

theorem TermInv.sendAppendEntries (h : r.TermInv) {server : Fin n} {args : AppendEntriesArgs n}
    {reply : AppendEntriesReply} {appendNums appendNums' : ℕ}
    (hr : r.sendAppendEntries server args reply appendNums = .ok (r', appendNums')) :
    r'.TermInv := by
  rcases sendAppendEntries_cases hr with ⟨rfl, -⟩ | ⟨-, hlt, rfl, -⟩ |
    ⟨hlead, -, -, -, index, -, rfl⟩ | ⟨hlead, -, -, reached, -, -, ⟨rfl, -⟩ | ⟨-, -, -, rfl⟩⟩
  · exact h
  · exact h.of_same rfl rfl (Or.inl (Nat.zero_lt_of_lt hlt))
  · exact h.of_same rfl rfl (Or.inl (h.leads hlead))
  · exact h.of_same rfl rfl (Or.inl (h.leads hlead))
  · exact h.of_same rfl rfl (Or.inl (h.leads hlead))

theorem TermInv.getApplyLogs (h : r.TermInv) {msgs : List ApplyMsg}
    (hr : r.getApplyLogs = .ok (r', msgs)) : r'.TermInv := by
  obtain ⟨rfl, -⟩ := getApplyLogs_cases hr
  exact h.of_same rfl rfl (Or.inr ⟨rfl, id, rfl⟩)

theorem TermInv.snapshot (h : r.TermInv) {index : ℕ} {data : String}
    (hr : r.snapshot index data = .ok r') : r'.TermInv := by
  rcases snapshot_cases hr with rfl | ⟨hlt, hle, e, logs, q, -, -, rfl, rfl⟩
  · exact h
  · exact termInv_of_persistData rfl (h.commits (Nat.zero_lt_of_lt (hlt.trans_le hle)))

theorem TermInv.leaderSendSnapShotReply (h : r.TermInv) (server : Fin n)
    (args : InstallSnapshotRequest n) (reply : InstallSnapshotResponse) :
    (r.leaderSendSnapShotReply server args reply).TermInv := by
  rcases r.leaderSendSnapShotReply_cases server args reply with heq | ⟨hlt, heq⟩ | ⟨-, -, -, heq⟩
  · rw [heq]
    exact h
  · rw [heq]
    exact termInv_of_persistData rfl (Nat.zero_lt_of_lt hlt)
  · rw [heq]
    exact h.of_same rfl rfl (Or.inr ⟨rfl, id, rfl⟩)

theorem TermInv.installSnapshot (h : r.TermInv) {args : InstallSnapshotRequest n}
    (hpos : 0 < args.term) {reply : InstallSnapshotResponse} {msg : Option ApplyMsg}
    (hr : r.installSnapshot args = .ok (r', reply, msg)) : r'.TermInv := by
  rcases installSnapshot_cases hr with ⟨-, rfl⟩ | ⟨p, hp, hr⟩
  · exact h
  · have hpTerm : p.TermInv ∧ 0 < p.currentTerm := by
      rcases hp with ⟨-, rfl⟩ | ⟨hterm, rfl⟩
      · exact ⟨termInv_of_persistData rfl hpos, hpos⟩
      · exact ⟨h, hpos.trans_eq hterm.symm⟩
    rcases hr with ⟨-, rfl⟩ | ⟨-, logs, q, -, rfl, rfl⟩
    · exact hpTerm.1.of_same rfl rfl (Or.inl hpTerm.2)
    · exact termInv_of_persistData rfl hpTerm.2

/-- The next process is in term 0, and what was saved for it is what was saved before. -/
theorem TermInv.restart (h : r.TermInv) {snapshot : String} (hr : r.restart = .ok (r', snapshot)) :
    r'.TermInv := by
  rw [restart_eq] at hr
  cases hr
  refine ⟨fun hlead ↦ ?_, fun hcommit ↦ ?_, ?_⟩
  · cases hlead
  · exact absurd hcommit (lt_irrefl 0)
  · have hsaved : (fresh r.persister.restart.readSnapshot.2).lastSaved = r.lastSaved :=
      lastSaved_congr rfl
    rw [hsaved]
    exact h.saved

end Raft

/-- What the messages and tasks know of terms. -/
structure SavedInv [Codec LogEntry] [Codec (BoostPersistRaftNode n)] (s : Cluster n) : Prop where
  servers : ∀ i, (s.servers i).TermInv
  elections : ∀ round ∈ s.elections, 0 < round.args.term ∧
    ∀ peer reply, (peer, reply) ∈ round.replies → reply.voteGranted = true → 0 < reply.term
  heartbeats : ∀ round ∈ s.heartbeats, ∀ peer args, (peer, args) ∈ round.requests → 0 < args.term
  tasks : ∀ task ∈ s.snapshotTasks, 0 < (s.servers task.1).currentTerm
  calls : ∀ call ∈ s.snapshotCalls, 0 < call.args.term

section Step

variable [Codec LogEntry] [NonemptyCodec (BoostPersistRaftNode n)] {s s' : Cluster n}

namespace SavedInv

theorem initial : SavedInv (Cluster.initial : Cluster n) where
  servers := fun i ↦
    ⟨(fun hlead ↦ by cases hlead), fun hcommit ↦ absurd hcommit (lt_irrefl 0), Or.inl ⟨rfl, rfl⟩⟩
  elections := fun round hround ↦ by cases hround
  heartbeats := fun round hround ↦ by cases hround
  tasks := fun task htask ↦ by cases htask
  calls := fun call hcall ↦ by cases hcall

/-- A step in which the process of no server is replaced. -/
theorem frame (h : SavedInv s) {i : Fin n} {r : Raft n} (hr : r.TermInv)
    (hservers : s'.servers = (s.setServer i r).servers)
    (hterm : ∀ j, (s.servers j).currentTerm ≤ (s'.servers j).currentTerm)
    (helections : ∀ round ∈ s'.elections, 0 < round.args.term ∧
      ∀ peer reply, (peer, reply) ∈ round.replies → reply.voteGranted = true → 0 < reply.term)
    (hheartbeats : ∀ round ∈ s'.heartbeats, ∀ peer args, (peer, args) ∈ round.requests →
      0 < args.term)
    (htasks : ∀ task ∈ s'.snapshotTasks, 0 < (s.servers task.1).currentTerm)
    (hcalls : ∀ call ∈ s'.snapshotCalls, 0 < call.args.term) : SavedInv s' where
  servers := by
    intro j
    rw [hservers]
    by_cases hj : j = i
    · subst hj
      simpa [Cluster.setServer] using hr
    · simpa [Cluster.setServer, hj] using h.servers j
  elections := helections
  heartbeats := hheartbeats
  tasks := fun task htask ↦ (htasks task htask).trans_le (hterm task.1)
  calls := hcalls

theorem elections_set (h : SavedInv s) {k : ℕ} {round round' : VoteRound n}
    (hround : s.elections[k]? = some round) (hargs : round'.args = round.args)
    (hreplies : ∀ peer reply, (peer, reply) ∈ round'.replies → reply.voteGranted = true →
      0 < reply.term) (a : VoteRound n) (ha : a ∈ s.elections.set k round') :
    0 < a.args.term ∧
      ∀ peer reply, (peer, reply) ∈ a.replies → reply.voteGranted = true → 0 < reply.term := by
  rcases List.mem_or_eq_of_mem_set ha with ha | rfl
  · exact h.elections a ha
  · rw [hargs]
    exact ⟨(h.elections round (List.mem_of_getElem? hround)).1, hreplies⟩

theorem heartbeats_set (h : SavedInv s) {k : ℕ} {round round' : AppendRound n}
    (hround : s.heartbeats[k]? = some round) (hrequests : round'.requests = round.requests)
    (a : AppendRound n) (ha : a ∈ s.heartbeats.set k round') (peer : Fin n)
    (args : AppendEntriesArgs n) (hargs : (peer, args) ∈ a.requests) : 0 < args.term := by
  rcases List.mem_or_eq_of_mem_set ha with ha | rfl
  · exact h.heartbeats a ha peer args hargs
  · rw [hrequests] at hargs
    exact h.heartbeats round (List.mem_of_getElem? hround) peer args hargs

theorem calls_set (h : SavedInv s) {k : ℕ} {call call' : SnapshotCall n}
    (hcall : s.snapshotCalls[k]? = some call) (hargs : call'.args = call.args)
    (a : SnapshotCall n) (ha : a ∈ s.snapshotCalls.set k call') : 0 < a.args.term := by
  rcases List.mem_or_eq_of_mem_set ha with ha | rfl
  · exact h.calls a ha
  · rw [hargs]
    exact h.calls call (List.mem_of_getElem? hcall)

/-- A replaced process takes its tasks with it. -/
theorem replace (h : SavedInv s) {i : Fin n} {r : Raft n} (hr : r.TermInv) :
    SavedInv (s.replace i r) where
  servers := by
    intro j
    by_cases hj : j = i
    · subst hj
      simpa [Cluster.replace] using hr
    · simpa [Cluster.replace, hj] using h.servers j
  elections := by
    intro round hround
    obtain ⟨old, hold, rfl⟩ := List.mem_map.mp hround
    have hinv := h.elections old hold
    split
    · exact hinv
    · exact hinv
  heartbeats := by
    intro round hround
    obtain ⟨old, hold, rfl⟩ := List.mem_map.mp hround
    have hinv := h.heartbeats old hold
    split
    · exact hinv
    · exact hinv
  tasks := by
    intro task htask
    obtain ⟨hmem, hne⟩ := List.mem_filter.mp htask
    have hne : task.1 ≠ i := by simpa using hne
    simpa [Cluster.replace, hne] using h.tasks task hmem
  calls := by
    intro call hcall
    obtain ⟨old, hold, rfl⟩ := List.mem_map.mp hcall
    have hinv := h.calls old hold
    split
    · exact hinv
    · exact hinv

/-- What one step preserves, restarts included. -/
theorem step (h : SavedInv s) {a : Action n} (hstep : s.step a = some s') : SavedInv s' := by
  have hterm : (∀ i, a ≠ .restart i) → ∀ j, (s.servers j).currentTerm ≤ (s'.servers j).currentTerm :=
    fun ha j ↦ term_le_step hstep fun i hi ↦ absurd hi (ha i)
  cases Cluster.step_cases hstep with
  | exit i e _ => exact ⟨h.servers, h.elections, h.heartbeats, h.tasks, h.calls⟩
  | doElection i r request hr =>
    have hinv := (h.servers i).doElection i
    rw [hr] at hinv
    refine h.frame hinv rfl (hterm nofun) (fun round hround ↦ ?_) h.heartbeats h.tasks h.calls
    rcases List.mem_append.mp hround with hold | hnew
    · exact h.elections round hold
    · rcases (s.servers i).doElection_cases i with ⟨-, heq⟩ | ⟨-, -, heq⟩ | ⟨-, -, heq⟩ <;>
        obtain ⟨rfl, rfl⟩ := Prod.mk.inj (heq.symm.trans hr)
      · simp at hnew
      · simp at hnew
      · obtain rfl : round = _ := by simpa using hnew
        exact ⟨Nat.succ_pos _, fun peer reply hmem ↦ absurd hmem List.not_mem_nil⟩
  | requestVote k peer round r reply hround _ hr =>
    obtain ⟨hpos, hgranted⟩ := h.elections round (List.mem_of_getElem? hround)
    refine h.frame (Raft.termInv_requestVote hpos hr) rfl (hterm nofun)
      (h.elections_set hround rfl fun v answer hmem hyes ↦ ?_) h.heartbeats h.tasks h.calls
    rcases List.mem_append.mp hmem with hold | hnew
    · exact hgranted v answer hold hyes
    · cases List.mem_singleton.mp hnew
      rcases Raft.requestVote_cases hr with ⟨-, -, hno⟩ | ⟨-, -, hno⟩ | ⟨-, -, -, -, rfl⟩
      · rw [hno] at hyes
        cases hyes
      · rw [hno] at hyes
        cases hyes
      · exact hpos
  | sendRequestVote k peer reply round r votedNum hround _ hreply hr =>
    obtain ⟨-, hgranted⟩ := h.elections round (List.mem_of_getElem? hround)
    exact h.frame ((h.servers _).sendRequestVote (hgranted peer reply hreply) hr) rfl
      (hterm nofun) (h.elections_set hround rfl hgranted) h.heartbeats h.tasks h.calls
  | start i command r result hr =>
    exact h.frame ((h.servers i).start hr) rfl (hterm nofun) h.elections h.heartbeats h.tasks h.calls
  | doHeartBeat_idle i _ => exact h
  | doHeartBeat i sent hr =>
    rcases Raft.doHeartBeat_cases hr with ⟨-, hnone⟩ | ⟨hlead, sent', hsome, hto⟩
    · cases hnone
    cases hsome
    have hpos := (h.servers i).leads hlead
    refine ⟨h.servers, h.elections, fun round hround peer args hargs ↦ ?_, fun task htask ↦ ?_,
      h.calls⟩
    · rcases List.mem_append.mp hround with hold | hnew
      · exact h.heartbeats round hold peer args hargs
      · rw [List.mem_singleton.mp hnew] at hargs
        obtain ⟨⟨server, request⟩, hin, hrequest⟩ := List.mem_filterMap.mp hargs
        obtain ⟨args', hsomeArgs, heq⟩ := Option.map_eq_some_iff.mp hrequest
        cases heq
        cases hsomeArgs
        exact hpos.trans_eq (Raft.heartBeatTo_some (hto _ _ hin).2).1.symm
    · rcases List.mem_append.mp htask with hold | hnew
      · exact h.tasks task hold
      · obtain ⟨peer, -, rfl⟩ := List.mem_map.mp hnew
        exact hpos
  | appendEntries k peer round args r reply hround hargs hr =>
    have hpos := h.heartbeats round (List.mem_of_getElem? hround) peer args
      (mem_of_lookup hargs)
    exact h.frame ((h.servers peer).appendEntries hpos hr) rfl (hterm nofun) h.elections
      (h.heartbeats_set hround rfl) h.tasks h.calls
  | sendAppendEntries k peer reply round args r appendNums hround _ _ _ hr =>
    exact h.frame ((h.servers _).sendAppendEntries hr) rfl (hterm nofun) h.elections
      (h.heartbeats_set hround rfl) h.tasks h.calls
  | getApplyLogs i r msgs hr =>
    exact h.frame ((h.servers i).getApplyLogs hr) rfl (hterm nofun) h.elections h.heartbeats h.tasks
      h.calls
  | applierPush i msg msgs _ => exact ⟨h.servers, h.elections, h.heartbeats, h.tasks, h.calls⟩
  | snapshot i index data r hr =>
    exact h.frame ((h.servers i).snapshot hr) rfl (hterm nofun) h.elections h.heartbeats h.tasks
      h.calls
  | leaderSendSnapShot k i peer r args htask hr =>
    have hpos := h.tasks _ (List.mem_of_getElem? htask)
    have hsent : r.TermInv ∧ 0 < args.term := by
      cases hr
      exact ⟨(h.servers i).of_same rfl rfl (Or.inl hpos), hpos⟩
    refine h.frame hsent.1 rfl (hterm nofun) h.elections h.heartbeats
      (fun task hmem ↦ h.tasks task (List.mem_of_mem_eraseIdx hmem)) fun call hcall ↦ ?_
    rcases List.mem_append.mp hcall with hold | hnew
    · exact h.calls call hold
    · rw [List.mem_singleton.mp hnew]
      exact hsent.2
  | installSnapshot k call r reply msg hcall hr =>
    have hpos := h.calls call (List.mem_of_getElem? hcall)
    exact h.frame ((h.servers _).installSnapshot hpos hr) rfl (hterm nofun) h.elections h.heartbeats
      h.tasks (h.calls_set hcall rfl)
  | leaderSendSnapShotReply k reply call r hcall _ _ hr =>
    cases hr
    exact h.frame ((h.servers _).leaderSendSnapShotReply _ _ _) rfl (hterm nofun) h.elections
      h.heartbeats h.tasks (h.calls_set hcall rfl)
  | pushMsgToKvServer i k msg _ => exact ⟨h.servers, h.elections, h.heartbeats, h.tasks, h.calls⟩
  | restart i r data hr => exact h.replace ((h.servers i).restart hr)

end SavedInv

theorem savedInv_run (r : Run (raft n)) (k : ℕ) : SavedInv (r.state k) :=
  @Run.invariant _ _ (raft n) SavedInv (fun _ _ ↦ True) SavedInv.initial
    (fun _ _ _ h _ hstep ↦ h.step hstep) r (fun _ _ _ ↦ trivial) k

/-- Crash recovery. In every state of every run, restarts and snapshots included, a new process on
the files of a server starts with what was last saved if and only if nothing was ever saved. -/
theorem crashRecovery (r : Run (raft n)) (k : ℕ) (i : Fin n) :
    ((r.state k).servers i).Recovers ↔ ((r.state k).servers i).persister.lastRaftState = "" := by
  rw [Raft.recovers_iff]
  constructor
  · rintro ⟨hsaved, -⟩
    rcases ((savedInv_run r k).servers i).saved with ⟨hnone, -⟩ | ⟨d, hd, hpos⟩
    · exact hnone
    · rw [hsaved] at hd
      cases hd
      exact absurd hpos (lt_irrefl 0)
  · intro hnone
    have hsaved : ((r.state k).servers i).lastSaved = .ok .initial := by
      unfold Raft.lastSaved Raft.readPersist
      rw [if_pos hnone]
      rfl
    refine ⟨hsaved, ?_⟩
    rcases ((savedInv_run r k).servers i).saved with ⟨-, hsnapshot⟩ | ⟨d, hd, hpos⟩
    · exact hsnapshot
    · rw [hsaved] at hd
      cases hd
      exact absurd hpos (lt_irrefl 0)

end Step

section Examples

open scoped Archive

/-- A candidate of term 1 has saved its term and its vote, and the next process has neither. -/
theorem crashRecovery_candidate :
    ∃ r : Run (raft 2), ∃ k i, ¬ ((r.state k).servers i).Recovers := by
  refine ⟨laterTermRun, 1, 0, ?_⟩
  rw [Raft.recovers_iff]
  decide +kernel

end Examples

end Rsylar
