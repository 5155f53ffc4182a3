import Mathlib.Data.Fintype.Card
import Mathlib.Data.List.FinRange
import Mathlib.Logic.Function.Basic
import Rsylar.Foundations.Election
import Rsylar.Foundations.TextArchive
import Rsylar.Raft.Persister

/-!
# The Raft server

The state of a server and the handlers that run under its lock, in the order of the code. A handler
that waits for the answer of a peer gives its lock up while it waits: what it does before is part of
`doElection`, `doHeartBeat` and `leaderSendSnapShot`, and `sendRequestVote`, `sendAppendEntries` and
`leaderSendSnapShotReply` are what it does with the answer.

A failing `myAssert` ends the process, and so does a vector access outside the bounds as far as the
model is concerned: a handler returns `Except Abort`. Terms and indices are natural numbers without
a bound. The timers and the logger are left out, and so is `m_me`, which is a parameter.
-/

set_option autoImplicit false
set_option relaxedAutoImplicit false

namespace Rsylar

open TextArchive

abbrev Status := Consensus.Role

/-- For the numbers of the servers of a cluster of three. -/
instance threeServers : @NeZero ℕ (@Zero.ofOfNat0 ℕ _) 3 := ⟨Nat.succ_ne_zero 2⟩

/-! ### Messages -/

structure LogEntry where
  command : String := ""
  logTerm : ℕ := 0
  logIndex : ℕ := 0
deriving DecidableEq

structure AppendEntriesArgs (n : ℕ) where
  term : ℕ
  leaderId : Fin n
  prevLogIndex : ℕ
  prevLogTerm : ℕ
  entries : List LogEntry
  leaderCommit : ℕ
deriving DecidableEq

inductive AppState
  | disconnected
  | appNormal
deriving DecidableEq

structure AppendEntriesReply where
  term : ℕ := 0
  success : Bool := false
  /-- `none` is the code's `-100` -/
  updateNextIndex : Option ℕ := some 0
  appState : AppState := .disconnected
deriving DecidableEq

structure RequestVoteArgs (n : ℕ) where
  term : ℕ
  candidateId : Fin n
  lastLogIndex : ℕ
  lastLogTerm : ℕ
deriving DecidableEq

inductive VoteState
  | killed
  | voted
  | expire
  | normal
deriving DecidableEq

structure RequestVoteReply where
  term : ℕ := 0
  voteGranted : Bool := false
  voteState : VoteState := .killed
deriving DecidableEq

structure InstallSnapshotRequest (n : ℕ) where
  leaderId : Fin n
  term : ℕ
  lastSnapshotIncludeIndex : ℕ
  lastSnapshotIncludeTerm : ℕ
  data : String
deriving DecidableEq

structure InstallSnapshotResponse where
  term : ℕ := 0
deriving DecidableEq

structure ApplyMsg where
  commandValid : Bool := false
  command : String := ""
  commandIndex : ℤ := -1
  snapshotValid : Bool := false
  snapshot : String := ""
  snapshotTerm : ℤ := -1
  snapshotIndex : ℤ := -1
deriving DecidableEq

/-! ### Checks -/

/-- The checks that end the process. -/
inductive Abort
  | requestTermDiffers
  | replyTermDiffers
  | sameTermOtherCommand
  | entriesMissing
  | commitBeyondLastLog
  | matchLogIndex
  | termIndexBelowSnapshot
  | termIndexBeyondLastLog
  | sliceIndexBelowSnapshot
  | sliceIndexBeyondLastLog
  | nextIndexBelowOne
  | nextIndexBeyondLastLog
  | entriesEndElsewhere
  | appliedIndexDiffers
  | leaderTwice
  | snapshotLosesEntries
  | outOfRange
  | archiveException
deriving DecidableEq

def myAssert (condition : Prop) [Decidable condition] (message : Abort) : Except Abort Unit :=
  if condition then .ok () else .error message

/-! ### State -/

structure Raft (n : ℕ) where
  currentTerm : ℕ
  votedFor : Option (Fin n)
  logs : List LogEntry
  commitIndex : ℕ
  lastApplied : ℕ
  nextIndex : Fin n → ℕ
  matchIndex : Fin n → ℕ
  status : Status
  lastSnapshotIncludeIndex : ℕ
  lastSnapshotIncludeTerm : ℕ
  persister : Persister

/-- What a server writes to its file; the entries are serialized one by one. -/
structure BoostPersistRaftNode (n : ℕ) where
  currentTerm : ℕ
  votedFor : Option (Fin n)
  lastSnapshotIncludeIndex : ℕ
  lastSnapshotIncludeTerm : ℕ
  logs : List String

namespace Raft

variable {n : ℕ}

/-! ### Positions in the log -/

/-- Index and term of the last entry, those of the snapshot when there is none. -/
def getLastLogIndexAndTerm (r : Raft n) : ℕ × ℕ :=
  match r.logs.getLast? with
  | none => (r.lastSnapshotIncludeIndex, r.lastSnapshotIncludeTerm)
  | some e => (e.logIndex, e.logTerm)

def getLastLogIndex (r : Raft n) : ℕ := r.getLastLogIndexAndTerm.1

def getLastLogTerm (r : Raft n) : ℕ := r.getLastLogIndexAndTerm.2

def getNewCommandIndex (r : Raft n) : ℕ := r.getLastLogIndex + 1

def getSlicesIndexFromLogIndex (r : Raft n) (logIndex : ℕ) : Except Abort ℕ := do
  myAssert (r.lastSnapshotIncludeIndex < logIndex) .sliceIndexBelowSnapshot
  myAssert (logIndex ≤ r.getLastLogIndex) .sliceIndexBeyondLastLog
  pure (logIndex - r.lastSnapshotIncludeIndex - 1)

/-- `m_logs[getSlicesIndexFromLogIndex(logIndex)]`. -/
def entryAt (r : Raft n) (logIndex : ℕ) : Except Abort LogEntry := do
  let slice ← r.getSlicesIndexFromLogIndex logIndex
  match r.logs[slice]? with
  | none => .error .outOfRange
  | some e => pure e

def getLogTermFromLogIndex (r : Raft n) (logIndex : ℕ) : Except Abort ℕ := do
  myAssert (r.lastSnapshotIncludeIndex ≤ logIndex) .termIndexBelowSnapshot
  myAssert (logIndex ≤ r.getLastLogIndex) .termIndexBeyondLastLog
  if logIndex = r.lastSnapshotIncludeIndex then
    pure r.lastSnapshotIncludeTerm
  else
    let e ← r.entryAt logIndex
    pure e.logTerm

def matchLog (r : Raft n) (logIndex logTerm : ℕ) : Except Abort Bool := do
  myAssert (r.lastSnapshotIncludeIndex ≤ logIndex ∧ logIndex ≤ r.getLastLogIndex) .matchLogIndex
  let t ← r.getLogTermFromLogIndex logIndex
  pure (logTerm = t)

def upToDate (r : Raft n) (index term : ℕ) : Prop :=
  r.getLastLogTerm < term ∨ term = r.getLastLogTerm ∧ r.getLastLogIndex ≤ index

instance (r : Raft n) (index term : ℕ) : Decidable (r.upToDate index term) :=
  inferInstanceAs (Decidable (_ ∨ _))

/-! ### Persistence -/

section Persistence

variable [Codec LogEntry] [Codec (BoostPersistRaftNode n)]

def persistData (r : Raft n) : String :=
  Codec.encode (α := BoostPersistRaftNode n)
    { currentTerm := r.currentTerm
      votedFor := r.votedFor
      lastSnapshotIncludeIndex := r.lastSnapshotIncludeIndex
      lastSnapshotIncludeTerm := r.lastSnapshotIncludeTerm
      logs := r.logs.map Codec.encode }

def persist (r : Raft n) : Raft n :=
  { r with persister := r.persister.saveRaftState r.persistData }

def readPersist (r : Raft n) (data : String) : Except Abort (Raft n) :=
  if data = "" then
    .ok r
  else
    match Codec.decode (α := BoostPersistRaftNode n) data with
    | none => .error .archiveException
    | some node =>
      .ok { r with
        currentTerm := node.currentTerm
        votedFor := node.votedFor
        lastSnapshotIncludeIndex := node.lastSnapshotIncludeIndex
        lastSnapshotIncludeTerm := node.lastSnapshotIncludeTerm
        logs := node.logs.map fun item ↦ (Codec.decode item).getD {} }

/-- The fields before `readPersist`. -/
def fresh (persister : Persister) : Raft n where
  currentTerm := 0
  votedFor := none
  logs := []
  commitIndex := 0
  lastApplied := 0
  nextIndex := fun _ ↦ 0
  matchIndex := fun _ ↦ 0
  status := .follower
  lastSnapshotIncludeIndex := 0
  lastSnapshotIncludeTerm := 0
  persister := persister

def init (persister : Persister) : Except Abort (Raft n) := do
  let r ← (fresh persister).readPersist persister.readRaftState
  if 0 < r.lastSnapshotIncludeIndex then
    pure { r with lastApplied := r.lastSnapshotIncludeIndex }
  else
    pure r

/-- The constructor of the store: the node is initialized, then the snapshot is read for the store,
which is the second component. -/
def restore (persister : Persister) : Except Abort (Raft n × String) := do
  let r ← init persister
  let (snapshot, persister) := r.persister.readSnapshot
  pure ({ r with persister := persister }, snapshot)

/-- A new process on the files of this one. -/
def restart (r : Raft n) : Except Abort (Raft n × String) :=
  restore r.persister.restart

end Persistence

/-! ### Changes of the role -/

/-- A later term makes the server a follower that has not voted. -/
def stepDown (r : Raft n) (term : ℕ) : Raft n :=
  { r with status := .follower, currentTerm := term, votedFor := none }

/-- The term of a request that is not outdated. -/
def enterTerm (r : Raft n) (term : ℕ) : Raft n :=
  if r.currentTerm < term then r.stepDown term else r

def asFollower (r : Raft n) : Raft n :=
  { r with status := .follower }

def becomeLeader (r : Raft n) : Raft n :=
  { r with
    status := .leader
    nextIndex := fun _ ↦ r.getLastLogIndex + 1
    matchIndex := fun _ ↦ 0 }

/-- A candidate of the next term, with its own vote. -/
def stand (r : Raft n) (me : Fin n) : Raft n :=
  { r with status := .candidate, currentTerm := r.currentTerm + 1, votedFor := some me }

/-- What a peer is known to hold. -/
def setMatchIndex (r : Raft n) (server : Fin n) (index : ℕ) : Raft n :=
  { r with
    matchIndex := Function.update r.matchIndex server index
    nextIndex := Function.update r.nextIndex server (index + 1) }

/-! ### Elections -/

section Handlers

variable [Codec LogEntry] [Codec (BoostPersistRaftNode n)]

/-- The second component is what is sent to the peers. -/
def doElection (r : Raft n) (me : Fin n) : Raft n × Option (RequestVoteArgs n) :=
  if r.status = .leader then
    (r, none)
  else
    let r := (r.stand me).persist
    if n = 1 then
      (r.becomeLeader.persist, none)
    else
      (r, some
        { term := r.currentTerm
          candidateId := me
          lastLogIndex := r.getLastLogIndex
          lastLogTerm := r.getLastLogTerm })

def requestVote (r : Raft n) (args : RequestVoteArgs n) :
    Except Abort (Raft n × RequestVoteReply) :=
  if args.term < r.currentTerm then
    .ok (r.persist, { term := r.currentTerm, voteGranted := false, voteState := .expire })
  else do
    let r := r.enterTerm args.term
    myAssert (args.term = r.currentTerm) .requestTermDiffers
    if ¬ r.upToDate args.lastLogIndex args.lastLogTerm then
      pure (r.persist, { term := r.currentTerm, voteGranted := false, voteState := .voted })
    else if r.votedFor ≠ none ∧ r.votedFor ≠ some args.candidateId then
      pure (r.persist, { term := r.currentTerm, voteGranted := false, voteState := .voted })
    else
      pure (persist { r with votedFor := some args.candidateId },
        { term := r.currentTerm, voteGranted := true, voteState := .normal })

/-- The answer to a vote request, with the counter that the requests of one election share. -/
def sendRequestVote (r : Raft n) (reply : RequestVoteReply) (votedNum : ℕ) :
    Except Abort (Raft n × ℕ) :=
  if r.currentTerm < reply.term then
    .ok ((r.stepDown reply.term).persist, votedNum)
  else if reply.term < r.currentTerm then
    .ok (r, votedNum)
  else do
    myAssert (reply.term = r.currentTerm) .replyTermDiffers
    if ¬ reply.voteGranted then
      pure (r, votedNum)
    else if n / 2 + 1 ≤ votedNum + 1 then
      if r.status = .leader then
        .error .leaderTwice
      else
        pure (r.becomeLeader.persist, 0)
    else
      pure (r, votedNum + 1)

/-! ### Replication, the leader's side -/

/-- Has a majority reached `index`? The leader counts itself without looking. -/
def reachedByMajority (r : Raft n) (me : Fin n) (index : ℕ) : Prop :=
  n / 2 + 1 ≤ (Finset.univ.filter fun i ↦ i = me ∨ index ≤ r.matchIndex i).card

instance (r : Raft n) (me : Fin n) (index : ℕ) : Decidable (r.reachedByMajority me index) :=
  inferInstanceAs (Decidable (_ ≤ _))

/-- The largest index up to the given one that `leaderUpdateCommitIndex` may commit. -/
def committableUpTo (r : Raft n) (me : Fin n) : ℕ → Except Abort (Option ℕ)
  | 0 => .ok none
  | index + 1 =>
    if r.lastSnapshotIncludeIndex + 1 ≤ index + 1 then
      if r.reachedByMajority me (index + 1) then do
        let t ← r.getLogTermFromLogIndex (index + 1)
        if t = r.currentTerm then pure (some (index + 1)) else r.committableUpTo me index
      else
        r.committableUpTo me index
    else
      .ok none

def leaderUpdateCommitIndex (r : Raft n) (me : Fin n) : Except Abort (Raft n) := do
  let found ← r.committableUpTo me r.getLastLogIndex
  pure { r with commitIndex := found.getD r.lastSnapshotIncludeIndex }

/-- The new index and term, `none` when the server does not lead. -/
def start (r : Raft n) (me : Fin n) (command : String) :
    Except Abort (Raft n × Option (ℕ × ℕ)) :=
  if r.status ≠ .leader then
    .ok (r, none)
  else do
    let e : LogEntry :=
      { command := command, logTerm := r.currentTerm, logIndex := r.getNewCommandIndex }
    let r := persist { r with logs := r.logs ++ [e] }
    let r ← r.leaderUpdateCommitIndex me
    pure (r, some (e.logIndex, e.logTerm))

def getPrevLogInfo (r : Raft n) (server : Fin n) : Except Abort (ℕ × ℕ) :=
  if r.nextIndex server = r.lastSnapshotIncludeIndex + 1 then
    .ok (r.lastSnapshotIncludeIndex, r.lastSnapshotIncludeTerm)
  else do
    let e ← r.entryAt (r.nextIndex server - 1)
    pure (r.nextIndex server - 1, e.logTerm)

/-- The entries a request with this `preLogIndex` carries. -/
def entriesAfter (r : Raft n) (preLogIndex : ℕ) : Except Abort (List LogEntry) :=
  if preLogIndex ≠ r.lastSnapshotIncludeIndex then do
    let slice ← r.getSlicesIndexFromLogIndex preLogIndex
    pure (r.logs.drop (slice + 1))
  else
    .ok r.logs

/-- What the heartbeat sends to one peer: a request, or `none` for the snapshot. -/
def heartBeatTo (r : Raft n) (me server : Fin n) :
    Except Abort (Option (AppendEntriesArgs n)) := do
  myAssert (1 ≤ r.nextIndex server) .nextIndexBelowOne
  if r.nextIndex server ≤ r.lastSnapshotIncludeIndex then
    pure none
  else
    let (preLogIndex, prevLogTerm) ← r.getPrevLogInfo server
    let entries ← r.entriesAfter preLogIndex
    myAssert (preLogIndex + entries.length = r.getLastLogIndex) .entriesEndElsewhere
    pure (some
      { term := r.currentTerm
        leaderId := me
        prevLogIndex := preLogIndex
        prevLogTerm := prevLogTerm
        entries := entries
        leaderCommit := r.commitIndex })

/-- The loop of `doHeartBeat` over the given peers. -/
def heartBeats (r : Raft n) (me : Fin n) :
    List (Fin n) → Except Abort (List (Fin n × Option (AppendEntriesArgs n)))
  | [] => .ok []
  | server :: servers => do
    let request ← r.heartBeatTo me server
    let requests ← r.heartBeats me servers
    pure ((server, request) :: requests)

/-- What a leader sends to every peer but itself, `none` when the server does not lead. -/
def doHeartBeat (r : Raft n) (me : Fin n) :
    Except Abort (Option (List (Fin n × Option (AppendEntriesArgs n)))) :=
  if r.status = .leader then do
    let requests ← r.heartBeats me ((List.finRange n).filter (· ≠ me))
    pure (some requests)
  else
    .ok none

/-- The answer to an append request, with the counter that the requests of one heartbeat share. -/
def sendAppendEntries (r : Raft n) (server : Fin n) (args : AppendEntriesArgs n)
    (reply : AppendEntriesReply) (appendNums : ℕ) : Except Abort (Raft n × ℕ) :=
  if reply.appState = .disconnected then
    .ok (r, appendNums)
  else if r.currentTerm < reply.term then
    .ok (r.stepDown reply.term, appendNums)
  else if reply.term < r.currentTerm then
    .ok (r, appendNums)
  else if r.status ≠ .leader then
    .ok (r, appendNums)
  else do
    myAssert (reply.term = r.currentTerm) .replyTermDiffers
    if ¬ reply.success then
      match reply.updateNextIndex with
      | none => pure (r, appendNums)
      | some index =>
        pure ({ r with nextIndex := Function.update r.nextIndex server index }, appendNums)
    else
      let reached := max (r.matchIndex server) (args.prevLogIndex + args.entries.length)
      let r := r.setMatchIndex server reached
      myAssert (reached + 1 ≤ r.getLastLogIndex + 1) .nextIndexBeyondLastLog
      if 1 + n / 2 ≤ appendNums + 1 then
        -- the whole request is committed, and only when it ends in the present term
        let r :=
          if args.entries.getLast?.map LogEntry.logTerm = some r.currentTerm then
            { r with commitIndex := max r.commitIndex (args.prevLogIndex + args.entries.length) }
          else
            r
        myAssert (r.commitIndex ≤ r.getLastLogIndex) .commitBeyondLastLog
        pure (r, 0)
      else
        pure (r, appendNums + 1)

/-! ### Replication, the follower's side -/

/-- One entry of a request: appended, compared, or put in the place of the entry with its index.
What follows that place stays. -/
def mergeEntry (r : Raft n) (log : LogEntry) : Except Abort (Raft n) :=
  if r.getLastLogIndex < log.logIndex then
    .ok { r with logs := r.logs ++ [log] }
  else do
    let slice ← r.getSlicesIndexFromLogIndex log.logIndex
    let old ← r.entryAt log.logIndex
    if old.logTerm = log.logTerm ∧ old.command ≠ log.command then
      .error .sameTermOtherCommand
    else if old.logTerm ≠ log.logTerm then
      pure { r with logs := r.logs.set slice log }
    else
      pure r

def mergeEntries (r : Raft n) : List LogEntry → Except Abort (Raft n)
  | [] => .ok r
  | log :: entries => do
    let r ← r.mergeEntry log
    r.mergeEntries entries

/-- The search for the first entry of the term at `prevLogIndex`, from the given index down. -/
def conflictIndex (r : Raft n) (prevLogIndex : ℕ) : ℕ → Except Abort ℕ
  | 0 =>
    if r.lastSnapshotIncludeIndex ≤ 0 then do
      let t ← r.getLogTermFromLogIndex 0
      let prevTerm ← r.getLogTermFromLogIndex prevLogIndex
      pure (if t ≠ prevTerm then 1 else prevLogIndex)
    else
      .ok prevLogIndex
  | index + 1 =>
    if r.lastSnapshotIncludeIndex ≤ index + 1 then do
      let t ← r.getLogTermFromLogIndex (index + 1)
      let prevTerm ← r.getLogTermFromLogIndex prevLogIndex
      if t ≠ prevTerm then pure (index + 2) else r.conflictIndex prevLogIndex index
    else
      .ok prevLogIndex

def appendEntries (r : Raft n) (args : AppendEntriesArgs n) :
    Except Abort (Raft n × AppendEntriesReply) :=
  let reply : AppendEntriesReply := { appState := .appNormal }
  if args.term < r.currentTerm then
    .ok (r, { reply with success := false, term := r.currentTerm, updateNextIndex := none })
  else do
    let r := r.enterTerm args.term
    myAssert (args.term = r.currentTerm) .requestTermDiffers
    let r := r.asFollower
    if r.getLastLogIndex < args.prevLogIndex then
      pure (r.persist,
        { reply with
          success := false
          term := r.currentTerm
          updateNextIndex := some (r.getLastLogIndex + 1) })
    else
      -- a request from before the snapshot is answered, but the handler goes on
      let reply :=
        if args.prevLogIndex < r.lastSnapshotIncludeIndex then
          { reply with
            success := false
            term := r.currentTerm
            updateNextIndex := some (r.lastSnapshotIncludeIndex + 1) }
        else
          reply
      if ← r.matchLog args.prevLogIndex args.prevLogTerm then
        let r ← r.mergeEntries args.entries
        myAssert (args.prevLogIndex + args.entries.length ≤ r.getLastLogIndex) .entriesMissing
        let r :=
          if r.commitIndex < args.leaderCommit then
            { r with commitIndex := min args.leaderCommit r.getLastLogIndex }
          else
            r
        myAssert (r.commitIndex ≤ r.getLastLogIndex) .commitBeyondLastLog
        pure (r.persist, { reply with success := true, term := r.currentTerm })
      else
        let update ← r.conflictIndex args.prevLogIndex args.prevLogIndex
        pure (r.persist,
          { reply with
            success := false
            term := r.currentTerm
            updateNextIndex := some update })

/-! ### Applying -/

/-- The given number of messages after `lastApplied`. -/
def applyFrom (r : Raft n) : ℕ → ℕ → Except Abort (List ApplyMsg)
  | 0, _ => .ok []
  | count + 1, lastApplied => do
    let e ← r.entryAt (lastApplied + 1)
    myAssert (e.logIndex = lastApplied + 1) .appliedIndexDiffers
    let msgs ← r.applyFrom count (lastApplied + 1)
    pure ({ commandValid := true
            command := e.command
            commandIndex := (lastApplied + 1 : ℕ)
            snapshotValid := false } :: msgs)

def getApplyLogs (r : Raft n) : Except Abort (Raft n × List ApplyMsg) := do
  myAssert (r.commitIndex ≤ r.getLastLogIndex) .commitBeyondLastLog
  let msgs ← r.applyFrom (r.commitIndex - r.lastApplied) r.lastApplied
  pure ({ r with lastApplied := max r.lastApplied r.commitIndex }, msgs)

/-! ### Snapshots -/

/-- The entries of the given number of indices from the given one on. -/
def entriesFrom (r : Raft n) : ℕ → ℕ → Except Abort (List LogEntry)
  | 0, _ => .ok []
  | count + 1, logIndex => do
    let e ← r.entryAt logIndex
    let entries ← r.entriesFrom count (logIndex + 1)
    pure (e :: entries)

def snapshot (r : Raft n) (index : ℕ) (data : String) : Except Abort (Raft n) :=
  if index ≤ r.lastSnapshotIncludeIndex ∨ r.commitIndex < index then
    .ok r
  else do
    let lastLogIndex := r.getLastLogIndex
    let e ← r.entryAt index
    let trunckedLogs ← r.entriesFrom (lastLogIndex - index) (index + 1)
    let r := { r with
      lastSnapshotIncludeIndex := index
      lastSnapshotIncludeTerm := e.logTerm
      logs := trunckedLogs
      commitIndex := max r.commitIndex index
      lastApplied := max r.lastApplied index }
    let r := { r with persister := r.persister.save r.persistData data }
    myAssert (r.logs.length + r.lastSnapshotIncludeIndex = lastLogIndex) .snapshotLosesEntries
    pure r

/-- The scheduled task does not check whether the server still leads. -/
def leaderSendSnapShot (r : Raft n) (me : Fin n) : Raft n × InstallSnapshotRequest n :=
  let (data, persister) := r.persister.readSnapshot
  ({ r with persister := persister },
    { leaderId := me
      term := r.currentTerm
      lastSnapshotIncludeIndex := r.lastSnapshotIncludeIndex
      lastSnapshotIncludeTerm := r.lastSnapshotIncludeTerm
      data := data })

def leaderSendSnapShotReply (r : Raft n) (server : Fin n) (args : InstallSnapshotRequest n)
    (reply : InstallSnapshotResponse) : Raft n :=
  if r.status ≠ .leader ∨ r.currentTerm ≠ args.term then
    r
  else if r.currentTerm < reply.term then
    (r.stepDown reply.term).persist
  else
    r.setMatchIndex server args.lastSnapshotIncludeIndex

/-- The entries that a snapshot up to `index` leaves. -/
def logsBeyond (r : Raft n) (index : ℕ) : Except Abort (List LogEntry) :=
  if index < r.getLastLogIndex then do
    let slice ← r.getSlicesIndexFromLogIndex index
    pure (r.logs.drop (slice + 1))
  else
    .ok []

/-- The last component is the message that is pushed to the store. -/
def installSnapshot (r : Raft n) (args : InstallSnapshotRequest n) :
    Except Abort (Raft n × InstallSnapshotResponse × Option ApplyMsg) :=
  if args.term < r.currentTerm then
    .ok (r, { term := r.currentTerm }, none)
  else do
    let r := if r.currentTerm < args.term then (r.stepDown args.term).persist else r
    let r := r.asFollower
    if args.lastSnapshotIncludeIndex ≤ r.lastSnapshotIncludeIndex then
      pure (r, {}, none)
    else
      let logs ← r.logsBeyond args.lastSnapshotIncludeIndex
      let r := { r with
        logs := logs
        commitIndex := max r.commitIndex args.lastSnapshotIncludeIndex
        lastApplied := max r.lastApplied args.lastSnapshotIncludeIndex
        lastSnapshotIncludeIndex := args.lastSnapshotIncludeIndex
        lastSnapshotIncludeTerm := args.lastSnapshotIncludeTerm }
      let r := { r with persister := r.persister.save r.persistData args.data }
      pure (r, { term := r.currentTerm }, some
        { snapshotValid := true
          snapshot := args.data
          snapshotTerm := args.lastSnapshotIncludeTerm
          snapshotIndex := args.lastSnapshotIncludeIndex })

end Handlers

end Raft

end Rsylar
