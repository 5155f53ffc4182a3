import Rsylar.Foundations.TransitionSystem
import Rsylar.Raft.ServerSpec

/-!
# The Raft cluster

The servers and the messages between them. A request that has been sent can be delivered at any
later time and any number of times, and every delivery records an answer. A call returns at most
once, with one of the answers its request has received, or never: delay, loss, reordering and the
duplication of requests need no actions of their own. The calls of one `doElection` share their
counter of votes and those of one `doHeartBeat` their counter of successes, so they are kept
together as a `VoteRound` and an `AppendRound`.

`Cluster.perform` is the handler behind an action together with the server that runs it. A server
whose handler fails a check exits and takes no further step (`Cluster.step`). `Cluster.Step` lists
the steps with what the handler returned, and `Cluster.step_cases` says that there are no others.
-/

set_option autoImplicit false
set_option relaxedAutoImplicit false

namespace Rsylar

open TextArchive TransitionSystem

/-- The vote requests of one election. -/
structure VoteRound (n : ℕ) where
  caller : Fin n
  args : RequestVoteArgs n
  votedNum : ℕ
  /-- the peers whose call has not returned -/
  pending : Finset (Fin n)
  replies : List (Fin n × RequestVoteReply)

/-- The append requests of one heartbeat. -/
structure AppendRound (n : ℕ) where
  caller : Fin n
  requests : List (Fin n × AppendEntriesArgs n)
  appendNums : ℕ
  pending : Finset (Fin n)
  replies : List (Fin n × AppendEntriesReply)

structure SnapshotCall (n : ℕ) where
  caller : Fin n
  server : Fin n
  args : InstallSnapshotRequest n
  pending : Bool
  replies : List InstallSnapshotResponse

structure Cluster (n : ℕ) where
  servers : Fin n → Raft n
  /-- a check has failed there -/
  exited : Fin n → Bool
  elections : List (VoteRound n)
  heartbeats : List (AppendRound n)
  /-- the scheduled calls of `leaderSendSnapShot`: leader and peer -/
  snapshotTasks : List (Fin n × Fin n)
  snapshotCalls : List (SnapshotCall n)
  /-- the messages `applierTicker` has taken and not pushed yet -/
  ticker : Fin n → List ApplyMsg
  /-- the scheduled calls of `pushMsgToKvServer` -/
  pushTasks : Fin n → List ApplyMsg
  /-- the messages pushed so far -/
  applyChan : Fin n → List ApplyMsg

inductive Action (n : ℕ)
  | doElection (i : Fin n)
  | requestVote (round : ℕ) (peer : Fin n)
  | sendRequestVote (round : ℕ) (peer : Fin n) (reply : RequestVoteReply)
  | start (i : Fin n) (command : String)
  | doHeartBeat (i : Fin n)
  | appendEntries (round : ℕ) (peer : Fin n)
  | sendAppendEntries (round : ℕ) (peer : Fin n) (reply : AppendEntriesReply)
  | getApplyLogs (i : Fin n)
  | applierPush (i : Fin n)
  | snapshot (i : Fin n) (index : ℕ) (data : String)
  | leaderSendSnapShot (task : ℕ)
  | installSnapshot (call : ℕ)
  | leaderSendSnapShotReply (call : ℕ) (reply : InstallSnapshotResponse)
  | pushMsgToKvServer (i : Fin n) (task : ℕ)
  | restart (i : Fin n)

variable {n : ℕ}

/-- The requests of an election that starts with the vote of the caller. -/
def VoteRound.begin (caller : Fin n) (args : RequestVoteArgs n) : VoteRound n where
  caller := caller
  args := args
  votedNum := 1
  pending := Finset.univ.erase caller
  replies := []

/-- The append requests among what a heartbeat sends. -/
def AppendRound.begin (caller : Fin n) (sent : List (Fin n × Option (AppendEntriesArgs n))) :
    AppendRound n where
  caller := caller
  requests := sent.filterMap fun (server, request) ↦ request.map fun args ↦ (server, args)
  appendNums := 1
  pending := Finset.univ.erase caller
  replies := []

/-- The peers among what a heartbeat sends that get the snapshot. -/
def snapshotPeers (sent : List (Fin n × Option (AppendEntriesArgs n))) : List (Fin n) :=
  (sent.filter fun (_, request) ↦ request.isNone).map Prod.fst

namespace Cluster

def initial : Cluster n where
  servers := fun _ ↦ Raft.fresh Persister.first
  exited := fun _ ↦ false
  elections := []
  heartbeats := []
  snapshotTasks := []
  snapshotCalls := []
  ticker := fun _ ↦ []
  pushTasks := fun _ ↦ []
  applyChan := fun _ ↦ []

def setServer (s : Cluster n) (i : Fin n) (r : Raft n) : Cluster n :=
  { s with servers := Function.update s.servers i r }

/-- The process of server `i` ends. -/
def exit (s : Cluster n) (i : Fin n) : Cluster n :=
  { s with exited := Function.update s.exited i true }

/-- The process of server `i` is replaced by a new one: its calls and its tasks are gone. -/
def replace (s : Cluster n) (i : Fin n) (r : Raft n) : Cluster n where
  servers := Function.update s.servers i r
  exited := Function.update s.exited i false
  elections := s.elections.map fun round ↦
    if round.caller = i then { round with pending := ∅ } else round
  heartbeats := s.heartbeats.map fun round ↦
    if round.caller = i then { round with pending := ∅ } else round
  snapshotTasks := s.snapshotTasks.filter fun task ↦ task.1 ≠ i
  snapshotCalls := s.snapshotCalls.map fun call ↦
    if call.caller = i then { call with pending := false } else call
  ticker := Function.update s.ticker i []
  pushTasks := Function.update s.pushTasks i []
  applyChan := Function.update s.applyChan i []

variable [Codec LogEntry] [Codec (BoostPersistRaftNode n)]

/-- The server that acts and what comes of it, `none` when the action is not possible. -/
def perform (s : Cluster n) : Action n → Option (Fin n × Except Abort (Cluster n))
  | .doElection i =>
    let (r, request) := (s.servers i).doElection i
    some (i, .ok { s.setServer i r with
      elections := s.elections ++ (request.map (VoteRound.begin i)).toList })
  | .requestVote k peer => do
    let round ← s.elections[k]?
    guard (peer ≠ round.caller)
    some (peer, do
      let (r, reply) ← (s.servers peer).requestVote round.args
      pure { s.setServer peer r with
        elections := s.elections.set k
          { round with replies := round.replies ++ [(peer, reply)] } })
  | .sendRequestVote k peer reply => do
    let round ← s.elections[k]?
    guard (peer ∈ round.pending ∧ (peer, reply) ∈ round.replies)
    some (round.caller, do
      let (r, votedNum) ← (s.servers round.caller).sendRequestVote reply round.votedNum
      pure { s.setServer round.caller r with
        elections := s.elections.set k
          { round with votedNum := votedNum, pending := round.pending.erase peer } })
  | .start i command =>
    some (i, do
      let (r, _) ← (s.servers i).start i command
      pure (s.setServer i r))
  | .doHeartBeat i =>
    some (i, do
      match ← (s.servers i).doHeartBeat i with
      | none => pure s
      | some sent =>
        pure { s with
          heartbeats := s.heartbeats ++ [AppendRound.begin i sent]
          snapshotTasks := s.snapshotTasks ++ (snapshotPeers sent).map fun peer ↦ (i, peer) })
  | .appendEntries k peer => do
    let round ← s.heartbeats[k]?
    let args ← round.requests.lookup peer
    some (peer, do
      let (r, reply) ← (s.servers peer).appendEntries args
      pure { s.setServer peer r with
        heartbeats := s.heartbeats.set k
          { round with replies := round.replies ++ [(peer, reply)] } })
  | .sendAppendEntries k peer reply => do
    let round ← s.heartbeats[k]?
    let args ← round.requests.lookup peer
    guard (peer ∈ round.pending ∧ (peer, reply) ∈ round.replies)
    some (round.caller, do
      let (r, appendNums) ←
        (s.servers round.caller).sendAppendEntries peer args reply round.appendNums
      pure { s.setServer round.caller r with
        heartbeats := s.heartbeats.set k
          { round with appendNums := appendNums, pending := round.pending.erase peer } })
  | .getApplyLogs i => do
    guard (s.ticker i = [])
    some (i, do
      let (r, msgs) ← (s.servers i).getApplyLogs
      pure { s.setServer i r with ticker := Function.update s.ticker i msgs })
  | .applierPush i =>
    match s.ticker i with
    | [] => none
    | msg :: msgs =>
      some (i, .ok { s with
        ticker := Function.update s.ticker i msgs
        applyChan := Function.update s.applyChan i (s.applyChan i ++ [msg]) })
  | .snapshot i index data =>
    some (i, do
      let r ← (s.servers i).snapshot index data
      pure (s.setServer i r))
  | .leaderSendSnapShot k => do
    let (i, peer) ← s.snapshotTasks[k]?
    let (r, args) := (s.servers i).leaderSendSnapShot i
    some (i, .ok { s.setServer i r with
      snapshotTasks := s.snapshotTasks.eraseIdx k
      snapshotCalls := s.snapshotCalls ++ [⟨i, peer, args, true, []⟩] })
  | .installSnapshot k => do
    let call ← s.snapshotCalls[k]?
    some (call.server, do
      let (r, reply, msg) ← (s.servers call.server).installSnapshot call.args
      pure { s.setServer call.server r with
        snapshotCalls := s.snapshotCalls.set k { call with replies := call.replies ++ [reply] }
        pushTasks := Function.update s.pushTasks call.server
          (s.pushTasks call.server ++ msg.toList) })
  | .leaderSendSnapShotReply k reply => do
    let call ← s.snapshotCalls[k]?
    guard (call.pending ∧ reply ∈ call.replies)
    let r := (s.servers call.caller).leaderSendSnapShotReply call.server call.args reply
    some (call.caller, .ok { s.setServer call.caller r with
      snapshotCalls := s.snapshotCalls.set k { call with pending := false } })
  | .pushMsgToKvServer i k => do
    let msg ← (s.pushTasks i)[k]?
    some (i, .ok { s with
      pushTasks := Function.update s.pushTasks i ((s.pushTasks i).eraseIdx k)
      applyChan := Function.update s.applyChan i (s.applyChan i ++ [msg]) })
  | .restart i =>
    some (i, do
      let (r, _) ← (s.servers i).restart
      pure (s.replace i r))

/-- Only a restart gets a server that has exited going again. -/
def canAct (s : Cluster n) (i : Fin n) (a : Action n) : Bool :=
  !s.exited i || match a with
    | .restart _ => true
    | _ => false

def step (s : Cluster n) (a : Action n) : Option (Cluster n) := do
  let (i, outcome) ← s.perform a
  guard (s.canAct i a)
  match outcome with
  | .ok s' => some s'
  | .error _ => some (s.exit i)

/-! ### The steps -/

/-- The steps of the cluster, with what the handlers returned. -/
inductive Step (s : Cluster n) : Action n → Cluster n → Prop
  | exit {a : Action n} (i : Fin n) (e : Abort) (h : s.perform a = some (i, .error e)) :
      Step s a (s.exit i)
  | doElection (i : Fin n) (r : Raft n) (request : Option (RequestVoteArgs n))
      (h : (s.servers i).doElection i = (r, request)) :
      Step s (.doElection i) { s.setServer i r with
        elections := s.elections ++ (request.map (VoteRound.begin i)).toList }
  | requestVote (k : ℕ) (peer : Fin n) (round : VoteRound n) (r : Raft n)
      (reply : RequestVoteReply) (hround : s.elections[k]? = some round)
      (hpeer : peer ≠ round.caller)
      (h : (s.servers peer).requestVote round.args = .ok (r, reply)) :
      Step s (.requestVote k peer) { s.setServer peer r with
        elections := s.elections.set k
          { round with replies := round.replies ++ [(peer, reply)] } }
  | sendRequestVote (k : ℕ) (peer : Fin n) (reply : RequestVoteReply) (round : VoteRound n)
      (r : Raft n) (votedNum : ℕ) (hround : s.elections[k]? = some round)
      (hpending : peer ∈ round.pending) (hreply : (peer, reply) ∈ round.replies)
      (h : (s.servers round.caller).sendRequestVote reply round.votedNum = .ok (r, votedNum)) :
      Step s (.sendRequestVote k peer reply) { s.setServer round.caller r with
        elections := s.elections.set k
          { round with votedNum := votedNum, pending := round.pending.erase peer } }
  | start (i : Fin n) (command : String) (r : Raft n) (result : Option (ℕ × ℕ))
      (h : (s.servers i).start i command = .ok (r, result)) :
      Step s (.start i command) (s.setServer i r)
  | doHeartBeat_idle (i : Fin n) (h : (s.servers i).doHeartBeat i = .ok none) :
      Step s (.doHeartBeat i) s
  | doHeartBeat (i : Fin n) (sent : List (Fin n × Option (AppendEntriesArgs n)))
      (h : (s.servers i).doHeartBeat i = .ok (some sent)) :
      Step s (.doHeartBeat i) { s with
        heartbeats := s.heartbeats ++ [AppendRound.begin i sent]
        snapshotTasks := s.snapshotTasks ++ (snapshotPeers sent).map fun peer ↦ (i, peer) }
  | appendEntries (k : ℕ) (peer : Fin n) (round : AppendRound n) (args : AppendEntriesArgs n)
      (r : Raft n) (reply : AppendEntriesReply) (hround : s.heartbeats[k]? = some round)
      (hargs : round.requests.lookup peer = some args)
      (h : (s.servers peer).appendEntries args = .ok (r, reply)) :
      Step s (.appendEntries k peer) { s.setServer peer r with
        heartbeats := s.heartbeats.set k
          { round with replies := round.replies ++ [(peer, reply)] } }
  | sendAppendEntries (k : ℕ) (peer : Fin n) (reply : AppendEntriesReply) (round : AppendRound n)
      (args : AppendEntriesArgs n) (r : Raft n) (appendNums : ℕ)
      (hround : s.heartbeats[k]? = some round) (hargs : round.requests.lookup peer = some args)
      (hpending : peer ∈ round.pending) (hreply : (peer, reply) ∈ round.replies)
      (h : (s.servers round.caller).sendAppendEntries peer args reply round.appendNums =
        .ok (r, appendNums)) :
      Step s (.sendAppendEntries k peer reply) { s.setServer round.caller r with
        heartbeats := s.heartbeats.set k
          { round with appendNums := appendNums, pending := round.pending.erase peer } }
  | getApplyLogs (i : Fin n) (r : Raft n) (msgs : List ApplyMsg)
      (h : (s.servers i).getApplyLogs = .ok (r, msgs)) :
      Step s (.getApplyLogs i) { s.setServer i r with
        ticker := Function.update s.ticker i msgs }
  | applierPush (i : Fin n) (msg : ApplyMsg) (msgs : List ApplyMsg)
      (h : s.ticker i = msg :: msgs) :
      Step s (.applierPush i) { s with
        ticker := Function.update s.ticker i msgs
        applyChan := Function.update s.applyChan i (s.applyChan i ++ [msg]) }
  | snapshot (i : Fin n) (index : ℕ) (data : String) (r : Raft n)
      (h : (s.servers i).snapshot index data = .ok r) :
      Step s (.snapshot i index data) (s.setServer i r)
  | leaderSendSnapShot (k : ℕ) (i peer : Fin n) (r : Raft n) (args : InstallSnapshotRequest n)
      (htask : s.snapshotTasks[k]? = some (i, peer))
      (h : (s.servers i).leaderSendSnapShot i = (r, args)) :
      Step s (.leaderSendSnapShot k) { s.setServer i r with
        snapshotTasks := s.snapshotTasks.eraseIdx k
        snapshotCalls := s.snapshotCalls ++ [⟨i, peer, args, true, []⟩] }
  | installSnapshot (k : ℕ) (call : SnapshotCall n) (r : Raft n)
      (reply : InstallSnapshotResponse) (msg : Option ApplyMsg)
      (hcall : s.snapshotCalls[k]? = some call)
      (h : (s.servers call.server).installSnapshot call.args = .ok (r, reply, msg)) :
      Step s (.installSnapshot k) { s.setServer call.server r with
        snapshotCalls := s.snapshotCalls.set k { call with replies := call.replies ++ [reply] }
        pushTasks := Function.update s.pushTasks call.server
          (s.pushTasks call.server ++ msg.toList) }
  | leaderSendSnapShotReply (k : ℕ) (reply : InstallSnapshotResponse) (call : SnapshotCall n)
      (r : Raft n) (hcall : s.snapshotCalls[k]? = some call) (hpending : call.pending = true)
      (hreply : reply ∈ call.replies)
      (h : (s.servers call.caller).leaderSendSnapShotReply call.server call.args reply = r) :
      Step s (.leaderSendSnapShotReply k reply) { s.setServer call.caller r with
        snapshotCalls := s.snapshotCalls.set k { call with pending := false } }
  | pushMsgToKvServer (i : Fin n) (k : ℕ) (msg : ApplyMsg) (h : (s.pushTasks i)[k]? = some msg) :
      Step s (.pushMsgToKvServer i k) { s with
        pushTasks := Function.update s.pushTasks i ((s.pushTasks i).eraseIdx k)
        applyChan := Function.update s.applyChan i (s.applyChan i ++ [msg]) }
  | restart (i : Fin n) (r : Raft n) (snapshot : String)
      (h : (s.servers i).restart = .ok (r, snapshot)) :
      Step s (.restart i) (s.replace i r)

theorem perform_cases {s s' : Cluster n} {a : Action n} {i : Fin n}
    (h : s.perform a = some (i, .ok s')) : Step s a s' := by
  cases a with
  | doElection i =>
    simp only [perform, Option.some.injEq, Prod.mk.injEq, Except.ok.injEq] at h
    obtain ⟨rfl, rfl⟩ := h
    exact .doElection i _ _ rfl
  | requestVote k peer =>
    simp only [perform, Option.bind_eq_bind, Option.bind_eq_some_iff, Option.guard_eq_some',
      Option.some.injEq, Prod.mk.injEq] at h
    obtain ⟨round, hround, _, hpeer, rfl, h⟩ := h
    obtain ⟨⟨r, reply⟩, hr, h⟩ := bind_eq_ok.mp h
    cases h
    exact .requestVote k peer round r reply hround hpeer hr
  | sendRequestVote k peer reply =>
    simp only [perform, Option.bind_eq_bind, Option.bind_eq_some_iff, Option.guard_eq_some',
      Option.some.injEq, Prod.mk.injEq] at h
    obtain ⟨round, hround, _, ⟨hpending, hreply⟩, rfl, h⟩ := h
    obtain ⟨⟨r, votedNum⟩, hr, h⟩ := bind_eq_ok.mp h
    cases h
    exact .sendRequestVote k peer reply round r votedNum hround hpending hreply hr
  | start i command =>
    simp only [perform, Option.some.injEq, Prod.mk.injEq] at h
    obtain ⟨rfl, h⟩ := h
    obtain ⟨⟨r, result⟩, hr, h⟩ := bind_eq_ok.mp h
    cases h
    exact .start i command r result hr
  | doHeartBeat i =>
    simp only [perform, Option.some.injEq, Prod.mk.injEq] at h
    obtain ⟨rfl, h⟩ := h
    obtain ⟨result, hr, h⟩ := bind_eq_ok.mp h
    cases result with
    | none =>
      cases h
      exact .doHeartBeat_idle i hr
    | some sent =>
      cases h
      exact .doHeartBeat i sent hr
  | appendEntries k peer =>
    simp only [perform, Option.bind_eq_bind, Option.bind_eq_some_iff, Option.some.injEq,
      Prod.mk.injEq] at h
    obtain ⟨round, hround, args, hargs, rfl, h⟩ := h
    obtain ⟨⟨r, reply⟩, hr, h⟩ := bind_eq_ok.mp h
    cases h
    exact .appendEntries k peer round args r reply hround hargs hr
  | sendAppendEntries k peer reply =>
    simp only [perform, Option.bind_eq_bind, Option.bind_eq_some_iff, Option.guard_eq_some',
      Option.some.injEq, Prod.mk.injEq] at h
    obtain ⟨round, hround, args, hargs, _, ⟨hpending, hreply⟩, rfl, h⟩ := h
    obtain ⟨⟨r, appendNums⟩, hr, h⟩ := bind_eq_ok.mp h
    cases h
    exact .sendAppendEntries k peer reply round args r appendNums hround hargs hpending hreply hr
  | getApplyLogs i =>
    simp only [perform, Option.bind_eq_bind, Option.bind_eq_some_iff, Option.guard_eq_some',
      Option.some.injEq, Prod.mk.injEq] at h
    obtain ⟨_, -, rfl, h⟩ := h
    obtain ⟨⟨r, msgs⟩, hr, h⟩ := bind_eq_ok.mp h
    cases h
    exact .getApplyLogs i r msgs hr
  | applierPush i =>
    simp only [perform] at h
    split at h
    · cases h
    · rename_i msg msgs hticker
      simp only [Option.some.injEq, Prod.mk.injEq, Except.ok.injEq] at h
      obtain ⟨rfl, rfl⟩ := h
      exact .applierPush i msg msgs hticker
  | snapshot i index data =>
    simp only [perform, Option.some.injEq, Prod.mk.injEq] at h
    obtain ⟨rfl, h⟩ := h
    obtain ⟨r, hr, h⟩ := bind_eq_ok.mp h
    cases h
    exact .snapshot i index data r hr
  | leaderSendSnapShot k =>
    simp only [perform, Option.bind_eq_bind, Option.bind_eq_some_iff] at h
    obtain ⟨⟨i, peer⟩, htask, h⟩ := h
    simp only [Option.some.injEq, Prod.mk.injEq, Except.ok.injEq] at h
    obtain ⟨rfl, rfl⟩ := h
    exact .leaderSendSnapShot k i peer _ _ htask rfl
  | installSnapshot k =>
    simp only [perform, Option.bind_eq_bind, Option.bind_eq_some_iff, Option.some.injEq,
      Prod.mk.injEq] at h
    obtain ⟨call, hcall, rfl, h⟩ := h
    obtain ⟨⟨r, reply, msg⟩, hr, h⟩ := bind_eq_ok.mp h
    cases h
    exact .installSnapshot k call r reply msg hcall hr
  | leaderSendSnapShotReply k reply =>
    simp only [perform, Option.bind_eq_bind, Option.bind_eq_some_iff, Option.guard_eq_some',
      Option.some.injEq, Prod.mk.injEq, Except.ok.injEq] at h
    obtain ⟨call, hcall, _, ⟨hpending, hreply⟩, rfl, rfl⟩ := h
    exact .leaderSendSnapShotReply k reply call _ hcall hpending hreply rfl
  | pushMsgToKvServer i k =>
    simp only [perform, Option.bind_eq_bind, Option.bind_eq_some_iff, Option.some.injEq,
      Prod.mk.injEq, Except.ok.injEq] at h
    obtain ⟨msg, hmsg, rfl, rfl⟩ := h
    exact .pushMsgToKvServer i k msg hmsg
  | restart i =>
    simp only [perform, Option.some.injEq, Prod.mk.injEq] at h
    obtain ⟨rfl, h⟩ := h
    obtain ⟨⟨r, snapshot⟩, hr, h⟩ := bind_eq_ok.mp h
    cases h
    exact .restart i r snapshot hr

theorem step_cases {s s' : Cluster n} {a : Action n} (h : s.step a = some s') : Step s a s' := by
  simp only [step, Option.bind_eq_bind, Option.bind_eq_some_iff] at h
  obtain ⟨⟨i, outcome⟩, hperform, _, -, h⟩ := h
  cases outcome with
  | error e =>
    cases h
    exact .exit i e hperform
  | ok s'' =>
    cases h
    exact perform_cases hperform

end Cluster

/-- The cluster of `n` servers. -/
def raft (n : ℕ) [Codec LogEntry] [Codec (BoostPersistRaftNode n)] : Lts (Cluster n) (Action n) where
  init := Cluster.initial
  step := Cluster.step

end Rsylar
