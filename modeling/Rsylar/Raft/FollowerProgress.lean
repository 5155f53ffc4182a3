import Rsylar.Raft.IndexOrder
import Rsylar.Raft.StateMachineSafety

/-!
# What a leader knows of its peers

`matchIndex` is set to zero by an election, raised by the answers to append requests, and assigned
by the answers to snapshots (`MatchMove`). An answer carries an index that the log of the peer has
reached, and as long as that log does not go back the peer covers every index up to its `matchIndex`
(`ProgressInv`). The assignment can move `matchIndex` back: a snapshot that was sent before the peer
caught up may be answered after it. In the runs in which it does not, and in which no process with a
log is replaced (`ProgressKept`), what a leader knows of its peers only grows (`followerProgress`).
-/

set_option autoImplicit false
set_option relaxedAutoImplicit false

namespace Rsylar

open TextArchive TransitionSystem

variable {n : ℕ}

/-! ### What a step does to `matchIndex` -/

/-- The `matchIndex` of server `j` after an action that does not replace its process. -/
inductive MatchMove (s : Cluster n) (j : Fin n) : Action n → (Fin n → ℕ) → Prop
  | kept {a : Action n} : MatchMove s j a (s.servers j).matchIndex
  | elected {a : Action n} (h : (s.servers j).status ≠ .leader) : MatchMove s j a fun _ ↦ 0
  | appended (k : ℕ) (peer : Fin n) (reply : AppendEntriesReply) (round : AppendRound n)
      (args : AppendEntriesArgs n) (hround : s.heartbeats[k]? = some round)
      (hargs : round.requests.lookup peer = some args) (hreply : (peer, reply) ∈ round.replies)
      (hsuccess : reply.success = true) :
      MatchMove s j (.sendAppendEntries k peer reply)
        (Function.update (s.servers j).matchIndex peer
          (max ((s.servers j).matchIndex peer) (args.prevLogIndex + args.entries.length)))
  | installed (k : ℕ) (reply : InstallSnapshotResponse) (call : SnapshotCall n)
      (hcall : s.snapshotCalls[k]? = some call) (hcaller : call.caller = j)
      (hreply : reply ∈ call.replies) (hlead : (s.servers j).status = .leader)
      (hterm : (s.servers j).currentTerm = call.args.term) (hle : reply.term ≤ call.args.term) :
      MatchMove s j (.leaderSendSnapShotReply k reply)
        (Function.update (s.servers j).matchIndex call.server call.args.lastSnapshotIncludeIndex)

section Step

variable [Codec LogEntry] [Codec (BoostPersistRaftNode n)] {s s' : Cluster n}

section Handlers

variable {r r' : Raft n}

omit [Codec LogEntry] [Codec (BoostPersistRaftNode n)] in
@[simp]
theorem Raft.enterTerm_matchIndex (r : Raft n) (term : ℕ) :
    (r.enterTerm term).matchIndex = r.matchIndex := by
  unfold Raft.enterTerm
  split <;> rfl

theorem matchIndex_requestVote {args : RequestVoteArgs n} {reply : RequestVoteReply}
    (hr : r.requestVote args = .ok (r', reply)) : r'.matchIndex = r.matchIndex := by
  rcases Raft.requestVote_cases hr with ⟨-, rfl, -⟩ | ⟨-, rfl, -⟩ | ⟨-, -, -, rfl, -⟩
  · rfl
  · simp
  · exact r.enterTerm_matchIndex _

theorem matchIndex_start {me : Fin n} {command : String} {result : Option (ℕ × ℕ)}
    (hr : r.start me command = .ok (r', result)) : r'.matchIndex = r.matchIndex := by
  rcases Raft.start_cases hr with ⟨-, rfl, -⟩ | ⟨-, e, q, found, -, rfl, -, rfl, -⟩ <;> rfl

theorem matchIndex_appendEntries {args : AppendEntriesArgs n} {reply : AppendEntriesReply}
    (hr : r.appendEntries args = .ok (r', reply)) : r'.matchIndex = r.matchIndex := by
  rcases Raft.appendEntries_cases hr with ⟨-, rfl, -⟩ | ⟨-, -, rfl⟩ | ⟨-, -, -, -, q, hq, -, rfl⟩
  · rfl
  · exact r.enterTerm_matchIndex _
  · show q.matchIndex = r.matchIndex
    rw [Raft.mergeEntries_logs hq]
    exact r.enterTerm_matchIndex _

theorem matchIndex_snapshot {index : ℕ} {data : String} (hr : r.snapshot index data = .ok r') :
    r'.matchIndex = r.matchIndex := by
  rcases Raft.snapshot_cases hr with rfl | ⟨-, -, e, logs, q, -, -, rfl, rfl⟩ <;> rfl

theorem matchIndex_installSnapshot {args : InstallSnapshotRequest n}
    {reply : InstallSnapshotResponse} {msg : Option ApplyMsg}
    (hr : r.installSnapshot args = .ok (r', reply, msg)) : r'.matchIndex = r.matchIndex := by
  rcases Raft.installSnapshot_cases hr with ⟨-, rfl⟩ | ⟨p, ⟨-, rfl⟩ | ⟨-, rfl⟩,
    ⟨-, rfl⟩ | ⟨-, logs, q, -, rfl, rfl⟩⟩ <;> rfl

end Handlers

omit [Codec LogEntry] [Codec (BoostPersistRaftNode n)] in
theorem matchMove_setServer {i j : Fin n} {r : Raft n} {a : Action n}
    (h : MatchMove s i a r.matchIndex) : MatchMove s j a ((s.setServer i r).servers j).matchIndex := by
  by_cases hj : j = i
  · subst hj
    simpa only [Cluster.setServer, Function.update_self] using h
  · simp only [Cluster.setServer, Function.update_of_ne hj]
    exact .kept

omit [Codec LogEntry] [Codec (BoostPersistRaftNode n)] in
/-- A server whose handler keeps `matchIndex`. -/
theorem matchMove_of_eq {i j : Fin n} {r : Raft n} {a : Action n}
    (h : r.matchIndex = (s.servers i).matchIndex) :
    MatchMove s j a ((s.setServer i r).servers j).matchIndex :=
  matchMove_setServer (h ▸ .kept)

theorem matchMove_step {a : Action n} (hstep : s.step a = some s') (j : Fin n)
    (ha : a ≠ .restart j) : MatchMove s j a (s'.servers j).matchIndex := by
  cases Cluster.step_cases hstep with
  | exit i e _ => exact .kept
  | doElection i r request hr =>
    refine matchMove_setServer ?_
    rcases (s.servers i).doElection_cases i with ⟨-, heq⟩ | ⟨hnot, -, heq⟩ | ⟨-, -, heq⟩ <;>
      obtain ⟨rfl, -⟩ := Prod.mk.inj (heq.symm.trans hr)
    · exact .kept
    · exact .elected hnot
    · exact .kept
  | requestVote k peer round r reply _ _ hr => exact matchMove_of_eq (matchIndex_requestVote hr)
  | sendRequestVote k peer reply round r votedNum _ _ _ hr =>
    refine matchMove_setServer ?_
    rcases Raft.sendRequestVote_cases hr with ⟨-, rfl, -⟩ | ⟨rfl, -⟩ | ⟨-, -, -, rfl, -⟩ |
      ⟨-, -, -, hnot, rfl, -⟩
    · exact .kept
    · exact .kept
    · exact .kept
    · exact .elected hnot
  | start i command r result hr => exact matchMove_of_eq (matchIndex_start hr)
  | doHeartBeat_idle i _ => exact .kept
  | doHeartBeat i sent _ => exact .kept
  | appendEntries k peer round args r reply _ _ hr =>
    exact matchMove_of_eq (matchIndex_appendEntries hr)
  | sendAppendEntries k peer reply round args r appendNums hround hargs _ hreply hr =>
    refine matchMove_setServer ?_
    rcases Raft.sendAppendEntries_cases hr with ⟨rfl, -⟩ | ⟨-, -, rfl, -⟩ |
      ⟨-, -, -, -, index, -, rfl⟩ | ⟨-, -, hsuccess, reached, rfl, -, ⟨rfl, -⟩ | ⟨-, -, -, rfl⟩⟩
    · exact .kept
    · exact .kept
    · exact .kept
    · exact .appended k peer reply round args hround hargs hreply hsuccess
    · exact .appended k peer reply round args hround hargs hreply hsuccess
  | getApplyLogs i r msgs hr =>
    obtain ⟨rfl, -⟩ := Raft.getApplyLogs_cases hr
    exact matchMove_of_eq rfl
  | applierPush i msg msgs _ => exact .kept
  | snapshot i index data r hr => exact matchMove_of_eq (matchIndex_snapshot hr)
  | leaderSendSnapShot k i peer r args _ hr =>
    cases hr
    exact matchMove_of_eq rfl
  | installSnapshot k call r reply msg _ hr =>
    exact matchMove_of_eq (matchIndex_installSnapshot hr)
  | leaderSendSnapShotReply k reply call r hcall _ hreply hr =>
    refine matchMove_setServer ?_
    rcases (s.servers call.caller).leaderSendSnapShotReply_cases call.server call.args reply with
      heq | ⟨-, heq⟩ | ⟨hlead, hterm, hle, heq⟩ <;> rw [← hr, heq]
    · exact .kept
    · exact .kept
    · exact .installed k reply call hcall rfl hreply hlead hterm (hle.trans hterm.le)
  | pushMsgToKvServer i k msg _ => exact .kept
  | restart i r data _ =>
    have hj : j ≠ i := fun hj ↦ ha (hj ▸ rfl)
    simp only [Cluster.replace, Function.update_of_ne hj]
    exact .kept

/-! ### The invariant -/

/-- What is known of a peer is within its log, and so is what its answers say. -/
structure ProgressInv (s : Cluster n) : Prop where
  known : ∀ i peer, (s.servers i).matchIndex peer ≤ (s.servers peer).getLastLogIndex
  appends : ∀ round ∈ s.heartbeats, ∀ peer args reply, round.requests.lookup peer = some args →
    (peer, reply) ∈ round.replies → reply.success = true →
    args.prevLogIndex + args.entries.length ≤ (s.servers peer).getLastLogIndex
  installs : ∀ call ∈ s.snapshotCalls, ∀ reply ∈ call.replies, reply.term ≤ call.args.term →
    call.args.lastSnapshotIncludeIndex ≤ (s.servers call.server).getLastLogIndex

/-- No answer to a snapshot moves `matchIndex` back, and no process with a log is replaced. -/
def ProgressKept (s : Cluster n) : Action n → Prop
  | .leaderSendSnapShotReply k reply => ∀ call ∈ s.snapshotCalls[k]?,
    (s.servers call.caller).status = .leader → (s.servers call.caller).currentTerm = call.args.term →
    reply.term ≤ call.args.term →
    (s.servers call.caller).matchIndex call.server ≤ call.args.lastSnapshotIncludeIndex
  | .restart i => (s.servers i).getLastLogIndex = 0
  | _ => True

instance : DecidableRel (ProgressKept : Cluster n → Action n → Prop) := fun s a ↦
  match a with
  | .leaderSendSnapShotReply k reply => inferInstanceAs (Decidable (∀ call ∈ s.snapshotCalls[k]?,
    (s.servers call.caller).status = .leader → (s.servers call.caller).currentTerm = call.args.term →
    reply.term ≤ call.args.term →
    (s.servers call.caller).matchIndex call.server ≤ call.args.lastSnapshotIncludeIndex))
  | .restart i => inferInstanceAs (Decidable ((s.servers i).getLastLogIndex = 0))
  | .doElection _ | .requestVote _ _ | .sendRequestVote _ _ _ | .start _ _ | .doHeartBeat _
  | .appendEntries _ _ | .sendAppendEntries _ _ _ | .getApplyLogs _ | .applierPush _
  | .snapshot _ _ _ | .leaderSendSnapShot _ | .installSnapshot _ | .pushMsgToKvServer _ _ =>
    .isTrue trivial

namespace ProgressInv

omit [Codec LogEntry] [Codec (BoostPersistRaftNode n)] in
theorem initial : ProgressInv (Cluster.initial : Cluster n) where
  known := fun _ _ ↦ Nat.zero_le _
  appends := fun round hround ↦ by cases hround
  installs := fun call hcall ↦ by cases hcall

omit [Codec LogEntry] [Codec (BoostPersistRaftNode n)] in
/-- The answers known before are still right when no log goes back. -/
theorem mono (h : ProgressInv s)
    (hlast : ∀ i, (s.servers i).getLastLogIndex ≤ (s'.servers i).getLastLogIndex)
    (hknown : ∀ i peer, (s'.servers i).matchIndex peer ≤ (s'.servers peer).getLastLogIndex)
    (happends : ∀ round ∈ s'.heartbeats, ∀ peer args reply,
      round.requests.lookup peer = some args → (peer, reply) ∈ round.replies →
      reply.success = true →
      (∃ old ∈ s.heartbeats, old.requests = round.requests ∧ (peer, reply) ∈ old.replies) ∨
        args.prevLogIndex + args.entries.length ≤ (s'.servers peer).getLastLogIndex)
    (hinstalls : ∀ call ∈ s'.snapshotCalls, ∀ reply ∈ call.replies, reply.term ≤ call.args.term →
      (∃ old ∈ s.snapshotCalls, old.server = call.server ∧ old.args = call.args ∧
        reply ∈ old.replies) ∨
        call.args.lastSnapshotIncludeIndex ≤ (s'.servers call.server).getLastLogIndex) :
    ProgressInv s' where
  known := hknown
  appends := by
    intro round hround peer args reply hargs hreply hsuccess
    rcases happends round hround peer args reply hargs hreply hsuccess with
      ⟨old, hold, hrequests, hin⟩ | hle
    · exact (h.appends old hold peer args reply (hrequests ▸ hargs) hin hsuccess).trans (hlast peer)
    · exact hle
  installs := by
    intro call hcall reply hreply hle
    rcases hinstalls call hcall reply hreply hle with ⟨old, hold, hserver, hargs, hin⟩ | hle
    · have hknown := h.installs old hold reply hin (hargs ▸ hle)
      rw [hserver, hargs] at hknown
      exact hknown.trans (hlast _)
    · exact hle

/-- What one step preserves. -/
theorem step (h : ProgressInv s) (hshape : ShapeInv s) {a : Action n} (ha : ProgressKept s a)
    (hstep : s.step a = some s') : ProgressInv s' := by
  have hlast : ∀ i, (s.servers i).getLastLogIndex ≤ (s'.servers i).getLastLogIndex := fun i ↦
    hshape.last_le_step hstep i fun heq ↦ by
      rw [heq] at ha
      exact ha
  have hknown : ∀ i peer, (s'.servers i).matchIndex peer ≤ (s'.servers peer).getLastLogIndex := by
    intro i peer
    by_cases hrestart : a = .restart i
    · subst hrestart
      cases Cluster.step_cases hstep with
      | exit j e _ => exact h.known i peer
      | restart j r data hr =>
        rw [Raft.restart_eq] at hr
        cases hr
        simp only [Cluster.replace, Function.update_self]
        exact Nat.zero_le _
    · refine le_trans ?_ (hlast peer)
      have hmove := matchMove_step hstep i hrestart
      generalize (s'.servers i).matchIndex = m at hmove
      cases hmove with
      | kept => exact h.known i peer
      | elected => exact Nat.zero_le _
      | appended k server reply round args hround hargs hreply hsuccess =>
        rw [Function.update_apply]
        split
        · rename_i heq
          subst heq
          exact max_le (h.known i peer)
            (h.appends round (List.mem_of_getElem? hround) peer args reply hargs hreply hsuccess)
        · exact h.known i peer
      | installed k reply call hcall _ hreply _ _ hle =>
        rw [Function.update_apply]
        split
        · rename_i heq
          subst heq
          exact h.installs call (List.mem_of_getElem? hcall) reply hreply hle
        · exact h.known i peer
  have hrounds : s'.heartbeats = s.heartbeats → ∀ round ∈ s'.heartbeats, ∀ peer args reply,
      round.requests.lookup peer = some args → (peer, reply) ∈ round.replies →
      reply.success = true →
      (∃ old ∈ s.heartbeats, old.requests = round.requests ∧ (peer, reply) ∈ old.replies) ∨
        args.prevLogIndex + args.entries.length ≤ (s'.servers peer).getLastLogIndex :=
    fun heq round hround _ _ _ _ hreply _ ↦ Or.inl ⟨round, heq ▸ hround, rfl, hreply⟩
  have hcalls : s'.snapshotCalls = s.snapshotCalls → ∀ call ∈ s'.snapshotCalls,
      ∀ reply ∈ call.replies, reply.term ≤ call.args.term →
      (∃ old ∈ s.snapshotCalls, old.server = call.server ∧ old.args = call.args ∧
        reply ∈ old.replies) ∨
        call.args.lastSnapshotIncludeIndex ≤ (s'.servers call.server).getLastLogIndex :=
    fun heq call hcall _ hreply _ ↦ Or.inl ⟨call, heq ▸ hcall, rfl, rfl, hreply⟩
  cases Cluster.step_cases hstep with
  | doHeartBeat i sent hr =>
    refine h.mono hlast hknown (fun round hround peer args reply _ hreply _ ↦ ?_) (hcalls rfl)
    rcases List.mem_append.mp hround with hold | hnew
    · exact Or.inl ⟨round, hold, rfl, hreply⟩
    · rw [List.mem_singleton.mp hnew] at hreply
      exact absurd hreply List.not_mem_nil
  | appendEntries k peer round args r reply hround hargs hr =>
    refine h.mono hlast hknown (fun a ha v args' answer hlookup hanswer hsuccess ↦ ?_) (hcalls rfl)
    rcases List.mem_or_eq_of_mem_set ha with ha | rfl
    · exact Or.inl ⟨a, ha, rfl, hanswer⟩
    rcases List.mem_append.mp hanswer with hold | hnew
    · exact Or.inl ⟨round, List.mem_of_getElem? hround, rfl, hold⟩
    · -- The new answer: the log of the peer reaches the end of the request.
      cases List.mem_singleton.mp hnew
      obtain rfl : args = args' := Option.some.inj (hargs.symm.trans hlookup)
      right
      rcases Raft.appendEntries_cases hr with ⟨-, -, hfail⟩ | ⟨-, hfail, -⟩ |
        ⟨-, -, -, -, q, -, hend, rfl⟩
      · rw [hfail] at hsuccess
        cases hsuccess
      · rw [hfail] at hsuccess
        cases hsuccess
      · simp only [Cluster.setServer, Function.update_self]
        exact hend
  | sendAppendEntries k peer reply round args r appendNums hround _ _ _ hr =>
    refine h.mono hlast hknown (fun a ha v args' answer _ hanswer _ ↦ ?_) (hcalls rfl)
    rcases List.mem_or_eq_of_mem_set ha with ha | rfl
    · exact Or.inl ⟨a, ha, rfl, hanswer⟩
    · exact Or.inl ⟨round, List.mem_of_getElem? hround, rfl, hanswer⟩
  | leaderSendSnapShot k i peer r args _ hr =>
    refine h.mono hlast hknown (hrounds rfl) fun call hcall reply hreply _ ↦ ?_
    rcases List.mem_append.mp hcall with hold | hnew
    · exact Or.inl ⟨call, hold, rfl, rfl, hreply⟩
    · rw [List.mem_singleton.mp hnew] at hreply
      exact absurd hreply List.not_mem_nil
  | installSnapshot k call r reply msg hcall hr =>
    refine h.mono hlast hknown (hrounds rfl) fun a ha answer hanswer hle ↦ ?_
    rcases List.mem_or_eq_of_mem_set ha with ha | rfl
    · exact Or.inl ⟨a, ha, rfl, rfl, hanswer⟩
    rcases List.mem_append.mp hanswer with hold | hnew
    · exact Or.inl ⟨call, List.mem_of_getElem? hcall, rfl, rfl, hold⟩
    · cases List.mem_singleton.mp hnew
      right
      rcases Raft.installSnapshot_reply hr with hlater | hcovers
      · exact absurd hle (not_le_of_gt hlater)
      · have hnumbered := (logStep_installSnapshot (hshape.servers call.server).numbered hr).numbered
        simp only [Cluster.setServer, Function.update_self]
        rw [hnumbered.getLastLogIndex_eq]
        exact hcovers.trans (Nat.le_add_right _ _)
  | leaderSendSnapShotReply k reply call r hcall _ _ hr =>
    refine h.mono hlast hknown (hrounds rfl) fun a ha answer hanswer _ ↦ ?_
    rcases List.mem_or_eq_of_mem_set ha with ha | rfl
    · exact Or.inl ⟨a, ha, rfl, rfl, hanswer⟩
    · exact Or.inl ⟨call, List.mem_of_getElem? hcall, rfl, rfl, hanswer⟩
  | restart i r data _ =>
    refine h.mono hlast hknown (fun round hround _ _ _ _ hreply _ ↦ ?_) fun call hcall _ hreply _ ↦ ?_
    · obtain ⟨old, hold, rfl⟩ := List.mem_map.mp hround
      exact Or.inl ⟨old, hold, by split <;> rfl, by split at hreply <;> exact hreply⟩
    · obtain ⟨old, hold, rfl⟩ := List.mem_map.mp hcall
      refine Or.inl ⟨old, hold, ?_, ?_, ?_⟩
      · split <;> rfl
      · split <;> rfl
      · split at hreply <;> exact hreply
  | _ => exact h.mono hlast hknown (hrounds rfl) (hcalls rfl)

end ProgressInv

/-- What a server knows of its peers over one step of its leadership. -/
theorem matchIndex_le_step {a : Action n} (ha : ProgressKept s a) (hstep : s.step a = some s')
    {i : Fin n} (hlead : (s.servers i).status = .leader) (hlead' : (s'.servers i).status = .leader)
    (peer : Fin n) : (s.servers i).matchIndex peer ≤ (s'.servers i).matchIndex peer := by
  by_cases hrestart : a = .restart i
  · subst hrestart
    cases Cluster.step_cases hstep with
    | exit j e _ => exact le_refl _
    | restart j r data hr =>
      rw [Raft.restart_eq] at hr
      cases hr
      simp only [Cluster.replace, Function.update_self] at hlead'
      cases hlead'
  · have hmove := matchMove_step hstep i hrestart
    generalize (s'.servers i).matchIndex = m at hmove
    cases hmove with
    | kept => exact le_refl _
    | elected hnot => exact absurd hlead hnot
    | appended k server reply round args _ _ _ _ =>
      rw [Function.update_apply]
      split
      · rename_i heq
        subst heq
        exact le_max_left _ _
      · exact le_refl _
    | installed k reply call hcall hcaller _ hleads hterm hle =>
      rw [Function.update_apply]
      split
      · rename_i heq
        subst heq
        subst hcaller
        exact ha call hcall hleads hterm hle
      · exact le_refl _

end Step

/-! ### The progress in every run -/

section Runs

variable [Codec LogEntry] [Codec (BoostPersistRaftNode n)]

theorem progressInv_run (r : Run (raft n)) (hr : r.Obeys ProgressKept) (k : ℕ) :
    ProgressInv (r.state k) := by
  induction k with
  | zero =>
    rw [r.state_zero]
    exact ProgressInv.initial
  | succ k ih =>
    cases ha : r.act k with
    | none => rw [r.pause k ha]; exact ih
    | some a => exact ih.step (shapeInv_run r k) (hr k a ha) (r.next k a ha)

/-- Server `i` leads the term from moment `j` to moment `k`. -/
def LeadsBetween (r : Run (raft n)) (i : Fin n) (term j k : ℕ) : Prop :=
  ∀ l, j ≤ l → l ≤ k →
    ((r.state l).servers i).status = .leader ∧ ((r.state l).servers i).currentTerm = term

/-- The server has the entry with this index, or its snapshot covers it. -/
def Raft.Covers (r : Raft n) (index : ℕ) : Prop :=
  index ≤ r.lastSnapshotIncludeIndex ∨ ∃ e ∈ r.logs, e.logIndex = index

/-- While a server leads a term, what it knows of its peers grows, and the peers cover it. -/
def FollowerProgress (r : Run (raft n)) : Prop :=
  ∀ i term j k, j ≤ k → LeadsBetween r i term j k → ∀ peer,
    ((r.state j).servers i).matchIndex peer ≤ ((r.state k).servers i).matchIndex peer ∧
      ∀ index ≤ ((r.state k).servers i).matchIndex peer, ((r.state k).servers peer).Covers index

omit [Codec LogEntry] [Codec (BoostPersistRaftNode n)] in
theorem Raft.Numbered.covers {r : Raft n} (h : r.Numbered) {index : ℕ}
    (hle : index ≤ r.getLastLogIndex) : r.Covers index := by
  rcases Nat.lt_or_ge r.lastSnapshotIncludeIndex index with hlt | hge
  · rw [h.getLastLogIndex_eq] at hle
    have hpos : index - r.lastSnapshotIncludeIndex - 1 < r.logs.length := by omega
    have hnumber := h _ _ (List.getElem?_eq_getElem hpos)
    exact Or.inr ⟨_, List.getElem_mem hpos, by omega⟩
  · exact Or.inl hge

/-- Follower progress. It holds in every run in which no answer to a snapshot moves `matchIndex`
back and no process with a log is replaced. -/
theorem followerProgress (r : Run (raft n)) (hr : r.Obeys ProgressKept) : FollowerProgress r := by
  intro i term j k hjk hlead peer
  constructor
  · exact r.le_between (fun s ↦ (s.servers i).matchIndex peer) hjk fun l a hjl hlk ha ↦
      matchIndex_le_step (hr l a ha) (r.next l a ha) (hlead l hjl hlk.le).1
        (hlead (l + 1) (by omega) hlk).1 peer
  · intro index hle
    have hinv := progressInv_run r hr k
    exact ((shapeInv_run r k).servers peer).numbered.covers (hle.trans (hinv.known i peer))

end Runs

/-! ### A late answer to a snapshot -/

section Examples

open scoped Archive

/-- Server 0 sends server 1 a snapshot up to index 1 before it sees the answer to its first request,
and server 1 has entry 2 when the snapshot arrives. -/
def lateSnapshot : List (Action 3) :=
  [.doElection 0, .requestVote 0 1, .sendRequestVote 0 1 (voteOf 1), .start 0 "x",
    .doHeartBeat 0, .appendEntries 0 1, .appendEntries 0 2, .sendAppendEntries 0 2 (accepted 1),
    .snapshot 0 1 "x", .doHeartBeat 0, .leaderSendSnapShot 0,
    .sendAppendEntries 0 1 (accepted 1), .start 0 "y",
    .doHeartBeat 0, .appendEntries 2 1, .sendAppendEntries 2 1 (accepted 1), .installSnapshot 0]

def lateSnapshotRun : Run (raft 3) :=
  Run.ofActions (raft 3) lateSnapshot (by decide +kernel)

def lateAnswerRun : Run (raft 3) :=
  Run.ofActions (raft 3) (lateSnapshot ++ [.leaderSendSnapShotReply 0 ⟨1⟩]) (by decide +kernel)

/-- The answer to the snapshot takes `matchIndex` from 2 to 1. -/
theorem followerProgress_lateAnswer : ∃ r : Run (raft 3), ¬ FollowerProgress r := by
  refine ⟨lateAnswerRun, fun hprogress ↦ ?_⟩
  have hleads : LeadsBetween lateAnswerRun 0 1 17 18 := by
    intro l hl hl'
    obtain rfl | rfl : l = 17 ∨ l = 18 := by omega
    · decide +kernel
    · decide +kernel
  have hbefore : ((lateAnswerRun.state 17).servers 0).matchIndex 1 = 2 := by decide +kernel
  have hafter : ((lateAnswerRun.state 18).servers 0).matchIndex 1 = 1 := by decide +kernel
  have hle := (hprogress 0 1 17 18 (by omega) hleads 1).1
  omega

theorem followerProgress_beforeAnswer :
    FollowerProgress lateSnapshotRun ∧ ((lateSnapshotRun.state 17).servers 0).matchIndex 1 = 2 := by
  refine ⟨followerProgress lateSnapshotRun ?_, by decide +kernel⟩
  rw [lateSnapshotRun, Run.obeys_ofActions_iff]
  decide +kernel

end Examples

end Rsylar
