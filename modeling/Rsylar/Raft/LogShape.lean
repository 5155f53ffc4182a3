import Rsylar.Raft.IndexOrder

/-!
# The shape of the log

The entries of a server are numbered from its snapshot on, and its indices lie within its log, in
every state of every run (`shapeInv_run`). On such a server `getApplyLogs` and `Snapshot` fail no
check, and a request that matches can only fail the check for two entries that share index and term
(`Raft.Shape.appendEntries_total`).

That last check and the last index depend on the files of the persister. The next process on the
files of a server starts with an empty log whatever was saved, so the last index goes back, and a
server that has forgotten its vote lets two leaders number entries in one term. As long as a process
is replaced only when it has saved nothing (`RestartsUnsaved`) the new process is like the old one
(`UnsavedInv`), and the log has its shape in the whole run (`logShape`).
-/

set_option autoImplicit false
set_option relaxedAutoImplicit false

namespace Rsylar

open TextArchive TransitionSystem Consensus

variable {n : ℕ}

/-! ### Checks that do not fail -/

namespace Raft

variable {r r' : Raft n}

theorem Numbered.entryAt_of_range (h : r.Numbered) {index : ℕ}
    (hlt : r.lastSnapshotIncludeIndex < index) (hle : index ≤ r.getLastLogIndex) :
    ∃ e, r.entryAt index = .ok e ∧ e.logIndex = index := by
  rw [h.getLastLogIndex_eq] at hle
  have hpos : index - r.lastSnapshotIncludeIndex - 1 < r.logs.length := by omega
  have he := h.entryAt_iff.mpr ⟨hlt, List.getElem?_eq_getElem hpos⟩
  exact ⟨_, he, h.logIndex_of_entryAt he⟩

/-- The entries within a numbered log are found one after the other. -/
theorem Numbered.applyFrom_total (h : r.Numbered) {count lastApplied : ℕ}
    (hlt : r.lastSnapshotIncludeIndex ≤ lastApplied)
    (hle : lastApplied + count ≤ r.getLastLogIndex) :
    ∃ msgs, r.applyFrom count lastApplied = .ok msgs := by
  induction count generalizing lastApplied with
  | zero => exact ⟨[], rfl⟩
  | succ count ih =>
    obtain ⟨e, he, hindex⟩ :=
      @Numbered.entryAt_of_range _ _ h (lastApplied + 1) (by omega) (by omega)
    obtain ⟨msgs, hmsgs⟩ := @ih (lastApplied + 1) (by omega) (by omega)
    refine ⟨_, bind_eq_ok.mpr ⟨e, he, bind_eq_ok.mpr ⟨(), myAssert_eq_ok.mpr hindex,
      bind_eq_ok.mpr ⟨msgs, hmsgs, rfl⟩⟩⟩⟩

theorem Numbered.entriesFrom_total (h : r.Numbered) {count index : ℕ}
    (hlt : r.lastSnapshotIncludeIndex < index) (hle : index + count ≤ r.getLastLogIndex + 1) :
    ∃ entries, r.entriesFrom count index = .ok entries ∧ entries.length = count := by
  induction count generalizing index with
  | zero => exact ⟨[], rfl, rfl⟩
  | succ count ih =>
    obtain ⟨e, he, -⟩ := @Numbered.entryAt_of_range _ _ h index hlt (by omega)
    obtain ⟨entries, hentries, hlen⟩ := @ih (index + 1) (by omega) (by omega)
    exact ⟨_, bind_eq_ok.mpr ⟨e, he, bind_eq_ok.mpr ⟨entries, hentries, rfl⟩⟩,
      congrArg (· + 1) hlen⟩

/-- Merging a request into a numbered log fails no check but the one for the identity of entries. -/
theorem Numbered.mergeEntries_total (h : r.Numbered) {entries : List LogEntry} {p : ℕ}
    (hentries : NumberedFrom (r.lastSnapshotIncludeIndex + p) entries) (hp : p ≤ r.logs.length) :
    (∃ q, r.mergeEntries entries = .ok q) ∨
      r.mergeEntries entries = .error .sameTermOtherCommand := by
  induction entries generalizing r p with
  | nil => exact Or.inl ⟨r, rfl⟩
  | cons log entries ih =>
    have hindex := hentries.head
    have hlog : (∃ q, r.mergeEntry log = .ok q) ∨
        r.mergeEntry log = .error .sameTermOtherCommand := by
      unfold mergeEntry
      split
      · exact Or.inl ⟨_, rfl⟩
      · rename_i hle
        obtain ⟨old, hold, -⟩ :=
          @Numbered.entryAt_of_range _ _ h log.logIndex (by omega) (by omega)
        have hslice := getSlicesIndexFromLogIndex_eq_ok.mpr
          ⟨show r.lastSnapshotIncludeIndex < log.logIndex by omega,
            show log.logIndex ≤ r.getLastLogIndex by omega, rfl⟩
        by_cases hdiffers : old.logTerm = log.logTerm ∧ old.command ≠ log.command
        · exact Or.inr (bind_eq_error.mpr (Or.inr ⟨_, hslice, bind_eq_error.mpr
            (Or.inr ⟨old, hold, if_pos hdiffers⟩)⟩))
        · refine Or.inl ?_
          by_cases hterm : old.logTerm ≠ log.logTerm
          · exact ⟨_, bind_eq_ok.mpr ⟨_, hslice, bind_eq_ok.mpr
              ⟨old, hold, (if_neg hdiffers).trans (if_pos hterm)⟩⟩⟩
          · exact ⟨_, bind_eq_ok.mpr ⟨_, hslice, bind_eq_ok.mpr
              ⟨old, hold, (if_neg hdiffers).trans (if_neg hterm)⟩⟩⟩
    rcases hlog with ⟨q, hq⟩ | herror
    · obtain rfl := mergeEntry_eq h (by omega) hp hq
      obtain ⟨hnumbered, htail, hlen⟩ := h.writeAt_head hentries hp
      unfold mergeEntries
      rw [hq]
      exact ih hnumbered htail hlen
    · exact Or.inr (bind_eq_error.mpr (Or.inl herror))

theorem Shape.getApplyLogs_total (h : r.Shape) : ∃ q msgs, r.getApplyLogs = .ok (q, msgs) := by
  have hle := h.applied_le
  have hcommit := h.commit_le
  obtain ⟨msgs, hmsgs⟩ := @Numbered.applyFrom_total _ _ h.numbered
    (r.commitIndex - r.lastApplied) r.lastApplied h.snapshot_le (by omega)
  exact ⟨_, msgs, bind_eq_ok.mpr ⟨(), myAssert_eq_ok.mpr h.commit_le,
    bind_eq_ok.mpr ⟨msgs, hmsgs, rfl⟩⟩⟩

variable [Codec LogEntry] [Codec (BoostPersistRaftNode n)]

theorem Shape.snapshot_total (h : r.Shape) (index : ℕ) (data : String) :
    ∃ q, r.snapshot index data = .ok q := by
  unfold snapshot
  split
  · exact ⟨r, rfl⟩
  · rename_i hrange
    have hcommit := h.commit_le
    obtain ⟨e, he, -⟩ := @Numbered.entryAt_of_range _ _ h.numbered index (by omega) (by omega)
    obtain ⟨entries, hentries, hlen⟩ := @Numbered.entriesFrom_total _ _ h.numbered
      (r.getLastLogIndex - index) (index + 1) (by omega) (by omega)
    refine ⟨_, bind_eq_ok.mpr ⟨e, he, bind_eq_ok.mpr ⟨entries, hentries, bind_eq_ok.mpr
      ⟨(), myAssert_eq_ok.mpr ?_, rfl⟩⟩⟩⟩
    show entries.length + index = _
    omega

/-- A request that matches fails no check but the one for the identity of entries. -/
theorem Shape.appendEntries_total (h : r.Shape) {args : AppendEntriesArgs n}
    (hentries : NumberedFrom args.prevLogIndex args.entries)
    (hmatch : r.matchLog args.prevLogIndex args.prevLogTerm = .ok true) :
    (∃ q reply, r.appendEntries args = .ok (q, reply)) ∨
      r.appendEntries args = .error .sameTermOtherCommand := by
  unfold appendEntries
  by_cases hold : args.term < r.currentTerm
  · exact Or.inl ⟨_, _, if_pos hold⟩
  · have hterm : args.term = (r.enterTerm args.term).currentTerm :=
      (r.enterTerm_currentTerm _ (by omega)).symm
    have hmatch' : (r.enterTerm args.term).asFollower.matchLog args.prevLogIndex args.prevLogTerm =
        .ok true := by
      rw [matchLog_eq_true] at hmatch ⊢
      rw [← hmatch]
      exact getLogTermFromLogIndex_congr (by simp) (by simp) (by simp) _
    have hprev := matchLog_eq_true.mp hmatch
    obtain ⟨hle, hlen⟩ := h.numbered.range_of_term hprev
    have hlast := h.numbered.getLastLogIndex_eq
    have hlastSame : (r.enterTerm args.term).asFollower.getLastLogIndex = r.getLastLogIndex := by
      simp [getLastLogIndex, getLastLogIndexAndTerm]
    have hnumbered : (r.enterTerm args.term).asFollower.Numbered := by
      simpa [Numbered] using h.numbered
    have hstart : (r.enterTerm args.term).asFollower.lastSnapshotIncludeIndex +
        (args.prevLogIndex - r.lastSnapshotIncludeIndex) = args.prevLogIndex := by
      simp
      omega
    simp only [if_neg hold]
    have hin : ¬ (r.enterTerm args.term).asFollower.getLastLogIndex < args.prevLogIndex := by omega
    rcases hnumbered.mergeEntries_total (hstart.symm ▸ hentries) (by simpa using hlen) with
      ⟨q, hq⟩ | herror
    · -- The written log reaches as far as the old one and as far as the request.
      obtain ⟨heq, -, -⟩ := appendEntries_logs h.numbered hentries hprev hq
      have hlogs : q.logs =
          writeAt r.logs (args.prevLogIndex - r.lastSnapshotIncludeIndex) args.entries := by rw [heq]
      have hsnapshot : q.lastSnapshotIncludeIndex = r.lastSnapshotIncludeIndex := by
        rw [heq]
        exact r.enterTerm_lastSnapshotIncludeIndex _
      have hcommit : q.commitIndex = r.commitIndex := by
        rw [heq]
        exact r.enterTerm_commitIndex _
      have hwritten : q.Numbered := by
        unfold Numbered
        rw [hlogs, hsnapshot]
        exact NumberedFrom.writeAt h.numbered (by rwa [Nat.add_sub_cancel' hle]) hlen
      have hend := hwritten.getLastLogIndex_eq
      rw [hlogs, length_writeAt hlen, hsnapshot] at hend
      have hcommitLe := h.commit_le
      refine Or.inl ⟨_, _, bind_eq_ok.mpr ⟨(), myAssert_eq_ok.mpr hterm, (if_neg hin).trans
        (bind_eq_ok.mpr ⟨true, hmatch', (if_pos rfl).trans (bind_eq_ok.mpr ⟨q, hq,
          bind_eq_ok.mpr ⟨(), myAssert_eq_ok.mpr (by omega), bind_eq_ok.mpr
            ⟨(), myAssert_eq_ok.mpr ?_, rfl⟩⟩⟩)⟩)⟩⟩
      split
      · exact min_le_right _ _
      · omega
    · refine Or.inr (bind_eq_error.mpr (Or.inr ⟨(), myAssert_eq_ok.mpr hterm,
        (if_neg hin).trans (bind_eq_error.mpr (Or.inr ⟨true, hmatch', ?_⟩))⟩))
      exact (if_pos rfl).trans (bind_eq_error.mpr (Or.inl herror))
end Raft

/-! ### A process that has saved nothing -/

/-- What is saved stays saved, and a handler that saves nothing leaves a new server as it is. -/
def SaveStep (r r' : Raft n) : Prop :=
  r'.persister.lastRaftState ≠ "" ∨
    (r'.persister.lastRaftState = r.persister.lastRaftState ∧
      (r = Raft.fresh r.persister → r' = Raft.fresh r'.persister))

section SaveStep

variable {r r' : Raft n}

theorem SaveStep.refl : SaveStep r r :=
  Or.inr ⟨rfl, id⟩

/-- A handler that runs only on a server that has saved something. -/
theorem SaveStep.of_saved (h : r.persister.lastRaftState ≠ "")
    (hlast : r'.persister.lastRaftState = r.persister.lastRaftState) : SaveStep r r' :=
  Or.inl (by rwa [hlast])

variable [Codec LogEntry] [NonemptyCodec (BoostPersistRaftNode n)]

theorem SaveStep.of_persistData {q : Raft n} (h : r'.persister.lastRaftState = q.persistData) :
    SaveStep r r' :=
  Or.inl (by rw [h]; exact NonemptyCodec.encode_ne_empty _)

theorem saveStep_doElection (r : Raft n) (me : Fin n) : SaveStep r (r.doElection me).1 := by
  rcases r.doElection_cases me with ⟨-, heq⟩ | ⟨-, -, heq⟩ | ⟨-, -, heq⟩ <;> rw [heq]
  · exact .refl
  · exact .of_persistData rfl
  · exact .of_persistData rfl

theorem saveStep_requestVote {args : RequestVoteArgs n} {reply : RequestVoteReply}
    (hr : r.requestVote args = .ok (r', reply)) : SaveStep r r' := by
  rcases Raft.requestVote_cases hr with ⟨-, rfl, -⟩ | ⟨-, rfl, -⟩ | ⟨-, -, -, rfl, -⟩ <;>
    exact .of_persistData rfl

theorem saveStep_sendRequestVote {reply : RequestVoteReply} {votedNum votedNum' : ℕ}
    (hr : r.sendRequestVote reply votedNum = .ok (r', votedNum')) : SaveStep r r' := by
  rcases Raft.sendRequestVote_cases hr with ⟨-, rfl, -⟩ | ⟨rfl, -⟩ | ⟨-, -, -, rfl, -⟩ |
    ⟨-, -, -, -, rfl, -⟩
  · exact .of_persistData rfl
  · exact .refl
  · exact .refl
  · exact .of_persistData rfl

theorem saveStep_start {me : Fin n} {command : String} {result : Option (ℕ × ℕ)}
    (hr : r.start me command = .ok (r', result)) : SaveStep r r' := by
  rcases Raft.start_cases hr with ⟨-, rfl, -⟩ | ⟨-, e, q, found, -, rfl, -, rfl, -⟩
  · exact .refl
  · exact .of_persistData rfl

theorem saveStep_appendEntries {args : AppendEntriesArgs n} {reply : AppendEntriesReply}
    (hr : r.appendEntries args = .ok (r', reply)) : SaveStep r r' := by
  rcases Raft.appendEntries_cases hr with ⟨-, rfl, -⟩ | ⟨-, -, rfl⟩ | ⟨-, -, -, -, q, -, -, rfl⟩
  · exact .refl
  · exact .of_persistData rfl
  · exact .of_persistData rfl

omit [Codec LogEntry] [NonemptyCodec (BoostPersistRaftNode n)] in
/-- Taking over a later term saves nothing, but only a former leader gets answers. -/
theorem saveStep_sendAppendEntries (h : r.persister.lastRaftState ≠ "") {server : Fin n}
    {args : AppendEntriesArgs n} {reply : AppendEntriesReply} {appendNums appendNums' : ℕ}
    (hr : r.sendAppendEntries server args reply appendNums = .ok (r', appendNums')) :
    SaveStep r r' := by
  rcases Raft.sendAppendEntries_cases hr with ⟨rfl, -⟩ | ⟨-, -, rfl, -⟩ |
    ⟨-, -, -, -, index, -, rfl⟩ | ⟨-, -, -, reached, -, -, ⟨rfl, -⟩ | ⟨-, -, -, rfl⟩⟩ <;>
    exact .of_saved h rfl

omit [Codec LogEntry] [NonemptyCodec (BoostPersistRaftNode n)] in
theorem saveStep_getApplyLogs {msgs : List ApplyMsg} (hr : r.getApplyLogs = .ok (r', msgs)) :
    SaveStep r r' := by
  obtain ⟨rfl, -⟩ := Raft.getApplyLogs_cases hr
  refine Or.inr ⟨rfl, fun hfresh ↦ ?_⟩
  rw [hfresh]
  rfl

theorem saveStep_snapshot {index : ℕ} {data : String} (hr : r.snapshot index data = .ok r') :
    SaveStep r r' := by
  rcases Raft.snapshot_cases hr with rfl | ⟨-, -, e, logs, q, -, -, rfl, rfl⟩
  · exact .refl
  · exact .of_persistData rfl

omit [Codec LogEntry] [NonemptyCodec (BoostPersistRaftNode n)] in
theorem saveStep_leaderSendSnapShot (r : Raft n) (me : Fin n) :
    SaveStep r (r.leaderSendSnapShot me).1 := by
  refine Or.inr ⟨rfl, fun hfresh ↦ ?_⟩
  rw [hfresh]
  rfl

theorem saveStep_leaderSendSnapShotReply (r : Raft n) (server : Fin n)
    (args : InstallSnapshotRequest n) (reply : InstallSnapshotResponse) :
    SaveStep r (r.leaderSendSnapShotReply server args reply) := by
  unfold Raft.leaderSendSnapShotReply
  split
  · exact .refl
  · rename_i hlead
    split
    · exact .of_persistData rfl
    · -- A new server is not a leader.
      refine Or.inr ⟨rfl, fun hfresh ↦ absurd ?_ hlead⟩
      rw [hfresh]
      exact Or.inl nofun

theorem saveStep_installSnapshot {args : InstallSnapshotRequest n}
    {reply : InstallSnapshotResponse} {msg : Option ApplyMsg}
    (hr : r.installSnapshot args = .ok (r', reply, msg)) : SaveStep r r' := by
  rcases Raft.installSnapshot_cases hr with ⟨-, rfl⟩ | ⟨p, hp, hr⟩
  · exact .refl
  · rcases hr with ⟨-, rfl⟩ | ⟨-, logs, q, -, rfl, rfl⟩
    · rcases hp with ⟨-, rfl⟩ | ⟨-, rfl⟩
      · exact .of_persistData rfl
      · refine Or.inr ⟨rfl, fun hfresh ↦ ?_⟩
        rw [hfresh]
        rfl
    · exact .of_persistData rfl

end SaveStep

/-- A server that has saved nothing is as new, and it has sent no append request. -/
structure UnsavedInv (s : Cluster n) : Prop where
  servers : ∀ i, (s.servers i).persister.lastRaftState = "" →
    s.servers i = Raft.fresh (s.servers i).persister
  callers : ∀ round ∈ s.heartbeats, (s.servers round.caller).persister.lastRaftState ≠ ""

/-- A process is replaced only when it has saved nothing. -/
def RestartsUnsaved (s : Cluster n) : Action n → Prop
  | .restart i => (s.servers i).persister.lastRaftState = ""
  | _ => True

instance : DecidableRel (RestartsUnsaved : Cluster n → Action n → Prop) := fun s a ↦
  match a with
  | .restart i => inferInstanceAs (Decidable ((s.servers i).persister.lastRaftState = ""))
  | .doElection _ | .requestVote _ _ | .sendRequestVote _ _ _ | .start _ _ | .doHeartBeat _
  | .appendEntries _ _ | .sendAppendEntries _ _ _ | .getApplyLogs _ | .applierPush _
  | .snapshot _ _ _ | .leaderSendSnapShot _ | .installSnapshot _ | .leaderSendSnapShotReply _ _
  | .pushMsgToKvServer _ _ => .isTrue trivial

section Step

variable {s s' : Cluster n}

namespace UnsavedInv

theorem initial : UnsavedInv (Cluster.initial : Cluster n) where
  servers := fun _ _ ↦ rfl
  callers := fun round hround ↦ by cases hround

/-- A step in which one server runs a handler. -/
theorem frame (h : UnsavedInv s) {i : Fin n} {r : Raft n} (hr : SaveStep (s.servers i) r)
    (hservers : s'.servers = (s.setServer i r).servers)
    (hcallers : ∀ round ∈ s'.heartbeats,
      (s.servers round.caller).persister.lastRaftState ≠ "") : UnsavedInv s' where
  servers := by
    intro j
    rw [hservers]
    by_cases hj : j = i
    · subst hj
      simp only [Cluster.setServer, Function.update_self]
      intro hnone
      rcases hr with hsaved | ⟨hlast, hfresh⟩
      · exact absurd hnone hsaved
      · exact hfresh (h.servers j (hlast ▸ hnone))
    · simpa only [Cluster.setServer, Function.update_of_ne hj] using h.servers j
  callers := by
    intro round hround
    have hold := hcallers round hround
    rw [hservers]
    by_cases hj : round.caller = i
    · subst hj
      simp only [Cluster.setServer, Function.update_self]
      rcases hr with hsaved | ⟨hlast, -⟩
      · exact hsaved
      · rwa [hlast]
    · simpa only [Cluster.setServer, Function.update_of_ne hj] using hold

theorem callers_same (h : UnsavedInv s) (hsent : SameRequests s s') :
    ∀ round ∈ s'.heartbeats, (s.servers round.caller).persister.lastRaftState ≠ "" := by
  intro round hround
  obtain ⟨old, hold, hcaller, -⟩ := hsent round hround
  exact hcaller ▸ h.callers old hold

variable [Codec LogEntry] [NonemptyCodec (BoostPersistRaftNode n)]

/-- What one step preserves. -/
theorem step (h : UnsavedInv s) {a : Action n} (ha : RestartsUnsaved s a)
    (hstep : s.step a = some s') : UnsavedInv s' := by
  cases Cluster.step_cases hstep with
  | exit i e _ => exact ⟨h.servers, h.callers⟩
  | doElection i r request hr =>
    have hsave := saveStep_doElection (s.servers i) i
    rw [hr] at hsave
    exact h.frame hsave rfl h.callers
  | requestVote k peer round r reply _ _ hr =>
    exact h.frame (saveStep_requestVote hr) rfl h.callers
  | sendRequestVote k peer reply round r votedNum _ _ _ hr =>
    exact h.frame (saveStep_sendRequestVote hr) rfl h.callers
  | start i command r result hr => exact h.frame (saveStep_start hr) rfl h.callers
  | doHeartBeat_idle i _ => exact h
  | doHeartBeat i sent hr =>
    refine ⟨h.servers, fun round hround ↦ ?_⟩
    rcases List.mem_append.mp hround with hold | hnew
    · exact h.callers round hold
    · -- The caller leads, and a new server does not.
      rw [List.mem_singleton.mp hnew]
      intro hnone
      rcases Raft.doHeartBeat_cases hr with ⟨-, hidle⟩ | ⟨hlead, -⟩
      · cases hidle
      · rw [h.servers i hnone] at hlead
        cases hlead
  | appendEntries k peer round args r reply hround _ hr =>
    exact h.frame (saveStep_appendEntries hr) rfl (h.callers_same (.of_set hround rfl rfl rfl))
  | sendAppendEntries k peer reply round args r appendNums hround _ _ _ hr =>
    have hsaved := h.callers round (List.mem_of_getElem? hround)
    exact h.frame (saveStep_sendAppendEntries hsaved hr) rfl
      (h.callers_same (.of_set hround rfl rfl rfl))
  | getApplyLogs i r msgs hr => exact h.frame (saveStep_getApplyLogs hr) rfl h.callers
  | applierPush i msg msgs _ => exact ⟨h.servers, h.callers⟩
  | snapshot i index data r hr => exact h.frame (saveStep_snapshot hr) rfl h.callers
  | leaderSendSnapShot k i peer r args _ hr =>
    have hsave := saveStep_leaderSendSnapShot (s.servers i) i
    rw [hr] at hsave
    exact h.frame hsave rfl h.callers
  | installSnapshot k call r reply msg _ hr =>
    exact h.frame (saveStep_installSnapshot hr) rfl h.callers
  | leaderSendSnapShotReply k reply call r _ _ _ hr =>
    cases hr
    exact h.frame (saveStep_leaderSendSnapShotReply _ _ _ _) rfl h.callers
  | pushMsgToKvServer i k msg _ => exact ⟨h.servers, h.callers⟩
  | restart i r data hr =>
    rw [Raft.restart_eq] at hr
    cases hr
    have hsave : SaveStep (s.servers i) (Raft.fresh (s.servers i).persister.restart.readSnapshot.2) :=
      Or.inr ⟨rfl, fun _ ↦ rfl⟩
    obtain ⟨hservers, hcallers⟩ :=
      @frame _ s (s.setServer i _) h i _ hsave rfl h.callers
    refine ⟨hservers, fun round hround ↦ ?_⟩
    obtain ⟨old, hold, rfl⟩ := List.mem_map.mp hround
    have hsaved := hcallers old hold
    split
    · exact hsaved
    · exact hsaved

end UnsavedInv

/-! ### Replacing a process by one like it -/

section Replace

variable {H : Set (Fin n → Peer (Fin n) LogEntry)} {i : Fin n} {r : Raft n}

theorem Cluster.view_replace (hpeer : r.peer = (s.servers i).peer) :
    (s.replace i r).view = s.view := by
  funext j
  by_cases hj : j = i
  · subst hj
    simpa [Cluster.view, Cluster.replace] using hpeer
  · simp [Cluster.view, Cluster.replace, hj]

/-- The calls of the old process return no more. -/
theorem ElectionInv.replace (h : ElectionInv H s) (hpeer : r.peer = (s.servers i).peer) :
    ElectionInv (insert (s.replace i r).view H) (s.replace i r) := by
  rw [Cluster.view_replace hpeer, Set.insert_eq_of_mem h.ballot.cur_mem]
  refine ⟨?_, fun k round hround ↦ ?_, fun k k' a b ha hb hcaller hterm ↦ ?_⟩
  · rw [Cluster.view_replace hpeer]
    exact h.ballot
  · simp only [Cluster.replace, List.getElem?_map, Option.map_eq_some_iff] at hround
    obtain ⟨old, hold, rfl⟩ := hround
    have hinv := h.rounds k old hold
    split
    · refine ⟨hinv.candidate, hinv.own_vote, hinv.granted, ?_⟩
      rcases hinv.count with ⟨hnot, Q, hQ, hcard, -⟩ | hwon
      · exact Or.inl ⟨hnot, Q, hQ, hcard, Finset.disjoint_empty_right Q⟩
      · exact Or.inr (lt_of_le_of_lt (Nat.add_le_add_left (Nat.zero_le _) _) hwon)
    · exact hinv
  · simp only [Cluster.replace, List.getElem?_map, Option.map_eq_some_iff] at ha hb
    obtain ⟨a, ha, rfl⟩ := ha
    obtain ⟨b, hb, rfl⟩ := hb
    refine h.distinct k k' a b ha hb ?_ ?_
    · split at hcaller <;> split at hcaller <;> exact hcaller
    · split at hterm <;> split at hterm <;> exact hterm

theorem IdentityInv.replace (h : IdentityInv H s) (hpeer : r.peer = (s.servers i).peer)
    (hlog : LogStep [] (s.servers i) r) :
    IdentityInv (insert (s.replace i r).view H) (s.replace i r) := by
  refine h.frame (h.election.replace hpeer) (fun j ↦ ⟨[], ?_, fun e he ↦ by cases he⟩)
    (h.requests_same fun round hround ↦ ?_)
  · by_cases hj : j = i
    · subst hj
      simpa [Cluster.replace] using hlog
    · simp only [Cluster.replace, Function.update_of_ne hj]
      exact LogStep.of_same (h.numbered j) rfl rfl
  · obtain ⟨old, hold, rfl⟩ := List.mem_map.mp hround
    exact ⟨old, hold, by split <;> rfl, by split <;> rfl⟩

end Replace

/-! ### The shape in every run -/

section Runs

variable [Codec LogEntry] [NonemptyCodec (BoostPersistRaftNode n)]

/-- The next process of a server that has saved nothing has the log of the old one, which is empty.
-/
theorem UnsavedInv.restart_same (h : UnsavedInv s) {i : Fin n} {r : Raft n} {data : String}
    (hnone : (s.servers i).persister.lastRaftState = "")
    (hr : (s.servers i).restart = .ok (r, data)) :
    r.peer = (s.servers i).peer ∧ LogStep [] (s.servers i) r := by
  have hfresh := h.servers i hnone
  rw [Raft.restart_eq] at hr
  cases hr
  refine ⟨by rw [hfresh]; rfl, LogStep.of_clear rfl ?_⟩
  rw [hfresh]
  exact le_refl 0

/-- Every run in which a process is replaced only when it has saved nothing. -/
theorem identityInv_unsaved (r : Run (raft n)) (hr : r.Obeys RestartsUnsaved) (k : ℕ) :
    IdentityInv (r.past Cluster.view k) (r.state k) ∧ UnsavedInv (r.state k) := by
  refine @Run.invariant_past _ _ _ (raft n) Cluster.view (fun H s ↦ IdentityInv H s ∧ UnsavedInv s)
    RestartsUnsaved ⟨IdentityInv.initial, UnsavedInv.initial⟩ ?_ r hr k
  rintro H s a s' ⟨hidentity, hunsaved⟩ ha hstep
  refine ⟨?_, hunsaved.step ha hstep⟩
  cases a with
  | restart i =>
    cases Cluster.step_cases hstep with
    | exit j e _ =>
      exact hidentity.frame_same (hidentity.election.frame (fun j ↦ Quiet.refl _) rfl)
        (hidentity.log_same rfl) (.of_eq rfl)
    | restart j r data hr =>
      obtain ⟨hpeer, hlog⟩ := hunsaved.restart_same ha hr
      exact hidentity.replace hpeer hlog
  | _ => exact hidentity.step (by exact trivial) hstep

/-- The numbers of the entries, the order of the indices, and what follows for the checks. -/
structure LogShape (r : Run (raft n)) : Prop where
  numbered : ∀ k i, ((r.state k).servers i).Numbered
  last_eq : ∀ k i, ((r.state k).servers i).getLastLogIndex =
    ((r.state k).servers i).lastSnapshotIncludeIndex + ((r.state k).servers i).logs.length
  last_le : ∀ i j k, j ≤ k →
    ((r.state j).servers i).getLastLogIndex ≤ ((r.state k).servers i).getLastLogIndex
  snapshot_le : ∀ k i,
    ((r.state k).servers i).lastSnapshotIncludeIndex ≤ ((r.state k).servers i).lastApplied
  applied_le : ∀ k i,
    ((r.state k).servers i).lastApplied ≤ ((r.state k).servers i).getLastLogIndex
  commit_le : ∀ k i,
    ((r.state k).servers i).commitIndex ≤ ((r.state k).servers i).getLastLogIndex
  /-- `getApplyLogs` fails no check, -/
  getApplyLogs : ∀ k i, ∃ q msgs, ((r.state k).servers i).getApplyLogs = .ok (q, msgs)
  /-- `Snapshot` fails none, -/
  snapshot : ∀ k i index data, ∃ q, ((r.state k).servers i).snapshot index data = .ok q
  /-- and `AppendEntries` fails none on a request that matches. -/
  appendEntries : ∀ k, ∀ round ∈ (r.state k).heartbeats, ∀ peer args,
    (peer, args) ∈ round.requests →
    ((r.state k).servers peer).matchLog args.prevLogIndex args.prevLogTerm = .ok true →
    ∃ q reply, ((r.state k).servers peer).appendEntries args = .ok (q, reply)

/-- The shape of the log. It holds in every run in which a process is replaced only when it has
saved nothing; what concerns one state holds in every run (`shapeInv_run`). -/
theorem logShape (r : Run (raft n)) (hr : r.Obeys RestartsUnsaved) : LogShape r where
  numbered := fun k i ↦ ((shapeInv_run r k).servers i).numbered
  last_eq := fun k i ↦ ((shapeInv_run r k).servers i).numbered.getLastLogIndex_eq
  last_le := fun i j k hjk ↦ r.le_between (fun s ↦ (s.servers i).getLastLogIndex) hjk
    fun l a _ _ ha ↦ (shapeInv_run r l).last_le_step (r.next l a ha) i fun heq ↦ by
      have hunsaved := hr l a ha
      rw [heq] at hunsaved
      rw [(identityInv_unsaved r hr l).2.servers i hunsaved]
      rfl
  snapshot_le := fun k i ↦ ((shapeInv_run r k).servers i).snapshot_le
  applied_le := fun k i ↦ ((shapeInv_run r k).servers i).applied_le
  commit_le := fun k i ↦ ((shapeInv_run r k).servers i).commit_le
  getApplyLogs := fun k i ↦ ((shapeInv_run r k).servers i).getApplyLogs_total
  snapshot := fun k i index data ↦ ((shapeInv_run r k).servers i).snapshot_total index data
  appendEntries := by
    intro k round hround peer args hmem hmatch
    have hidentity := (identityInv_unsaved r hr k).1
    have hrequest := hidentity.requests round hround peer args hmem
    rcases ((shapeInv_run r k).servers peer).appendEntries_total hrequest.numbered hmatch with
      hok | herror
    · exact hok
    · obtain ⟨old, log, hold, hlog, hindex, hterm, hcommand⟩ :=
        appendEntries_sameTermOtherCommand (hidentity.numbered peer) hrequest.numbered herror
      have hlogged : Logged (r.past Cluster.view k) old := by
        rcases hold with hold | hold
        · exact ⟨peer, (r.state k).view peer, hidentity.election.ballot.seen_self peer, hold⟩
        · exact hrequest.logged old hold
      exact absurd (congrArg LogEntry.command
        (hidentity.identity old log hlogged (hrequest.logged log hlog) hindex hterm)) hcommand

end Runs

end Step

/-! ### Two leaders of one term -/

section Examples

open scoped Archive

/-- Both servers of a cluster lose their files after server 0 has led term 1 and sent `x`; then
server 1 leads term 1, and appends `y`. -/
def forgottenVote : List (Action 2) :=
  [.doElection 0, .requestVote 0 1, .sendRequestVote 0 1 ⟨1, true, .normal⟩, .start 0 "x",
    .doHeartBeat 0, .restart 0, .restart 1,
    .doElection 1, .requestVote 1 0, .sendRequestVote 1 0 ⟨1, true, .normal⟩, .start 1 "y"]

def forgottenVoteRun : Run (raft 2) :=
  Run.ofActions (raft 2) forgottenVote (by decide +kernel)

/-- The last index of server 0 goes from 1 to 0, and when the old request reaches server 1 its
process ends at the check for entries of one index and one term. -/
theorem logShape_forgottenVote :
    ∃ r : Run (raft 2), ¬ LogShape r ∧
      ∃ k args, ((r.state k).servers 1).appendEntries args = .error .sameTermOtherCommand ∧
        ∃ round ∈ (r.state k).heartbeats, (1, args) ∈ round.requests := by
  refine ⟨forgottenVoteRun, fun hshape ↦ ?_, 11, ⟨1, 0, 0, 0, [⟨"x", 1, 1⟩], 0⟩, ?_, ?_⟩
  · have hfirst : ((forgottenVoteRun.state 4).servers 0).getLastLogIndex = 1 := by decide +kernel
    have hthen : ((forgottenVoteRun.state 6).servers 0).getLastLogIndex = 0 := by decide +kernel
    have hle := hshape.last_le 0 4 6 (by omega)
    omega
  · exact map_eq_error.mp (show Except.map (fun _ ↦ ()) _ = _ by decide +kernel)
  · decide +kernel

/-- Server 1 is restarted before it has saved anything, then an entry is replicated. -/
def earlyRestartRun : Run (raft 2) :=
  Run.ofActions (raft 2) (.restart 1 :: firstEntry) (by decide +kernel)

theorem logShape_earlyRestart :
    LogShape earlyRestartRun ∧ ((earlyRestartRun.state 9).servers 1).getLastLogIndex = 1 := by
  refine ⟨logShape earlyRestartRun ?_, by decide +kernel⟩
  rw [earlyRestartRun, Run.obeys_ofActions_iff]
  decide +kernel

end Examples

end Rsylar
