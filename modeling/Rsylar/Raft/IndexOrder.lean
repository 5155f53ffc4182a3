import Rsylar.Raft.Durability
import Rsylar.Raft.EntryIdentity

/-!
# The order of the indices

The snapshot, what is applied and what is committed stay within the log, and no handler moves the
last index, the snapshot or the applied index back (`IndexStep`). `Start` is the only handler that
can move the commit index back; for the others see `ForwardStep`. Nothing here depends on who leads:
`ShapeInv` holds in every state of every run, with restarts and snapshots (`shapeInv_run`).
-/

set_option autoImplicit false
set_option relaxedAutoImplicit false

namespace Rsylar

open TextArchive TransitionSystem

variable {n : ℕ}

/-- Numbered entries, and the indices of a server within its log. -/
structure Raft.Shape (r : Raft n) : Prop where
  numbered : r.Numbered
  snapshot_le : r.lastSnapshotIncludeIndex ≤ r.lastApplied
  applied_le : r.lastApplied ≤ r.getLastLogIndex
  commit_le : r.commitIndex ≤ r.getLastLogIndex
  snapshot_committed : r.lastSnapshotIncludeIndex ≤ r.commitIndex

/-! ### What a handler does to the indices -/

structure IndexStep (extra : List LogEntry) (r r' : Raft n) : Prop where
  log : LogStep extra r r'
  snapshot_le : r.lastSnapshotIncludeIndex ≤ r'.lastSnapshotIncludeIndex
  /-- A new snapshot has been applied. -/
  snapshot_new : r'.lastSnapshotIncludeIndex ≤ max r.lastSnapshotIncludeIndex r'.lastApplied
  applied_le : r.lastApplied ≤ r'.lastApplied
  /-- What is newly applied is committed. -/
  applied_new : r'.lastApplied ≤ max r.lastApplied r'.commitIndex
  /-- What is newly committed is in the log. -/
  commit_new : r'.commitIndex ≤ max r.commitIndex r'.getLastLogIndex
  /-- The snapshot stays committed. -/
  committed : r.lastSnapshotIncludeIndex ≤ r.commitIndex →
    r'.lastSnapshotIncludeIndex ≤ r'.commitIndex

/-- A handler that moves no index back. -/
structure ForwardStep (extra : List LogEntry) (r r' : Raft n) : Prop
    extends IndexStep extra r r' where
  commit_le : r.commitIndex ≤ r'.commitIndex

section Handlers

variable {r r' : Raft n} {extra : List LogEntry}

theorem IndexStep.shape (h : IndexStep extra r r') (hr : r.Shape) : r'.Shape where
  numbered := h.log.numbered
  snapshot_le := h.snapshot_new.trans
    (max_le (hr.snapshot_le.trans h.applied_le) (le_refl _))
  applied_le := by
    have hlast := h.log.last_le
    have hcommit := h.commit_new.trans (max_le (hr.commit_le.trans hlast) (le_refl _))
    exact h.applied_new.trans (max_le (hr.applied_le.trans hlast) hcommit)
  commit_le := h.commit_new.trans (max_le (hr.commit_le.trans h.log.last_le) (le_refl _))
  snapshot_committed := h.committed hr.snapshot_committed

theorem IndexStep.of_kept (hlog : LogStep extra r r')
    (hsnapshot : r'.lastSnapshotIncludeIndex = r.lastSnapshotIncludeIndex)
    (happlied : r'.lastApplied = r.lastApplied)
    (hcommit : r'.commitIndex ≤ max r.commitIndex r'.getLastLogIndex)
    (hcommitted : min r.lastSnapshotIncludeIndex r.commitIndex ≤ r'.commitIndex) :
    IndexStep extra r r' where
  log := hlog
  snapshot_le := hsnapshot.ge
  snapshot_new := hsnapshot.le.trans (le_max_left _ _)
  applied_le := happlied.ge
  applied_new := happlied.le.trans (le_max_left _ _)
  commit_new := hcommit
  committed := fun hle ↦ by
    rw [hsnapshot]
    rwa [min_eq_left hle] at hcommitted

/-- A handler that leaves the indices alone. -/
theorem ForwardStep.of_same (hlog : LogStep extra r r')
    (hsnapshot : r'.lastSnapshotIncludeIndex = r.lastSnapshotIncludeIndex)
    (happlied : r'.lastApplied = r.lastApplied) (hcommit : r'.commitIndex = r.commitIndex) :
    ForwardStep extra r r' where
  toIndexStep := .of_kept hlog hsnapshot happlied (hcommit.le.trans (le_max_left _ _))
    ((min_le_right _ _).trans hcommit.ge)
  commit_le := hcommit.ge

theorem ForwardStep.refl (h : r.Numbered) : ForwardStep extra r r :=
  .of_same (LogStep.of_same h rfl rfl) rfl rfl rfl

theorem forwardStep_sendAppendEntries (h : r.Numbered) {server : Fin n}
    {args : AppendEntriesArgs n} {reply : AppendEntriesReply} {appendNums appendNums' : ℕ}
    (hr : r.sendAppendEntries server args reply appendNums = .ok (r', appendNums')) :
    ForwardStep [] r r' := by
  have hlog := logStep_sendAppendEntries h hr
  rcases Raft.sendAppendEntries_cases hr with ⟨rfl, -⟩ | ⟨-, -, rfl, -⟩ |
    ⟨-, -, -, -, index, -, rfl⟩ | ⟨-, -, -, reached, hreached, hle, ⟨rfl, -⟩ | ⟨-, -, -, rfl⟩⟩
  · exact .of_same hlog rfl rfl rfl
  · exact .of_same hlog rfl rfl rfl
  · exact .of_same hlog rfl rfl rfl
  · exact .of_same hlog rfl rfl rfl
  · -- The end of the request is committed, and the leader's log reaches as far.
    have hend : args.prevLogIndex + args.entries.length ≤ r.getLastLogIndex :=
      (le_max_right _ _).trans (hreached.ge.trans hle)
    exact ⟨.of_kept hlog rfl rfl (max_le_max_left _ hend)
      ((min_le_right _ _).trans (le_max_left _ _)), le_max_left _ _⟩

theorem forwardStep_getApplyLogs (h : r.Numbered) {msgs : List ApplyMsg}
    (hr : r.getApplyLogs = .ok (r', msgs)) : ForwardStep [] r r' := by
  have hlog := logStep_getApplyLogs h hr
  obtain ⟨rfl, -⟩ := Raft.getApplyLogs_cases hr
  exact ⟨⟨hlog, le_refl _, le_max_left _ _, le_max_left _ _, le_refl _, le_max_left _ _, id⟩,
    le_refl _⟩

variable [Codec LogEntry] [Codec (BoostPersistRaftNode n)]

theorem forwardStep_doElection (h : r.Numbered) (me : Fin n) :
    ForwardStep [] r (r.doElection me).1 := by
  have hlog := logStep_doElection h me
  rcases r.doElection_cases me with ⟨-, heq⟩ | ⟨-, -, heq⟩ | ⟨-, -, heq⟩ <;> rw [heq] at hlog ⊢ <;>
    exact .of_same hlog rfl rfl rfl

theorem forwardStep_requestVote (h : r.Numbered) {args : RequestVoteArgs n}
    {reply : RequestVoteReply} (hr : r.requestVote args = .ok (r', reply)) :
    ForwardStep [] r r' := by
  have hlog := logStep_requestVote h hr
  rcases Raft.requestVote_cases hr with ⟨-, rfl, -⟩ | ⟨-, rfl, -⟩ | ⟨-, -, -, rfl, -⟩
  · exact .of_same hlog rfl rfl rfl
  · exact .of_same hlog (by simp) (by simp) (by simp)
  · exact .of_same hlog (r.enterTerm_lastSnapshotIncludeIndex _) (r.enterTerm_lastApplied _)
      (r.enterTerm_commitIndex _)

theorem forwardStep_sendRequestVote (h : r.Numbered) {reply : RequestVoteReply}
    {votedNum votedNum' : ℕ} (hr : r.sendRequestVote reply votedNum = .ok (r', votedNum')) :
    ForwardStep [] r r' := by
  have hlog := logStep_sendRequestVote h hr
  rcases Raft.sendRequestVote_cases hr with ⟨-, rfl, -⟩ | ⟨rfl, -⟩ | ⟨-, -, -, rfl, -⟩ |
    ⟨-, -, -, -, rfl, -⟩ <;> exact .of_same hlog rfl rfl rfl

/-- The new entry of a leader, and a commit index that is recomputed. -/
theorem indexStep_start (h : r.Shape) {me : Fin n} {command : String}
    {result : Option (ℕ × ℕ)} (hr : r.start me command = .ok (r', result)) :
    ∃ extra, IndexStep extra r r' := by
  rcases Raft.start_cases hr with ⟨-, rfl, -⟩ | ⟨-, e, q, found, heq, rfl, hfound, rfl, -⟩
  · exact ⟨[], (ForwardStep.refl h.numbered).toIndexStep⟩
  · have hindex : e.logIndex = r.lastSnapshotIncludeIndex + r.logs.length + 1 := by
      rw [heq, ← h.numbered.getLastLogIndex_eq]
    refine ⟨[e], .of_kept (LogStep.of_write h.numbered (le_refl _) (numberedFrom_singleton hindex)
      (by simp [writeAt]) rfl) rfl rfl (le_trans ?_ (le_max_right _ _))
      ((min_le_left _ _).trans ?_)⟩
    · cases found with
      | none =>
        have hnumbered : ({ r with logs := r.logs ++ [e] } : Raft n).Numbered :=
          NumberedFrom.append h.numbered (numberedFrom_singleton hindex)
        exact hnumbered.getLastLogIndex_eq.symm ▸ Nat.le_add_right _ _
      | some index =>
        obtain ⟨-, -, hterm⟩ := Raft.committableUpTo_some hfound
        rcases Raft.getLogTermFromLogIndex_eq_ok.mp hterm with ⟨-, hle, -⟩ | ⟨a, ha, -⟩
        · exact hle
        · exact (Raft.entryAt_eq_ok.mp ha).2.1
    · cases found with
      | none => exact le_refl _
      | some index => exact (Raft.committableUpTo_some hfound).1.le

theorem forwardStep_appendEntries (h : r.Shape) {args : AppendEntriesArgs n}
    {reply : AppendEntriesReply} (hentries : NumberedFrom args.prevLogIndex args.entries)
    (hr : r.appendEntries args = .ok (r', reply)) : ForwardStep args.entries r r' := by
  have hlog := logStep_appendEntries h.numbered hentries hr
  rcases Raft.appendEntries_cases hr with ⟨-, rfl, -⟩ | ⟨-, -, rfl⟩ |
    ⟨-, -, -, hprev, q, hq, -, rfl⟩
  · exact .of_same hlog rfl rfl rfl
  · exact .of_same hlog (by simp) (by simp) (by simp)
  · obtain ⟨rfl, -, -⟩ := appendEntries_logs h.numbered hentries hprev hq
    have hlast := hlog.last_le
    have hsnapshot := r.enterTerm_lastSnapshotIncludeIndex args.term
    have happlied := r.enterTerm_lastApplied args.term
    have hcommit := r.enterTerm_commitIndex args.term
    -- The new commit index is not below the old one, which is within the log.
    have hcommitLe : r.commitIndex ≤
        if (r.enterTerm args.term).commitIndex < args.leaderCommit then
          min args.leaderCommit (Raft.getLastLogIndex { (r.enterTerm args.term).asFollower with
            logs := writeAt r.logs (args.prevLogIndex - r.lastSnapshotIncludeIndex) args.entries })
        else (r.enterTerm args.term).commitIndex := by
      split
      · rename_i hlt
        exact le_min (hcommit.ge.trans hlt.le) (h.commit_le.trans hlast)
      · exact hcommit.ge
    refine ⟨.of_kept hlog hsnapshot happlied ?_ ((min_le_right _ _).trans hcommitLe), hcommitLe⟩
    show ite _ _ _ ≤ _
    split
    · exact (min_le_right _ _).trans (le_max_right _ _)
    · exact (hcommit.le).trans (le_max_left _ _)

theorem forwardStep_snapshot (h : r.Numbered) {index : ℕ} {data : String}
    (hr : r.snapshot index data = .ok r') : ForwardStep [] r r' := by
  have hlog := logStep_snapshot h hr
  rcases Raft.snapshot_cases hr with rfl | ⟨hlt, hle, e, logs, q, -, -, rfl, rfl⟩
  · exact .refl h
  · refine ⟨⟨hlog, hlt.le, ?_, le_max_left _ _, ?_, ?_, fun _ ↦ le_max_right _ _⟩,
      le_max_left _ _⟩
    · exact (le_max_right r.lastApplied index).trans (le_max_right _ _)
    · exact max_le_max_left _ (le_max_right _ _)
    · exact (max_le (le_refl _) hle).trans (le_max_left _ _)

theorem forwardStep_leaderSendSnapShotReply (h : r.Numbered) (server : Fin n)
    (args : InstallSnapshotRequest n) (reply : InstallSnapshotResponse) :
    ForwardStep [] r (r.leaderSendSnapShotReply server args reply) := by
  have hlog := logStep_leaderSendSnapShotReply h server args reply
  rcases r.leaderSendSnapShotReply_cases server args reply with heq | ⟨-, heq⟩ | ⟨-, -, -, heq⟩ <;>
    rw [heq] at hlog ⊢ <;> exact .of_same hlog rfl rfl rfl

theorem forwardStep_installSnapshot (h : r.Numbered) {args : InstallSnapshotRequest n}
    {reply : InstallSnapshotResponse} {msg : Option ApplyMsg}
    (hr : r.installSnapshot args = .ok (r', reply, msg)) : ForwardStep [] r r' := by
  have hlog := logStep_installSnapshot h hr
  rcases Raft.installSnapshot_cases hr with ⟨-, rfl⟩ | ⟨p, hp, hr⟩
  · exact .refl h
  · have hsame : p.lastSnapshotIncludeIndex = r.lastSnapshotIncludeIndex ∧
        p.lastApplied = r.lastApplied ∧ p.commitIndex = r.commitIndex := by
      rcases hp with ⟨-, rfl⟩ | ⟨-, rfl⟩
      · exact ⟨rfl, rfl, rfl⟩
      · exact ⟨rfl, rfl, rfl⟩
    obtain ⟨hsnapshot, happlied, hcommit⟩ := hsame
    rcases hr with ⟨-, rfl⟩ | ⟨hlt, logs, q, -, rfl, rfl⟩
    · exact .of_same hlog hsnapshot happlied hcommit
    · have hlast := hlog.numbered.getLastLogIndex_eq
      refine ⟨⟨hlog, hlt.le, (le_max_right p.lastApplied _).trans (le_max_right _ _),
        happlied.ge.trans (le_max_left _ _), ?_, ?_, fun _ ↦ le_max_right _ _⟩,
        hcommit.ge.trans (le_max_left _ _)⟩
      · exact max_le_max happlied.le (le_max_right _ _)
      · exact max_le_max hcommit.le (hlast.symm ▸ Nat.le_add_right _ _)

end Handlers

/-! ### The order in every run -/

structure ShapeInv (s : Cluster n) : Prop where
  servers : ∀ i, (s.servers i).Shape
  requests : ∀ round ∈ s.heartbeats, ∀ peer args, (peer, args) ∈ round.requests →
    peer ≠ round.caller ∧ NumberedFrom args.prevLogIndex args.entries
  /-- A snapshot that is still to be answered is not ahead of its leader's. -/
  calls : ∀ call ∈ s.snapshotCalls, call.pending = true →
    call.args.lastSnapshotIncludeIndex ≤ (s.servers call.caller).lastSnapshotIncludeIndex

section Step

variable [Codec LogEntry] [Codec (BoostPersistRaftNode n)] {s s' : Cluster n}

namespace ShapeInv

omit [Codec LogEntry] [Codec (BoostPersistRaftNode n)] in
theorem initial : ShapeInv (Cluster.initial : Cluster n) where
  servers := fun i ↦ ⟨NumberedFrom.nil, le_refl 0, le_refl 0, le_refl 0, le_refl 0⟩
  requests := fun round hround ↦ by cases hround
  calls := fun call hcall ↦ by cases hcall

omit [Codec LogEntry] [Codec (BoostPersistRaftNode n)] in
theorem forward_setServer (h : ShapeInv s) {i : Fin n} {r : Raft n} {extra : List LogEntry}
    (hr : ForwardStep extra (s.servers i) r) (j : Fin n) :
    ∃ extra, ForwardStep extra (s.servers j) ((s.setServer i r).servers j) := by
  by_cases hj : j = i
  · subst hj
    exact ⟨extra, by simpa [Cluster.setServer] using hr⟩
  · refine ⟨[], ?_⟩
    simp only [Cluster.setServer, Function.update_of_ne hj]
    exact .refl (h.servers j).numbered

/-- What one step does to the indices of a server whose process it does not replace. -/
theorem index_step (h : ShapeInv s) {a : Action n} (hstep : s.step a = some s') (j : Fin n)
    (ha : a ≠ .restart j) :
    (∃ extra, ForwardStep extra (s.servers j) (s'.servers j)) ∨
      ∃ command r result, a = .start j command ∧ (s.servers j).start j command = .ok (r, result) ∧
        s'.servers j = r := by
  have hnum := fun i ↦ (h.servers i).numbered
  cases Cluster.step_cases hstep with
  | exit i e _ => exact .inl ⟨[], .refl (hnum j)⟩
  | doElection i r request hr =>
    have hforward := forwardStep_doElection (hnum i) i
    rw [hr] at hforward
    exact .inl (h.forward_setServer hforward j)
  | requestVote k peer round r reply _ _ hr =>
    exact .inl (h.forward_setServer (forwardStep_requestVote (hnum peer) hr) j)
  | sendRequestVote k peer reply round r votedNum _ _ _ hr =>
    exact .inl (h.forward_setServer (forwardStep_sendRequestVote (hnum _) hr) j)
  | start i command r result hr =>
    by_cases hj : j = i
    · subst hj
      exact .inr ⟨command, r, result, rfl, hr, by simp [Cluster.setServer]⟩
    · refine .inl ⟨[], ?_⟩
      simp only [Cluster.setServer, Function.update_of_ne hj]
      exact .refl (hnum j)
  | doHeartBeat_idle i _ => exact .inl ⟨[], .refl (hnum j)⟩
  | doHeartBeat i sent _ => exact .inl ⟨[], .refl (hnum j)⟩
  | appendEntries k peer round args r reply hround hargs hr =>
    obtain ⟨-, hentries⟩ := h.requests round (List.mem_of_getElem? hround) peer args
      (mem_of_lookup hargs)
    exact .inl (h.forward_setServer (forwardStep_appendEntries (h.servers peer) hentries hr) j)
  | sendAppendEntries k peer reply round args r appendNums _ _ _ _ hr =>
    exact .inl (h.forward_setServer (forwardStep_sendAppendEntries (hnum _) hr) j)
  | getApplyLogs i r msgs hr =>
    exact .inl (h.forward_setServer (forwardStep_getApplyLogs (hnum i) hr) j)
  | applierPush i msg msgs _ => exact .inl ⟨[], .refl (hnum j)⟩
  | snapshot i index data r hr =>
    exact .inl (h.forward_setServer (forwardStep_snapshot (hnum i) hr) j)
  | leaderSendSnapShot k i peer r args _ hr =>
    have hforward : ForwardStep [] (s.servers i) r := by
      cases hr
      exact .of_same (LogStep.of_same (hnum i) rfl rfl) rfl rfl rfl
    exact .inl (h.forward_setServer hforward j)
  | installSnapshot k call r reply msg _ hr =>
    exact .inl (h.forward_setServer (forwardStep_installSnapshot (hnum _) hr) j)
  | leaderSendSnapShotReply k reply call r _ _ _ hr =>
    cases hr
    exact .inl (h.forward_setServer (forwardStep_leaderSendSnapShotReply (hnum _) _ _ _) j)
  | pushMsgToKvServer i k msg _ => exact .inl ⟨[], .refl (hnum j)⟩
  | restart i r data _ =>
    have hj : j ≠ i := fun hj ↦ ha (hj ▸ rfl)
    refine .inl ⟨[], ?_⟩
    simp only [Cluster.replace, Function.update_of_ne hj]
    exact .refl (hnum j)

/-- The last index of a server does not go back, unless a process with a log is replaced. -/
theorem last_le_step (h : ShapeInv s) {a : Action n} (hstep : s.step a = some s') (i : Fin n)
    (ha : a = .restart i → (s.servers i).getLastLogIndex = 0) :
    (s.servers i).getLastLogIndex ≤ (s'.servers i).getLastLogIndex := by
  by_cases hrestart : a = .restart i
  · rw [ha hrestart]
    exact Nat.zero_le _
  · rcases h.index_step hstep i hrestart with ⟨extra, hforward⟩ | ⟨command, r, result, -, hr, heq⟩
    · exact hforward.log.last_le
    · obtain ⟨extra, hindex⟩ := indexStep_start (h.servers i) hr
      exact heq ▸ hindex.log.last_le

theorem snapshot_le_step (h : ShapeInv s) {a : Action n} (hstep : s.step a = some s') (i : Fin n)
    (ha : a ≠ .restart i) :
    (s.servers i).lastSnapshotIncludeIndex ≤ (s'.servers i).lastSnapshotIncludeIndex := by
  rcases h.index_step hstep i ha with ⟨extra, hforward⟩ | ⟨command, r, result, -, hr, heq⟩
  · exact hforward.snapshot_le
  · obtain ⟨extra, hindex⟩ := indexStep_start (h.servers i) hr
    exact heq ▸ hindex.snapshot_le

theorem calls_step (h : ShapeInv s) {a : Action n} (hstep : s.step a = some s') :
    ∀ call ∈ s'.snapshotCalls, call.pending = true →
      call.args.lastSnapshotIncludeIndex ≤ (s'.servers call.caller).lastSnapshotIncludeIndex := by
  have hsnapshot := h.snapshot_le_step hstep
  cases Cluster.step_cases hstep with
  | leaderSendSnapShot k i peer r args _ hr =>
    intro call hcall hpending
    rcases List.mem_append.mp hcall with hold | hnew
    · exact (h.calls call hold hpending).trans (hsnapshot _ fun heq ↦ by cases heq)
    · rw [List.mem_singleton.mp hnew]
      cases hr
      simp only [Cluster.setServer, Function.update_self]
      exact le_refl _
  | installSnapshot k call r reply msg hcall _ =>
    intro c hc hpending
    rcases List.mem_or_eq_of_mem_set hc with hc | rfl
    · exact (h.calls c hc hpending).trans (hsnapshot _ fun heq ↦ by cases heq)
    · exact (h.calls call (List.mem_of_getElem? hcall) hpending).trans
        (hsnapshot _ fun heq ↦ by cases heq)
  | leaderSendSnapShotReply k reply call r hcall _ _ _ =>
    intro c hc hpending
    rcases List.mem_or_eq_of_mem_set hc with hc | rfl
    · exact (h.calls c hc hpending).trans (hsnapshot _ fun heq ↦ by cases heq)
    · cases hpending
  | restart i r data _ =>
    intro c hc hpending
    obtain ⟨call, hcall, rfl⟩ := List.mem_map.mp hc
    split at hpending
    · cases hpending
    · rename_i hne
      rw [if_neg hne]
      exact (h.calls call hcall hpending).trans (hsnapshot _ fun heq ↦ hne (by cases heq; rfl))
  | exit i e _ => exact h.calls
  | doHeartBeat_idle i _ => exact h.calls
  | doHeartBeat i sent _ => exact h.calls
  | applierPush i msg msgs _ => exact h.calls
  | pushMsgToKvServer i k msg _ => exact h.calls
  | _ =>
    exact fun call hcall hpending ↦
      (h.calls call hcall hpending).trans (hsnapshot _ fun heq ↦ by cases heq)

/-- What one step preserves. The next process on the files of a server has an empty log. -/
theorem step (h : ShapeInv s) {a : Action n} (hstep : s.step a = some s') : ShapeInv s' where
  calls := h.calls_step hstep
  servers := by
    intro j
    by_cases ha : a = .restart j
    · subst ha
      cases Cluster.step_cases hstep with
      | exit i e _ => exact h.servers j
      | restart i r data hr =>
        rw [Raft.restart_eq] at hr
        cases hr
        simp only [Cluster.replace, Function.update_self]
        exact ⟨NumberedFrom.nil, le_refl 0, le_refl 0, le_refl 0, le_refl 0⟩
    · rcases h.index_step hstep j ha with ⟨extra, hforward⟩ | ⟨command, r, result, -, hr, heq⟩
      · exact hforward.shape (h.servers j)
      · obtain ⟨extra, hindex⟩ := indexStep_start (h.servers j) hr
        rw [heq]
        exact hindex.shape (h.servers j)
  requests := by
    have hsame : SameRequests s s' → ∀ round ∈ s'.heartbeats, ∀ peer args,
        (peer, args) ∈ round.requests →
        peer ≠ round.caller ∧ NumberedFrom args.prevLogIndex args.entries := by
      intro hsent round hround peer args hmem
      obtain ⟨old, hold, hcaller, hrequests⟩ := hsent round hround
      exact hcaller ▸ h.requests old hold peer args (hrequests ▸ hmem)
    cases Cluster.step_cases hstep with
    | doHeartBeat i sent hr =>
      intro round hround peer args hmem
      rcases List.mem_append.mp hround with hold | hnew
      · exact h.requests round hold peer args hmem
      · rw [List.mem_singleton.mp hnew] at hmem
        rw [List.mem_singleton.mp hnew]
        exact ⟨(heartBeatTo_of_begin hr hmem).2.1, numbered_doHeartBeat (h.servers i).numbered hr hmem⟩
    | appendEntries k peer round args r reply hround _ _ => exact hsame (.of_set hround rfl rfl rfl)
    | sendAppendEntries k peer reply round args r appendNums hround _ _ _ _ =>
      exact hsame (.of_set hround rfl rfl rfl)
    | restart i r data _ =>
      intro round hround peer args hmem
      obtain ⟨old, hold, rfl⟩ := List.mem_map.mp hround
      have hinv := h.requests old hold peer args (by split at hmem <;> exact hmem)
      split
      · exact hinv
      · exact hinv
    | _ => exact hsame (.of_eq rfl)

end ShapeInv

theorem shapeInv_run (r : Run (raft n)) (k : ℕ) : ShapeInv (r.state k) :=
  @Run.invariant _ _ (raft n) ShapeInv (fun _ _ ↦ True) ShapeInv.initial
    (fun _ _ _ h _ hstep ↦ h.step hstep) r (fun _ _ _ ↦ trivial) k

end Step

end Rsylar
