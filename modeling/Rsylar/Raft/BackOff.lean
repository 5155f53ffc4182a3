import Rsylar.Raft.StaleRequest

/-!
# Backing off

A leader and a peer exchange heartbeats until the leader has found where the two logs agree: it
sends what follows `nextIndex`, the peer refuses with an earlier index, and the leader starts again
from there. `Raft.BacksOff` says that every refusal lowers `nextIndex` and that the exchange ends,
with an accepted request that reaches the end of the leader's log or with a `nextIndex` for which
the leader sends its snapshot. That is so from every `nextIndex` behind the snapshot of the peer
(`Raft.backsOff`), and a refusal does not go back to that snapshot.
-/

set_option autoImplicit false
set_option relaxedAutoImplicit false

namespace Rsylar

open TextArchive

variable {n : ℕ}

namespace Raft

section Leader

variable {r : Raft n} {me server : Fin n}

/-- A leader finds what it sends to a peer whose next index is in its log or right behind it. -/
theorem Numbered.getPrevLogInfo_total (h : r.Numbered)
    (hlt : r.lastSnapshotIncludeIndex < r.nextIndex server)
    (hle : r.nextIndex server ≤ r.getLastLogIndex + 1) :
    ∃ term, r.getPrevLogInfo server = .ok (r.nextIndex server - 1, term) := by
  unfold getPrevLogInfo
  split
  · rename_i hfirst
    rw [hfirst]
    exact ⟨r.lastSnapshotIncludeTerm, rfl⟩
  · obtain ⟨e, he, -⟩ :=
      @Numbered.entryAt_of_range _ _ h (r.nextIndex server - 1) (by omega) (by omega)
    exact ⟨e.logTerm, bind_eq_ok.mpr ⟨e, he, rfl⟩⟩

theorem Numbered.entriesAfter_total (h : r.Numbered) {index : ℕ}
    (hle : r.lastSnapshotIncludeIndex ≤ index) (hlast : index ≤ r.getLastLogIndex) :
    ∃ entries, r.entriesAfter index = .ok entries ∧
      index + entries.length = r.getLastLogIndex := by
  have hend := h.getLastLogIndex_eq
  unfold entriesAfter
  split
  · refine ⟨_, bind_eq_ok.mpr ⟨_, getSlicesIndexFromLogIndex_eq_ok.mpr
      ⟨by omega, hlast, rfl⟩, rfl⟩, ?_⟩
    rw [List.length_drop]
    omega
  · exact ⟨r.logs, rfl, by omega⟩

/-- No check of the heartbeat fails for such a peer. -/
theorem Numbered.heartBeatTo_total (h : r.Numbered) (hone : 1 ≤ r.nextIndex server)
    (hle : r.nextIndex server ≤ r.getLastLogIndex + 1) :
    (r.nextIndex server ≤ r.lastSnapshotIncludeIndex ∧ r.heartBeatTo me server = .ok none) ∨
      (r.lastSnapshotIncludeIndex < r.nextIndex server ∧
        ∃ args, r.heartBeatTo me server = .ok (some args)) := by
  unfold heartBeatTo
  rcases Nat.lt_or_ge r.lastSnapshotIncludeIndex (r.nextIndex server) with hlt | hcovered
  · obtain ⟨term, hprev⟩ := h.getPrevLogInfo_total hlt hle
    obtain ⟨entries, hentries, hend⟩ :=
      @Numbered.entriesAfter_total _ _ h (r.nextIndex server - 1) (by omega) (by omega)
    let args : AppendEntriesArgs n :=
      { term := r.currentTerm
        leaderId := me
        prevLogIndex := r.nextIndex server - 1
        prevLogTerm := term
        entries := entries
        leaderCommit := r.commitIndex }
    refine Or.inr ⟨hlt, args, bind_eq_ok.mpr ⟨(), myAssert_eq_ok.mpr hone, ?_⟩⟩
    rw [if_neg (Nat.not_le.mpr hlt)]
    exact bind_eq_ok.mpr ⟨_, hprev, bind_eq_ok.mpr
      ⟨entries, hentries, bind_eq_ok.mpr ⟨(), myAssert_eq_ok.mpr hend, rfl⟩⟩⟩
  · refine Or.inl ⟨hcovered, bind_eq_ok.mpr ⟨(), myAssert_eq_ok.mpr hone, ?_⟩⟩
    rw [if_pos hcovered]
    rfl

end Leader

/-! ### The exchange -/

section Exchange

variable [Codec LogEntry] [Codec (BoostPersistRaftNode n)]

/-- Heartbeats of `ℓ` to the server, which is `f`: every refusal lowers the next index, until a
request is accepted and the server is known to hold the whole log, or the snapshot is to be sent. -/
inductive BacksOff (me server : Fin n) : Raft n → Raft n → Prop
  | snapshot {ℓ f : Raft n} (hsend : ℓ.heartBeatTo me server = .ok none) :
      BacksOff me server ℓ f
  | success {ℓ f f' : Raft n} {args : AppendEntriesArgs n} {reply : AppendEntriesReply}
      (hsend : ℓ.heartBeatTo me server = .ok (some args))
      (hreply : f.appendEntries args = .ok (f', reply)) (hsuccess : reply.success = true)
      (hhandle : ∀ appendNums, ∃ ℓ' appendNums',
        ℓ.sendAppendEntries server args reply appendNums = .ok (ℓ', appendNums') ∧
          ℓ'.matchIndex server = ℓ.getLastLogIndex) : BacksOff me server ℓ f
  | reject {ℓ ℓ' f f' : Raft n} {args : AppendEntriesArgs n} {reply : AppendEntriesReply}
      (hsend : ℓ.heartBeatTo me server = .ok (some args))
      (hreply : f.appendEntries args = .ok (f', reply)) (hfail : reply.success = false)
      (hhandle : ∀ appendNums,
        ℓ.sendAppendEntries server args reply appendNums = .ok (ℓ', appendNums))
      (hlower : ℓ'.nextIndex server < ℓ.nextIndex server)
      (hrest : BacksOff me server ℓ' f') : BacksOff me server ℓ f

omit [Codec LogEntry] [Codec (BoostPersistRaftNode n)] in
/-- A leader and a peer in a term that is not over, whose logs agree at the snapshot of the peer. -/
structure Exchange (ℓ f : Raft n) (server : Fin n) : Prop where
  leads : ℓ.status = .leader
  leader : ℓ.Numbered
  leaderCommit : ℓ.commitIndex ≤ ℓ.getLastLogIndex
  matched : ℓ.matchIndex server ≤ ℓ.getLastLogIndex
  next_one : 1 ≤ ℓ.nextIndex server
  next_le : ℓ.nextIndex server ≤ ℓ.getLastLogIndex + 1
  follower : f.Numbered
  followerCommit : f.commitIndex ≤ f.getLastLogIndex
  term : f.currentTerm ≤ ℓ.currentTerm
  /-- the term at the snapshot of the peer, if the leader has one there -/
  agree : ∀ term, ℓ.getLogTermFromLogIndex f.lastSnapshotIncludeIndex = .ok term →
    term = f.lastSnapshotIncludeTerm
  identity : f.AgreesWith ℓ.logs

variable {ℓ f : Raft n} {me server : Fin n} {args : AppendEntriesArgs n}

omit [Codec LogEntry] [Codec (BoostPersistRaftNode n)] in
/-- A refusal moves the next index to the one of the answer. -/
theorem sendAppendEntries_refused {update : ℕ} (hleads : ℓ.status = .leader) (appendNums : ℕ) :
    ℓ.sendAppendEntries server args
        { term := ℓ.currentTerm
          success := false
          updateNextIndex := some update
          appState := .appNormal } appendNums =
      .ok ({ ℓ with nextIndex := Function.update ℓ.nextIndex server update }, appendNums) := by
  unfold sendAppendEntries
  rw [if_neg (fun h ↦ by cases h), if_neg (Nat.lt_irrefl _), if_neg (Nat.lt_irrefl _),
    if_neg (not_not.mpr hleads)]
  exact bind_eq_ok.mpr ⟨(), myAssert_eq_ok.mpr rfl, rfl⟩

omit [Codec LogEntry] [Codec (BoostPersistRaftNode n)] in
/-- An accepted request that reaches the end of the log. -/
theorem sendAppendEntries_accepted (hleads : ℓ.status = .leader)
    (hcommit : ℓ.commitIndex ≤ ℓ.getLastLogIndex)
    (hmatched : ℓ.matchIndex server ≤ ℓ.getLastLogIndex)
    (hend : args.prevLogIndex + args.entries.length = ℓ.getLastLogIndex) (appendNums : ℕ) :
    ∃ ℓ' appendNums', ℓ.sendAppendEntries server args
        { term := ℓ.currentTerm, success := true, appState := .appNormal } appendNums =
          .ok (ℓ', appendNums') ∧ ℓ'.matchIndex server = ℓ.getLastLogIndex := by
  have hreached : max (ℓ.matchIndex server) (args.prevLogIndex + args.entries.length) =
      ℓ.getLastLogIndex := by omega
  have hupdated : Function.update ℓ.matchIndex server ℓ.getLastLogIndex server =
      ℓ.getLastLogIndex := Function.update_self server _ _
  unfold sendAppendEntries
  rw [if_neg (fun h ↦ by cases h), if_neg (Nat.lt_irrefl _), if_neg (Nat.lt_irrefl _),
    if_neg (not_not.mpr hleads)]
  simp only [hreached]
  by_cases hmajority : 1 + n / 2 ≤ appendNums + 1
  · simp only [if_pos hmajority]
    refine ⟨_, 0, bind_eq_ok.mpr ⟨(), myAssert_eq_ok.mpr trivial, bind_eq_ok.mpr
      ⟨(), myAssert_eq_ok.mpr (le_refl _), bind_eq_ok.mpr
        ⟨(), myAssert_eq_ok.mpr ?_, rfl⟩⟩⟩, ?_⟩
    · split
      · rw [hend]
        exact max_le hcommit (le_refl _)
      · exact hcommit
    · split
      · exact hupdated
      · exact hupdated
  · simp only [if_neg hmajority]
    exact ⟨_, appendNums + 1, bind_eq_ok.mpr ⟨(), myAssert_eq_ok.mpr trivial, bind_eq_ok.mpr
      ⟨(), myAssert_eq_ok.mpr (le_refl _), rfl⟩⟩, hupdated⟩

/-- A request is accepted, or refused with an earlier index that is behind the snapshot of the peer.
-/
theorem Exchange.answer (h : Exchange ℓ f server)
    (hnext : f.lastSnapshotIncludeIndex < ℓ.nextIndex server)
    (hsend : ℓ.heartBeatTo me server = .ok (some args)) :
    (∃ f', f.appendEntries args =
        .ok (f', { term := ℓ.currentTerm, success := true, appState := .appNormal })) ∨
      ∃ update, f.appendEntries args = .ok ((f.enterTerm ℓ.currentTerm).asFollower.persist,
          { term := ℓ.currentTerm
            success := false
            updateNextIndex := some update
            appState := .appNormal }) ∧
        f.lastSnapshotIncludeIndex < update ∧ update < ℓ.nextIndex server := by
  have hterm := (heartBeatTo_some hsend).1
  have hprev := heartBeatTo_prevLogIndex hsend
  have hcurrent : f.currentTerm ≤ args.term := hterm ▸ h.term
  have hsnapshot := h.follower.getLastLogIndex_eq
  rcases Nat.lt_or_ge f.getLastLogIndex args.prevLogIndex with hbeyond | hlast
  · -- The log of the peer is too short.
    right
    rw [appendEntries_beyond hcurrent hbeyond, hterm]
    exact ⟨_, rfl, by omega, by omega⟩
  · by_cases hmatch : f.getLogTermFromLogIndex args.prevLogIndex = .ok args.prevLogTerm
    · left
      have hagree : f.AgreesWith args.entries := fun old hold log hlog ↦
        h.identity old hold log (heartBeatTo_mem hsend hlog)
      rw [h.follower.appendEntries_merge hcurrent h.followerCommit
        (heartBeatTo_numbered h.leader hsend) hmatch, if_pos hagree, hterm]
      exact ⟨_, rfl⟩
    · right
      obtain ⟨update, heq, hbeyond, hback⟩ :=
        h.follower.appendEntries_mismatch hcurrent (by omega) hlast hmatch
      rw [hterm] at heq
      refine ⟨update, heq, ?_, by omega⟩
      -- At the snapshot of the peer the terms agree.
      rcases Nat.lt_or_ge f.lastSnapshotIncludeIndex args.prevLogIndex with hlt | hat
      · omega
      · have hindex : args.prevLogIndex = f.lastSnapshotIncludeIndex := by omega
        have hleader := heartBeatTo_prevLogTerm hsend
        rw [hindex] at hleader
        refine absurd (getLogTermFromLogIndex_eq_ok.mpr (Or.inl ⟨hindex, hlast, ?_⟩)) hmatch
        exact h.agree _ hleader

/-- After a refusal the leader and the peer are where they were, but for the next index. -/
theorem Exchange.refused (h : Exchange ℓ f server) {update : ℕ}
    (hlt : f.lastSnapshotIncludeIndex < update) (hlower : update < ℓ.nextIndex server) :
    Exchange { ℓ with nextIndex := Function.update ℓ.nextIndex server update }
      (f.enterTerm ℓ.currentTerm).asFollower.persist server where
  leads := h.leads
  leader := h.leader
  leaderCommit := h.leaderCommit
  matched := h.matched
  next_one := by
    show 1 ≤ Function.update ℓ.nextIndex server update server
    rw [Function.update_self]
    omega
  next_le := by
    show Function.update ℓ.nextIndex server update server ≤ ℓ.getLastLogIndex + 1
    rw [Function.update_self]
    exact hlower.le.trans h.next_le
  follower := h.follower.enter ℓ.currentTerm
  followerCommit := by
    show (f.enterTerm ℓ.currentTerm).commitIndex ≤
      (f.enterTerm ℓ.currentTerm).asFollower.getLastLogIndex
    rw [getLastLogIndex_enter, enterTerm_commitIndex]
    exact h.followerCommit
  term := (f.enterTerm_currentTerm _ h.term).le
  agree := by
    intro term hterm
    show term = (f.enterTerm ℓ.currentTerm).lastSnapshotIncludeTerm
    rw [enterTerm_lastSnapshotIncludeTerm]
    refine h.agree term ?_
    rw [← f.enterTerm_lastSnapshotIncludeIndex ℓ.currentTerm]
    exact hterm
  identity := by
    show ∀ old ∈ (f.enterTerm ℓ.currentTerm).logs, _
    rw [enterTerm_logs]
    exact h.identity

theorem Exchange.backsOff_of_lt (h : Exchange ℓ f server)
    (hnext : f.lastSnapshotIncludeIndex < ℓ.nextIndex server) : BacksOff me server ℓ f := by
  induction hindex : ℓ.nextIndex server using Nat.strong_induction_on generalizing ℓ f with
  | _ index ih =>
    rcases @Numbered.heartBeatTo_total _ _ me _ h.leader h.next_one h.next_le with
      ⟨-, hsend⟩ | ⟨-, args, hsend⟩
    · exact .snapshot hsend
    · rcases h.answer hnext hsend with ⟨f', hreply⟩ | ⟨update, hreply, hlt, hlower⟩
      · refine .success hsend hreply rfl fun appendNums ↦ ?_
        exact sendAppendEntries_accepted h.leads h.leaderCommit h.matched
          (heartBeatTo_some hsend).2.2.2.1 appendNums
      · have hupdated : Function.update ℓ.nextIndex server update server = update :=
          Function.update_self server _ _
        refine .reject hsend hreply rfl (sendAppendEntries_refused h.leads)
          (hupdated.trans_lt hlower) ?_
        refine ih update (hindex ▸ hlower) (h.refused hlt hlower) ?_ hupdated
        show (f.enterTerm ℓ.currentTerm).lastSnapshotIncludeIndex <
          Function.update ℓ.nextIndex server update server
        rw [hupdated, enterTerm_lastSnapshotIncludeIndex]
        exact hlt

/-- The exchange ends well exactly from the next indices behind the snapshot of the peer, and from
those that the snapshot of the leader covers. -/
theorem backsOff (h : Exchange ℓ f server) : BacksOff me server ℓ f ↔
    f.lastSnapshotIncludeIndex < ℓ.nextIndex server ∨
      ℓ.nextIndex server ≤ ℓ.lastSnapshotIncludeIndex := by
  rcases @Numbered.heartBeatTo_total _ _ me _ h.leader h.next_one h.next_le with
    ⟨hcovered, hsend⟩ | ⟨hnew, args, hsend⟩
  · exact ⟨fun _ ↦ Or.inr hcovered, fun _ ↦ .snapshot hsend⟩
  · have hprev := heartBeatTo_prevLogIndex hsend
    rcases Nat.lt_or_ge f.lastSnapshotIncludeIndex (ℓ.nextIndex server) with hlt | hge
    · exact ⟨fun _ ↦ Or.inl hlt, fun _ ↦ h.backsOff_of_lt hlt⟩
    · -- The request starts below the snapshot of the peer, which does not survive it.
      have hcurrent : f.currentTerm ≤ args.term := (heartBeatTo_some hsend).1 ▸ h.term
      have hfatal := h.follower.appendEntries_belowSnapshot hcurrent (by omega)
      constructor
      · intro hends
        cases hends with
        | snapshot hnone => exact Or.inr (heartBeatTo_none hnone).2
        | success hsend' hreply _ _ | reject hsend' hreply _ _ _ _ =>
          rw [hsend] at hsend'
          cases hsend'
          rw [hfatal] at hreply
          cases hreply
      · rintro (hlt | hcovered)
        · exact h.backsOff_of_lt hlt
        · exact absurd hcovered (Nat.not_le.mpr hnew)

end Exchange

/-! ### A leader and a lagging peer -/

section Examples

open scoped Archive

/-- A leader of term 3 with entries of the terms 1, 2, 3 and the given next index. -/
def backOffLeader (nextIndex : ℕ) : Raft 3 :=
  { fresh .first with
    currentTerm := 3
    status := .leader
    logs := [⟨"a", 1, 1⟩, ⟨"b", 2, 2⟩, ⟨"c", 3, 3⟩]
    commitIndex := 2
    nextIndex := fun _ ↦ nextIndex }

/-- A peer that has missed the terms 2 and 3. -/
def backOffPeer : Raft 3 :=
  { fresh .first with currentTerm := 1, logs := [⟨"a", 1, 1⟩, ⟨"x", 1, 2⟩] }

theorem backOffLeader_numbered (nextIndex : ℕ) : (backOffLeader nextIndex).Numbered :=
  ((numberedFrom_singleton rfl).append (numberedFrom_singleton rfl)).append
    (numberedFrom_singleton rfl)

theorem backOff_exchange : Exchange (backOffLeader 4) backOffPeer 1 where
  leads := rfl
  leader := backOffLeader_numbered 4
  leaderCommit := by decide
  matched := by decide
  next_one := by decide
  next_le := by decide
  follower := (numberedFrom_singleton rfl).append (numberedFrom_singleton rfl)
  followerCommit := by decide
  term := by decide
  agree := fun term hterm ↦ (Except.ok.inj hterm).symm
  identity := by decide

theorem backsOff_lagging : BacksOff 0 1 (backOffLeader 4) backOffPeer :=
  (backsOff backOff_exchange).mpr (by decide)

/-- A peer that has all entries and a snapshot of the first two. -/
def compactedPeer : Raft 3 :=
  { fresh .first with
    currentTerm := 3
    logs := [⟨"c", 3, 3⟩]
    commitIndex := 2
    lastApplied := 2
    lastSnapshotIncludeIndex := 2
    lastSnapshotIncludeTerm := 2 }

theorem compactedPeer_exchange : Exchange (backOffLeader 2) compactedPeer 1 where
  leads := rfl
  leader := backOffLeader_numbered 2
  leaderCommit := by decide
  matched := by decide
  next_one := by decide
  next_le := by decide
  follower := numberedFrom_singleton rfl
  followerCommit := by decide
  term := by decide
  agree := fun term hterm ↦ (Except.ok.inj hterm).symm
  identity := by decide

/-- The answers to the first requests were lost, and the peer has taken a snapshot since. -/
theorem backsOff_fatal : ∃ ℓ f : Raft 3, Exchange ℓ f 1 ∧ ¬ BacksOff 0 1 ℓ f := by
  refine ⟨backOffLeader 2, compactedPeer, compactedPeer_exchange, fun hends ↦ ?_⟩
  have hfatal : ∀ args, (backOffLeader 2).heartBeatTo 0 1 = .ok (some args) →
      compactedPeer.appendEntries args = .error .matchLogIndex := by
    intro args hsend
    cases hsend
    rfl
  cases hends with
  | snapshot hnone => cases hnone
  | success hsend hreply _ _ | reject hsend hreply _ _ _ _ =>
    rw [hfatal _ hsend] at hreply
    cases hreply

end Examples

end Raft

end Rsylar
