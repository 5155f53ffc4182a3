import Rsylar.Raft.ElectionSafety
import Rsylar.Raft.NumberedLog

/-!
# Entry identity

An entry is known when it is in the log of a server or in an append request that has been sent.
Handlers move known entries around, drop them and write them over others; only a leader makes a new
one. In a cluster without restarts, with any use of snapshots, the last index of a server never goes
back (`LogStep`), so the leader of a term is past every known entry of its term
(`IdentityInv.bound`), and its next entry is the only one with its index and term. The check in
`AppendEntries` for entries that share index and term but not the command therefore never fails
(`entryIdentity`).
-/

set_option autoImplicit false
set_option relaxedAutoImplicit false

namespace Rsylar

open TextArchive TransitionSystem Consensus

variable {n : ℕ}

/-- The entry is in a log or in a request that has been sent. -/
def Cluster.Known (s : Cluster n) (e : LogEntry) : Prop :=
  (∃ i, e ∈ (s.servers i).logs) ∨
    ∃ round ∈ s.heartbeats, ∃ peer args, (peer, args) ∈ round.requests ∧ e ∈ args.entries

/-- The entry has been in a log. -/
def Logged (H : Set (Fin n → Peer (Fin n) LogEntry)) (e : LogEntry) : Prop :=
  ∃ i p, Seen H i p ∧ e ∈ p.log

theorem Logged.mono {H H' : Set (Fin n → Peer (Fin n) LogEntry)} (hsub : H ⊆ H') {e : LogEntry}
    (h : Logged H e) : Logged H' e := by
  obtain ⟨i, p, hp, he⟩ := h
  exact ⟨i, p, hp.mono hsub, he⟩

/-! ### What a handler does to the log -/

/-- The log of `r'` is numbered, reaches as far as that of `r`, and has no entries but those of `r`
and of `extra`. -/
structure LogStep (extra : List LogEntry) (r r' : Raft n) : Prop where
  numbered : r'.Numbered
  last_le : r.getLastLogIndex ≤ r'.getLastLogIndex
  mem : ∀ e ∈ r'.logs, e ∈ r.logs ∨ e ∈ extra

section LogStep

variable {r r' : Raft n} {extra : List LogEntry}

theorem LogStep.of_same (h : r.Numbered) (hlogs : r'.logs = r.logs)
    (hindex : r'.lastSnapshotIncludeIndex = r.lastSnapshotIncludeIndex) : LogStep extra r r' := by
  have hnumbered : r'.Numbered := by
    unfold Raft.Numbered
    rw [hlogs, hindex]
    exact h
  refine ⟨hnumbered, ?_, fun e he ↦ Or.inl (hlogs ▸ he)⟩
  rw [h.getLastLogIndex_eq, hnumbered.getLastLogIndex_eq, hlogs, hindex]

theorem LogStep.of_write {p : ℕ} (h : r.Numbered) (hp : p ≤ r.logs.length)
    (hextra : NumberedFrom (r.lastSnapshotIncludeIndex + p) extra)
    (hlogs : r'.logs = writeAt r.logs p extra)
    (hindex : r'.lastSnapshotIncludeIndex = r.lastSnapshotIncludeIndex) : LogStep extra r r' := by
  have hnumbered : r'.Numbered := by
    unfold Raft.Numbered
    rw [hlogs, hindex]
    exact NumberedFrom.writeAt h hextra hp
  refine ⟨hnumbered, ?_, fun e he ↦ mem_writeAt (hlogs ▸ he)⟩
  rw [h.getLastLogIndex_eq, hnumbered.getLastLogIndex_eq, hlogs, hindex, length_writeAt hp]
  omega

theorem LogStep.of_drop {p : ℕ} (h : r.Numbered) (hp : p ≤ r.logs.length)
    (hlogs : r'.logs = r.logs.drop p)
    (hindex : r'.lastSnapshotIncludeIndex = r.lastSnapshotIncludeIndex + p) :
    LogStep extra r r' := by
  have hnumbered : r'.Numbered := by
    unfold Raft.Numbered
    rw [hlogs, hindex]
    exact NumberedFrom.drop h
  refine ⟨hnumbered, ?_, fun e he ↦ Or.inl (List.mem_of_mem_drop (hlogs ▸ he))⟩
  rw [h.getLastLogIndex_eq, hnumbered.getLastLogIndex_eq, hlogs, hindex, List.length_drop]
  omega

theorem LogStep.of_clear (hlogs : r'.logs = [])
    (hindex : r.getLastLogIndex ≤ r'.lastSnapshotIncludeIndex) : LogStep extra r r' := by
  have hnumbered : r'.Numbered := by
    unfold Raft.Numbered
    rw [hlogs]
    exact NumberedFrom.nil
  refine ⟨hnumbered, ?_, fun e he ↦ by rw [hlogs] at he; cases he⟩
  rw [hnumbered.getLastLogIndex_eq, hlogs]
  exact hindex

/-- Taking entries one index after the other is taking a part of the log. -/
theorem entriesFrom_eq (h : r.Numbered) {count logIndex : ℕ} {entries : List LogEntry}
    (hlt : r.lastSnapshotIncludeIndex < logIndex)
    (hentries : r.entriesFrom count logIndex = .ok entries) :
    entries = (r.logs.drop (logIndex - r.lastSnapshotIncludeIndex - 1)).take count := by
  induction count generalizing logIndex entries with
  | zero =>
    cases hentries
    simp
  | succ count ih =>
    obtain ⟨e, he, hentries⟩ := bind_eq_ok.mp hentries
    obtain ⟨rest, hrest, hentries⟩ := bind_eq_ok.mp hentries
    cases hentries
    obtain ⟨hpos, hat⟩ := List.getElem?_eq_some_iff.mp (h.entryAt_iff.mp he).2
    have hnext : logIndex + 1 - r.lastSnapshotIncludeIndex - 1 =
        logIndex - r.lastSnapshotIncludeIndex - 1 + 1 := by omega
    rw [ih (by omega) hrest, List.drop_eq_getElem_cons hpos, hat, List.take_succ_cons, hnext]

variable [Codec LogEntry] [Codec (BoostPersistRaftNode n)]

theorem logStep_doElection (h : r.Numbered) (me : Fin n) :
    LogStep [] r (r.doElection me).1 := by
  rcases r.doElection_cases me with ⟨-, heq⟩ | ⟨-, -, heq⟩ | ⟨-, -, heq⟩ <;> rw [heq] <;>
    exact LogStep.of_same h rfl rfl

theorem logStep_requestVote (h : r.Numbered) {args : RequestVoteArgs n} {reply : RequestVoteReply}
    (hr : r.requestVote args = .ok (r', reply)) : LogStep [] r r' := by
  rcases Raft.requestVote_cases hr with ⟨-, rfl, -⟩ | ⟨-, rfl, -⟩ | ⟨-, -, -, rfl, -⟩
  · exact LogStep.of_same h rfl rfl
  · exact LogStep.of_same h (by simp) (by simp)
  · exact LogStep.of_same h (r.enterTerm_logs _) (r.enterTerm_lastSnapshotIncludeIndex _)

theorem logStep_sendRequestVote (h : r.Numbered) {reply : RequestVoteReply}
    {votedNum votedNum' : ℕ} (hr : r.sendRequestVote reply votedNum = .ok (r', votedNum')) :
    LogStep [] r r' := by
  rcases Raft.sendRequestVote_cases hr with ⟨-, rfl, -⟩ | ⟨rfl, -⟩ | ⟨-, -, -, rfl, -⟩ |
    ⟨-, -, -, -, rfl, -⟩ <;> exact LogStep.of_same h rfl rfl

omit [Codec LogEntry] [Codec (BoostPersistRaftNode n)] in
theorem logStep_sendAppendEntries (h : r.Numbered) {server : Fin n} {args : AppendEntriesArgs n}
    {reply : AppendEntriesReply} {appendNums appendNums' : ℕ}
    (hr : r.sendAppendEntries server args reply appendNums = .ok (r', appendNums')) :
    LogStep [] r r' := by
  rcases Raft.sendAppendEntries_cases hr with ⟨rfl, -⟩ | ⟨-, -, rfl, -⟩ |
    ⟨-, -, -, -, index, -, rfl⟩ | ⟨-, -, -, reached, -, -, ⟨rfl, -⟩ | ⟨-, -, -, rfl⟩⟩ <;>
    exact LogStep.of_same h rfl rfl

omit [Codec LogEntry] [Codec (BoostPersistRaftNode n)] in
theorem logStep_getApplyLogs (h : r.Numbered) {msgs : List ApplyMsg}
    (hr : r.getApplyLogs = .ok (r', msgs)) : LogStep [] r r' := by
  obtain ⟨rfl, -⟩ := Raft.getApplyLogs_cases hr
  exact LogStep.of_same h rfl rfl

omit [Codec LogEntry] [Codec (BoostPersistRaftNode n)] in
/-- The log after an accepted request: the request written over it. -/
theorem appendEntries_logs (h : r.Numbered) {args : AppendEntriesArgs n}
    (hentries : NumberedFrom args.prevLogIndex args.entries)
    (hprev : r.getLogTermFromLogIndex args.prevLogIndex = .ok args.prevLogTerm) {q : Raft n}
    (hq : (r.enterTerm args.term).asFollower.mergeEntries args.entries = .ok q) :
    q = { (r.enterTerm args.term).asFollower with
      logs := writeAt r.logs (args.prevLogIndex - r.lastSnapshotIncludeIndex) args.entries } ∧
    r.lastSnapshotIncludeIndex ≤ args.prevLogIndex ∧
    args.prevLogIndex - r.lastSnapshotIncludeIndex ≤ r.logs.length := by
  obtain ⟨hle, hlen⟩ := h.range_of_term hprev
  have hnumbered : (r.enterTerm args.term).asFollower.Numbered := by
    simpa [Raft.Numbered] using h
  have hstart : (r.enterTerm args.term).asFollower.lastSnapshotIncludeIndex +
      (args.prevLogIndex - r.lastSnapshotIncludeIndex) = args.prevLogIndex := by
    simp
    omega
  have hmerged := Raft.mergeEntries_eq hnumbered (hstart.symm ▸ hentries) (by simpa using hlen) hq
  refine ⟨?_, hle, hlen⟩
  simpa using hmerged

/-- The identity check of the handler fails on two entries only that share index and term. -/
theorem appendEntries_sameTermOtherCommand (h : r.Numbered) {args : AppendEntriesArgs n}
    (hentries : NumberedFrom args.prevLogIndex args.entries)
    (hr : r.appendEntries args = .error .sameTermOtherCommand) :
    ∃ old log, (old ∈ r.logs ∨ old ∈ args.entries) ∧ log ∈ args.entries ∧
      old.logIndex = log.logIndex ∧ old.logTerm = log.logTerm ∧ old.command ≠ log.command := by
  obtain ⟨hprev, hmerge⟩ := Raft.appendEntries_identity hr
  obtain ⟨hle, hlen⟩ := h.range_of_term hprev
  have hnumbered : (r.enterTerm args.term).asFollower.Numbered := by
    simpa [Raft.Numbered] using h
  have hstart : (r.enterTerm args.term).asFollower.lastSnapshotIncludeIndex +
      (args.prevLogIndex - r.lastSnapshotIncludeIndex) = args.prevLogIndex := by
    simp
    omega
  have hfound := Raft.mergeEntries_sameTermOtherCommand hnumbered (hstart.symm ▸ hentries)
    (by simpa using hlen) hmerge
  simpa using hfound

theorem logStep_appendEntries (h : r.Numbered) {args : AppendEntriesArgs n}
    {reply : AppendEntriesReply} (hentries : NumberedFrom args.prevLogIndex args.entries)
    (hr : r.appendEntries args = .ok (r', reply)) : LogStep args.entries r r' := by
  rcases Raft.appendEntries_cases hr with ⟨-, rfl, -⟩ | ⟨-, -, rfl⟩ | ⟨-, -, -, hprev, q, hq, -, rfl⟩
  · exact LogStep.of_same h rfl rfl
  · exact LogStep.of_same h (by simp) (by simp)
  · obtain ⟨rfl, hle, hlen⟩ := appendEntries_logs h hentries hprev hq
    have hstart : r.lastSnapshotIncludeIndex + (args.prevLogIndex - r.lastSnapshotIncludeIndex) =
        args.prevLogIndex := by omega
    exact LogStep.of_write h hlen (hstart.symm ▸ hentries) rfl
      (r.enterTerm_lastSnapshotIncludeIndex _)

/-- A snapshot takes the entries it covers off the log. -/
theorem snapshot_logs (h : r.Numbered) {index : ℕ} {data : String}
    (hr : r.snapshot index data = .ok r') :
    r.lastSnapshotIncludeIndex ≤ r'.lastSnapshotIncludeIndex ∧
      r'.lastSnapshotIncludeIndex - r.lastSnapshotIncludeIndex ≤ r.logs.length ∧
      r'.logs = r.logs.drop (r'.lastSnapshotIncludeIndex - r.lastSnapshotIncludeIndex) := by
  rcases Raft.snapshot_cases hr with rfl | ⟨hlt, -, e, logs, q, he, hlogs, rfl, rfl⟩
  · simp
  · have hpos := (List.getElem?_eq_some_iff.mp (h.entryAt_iff.mp he).2).1
    have heq := entriesFrom_eq h (by omega) hlogs
    refine ⟨hlt.le, by show index - _ ≤ _; omega, ?_⟩
    show logs = r.logs.drop (index - r.lastSnapshotIncludeIndex)
    rw [heq, h.getLastLogIndex_eq, List.take_of_length_le]
    · congr 1
      omega
    · rw [List.length_drop]
      omega

theorem logStep_snapshot (h : r.Numbered) {index : ℕ} {data : String}
    (hr : r.snapshot index data = .ok r') : LogStep [] r r' := by
  obtain ⟨hle, hlen, hlogs⟩ := snapshot_logs h hr
  exact LogStep.of_drop h hlen hlogs (by omega)

omit [Codec LogEntry] [Codec (BoostPersistRaftNode n)] in
/-- What is left of a log is found where it was. -/
theorem entryAt_of_drop (h : r.Numbered) (h' : r'.Numbered)
    (hle : r.lastSnapshotIncludeIndex ≤ r'.lastSnapshotIncludeIndex)
    (hlogs : r'.logs = r.logs.drop (r'.lastSnapshotIncludeIndex - r.lastSnapshotIncludeIndex))
    {index : ℕ} {e : LogEntry} (he : r'.entryAt index = .ok e) : r.entryAt index = .ok e := by
  obtain ⟨hlt, hget⟩ := h'.entryAt_iff.mp he
  rw [hlogs, List.getElem?_drop] at hget
  refine h.entryAt_iff.mpr ⟨by omega, ?_⟩
  rw [← hget]
  congr 1
  omega

theorem logStep_leaderSendSnapShotReply (h : r.Numbered) (server : Fin n)
    (args : InstallSnapshotRequest n) (reply : InstallSnapshotResponse) :
    LogStep [] r (r.leaderSendSnapShotReply server args reply) := by
  rcases r.leaderSendSnapShotReply_cases server args reply with heq | ⟨-, heq⟩ | ⟨-, -, -, heq⟩ <;>
    rw [heq] <;>
    exact LogStep.of_same h rfl rfl

theorem logStep_installSnapshot (h : r.Numbered) {args : InstallSnapshotRequest n}
    {reply : InstallSnapshotResponse} {msg : Option ApplyMsg}
    (hr : r.installSnapshot args = .ok (r', reply, msg)) : LogStep [] r r' := by
  rcases Raft.installSnapshot_cases hr with ⟨-, rfl⟩ | ⟨p, hp, hr⟩
  · exact LogStep.of_same h rfl rfl
  · have hsame : p.logs = r.logs ∧ p.lastSnapshotIncludeIndex = r.lastSnapshotIncludeIndex := by
      rcases hp with ⟨-, rfl⟩ | ⟨-, rfl⟩
      · exact ⟨rfl, rfl⟩
      · exact ⟨rfl, rfl⟩
    obtain ⟨hlogs, hindex⟩ := hsame
    rcases hr with ⟨-, rfl⟩ | ⟨hlt, logs, q, hbeyond, rfl, rfl⟩
    · exact LogStep.of_same h hlogs hindex
    · have hpnum : p.Numbered := by
        unfold Raft.Numbered
        rw [hlogs, hindex]
        exact h
      unfold Raft.logsBeyond at hbeyond
      rw [hpnum.getLastLogIndex_eq, hlogs, hindex] at hbeyond
      split at hbeyond
      · rename_i hlast
        obtain ⟨slice, hslice, hbeyond⟩ := bind_eq_ok.mp hbeyond
        obtain ⟨-, -, rfl⟩ := Raft.getSlicesIndexFromLogIndex_eq_ok.mp hslice
        cases hbeyond
        refine @LogStep.of_drop _ _ _ _
          (args.lastSnapshotIncludeIndex - r.lastSnapshotIncludeIndex) h (by omega) ?_ ?_
        · show List.drop _ _ = _
          rw [hindex]
          congr 1
          omega
        · show args.lastSnapshotIncludeIndex = _
          omega
      · cases hbeyond
        refine LogStep.of_clear rfl ?_
        show _ ≤ args.lastSnapshotIncludeIndex
        rw [h.getLastLogIndex_eq]
        omega

end LogStep

/-! ### What a heartbeat sends -/

/-- A request of a heartbeat is what `heartBeatTo` gives for one of the peers. -/
theorem heartBeatTo_of_begin {r : Raft n} {i peer : Fin n}
    {sent : List (Fin n × Option (AppendEntriesArgs n))} {args : AppendEntriesArgs n}
    (hr : r.doHeartBeat i = .ok (some sent))
    (hmem : (peer, args) ∈ (AppendRound.begin i sent).requests) :
    r.status = .leader ∧ peer ≠ i ∧ r.heartBeatTo i peer = .ok (some args) := by
  rcases Raft.doHeartBeat_cases hr with ⟨-, hnone⟩ | ⟨hlead, sent', hsome, hto⟩
  · cases hnone
  · cases hsome
    obtain ⟨⟨server, request⟩, hin, hrequest⟩ := List.mem_filterMap.mp hmem
    obtain ⟨args', hsomeArgs, heq⟩ := Option.map_eq_some_iff.mp hrequest
    cases heq
    cases hsomeArgs
    exact ⟨hlead, hto _ _ hin⟩

/-- The entries of the requests of a heartbeat. -/
theorem numbered_doHeartBeat {r : Raft n} (h : r.Numbered) {i peer : Fin n}
    {sent : List (Fin n × Option (AppendEntriesArgs n))} {args : AppendEntriesArgs n}
    (hr : r.doHeartBeat i = .ok (some sent))
    (hmem : (peer, args) ∈ (AppendRound.begin i sent).requests) :
    NumberedFrom args.prevLogIndex args.entries := by
  obtain ⟨-, -, hto⟩ := heartBeatTo_of_begin hr hmem
  obtain ⟨-, -, -, -, hentries, hprev⟩ := Raft.heartBeatTo_some hto
  have hle : r.lastSnapshotIncludeIndex ≤ args.prevLogIndex := by
    rcases hprev with ⟨heq, -⟩ | ⟨e, he, -⟩
    · exact heq.ge
    · exact (h.entryAt_iff.mp he).1.le
  have hstart : r.lastSnapshotIncludeIndex +
      (args.prevLogIndex - r.lastSnapshotIncludeIndex) = args.prevLogIndex := by omega
  rw [hentries, ← hstart, Nat.add_sub_cancel_left]
  exact NumberedFrom.drop h

/-! ### The invariant -/

/-- What is known of a request from `caller` to `peer`. -/
structure AppendRequestInv (H : Set (Fin n → Peer (Fin n) LogEntry)) (caller peer : Fin n)
    (args : AppendEntriesArgs n) : Prop where
  other : peer ≠ caller
  led : Led H args.term caller
  numbered : NumberedFrom args.prevLogIndex args.entries
  logged : ∀ e ∈ args.entries, Logged H e

theorem AppendRequestInv.mono {H H' : Set (Fin n → Peer (Fin n) LogEntry)} (hsub : H ⊆ H')
    {caller peer : Fin n} {args : AppendEntriesArgs n} (h : AppendRequestInv H caller peer args) :
    AppendRequestInv H' caller peer args where
  other := h.other
  led := h.led.mono hsub
  numbered := h.numbered
  logged := fun e he ↦ (h.logged e he).mono hsub

structure IdentityInv (H : Set (Fin n → Peer (Fin n) LogEntry)) (s : Cluster n) : Prop where
  election : ElectionInv H s
  numbered : ∀ i, (s.servers i).Numbered
  requests : ∀ round ∈ s.heartbeats, ∀ peer args, (peer, args) ∈ round.requests →
    AppendRequestInv H round.caller peer args
  /-- The term of an entry has had a leader. -/
  led : ∀ e, Logged H e → ∃ i, Led H e.logTerm i
  /-- That leader's log reaches as far as the entry, as long as it stays in the term. -/
  bound : ∀ e i, Logged H e → Led H e.logTerm i → (s.servers i).currentTerm = e.logTerm →
    e.logIndex ≤ (s.servers i).getLastLogIndex
  identity : ∀ e e', Logged H e → Logged H e' → e.logIndex = e'.logIndex → e.logTerm = e'.logTerm →
    e = e'

/-- The rounds of `s'` carry requests that were sent in `s`. -/
def SameRequests (s s' : Cluster n) : Prop :=
  ∀ round ∈ s'.heartbeats, ∃ old ∈ s.heartbeats,
    old.caller = round.caller ∧ old.requests = round.requests

theorem SameRequests.of_eq {s s' : Cluster n} (h : s'.heartbeats = s.heartbeats) :
    SameRequests s s' :=
  fun round hround ↦ ⟨round, h ▸ hround, rfl, rfl⟩

theorem SameRequests.of_set {s s' : Cluster n} {k : ℕ} {round round' : AppendRound n}
    (hround : s.heartbeats[k]? = some round) (h : s'.heartbeats = s.heartbeats.set k round')
    (hcaller : round'.caller = round.caller) (hrequests : round'.requests = round.requests) :
    SameRequests s s' := by
  intro a ha
  rw [h] at ha
  rcases List.mem_or_eq_of_mem_set ha with ha | rfl
  · exact ⟨a, ha, rfl, rfl⟩
  · exact ⟨round, List.mem_of_getElem? hround, hcaller.symm, hrequests.symm⟩

section Step

variable {H : Set (Fin n → Peer (Fin n) LogEntry)} {s s' : Cluster n}

namespace IdentityInv

theorem initial : IdentityInv {(Cluster.initial : Cluster n).view} (Cluster.initial : Cluster n) := by
  have hnone : ∀ e, ¬ Logged {(Cluster.initial : Cluster n).view} e := by
    rintro e ⟨i, p, ⟨f, rfl, rfl⟩, he⟩
    cases he
  exact {
    election := ElectionInv.initial
    numbered := fun i ↦ NumberedFrom.nil
    requests := fun round hround ↦ by cases hround
    led := fun e he ↦ absurd he (hnone e)
    bound := fun e i he ↦ absurd he (hnone e)
    identity := fun e e' he ↦ absurd he (hnone e) }

/-- A leader of the term of a known entry that is in that term now was in it before. -/
theorem bound_of_last_le (h : IdentityInv H s) (helection : ElectionInv (insert s'.view H) s')
    (hlast : ∀ i, (s.servers i).getLastLogIndex ≤ (s'.servers i).getLastLogIndex) {e : LogEntry}
    (he : Logged H e) {i : Fin n} (hled : Led (insert s'.view H) e.logTerm i)
    (hterm : (s'.servers i).currentTerm = e.logTerm) :
    e.logIndex ≤ (s'.servers i).getLastLogIndex := by
  have hsub : H ⊆ insert s'.view H := Set.subset_insert _ _
  obtain ⟨j, hj⟩ := h.led e he
  obtain rfl := helection.ballot.led_unique (hj.mono hsub) hled
  have hle : e.logTerm ≤ (s.servers j).currentTerm := h.election.ballot.led_le hj
  have hmono : (s.servers j).currentTerm ≤ (s'.servers j).currentTerm :=
    helection.ballot.term_le j _ ((h.election.ballot.seen_self j).mono hsub)
  exact (h.bound e j he hj (by omega)).trans (hlast j)

/-- A step in which the logs take up logged entries only. -/
theorem frame (h : IdentityInv H s) (helection : ElectionInv (insert s'.view H) s')
    (hlog : ∀ i, ∃ extra, LogStep extra (s.servers i) (s'.servers i) ∧ ∀ e ∈ extra, Logged H e)
    (hrequests : ∀ round ∈ s'.heartbeats, ∀ peer args, (peer, args) ∈ round.requests →
      AppendRequestInv (insert s'.view H) round.caller peer args) :
    IdentityInv (insert s'.view H) s' := by
  have hlogged : ∀ e, Logged (insert s'.view H) e → Logged H e := by
    rintro e ⟨i, p, hp, he⟩
    rcases seen_insert.mp hp with rfl | hp
    · obtain ⟨extra, hstep, hextra⟩ := hlog i
      rcases hstep.mem e he with he | he
      · exact ⟨i, s.view i, h.election.ballot.seen_self i, he⟩
      · exact hextra e he
    · exact ⟨i, p, hp, he⟩
  have hlast : ∀ i, (s.servers i).getLastLogIndex ≤ (s'.servers i).getLastLogIndex := by
    intro i
    obtain ⟨extra, hstep, -⟩ := hlog i
    exact hstep.last_le
  refine ⟨helection, fun i ↦ ?_, hrequests, fun e he ↦ ?_, fun e i he hled hterm ↦
    h.bound_of_last_le helection hlast (hlogged e he) hled hterm, fun e e' he he' ↦
    h.identity e e' (hlogged e he) (hlogged e' he')⟩
  · obtain ⟨extra, hstep, -⟩ := hlog i
    exact hstep.numbered
  · obtain ⟨i, hi⟩ := h.led e (hlogged e he)
    exact ⟨i, hi.mono (Set.subset_insert _ _)⟩

theorem requests_same (h : IdentityInv H s) (hsent : SameRequests s s') :
    ∀ round ∈ s'.heartbeats, ∀ peer args, (peer, args) ∈ round.requests →
      AppendRequestInv (insert s'.view H) round.caller peer args := by
  intro round hround peer args hmem
  obtain ⟨old, hold, hcaller, hrequests⟩ := hsent round hround
  rw [← hrequests] at hmem
  exact hcaller ▸ (h.requests old hold peer args hmem).mono (Set.subset_insert _ _)

/-- A step that sends no request. -/
theorem frame_same (h : IdentityInv H s) (helection : ElectionInv (insert s'.view H) s')
    (hlog : ∀ i, ∃ extra, LogStep extra (s.servers i) (s'.servers i) ∧ ∀ e ∈ extra, Logged H e)
    (hsent : SameRequests s s') : IdentityInv (insert s'.view H) s' :=
  h.frame helection hlog (h.requests_same hsent)

/-- The logs after a step in which one server runs a handler. -/
theorem log_setServer (h : IdentityInv H s) {i : Fin n} {r : Raft n} {extra : List LogEntry}
    (hstep : LogStep extra (s.servers i) r) (hextra : ∀ e ∈ extra, Logged H e)
    (hservers : s'.servers = (s.setServer i r).servers) (j : Fin n) :
    ∃ extra, LogStep extra (s.servers j) (s'.servers j) ∧ ∀ e ∈ extra, Logged H e := by
  rw [hservers]
  by_cases hji : j = i
  · subst hji
    exact ⟨extra, by simpa [Cluster.setServer] using hstep, hextra⟩
  · refine ⟨[], ?_, fun e he ↦ by cases he⟩
    simp only [Cluster.setServer, Function.update_of_ne hji]
    exact LogStep.of_same (h.numbered j) rfl rfl

theorem log_same (h : IdentityInv H s) (hservers : s'.servers = s.servers) (j : Fin n) :
    ∃ extra, LogStep extra (s.servers j) (s'.servers j) ∧ ∀ e ∈ extra, Logged H e := by
  refine ⟨[], ?_, fun e he ↦ by cases he⟩
  rw [hservers]
  exact LogStep.of_same (h.numbered j) rfl rfl

variable [Codec LogEntry] [Codec (BoostPersistRaftNode n)]

/-- The new entry of a leader is beyond every known entry of its term. -/
theorem step_start (h : IdentityInv H s) (helection : ElectionInv (insert s'.view H) s')
    {i : Fin n} {command : String} {r : Raft n} {result : Option (ℕ × ℕ)}
    (hr : (s.servers i).start i command = .ok (r, result))
    (hservers : s'.servers = (s.setServer i r).servers) (hsent : SameRequests s s') :
    IdentityInv (insert s'.view H) s' := by
  have hsub : H ⊆ insert s'.view H := Set.subset_insert _ _
  rcases Raft.start_cases hr with ⟨-, rfl, -⟩ | ⟨hlead, e, q, found, heq, rfl, -, rfl, -⟩
  · exact h.frame_same helection
      (h.log_setServer (LogStep.of_same (h.numbered i) rfl rfl : LogStep [] _ _)
        (fun e he ↦ by cases he) hservers) hsent
  · have hnum := h.numbered i
    have hled : Led H (s.servers i).currentTerm i :=
      ⟨s.view i, h.election.ballot.seen_self i, rfl, hlead⟩
    have hindex : e.logIndex = (s.servers i).getLastLogIndex + 1 := by rw [heq]
    have hterm : e.logTerm = (s.servers i).currentTerm := by rw [heq]
    -- The log of the leader is extended, the other logs stay.
    have hself : (s'.servers i).logs = (s.servers i).logs ++ [e] := by
      rw [hservers]
      simp [Cluster.setServer]
    have hselfIndex : (s'.servers i).lastSnapshotIncludeIndex =
        (s.servers i).lastSnapshotIncludeIndex := by
      rw [hservers]
      simp [Cluster.setServer]
    have hselfStep : LogStep [e] (s.servers i) (s'.servers i) := by
      refine LogStep.of_write hnum (le_refl _) (numberedFrom_singleton ?_) ?_ hselfIndex
      · rw [hindex, hnum.getLastLogIndex_eq]
      · rw [hself]
        simp [writeAt]
    have hother : ∀ j, j ≠ i → s'.servers j = s.servers j := by
      intro j hj
      rw [hservers]
      simp [Cluster.setServer, hj]
    have hlog : ∀ j, LogStep [e] (s.servers j) (s'.servers j) := by
      intro j
      by_cases hj : j = i
      · subst hj
        exact hselfStep
      · rw [hother j hj]
        exact LogStep.of_same (h.numbered j) rfl rfl
    have hlogged : ∀ a, Logged (insert s'.view H) a → Logged H a ∨ a = e := by
      rintro a ⟨j, p, hp, ha⟩
      rcases seen_insert.mp hp with rfl | hp
      · rcases (hlog j).mem a ha with ha | ha
        · exact Or.inl ⟨j, s.view j, h.election.ballot.seen_self j, ha⟩
        · exact Or.inr (List.mem_singleton.mp ha)
      · exact Or.inl ⟨j, p, hp, ha⟩
    have hfresh : ∀ a, Logged H a → a.logTerm = e.logTerm → a.logIndex ≠ e.logIndex := by
      intro a ha hsame
      have hle := h.bound a i ha (by rw [hsame, hterm]; exact hled) (by rw [hsame, hterm])
      omega
    refine ⟨helection, fun j ↦ (hlog j).numbered, h.requests_same hsent, fun a ha ↦ ?_,
      fun a j ha hledj hcur ↦ ?_, fun a b ha hb hi ht ↦ ?_⟩
    · rcases hlogged a ha with ha | rfl
      · obtain ⟨j, hj⟩ := h.led a ha
        exact ⟨j, hj.mono hsub⟩
      · exact ⟨i, hterm ▸ hled.mono hsub⟩
    · rcases hlogged a ha with ha | rfl
      · exact h.bound_of_last_le helection (fun j ↦ (hlog j).last_le) ha hledj hcur
      · rw [hterm] at hledj
        obtain rfl := helection.ballot.led_unique (hled.mono hsub) hledj
        rw [hindex, hselfStep.numbered.getLastLogIndex_eq, hnum.getLastLogIndex_eq, hself,
          hselfIndex, List.length_append, List.length_singleton]
        omega
    · rcases hlogged a ha with ha | rfl <;> rcases hlogged b hb with hb | rfl
      · exact h.identity a b ha hb hi ht
      · exact absurd hi (hfresh a ha ht)
      · exact absurd hi.symm (hfresh b hb ht.symm)
      · rfl

omit [Codec LogEntry] [Codec (BoostPersistRaftNode n)] in
/-- The requests of a heartbeat carry entries of the leader's log. -/
theorem step_doHeartBeat (h : IdentityInv H s) (helection : ElectionInv (insert s'.view H) s')
    {i : Fin n} {sent : List (Fin n × Option (AppendEntriesArgs n))}
    (hr : (s.servers i).doHeartBeat i = .ok (some sent)) (hservers : s'.servers = s.servers)
    (hheartbeats : s'.heartbeats = s.heartbeats ++ [AppendRound.begin i sent]) :
    IdentityInv (insert s'.view H) s' := by
  have hsub : H ⊆ insert s'.view H := Set.subset_insert _ _
  refine h.frame helection (h.log_same hservers) fun round hround peer args hmem ↦ ?_
  rw [hheartbeats] at hround
  rcases List.mem_append.mp hround with hround | hround
  · exact (h.requests round hround peer args hmem).mono hsub
  · rw [List.mem_singleton.mp hround] at hmem ⊢
    obtain ⟨hlead, hne, hto⟩ := heartBeatTo_of_begin hr hmem
    obtain ⟨hterm, -, -, -, hentries, -⟩ := Raft.heartBeatTo_some hto
    have hseen := (h.election.ballot.seen_self i).mono hsub
    refine ⟨hne, hterm ▸ ⟨s.view i, hseen, rfl, hlead⟩, numbered_doHeartBeat (h.numbered i) hr hmem,
      fun e he ↦ ⟨i, s.view i, hseen, ?_⟩⟩
    rw [hentries] at he
    exact List.mem_of_mem_drop he

/-- Every step of a cluster without restarts keeps the invariant. -/
theorem step (h : IdentityInv H s) {a : Action n} (ha : NoRestart s a)
    (hstep : s.step a = some s') : IdentityInv (insert s'.view H) s' := by
  have helection := h.election.step ha hstep
  have hnil : ∀ e ∈ ([] : List LogEntry), Logged H e := fun e he ↦ by cases he
  cases Cluster.step_cases hstep with
  | exit i e _ => exact h.frame_same helection (h.log_same rfl) (.of_eq rfl)
  | doElection i r request hr =>
    have hlog := logStep_doElection (h.numbered i) i
    rw [hr] at hlog
    exact h.frame_same helection (h.log_setServer hlog hnil rfl) (.of_eq rfl)
  | requestVote k peer round r reply _ _ hr =>
    exact h.frame_same helection
      (h.log_setServer (logStep_requestVote (h.numbered peer) hr) hnil rfl) (.of_eq rfl)
  | sendRequestVote k peer reply round r votedNum _ _ _ hr =>
    exact h.frame_same helection
      (h.log_setServer (logStep_sendRequestVote (h.numbered _) hr) hnil rfl) (.of_eq rfl)
  | start i command r result hr => exact h.step_start helection hr rfl (.of_eq rfl)
  | doHeartBeat_idle i _ => exact h.frame_same helection (h.log_same rfl) (.of_eq rfl)
  | doHeartBeat i sent hr => exact h.step_doHeartBeat helection hr rfl rfl
  | appendEntries k peer round args r reply hround hargs hr =>
    have hrequest := h.requests round (List.mem_of_getElem? hround) peer args (mem_of_lookup hargs)
    exact h.frame_same helection
      (h.log_setServer (logStep_appendEntries (h.numbered peer) hrequest.numbered hr)
        hrequest.logged rfl) (.of_set hround rfl rfl rfl)
  | sendAppendEntries k peer reply round args r appendNums hround _ _ _ hr =>
    exact h.frame_same helection
      (h.log_setServer (logStep_sendAppendEntries (h.numbered _) hr) hnil rfl)
      (.of_set hround rfl rfl rfl)
  | getApplyLogs i r msgs hr =>
    exact h.frame_same helection
      (h.log_setServer (logStep_getApplyLogs (h.numbered i) hr) hnil rfl) (.of_eq rfl)
  | applierPush i msg msgs _ => exact h.frame_same helection (h.log_same rfl) (.of_eq rfl)
  | snapshot i index data r hr =>
    exact h.frame_same helection
      (h.log_setServer (logStep_snapshot (h.numbered i) hr) hnil rfl) (.of_eq rfl)
  | leaderSendSnapShot k i peer r args _ hr =>
    have hlog : LogStep [] (s.servers i) r := by
      cases hr
      exact LogStep.of_same (h.numbered i) rfl rfl
    exact h.frame_same helection (h.log_setServer hlog hnil rfl) (.of_eq rfl)
  | installSnapshot k call r reply msg _ hr =>
    exact h.frame_same helection
      (h.log_setServer (logStep_installSnapshot (h.numbered _) hr) hnil rfl) (.of_eq rfl)
  | leaderSendSnapShotReply k reply call r _ _ _ hr =>
    cases hr
    exact h.frame_same helection
      (h.log_setServer (logStep_leaderSendSnapShotReply (h.numbered _) _ _ _) hnil rfl)
      (.of_eq rfl)
  | pushMsgToKvServer i k msg _ => exact h.frame_same helection (h.log_same rfl) (.of_eq rfl)
  | restart i r data _ => exact ha.elim

end IdentityInv

end Step

/-! ### Entry identity of every run -/

section Runs

variable [Codec LogEntry] [Codec (BoostPersistRaftNode n)]

theorem identityInv_run (r : Run (raft n)) (hr : r.Obeys NoRestart) (k : ℕ) :
    IdentityInv (r.past Cluster.view k) (r.state k) :=
  r.invariant_past IdentityInv.initial (fun _ _ _ _ h ha hstep ↦ h.step ha hstep) hr k

omit [Codec LogEntry] [Codec (BoostPersistRaftNode n)] in
theorem IdentityInv.logged_of_known {H : Set (Fin n → Peer (Fin n) LogEntry)} {s : Cluster n}
    (h : IdentityInv H s) {e : LogEntry} (he : s.Known e) : Logged H e := by
  rcases he with ⟨i, he⟩ | ⟨round, hround, peer, args, hmem, he⟩
  · exact ⟨i, s.view i, h.election.ballot.seen_self i, he⟩
  · exact (h.requests round hround peer args hmem).logged e he

/-- Entry identity. In every run without restarts, entries with the same index and the same term
carry the same command, wherever and whenever they occur, and the check for that in `AppendEntries`
never fails. -/
theorem entryIdentity (r : Run (raft n)) (hr : r.Obeys NoRestart) :
    (∀ j k e e', (r.state j).Known e → (r.state k).Known e' → e.logIndex = e'.logIndex →
      e.logTerm = e'.logTerm → e.command = e'.command) ∧
    ∀ k round peer i,
      (r.state k).perform (.appendEntries round peer) ≠ some (i, .error .sameTermOtherCommand) := by
  constructor
  · intro j k e e' he he' hindex hterm
    have hinv := identityInv_run r hr (max j k)
    have hlogged := ((identityInv_run r hr j).logged_of_known he).mono
      (r.past_mono Cluster.view (le_max_left j k))
    have hlogged' := ((identityInv_run r hr k).logged_of_known he').mono
      (r.past_mono Cluster.view (le_max_right j k))
    rw [hinv.identity e e' hlogged hlogged' hindex hterm]
  · intro k m peer i h
    have hinv := identityInv_run r hr k
    simp only [Cluster.perform, Option.bind_eq_bind, Option.bind_eq_some_iff, Option.some.injEq,
      Prod.mk.injEq] at h
    obtain ⟨round, hround, args, hargs, -, h⟩ := h
    have hrequest := hinv.requests round (List.mem_of_getElem? hround) peer args
      (mem_of_lookup hargs)
    rcases bind_eq_error.mp h with h | ⟨_, -, h⟩
    · obtain ⟨old, log, hold, hlog, hindex, hterm, hcommand⟩ :=
        appendEntries_sameTermOtherCommand (hinv.numbered peer) hrequest.numbered h
      have hlogged : Logged (r.past Cluster.view k) old := by
        rcases hold with hold | hold
        · exact ⟨peer, (r.state k).view peer, hinv.election.ballot.seen_self peer, hold⟩
        · exact hrequest.logged old hold
      exact hcommand (congrArg LogEntry.command
        (hinv.identity old log hlogged (hrequest.logged log hlog) hindex hterm))
    · exact pure_ne_error h

end Runs

/-! ### A first entry -/

section FirstEntry

open scoped Archive

/-- The leader of the first election appends an entry and sends it to its peer twice. -/
def firstEntry : List (Action 2) :=
  firstElection ++
    [.start 0 "x", .doHeartBeat 0, .appendEntries 0 1, .doHeartBeat 0, .appendEntries 1 1]

def firstEntryRun : Run (raft 2) :=
  Run.ofActions (raft 2) firstEntry (by decide +kernel)

theorem firstEntryRun_noRestart : firstEntryRun.Obeys NoRestart :=
  Run.obeys_ofActions _ _ (by simp [firstEntry, firstElection, NoRestart])

theorem entryIdentity_firstEntry :
    (firstEntryRun.state 4).Known ⟨"x", 1, 1⟩ ∧
      (∀ k e, (firstEntryRun.state k).Known e → e.logIndex = 1 → e.logTerm = 1 →
        e.command = "x") ∧
      ∀ i, (firstEntryRun.state 7).perform (.appendEntries 1 1) ≠
        some (i, .error .sameTermOtherCommand) := by
  have hknown : (firstEntryRun.state 4).Known ⟨"x", 1, 1⟩ := Or.inl ⟨0, by decide +kernel⟩
  obtain ⟨hsame, hnever⟩ := entryIdentity firstEntryRun firstEntryRun_noRestart
  exact ⟨hknown, fun k e he hindex hterm ↦ hsame k 4 e _ he hknown hindex hterm, hnever 7 1 1⟩

end FirstEntry

end Rsylar
