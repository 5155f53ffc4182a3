import Rsylar.Foundations.Fallible
import Rsylar.Raft.Server

/-!
# What the handlers do

One lemma for each handler: how it can return, with the guards that hold there and the state it
leaves (`requestVote_cases`, `appendEntries_cases` and so on). Proofs about the cluster use these
lemmas and do not unfold a handler. The handlers change the state in few ways, so the fields after
`persist`, `stepDown`, `enterTerm`, `stand` and `becomeLeader` are simp lemmas.
-/

set_option autoImplicit false
set_option relaxedAutoImplicit false

namespace Rsylar

open TextArchive

/-! ### Assertions -/

theorem myAssert_eq_ok {c : Prop} [Decidable c] {e : Abort} {u : Unit} :
    myAssert c e = .ok u ↔ c := by
  unfold myAssert
  split <;> simp_all

theorem myAssert_eq_error {c : Prop} [Decidable c] {e e' : Abort} :
    myAssert c e = .error e' ↔ ¬ c ∧ e = e' := by
  unfold myAssert
  split <;> simp_all

namespace Raft

variable {n : ℕ}

/-! ### Fields -/

section Fields

variable (r : Raft n) (term : ℕ) (me : Fin n)

@[simp] theorem stepDown_currentTerm : (r.stepDown term).currentTerm = term := rfl
@[simp] theorem stepDown_votedFor : (r.stepDown term).votedFor = none := rfl
@[simp] theorem stepDown_status : (r.stepDown term).status = .follower := rfl
@[simp] theorem stepDown_logs : (r.stepDown term).logs = r.logs := rfl
@[simp] theorem stepDown_commitIndex : (r.stepDown term).commitIndex = r.commitIndex := rfl
@[simp] theorem stepDown_lastApplied : (r.stepDown term).lastApplied = r.lastApplied := rfl
@[simp] theorem stepDown_persister : (r.stepDown term).persister = r.persister := rfl
@[simp] theorem stepDown_lastSnapshotIncludeIndex :
    (r.stepDown term).lastSnapshotIncludeIndex = r.lastSnapshotIncludeIndex := rfl
@[simp] theorem stepDown_lastSnapshotIncludeTerm :
    (r.stepDown term).lastSnapshotIncludeTerm = r.lastSnapshotIncludeTerm := rfl

@[simp] theorem stand_currentTerm : (r.stand me).currentTerm = r.currentTerm + 1 := rfl
@[simp] theorem stand_votedFor : (r.stand me).votedFor = some me := rfl
@[simp] theorem stand_status : (r.stand me).status = .candidate := rfl
@[simp] theorem stand_logs : (r.stand me).logs = r.logs := rfl
@[simp] theorem stand_commitIndex : (r.stand me).commitIndex = r.commitIndex := rfl
@[simp] theorem stand_lastApplied : (r.stand me).lastApplied = r.lastApplied := rfl
@[simp] theorem stand_lastSnapshotIncludeIndex :
    (r.stand me).lastSnapshotIncludeIndex = r.lastSnapshotIncludeIndex := rfl
@[simp] theorem stand_lastSnapshotIncludeTerm :
    (r.stand me).lastSnapshotIncludeTerm = r.lastSnapshotIncludeTerm := rfl

@[simp] theorem asFollower_currentTerm : r.asFollower.currentTerm = r.currentTerm := rfl
@[simp] theorem asFollower_votedFor : r.asFollower.votedFor = r.votedFor := rfl
@[simp] theorem asFollower_status : r.asFollower.status = .follower := rfl
@[simp] theorem asFollower_logs : r.asFollower.logs = r.logs := rfl
@[simp] theorem asFollower_commitIndex : r.asFollower.commitIndex = r.commitIndex := rfl
@[simp] theorem asFollower_lastApplied : r.asFollower.lastApplied = r.lastApplied := rfl
@[simp] theorem asFollower_persister : r.asFollower.persister = r.persister := rfl
@[simp] theorem asFollower_lastSnapshotIncludeIndex :
    r.asFollower.lastSnapshotIncludeIndex = r.lastSnapshotIncludeIndex := rfl
@[simp] theorem asFollower_lastSnapshotIncludeTerm :
    r.asFollower.lastSnapshotIncludeTerm = r.lastSnapshotIncludeTerm := rfl

@[simp] theorem becomeLeader_currentTerm : r.becomeLeader.currentTerm = r.currentTerm := rfl
@[simp] theorem becomeLeader_votedFor : r.becomeLeader.votedFor = r.votedFor := rfl
@[simp] theorem becomeLeader_status : r.becomeLeader.status = .leader := rfl
@[simp] theorem becomeLeader_logs : r.becomeLeader.logs = r.logs := rfl
@[simp] theorem becomeLeader_commitIndex : r.becomeLeader.commitIndex = r.commitIndex := rfl
@[simp] theorem becomeLeader_lastApplied : r.becomeLeader.lastApplied = r.lastApplied := rfl
@[simp] theorem becomeLeader_matchIndex (i : Fin n) : r.becomeLeader.matchIndex i = 0 := rfl
@[simp] theorem becomeLeader_lastSnapshotIncludeIndex :
    r.becomeLeader.lastSnapshotIncludeIndex = r.lastSnapshotIncludeIndex := rfl
@[simp] theorem becomeLeader_lastSnapshotIncludeTerm :
    r.becomeLeader.lastSnapshotIncludeTerm = r.lastSnapshotIncludeTerm := rfl

section MatchIndex

variable (server : Fin n) (index : ℕ)

@[simp] theorem setMatchIndex_currentTerm :
    (r.setMatchIndex server index).currentTerm = r.currentTerm := rfl
@[simp] theorem setMatchIndex_votedFor :
    (r.setMatchIndex server index).votedFor = r.votedFor := rfl
@[simp] theorem setMatchIndex_status : (r.setMatchIndex server index).status = r.status := rfl
@[simp] theorem setMatchIndex_logs : (r.setMatchIndex server index).logs = r.logs := rfl
@[simp] theorem setMatchIndex_commitIndex :
    (r.setMatchIndex server index).commitIndex = r.commitIndex := rfl
@[simp] theorem setMatchIndex_lastApplied :
    (r.setMatchIndex server index).lastApplied = r.lastApplied := rfl
@[simp] theorem setMatchIndex_matchIndex :
    (r.setMatchIndex server index).matchIndex = Function.update r.matchIndex server index := rfl
@[simp] theorem setMatchIndex_persister :
    (r.setMatchIndex server index).persister = r.persister := rfl
@[simp] theorem setMatchIndex_lastSnapshotIncludeIndex :
    (r.setMatchIndex server index).lastSnapshotIncludeIndex = r.lastSnapshotIncludeIndex := rfl
@[simp] theorem setMatchIndex_lastSnapshotIncludeTerm :
    (r.setMatchIndex server index).lastSnapshotIncludeTerm = r.lastSnapshotIncludeTerm := rfl

end MatchIndex

section Persist

variable [Codec LogEntry] [Codec (BoostPersistRaftNode n)]

@[simp] theorem persist_currentTerm : r.persist.currentTerm = r.currentTerm := rfl
@[simp] theorem persist_votedFor : r.persist.votedFor = r.votedFor := rfl
@[simp] theorem persist_status : r.persist.status = r.status := rfl
@[simp] theorem persist_logs : r.persist.logs = r.logs := rfl
@[simp] theorem persist_commitIndex : r.persist.commitIndex = r.commitIndex := rfl
@[simp] theorem persist_lastApplied : r.persist.lastApplied = r.lastApplied := rfl
@[simp] theorem persist_matchIndex : r.persist.matchIndex = r.matchIndex := rfl
@[simp] theorem persist_nextIndex : r.persist.nextIndex = r.nextIndex := rfl
@[simp] theorem persist_lastSnapshotIncludeIndex :
    r.persist.lastSnapshotIncludeIndex = r.lastSnapshotIncludeIndex := rfl
@[simp] theorem persist_lastSnapshotIncludeTerm :
    r.persist.lastSnapshotIncludeTerm = r.lastSnapshotIncludeTerm := rfl

end Persist

/-- Entering the term of a request: a later term is learned, the same term changes nothing. -/
theorem enterTerm_cases (h : r.currentTerm ≤ term) :
    (r.currentTerm < term ∧ r.enterTerm term = r.stepDown term) ∨
      (r.currentTerm = term ∧ r.enterTerm term = r) := by
  unfold enterTerm
  split
  · exact Or.inl ⟨‹_›, rfl⟩
  · exact Or.inr ⟨by omega, rfl⟩

theorem enterTerm_currentTerm (h : r.currentTerm ≤ term) :
    (r.enterTerm term).currentTerm = term := by
  rcases r.enterTerm_cases term h with ⟨-, heq⟩ | ⟨hterm, heq⟩
  · rw [heq, stepDown_currentTerm]
  · rw [heq, hterm]

@[simp]
theorem enterTerm_logs : (r.enterTerm term).logs = r.logs := by
  unfold enterTerm
  split <;> rfl

@[simp]
theorem enterTerm_commitIndex : (r.enterTerm term).commitIndex = r.commitIndex := by
  unfold enterTerm
  split <;> rfl

@[simp]
theorem enterTerm_lastApplied : (r.enterTerm term).lastApplied = r.lastApplied := by
  unfold enterTerm
  split <;> rfl

@[simp]
theorem enterTerm_lastSnapshotIncludeIndex :
    (r.enterTerm term).lastSnapshotIncludeIndex = r.lastSnapshotIncludeIndex := by
  unfold enterTerm
  split <;> rfl

@[simp]
theorem enterTerm_lastSnapshotIncludeTerm :
    (r.enterTerm term).lastSnapshotIncludeTerm = r.lastSnapshotIncludeTerm := by
  unfold enterTerm
  split <;> rfl

end Fields

/-! ### Positions in the log -/

section Positions

variable {r : Raft n}

theorem getSlicesIndexFromLogIndex_eq_ok {logIndex slice : ℕ} :
    r.getSlicesIndexFromLogIndex logIndex = .ok slice ↔
      r.lastSnapshotIncludeIndex < logIndex ∧ logIndex ≤ r.getLastLogIndex ∧
        slice = logIndex - r.lastSnapshotIncludeIndex - 1 := by
  unfold getSlicesIndexFromLogIndex
  simp only [bind_eq_ok, myAssert_eq_ok, pure_eq_ok]
  constructor
  · rintro ⟨_, hlt, _, hle, rfl⟩
    exact ⟨hlt, hle, rfl⟩
  · rintro ⟨hlt, hle, rfl⟩
    exact ⟨(), hlt, (), hle, rfl⟩

theorem entryAt_eq_ok {logIndex : ℕ} {e : LogEntry} :
    r.entryAt logIndex = .ok e ↔
      r.lastSnapshotIncludeIndex < logIndex ∧ logIndex ≤ r.getLastLogIndex ∧
        r.logs[logIndex - r.lastSnapshotIncludeIndex - 1]? = some e := by
  unfold entryAt
  rw [bind_eq_ok]
  constructor
  · rintro ⟨slice, hslice, h⟩
    obtain ⟨hlt, hle, rfl⟩ := getSlicesIndexFromLogIndex_eq_ok.mp hslice
    split at h
    · cases h
    · rename_i hget
      cases h
      exact ⟨hlt, hle, hget⟩
  · rintro ⟨hlt, hle, hget⟩
    refine ⟨_, getSlicesIndexFromLogIndex_eq_ok.mpr ⟨hlt, hle, rfl⟩, ?_⟩
    rw [hget]
    rfl

/-- Looking up an index compares no commands. -/
theorem getSlicesIndexFromLogIndex_ne_identity {logIndex : ℕ} :
    r.getSlicesIndexFromLogIndex logIndex ≠ .error .sameTermOtherCommand := by
  intro h
  rcases bind_eq_error.mp h with h | ⟨_, -, h⟩
  · cases (myAssert_eq_error.mp h).2
  · rcases bind_eq_error.mp h with h | ⟨_, -, h⟩
    · cases (myAssert_eq_error.mp h).2
    · exact pure_ne_error h

theorem entryAt_ne_identity {logIndex : ℕ} :
    r.entryAt logIndex ≠ .error .sameTermOtherCommand := by
  intro h
  rcases bind_eq_error.mp h with h | ⟨slice, -, h⟩
  · exact getSlicesIndexFromLogIndex_ne_identity h
  · split at h
    · cases h
    · exact pure_ne_error h

theorem getLogTermFromLogIndex_eq_ok {logIndex term : ℕ} :
    r.getLogTermFromLogIndex logIndex = .ok term ↔
      (logIndex = r.lastSnapshotIncludeIndex ∧ logIndex ≤ r.getLastLogIndex ∧
          term = r.lastSnapshotIncludeTerm) ∨
        ∃ e, r.entryAt logIndex = .ok e ∧ e.logTerm = term := by
  unfold getLogTermFromLogIndex
  simp only [bind_eq_ok, myAssert_eq_ok]
  constructor
  · rintro ⟨_, -, _, hle, h⟩
    split at h
    · cases h
      exact Or.inl ⟨‹_›, hle, rfl⟩
    · obtain ⟨e, he, h⟩ := bind_eq_ok.mp h
      cases h
      exact Or.inr ⟨e, he, rfl⟩
  · rintro (⟨rfl, hle, rfl⟩ | ⟨e, he, rfl⟩)
    · exact ⟨(), le_refl _, (), hle, if_pos rfl⟩
    · obtain ⟨hlt, hle, -⟩ := entryAt_eq_ok.mp he
      refine ⟨(), hlt.le, (), hle, ?_⟩
      rw [if_neg (by omega), bind_eq_ok]
      exact ⟨e, he, rfl⟩

/-- What is found at an index depends on the log and on the snapshot only. -/
theorem getLogTermFromLogIndex_congr {q : Raft n} (hlogs : r.logs = q.logs)
    (hindex : r.lastSnapshotIncludeIndex = q.lastSnapshotIncludeIndex)
    (hterm : r.lastSnapshotIncludeTerm = q.lastSnapshotIncludeTerm) (logIndex : ℕ) :
    r.getLogTermFromLogIndex logIndex = q.getLogTermFromLogIndex logIndex := by
  cases r
  cases q
  cases hlogs
  cases hindex
  cases hterm
  rfl

theorem matchLog_eq_true {logIndex logTerm : ℕ} :
    r.matchLog logIndex logTerm = .ok true ↔ r.getLogTermFromLogIndex logIndex = .ok logTerm := by
  unfold matchLog
  simp only [bind_eq_ok, myAssert_eq_ok]
  constructor
  · rintro ⟨_, -, t, ht, h⟩
    rw [pure_eq_ok, decide_eq_true_eq] at h
    rwa [h]
  · intro h
    have hrange : r.lastSnapshotIncludeIndex ≤ logIndex ∧ logIndex ≤ r.getLastLogIndex := by
      rcases getLogTermFromLogIndex_eq_ok.mp h with ⟨rfl, hle, -⟩ | ⟨e, he, -⟩
      · exact ⟨le_refl _, hle⟩
      · obtain ⟨hlt, hle, -⟩ := entryAt_eq_ok.mp he
        exact ⟨hlt.le, hle⟩
    exact ⟨(), hrange, logTerm, h, by simp [pure, Except.pure]⟩

theorem getLogTermFromLogIndex_ne_identity {logIndex : ℕ} :
    r.getLogTermFromLogIndex logIndex ≠ .error .sameTermOtherCommand := by
  intro h
  rcases bind_eq_error.mp h with h | ⟨_, -, h⟩
  · cases (myAssert_eq_error.mp h).2
  · rcases bind_eq_error.mp h with h | ⟨_, -, h⟩
    · cases (myAssert_eq_error.mp h).2
    · split at h
      · exact pure_ne_error h
      · rcases bind_eq_error.mp h with h | ⟨e, -, h⟩
        · exact entryAt_ne_identity h
        · exact pure_ne_error h

theorem matchLog_ne_identity {logIndex logTerm : ℕ} :
    r.matchLog logIndex logTerm ≠ .error .sameTermOtherCommand := by
  intro h
  rcases bind_eq_error.mp h with h | ⟨_, -, h⟩
  · cases (myAssert_eq_error.mp h).2
  · rcases bind_eq_error.mp h with h | ⟨t, -, h⟩
    · exact getLogTermFromLogIndex_ne_identity h
    · exact pure_ne_error h

theorem conflictIndex_ne_identity {prevLogIndex index : ℕ} :
    r.conflictIndex prevLogIndex index ≠ .error .sameTermOtherCommand := by
  intro h
  induction index with
  | zero =>
    unfold conflictIndex at h
    split at h
    · rcases bind_eq_error.mp h with h | ⟨t, -, h⟩
      · exact getLogTermFromLogIndex_ne_identity h
      · rcases bind_eq_error.mp h with h | ⟨t', -, h⟩
        · exact getLogTermFromLogIndex_ne_identity h
        · exact pure_ne_error h
    · cases h
  | succ index ih =>
    unfold conflictIndex at h
    split at h
    · rcases bind_eq_error.mp h with h | ⟨t, -, h⟩
      · exact getLogTermFromLogIndex_ne_identity h
      · rcases bind_eq_error.mp h with h | ⟨t', -, h⟩
        · exact getLogTermFromLogIndex_ne_identity h
        · split at h
          · exact pure_ne_error h
          · exact ih h
    · cases h

/-! ### What a leader looks up -/

theorem committableUpTo_some {me : Fin n} {index found : ℕ}
    (h : r.committableUpTo me index = .ok (some found)) :
    r.lastSnapshotIncludeIndex < found ∧ r.reachedByMajority me found ∧
      r.getLogTermFromLogIndex found = .ok r.currentTerm := by
  induction index with
  | zero => cases h
  | succ index ih =>
    unfold committableUpTo at h
    split at h
    · rename_i hbeyond
      split at h
      · rename_i hreached
        obtain ⟨t, ht, h⟩ := bind_eq_ok.mp h
        split at h
        · rename_i hterm
          cases h
          exact ⟨hbeyond, hreached, hterm ▸ ht⟩
        · exact ih h
      · exact ih h
    · cases h

/-- The search stops at the first index it may commit. -/
theorem le_committableUpTo {me : Fin n} {top index : ℕ} {found : Option ℕ}
    (h : r.committableUpTo me top = .ok found) (hle : index ≤ top)
    (hlt : r.lastSnapshotIncludeIndex < index) (hreached : r.reachedByMajority me index)
    (hterm : r.getLogTermFromLogIndex index = .ok r.currentTerm) :
    ∃ largest, found = some largest ∧ index ≤ largest := by
  induction top with
  | zero => omega
  | succ top ih =>
    unfold committableUpTo at h
    rw [if_pos (by omega)] at h
    rcases Nat.eq_or_lt_of_le hle with rfl | hbelow
    · rw [if_pos hreached, hterm] at h
      change (if _ then _ else _) = _ at h
      rw [if_pos rfl] at h
      cases h
      exact ⟨_, rfl, le_refl _⟩
    · split at h
      · obtain ⟨t, -, h⟩ := bind_eq_ok.mp h
        split at h
        · cases h
          exact ⟨_, rfl, hle⟩
        · exact ih h (by omega)
      · exact ih h (by omega)

theorem getPrevLogInfo_cases {server : Fin n} {index term : ℕ}
    (h : r.getPrevLogInfo server = .ok (index, term)) :
    (index = r.lastSnapshotIncludeIndex ∧ term = r.lastSnapshotIncludeTerm) ∨
      ∃ e, r.entryAt index = .ok e ∧ e.logTerm = term := by
  unfold getPrevLogInfo at h
  split at h
  · cases h
    exact Or.inl ⟨rfl, rfl⟩
  · obtain ⟨e, he, h⟩ := bind_eq_ok.mp h
    cases h
    exact Or.inr ⟨e, he, rfl⟩

theorem entriesAfter_eq {preLogIndex : ℕ} {entries : List LogEntry}
    (h : r.entriesAfter preLogIndex = .ok entries) :
    entries = r.logs.drop (preLogIndex - r.lastSnapshotIncludeIndex) := by
  unfold entriesAfter at h
  split at h
  · obtain ⟨slice, hslice, h⟩ := bind_eq_ok.mp h
    obtain ⟨hlt, -, rfl⟩ := getSlicesIndexFromLogIndex_eq_ok.mp hslice
    cases h
    congr 1
    omega
  · rename_i heq
    cases h
    simp [not_not.mp heq]

/-- An append request carries what follows `prevLogIndex` in the log of the leader. -/
theorem heartBeatTo_some {me server : Fin n} {args : AppendEntriesArgs n}
    (h : r.heartBeatTo me server = .ok (some args)) :
    args.term = r.currentTerm ∧ args.leaderId = me ∧ args.leaderCommit = r.commitIndex ∧
      args.prevLogIndex + args.entries.length = r.getLastLogIndex ∧
      args.entries = r.logs.drop (args.prevLogIndex - r.lastSnapshotIncludeIndex) ∧
      ((args.prevLogIndex = r.lastSnapshotIncludeIndex ∧
          args.prevLogTerm = r.lastSnapshotIncludeTerm) ∨
        ∃ e, r.entryAt args.prevLogIndex = .ok e ∧ e.logTerm = args.prevLogTerm) := by
  unfold heartBeatTo at h
  obtain ⟨_, -, h⟩ := bind_eq_ok.mp h
  split at h
  · cases h
  · obtain ⟨⟨index, term⟩, hprev, h⟩ := bind_eq_ok.mp h
    obtain ⟨entries, hentries, h⟩ := bind_eq_ok.mp h
    obtain ⟨_, hlen, h⟩ := bind_eq_ok.mp h
    rw [myAssert_eq_ok] at hlen
    cases h
    exact ⟨rfl, rfl, rfl, hlen, entriesAfter_eq hentries, getPrevLogInfo_cases hprev⟩

/-- A request starts below the `nextIndex` of its peer. -/
theorem heartBeatTo_prevLogIndex {me server : Fin n} {args : AppendEntriesArgs n}
    (h : r.heartBeatTo me server = .ok (some args)) :
    args.prevLogIndex + 1 = r.nextIndex server := by
  unfold heartBeatTo at h
  obtain ⟨_, hone, h⟩ := bind_eq_ok.mp h
  rw [myAssert_eq_ok] at hone
  split at h
  · cases h
  · obtain ⟨⟨index, term⟩, hprev, h⟩ := bind_eq_ok.mp h
    obtain ⟨entries, -, h⟩ := bind_eq_ok.mp h
    obtain ⟨_, -, h⟩ := bind_eq_ok.mp h
    cases h
    show index + 1 = _
    unfold getPrevLogInfo at hprev
    split at hprev
    · rename_i hnext
      cases hprev
      exact hnext.symm
    · obtain ⟨e, -, hprev⟩ := bind_eq_ok.mp hprev
      cases hprev
      omega

theorem heartBeatTo_none {me server : Fin n} (h : r.heartBeatTo me server = .ok none) :
    1 ≤ r.nextIndex server ∧ r.nextIndex server ≤ r.lastSnapshotIncludeIndex := by
  unfold heartBeatTo at h
  obtain ⟨_, hone, h⟩ := bind_eq_ok.mp h
  rw [myAssert_eq_ok] at hone
  split at h
  · exact ⟨hone, ‹_›⟩
  · obtain ⟨_, -, h⟩ := bind_eq_ok.mp h
    obtain ⟨_, -, h⟩ := bind_eq_ok.mp h
    obtain ⟨_, -, h⟩ := bind_eq_ok.mp h
    cases h

theorem heartBeats_mem {me : Fin n} {servers : List (Fin n)}
    {sent : List (Fin n × Option (AppendEntriesArgs n))} (h : r.heartBeats me servers = .ok sent)
    {server : Fin n} {request : Option (AppendEntriesArgs n)} (hmem : (server, request) ∈ sent) :
    server ∈ servers ∧ r.heartBeatTo me server = .ok request := by
  induction servers generalizing sent with
  | nil =>
    cases h
    cases hmem
  | cons first servers ih =>
    obtain ⟨req, hreq, h⟩ := bind_eq_ok.mp h
    obtain ⟨rest, hrest, h⟩ := bind_eq_ok.mp h
    cases h
    rcases List.mem_cons.mp hmem with heq | hmem
    · cases heq
      exact ⟨List.mem_cons_self, hreq⟩
    · obtain ⟨hin, hto⟩ := ih hrest hmem
      exact ⟨List.mem_cons_of_mem _ hin, hto⟩

/-- A leader sends to its peers what `heartBeatTo` gives, and nobody else sends. -/
theorem doHeartBeat_cases {me : Fin n}
    {result : Option (List (Fin n × Option (AppendEntriesArgs n)))}
    (h : r.doHeartBeat me = .ok result) :
    (r.status ≠ .leader ∧ result = none) ∨
      (r.status = .leader ∧ ∃ sent, result = some sent ∧
        ∀ server request, (server, request) ∈ sent →
          server ≠ me ∧ r.heartBeatTo me server = .ok request) := by
  unfold doHeartBeat at h
  split at h
  · rename_i hlead
    obtain ⟨sent, hsent, h⟩ := bind_eq_ok.mp h
    cases h
    refine Or.inr ⟨hlead, sent, rfl, fun server request hmem ↦ ?_⟩
    obtain ⟨hin, hto⟩ := heartBeats_mem hsent hmem
    exact ⟨by simpa using (List.mem_filter.mp hin).2, hto⟩
  · cases h
    exact Or.inl ⟨‹_›, rfl⟩

end Positions

/-! ### Elections -/

section Handlers

variable [Codec LogEntry] [Codec (BoostPersistRaftNode n)] {r r' : Raft n}

theorem doElection_cases (r : Raft n) (me : Fin n) :
    (r.status = .leader ∧ r.doElection me = (r, none)) ∨
      (r.status ≠ .leader ∧ n = 1 ∧
        r.doElection me = ((r.stand me).persist.becomeLeader.persist, none)) ∨
      (r.status ≠ .leader ∧ n ≠ 1 ∧
        r.doElection me = ((r.stand me).persist, some
          { term := r.currentTerm + 1
            candidateId := me
            lastLogIndex := r.getLastLogIndex
            lastLogTerm := r.getLastLogTerm })) := by
  unfold doElection
  by_cases hlead : r.status = .leader
  · exact Or.inl ⟨hlead, if_pos hlead⟩
  · rw [if_neg hlead]
    by_cases hone : n = 1
    · exact Or.inr (Or.inl ⟨hlead, hone, if_pos hone⟩)
    · exact Or.inr (Or.inr ⟨hlead, hone, if_neg hone⟩)

/-- A vote request is outdated, refused, or granted by a server that has no other vote in its term
and whose log is not ahead of the candidate's. -/
theorem requestVote_cases {args : RequestVoteArgs n} {reply : RequestVoteReply}
    (h : r.requestVote args = .ok (r', reply)) :
    (args.term < r.currentTerm ∧ r' = r.persist ∧ reply.voteGranted = false) ∨
      (r.currentTerm ≤ args.term ∧ r' = (r.enterTerm args.term).persist ∧
        reply.voteGranted = false) ∨
      (r.currentTerm ≤ args.term ∧ r.upToDate args.lastLogIndex args.lastLogTerm ∧
        ((r.enterTerm args.term).votedFor = none ∨
          (r.enterTerm args.term).votedFor = some args.candidateId) ∧
        r' = persist { r.enterTerm args.term with votedFor := some args.candidateId } ∧
        reply = { term := args.term, voteGranted := true, voteState := .normal }) := by
  unfold requestVote at h
  by_cases hold : args.term < r.currentTerm
  · rw [if_pos hold] at h
    cases h
    exact Or.inl ⟨hold, rfl, rfl⟩
  · have hle : r.currentTerm ≤ args.term := by omega
    rw [if_neg hold] at h
    obtain ⟨-, -, h⟩ := bind_eq_ok.mp h
    have hup : (r.enterTerm args.term).upToDate args.lastLogIndex args.lastLogTerm ↔
        r.upToDate args.lastLogIndex args.lastLogTerm := by
      simp [upToDate, getLastLogTerm, getLastLogIndex, getLastLogIndexAndTerm]
    split at h
    · cases h
      exact Or.inr (Or.inl ⟨hle, rfl, rfl⟩)
    · rename_i hnewer
      split at h
      · cases h
        exact Or.inr (Or.inl ⟨hle, rfl, rfl⟩)
      · rename_i hfree
        cases h
        refine Or.inr (Or.inr ⟨hle, hup.mp (not_not.mp hnewer), ?_, rfl, ?_⟩)
        · tauto
        · rw [r.enterTerm_currentTerm _ hle]

theorem sendRequestVote_cases {reply : RequestVoteReply} {votedNum votedNum' : ℕ}
    (h : r.sendRequestVote reply votedNum = .ok (r', votedNum')) :
    (r.currentTerm < reply.term ∧ r' = (r.stepDown reply.term).persist ∧ votedNum' = votedNum) ∨
      (r' = r ∧ votedNum' = votedNum) ∨
      (reply.term = r.currentTerm ∧ reply.voteGranted = true ∧ votedNum + 1 < n / 2 + 1 ∧ r' = r ∧
        votedNum' = votedNum + 1) ∨
      (reply.term = r.currentTerm ∧ reply.voteGranted = true ∧ n / 2 + 1 ≤ votedNum + 1 ∧
        r.status ≠ .leader ∧ r' = r.becomeLeader.persist ∧ votedNum' = 0) := by
  unfold sendRequestVote at h
  split at h
  · cases h
    exact Or.inl ⟨‹_›, rfl, rfl⟩
  · split at h
    · cases h
      exact Or.inr (Or.inl ⟨rfl, rfl⟩)
    · obtain ⟨_, hterm, h⟩ := bind_eq_ok.mp h
      rw [myAssert_eq_ok] at hterm
      split at h
      · cases h
        exact Or.inr (Or.inl ⟨rfl, rfl⟩)
      · rename_i hgranted
        rw [not_not] at hgranted
        split at h
        · split at h
          · cases h
          · cases h
            exact Or.inr (Or.inr (Or.inr ⟨hterm, hgranted, ‹_›, ‹_›, rfl, rfl⟩))
        · cases h
          exact Or.inr (Or.inr (Or.inl ⟨hterm, hgranted, by omega, rfl, rfl⟩))

theorem sendRequestVote_leaderTwice {reply : RequestVoteReply} {votedNum : ℕ}
    (h : r.sendRequestVote reply votedNum = .error .leaderTwice) :
    reply.term = r.currentTerm ∧ reply.voteGranted = true ∧ n / 2 + 1 ≤ votedNum + 1 ∧
      r.status = .leader := by
  unfold sendRequestVote at h
  split at h
  · cases h
  · split at h
    · cases h
    · rcases bind_eq_error.mp h with hassert | ⟨_, hterm, h⟩
      · cases (myAssert_eq_error.mp hassert).2
      · rw [myAssert_eq_ok] at hterm
        split at h
        · cases h
        · rename_i hgranted
          split at h
          · split at h
            · exact ⟨hterm, not_not.mp hgranted, ‹_›, ‹_›⟩
            · cases h
          · cases h

/-! ### Replication, the leader's side -/

/-- A leader appends one entry, and then sets its commit index to what `committableUpTo` finds, or
to the snapshot. -/
theorem start_cases {me : Fin n} {command : String} {result : Option (ℕ × ℕ)}
    (h : r.start me command = .ok (r', result)) :
    (r.status ≠ .leader ∧ r' = r ∧ result = none) ∨
      (r.status = .leader ∧ ∃ e q found,
        e = { command := command, logTerm := r.currentTerm, logIndex := r.getLastLogIndex + 1 } ∧
        q = persist { r with logs := r.logs ++ [e] } ∧
        q.committableUpTo me q.getLastLogIndex = .ok found ∧
        r' = { q with commitIndex := found.getD r.lastSnapshotIncludeIndex } ∧
        result = some (r.getLastLogIndex + 1, r.currentTerm)) := by
  unfold start at h
  split at h
  · cases h
    exact Or.inl ⟨‹_›, rfl, rfl⟩
  · rename_i hlead
    obtain ⟨q', hq, h⟩ := bind_eq_ok.mp h
    obtain ⟨found, hfound, hq⟩ := bind_eq_ok.mp hq
    cases hq
    cases h
    exact Or.inr ⟨not_not.mp hlead, _, _, found, rfl, rfl, hfound, rfl, rfl⟩

omit [Codec LogEntry] [Codec (BoostPersistRaftNode n)] in
/-- The answer to an append request is not for the server as it is, teaches it a later term, moves
`nextIndex`, or is a success. A success counts, and the success that makes a majority commits the
request when the request ends in the present term. -/
theorem sendAppendEntries_cases {server : Fin n} {args : AppendEntriesArgs n}
    {reply : AppendEntriesReply} {appendNums appendNums' : ℕ}
    (h : r.sendAppendEntries server args reply appendNums = .ok (r', appendNums')) :
    (r' = r ∧ appendNums' = appendNums) ∨
      (reply.appState = .appNormal ∧ r.currentTerm < reply.term ∧ r' = r.stepDown reply.term ∧
        appendNums' = appendNums) ∨
      (r.status = .leader ∧ reply.term = r.currentTerm ∧ reply.success = false ∧
        appendNums' = appendNums ∧ ∃ index, reply.updateNextIndex = some index ∧
          r' = { r with nextIndex := Function.update r.nextIndex server index }) ∨
      (r.status = .leader ∧ reply.term = r.currentTerm ∧ reply.success = true ∧
        ∃ reached, reached = max (r.matchIndex server) (args.prevLogIndex + args.entries.length) ∧
          reached ≤ r.getLastLogIndex ∧
          ((r' = r.setMatchIndex server reached ∧
              (appendNums' = appendNums + 1 ∨ appendNums' = 0) ∧
              (n / 2 + 1 ≤ appendNums + 1 →
                args.entries.getLast?.map LogEntry.logTerm ≠ some r.currentTerm)) ∨
            (n / 2 + 1 ≤ appendNums + 1 ∧ appendNums' = 0 ∧
              args.entries.getLast?.map LogEntry.logTerm = some r.currentTerm ∧
              r' = { r.setMatchIndex server reached with
                commitIndex := max r.commitIndex (args.prevLogIndex + args.entries.length) }))) := by
  unfold sendAppendEntries at h
  split at h
  · cases h
    exact Or.inl ⟨rfl, rfl⟩
  rename_i hstate
  have hnormal : reply.appState = .appNormal := by
    cases hs : reply.appState with
    | disconnected => exact absurd hs hstate
    | appNormal => rfl
  split at h
  · cases h
    exact Or.inr (Or.inl ⟨hnormal, ‹_›, rfl, rfl⟩)
  split at h
  · cases h
    exact Or.inl ⟨rfl, rfl⟩
  split at h
  · cases h
    exact Or.inl ⟨rfl, rfl⟩
  rename_i hlead
  have hlead : r.status = .leader := not_not.mp hlead
  obtain ⟨_, hterm, h⟩ := bind_eq_ok.mp h
  rw [myAssert_eq_ok] at hterm
  split at h
  · rename_i hfail
    split at h
    · cases h
      exact Or.inl ⟨rfl, rfl⟩
    · rename_i index hindex
      cases h
      exact Or.inr (Or.inr (Or.inl ⟨hlead, hterm, by simpa using hfail, rfl, index, hindex, rfl⟩))
  · rename_i hsuccess
    obtain ⟨_, hreached, h⟩ := bind_eq_ok.mp h
    rw [myAssert_eq_ok] at hreached
    refine Or.inr (Or.inr (Or.inr ⟨hlead, hterm, not_not.mp hsuccess, _, rfl,
      Nat.le_of_succ_le_succ hreached, ?_⟩))
    split at h
    · rename_i hmajority
      obtain ⟨_, -, h⟩ := bind_eq_ok.mp h
      cases h
      split
      · exact Or.inr ⟨by omega, rfl, ‹_›, rfl⟩
      · exact Or.inl ⟨rfl, Or.inr rfl, fun _ ↦ ‹_›⟩
    · cases h
      exact Or.inl ⟨rfl, Or.inl rfl, fun hmajority ↦ by omega⟩

/-! ### Replication, the follower's side -/

omit [Codec LogEntry] [Codec (BoostPersistRaftNode n)] in
/-- Merging changes nothing but the log. -/
theorem mergeEntries_logs {entries : List LogEntry} (h : r.mergeEntries entries = .ok r') :
    r' = { r with logs := r'.logs } := by
  induction entries generalizing r with
  | nil =>
    cases h
    rfl
  | cons log entries ih =>
    obtain ⟨q, hq, h⟩ := bind_eq_ok.mp h
    have hlogs : q = { r with logs := q.logs } := by
      unfold mergeEntry at hq
      split at hq
      · cases hq
        rfl
      · obtain ⟨slice, -, hq⟩ := bind_eq_ok.mp hq
        obtain ⟨old, -, hq⟩ := bind_eq_ok.mp hq
        split at hq
        · cases hq
        · split at hq
          · cases hq
            rfl
          · cases hq
            rfl
    rw [ih h, hlogs]

/-- An append request is outdated, refused, or accepted when its `prevLogIndex` matches; accepted
entries are merged and the commit index follows that of the leader. -/
theorem appendEntries_cases {args : AppendEntriesArgs n} {reply : AppendEntriesReply}
    (h : r.appendEntries args = .ok (r', reply)) :
    (args.term < r.currentTerm ∧ r' = r ∧ reply.success = false) ∨
      (r.currentTerm ≤ args.term ∧ reply.success = false ∧
        r' = (r.enterTerm args.term).asFollower.persist) ∨
      (r.currentTerm ≤ args.term ∧ reply.success = true ∧ reply.term = args.term ∧
        r.getLogTermFromLogIndex args.prevLogIndex = .ok args.prevLogTerm ∧
        ∃ q, (r.enterTerm args.term).asFollower.mergeEntries args.entries = .ok q ∧
          args.prevLogIndex + args.entries.length ≤ q.getLastLogIndex ∧
          r' = persist { q with commitIndex :=
            if q.commitIndex < args.leaderCommit then min args.leaderCommit q.getLastLogIndex
            else q.commitIndex }) := by
  unfold appendEntries at h
  by_cases hold : args.term < r.currentTerm
  · simp only [if_pos hold] at h
    cases h
    exact Or.inl ⟨hold, rfl, rfl⟩
  · have hle : r.currentTerm ≤ args.term := by omega
    simp only [if_neg hold] at h
    obtain ⟨_, -, h⟩ := bind_eq_ok.mp h
    split at h
    · cases h
      exact Or.inr (Or.inl ⟨hle, rfl, rfl⟩)
    · obtain ⟨matched, hmatched, h⟩ := bind_eq_ok.mp h
      split at h
      · rename_i htrue
        obtain ⟨q, hq, h⟩ := bind_eq_ok.mp h
        obtain ⟨_, hlen, h⟩ := bind_eq_ok.mp h
        obtain ⟨_, -, h⟩ := bind_eq_ok.mp h
        rw [myAssert_eq_ok] at hlen
        have hterm : r.getLogTermFromLogIndex args.prevLogIndex = .ok args.prevLogTerm := by
          rw [htrue, matchLog_eq_true] at hmatched
          rw [← hmatched]
          exact getLogTermFromLogIndex_congr (by simp) (by simp) (by simp) _
        cases h
        refine Or.inr (Or.inr ⟨hle, rfl, r.enterTerm_currentTerm _ hle ▸ ?_, hterm, q, hq, hlen, ?_⟩)
        · rw [mergeEntries_logs hq]
          split <;> rfl
        · split <;> rfl
      · obtain ⟨update, -, h⟩ := bind_eq_ok.mp h
        cases h
        exact Or.inr (Or.inl ⟨hle, rfl, rfl⟩)

omit [Codec LogEntry] [Codec (BoostPersistRaftNode n)] in
/-- The index that a refused request is answered with is not beyond the request. -/
theorem conflictIndex_le {prevLogIndex index update : ℕ} (hle : index ≤ prevLogIndex)
    (h : r.conflictIndex prevLogIndex index = .ok update) : update ≤ prevLogIndex + 1 := by
  induction index with
  | zero =>
    unfold conflictIndex at h
    split at h
    · obtain ⟨t, -, h⟩ := bind_eq_ok.mp h
      obtain ⟨t', -, h⟩ := bind_eq_ok.mp h
      cases h
      split <;> omega
    · cases h
      omega
  | succ index ih =>
    unfold conflictIndex at h
    split at h
    · obtain ⟨t, -, h⟩ := bind_eq_ok.mp h
      obtain ⟨t', -, h⟩ := bind_eq_ok.mp h
      split at h
      · cases h
        omega
      · exact ih (by omega) h
    · cases h
      omega

/-- What a leader learns from a refusal. -/
theorem appendEntries_updateNextIndex {args : AppendEntriesArgs n} {reply : AppendEntriesReply}
    {index : ℕ} (h : r.appendEntries args = .ok (r', reply)) (hfail : reply.success = false)
    (hindex : reply.updateNextIndex = some index) :
    reply.term = args.term ∧ index ≤ args.prevLogIndex + 1 := by
  unfold appendEntries at h
  by_cases hold : args.term < r.currentTerm
  · simp only [if_pos hold] at h
    cases h
    cases hindex
  · simp only [if_neg hold] at h
    obtain ⟨_, hterm, h⟩ := bind_eq_ok.mp h
    rw [myAssert_eq_ok] at hterm
    split at h
    · rename_i hshort
      cases h
      cases hindex
      exact ⟨hterm.symm, by omega⟩
    · obtain ⟨matched, -, h⟩ := bind_eq_ok.mp h
      split at h
      · obtain ⟨q, -, h⟩ := bind_eq_ok.mp h
        obtain ⟨_, -, h⟩ := bind_eq_ok.mp h
        obtain ⟨_, -, h⟩ := bind_eq_ok.mp h
        cases h
        cases hfail
      · obtain ⟨update, hupdate, h⟩ := bind_eq_ok.mp h
        cases h
        cases hindex
        exact ⟨hterm.symm, conflictIndex_le (le_refl _) hupdate⟩

/-- The identity check fails while the entries of a matching request are merged, and nowhere else.
-/
theorem appendEntries_identity {args : AppendEntriesArgs n}
    (h : r.appendEntries args = .error .sameTermOtherCommand) :
    r.getLogTermFromLogIndex args.prevLogIndex = .ok args.prevLogTerm ∧
      (r.enterTerm args.term).asFollower.mergeEntries args.entries =
        .error .sameTermOtherCommand := by
  unfold appendEntries at h
  by_cases hold : args.term < r.currentTerm
  · simp only [if_pos hold] at h
    cases h
  · simp only [if_neg hold] at h
    rcases bind_eq_error.mp h with h | ⟨_, -, h⟩
    · cases (myAssert_eq_error.mp h).2
    split at h
    · exact absurd h pure_ne_error
    · rcases bind_eq_error.mp h with h | ⟨matched, hmatched, h⟩
      · exact absurd h matchLog_ne_identity
      split at h
      · rename_i htrue
        rw [htrue, matchLog_eq_true] at hmatched
        refine ⟨?_, ?_⟩
        · rw [← hmatched]
          exact getLogTermFromLogIndex_congr (by simp) (by simp) (by simp) _
        · rcases bind_eq_error.mp h with h | ⟨q, -, h⟩
          · exact h
          · rcases bind_eq_error.mp h with h | ⟨_, -, h⟩
            · cases (myAssert_eq_error.mp h).2
            · rcases bind_eq_error.mp h with h | ⟨_, -, h⟩
              · cases (myAssert_eq_error.mp h).2
              · exact absurd h pure_ne_error
      · rcases bind_eq_error.mp h with h | ⟨update, -, h⟩
        · exact absurd h conflictIndex_ne_identity
        · exact absurd h pure_ne_error

/-! ### Applying -/

omit [Codec LogEntry] [Codec (BoostPersistRaftNode n)] in
theorem applyFrom_mem {count lastApplied : ℕ} {msgs : List ApplyMsg}
    (h : r.applyFrom count lastApplied = .ok msgs) {msg : ApplyMsg} (hmem : msg ∈ msgs) :
    ∃ index e, lastApplied < index ∧ index ≤ lastApplied + count ∧ r.entryAt index = .ok e ∧
      msg = { commandValid := true, command := e.command, commandIndex := (index : ℤ) } := by
  induction count generalizing lastApplied msgs with
  | zero =>
    cases h
    cases hmem
  | succ count ih =>
    obtain ⟨e, he, h⟩ := bind_eq_ok.mp h
    obtain ⟨_, -, h⟩ := bind_eq_ok.mp h
    obtain ⟨rest, hrest, h⟩ := bind_eq_ok.mp h
    cases h
    rcases List.mem_cons.mp hmem with rfl | hmem
    · exact ⟨lastApplied + 1, e, by omega, by omega, he, rfl⟩
    · obtain ⟨index, a, hlt, hle, ha, hmsg⟩ := ih hrest hmem
      exact ⟨index, a, by omega, by omega, ha, hmsg⟩

omit [Codec LogEntry] [Codec (BoostPersistRaftNode n)] in
/-- The messages carry the entries between `lastApplied` and the commit index. -/
theorem getApplyLogs_cases {msgs : List ApplyMsg} (h : r.getApplyLogs = .ok (r', msgs)) :
    r' = { r with lastApplied := max r.lastApplied r.commitIndex } ∧
      ∀ msg ∈ msgs, ∃ index e, r.lastApplied < index ∧ index ≤ r.commitIndex ∧
        r.entryAt index = .ok e ∧
        msg = { commandValid := true, command := e.command, commandIndex := (index : ℤ) } := by
  obtain ⟨_, -, h⟩ := bind_eq_ok.mp h
  obtain ⟨msgs', hmsgs, h⟩ := bind_eq_ok.mp h
  cases h
  refine ⟨rfl, fun msg hmem ↦ ?_⟩
  obtain ⟨index, e, hlt, hle, he, hmsg⟩ := applyFrom_mem hmsgs hmem
  exact ⟨index, e, hlt, by omega, he, hmsg⟩

/-! ### Snapshots -/

theorem snapshot_cases {index : ℕ} {data : String} (h : r.snapshot index data = .ok r') :
    r' = r ∨
      (r.lastSnapshotIncludeIndex < index ∧ index ≤ r.commitIndex ∧ ∃ e logs q,
        r.entryAt index = .ok e ∧
        r.entriesFrom (r.getLastLogIndex - index) (index + 1) = .ok logs ∧
        q = { r with
              lastSnapshotIncludeIndex := index
              lastSnapshotIncludeTerm := e.logTerm
              logs := logs
              commitIndex := max r.commitIndex index
              lastApplied := max r.lastApplied index } ∧
        r' = { q with persister := q.persister.save q.persistData data }) := by
  unfold snapshot at h
  split at h
  · cases h
    exact Or.inl rfl
  · rename_i hrange
    obtain ⟨e, he, h⟩ := bind_eq_ok.mp h
    obtain ⟨logs, hlogs, h⟩ := bind_eq_ok.mp h
    obtain ⟨_, -, h⟩ := bind_eq_ok.mp h
    cases h
    exact Or.inr ⟨by omega, by omega, e, logs, _, he, hlogs, rfl, rfl⟩

theorem leaderSendSnapShotReply_cases (r : Raft n) (server : Fin n)
    (args : InstallSnapshotRequest n) (reply : InstallSnapshotResponse) :
    r.leaderSendSnapShotReply server args reply = r ∨
      (r.currentTerm < reply.term ∧
        r.leaderSendSnapShotReply server args reply = (r.stepDown reply.term).persist) ∨
      (r.status = .leader ∧ r.currentTerm = args.term ∧ reply.term ≤ r.currentTerm ∧
        r.leaderSendSnapShotReply server args reply =
          r.setMatchIndex server args.lastSnapshotIncludeIndex) := by
  unfold leaderSendSnapShotReply
  split
  · exact Or.inl rfl
  · rename_i hleads
    rw [not_or, not_not, not_not] at hleads
    split
    · exact Or.inr (Or.inl ⟨‹_›, rfl⟩)
    · exact Or.inr (Or.inr ⟨hleads.1, hleads.2, by omega, rfl⟩)

/-- A snapshot is outdated, covers nothing new, or replaces the log up to its index. -/
theorem installSnapshot_cases {args : InstallSnapshotRequest n} {reply : InstallSnapshotResponse}
    {msg : Option ApplyMsg} (h : r.installSnapshot args = .ok (r', reply, msg)) :
    (args.term < r.currentTerm ∧ r' = r) ∨
      ∃ p, ((r.currentTerm < args.term ∧ p = (r.stepDown args.term).persist) ∨
          (r.currentTerm = args.term ∧ p = r)) ∧
        ((args.lastSnapshotIncludeIndex ≤ r.lastSnapshotIncludeIndex ∧ r' = p.asFollower) ∨
          (r.lastSnapshotIncludeIndex < args.lastSnapshotIncludeIndex ∧ ∃ logs q,
            p.logsBeyond args.lastSnapshotIncludeIndex = .ok logs ∧
            q = { p.asFollower with
                  logs := logs
                  commitIndex := max p.commitIndex args.lastSnapshotIncludeIndex
                  lastApplied := max p.lastApplied args.lastSnapshotIncludeIndex
                  lastSnapshotIncludeIndex := args.lastSnapshotIncludeIndex
                  lastSnapshotIncludeTerm := args.lastSnapshotIncludeTerm } ∧
            r' = { q with persister := q.persister.save q.persistData args.data })) := by
  unfold installSnapshot at h
  by_cases hold : args.term < r.currentTerm
  · rw [if_pos hold] at h
    cases h
    exact Or.inl ⟨hold, rfl⟩
  · rw [if_neg hold] at h
    right
    by_cases hlater : r.currentTerm < args.term
    · simp only [if_pos hlater] at h
      refine ⟨_, Or.inl ⟨hlater, rfl⟩, ?_⟩
      split at h
      · cases h
        exact Or.inl ⟨‹_›, rfl⟩
      · rename_i hnew
        obtain ⟨logs, hlogs, h⟩ := bind_eq_ok.mp h
        cases h
        exact Or.inr ⟨by simpa using hnew, logs, _, hlogs, rfl, rfl⟩
    · simp only [if_neg hlater] at h
      refine ⟨_, Or.inr ⟨by omega, rfl⟩, ?_⟩
      split at h
      · cases h
        exact Or.inl ⟨‹_›, rfl⟩
      · rename_i hnew
        obtain ⟨logs, hlogs, h⟩ := bind_eq_ok.mp h
        cases h
        exact Or.inr ⟨by simpa using hnew, logs, _, hlogs, rfl, rfl⟩

/-- A snapshot is refused in a later term, or the server covers its index afterwards. -/
theorem installSnapshot_reply {args : InstallSnapshotRequest n} {reply : InstallSnapshotResponse}
    {msg : Option ApplyMsg} (h : r.installSnapshot args = .ok (r', reply, msg)) :
    args.term < reply.term ∨ args.lastSnapshotIncludeIndex ≤ r'.lastSnapshotIncludeIndex := by
  rcases installSnapshot_cases h with ⟨hold, -⟩ | ⟨p, hp, hr⟩
  · unfold installSnapshot at h
    rw [if_pos hold] at h
    cases h
    exact Or.inl hold
  · right
    rcases hr with ⟨hle, rfl⟩ | ⟨-, logs, q, -, rfl, rfl⟩
    · rcases hp with ⟨-, rfl⟩ | ⟨-, rfl⟩ <;> exact hle
    · exact le_refl _

end Handlers

end Raft

end Rsylar
