import Rsylar.Raft.Archive
import Rsylar.Raft.Replication

/-!
# State machine safety

Log matching, leader completeness and state machine safety of the runs without restarts and
snapshots. All three hold as long as no append request leaves a stale tail (`NoStaleTail`), and all
three fail in `staleTailRun`, where one request does. There server 1 holds `a b d` of term 1 when
the leader of term 4 sends it `x y`: two entries are overwritten, the third stays. Its last entry
`d` then gives server 2, which never saw `x y`, the vote and the log matching check it needs, and
server 2 commits `a b d` where server 0 has committed `x y`.
-/

set_option autoImplicit false
set_option relaxedAutoImplicit false

namespace Rsylar

open TextArchive TransitionSystem Consensus

variable {n : ℕ}

/-! ### Two runs -/

section Examples

open scoped Archive

/-- The granted vote of term `term`. -/
def voteOf (term : ℕ) : RequestVoteReply :=
  { term := term, voteGranted := true, voteState := .normal }

def accepted (term : ℕ) : AppendEntriesReply :=
  { term := term, success := true, appState := .appNormal }

def refused (term updateNextIndex : ℕ) : AppendEntriesReply :=
  { term := term, success := false, updateNextIndex := some updateNextIndex, appState := .appNormal }

/-- Five terms of three servers. Servers 2, 0, 2, 0, 2 lead them with the vote of server 1. -/
def staleTail : List (Action 3) :=
  [.doElection 2, .requestVote 0 1, .sendRequestVote 0 1 (voteOf 1),
    .start 2 "a", .start 2 "b", .start 2 "d",
    .doElection 0, .doElection 0, .requestVote 2 1, .requestVote 2 2,
    .sendRequestVote 2 1 (voteOf 2), .start 0 "x",
    .doElection 2, .requestVote 3 1, .sendRequestVote 3 1 (voteOf 3),
    .doHeartBeat 2, .appendEntries 0 0, .appendEntries 0 1, .sendAppendEntries 0 1 (refused 3 1),
    .doHeartBeat 2, .appendEntries 1 1,
    .doElection 0, .requestVote 4 1, .sendRequestVote 4 1 (voteOf 4), .start 0 "y",
    .doHeartBeat 0, .appendEntries 2 1, .appendEntries 2 2, .sendAppendEntries 2 1 (refused 4 1),
    -- server 1 keeps `d`, and server 0 commits `x y`
    .doHeartBeat 0, .appendEntries 3 1, .sendAppendEntries 3 1 (accepted 4), .getApplyLogs 0,
    .doElection 2, .requestVote 5 1, .sendRequestVote 5 1 (voteOf 5), .start 2 "z",
    .doHeartBeat 2, .appendEntries 4 1, .sendAppendEntries 4 1 (accepted 5), .getApplyLogs 2]

def staleTailRun : Run (raft 3) :=
  Run.ofActions (raft 3) staleTail (by decide +kernel)

theorem staleTailRun_coreOnly : staleTailRun.Obeys CoreOnly :=
  Run.obeys_ofActions _ _ (by simp [staleTail, CoreOnly])

end Examples

section Runs

variable [Codec LogEntry] [Codec (BoostPersistRaftNode n)]

/-! ### Log matching -/

/-- Servers `a` and `b` hold entries of the same index and term; below that index their logs agree.
-/
def LogMatching (s : Cluster n) : Prop :=
  ∀ a b, ∀ e ∈ (s.servers a).logs, ∀ e' ∈ (s.servers b).logs, e.logIndex = e'.logIndex →
    e.logTerm = e'.logTerm → ∀ f ∈ (s.servers a).logs, ∀ f' ∈ (s.servers b).logs,
      f.logIndex = f'.logIndex → f.logIndex < e.logIndex →
        f.logTerm = f'.logTerm ∧ f.command = f'.command

/-- Log matching. In every run without restarts and snapshots in which no request leaves a stale
tail, every state has the log matching property. -/
theorem logMatching (r : Run (raft n)) (hr : r.Obeys CoreOnly) (hstale : r.Obeys NoStaleTail)
    (k : ℕ) : LogMatching (r.state k) := by
  have hinv := replicationInv_run r hr hstale k
  have hpos : ∀ i e, e ∈ ((r.state k).servers i).logs →
      ∃ m, ((r.state k).servers i).logs[m]? = some e ∧ e.logIndex = m + 1 := fun i e he ↦
    (mem_logs_iff (hinv.identity.numbered i) (hinv.servers i).snapshotIndex).mp he
  intro a b e he e' he' hindex hterm f hf f' hf' hfindex hlt
  obtain ⟨m, hm, hme⟩ := hpos a e he
  obtain ⟨m', hm', hme'⟩ := hpos b e' he'
  obtain ⟨j, hj, hjf⟩ := hpos a f hf
  obtain ⟨j', hj', hjf'⟩ := hpos b f' hf'
  obtain rfl : m = m' := by omega
  obtain rfl : j = j' := by omega
  have hsame := hinv.replica.take_eq (hinv.replica.ballot.seen_self a)
    (hinv.replica.ballot.seen_self b) hm hm' hterm
  have hfst : (((r.state k).servers a).logs.take (m + 1))[j]? = some f := by
    rw [List.getElem?_take_of_lt (by omega), hj]
  have hsnd : (((r.state k).servers b).logs.take (m + 1))[j]? = some f' := by
    rw [List.getElem?_take_of_lt (by omega), hj']
  have heq : f = f' := Option.some.inj (hfst.symm.trans ((congrArg (·[j]?) hsame).trans hsnd))
  rw [heq]
  exact ⟨rfl, rfl⟩

end Runs

section Examples

open scoped Archive

/-- Servers 1 and 2 hold `d` of term 1 with index 3, but `x` and `a` with index 1. -/
theorem logMatching_staleTail :
    ∃ r : Run (raft 3), r.Obeys CoreOnly ∧ ∃ k, ¬ LogMatching (r.state k) := by
  refine ⟨staleTailRun, staleTailRun_coreOnly, 31, fun hmatching ↦ ?_⟩
  have hagree := hmatching 1 2 ⟨"d", 1, 3⟩ (by decide +kernel) ⟨"d", 1, 3⟩ (by decide +kernel) rfl rfl
    ⟨"x", 2, 1⟩ (by decide +kernel) ⟨"a", 1, 1⟩ (by decide +kernel) rfl (by decide)
  exact absurd hagree.1 (by decide)

/-- Server 0 commits an entry, both servers apply it, and server 1 leads the next term. -/
def firstCommit : List (Action 2) :=
  [.doElection 0, .requestVote 0 1, .sendRequestVote 0 1 (voteOf 1), .start 0 "x",
    .doHeartBeat 0, .appendEntries 0 1, .sendAppendEntries 0 1 (accepted 1), .getApplyLogs 0,
    .doHeartBeat 0, .appendEntries 1 1, .getApplyLogs 1,
    .doElection 1, .requestVote 1 0, .sendRequestVote 1 0 (voteOf 2)]

def firstCommitRun : Run (raft 2) :=
  Run.ofActions (raft 2) firstCommit (by decide +kernel)

theorem firstCommitRun_coreOnly : firstCommitRun.Obeys CoreOnly :=
  Run.obeys_ofActions _ _ (by simp [firstCommit, CoreOnly])

theorem firstCommitRun_noStaleTail : firstCommitRun.Obeys NoStaleTail := by
  rw [firstCommitRun, Run.obeys_ofActions_iff]
  decide +kernel

theorem logMatching_firstCommit : LogMatching (firstCommitRun.state 14) :=
  logMatching firstCommitRun firstCommitRun_coreOnly firstCommitRun_noStaleTail 14

end Examples

/-! ### Leader completeness -/

theorem getElem?_of_take {l l' : List LogEntry} {c m : ℕ} {e : LogEntry}
    (h : l.take c <+: l') (hm : l[m]? = some e) (hlt : m < c) : l'[m]? = some e := by
  have htake : (l.take c)[m]? = some e := by rw [List.getElem?_take_of_lt hlt, hm]
  obtain ⟨hlen, -⟩ := List.getElem?_eq_some_iff.mp htake
  obtain ⟨rest, rfl⟩ := h
  rw [List.getElem?_append_left hlen, htake]

section Runs

variable [Codec LogEntry] [Codec (BoostPersistRaftNode n)]

/-- What a server has committed at one moment is decided at every later one. -/
theorem decided_past (r : Run (raft n)) (hr : r.Obeys CoreOnly) (hstale : r.Obeys NoStaleTail)
    {k m : ℕ} (hkm : k ≤ m) (i : Fin n) :
    Decided LogEntry.logTerm (r.past Cluster.view m) ((r.state k).servers i).currentTerm
      (((r.state k).servers i).logs.take ((r.state k).servers i).commitIndex) :=
  ((replicationInv_run r hr hstale k).servers i).decided.mono (r.past_mono Cluster.view hkm)
    (le_refl _)

/-- At moment `k` server `i` advances its commit index, as a leader of term `term`, over the entry
`e`. -/
def Commits (r : Run (raft n)) (k : ℕ) (i : Fin n) (term : ℕ) (e : LogEntry) : Prop :=
  ((r.state (k + 1)).servers i).status = .leader ∧
    ((r.state (k + 1)).servers i).currentTerm = term ∧
    ((r.state k).servers i).commitIndex < e.logIndex ∧
    e.logIndex ≤ ((r.state (k + 1)).servers i).commitIndex ∧
    e ∈ ((r.state (k + 1)).servers i).logs

/-- At moment `k` server `i` becomes a leader of term `term`. -/
def BecomesLeader (r : Run (raft n)) (k : ℕ) (i : Fin n) (term : ℕ) : Prop :=
  ((r.state k).servers i).status ≠ .leader ∧ ((r.state (k + 1)).servers i).status = .leader ∧
    ((r.state (k + 1)).servers i).currentTerm = term

/-- Who becomes a leader of a later term than the one an entry was committed in, before or after it
was, holds an entry with its index and its term. -/
def LeaderCompleteness (r : Run (raft n)) : Prop :=
  ∀ k i term e, Commits r k i term e → ∀ k' i' term', BecomesLeader r k' i' term' → term < term' →
    ∃ e' ∈ ((r.state (k' + 1)).servers i').logs,
      e'.logIndex = e.logIndex ∧ e'.logTerm = e.logTerm

/-- Leader completeness of every run without restarts and snapshots in which no request leaves a
stale tail. -/
theorem leaderCompleteness (r : Run (raft n)) (hr : r.Obeys CoreOnly)
    (hstale : r.Obeys NoStaleTail) : LeaderCompleteness r := by
  rintro k i term e ⟨-, rfl, -, hcommit, he⟩ k' i' term' ⟨-, hlead, rfl⟩ hlt
  have hinv := replicationInv_run r hr hstale (k + 1)
  have hlast := replicationInv_run r hr hstale (max (k + 1) (k' + 1))
  obtain ⟨m, hm, hindex⟩ :=
    (mem_logs_iff (hinv.identity.numbered i) (hinv.servers i).snapshotIndex).mp he
  have hdecided := decided_past r hr hstale (le_max_left (k + 1) (k' + 1)) i
  have hleader : LeaderLog (r.past Cluster.view (max (k + 1) (k' + 1))) i'
      ((r.state (k' + 1)).servers i').currentTerm ((r.state (k' + 1)).servers i').logs :=
    ⟨_, ⟨_, r.mem_past_of_le Cluster.view (le_max_right (k + 1) (k' + 1)), rfl⟩, rfl, hlead, rfl⟩
  have hpre := hlast.replica.decided_led hdecided hlt hleader
  exact ⟨e, List.mem_of_getElem? (getElem?_of_take hpre hm (by omega)), rfl, rfl⟩

end Runs

section Examples

open scoped Archive

/-- Server 0 commits `y` in term 4, and server 2 becomes the leader of term 5 with `a b d`. -/
theorem leaderCompleteness_staleTail :
    ∃ r : Run (raft 3), r.Obeys CoreOnly ∧ ¬ LeaderCompleteness r := by
  refine ⟨staleTailRun, staleTailRun_coreOnly, fun hcomplete ↦ ?_⟩
  have hcommits : Commits staleTailRun 31 0 4 ⟨"y", 4, 2⟩ := by
    unfold Commits
    decide +kernel
  have hleads : BecomesLeader staleTailRun 35 2 5 := by
    unfold BecomesLeader
    decide +kernel
  obtain ⟨e, he, hindex, hterm⟩ := hcomplete 31 0 4 _ hcommits 35 2 5 hleads (by decide)
  have hlogs : ((staleTailRun.state 36).servers 2).logs =
      [⟨"a", 1, 1⟩, ⟨"b", 1, 2⟩, ⟨"d", 1, 3⟩] := by decide +kernel
  rw [hlogs] at he
  simp only [List.mem_cons, List.not_mem_nil, or_false] at he
  rcases he with rfl | rfl | rfl <;> simp at hindex hterm

/-- Server 0 commits `x` in term 1, and server 1 becomes the leader of term 2 with `x`. -/
theorem leaderCompleteness_firstCommit :
    Commits firstCommitRun 6 0 1 ⟨"x", 1, 1⟩ ∧ BecomesLeader firstCommitRun 13 1 2 ∧
      LeaderCompleteness firstCommitRun := by
  refine ⟨?_, ?_,
    leaderCompleteness firstCommitRun firstCommitRun_coreOnly firstCommitRun_noStaleTail⟩
  · unfold Commits
    decide +kernel
  · unfold BecomesLeader
    decide +kernel

end Examples

/-! ### State machine safety -/

section Runs

variable [Codec LogEntry] [Codec (BoostPersistRaftNode n)]

/-- At moment `k` server `i` runs `getApplyLogs` and gets the message. -/
def Emits (r : Run (raft n)) (k : ℕ) (i : Fin n) (msg : ApplyMsg) : Prop :=
  r.act k = some (.getApplyLogs i) ∧
    ∃ msgs, ((r.state k).servers i).getApplyLogs.map Prod.snd = .ok msgs ∧ msg ∈ msgs

/-- Messages with the same index carry the same command. -/
def StateMachineSafety (r : Run (raft n)) : Prop :=
  ∀ k i msg k' i' msg', Emits r k i msg → Emits r k' i' msg' →
    msg.commandIndex = msg'.commandIndex → msg.command = msg'.command

/-- State machine safety of every run without restarts and snapshots in which no request leaves a
stale tail. -/
theorem stateMachineSafety (r : Run (raft n)) (hr : r.Obeys CoreOnly)
    (hstale : r.Obeys NoStaleTail) : StateMachineSafety r := by
  -- An emitted message carries an entry that was decided.
  have hentry : ∀ k i msg, Emits r k i msg → ∃ m e, ((r.state k).servers i).logs[m]? = some e ∧
      m < ((r.state k).servers i).commitIndex ∧ msg.command = e.command ∧
      msg.commandIndex = ((m + 1 : ℕ) : ℤ) := by
    rintro k i msg ⟨-, msgs, hmsgs, hmem⟩
    have hinv := replicationInv_run r hr hstale k
    obtain ⟨⟨q, _⟩, happly, rfl⟩ := map_eq_ok.mp hmsgs
    obtain ⟨index, e, hlt, hle, he, rfl⟩ := (Raft.getApplyLogs_cases happly).2 msg hmem
    obtain ⟨m, rfl⟩ : ∃ m, index = m + 1 := ⟨index - 1, by omega⟩
    rw [entryAt_iff_getElem (hinv.identity.numbered i) (hinv.servers i).snapshotIndex] at he
    exact ⟨m, e, he, hle, rfl, rfl⟩
  intro k i msg k' i' msg' hemits hemits' hindex
  obtain ⟨m, e, he, hm, hcommand, hat⟩ := hentry k i msg hemits
  obtain ⟨m', e', he', hm', hcommand', hat'⟩ := hentry k' i' msg' hemits'
  obtain rfl : m = m' := by
    rw [hat, hat'] at hindex
    have := Int.ofNat.inj hindex
    omega
  have hlast := replicationInv_run r hr hstale (max k k')
  have heq : e = e' := by
    rcases hlast.replica.decided_comparable (decided_past r hr hstale (le_max_left k k') i)
      (decided_past r hr hstale (le_max_right k k') i') with hpre | hpre
    · have hfound := getElem?_of_take (hpre.trans (List.take_prefix _ _)) he hm
      exact Option.some.inj (hfound.symm.trans he')
    · have hfound := getElem?_of_take (hpre.trans (List.take_prefix _ _)) he' hm'
      exact Option.some.inj (he.symm.trans hfound)
  rw [hcommand, hcommand', heq]

end Runs

section Examples

open scoped Archive

/-- Server 0 emits `x` with index 1, server 2 emits `a`. -/
theorem stateMachineSafety_staleTail :
    ∃ r : Run (raft 3), r.Obeys CoreOnly ∧ ¬ StateMachineSafety r := by
  refine ⟨staleTailRun, staleTailRun_coreOnly, fun hsafe ↦ ?_⟩
  have hx : Emits staleTailRun 32 0 { commandValid := true, command := "x", commandIndex := 1 } :=
    ⟨rfl,
      [{ commandValid := true, command := "x", commandIndex := 1 },
        { commandValid := true, command := "y", commandIndex := 2 }],
      by decide +kernel, by decide⟩
  have ha : Emits staleTailRun 40 2 { commandValid := true, command := "a", commandIndex := 1 } :=
    ⟨rfl,
      [{ commandValid := true, command := "a", commandIndex := 1 },
        { commandValid := true, command := "b", commandIndex := 2 },
        { commandValid := true, command := "d", commandIndex := 3 },
        { commandValid := true, command := "z", commandIndex := 4 }],
      by decide +kernel, by decide⟩
  exact absurd (hsafe 32 0 _ 40 2 _ hx ha rfl) (by decide)

/-- Both servers emit `x` with index 1. -/
theorem stateMachineSafety_firstCommit :
    Emits firstCommitRun 7 0 { commandValid := true, command := "x", commandIndex := 1 } ∧
      Emits firstCommitRun 10 1 { commandValid := true, command := "x", commandIndex := 1 } ∧
      StateMachineSafety firstCommitRun :=
  ⟨⟨rfl, [{ commandValid := true, command := "x", commandIndex := 1 }], by decide +kernel,
      by decide⟩,
    ⟨rfl, [{ commandValid := true, command := "x", commandIndex := 1 }], by decide +kernel,
      by decide⟩,
    stateMachineSafety firstCommitRun firstCommitRun_coreOnly firstCommitRun_noStaleTail⟩

end Examples

end Rsylar
