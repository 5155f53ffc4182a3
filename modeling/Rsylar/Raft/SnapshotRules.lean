import Rsylar.Raft.ReceiverRule

/-!
# What a snapshot does to the log

A snapshot that the server takes itself forgets the entries up to its index and nothing else: what
is looked up from that index on is what it was, and what is saved is what the server then has
(`Raft.snapshot_forgetsPrefix`). A snapshot that is installed leaves the entries behind its index
whenever the log is longer, whatever term the log has at that index
(`Raft.Numbered.installSnapshot_new`); the rule is to leave them only when the term is that of the
snapshot (`Raft.RetainsSuffix`).
-/

set_option autoImplicit false
set_option relaxedAutoImplicit false

namespace Rsylar

open TextArchive

variable {n : ℕ}

namespace Raft

/-! ### A snapshot of the server itself -/

section Lookup

variable {r q : Raft n}

/-- What is left of a log is found where it was, and nothing else is. -/
theorem Numbered.entryAt_drop_iff (h : r.Numbered) (h' : q.Numbered)
    (hle : r.lastSnapshotIncludeIndex ≤ q.lastSnapshotIncludeIndex)
    (hlogs : q.logs = r.logs.drop (q.lastSnapshotIncludeIndex - r.lastSnapshotIncludeIndex))
    {index : ℕ} (hlt : q.lastSnapshotIncludeIndex < index) {e : LogEntry} :
    q.entryAt index = .ok e ↔ r.entryAt index = .ok e := by
  constructor
  · exact entryAt_of_drop h h' hle hlogs
  · intro he
    have hget := (h.entryAt_iff.mp he).2
    refine h'.entryAt_iff.mpr ⟨hlt, ?_⟩
    rw [hlogs, List.getElem?_drop, ← hget]
    congr 1
    omega

/-- The last entry of a log is at its last index. -/
theorem Numbered.getLastLogTerm_eq (h : r.Numbered) :
    r.getLogTermFromLogIndex r.getLastLogIndex = .ok r.getLastLogTerm := by
  have hlast := h.getLastLogIndex_eq
  cases hend : r.logs.getLast? with
  | none =>
    have hempty := List.getLast?_eq_none_iff.mp hend
    have hindex : r.getLastLogIndex = r.lastSnapshotIncludeIndex := by
      rw [hlast, hempty]
      rfl
    have hterm : r.getLastLogTerm = r.lastSnapshotIncludeTerm := by
      unfold getLastLogTerm getLastLogIndexAndTerm
      rw [hend]
    exact getLogTermFromLogIndex_eq_ok.mpr (Or.inl ⟨hindex, le_refl _, hterm⟩)
  | some e =>
    obtain ⟨hmem, hindex⟩ := NumberedFrom.getLast h hend
    have hterm : r.getLastLogTerm = e.logTerm := by
      unfold getLastLogTerm getLastLogIndexAndTerm
      rw [hend]
    have hat := h.entryAt_of_mem hmem
    rw [hindex, ← hlast] at hat
    exact getLogTermFromLogIndex_eq_ok.mpr (Or.inr ⟨e, hat, hterm.symm⟩)

end Lookup

section Snapshot

variable [Codec LogEntry] [NonemptyCodec (BoostPersistRaftNode n)] {r q : Raft n}

/-- What the server has in memory after a snapshot with the given entry at its index. -/
def truncated (r : Raft n) (e : LogEntry) : Raft n :=
  { r with
    lastSnapshotIncludeIndex := e.logIndex
    lastSnapshotIncludeTerm := e.logTerm
    logs := r.logs.drop (e.logIndex - r.lastSnapshotIncludeIndex)
    commitIndex := max r.commitIndex e.logIndex
    lastApplied := max r.lastApplied e.logIndex }

/-- The snapshot of a committed index, which the log holds. -/
theorem Shape.snapshot_taken (h : r.Shape) {index : ℕ} (data : String)
    (hlt : r.lastSnapshotIncludeIndex < index) (hle : index ≤ r.commitIndex) :
    ∃ e q, r.entryAt index = .ok e ∧ e.logIndex = index ∧
      q = { r.truncated e with
            persister := r.persister.save (r.truncated e).persistData data } ∧
      r.snapshot index data = .ok q := by
  have hcommit := h.commit_le
  have hlast := h.numbered.getLastLogIndex_eq
  obtain ⟨e, he, rfl⟩ := h.numbered.entryAt_of_range hlt (hle.trans hcommit)
  obtain ⟨entries, hentries, hlen⟩ := @Numbered.entriesFrom_total _ _ h.numbered
    (r.getLastLogIndex - e.logIndex) (e.logIndex + 1) (by omega) (by omega)
  have hdrop : entries = r.logs.drop (e.logIndex - r.lastSnapshotIncludeIndex) := by
    rw [entriesFrom_eq h.numbered (by omega) hentries, List.take_of_length_le]
    · congr 1
      omega
    · rw [List.length_drop]
      omega
  refine ⟨e, _, he, rfl, rfl, ?_⟩
  unfold snapshot truncated
  rw [if_neg (by omega), ← hdrop]
  refine bind_eq_ok.mpr ⟨e, he, bind_eq_ok.mpr ⟨entries, hentries, bind_eq_ok.mpr
    ⟨(), myAssert_eq_ok.mpr ?_, rfl⟩⟩⟩
  show entries.length + e.logIndex = _
  omega

omit [Codec LogEntry] [NonemptyCodec (BoostPersistRaftNode n)] in
theorem Numbered.truncated (h : r.Numbered) {e : LogEntry}
    (hle : r.lastSnapshotIncludeIndex ≤ e.logIndex) : (r.truncated e).Numbered := by
  have hdrop := @NumberedFrom.drop _ (e.logIndex - r.lastSnapshotIncludeIndex) _ h
  rwa [Nat.add_sub_cancel' hle] at hdrop

/-- The server `q` is `r` without the entries up to the index, and has saved itself with the data of
the snapshot. -/
structure ForgetsPrefix (r q : Raft n) (index : ℕ) (data : String) : Prop where
  term : ∀ i, index ≤ i → i ≤ r.getLastLogIndex →
    q.getLogTermFromLogIndex i = r.getLogTermFromLogIndex i
  entry : ∀ i, index < i → i ≤ r.getLastLogIndex → q.entryAt i = r.entryAt i
  getLastLogIndex : q.getLastLogIndex = r.getLastLogIndex
  getLastLogTerm : q.getLastLogTerm = r.getLastLogTerm
  commitIndex : q.commitIndex = r.commitIndex
  currentTerm : q.currentTerm = r.currentTerm
  votedFor : q.votedFor = r.votedFor
  status : q.status = r.status
  lastApplied : q.lastApplied = max r.lastApplied index
  saved : q.Durable
  savedSnapshot : q.persister.lastSnapshot = data

/-- A snapshot of what is committed forgets the entries up to its index, and every other snapshot
changes nothing. -/
theorem snapshot_forgetsPrefix (h : r.Shape) (index : ℕ) (data : String) :
    (r.lastSnapshotIncludeIndex < index ∧ index ≤ r.commitIndex →
      ∃ q, r.snapshot index data = .ok q ∧ r.ForgetsPrefix q index data) ∧
    (¬ (r.lastSnapshotIncludeIndex < index ∧ index ≤ r.commitIndex) →
      r.snapshot index data = .ok r) := by
  constructor
  · rintro ⟨hlt, hle⟩
    have hcommit := h.commit_le
    have hend := h.numbered.getLastLogIndex_eq
    obtain ⟨e, q, he, rfl, rfl, hq⟩ := h.snapshot_taken data hlt hle
    have hnumbered := h.numbered.truncated hlt.le
    have hlast : (r.truncated e).getLastLogIndex = r.getLastLogIndex := by
      rw [hnumbered.getLastLogIndex_eq, hend]
      show e.logIndex + (r.logs.drop _).length = _
      rw [List.length_drop]
      omega
    have hentry : ∀ i, e.logIndex < i → i ≤ r.getLastLogIndex →
        (r.truncated e).entryAt i = r.entryAt i := by
      intro i hi hin
      obtain ⟨a, ha, -⟩ := h.numbered.entryAt_of_range (hlt.trans hi) hin
      rw [ha]
      exact (h.numbered.entryAt_drop_iff hnumbered hlt.le rfl hi).mpr ha
    have hterm : ∀ i, e.logIndex ≤ i → i ≤ r.getLastLogIndex →
        (r.truncated e).getLogTermFromLogIndex i = r.getLogTermFromLogIndex i := by
      intro i hi hin
      rcases Nat.eq_or_lt_of_le hi with rfl | hbeyond
      · -- The entry at the index has become the snapshot.
        rw [getLogTermFromLogIndex_eq_ok.mpr (Or.inr ⟨e, he, rfl⟩)]
        exact getLogTermFromLogIndex_eq_ok.mpr (Or.inl ⟨rfl, hlast ▸ hin, rfl⟩)
      · obtain ⟨a, ha, -⟩ := h.numbered.entryAt_of_range (hlt.trans hbeyond) hin
        rw [getLogTermFromLogIndex_eq_ok.mpr (Or.inr ⟨a, ha, rfl⟩)]
        exact getLogTermFromLogIndex_eq_ok.mpr
          (Or.inr ⟨a, (hentry i hbeyond hin).trans ha, rfl⟩)
    have hlastTerm : (r.truncated e).getLastLogTerm = r.getLastLogTerm := by
      have hnow := hnumbered.getLastLogTerm_eq
      rw [hlast, hterm _ (hle.trans hcommit) (le_refl _), h.numbered.getLastLogTerm_eq] at hnow
      exact (Except.ok.inj hnow).symm
    exact ⟨_, hq, hterm, hentry, hlast, hlastTerm, max_eq_left hle, rfl, rfl, rfl, rfl,
      durable_of_persistData rfl, rfl⟩
  · intro hrange
    unfold snapshot
    rw [if_pos (by omega)]

end Snapshot

/-! ### A snapshot from the leader -/

section InstallSnapshot

variable [Codec LogEntry] [Codec (BoostPersistRaftNode n)] {r : Raft n}
  {args : InstallSnapshotRequest n}

/-- A new snapshot in a term that is not over: the entries behind its index stay. -/
theorem Numbered.installSnapshot_new (h : r.Numbered) (hterm : r.currentTerm ≤ args.term)
    (hnew : r.lastSnapshotIncludeIndex < args.lastSnapshotIncludeIndex) :
    ∃ q reply msg, r.installSnapshot args = .ok (q, reply, msg) ∧
      q.logs = r.logs.drop (args.lastSnapshotIncludeIndex - r.lastSnapshotIncludeIndex) ∧
      q.lastSnapshotIncludeIndex = args.lastSnapshotIncludeIndex ∧
      q.lastSnapshotIncludeTerm = args.lastSnapshotIncludeTerm := by
  -- The term of the request changes neither the log nor the snapshot.
  have hcore : ∀ p : Raft n, p.logs = r.logs →
      p.lastSnapshotIncludeIndex = r.lastSnapshotIncludeIndex →
      p.logsBeyond args.lastSnapshotIncludeIndex =
        .ok (r.logs.drop (args.lastSnapshotIncludeIndex - r.lastSnapshotIncludeIndex)) := by
    intro p hlogs hindex
    have hp : p.Numbered := by
      unfold Numbered
      rw [hlogs, hindex]
      exact h
    have hlast := hp.getLastLogIndex_eq
    unfold logsBeyond
    split
    · rename_i hlonger
      refine bind_eq_ok.mpr ⟨_, getSlicesIndexFromLogIndex_eq_ok.mpr
        ⟨hindex ▸ hnew, hlonger.le, rfl⟩, ?_⟩
      rw [hlogs, hindex]
      refine congrArg Except.ok (congrArg (fun k ↦ r.logs.drop k) ?_)
      omega
    · rw [List.drop_of_length_le]
      rw [hlogs, hindex] at hlast
      omega
  unfold installSnapshot
  rw [if_neg (Nat.not_lt.mpr hterm)]
  by_cases hlater : r.currentTerm < args.term
  · simp only [if_pos hlater]
    exact ⟨_, _, _, (if_neg (Nat.not_le.mpr hnew)).trans
      (bind_eq_ok.mpr ⟨_, hcore _ rfl rfl, rfl⟩), rfl, rfl, rfl⟩
  · simp only [if_neg hlater]
    exact ⟨_, _, _, (if_neg (Nat.not_le.mpr hnew)).trans
      (bind_eq_ok.mpr ⟨_, hcore _ rfl rfl, rfl⟩), rfl, rfl, rfl⟩

/-- The entries behind the snapshot are left when the log has the term of the snapshot at its index,
and otherwise the snapshot is all that is left. -/
def RetainsSuffix (r : Raft n) (args : InstallSnapshotRequest n) : Prop :=
  ∃ q reply msg, r.installSnapshot args = .ok (q, reply, msg) ∧
    (r.getLogTermFromLogIndex args.lastSnapshotIncludeIndex = .ok args.lastSnapshotIncludeTerm →
      q.logs = r.logs.filter fun e ↦ args.lastSnapshotIncludeIndex < e.logIndex) ∧
    (r.getLogTermFromLogIndex args.lastSnapshotIncludeIndex ≠ .ok args.lastSnapshotIncludeTerm →
      q.logs = [] ∧ q.getLastLogIndexAndTerm =
        (args.lastSnapshotIncludeIndex, args.lastSnapshotIncludeTerm))

/-- The rule holds exactly when the log does not reach beyond the snapshot or agrees with it. -/
theorem retainsSuffix (h : r.Numbered) (hterm : r.currentTerm ≤ args.term)
    (hnew : r.lastSnapshotIncludeIndex < args.lastSnapshotIncludeIndex) :
    r.RetainsSuffix args ↔ r.getLastLogIndex ≤ args.lastSnapshotIncludeIndex ∨
      r.getLogTermFromLogIndex args.lastSnapshotIncludeIndex =
        .ok args.lastSnapshotIncludeTerm := by
  obtain ⟨q, reply, msg, hq, hlogs, hindex, hsnapshotTerm⟩ := h.installSnapshot_new hterm hnew
  have hlast := h.getLastLogIndex_eq
  have hfilter := @NumberedFrom.filter_lt _
    (args.lastSnapshotIncludeIndex - r.lastSnapshotIncludeIndex) _ h
  rw [Nat.add_sub_cancel' hnew.le] at hfilter
  constructor
  · rintro ⟨q', reply', msg', hq', -, hother⟩
    rw [hq] at hq'
    cases hq'
    by_cases hsame : r.getLogTermFromLogIndex args.lastSnapshotIncludeIndex =
        .ok args.lastSnapshotIncludeTerm
    · exact Or.inr hsame
    · obtain ⟨hempty, -⟩ := hother hsame
      rw [hlogs, List.drop_eq_nil_iff] at hempty
      exact Or.inl (by omega)
  · intro hkeeps
    refine ⟨q, reply, msg, hq, fun _ ↦ hlogs.trans hfilter.symm, fun hother ↦ ?_⟩
    have hend := hkeeps.resolve_right hother
    have hempty : q.logs = [] := by
      rw [hlogs, List.drop_eq_nil_iff]
      omega
    refine ⟨hempty, ?_⟩
    unfold getLastLogIndexAndTerm
    rw [hempty, ← hindex, ← hsnapshotTerm]
    rfl

end InstallSnapshot

/-! ### Fixed inputs -/

section Examples

open scoped Archive

/-- Three entries of term 1, all of them committed. -/
def committedLog : Raft 3 :=
  { fresh .first with
    currentTerm := 1
    logs := [⟨"a", 1, 1⟩, ⟨"b", 1, 2⟩, ⟨"c", 1, 3⟩]
    commitIndex := 3
    lastApplied := 2 }

theorem committedLog_shape : committedLog.Shape where
  numbered := ((numberedFrom_singleton rfl).append (numberedFrom_singleton rfl)).append
    (numberedFrom_singleton rfl)
  snapshot_le := by decide
  applied_le := by decide
  commit_le := by decide
  snapshot_committed := by decide

theorem snapshot_forgetsPrefix_all : ∃ q, committedLog.snapshot 3 "s" = .ok q ∧
    committedLog.ForgetsPrefix q 3 "s" :=
  (snapshot_forgetsPrefix committedLog_shape 3 "s").1 (by decide)

/-- A snapshot of a leader of term 2, up to the given index. -/
def snapshotOf (index term : ℕ) : InstallSnapshotRequest 3 where
  leaderId := 0
  term := 2
  lastSnapshotIncludeIndex := index
  lastSnapshotIncludeTerm := term
  data := "s"

theorem retainsSuffix_agreeing : committedLog.RetainsSuffix (snapshotOf 2 1) :=
  (retainsSuffix committedLog_shape.numbered (by decide) (by decide)).mpr (by decide)

/-- The entry behind a snapshot of another term stays. -/
theorem retainsSuffix_divergent : ∃ (r : Raft 3) (args : InstallSnapshotRequest 3),
    r.Shape ∧ r.currentTerm ≤ args.term ∧
      r.lastSnapshotIncludeIndex < args.lastSnapshotIncludeIndex ∧ ¬ r.RetainsSuffix args := by
  refine ⟨committedLog, snapshotOf 2 2, committedLog_shape, by decide, by decide, ?_⟩
  rintro ⟨q, reply, msg, hq, -, hother⟩
  obtain ⟨q', reply', msg', hq', hlogs, -⟩ := committedLog_shape.numbered.installSnapshot_new
    (show committedLog.currentTerm ≤ (snapshotOf 2 2).term by decide) (by decide)
  rw [hq] at hq'
  cases hq'
  obtain ⟨hempty, -⟩ := hother (by decide)
  rw [hempty] at hlogs
  exact absurd hlogs (by decide)

end Examples

end Raft

end Rsylar
