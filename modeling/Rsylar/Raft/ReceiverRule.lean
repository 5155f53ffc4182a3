import Rsylar.Raft.Archive
import Rsylar.Raft.LogShape

/-!
# The receiver's side of an append request

What `AppendEntries` does to one server, for every request and every numbered log. A request starts
beyond the log, below the snapshot, at an index with another term, or at an index that matches, and
there is one lemma for each of the four. A request below the snapshot is answered with a refusal
whose `return` is a comment: the handler goes on to `matchLog`, whose assertion then fails
(`Raft.Numbered.appendEntries_belowSnapshot`). A request that matches is written over the log, and
what the log holds behind it stays (`Raft.Numbered.appendEntries_match`).
-/

set_option autoImplicit false
set_option relaxedAutoImplicit false

namespace Rsylar

open TextArchive

variable {n : ℕ}

/-- In a numbered list an index determines the entry. -/
theorem NumberedFrom.eq_of_logIndex {k : ℕ} {l : List LogEntry} (h : NumberedFrom k l)
    {a b : LogEntry} (ha : a ∈ l) (hb : b ∈ l) (hindex : a.logIndex = b.logIndex) : a = b := by
  obtain ⟨i, hi⟩ := List.mem_iff_getElem?.mp ha
  obtain ⟨j, hj⟩ := List.mem_iff_getElem?.mp hb
  have hia := h i a hi
  have hjb := h j b hj
  obtain rfl : i = j := by omega
  exact Option.some.inj (hi.symm.trans hj)

/-- The entries up to an index. -/
theorem NumberedFrom.filter_le {k p : ℕ} {l : List LogEntry} (h : NumberedFrom k l) :
    (l.filter fun e ↦ e.logIndex ≤ k + p) = l.take p := by
  induction l generalizing k p with
  | nil => simp
  | cons e l ih =>
    have hhead := h.head
    cases p with
    | zero =>
      have hrest := @ih (k + 1) 0 h.tail
      rw [List.filter_cons_of_neg (by simp; omega), List.take_zero]
      refine List.filter_eq_nil_iff.mpr fun a ha ↦ ?_
      obtain ⟨j, hj⟩ := List.mem_iff_getElem?.mp ha
      have hindex := h.tail j a hj
      simp
      omega
    | succ p =>
      rw [List.filter_cons_of_pos (by simp; omega), List.take_succ_cons, ← @ih (k + 1) p h.tail]
      congr 2
      ext a
      congr 2
      omega

/-- The entries beyond an index. -/
theorem NumberedFrom.filter_lt {k p : ℕ} {l : List LogEntry} (h : NumberedFrom k l) :
    (l.filter fun e ↦ k + p < e.logIndex) = l.drop p := by
  induction l generalizing k p with
  | nil => simp
  | cons e l ih =>
    have hhead := h.head
    cases p with
    | zero =>
      rw [List.drop_zero]
      refine List.filter_eq_self.mpr fun a ha ↦ ?_
      obtain ⟨j, hj⟩ := List.mem_iff_getElem?.mp ha
      have hindex := h j a hj
      simp
      omega
    | succ p =>
      rw [List.filter_cons_of_neg (by simp; omega), List.drop_succ_cons, ← @ih (k + 1) p h.tail]
      congr 1
      ext a
      congr 2
      omega

namespace Raft

/-- Where an entry of the log has index and term of an entry of the request, it has its command. -/
def AgreesWith (r : Raft n) (entries : List LogEntry) : Prop :=
  ∀ old ∈ r.logs, ∀ log ∈ entries, old.logIndex = log.logIndex → old.logTerm = log.logTerm →
    old.command = log.command

instance (r : Raft n) (entries : List LogEntry) : Decidable (r.AgreesWith entries) :=
  inferInstanceAs (Decidable (∀ old ∈ r.logs, ∀ log ∈ entries, _))

section Merge

variable {r q : Raft n} {entries : List LogEntry} {p : ℕ}

/-- The identity check passes when no entry of the log contradicts the request. -/
theorem Numbered.mergeEntries_agreeing (h : r.Numbered)
    (hentries : NumberedFrom (r.lastSnapshotIncludeIndex + p) entries) (hp : p ≤ r.logs.length)
    (hagree : r.AgreesWith entries) :
    r.mergeEntries entries = .ok { r with logs := writeAt r.logs p entries } := by
  rcases h.mergeEntries_total hentries hp with ⟨q, hq⟩ | herror
  · rw [hq, mergeEntries_eq h hentries hp hq]
  · obtain ⟨old, log, hold, hlog, hindex, hterm, hcommand⟩ :=
      mergeEntries_sameTermOtherCommand h hentries hp herror
    rcases hold with hold | hold
    · exact absurd (hagree old hold log hlog hindex hterm) hcommand
    · rw [hentries.eq_of_logIndex hold hlog hindex] at hcommand
      exact absurd rfl hcommand

/-- An entry that is written over the log has passed the identity check. -/
theorem mergeEntry_agrees (h : r.Numbered) {log old : LogEntry} (hmerge : r.mergeEntry log = .ok q)
    (hold : old ∈ r.logs) (hindex : old.logIndex = log.logIndex)
    (hterm : old.logTerm = log.logTerm) : old.command = log.command := by
  have hat := h.entryAt_of_mem hold
  rw [hindex] at hat
  unfold mergeEntry at hmerge
  split at hmerge
  · rename_i hbeyond
    have hle := (entryAt_eq_ok.mp hat).2.1
    omega
  · obtain ⟨slice, -, hmerge⟩ := bind_eq_ok.mp hmerge
    obtain ⟨found, hfound, hmerge⟩ := bind_eq_ok.mp hmerge
    obtain rfl : old = found := Except.ok.inj (hat.symm.trans hfound)
    split at hmerge
    · cases hmerge
    · rename_i hsame
      tauto

/-- Entries that have been merged do not contradict the log. -/
theorem Numbered.agreesWith_of_merge (h : r.Numbered)
    (hentries : NumberedFrom (r.lastSnapshotIncludeIndex + p) entries) (hp : p ≤ r.logs.length)
    (hmerge : r.mergeEntries entries = .ok q) : r.AgreesWith entries := by
  induction entries generalizing r p with
  | nil =>
    intro old _ log hlog
    cases hlog
  | cons first entries ih =>
    obtain ⟨q', hq', hmerge⟩ := bind_eq_ok.mp hmerge
    have hfirst := hentries.head
    intro old hold log hlog hindex hterm
    rcases List.mem_cons.mp hlog with rfl | hlog
    · exact mergeEntry_agrees h hq' hold hindex hterm
    · -- The entry lies behind the one that has been written.
      obtain rfl := mergeEntry_eq h (by omega) hp hq'
      obtain ⟨hnumbered, htail, hlen⟩ := h.writeAt_head hentries hp
      obtain ⟨j, hj⟩ := List.mem_iff_getElem?.mp hlog
      have hj' := htail j log hj
      have hkept : old ∈ r.logs.drop (p + 1) := NumberedFrom.mem_drop h hold (by omega)
      refine ih hnumbered htail hlen hmerge old ?_ log hlog hindex hterm
      exact List.mem_append_right _ hkept

end Merge

/-! ### The search for the conflicting term -/

section Conflict

variable {r : Raft n} {prevLogIndex : ℕ}

theorem Numbered.term_of_range (h : r.Numbered) {index : ℕ}
    (hle : r.lastSnapshotIncludeIndex ≤ index) (hlast : index ≤ r.getLastLogIndex) :
    ∃ term, r.getLogTermFromLogIndex index = .ok term := by
  rcases Nat.eq_or_lt_of_le hle with heq | hlt
  · exact ⟨_, getLogTermFromLogIndex_eq_ok.mpr (Or.inl ⟨heq.symm, hlast, rfl⟩)⟩
  · obtain ⟨e, he, -⟩ := h.entryAt_of_range hlt hlast
    exact ⟨_, getLogTermFromLogIndex_eq_ok.mpr (Or.inr ⟨e, he, rfl⟩)⟩

/-- The search ends at an entry above the snapshot, or where it began. -/
theorem Numbered.conflictIndex_total (h : r.Numbered) {index : ℕ}
    (hprev : r.lastSnapshotIncludeIndex ≤ prevLogIndex) (hlast : prevLogIndex ≤ r.getLastLogIndex)
    (hle : index ≤ prevLogIndex) :
    ∃ update, r.conflictIndex prevLogIndex index = .ok update ∧
      (r.lastSnapshotIncludeIndex < update ∨ update = prevLogIndex) ∧
        (update ≤ index + 1 ∨ update = prevLogIndex) := by
  obtain ⟨prevTerm, hprevTerm⟩ := h.term_of_range hprev hlast
  induction index with
  | zero =>
    unfold conflictIndex
    split
    · rename_i hzero
      obtain ⟨t, ht⟩ := h.term_of_range hzero (by omega)
      refine ⟨_, bind_eq_ok.mpr ⟨t, ht, bind_eq_ok.mpr ⟨prevTerm, hprevTerm, rfl⟩⟩, ?_⟩
      split
      · exact ⟨Or.inl (by omega), Or.inl (le_refl _)⟩
      · exact ⟨Or.inr rfl, Or.inr rfl⟩
    · exact ⟨prevLogIndex, rfl, Or.inr rfl, Or.inr rfl⟩
  | succ index ih =>
    obtain ⟨update, hupdate, hbeyond', hle'⟩ := ih (by omega)
    unfold conflictIndex
    split
    · rename_i hbeyond
      obtain ⟨t, ht⟩ := h.term_of_range hbeyond (by omega)
      by_cases hterm : t ≠ prevTerm
      · exact ⟨index + 2, bind_eq_ok.mpr ⟨t, ht, bind_eq_ok.mpr ⟨prevTerm, hprevTerm, if_pos hterm⟩⟩,
          Or.inl (by omega), Or.inl (le_refl _)⟩
      · exact ⟨update, bind_eq_ok.mpr ⟨t, ht, bind_eq_ok.mpr
          ⟨prevTerm, hprevTerm, (if_neg hterm).trans hupdate⟩⟩, hbeyond', by omega⟩
    · exact ⟨prevLogIndex, rfl, Or.inr rfl, Or.inr rfl⟩

/-- A refused request is answered with an index that it covers itself. -/
theorem Numbered.conflictIndex_at (h : r.Numbered)
    (hprev : r.lastSnapshotIncludeIndex ≤ prevLogIndex) (hlast : prevLogIndex ≤ r.getLastLogIndex) :
    ∃ update, r.conflictIndex prevLogIndex prevLogIndex = .ok update ∧
      (r.lastSnapshotIncludeIndex < update ∨ update = prevLogIndex) ∧ update ≤ prevLogIndex := by
  obtain ⟨prevTerm, hprevTerm⟩ := h.term_of_range hprev hlast
  cases prevLogIndex with
  | zero =>
    refine ⟨0, ?_, Or.inr rfl, le_refl _⟩
    unfold conflictIndex
    rw [if_pos hprev]
    exact bind_eq_ok.mpr ⟨prevTerm, hprevTerm, bind_eq_ok.mpr
      ⟨prevTerm, hprevTerm, congrArg Except.ok (if_neg (not_not.mpr rfl))⟩⟩
  | succ index =>
    -- The first comparison is that of an index with itself.
    obtain ⟨update, hupdate, hbeyond, hle⟩ :=
      h.conflictIndex_total hprev hlast (Nat.le_succ index)
    refine ⟨update, ?_, hbeyond, by omega⟩
    unfold conflictIndex
    rw [if_pos hprev]
    exact bind_eq_ok.mpr ⟨prevTerm, hprevTerm, bind_eq_ok.mpr
      ⟨prevTerm, hprevTerm, (if_neg (not_not.mpr rfl)).trans hupdate⟩⟩

end Conflict

/-! ### The four kinds of requests -/

theorem Numbered.matchLog_total {r : Raft n} (h : r.Numbered) {index term : ℕ}
    (hle : r.lastSnapshotIncludeIndex ≤ index) (hlast : index ≤ r.getLastLogIndex) :
    ∃ matched, r.matchLog index term = .ok matched ∧
      (matched = true ↔ r.getLogTermFromLogIndex index = .ok term) := by
  obtain ⟨t, ht⟩ := h.term_of_range hle hlast
  refine ⟨decide (term = t), ?_, ?_⟩
  · unfold matchLog
    exact bind_eq_ok.mpr ⟨(), myAssert_eq_ok.mpr ⟨hle, hlast⟩, bind_eq_ok.mpr ⟨t, ht, rfl⟩⟩
  · rw [decide_eq_true_eq, ht]
    constructor
    · rintro rfl
      rfl
    · intro hsame
      exact (Except.ok.inj hsame).symm

section AppendEntries

variable {r : Raft n} {args : AppendEntriesArgs n}

/-- The server when it has entered the term of the request. -/
theorem getLastLogIndex_enter (r : Raft n) (term : ℕ) :
    (r.enterTerm term).asFollower.getLastLogIndex = r.getLastLogIndex := by
  simp [getLastLogIndex, getLastLogIndexAndTerm]

theorem Numbered.enter (h : r.Numbered) (term : ℕ) : (r.enterTerm term).asFollower.Numbered := by
  simpa [Numbered] using h

theorem getLogTermFromLogIndex_enter (r : Raft n) (term index : ℕ) :
    (r.enterTerm term).asFollower.getLogTermFromLogIndex index = r.getLogTermFromLogIndex index :=
  getLogTermFromLogIndex_congr (by simp) (by simp) (by simp) index

variable [Codec LogEntry] [Codec (BoostPersistRaftNode n)]

theorem appendEntries_beyond (hterm : r.currentTerm ≤ args.term)
    (hprev : r.getLastLogIndex < args.prevLogIndex) :
    r.appendEntries args = .ok ((r.enterTerm args.term).asFollower.persist,
      { appState := .appNormal
        success := false
        term := args.term
        updateNextIndex := some (r.getLastLogIndex + 1) }) := by
  have hcurrent := r.enterTerm_currentTerm args.term hterm
  have hlast := r.getLastLogIndex_enter args.term
  unfold appendEntries
  simp only [if_neg (Nat.not_lt.mpr hterm)]
  refine bind_eq_ok.mpr ⟨(), myAssert_eq_ok.mpr hcurrent.symm, ?_⟩
  rw [hlast, if_pos hprev, asFollower_currentTerm, hcurrent]
  rfl

/-- The refusal is overtaken by an assertion. -/
theorem Numbered.appendEntries_belowSnapshot (h : r.Numbered) (hterm : r.currentTerm ≤ args.term)
    (hprev : args.prevLogIndex < r.lastSnapshotIncludeIndex) :
    r.appendEntries args = .error .matchLogIndex := by
  have hcurrent := r.enterTerm_currentTerm args.term hterm
  have hlast := r.getLastLogIndex_enter args.term
  have hsnapshot := h.getLastLogIndex_eq
  unfold appendEntries
  simp only [if_neg (Nat.not_lt.mpr hterm)]
  refine bind_eq_error.mpr (Or.inr ⟨(), myAssert_eq_ok.mpr hcurrent.symm, ?_⟩)
  rw [hlast, if_neg (by omega)]
  refine bind_eq_error.mpr (Or.inl ?_)
  unfold matchLog
  refine bind_eq_error.mpr (Or.inl (myAssert_eq_error.mpr ⟨?_, rfl⟩))
  simp only [asFollower_lastSnapshotIncludeIndex, enterTerm_lastSnapshotIncludeIndex]
  omega

/-- A request at an index with another term is refused. -/
theorem Numbered.appendEntries_mismatch (h : r.Numbered) (hterm : r.currentTerm ≤ args.term)
    (hle : r.lastSnapshotIncludeIndex ≤ args.prevLogIndex)
    (hlast : args.prevLogIndex ≤ r.getLastLogIndex)
    (hmatch : r.getLogTermFromLogIndex args.prevLogIndex ≠ .ok args.prevLogTerm) :
    ∃ update, r.appendEntries args = .ok ((r.enterTerm args.term).asFollower.persist,
        { appState := .appNormal
          success := false
          term := args.term
          updateNextIndex := some update }) ∧
      (r.lastSnapshotIncludeIndex < update ∨ update = args.prevLogIndex) ∧
      update ≤ args.prevLogIndex := by
  have hcurrent := r.enterTerm_currentTerm args.term hterm
  have hend := r.getLastLogIndex_enter args.term
  have hnumbered := h.enter args.term
  have hsnapshot : (r.enterTerm args.term).asFollower.lastSnapshotIncludeIndex =
      r.lastSnapshotIncludeIndex := by simp
  obtain ⟨matched, hmatched, hiff⟩ :=
    @Numbered.matchLog_total _ _ hnumbered args.prevLogIndex args.prevLogTerm
      (by rwa [hsnapshot]) (by rwa [hend])
  rw [getLogTermFromLogIndex_enter] at hiff
  obtain ⟨update, hupdate, hbeyond, hback⟩ :=
    @Numbered.conflictIndex_at _ _ args.prevLogIndex hnumbered (by rwa [hsnapshot]) (by rwa [hend])
  rw [hsnapshot] at hbeyond
  refine ⟨update, ?_, hbeyond, hback⟩
  unfold appendEntries
  simp only [if_neg (Nat.not_lt.mpr hterm)]
  refine bind_eq_ok.mpr ⟨(), myAssert_eq_ok.mpr hcurrent.symm, ?_⟩
  rw [hend, if_neg (Nat.not_lt.mpr hlast), hsnapshot, if_neg (Nat.not_lt.mpr hle)]
  refine bind_eq_ok.mpr ⟨matched, hmatched, ?_⟩
  rw [if_neg (fun htrue ↦ hmatch (hiff.mp htrue))]
  refine bind_eq_ok.mpr ⟨update, hupdate, ?_⟩
  rw [asFollower_currentTerm, hcurrent]
  rfl

/-- The server when a matching request has been merged. -/
def received (r : Raft n) (args : AppendEntriesArgs n) : Raft n :=
  { (r.enterTerm args.term).asFollower with
    logs := writeAt r.logs (args.prevLogIndex - r.lastSnapshotIncludeIndex) args.entries
    commitIndex :=
      if r.commitIndex < args.leaderCommit then
        min args.leaderCommit (max r.getLastLogIndex (args.prevLogIndex + args.entries.length))
      else
        r.commitIndex }

omit [Codec LogEntry] [Codec (BoostPersistRaftNode n)] in
/-- A matching request moves the end of the log to its own end, never back. -/
theorem Numbered.received_log (h : r.Numbered)
    (hentries : NumberedFrom args.prevLogIndex args.entries)
    (hmatch : r.getLogTermFromLogIndex args.prevLogIndex = .ok args.prevLogTerm) :
    (r.received args).Numbered ∧ (r.received args).getLastLogIndex =
      max r.getLastLogIndex (args.prevLogIndex + args.entries.length) := by
  obtain ⟨hle, hlen⟩ := h.range_of_term hmatch
  have hstart : r.lastSnapshotIncludeIndex + (args.prevLogIndex - r.lastSnapshotIncludeIndex) =
      args.prevLogIndex := by omega
  have hnumbered : (r.received args).Numbered := by
    show NumberedFrom (r.enterTerm args.term).lastSnapshotIncludeIndex _
    rw [enterTerm_lastSnapshotIncludeIndex]
    exact NumberedFrom.writeAt h (hstart.symm ▸ hentries) hlen
  refine ⟨hnumbered, ?_⟩
  rw [hnumbered.getLastLogIndex_eq, h.getLastLogIndex_eq]
  show (r.enterTerm args.term).lastSnapshotIncludeIndex + (writeAt _ _ _).length = _
  rw [enterTerm_lastSnapshotIncludeIndex, length_writeAt hlen]
  omega

/-- The entries of the request up to the end of the handler, when the request matches. -/
theorem Numbered.appendEntries_merge (h : r.Numbered) (hterm : r.currentTerm ≤ args.term)
    (hcommit : r.commitIndex ≤ r.getLastLogIndex)
    (hentries : NumberedFrom args.prevLogIndex args.entries)
    (hmatch : r.getLogTermFromLogIndex args.prevLogIndex = .ok args.prevLogTerm) :
    r.appendEntries args = if r.AgreesWith args.entries then
        .ok ((r.received args).persist, { appState := .appNormal, success := true, term := args.term })
      else .error .sameTermOtherCommand := by
  obtain ⟨hle, hlen⟩ := h.range_of_term hmatch
  have hcurrent := r.enterTerm_currentTerm args.term hterm
  have hend := r.getLastLogIndex_enter args.term
  have hin : ¬ r.getLastLogIndex < args.prevLogIndex := by
    rw [h.getLastLogIndex_eq]
    omega
  have hsnapshot : (r.enterTerm args.term).asFollower.lastSnapshotIncludeIndex =
      r.lastSnapshotIncludeIndex := by simp
  have hlogs : (r.enterTerm args.term).asFollower.logs = r.logs := by simp
  have hstart : (r.enterTerm args.term).asFollower.lastSnapshotIncludeIndex +
      (args.prevLogIndex - r.lastSnapshotIncludeIndex) = args.prevLogIndex := by omega
  have hmatched : (r.enterTerm args.term).asFollower.matchLog args.prevLogIndex args.prevLogTerm =
      .ok true := by
    rwa [matchLog_eq_true, getLogTermFromLogIndex_enter]
  unfold appendEntries
  simp only [if_neg (Nat.not_lt.mpr hterm)]
  by_cases hagree : r.AgreesWith args.entries
  · rw [if_pos hagree]
    have hmerge := (h.enter args.term).mergeEntries_agreeing (hstart.symm ▸ hentries)
      (by rwa [hlogs]) (show AgreesWith _ args.entries by unfold AgreesWith; rwa [hlogs])
    have hlast := (h.received_log hentries hmatch).2
    have hmerged : getLastLogIndex { (r.enterTerm args.term).asFollower with
        logs := writeAt (r.enterTerm args.term).asFollower.logs
          (args.prevLogIndex - r.lastSnapshotIncludeIndex) args.entries } =
        max r.getLastLogIndex (args.prevLogIndex + args.entries.length) := by
      rw [hlogs]
      exact hlast
    refine bind_eq_ok.mpr ⟨(), myAssert_eq_ok.mpr hcurrent.symm, ?_⟩
    rw [hend, if_neg hin, hsnapshot, if_neg (Nat.not_lt.mpr hle)]
    refine bind_eq_ok.mpr ⟨true, hmatched, ?_⟩
    rw [if_pos rfl]
    refine bind_eq_ok.mpr ⟨_, hmerge, ?_⟩
    rw [hmerged]
    refine bind_eq_ok.mpr ⟨(), myAssert_eq_ok.mpr (le_max_right _ _), ?_⟩
    have hkept : (r.enterTerm args.term).asFollower.commitIndex = r.commitIndex := by simp
    simp only [hkept]
    unfold received
    by_cases hnews : r.commitIndex < args.leaderCommit
    · simp only [if_pos hnews]
      refine bind_eq_ok.mpr ⟨(), myAssert_eq_ok.mpr ((min_le_right _ _).trans hmerged.ge), ?_⟩
      rw [hlogs, asFollower_currentTerm, hcurrent]
      rfl
    · simp only [if_neg hnews]
      refine bind_eq_ok.mpr ⟨(), myAssert_eq_ok.mpr
        ((hcommit.trans (le_max_left _ _)).trans hmerged.ge), ?_⟩
      rw [hlogs, asFollower_currentTerm, hcurrent]
      rfl
  · rw [if_neg hagree]
    refine bind_eq_error.mpr (Or.inr ⟨(), myAssert_eq_ok.mpr hcurrent.symm, ?_⟩)
    rw [hend, if_neg hin, hsnapshot, if_neg (Nat.not_lt.mpr hle)]
    refine bind_eq_error.mpr (Or.inr ⟨true, hmatched, ?_⟩)
    rw [if_pos rfl]
    refine bind_eq_error.mpr (Or.inl ?_)
    rcases (h.enter args.term).mergeEntries_total (hstart.symm ▸ hentries) (by rwa [hlogs]) with
      ⟨q, hq⟩ | herror
    · have hagrees := (h.enter args.term).agreesWith_of_merge (hstart.symm ▸ hentries)
        (by rwa [hlogs]) hq
      unfold AgreesWith at hagrees hagree
      rw [hlogs] at hagrees
      exact absurd hagrees hagree
    · exact herror

/-! ### A request below the snapshot -/

/-- The handler returns, and a request below the snapshot is refused with the index after the
snapshot and changes none of the log and its indices. -/
def RefusesBelowSnapshot (r : Raft n) (args : AppendEntriesArgs n) : Prop :=
  ∃ r' reply, r.appendEntries args = .ok (r', reply) ∧
    (args.prevLogIndex < r.lastSnapshotIncludeIndex →
      reply.success = false ∧ reply.updateNextIndex = some (r.lastSnapshotIncludeIndex + 1) ∧
      r'.logs = r.logs ∧ r'.commitIndex = r.commitIndex ∧ r'.lastApplied = r.lastApplied ∧
      r'.lastSnapshotIncludeIndex = r.lastSnapshotIncludeIndex ∧
      r'.lastSnapshotIncludeTerm = r.lastSnapshotIncludeTerm)

/-- On a request that starts at the snapshot or above it the handler returns. -/
theorem Numbered.appendEntries_total (h : r.Numbered) (hterm : r.currentTerm ≤ args.term)
    (hcommit : r.commitIndex ≤ r.getLastLogIndex)
    (hentries : NumberedFrom args.prevLogIndex args.entries) (hagree : r.AgreesWith args.entries)
    (hle : r.lastSnapshotIncludeIndex ≤ args.prevLogIndex) :
    ∃ r' reply, r.appendEntries args = .ok (r', reply) := by
  rcases Nat.lt_or_ge r.getLastLogIndex args.prevLogIndex with hbeyond | hlast
  · exact ⟨_, _, appendEntries_beyond hterm hbeyond⟩
  · by_cases hmatch : r.getLogTermFromLogIndex args.prevLogIndex = .ok args.prevLogTerm
    · have hmerge := h.appendEntries_merge hterm hcommit hentries hmatch
      rw [if_pos hagree] at hmerge
      exact ⟨_, _, hmerge⟩
    · obtain ⟨update, heq, -⟩ := h.appendEntries_mismatch hterm hle hlast hmatch
      exact ⟨_, _, heq⟩

/-- The handler fails no assertion exactly when the request starts at the snapshot or above it. -/
theorem belowSnapshot_refused (h : r.Shape) (hterm : r.currentTerm ≤ args.term)
    (hentries : NumberedFrom args.prevLogIndex args.entries)
    (hagree : r.AgreesWith args.entries) :
    r.RefusesBelowSnapshot args ↔ r.lastSnapshotIncludeIndex ≤ args.prevLogIndex := by
  constructor
  · rintro ⟨r', reply, hr, -⟩
    rcases Nat.lt_or_ge args.prevLogIndex r.lastSnapshotIncludeIndex with hbelow | hle
    · rw [h.numbered.appendEntries_belowSnapshot hterm hbelow] at hr
      cases hr
    · exact hle
  · intro hle
    obtain ⟨r', reply, hr⟩ :=
      h.numbered.appendEntries_total hterm h.commit_le hentries hagree hle
    exact ⟨r', reply, hr, fun hbelow ↦ absurd hle (Nat.not_le.mpr hbelow)⟩

/-! ### The log after a request -/

/-- An entry of the log has the index of an entry of the request, and another term. -/
def Conflicts (r : Raft n) (entries : List LogEntry) : Prop :=
  ∃ old ∈ r.logs, ∃ log ∈ entries, old.logIndex = log.logIndex ∧ old.logTerm ≠ log.logTerm

instance (r : Raft n) (entries : List LogEntry) : Decidable (r.Conflicts entries) :=
  inferInstanceAs (Decidable (∃ old ∈ r.logs, _))

/-- The log after the request is the old one up to `prevLogIndex`, the entries of the request, and
what followed them if no entry conflicts. -/
def ReceiverRule (r : Raft n) (args : AppendEntriesArgs n) : Prop :=
  ∃ r' reply, r.appendEntries args = .ok (r', reply) ∧
    r'.logs = (r.logs.filter fun e ↦ e.logIndex ≤ args.prevLogIndex) ++ args.entries ++
      if r.Conflicts args.entries then []
      else r.logs.filter fun e ↦ args.prevLogIndex + args.entries.length < e.logIndex

/-- The rule holds exactly when the identity check passes, and nothing conflicts or the log ends
with the request. -/
theorem receiverRule (h : r.Numbered) (hterm : r.currentTerm ≤ args.term)
    (hcommit : r.commitIndex ≤ r.getLastLogIndex)
    (hentries : NumberedFrom args.prevLogIndex args.entries)
    (hmatch : r.getLogTermFromLogIndex args.prevLogIndex = .ok args.prevLogTerm) :
    r.ReceiverRule args ↔ r.AgreesWith args.entries ∧ (¬ r.Conflicts args.entries ∨
      r.getLastLogIndex ≤ args.prevLogIndex + args.entries.length) := by
  obtain ⟨hle, hlen⟩ := h.range_of_term hmatch
  have hlast := h.getLastLogIndex_eq
  have hstart : r.lastSnapshotIncludeIndex + (args.prevLogIndex - r.lastSnapshotIncludeIndex) =
      args.prevLogIndex := by omega
  have htake := @NumberedFrom.filter_le _ (args.prevLogIndex - r.lastSnapshotIncludeIndex) _ h
  have hdrop := @NumberedFrom.filter_lt _
    (args.prevLogIndex - r.lastSnapshotIncludeIndex + args.entries.length) _ h
  rw [hstart] at htake
  rw [← Nat.add_assoc, hstart] at hdrop
  have hmerge := h.appendEntries_merge hterm hcommit hentries hmatch
  have hlogs : ((r.received args).persist.logs =
      (r.logs.filter fun e ↦ e.logIndex ≤ args.prevLogIndex) ++ args.entries ++
        if r.Conflicts args.entries then []
        else r.logs.filter fun e ↦ args.prevLogIndex + args.entries.length < e.logIndex) ↔
      (¬ r.Conflicts args.entries ∨
        r.getLastLogIndex ≤ args.prevLogIndex + args.entries.length) := by
    show writeAt r.logs _ _ = _ ↔ _
    rw [htake, hdrop]
    unfold writeAt
    rw [List.append_cancel_left_eq]
    by_cases hconflict : r.Conflicts args.entries
    · rw [if_pos hconflict, List.drop_eq_nil_iff]
      constructor
      · intro hlength
        exact Or.inr (by omega)
      · rintro (hnone | hend)
        · exact absurd hconflict hnone
        · omega
    · rw [if_neg hconflict]
      exact ⟨fun _ ↦ Or.inl hconflict, fun _ ↦ rfl⟩
  constructor
  · rintro ⟨r', reply, hr, hrule⟩
    rw [hmerge] at hr
    split at hr
    · rename_i hagree
      cases hr
      exact ⟨hagree, hlogs.mp hrule⟩
    · cases hr
  · rintro ⟨hagree, hkept⟩
    rw [if_pos hagree] at hmerge
    exact ⟨_, _, hmerge, hlogs.mpr hkept⟩

end AppendEntries

/-! ### Two servers -/

section Examples

open scoped Archive

/-- A server that has taken a snapshot up to index 2. -/
def compacted : Raft 3 :=
  { fresh .first with
    currentTerm := 1
    logs := [⟨"c", 1, 3⟩]
    commitIndex := 3
    lastApplied := 3
    lastSnapshotIncludeIndex := 2
    lastSnapshotIncludeTerm := 1 }

theorem compacted_shape : compacted.Shape where
  numbered := numberedFrom_singleton rfl
  snapshot_le := by decide
  applied_le := by decide
  commit_le := by decide
  snapshot_committed := by decide

/-- The entries after `prevLogIndex` in the log that `compacted` has got from its leader. -/
def requestTo (prevLogIndex : ℕ) : AppendEntriesArgs 3 where
  term := 1
  leaderId := 0
  prevLogIndex := prevLogIndex
  prevLogTerm := 1
  entries := [⟨"a", 1, 1⟩, ⟨"b", 1, 2⟩, ⟨"c", 1, 3⟩].drop prevLogIndex
  leaderCommit := 3

theorem requestTo_numbered (prevLogIndex : ℕ) :
    NumberedFrom prevLogIndex (requestTo prevLogIndex).entries := by
  have hall : NumberedFrom 0 [⟨"a", 1, 1⟩, ⟨"b", 1, 2⟩, ⟨"c", 1, 3⟩] :=
    ((numberedFrom_singleton rfl).append (numberedFrom_singleton rfl)).append
      (numberedFrom_singleton rfl)
  have hdrop := @NumberedFrom.drop _ prevLogIndex _ hall
  rwa [Nat.zero_add] at hdrop

theorem belowSnapshot_refused_atSnapshot : compacted.RefusesBelowSnapshot (requestTo 2) :=
  (belowSnapshot_refused compacted_shape (by decide) (requestTo_numbered 2) (by decide)).mpr
    (by decide)

/-- A heartbeat from before the snapshot ends the process. -/
theorem belowSnapshot_fatal : ∃ (r : Raft 3) (args : AppendEntriesArgs 3),
    r.Shape ∧ r.currentTerm ≤ args.term ∧ NumberedFrom args.prevLogIndex args.entries ∧
      r.AgreesWith args.entries ∧ ¬ r.RefusesBelowSnapshot args := by
  refine ⟨compacted, requestTo 1, compacted_shape, by decide, requestTo_numbered 1, by decide, ?_⟩
  rintro ⟨r', reply, hr, -⟩
  have hbelow := compacted_shape.numbered.appendEntries_belowSnapshot
    (show compacted.currentTerm ≤ (requestTo 1).term by decide) (by decide)
  rw [hbelow] at hr
  cases hr

/-- A server whose entry 2 conflicts with the next request; the log of the server is the given one.
-/
def divergent (logs : List LogEntry) : Raft 3 :=
  { fresh .first with currentTerm := 2, logs := logs }

def replacingRequest : AppendEntriesArgs 3 where
  term := 2
  leaderId := 0
  prevLogIndex := 1
  prevLogTerm := 1
  entries := [⟨"z", 2, 2⟩]
  leaderCommit := 0

theorem divergent_numbered : (divergent [⟨"x", 1, 1⟩, ⟨"a", 1, 2⟩]).Numbered :=
  (numberedFrom_singleton rfl).append (numberedFrom_singleton rfl)

theorem divergent_numbered_longer :
    (divergent [⟨"x", 1, 1⟩, ⟨"a", 1, 2⟩, ⟨"b", 1, 3⟩]).Numbered :=
  ((numberedFrom_singleton rfl).append (numberedFrom_singleton rfl)).append
    (numberedFrom_singleton rfl)

theorem receiverRule_replaced :
    (divergent [⟨"x", 1, 1⟩, ⟨"a", 1, 2⟩]).ReceiverRule replacingRequest :=
  (receiverRule divergent_numbered (by decide) (by decide) (numberedFrom_singleton rfl) rfl).mpr
    (by decide)

/-- The entry behind the replaced one stays. -/
theorem receiverRule_staleTail : ∃ (r : Raft 3) (args : AppendEntriesArgs 3),
    r.Numbered ∧ r.currentTerm ≤ args.term ∧ r.commitIndex ≤ r.getLastLogIndex ∧
      NumberedFrom args.prevLogIndex args.entries ∧
      r.getLogTermFromLogIndex args.prevLogIndex = .ok args.prevLogTerm ∧
      ¬ r.ReceiverRule args := by
  refine ⟨divergent [⟨"x", 1, 1⟩, ⟨"a", 1, 2⟩, ⟨"b", 1, 3⟩], replacingRequest,
    divergent_numbered_longer, by decide, by decide, numberedFrom_singleton rfl, rfl, ?_⟩
  rintro ⟨r', reply, hr, hlogs⟩
  have hmerge := divergent_numbered_longer.appendEntries_merge
    (show _ ≤ replacingRequest.term by decide) (by decide) (numberedFrom_singleton rfl) rfl
  rw [if_pos (by decide)] at hmerge
  rw [hmerge] at hr
  cases hr
  exact absurd hlogs (by decide)

end Examples

end Raft

end Rsylar
