import Rsylar.Raft.ReceiverRule

/-!
# Requests in the wrong order

A leader's log only grows in its term, so of two requests of one term one comes from a log that
extends the other's (`Raft.LogExtends`). When the request from the longer log has been accepted, the
other one finds its own entries wherever the two ranges overlap: the server keeps what the longer
request has brought (`Raft.Keeps`), in whatever order and however often the two arrive.
-/

set_option autoImplicit false
set_option relaxedAutoImplicit false

namespace Rsylar

open TextArchive

variable {n : ℕ}

/-! ### Writing over a log -/

section WriteAt

variable {k p : ℕ} {l entries : List LogEntry}

/-- An entry stays unless another entry with its index is written. -/
theorem NumberedFrom.mem_writeAt_or (hl : NumberedFrom k l)
    (hentries : NumberedFrom (k + p) entries) {e : LogEntry} (he : e ∈ l) :
    e ∈ Rsylar.writeAt l p entries ∨ ∃ log ∈ entries, log.logIndex = e.logIndex := by
  obtain ⟨j, hj⟩ := List.mem_iff_getElem?.mp he
  have hindex := hl j e hj
  rcases Nat.lt_or_ge j p with hlow | hge
  · left
    refine List.mem_append_left _ (List.mem_append_left _ (List.mem_iff_getElem?.mpr ⟨j, ?_⟩))
    rwa [List.getElem?_take_of_lt hlow]
  · rcases Nat.lt_or_ge j (p + entries.length) with hin | hbeyond
    · right
      have hpos : j - p < entries.length := by omega
      have hlog := hentries (j - p) _ (List.getElem?_eq_getElem hpos)
      exact ⟨_, List.getElem_mem hpos, by omega⟩
    · left
      refine List.mem_append_right _ (List.mem_iff_getElem?.mpr ⟨j - (p + entries.length), ?_⟩)
      rw [List.getElem?_drop, Nat.add_sub_cancel' hbeyond, hj]

/-- Numbered lists of one length are equal when the entries of one are entries of the other. -/
theorem NumberedFrom.eq_of_mem {l' : List LogEntry} (h : NumberedFrom k l) (h' : NumberedFrom k l')
    (hlen : l.length = l'.length) (hmem : ∀ e ∈ l, e ∈ l') : l = l' := by
  refine List.ext_getElem hlen fun j hj hj' ↦ ?_
  obtain ⟨i, hi⟩ := List.mem_iff_getElem?.mp (hmem _ (List.getElem_mem hj))
  have hindex := h j _ (List.getElem?_eq_getElem hj)
  have hother := h' i _ hi
  obtain rfl : i = j := by omega
  rw [List.getElem?_eq_getElem hj'] at hi
  exact (Option.some.inj hi).symm

end WriteAt

namespace Raft

/-! ### The requests of a leader -/

/-- A heartbeat of `r`, as server `me`, sends the request to the peer. -/
def Sends (r : Raft n) (me server : Fin n) (args : AppendEntriesArgs n) : Prop :=
  ∃ sent, r.doHeartBeat me = .ok (some sent) ∧ (server, some args) ∈ sent

/-- The log of `r'` reaches as far as that of `r`, and where both have an entry or a term it is the
same. -/
structure LogExtends (r r' : Raft n) : Prop where
  last_le : r.getLastLogIndex ≤ r'.getLastLogIndex
  entry : ∀ index e e', r.entryAt index = .ok e → r'.entryAt index = .ok e' → e = e'
  term : ∀ index t t', r.getLogTermFromLogIndex index = .ok t →
    r'.getLogTermFromLogIndex index = .ok t' → t = t'

section Sends

variable {r : Raft n} {me server : Fin n} {args : AppendEntriesArgs n}

/-- The term of a request is the one that the leader has at its `prevLogIndex`. -/
theorem heartBeatTo_prevLogTerm (h : r.heartBeatTo me server = .ok (some args)) :
    r.getLogTermFromLogIndex args.prevLogIndex = .ok args.prevLogTerm := by
  obtain ⟨-, -, -, hlast, -, hprev⟩ := heartBeatTo_some h
  rcases hprev with ⟨hindex, hterm⟩ | ⟨e, he, hterm⟩
  · exact getLogTermFromLogIndex_eq_ok.mpr (Or.inl ⟨hindex, by omega, hterm⟩)
  · exact getLogTermFromLogIndex_eq_ok.mpr (Or.inr ⟨e, he, hterm⟩)

theorem heartBeatTo_numbered (hr : r.Numbered) (h : r.heartBeatTo me server = .ok (some args)) :
    NumberedFrom args.prevLogIndex args.entries := by
  obtain ⟨-, -, -, -, hentries, -⟩ := heartBeatTo_some h
  have hle := (hr.range_of_term (heartBeatTo_prevLogTerm h)).1
  have hstart : r.lastSnapshotIncludeIndex +
      (args.prevLogIndex - r.lastSnapshotIncludeIndex) = args.prevLogIndex := by omega
  rw [hentries, ← hstart, Nat.add_sub_cancel_left]
  exact NumberedFrom.drop hr

/-- The entries of a request are entries of the leader. -/
theorem heartBeatTo_mem (h : r.heartBeatTo me server = .ok (some args)) {log : LogEntry}
    (hlog : log ∈ args.entries) : log ∈ r.logs := by
  obtain ⟨-, -, -, -, hentries, -⟩ := heartBeatTo_some h
  rw [hentries] at hlog
  exact List.mem_of_mem_drop hlog

theorem Sends.heartBeatTo (h : r.Sends me server args) :
    r.heartBeatTo me server = .ok (some args) := by
  obtain ⟨sent, hsent, hmem⟩ := h
  rcases doHeartBeat_cases hsent with ⟨-, hnone⟩ | ⟨-, sent', hsome, hto⟩
  · cases hnone
  · cases hsome
    exact (hto server (some args) hmem).2

theorem Sends.term (h : r.Sends me server args) : args.term = r.currentTerm :=
  (heartBeatTo_some h.heartBeatTo).1

theorem Sends.last (h : r.Sends me server args) :
    args.prevLogIndex + args.entries.length = r.getLastLogIndex :=
  (heartBeatTo_some h.heartBeatTo).2.2.2.1

theorem Sends.prevLogTerm (h : r.Sends me server args) :
    r.getLogTermFromLogIndex args.prevLogIndex = .ok args.prevLogTerm :=
  heartBeatTo_prevLogTerm h.heartBeatTo

theorem Sends.numbered (h : r.Sends me server args) (hr : r.Numbered) :
    NumberedFrom args.prevLogIndex args.entries :=
  heartBeatTo_numbered hr h.heartBeatTo

theorem Sends.entryAt (h : r.Sends me server args) (hr : r.Numbered) {log : LogEntry}
    (hlog : log ∈ args.entries) : r.entryAt log.logIndex = .ok log :=
  hr.entryAt_of_mem (heartBeatTo_mem h.heartBeatTo hlog)

end Sends

/-- A leader that adds entries extends its log. -/
theorem LogExtends.of_append {r r' : Raft n} {extra : List LogEntry} (h : r.Numbered)
    (h' : r'.Numbered) (hindex : r'.lastSnapshotIncludeIndex = r.lastSnapshotIncludeIndex)
    (hterm : r'.lastSnapshotIncludeTerm = r.lastSnapshotIncludeTerm)
    (hlogs : r'.logs = r.logs ++ extra) : r.LogExtends r' := by
  have hentry : ∀ index e e', r.entryAt index = .ok e → r'.entryAt index = .ok e' → e = e' := by
    intro index e e' he he'
    have hat := (h.entryAt_iff.mp he).2
    have hat' := (h'.entryAt_iff.mp he').2
    have hpos := (List.getElem?_eq_some_iff.mp hat).1
    rw [hindex, hlogs, List.getElem?_append_left hpos] at hat'
    exact Option.some.inj (hat.symm.trans hat')
  refine ⟨?_, hentry, fun index t t' ht ht' ↦ ?_⟩
  · rw [h.getLastLogIndex_eq, h'.getLastLogIndex_eq, hindex, hlogs, List.length_append]
    omega
  · rcases getLogTermFromLogIndex_eq_ok.mp ht with ⟨hsnapshot, -, rfl⟩ | ⟨e, he, rfl⟩
    · rcases getLogTermFromLogIndex_eq_ok.mp ht' with ⟨-, -, rfl⟩ | ⟨e', he', rfl⟩
      · exact hterm.symm
      · have hlt := (entryAt_eq_ok.mp he').1
        omega
    · rcases getLogTermFromLogIndex_eq_ok.mp ht' with ⟨hsnapshot, -, rfl⟩ | ⟨e', he', rfl⟩
      · have hlt := (entryAt_eq_ok.mp he).1
        omega
      · rw [hentry index e e' he he']

/-! ### What an accepted request leaves -/

/-- The server has the entries of the request, at the place where the request would be accepted, and
its commit index has followed the request. -/
structure Keeps (q : Raft n) (args : AppendEntriesArgs n) : Prop where
  numbered : q.Numbered
  currentTerm : q.currentTerm = args.term
  commit_le : q.commitIndex ≤ q.getLastLogIndex
  prev : q.getLogTermFromLogIndex args.prevLogIndex = .ok args.prevLogTerm
  entries : ∀ log ∈ args.entries, log ∈ q.logs
  last_le : args.prevLogIndex + args.entries.length ≤ q.getLastLogIndex
  committed : min args.leaderCommit q.getLastLogIndex ≤ q.commitIndex

section Keeps

variable {r q : Raft n} {args : AppendEntriesArgs n}

/-- Entries that the log has do not contradict it. -/
theorem Numbered.agreesWith_of_mem (h : r.Numbered) {entries : List LogEntry}
    (hmem : ∀ log ∈ entries, log ∈ r.logs) : r.AgreesWith entries := by
  intro old hold log hlog hindex _
  rw [NumberedFrom.eq_of_logIndex h hold (hmem log hlog) hindex]

theorem enterTerm_self (h : r.currentTerm = args.term) : r.enterTerm args.term = r := by
  unfold enterTerm
  rw [if_neg (by omega)]

/-- Every entry of a request is written. -/
theorem mem_received {log : LogEntry} (hlog : log ∈ args.entries) :
    log ∈ (r.received args).logs :=
  mem_writeAt_of_mem hlog

/-- An entry stays unless the request has another one with its index. -/
theorem Numbered.mem_received_or (h : r.Numbered)
    (hentries : NumberedFrom args.prevLogIndex args.entries)
    (hmatch : r.getLogTermFromLogIndex args.prevLogIndex = .ok args.prevLogTerm) {e : LogEntry}
    (he : e ∈ r.logs) :
    e ∈ (r.received args).logs ∨ ∃ log ∈ args.entries, log.logIndex = e.logIndex := by
  obtain ⟨hle, -⟩ := h.range_of_term hmatch
  have hstart : r.lastSnapshotIncludeIndex + (args.prevLogIndex - r.lastSnapshotIncludeIndex) =
      args.prevLogIndex := by omega
  exact NumberedFrom.mem_writeAt_or h (hstart.symm ▸ hentries) he

/-- The term of an index of a log that has an entry there. -/
theorem Numbered.term_of_mem (h : r.Numbered) {e : LogEntry} (he : e ∈ r.logs) :
    r.getLogTermFromLogIndex e.logIndex = .ok e.logTerm :=
  getLogTermFromLogIndex_eq_ok.mpr (Or.inr ⟨e, h.entryAt_of_mem he, rfl⟩)

/-- An index has the term it had, or that of the entry which the request brings for it. -/
theorem Numbered.received_term (h : r.Numbered)
    (hentries : NumberedFrom args.prevLogIndex args.entries)
    (hmatch : r.getLogTermFromLogIndex args.prevLogIndex = .ok args.prevLogTerm) {index t : ℕ}
    (hterm : r.getLogTermFromLogIndex index = .ok t) :
    (r.received args).getLogTermFromLogIndex index = .ok t ∨
      ∃ log ∈ args.entries, log.logIndex = index ∧
        (r.received args).getLogTermFromLogIndex index = .ok log.logTerm := by
  obtain ⟨hnumbered, hlast⟩ := h.received_log hentries hmatch
  rcases getLogTermFromLogIndex_eq_ok.mp hterm with ⟨hindex, hle, hsame⟩ | ⟨e, he, hsame⟩
  · refine Or.inl (getLogTermFromLogIndex_eq_ok.mpr (Or.inl ⟨?_, ?_, ?_⟩))
    · exact hindex.trans (r.enterTerm_lastSnapshotIncludeIndex _).symm
    · rw [hlast]
      exact hle.trans (le_max_left _ _)
    · exact hsame.trans (r.enterTerm_lastSnapshotIncludeTerm _).symm
  · have hmem := List.mem_of_getElem? (h.entryAt_iff.mp he).2
    have hindex := h.logIndex_of_entryAt he
    rcases h.mem_received_or hentries hmatch hmem with hkept | ⟨log, hlog, hother⟩
    · rw [← hindex, ← hsame]
      exact Or.inl (hnumbered.term_of_mem hkept)
    · rw [← hindex, ← hother]
      exact Or.inr ⟨log, hlog, rfl, hnumbered.term_of_mem (mem_received hlog)⟩

variable {m m' : AppendEntriesArgs n}

/-- The server after a request that it has accepted. -/
theorem keeps_received (h : r.Numbered) (hterm : r.currentTerm = m.term)
    (hcommit : r.commitIndex ≤ r.getLastLogIndex)
    (hentries : NumberedFrom m.prevLogIndex m.entries)
    (hmatch : r.getLogTermFromLogIndex m.prevLogIndex = .ok m.prevLogTerm) :
    (r.received m).Keeps m := by
  obtain ⟨hnumbered, hlast⟩ := h.received_log hentries hmatch
  have hself := enterTerm_self hterm
  refine ⟨hnumbered, ?_, ?_, ?_, fun log hlog ↦ mem_received hlog, ?_, ?_⟩
  · show (r.enterTerm m.term).currentTerm = _
    rw [hself, hterm]
  · show (if _ then _ else _) ≤ _
    rw [hlast]
    split
    · exact min_le_right _ _
    · exact hcommit.trans (le_max_left _ _)
  · rcases h.received_term hentries hmatch hmatch with hkept | ⟨log, hlog, hindex, -⟩
    · exact hkept
    · -- The request starts behind the index that it matches.
      obtain ⟨j, hj⟩ := List.mem_iff_getElem?.mp hlog
      have hj' := hentries j log hj
      omega
  · rw [hlast]
    exact le_max_right _ _
  · show _ ≤ (if _ then _ else _)
    rw [hlast]
    split
    · exact le_refl _
    · exact (min_le_left _ _).trans (by omega)

/-- A request from the shorter log. -/
theorem Keeps.received {me server : Fin n} {ℓ ℓ' : Raft n} (h : q.Keeps m') (hℓ : ℓ.Numbered)
    (hℓ' : ℓ'.Numbered) (hm : ℓ.Sends me server m) (hm' : ℓ'.Sends me server m')
    (hextends : ℓ.LogExtends ℓ') (hterm : m.term = m'.term)
    (hmatch : q.getLogTermFromLogIndex m.prevLogIndex = .ok m.prevLogTerm) :
    (q.received m).Keeps m' ∧ (q.received m).getLastLogIndex = q.getLastLogIndex ∧
      q.commitIndex ≤ (q.received m).commitIndex := by
  have hentries := hm.numbered hℓ
  obtain ⟨hnumbered, hlast⟩ := h.numbered.received_log hentries hmatch
  have hself := enterTerm_self (h.currentTerm.trans hterm.symm)
  -- The request ends within the log.
  have hend : m.prevLogIndex + m.entries.length ≤ q.getLastLogIndex := by
    rw [hm.last]
    exact hextends.last_le.trans (hm'.last ▸ h.last_le)
  rw [max_eq_left hend] at hlast
  have hcommit := h.commit_le
  have hcommitted : q.commitIndex ≤ (q.received m).commitIndex := by
    show _ ≤ (if _ then _ else _)
    split
    · exact le_min (by omega) (hcommit.trans (le_max_left _ _))
    · exact le_refl _
  refine ⟨⟨hnumbered, ?_, ?_, ?_, fun log hlog ↦ ?_, ?_, ?_⟩, hlast, hcommitted⟩
  · show (q.enterTerm m.term).currentTerm = _
    rw [hself, h.currentTerm]
  · show (if _ then _ else _) ≤ _
    rw [hlast]
    split
    · rw [max_eq_left hend]
      exact min_le_right _ _
    · exact hcommit
  · rcases h.numbered.received_term hentries hmatch h.prev with hkept | ⟨log, hlog, hindex, hnew⟩
    · exact hkept
    · have hat := getLogTermFromLogIndex_eq_ok.mpr (Or.inr ⟨log, hm.entryAt hℓ hlog, rfl⟩)
      rw [hindex] at hat
      rw [hnew, hextends.term _ _ _ hat hm'.prevLogTerm]
  · rcases h.numbered.mem_received_or hentries hmatch (h.entries log hlog) with
      hkept | ⟨log', hlog', hindex⟩
    · exact hkept
    · have hat := hm.entryAt hℓ hlog'
      rw [hindex] at hat
      rw [← hextends.entry _ _ _ hat (hm'.entryAt hℓ' hlog)]
      exact mem_received hlog'
  · rw [hlast]
    exact h.last_le
  · rw [hlast]
    exact h.committed.trans hcommitted

variable [Codec LogEntry] [Codec (BoostPersistRaftNode n)]

/-- A request that starts within the log and is not refused is written. -/
theorem Numbered.appendEntries_range {reply : AppendEntriesReply} {r' : Raft n} (h : r.Numbered)
    (hterm : r.currentTerm = args.term) (hcommit : r.commitIndex ≤ r.getLastLogIndex)
    (hentries : NumberedFrom args.prevLogIndex args.entries)
    (hle : r.lastSnapshotIncludeIndex ≤ args.prevLogIndex)
    (hlast : args.prevLogIndex ≤ r.getLastLogIndex)
    (hr : r.appendEntries args = .ok (r', reply)) :
    (reply.success = false ∧ r' = r.asFollower.persist) ∨
      (reply.success = true ∧ r' = (r.received args).persist ∧ r.AgreesWith args.entries ∧
        r.getLogTermFromLogIndex args.prevLogIndex = .ok args.prevLogTerm) := by
  by_cases hmatch : r.getLogTermFromLogIndex args.prevLogIndex = .ok args.prevLogTerm
  · rw [h.appendEntries_merge hterm.le hcommit hentries hmatch] at hr
    split at hr
    · cases hr
      exact Or.inr ⟨rfl, rfl, ‹_›, hmatch⟩
    · cases hr
  · obtain ⟨update, heq, -⟩ := h.appendEntries_mismatch hterm.le hle hlast hmatch
    rw [heq] at hr
    cases hr
    rw [enterTerm_self hterm]
    exact Or.inl ⟨rfl, rfl⟩

end Keeps

/-! ### Any number of times -/

section Times

variable [Codec LogEntry] [Codec (BoostPersistRaftNode n)]

/-- The server after the same request has arrived the given number of times. -/
def appendEntriesTimes (r : Raft n) (args : AppendEntriesArgs n) : ℕ → Except Abort (Raft n)
  | 0 => .ok r
  | times + 1 => do
    let r ← r.appendEntriesTimes args times
    let (r, _) ← r.appendEntries args
    pure r

variable {r q q' : Raft n} {me server : Fin n} {ℓ ℓ' : Raft n} {m m' : AppendEntriesArgs n}

theorem Keeps.times (h : q.Keeps m') (hℓ : ℓ.Numbered) (hℓ' : ℓ'.Numbered)
    (hm : ℓ.Sends me server m) (hm' : ℓ'.Sends me server m') (hextends : ℓ.LogExtends ℓ')
    (hterm : m.term = m'.term) (hle : q.lastSnapshotIncludeIndex ≤ m.prevLogIndex) {times : ℕ}
    (htimes : q.appendEntriesTimes m times = .ok q') :
    q'.Keeps m' ∧ q'.lastSnapshotIncludeIndex = q.lastSnapshotIncludeIndex ∧
      q'.getLastLogIndex = q.getLastLogIndex ∧ q.commitIndex ≤ q'.commitIndex := by
  induction times generalizing q' with
  | zero =>
    cases htimes
    exact ⟨h, rfl, rfl, le_refl _⟩
  | succ times ih =>
    obtain ⟨q₁, hq₁, htimes⟩ := bind_eq_ok.mp htimes
    obtain ⟨⟨q₂, reply⟩, hq₂, htimes⟩ := bind_eq_ok.mp htimes
    cases htimes
    obtain ⟨hkeeps, hsnapshot, hlast, hcommit⟩ := ih hq₁
    have hend : m.prevLogIndex ≤ q₁.getLastLogIndex := by
      have hfirst := hm.last
      have hsecond := hm'.last
      have hreach := hkeeps.last_le
      have hlonger := hextends.last_le
      omega
    rcases hkeeps.numbered.appendEntries_range (hkeeps.currentTerm.trans hterm.symm)
      hkeeps.commit_le (hm.numbered hℓ) (hsnapshot ▸ hle) hend hq₂ with
      ⟨-, rfl⟩ | ⟨-, rfl, -, hmatch⟩
    · exact ⟨⟨hkeeps.numbered, hkeeps.currentTerm, hkeeps.commit_le, hkeeps.prev, hkeeps.entries,
        hkeeps.last_le, hkeeps.committed⟩, hsnapshot, hlast, hcommit⟩
    · obtain ⟨hnext, hlast', hcommit'⟩ := hkeeps.received hℓ hℓ' hm hm' hextends hterm hmatch
      exact ⟨⟨hnext.numbered, hnext.currentTerm, hnext.commit_le, hnext.prev, hnext.entries,
        hnext.last_le, hnext.committed⟩,
        (q₁.enterTerm_lastSnapshotIncludeIndex m.term).trans hsnapshot, hlast'.trans hlast,
        hcommit.trans hcommit'⟩

/-- The handler returns as long as the request does not contradict the log. -/
theorem Keeps.times_total (h : q.Keeps m') (hℓ : ℓ.Numbered) (hℓ' : ℓ'.Numbered)
    (hm : ℓ.Sends me server m) (hm' : ℓ'.Sends me server m') (hextends : ℓ.LogExtends ℓ')
    (hterm : m.term = m'.term) (hle : q.lastSnapshotIncludeIndex ≤ m.prevLogIndex)
    (hagree : q.AgreesWith m.entries) (times : ℕ) :
    ∃ q', q.appendEntriesTimes m times = .ok q' ∧ q'.AgreesWith m.entries := by
  induction times with
  | zero => exact ⟨q, rfl, hagree⟩
  | succ times ih =>
    obtain ⟨q₁, hq₁, hagree₁⟩ := ih
    obtain ⟨hkeeps, hsnapshot, -, -⟩ := h.times hℓ hℓ' hm hm' hextends hterm hle hq₁
    have hentries := hm.numbered hℓ
    have hcurrent := hkeeps.currentTerm.trans hterm.symm
    obtain ⟨q₂, reply, hq₂⟩ := hkeeps.numbered.appendEntries_total hcurrent.le hkeeps.commit_le
      hentries hagree₁ (hsnapshot ▸ hle)
    refine ⟨q₂, bind_eq_ok.mpr ⟨q₁, hq₁, bind_eq_ok.mpr ⟨(q₂, reply), hq₂, rfl⟩⟩, ?_⟩
    have hend : m.prevLogIndex ≤ q₁.getLastLogIndex := by
      have hfirst := hm.last
      have hsecond := hm'.last
      have hreach := hkeeps.last_le
      have hlonger := hextends.last_le
      omega
    rcases hkeeps.numbered.appendEntries_range hcurrent hkeeps.commit_le hentries
      (hsnapshot ▸ hle) hend hq₂ with ⟨-, rfl⟩ | ⟨-, rfl, -, hmatch⟩
    · exact hagree₁
    · have hnumbered := (hkeeps.numbered.received_log hentries hmatch).1
      exact hnumbered.agreesWith_of_mem fun log hlog ↦ mem_received hlog

/-- A request that the server keeps changes nothing when it arrives again. -/
theorem Keeps.again (h : q.Keeps m') (hℓ' : ℓ'.Numbered) (hm' : ℓ'.Sends me server m') :
    ∃ q' reply, q.appendEntries m' = .ok (q', reply) ∧ q'.logs = q.logs ∧
      q'.commitIndex = q.commitIndex := by
  have hentries := hm'.numbered hℓ'
  have hagree := h.numbered.agreesWith_of_mem h.entries
  have hmerge := h.numbered.appendEntries_merge h.currentTerm.le h.commit_le hentries h.prev
  rw [if_pos hagree] at hmerge
  have hself := enterTerm_self h.currentTerm
  obtain ⟨hnumbered, hlast⟩ := h.numbered.received_log hentries h.prev
  rw [max_eq_left h.last_le] at hlast
  refine ⟨_, _, hmerge, ?_, ?_⟩
  · have hsnapshot : (q.received m').lastSnapshotIncludeIndex = q.lastSnapshotIncludeIndex :=
      q.enterTerm_lastSnapshotIncludeIndex _
    have hlen : (q.received m').logs.length = q.logs.length := by
      have hfirst := hnumbered.getLastLogIndex_eq
      have hsecond := h.numbered.getLastLogIndex_eq
      omega
    unfold Numbered at hnumbered
    rw [hsnapshot] at hnumbered
    refine hnumbered.eq_of_mem h.numbered hlen fun e he ↦ ?_
    rcases mem_writeAt he with hold | hnew
    · exact hold
    · exact h.entries e hnew
  · have hcommit := h.commit_le
    have hcommitted := h.committed
    have hfollowed : (q.received m').commitIndex = if q.commitIndex < m'.leaderCommit then
        min m'.leaderCommit (max q.getLastLogIndex (m'.prevLogIndex + m'.entries.length))
      else q.commitIndex := rfl
    rw [max_eq_left h.last_le] at hfollowed
    rw [persist_commitIndex, hfollowed]
    split
    · omega
    · rfl

/-- After a request from the longer of two logs of a leader has been accepted, the request from the
shorter one takes nothing back, however often it arrives, and the longer one has nothing to add. -/
theorem staleRequest_keeps {reply : AppendEntriesReply} (hr : r.Numbered)
    (hcommit : r.commitIndex ≤ r.getLastLogIndex) (hℓ : ℓ.Numbered) (hℓ' : ℓ'.Numbered)
    (hextends : ℓ.LogExtends ℓ') (hm : ℓ.Sends me server m) (hm' : ℓ'.Sends me server m')
    (hterm : ℓ.currentTerm = r.currentTerm) (hterm' : ℓ'.currentTerm = r.currentTerm)
    (hprev : r.lastSnapshotIncludeIndex ≤ m.prevLogIndex)
    (hprev' : r.lastSnapshotIncludeIndex ≤ m'.prevLogIndex)
    (haccept : r.appendEntries m' = .ok (q, reply)) (hsuccess : reply.success = true) :
    (∀ times q', q.appendEntriesTimes m times = .ok q' →
      (∀ index, m'.prevLogIndex < index → index ≤ m'.prevLogIndex + m'.entries.length →
        q'.entryAt index = q.entryAt index) ∧
      q.getLastLogIndex ≤ q'.getLastLogIndex ∧ q.commitIndex ≤ q'.commitIndex ∧
      ∃ q'' reply', q'.appendEntries m' = .ok (q'', reply') ∧ q''.logs = q'.logs ∧
        q''.commitIndex = q'.commitIndex) ∧
    (q.AgreesWith m.entries → ∀ times, ∃ q', q.appendEntriesTimes m times = .ok q') := by
  have hterms : m.term = m'.term := by rw [hm.term, hm'.term, hterm, hterm']
  have hcurrent' : r.currentTerm = m'.term := by rw [hm'.term, hterm']
  -- The accepted request starts within the log.
  have hrange : m'.prevLogIndex ≤ r.getLastLogIndex := by
    rcases Nat.lt_or_ge r.getLastLogIndex m'.prevLogIndex with hbeyond | hin
    · rw [appendEntries_beyond hcurrent'.le hbeyond] at haccept
      cases haccept
      cases hsuccess
    · exact hin
  rcases hr.appendEntries_range hcurrent' hcommit (hm'.numbered hℓ') hprev' hrange haccept with
    ⟨hfail, -⟩ | ⟨-, rfl, -, hmatch⟩
  · rw [hsuccess] at hfail
    cases hfail
  have hreceived := keeps_received hr hcurrent' hcommit (hm'.numbered hℓ') hmatch
  have hkeeps : (r.received m').persist.Keeps m' :=
    ⟨hreceived.numbered, hreceived.currentTerm, hreceived.commit_le, hreceived.prev,
      hreceived.entries, hreceived.last_le, hreceived.committed⟩
  have hsnapshot : (r.received m').persist.lastSnapshotIncludeIndex ≤ m.prevLogIndex :=
    (r.enterTerm_lastSnapshotIncludeIndex _).le.trans hprev
  refine ⟨fun times q' htimes ↦ ?_, fun hagree times ↦ ?_⟩
  · obtain ⟨hkept, hsame, hlast, hcommit'⟩ :=
      hkeeps.times hℓ hℓ' hm hm' hextends hterms hsnapshot htimes
    refine ⟨fun index hlt hle ↦ ?_, hlast.ge, hcommit', hkept.again hℓ' hm'⟩
    -- Both have the entry of the request at this index.
    have hentries := hm'.numbered hℓ'
    have hpos : index - m'.prevLogIndex - 1 < m'.entries.length := by omega
    have hlog := List.getElem_mem hpos
    have hindex := hentries _ _ (List.getElem?_eq_getElem hpos)
    have hnow := hkept.numbered.entryAt_of_mem (hkept.entries _ hlog)
    have hthen := hkeeps.numbered.entryAt_of_mem (hkeeps.entries _ hlog)
    rw [show index = (m'.entries[index - m'.prevLogIndex - 1]).logIndex by omega, hnow, hthen]
  · obtain ⟨q', hq', -⟩ :=
      hkeeps.times_total hℓ hℓ' hm hm' hextends hterms hsnapshot hagree times
    exact ⟨q', hq'⟩

end Times

/-! ### Two heartbeats of a leader -/

section Examples

open scoped Archive

/-- A leader of term 1 that sends what follows the given index. -/
def overlapLeader (nextIndex : ℕ) (logs : List LogEntry) : Raft 3 :=
  { fresh .first with
    currentTerm := 1
    status := .leader
    logs := logs
    nextIndex := fun _ ↦ nextIndex }

def overlapFollower : Raft 3 :=
  { fresh .first with currentTerm := 1, logs := [⟨"a", 1, 1⟩] }

/-- The request that `overlapLeader` sends. -/
def overlapRequest (prevLogIndex prevLogTerm : ℕ) (entries : List LogEntry) :
    AppendEntriesArgs 3 where
  term := 1
  leaderId := 0
  prevLogIndex := prevLogIndex
  prevLogTerm := prevLogTerm
  entries := entries
  leaderCommit := 0

theorem overlapLeader_numbered (nextIndex : ℕ) :
    (overlapLeader nextIndex [⟨"a", 1, 1⟩, ⟨"b", 1, 2⟩]).Numbered ∧
      (overlapLeader nextIndex [⟨"a", 1, 1⟩, ⟨"b", 1, 2⟩, ⟨"c", 1, 3⟩]).Numbered :=
  ⟨(numberedFrom_singleton rfl).append (numberedFrom_singleton rfl),
    ((numberedFrom_singleton rfl).append (numberedFrom_singleton rfl)).append
      (numberedFrom_singleton rfl)⟩

/-- Entries 1 and 2 arrive after entries 2 and 3. -/
theorem staleRequest_overlap : ∃ q reply, overlapFollower.appendEntries
      (overlapRequest 1 1 [⟨"b", 1, 2⟩, ⟨"c", 1, 3⟩]) = .ok (q, reply) ∧
    (∀ times q',
      q.appendEntriesTimes (overlapRequest 0 0 [⟨"a", 1, 1⟩, ⟨"b", 1, 2⟩]) times = .ok q' →
        q'.entryAt 3 = q.entryAt 3) ∧
    ∀ times, ∃ q',
      q.appendEntriesTimes (overlapRequest 0 0 [⟨"a", 1, 1⟩, ⟨"b", 1, 2⟩]) times = .ok q' := by
  refine ⟨_, _, rfl, ?_⟩
  have hkeeps := @staleRequest_keeps 3 _ _ overlapFollower _ 0 1
    (overlapLeader 1 [⟨"a", 1, 1⟩, ⟨"b", 1, 2⟩])
    (overlapLeader 2 [⟨"a", 1, 1⟩, ⟨"b", 1, 2⟩, ⟨"c", 1, 3⟩])
    (overlapRequest 0 0 [⟨"a", 1, 1⟩, ⟨"b", 1, 2⟩])
    (overlapRequest 1 1 [⟨"b", 1, 2⟩, ⟨"c", 1, 3⟩]) _ (numberedFrom_singleton rfl) (by decide)
    (overlapLeader_numbered 1).1 (overlapLeader_numbered 2).2
    (.of_append (overlapLeader_numbered 1).1 (overlapLeader_numbered 2).2 rfl rfl rfl)
    ⟨_, rfl, by decide⟩ ⟨_, rfl, by decide⟩ rfl rfl (by decide) (by decide) rfl rfl
  exact ⟨fun times q' htimes ↦ (hkeeps.1 times q' htimes).1 3 (by decide) (by decide),
    fun times ↦ (hkeeps.2 (by decide) times)⟩

end Examples

end Raft

end Rsylar
