import Rsylar.Raft.ServerSpec

/-!
# Numbered logs

The entries of a log carry the indices after the snapshot, in order (`Raft.Numbered`), and so do the
entries of an append request after its `prevLogIndex`. On numbered logs the functions that look up
an index are list access, and merging a request writes its entries over the log from one position on
(`Raft.mergeEntries_eq`): what the log holds beyond them stays, whatever its terms.
-/

set_option autoImplicit false
set_option relaxedAutoImplicit false

namespace Rsylar

/-! ### Numbered entries -/

/-- The entries have the indices after `k`, in order. -/
def NumberedFrom (k : ℕ) (l : List LogEntry) : Prop :=
  ∀ j e, l[j]? = some e → e.logIndex = k + 1 + j

/-- The list with `entries` written over it from position `p` on. -/
def writeAt (l : List LogEntry) (p : ℕ) (entries : List LogEntry) : List LogEntry :=
  l.take p ++ entries ++ l.drop (p + entries.length)

section Numbered

variable {k p : ℕ} {l entries : List LogEntry}

theorem NumberedFrom.nil : NumberedFrom k [] := by
  intro j e h
  simp at h

theorem numberedFrom_singleton {e : LogEntry} (h : e.logIndex = k + 1) : NumberedFrom k [e] := by
  intro j a ha
  cases j with
  | zero =>
    cases ha
    exact h
  | succ j => simp at ha

theorem NumberedFrom.append (hl : NumberedFrom k l) (hentries : NumberedFrom (k + l.length) entries) :
    NumberedFrom k (l ++ entries) := by
  intro j e h
  rcases Nat.lt_or_ge j l.length with hlt | hge
  · rw [List.getElem?_append_left hlt] at h
    exact hl j e h
  · rw [List.getElem?_append_right hge] at h
    have hindex := hentries _ e h
    omega

theorem NumberedFrom.take (h : NumberedFrom k l) : NumberedFrom k (l.take p) := by
  intro j e hj
  rw [List.getElem?_take] at hj
  split at hj
  · exact h j e hj
  · cases hj

theorem NumberedFrom.drop (h : NumberedFrom k l) : NumberedFrom (k + p) (l.drop p) := by
  intro j e hj
  rw [List.getElem?_drop] at hj
  have hindex := h _ e hj
  omega

/-- An entry beyond the first `p` indices is left when these are dropped. -/
theorem NumberedFrom.mem_drop (h : NumberedFrom k l) {e : LogEntry} (he : e ∈ l)
    (hlt : k + p < e.logIndex) : e ∈ l.drop p := by
  obtain ⟨j, hj⟩ := List.mem_iff_getElem?.mp he
  have hindex := h j e hj
  refine List.mem_iff_getElem?.mpr ⟨j - p, ?_⟩
  rw [List.getElem?_drop, ← hj]
  congr 1
  omega

theorem NumberedFrom.tail {e : LogEntry} (h : NumberedFrom k (e :: l)) : NumberedFrom (k + 1) l := by
  intro j a ha
  have hindex := h (j + 1) a ha
  omega

theorem NumberedFrom.head {e : LogEntry} (h : NumberedFrom k (e :: l)) : e.logIndex = k + 1 :=
  h 0 e rfl

/-- The last of the entries has the last index. -/
theorem NumberedFrom.getLast (h : NumberedFrom k l) {e : LogEntry} (he : l.getLast? = some e) :
    e ∈ l ∧ e.logIndex = k + l.length := by
  have hmem := List.mem_of_getLast? he
  have hpos := List.length_pos_of_mem hmem
  rw [List.getLast?_eq_getElem?] at he
  have hindex := h _ e he
  exact ⟨hmem, by omega⟩

theorem NumberedFrom.writeAt (hl : NumberedFrom k l) (hentries : NumberedFrom (k + p) entries)
    (hp : p ≤ l.length) : NumberedFrom k (writeAt l p entries) := by
  have hlen : (l.take p).length = p := List.length_take_of_le hp
  refine (hl.take.append (hlen.symm ▸ hentries)).append ?_
  rw [List.length_append, hlen]
  exact hl.drop

theorem length_writeAt (hp : p ≤ l.length) :
    (writeAt l p entries).length = max l.length (p + entries.length) := by
  simp only [writeAt, List.length_append, List.length_take, List.length_drop]
  omega

theorem mem_writeAt {e : LogEntry} (h : e ∈ writeAt l p entries) : e ∈ l ∨ e ∈ entries := by
  unfold Rsylar.writeAt at h
  rcases List.mem_append.mp h with h | h
  · rcases List.mem_append.mp h with h | h
    · exact Or.inl (List.mem_of_mem_take h)
    · exact Or.inr h
  · exact Or.inl (List.mem_of_mem_drop h)

theorem mem_writeAt_of_mem {e : LogEntry} (h : e ∈ entries) : e ∈ writeAt l p entries :=
  List.mem_append_left _ (List.mem_append_right _ h)

theorem writeAt_nil (l : List LogEntry) (p : ℕ) : writeAt l p [] = l := by
  simp [writeAt]

/-- Entries can be written one after the other. -/
theorem writeAt_cons {e : LogEntry} (hp : p ≤ l.length) :
    writeAt (writeAt l p [e]) (p + 1) entries = writeAt l p (e :: entries) := by
  have hlen : (l.take p).length = p := List.length_take_of_le hp
  have hhead : (l.take p ++ [e]).length = p + 1 := by simp [hlen]
  unfold writeAt
  rw [List.take_append_of_le_length hhead.ge, List.take_of_length_le hhead.le]
  have hdrop : (l.take p ++ [e] ++ l.drop (p + 1)).drop (p + 1 + entries.length) =
      l.drop (p + (entries.length + 1)) := by
    rw [← hhead, List.drop_append, List.drop_of_length_le (by omega), hhead]
    simp only [List.nil_append, List.drop_drop]
    congr 1
    omega
  simp only [List.length_cons, List.length_nil, Nat.zero_add]
  rw [hdrop]
  simp

end Numbered

namespace Raft

variable {n : ℕ} {r r' : Raft n}

/-- The log goes on where the snapshot ends. -/
def Numbered (r : Raft n) : Prop :=
  NumberedFrom r.lastSnapshotIncludeIndex r.logs

namespace Numbered

theorem getLastLogIndex_eq (h : r.Numbered) :
    r.getLastLogIndex = r.lastSnapshotIncludeIndex + r.logs.length := by
  unfold getLastLogIndex getLastLogIndexAndTerm
  cases hlast : r.logs.getLast? with
  | none =>
    rw [List.getLast?_eq_none_iff.mp hlast]
    rfl
  | some e =>
    have hne : r.logs ≠ [] := by
      intro hnil
      rw [hnil] at hlast
      cases hlast
    have hpos : 0 < r.logs.length := List.length_pos_iff.mpr hne
    rw [List.getLast?_eq_getElem?] at hlast
    have hindex := h _ e hlast
    show e.logIndex = _
    omega

theorem entryAt_iff (h : r.Numbered) {logIndex : ℕ} {e : LogEntry} :
    r.entryAt logIndex = .ok e ↔ r.lastSnapshotIncludeIndex < logIndex ∧
      r.logs[logIndex - r.lastSnapshotIncludeIndex - 1]? = some e := by
  rw [entryAt_eq_ok]
  constructor
  · rintro ⟨hlt, -, hget⟩
    exact ⟨hlt, hget⟩
  · rintro ⟨hlt, hget⟩
    have hpos := (List.getElem?_eq_some_iff.mp hget).1
    rw [h.getLastLogIndex_eq]
    exact ⟨hlt, by omega, hget⟩

theorem logIndex_of_entryAt (h : r.Numbered) {logIndex : ℕ} {e : LogEntry}
    (he : r.entryAt logIndex = .ok e) : e.logIndex = logIndex := by
  obtain ⟨hlt, hget⟩ := h.entryAt_iff.mp he
  have hindex := h _ e hget
  omega

/-- An entry of the log is found at its index. -/
theorem entryAt_of_mem (h : r.Numbered) {e : LogEntry} (he : e ∈ r.logs) :
    r.entryAt e.logIndex = .ok e := by
  obtain ⟨j, hj⟩ := List.mem_iff_getElem?.mp he
  have hindex := h j e hj
  refine h.entryAt_iff.mpr ⟨by omega, ?_⟩
  rw [← hj]
  congr 1
  omega

/-- An index that has a term is in the log or at the snapshot. -/
theorem range_of_term (h : r.Numbered) {logIndex term : ℕ}
    (hterm : r.getLogTermFromLogIndex logIndex = .ok term) :
    r.lastSnapshotIncludeIndex ≤ logIndex ∧
      logIndex - r.lastSnapshotIncludeIndex ≤ r.logs.length := by
  have hlast := h.getLastLogIndex_eq
  rcases getLogTermFromLogIndex_eq_ok.mp hterm with ⟨heq, hle, -⟩ | ⟨e, he, -⟩
  · exact ⟨heq.ge, by omega⟩
  · obtain ⟨hlt, hle, -⟩ := entryAt_eq_ok.mp he
    exact ⟨hlt.le, by omega⟩

end Numbered

/-! ### Merging -/

theorem mergeEntry_eq (h : r.Numbered) {log : LogEntry} {p : ℕ}
    (hindex : log.logIndex = r.lastSnapshotIncludeIndex + 1 + p) (hp : p ≤ r.logs.length)
    (hmerge : r.mergeEntry log = .ok r') : r' = { r with logs := writeAt r.logs p [log] } := by
  unfold mergeEntry at hmerge
  rw [h.getLastLogIndex_eq] at hmerge
  split at hmerge
  · -- Beyond the end.
    cases hmerge
    obtain rfl : p = r.logs.length := by omega
    simp [writeAt]
  · obtain ⟨slice, hslice, hmerge⟩ := bind_eq_ok.mp hmerge
    obtain ⟨old, hold, hmerge⟩ := bind_eq_ok.mp hmerge
    obtain ⟨-, -, rfl⟩ := getSlicesIndexFromLogIndex_eq_ok.mp hslice
    have hslice : log.logIndex - r.lastSnapshotIncludeIndex - 1 = p := by omega
    have hget := (h.entryAt_iff.mp hold).2
    rw [hslice] at hget hmerge
    have hlt : p < r.logs.length := (List.getElem?_eq_some_iff.mp hget).1
    have hset : ∀ e, r.logs.set p e = writeAt r.logs p [e] := by
      intro e
      rw [List.set_eq_take_append_cons_drop, if_pos hlt]
      simp [writeAt]
    split at hmerge
    · cases hmerge
    · rename_i hsame
      split at hmerge
      · cases hmerge
        rw [hset]
      · -- The same index, term and command: the entry itself.
        rename_i hterm
        cases hmerge
        have heq : old = log := by
          have hcommand : old.command = log.command := by tauto
          have hterm : old.logTerm = log.logTerm := by tauto
          have holdIndex := h.logIndex_of_entryAt hold
          cases old
          cases log
          simp_all
        obtain ⟨hp, hat⟩ := List.getElem?_eq_some_iff.mp hget
        have hself : r.logs.set p old = r.logs := by
          rw [← hat]
          exact List.set_getElem_self hp
        rw [← hset, ← heq, hself]

/-- A numbered log stays numbered when the next entry of a request is written into it. -/
theorem Numbered.writeAt_head (h : r.Numbered) {log : LogEntry} {entries : List LogEntry} {p : ℕ}
    (hentries : NumberedFrom (r.lastSnapshotIncludeIndex + p) (log :: entries))
    (hp : p ≤ r.logs.length) :
    Numbered { r with logs := writeAt r.logs p [log] } ∧
      NumberedFrom (r.lastSnapshotIncludeIndex + (p + 1)) entries ∧
      p + 1 ≤ (writeAt r.logs p [log]).length := by
  refine ⟨NumberedFrom.writeAt h (numberedFrom_singleton hentries.head) hp, ?_, ?_⟩
  · rw [← Nat.add_assoc]
    exact hentries.tail
  · rw [length_writeAt hp, List.length_singleton]
    exact le_max_right _ _

theorem mergeEntries_eq {entries : List LogEntry} {p : ℕ} (h : r.Numbered)
    (hentries : NumberedFrom (r.lastSnapshotIncludeIndex + p) entries) (hp : p ≤ r.logs.length)
    (hmerge : r.mergeEntries entries = .ok r') :
    r' = { r with logs := writeAt r.logs p entries } := by
  induction entries generalizing r p with
  | nil =>
    cases hmerge
    rw [writeAt_nil]
  | cons log entries ih =>
    obtain ⟨q, hq, hmerge⟩ := bind_eq_ok.mp hmerge
    have hindex := hentries.head
    obtain rfl := mergeEntry_eq h (by omega) hp hq
    obtain ⟨hnumbered, htail, hlen⟩ := h.writeAt_head hentries hp
    rw [ih hnumbered htail hlen hmerge]
    simp only [writeAt_cons hp]

/-- The identity check fails only on an entry of the log that has index and term of an entry of the
request, and another command. -/
theorem mergeEntries_sameTermOtherCommand {entries : List LogEntry} {p : ℕ} (h : r.Numbered)
    (hentries : NumberedFrom (r.lastSnapshotIncludeIndex + p) entries) (hp : p ≤ r.logs.length)
    (hmerge : r.mergeEntries entries = .error .sameTermOtherCommand) :
    ∃ old log, (old ∈ r.logs ∨ old ∈ entries) ∧ log ∈ entries ∧ old.logIndex = log.logIndex ∧
      old.logTerm = log.logTerm ∧ old.command ≠ log.command := by
  induction entries generalizing r p with
  | nil => cases hmerge
  | cons log entries ih =>
    have hindex := hentries.head
    rcases bind_eq_error.mp hmerge with hmerge | ⟨q, hq, hmerge⟩
    · unfold mergeEntry at hmerge
      split at hmerge
      · cases hmerge
      · rcases bind_eq_error.mp hmerge with hmerge | ⟨slice, -, hmerge⟩
        · exact absurd hmerge getSlicesIndexFromLogIndex_ne_identity
        · rcases bind_eq_error.mp hmerge with hmerge | ⟨old, hold, hmerge⟩
          · exact absurd hmerge entryAt_ne_identity
          · split at hmerge
            · rename_i hdiffers
              have hmem := List.mem_of_getElem? (h.entryAt_iff.mp hold).2
              exact ⟨old, log, Or.inl hmem, List.mem_cons_self, h.logIndex_of_entryAt hold,
                hdiffers.1, hdiffers.2⟩
            · split at hmerge
              · exact absurd hmerge pure_ne_error
              · exact absurd hmerge pure_ne_error
    · obtain rfl := mergeEntry_eq h (by omega) hp hq
      obtain ⟨hnumbered, htail, hlen⟩ := h.writeAt_head hentries hp
      obtain ⟨old, log', hold, hlog', hrest⟩ := ih hnumbered htail hlen hmerge
      refine ⟨old, log', ?_, List.mem_cons_of_mem _ hlog', hrest⟩
      rcases hold with hold | hold
      · rcases mem_writeAt hold with hold | hold
        · exact Or.inl hold
        · rw [List.mem_singleton.mp hold]
          exact Or.inr List.mem_cons_self
      · exact Or.inr (List.mem_cons_of_mem _ hold)

end Raft

end Rsylar
