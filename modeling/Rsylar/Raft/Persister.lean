import Mathlib.Data.List.Basic

/-!
# Persister

The two files of a node and the streams bound to them. What is written to an output stream stays in
the buffer of the stream until the stream is closed; opening the stream empties the file. A crash
keeps the bytes written so far, whether they have left the buffer or not
(`OutFile.afterCrash`).

Besides the fields of the class the model keeps two strings the code does not store, `lastRaftState`
and `lastSnapshot`: what was last given to `SaveRaftState` or `Save` for this pair of files, over
all the processes that have used them. The statements about durability compare the node with them.
-/

set_option autoImplicit false
set_option relaxedAutoImplicit false

namespace Rsylar

/-- A file and the output stream bound to it. -/
structure OutFile where
  /-- the bytes that have reached the file -/
  disk : String
  /-- the bytes still in the buffer of the stream -/
  buffer : String
  isOpen : Bool

namespace OutFile

/-- Closing a stream flushes its buffer. -/
def close (f : OutFile) : OutFile :=
  if f.isOpen then { disk := f.disk ++ f.buffer, buffer := "", isOpen := false } else f

/-- The default mode of an output stream truncates the file; a stream that is open stays as it is.
-/
def openTrunc (f : OutFile) : OutFile :=
  if f.isOpen then f else { disk := "", buffer := "", isOpen := true }

def write (f : OutFile) (data : String) : OutFile :=
  if f.isOpen then { f with buffer := f.buffer ++ data } else f

/-- The file as the next process finds it. -/
def afterCrash (f : OutFile) : OutFile :=
  { disk := f.disk ++ f.buffer, buffer := "", isOpen := false }

end OutFile

/-- `std::isspace` in the default locale. -/
def isSpace (c : Char) : Bool :=
  c = ' ' || c = '\t' || c = '\n' || c = '\x0b' || c = '\x0c' || c = '\r'

/-- The extraction `ifs >> s` of a string: blanks are skipped and the next word is read. -/
def readWord (contents : String) : String :=
  String.ofList ((contents.toList.dropWhile isSpace).takeWhile fun c ↦ !isSpace c)

structure Persister where
  raftStateFile : OutFile
  snapshotFile : OutFile
  raftStateSize : ℕ
  /-- the string last given to `SaveRaftState` or `Save`, empty before the first -/
  lastRaftState : String
  /-- the snapshot last given to `Save`, empty before the first -/
  lastSnapshot : String

namespace Persister

def clearRaftState (p : Persister) : Persister :=
  { p with raftStateSize := 0, raftStateFile := p.raftStateFile.close.openTrunc }

def clearSnapshot (p : Persister) : Persister :=
  { p with snapshotFile := p.snapshotFile.close.openTrunc }

def clearRaftStateAndSnapshot (p : Persister) : Persister :=
  p.clearRaftState.clearSnapshot

def save (p : Persister) (raftState snapshot : String) : Persister :=
  let q := p.clearRaftStateAndSnapshot
  { q with
    raftStateFile := q.raftStateFile.write raftState
    snapshotFile := q.snapshotFile.write snapshot
    lastRaftState := raftState
    lastSnapshot := snapshot }

def saveRaftState (p : Persister) (data : String) : Persister :=
  let q := p.clearRaftState
  { q with
    raftStateFile := q.raftStateFile.write data
    raftStateSize := q.raftStateSize + data.utf8ByteSize
    lastRaftState := data }

/-- The stream of the snapshot is closed for the reading and opened again after it. -/
def readSnapshot (p : Persister) : String × Persister :=
  let closed := p.snapshotFile.close
  (readWord closed.disk, { p with snapshotFile := closed.openTrunc })

/-- The state is read from the file; what is in the buffer of the stream is not there yet. -/
def readRaftState (p : Persister) : String :=
  readWord p.raftStateFile.disk

/-- The constructor: both files are truncated and the streams bound to them. -/
def create (raftStateFile snapshotFile : OutFile) (lastRaftState lastSnapshot : String) :
    Persister where
  raftStateFile := raftStateFile.openTrunc.close.openTrunc
  snapshotFile := snapshotFile.openTrunc.close.openTrunc
  raftStateSize := 0
  lastRaftState := lastRaftState
  lastSnapshot := lastSnapshot

/-- The first process of a node finds no files. -/
def first : Persister :=
  create ⟨"", "", false⟩ ⟨"", "", false⟩ "" ""

/-- The persister of the process after a crash, on the same files. -/
def restart (p : Persister) : Persister :=
  create p.raftStateFile.afterCrash p.snapshotFile.afterCrash p.lastRaftState p.lastSnapshot

@[simp]
theorem save_lastRaftState (p : Persister) (raftState snapshot : String) :
    (p.save raftState snapshot).lastRaftState = raftState :=
  rfl

@[simp]
theorem saveRaftState_lastRaftState (p : Persister) (data : String) :
    (p.saveRaftState data).lastRaftState = data :=
  rfl

@[simp]
theorem readSnapshot_lastRaftState (p : Persister) :
    p.readSnapshot.2.lastRaftState = p.lastRaftState :=
  rfl

/-- Whatever the files held, the next process reads no raft state from them. -/
theorem readRaftState_restart (p : Persister) : p.restart.readRaftState = "" := by
  simp [restart, create, readRaftState, OutFile.openTrunc, OutFile.close, OutFile.afterCrash,
    readWord]

/-- Whatever the files held, the next process reads no snapshot from them. -/
theorem readSnapshot_restart (p : Persister) : p.restart.readSnapshot.1 = "" := by
  simp [restart, create, readSnapshot, OutFile.openTrunc, OutFile.close, OutFile.afterCrash,
    readWord]

end Persister

end Rsylar
