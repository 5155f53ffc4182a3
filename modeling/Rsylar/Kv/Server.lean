import Mathlib.Data.List.AList
import Rsylar.Foundations.TextArchive
import Rsylar.Foundations.TransitionSystem
import Rsylar.Kv.SkipList
import Rsylar.Raft.Server

/-!
# The key/value server

One `KvServer`: the loop that reads the apply channel and the `Get` and `PutAppend` handlers, which
run at the same time. All of them give `m_mtx` up between the functions they call, so each of these
functions is a step of its own, and the steps of the loop and of the handlers come in any order
(`KvServer.step`). What Raft does is the choice of the action: which messages the apply channel
delivers, what `Start` and `GetState` return, and when a wait times out.

A queue lives on the heap: a handler keeps its number while it waits, whether it has been deleted
meanwhile or not. Using a deleted queue ends the process as far as the model is concerned, and so
does an archive that cannot be read. Request ids are integers without a bound. The model also keeps
the commands that `GetCommandFromRaft` is through with, in `applied`, which the code does not.
-/

set_option autoImplicit false
set_option relaxedAutoImplicit false

namespace Rsylar

open TextArchive TransitionSystem

/-! ### Commands and requests -/

/-- Any other operation is one the loop does nothing for, as it does nothing for `get`. -/
inductive Operation
  | get
  | put
  | append
deriving DecidableEq

structure Op where
  operation : Operation
  key : String
  value : String
  clientId : String
  requestId : ℤ
deriving DecidableEq

structure GetArgs where
  key : String
  clientId : String
  requestId : ℤ
deriving DecidableEq

structure PutAppendArgs where
  key : String
  value : String
  op : Operation
  clientId : String
  requestId : ℤ
deriving DecidableEq

inductive Request
  | get (args : GetArgs)
  | putAppend (args : PutAppendArgs)
deriving DecidableEq

namespace Request

/-- The command a handler gives to `Start`. -/
def op : Request → Op
  | get args => ⟨.get, args.key, "", args.clientId, args.requestId⟩
  | putAppend args => ⟨args.op, args.key, args.value, args.clientId, args.requestId⟩

end Request

inductive Err
  | ok
  | errNoKey
  | errWrongLeader
deriving DecidableEq

structure Reply where
  err : Err
  value : String := ""
deriving DecidableEq

/-! ### The threads -/

/-- Where `ReadRaftApplyCommandLoop` stands. -/
inductive LoopState
  | pop
  | check (message : ApplyMsg) (op : Op)
  | execute (message : ApplyMsg) (op : Op)
  | makeSnapShot (message : ApplyMsg) (op : Op)
  | send (message : ApplyMsg) (op : Op)
  | getSnapShot (message : ApplyMsg)
deriving DecidableEq

/-- The rest of the iteration after `GetCommandFromRaft`. -/
def LoopState.afterCommand (message : ApplyMsg) : LoopState :=
  if message.snapshotValid then .getSnapShot message else .pop

/-- Where a handler stands, `Start` having returned. -/
inductive HandlerState
  | insertChan
  | wait (chForRaftIndex : ℕ)
  | timedOut (isLeader : Bool)
  | executeGet
  | eraseChan (reply : Reply)
  | returned (reply : Reply)
deriving DecidableEq

structure Handler where
  request : Request
  raftIndex : ℤ := -1
  state : HandlerState

namespace Handler

/-- `none` is the answer of a node that does not lead. -/
def begin (request : Request) : Option ℤ → Handler
  | some raftIndex => { request := request, raftIndex := raftIndex, state := .insertChan }
  | none => { request := request, state := .returned { err := .errWrongLeader } }

/-- After `timeOutPop` has returned a command. -/
def onCommit (handler : Handler) (raftCommitOp : Op) : HandlerState :=
  if raftCommitOp.clientId = handler.request.op.clientId ∧
      raftCommitOp.requestId = handler.request.op.requestId then
    match handler.request with
    | .get _ => .executeGet
    | .putAppend _ => .eraseChan { err := .ok }
  else .eraseChan { err := .errWrongLeader }

/-- After a timeout, when the request is known to be a duplicate or not. -/
def onTimeOut (handler : Handler) (isDuplicate isLeader : Bool) : HandlerState :=
  match handler.request with
  | .get _ =>
    if isDuplicate && isLeader then .executeGet else .eraseChan { err := .errWrongLeader }
  | .putAppend _ =>
    if isDuplicate then .eraseChan { err := .ok } else .eraseChan { err := .errWrongLeader }

end Handler

/-! ### The server -/

/-- What the archive of a snapshot holds. -/
structure KvData where
  serializedKVData : String
  lastRequestId : AList fun _ : String ↦ ℤ

structure KvServer where
  skipList : SkipList String String := []
  /-- the queues ever made, `none` for one that has been deleted -/
  queues : List (Option (List Op)) := []
  waitApplyCh : AList (fun _ : ℤ ↦ ℕ) := ∅
  lastRequestId : AList (fun _ : String ↦ ℤ) := ∅
  lastSnapShotRaftLogIndex : ℤ := 0
  applyChan : List ApplyMsg := []
  loop : LoopState := .pop
  handlers : List Handler := []
  exited : Bool := false
  /-- the commands `GetCommandFromRaft` has executed or found to be duplicates -/
  applied : List Op := []

inductive KvAction
  | deliver (message : ApplyMsg)
  | rpc (request : Request) (start : Option ℤ)
  | loop
  | handler (h : ℕ)
  | timeOut (h : ℕ) (isLeader : Bool)
deriving DecidableEq

namespace KvServer

def ifRequestDuplicate (s : KvServer) (clientId : String) (requestId : ℤ) : Bool :=
  match s.lastRequestId.lookup clientId with
  | none => false
  | some lastRequestId => requestId ≤ lastRequestId

/-- The body that `ExecutePutOpOnKVDB` and `ExecuteAppendOpOnKVDB` share. -/
def setElement (s : KvServer) (op : Op) : KvServer :=
  { s with
    skipList := s.skipList.insertSetElement op.key op.value
    lastRequestId := s.lastRequestId.insert op.clientId op.requestId }

def executePutOpOnKVDB (s : KvServer) (op : Op) : KvServer :=
  s.setElement op

/-- The value replaces the old one. -/
def executeAppendOpOnKVDB (s : KvServer) (op : Op) : KvServer :=
  s.setElement op

/-- The value is `none` when the key does not exist. -/
def executeGetOpOnKVDB (s : KvServer) (op : Op) : KvServer × Option String :=
  ({ s with lastRequestId := s.lastRequestId.insert op.clientId op.requestId },
    s.skipList.searchElement op.key)

def exit (s : KvServer) : KvServer :=
  { s with exited := true }

/-! ### The loop -/

/-- The execution in `GetCommandFromRaft`, by the operation. -/
def executeOp (s : KvServer) (op : Op) : KvServer :=
  match op.operation with
  | .put => s.executePutOpOnKVDB op
  | .append => s.executeAppendOpOnKVDB op
  | .get => s

/-- `GetCommandFromRaft` up to the duplicate check. -/
def getCommandFromRaft (s : KvServer) (message : ApplyMsg) (op : Op) : KvServer :=
  if message.commandIndex ≤ s.lastSnapShotRaftLogIndex then
    { s with loop := .afterCommand message }
  else if s.ifRequestDuplicate op.clientId op.requestId then
    { s with loop := .makeSnapShot message op, applied := s.applied ++ [op] }
  else
    { s with loop := .execute message op }

def sendMessageToWaitChan (s : KvServer) (op : Op) (raftIndex : ℤ) : Option KvServer :=
  match s.waitApplyCh.lookup raftIndex with
  | none => some s
  | some ch =>
    match s.queues[ch]? with
    | some (some queue) => some { s with queues := s.queues.set ch (some (queue ++ [op])) }
    | _ => none

section Archives

variable [Codec Op] [Codec KvData] [Codec (SkipList.Dump String String)]

/-- The text that `MakeSnapShot` gives to Raft. -/
def getSnapshotData (s : KvServer) : String :=
  Codec.encode
    ({ serializedKVData := Codec.encode s.skipList.dumpFile
       lastRequestId := s.lastRequestId } : KvData)

/-- `load_file` on the text of a dump. -/
def loadFile (l : SkipList String String) (dumpStr : String) : Option (SkipList String String) :=
  if dumpStr = "" then some l else (Codec.decode dumpStr).map l.loadFile

def parseFromString (s : KvServer) (str : String) : Option KvServer :=
  (Codec.decode str).bind fun data : KvData ↦
    (loadFile s.skipList data.serializedKVData).map fun skipList ↦
      { s with skipList := skipList, lastRequestId := data.lastRequestId }

def readSnapShotToInstall (s : KvServer) (snapshot : String) : Option KvServer :=
  if snapshot = "" then some s else s.parseFromString snapshot

/-- `CondInstallSnapshot` returns true. -/
def getSnapShotFromRaft (s : KvServer) (message : ApplyMsg) : Option KvServer :=
  (s.readSnapShotToInstall message.snapshot).map fun s ↦
    { s with lastSnapShotRaftLogIndex := message.snapshotIndex }

/-- The start of an iteration, with the message popped. -/
def readMessage (s : KvServer) (message : ApplyMsg) : Option KvServer :=
  if message.commandValid then
    (Codec.decode message.command).map fun op ↦ { s with loop := .check message op }
  else
    some { s with loop := .afterCommand message }

/-- One step of `ReadRaftApplyCommandLoop`, `none` when it blocks. The snapshot that is made goes to
Raft and changes nothing here. -/
def readRaftApplyCommandLoop (s : KvServer) : Option KvServer :=
  match s.loop with
  | .pop =>
    match s.applyChan with
    | [] => none
    | message :: rest => some ((({ s with applyChan := rest } : KvServer).readMessage message).getD s.exit)
  | .check message op => some (s.getCommandFromRaft message op)
  | .execute message op =>
    some { s.executeOp op with loop := .makeSnapShot message op, applied := s.applied ++ [op] }
  | .makeSnapShot message op => some { s with loop := .send message op }
  | .send message op =>
    some (((s.sendMessageToWaitChan op message.commandIndex).map fun s ↦
      { s with loop := .afterCommand message }).getD s.exit)
  | .getSnapShot message =>
    some (((s.getSnapShotFromRaft message).map fun s ↦ { s with loop := .pop }).getD s.exit)

end Archives

/-! ### The handlers -/

def setHandler (s : KvServer) (h : ℕ) (handler : Handler) (state : HandlerState) : KvServer :=
  { s with handlers := s.handlers.set h { handler with state := state } }

def insertChan (s : KvServer) (h : ℕ) (handler : Handler) : KvServer :=
  match s.waitApplyCh.lookup handler.raftIndex with
  | some ch => s.setHandler h handler (.wait ch)
  | none =>
    ({ s with
        queues := s.queues ++ [some []]
        waitApplyCh := s.waitApplyCh.insert handler.raftIndex s.queues.length } : KvServer).setHandler
      h handler (.wait s.queues.length)

/-- `timeOutPop` when it returns true. -/
def popChan (s : KvServer) (h : ℕ) (handler : Handler) (ch : ℕ) : Option KvServer :=
  match s.queues[ch]? with
  | some (some (raftCommitOp :: queue)) =>
    some (({ s with queues := s.queues.set ch (some queue) } : KvServer).setHandler h handler
      (handler.onCommit raftCommitOp))
  | some (some []) => none
  | _ => some s.exit

/-- `timeOutPop` when it returns false: the last wait has timed out, whatever has come since. -/
def timeOutChan (s : KvServer) (h : ℕ) (handler : Handler) (ch : ℕ) (isLeader : Bool) : KvServer :=
  match s.queues[ch]? with
  | some (some _) => s.setHandler h handler (.timedOut isLeader)
  | _ => s.exit

/-- The read of a `Get` handler and its reply. -/
def serveGet (s : KvServer) (h : ℕ) (handler : Handler) : KvServer :=
  let (s, value) := s.executeGetOpOnKVDB handler.request.op
  s.setHandler h handler (.eraseChan (match value with
    | some value => { err := .ok, value := value }
    | none => { err := .errNoKey }))

def eraseChan (s : KvServer) (h : ℕ) (handler : Handler) (reply : Reply) : KvServer :=
  match s.waitApplyCh.lookup handler.raftIndex with
  | some ch =>
    ({ s with
        waitApplyCh := s.waitApplyCh.erase handler.raftIndex
        queues := s.queues.set ch none } : KvServer).setHandler h handler (.returned reply)
  | none => s.setHandler h handler (.returned reply)

/-- One step of a handler, `none` when it waits or has returned. -/
def handlerStep (s : KvServer) (h : ℕ) (handler : Handler) : Option KvServer :=
  match handler.state with
  | .insertChan => some (s.insertChan h handler)
  | .wait ch => s.popChan h handler ch
  | .timedOut isLeader =>
    let op := handler.request.op
    some (s.setHandler h handler
      (handler.onTimeOut (s.ifRequestDuplicate op.clientId op.requestId) isLeader))
  | .executeGet => some (s.serveGet h handler)
  | .eraseChan reply => some (s.eraseChan h handler reply)
  | .returned _ => none

def timeOutStep (s : KvServer) (h : ℕ) (handler : Handler) (isLeader : Bool) : Option KvServer :=
  match handler.state with
  | .wait ch => some (s.timeOutChan h handler ch isLeader)
  | _ => none

section Archives

variable [Codec Op] [Codec KvData] [Codec (SkipList.Dump String String)]

def step (s : KvServer) (a : KvAction) : Option KvServer :=
  if s.exited then none
  else match a with
    | .deliver message => some { s with applyChan := s.applyChan ++ [message] }
    | .rpc request start => some { s with handlers := s.handlers ++ [Handler.begin request start] }
    | .loop => s.readRaftApplyCommandLoop
    | .handler h => s.handlers[h]?.bind (s.handlerStep h)
    | .timeOut h isLeader => s.handlers[h]?.bind fun handler ↦ s.timeOutStep h handler isLeader

end Archives

end KvServer

section Archives

variable [Codec Op] [Codec KvData] [Codec (SkipList.Dump String String)]

/-- What Raft delivers for a command it was given. -/
def commandMessage (op : Op) (commandIndex : ℤ) : ApplyMsg :=
  { commandValid := true, command := Codec.encode op, commandIndex := commandIndex }

/-- A server on its own, with any messages and any requests. -/
def kvServer : Lts KvServer KvAction where
  init := {}
  step := KvServer.step

end Archives

end Rsylar
