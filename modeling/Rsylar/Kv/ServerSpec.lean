import Mathlib
import Rsylar.Kv.Server

/-!
# The steps of the key/value server

`KvServer.Step` lists what one action does, with what the functions of the server found on the way;
`KvServer.step_cases` shows that the list is complete. The statements about runs go through it and
do not unfold the model again. `KvServer.stored` is the entry of `m_lastRequestId`, with `⊥` for a
client that has none, which turns the duplicate check into a comparison.
-/

set_option autoImplicit false
set_option relaxedAutoImplicit false

namespace Rsylar

open TextArchive TransitionSystem

/-! ### What a step is about -/

/-- The Put or Append between its duplicate check and its execution. -/
def LoopState.inExecution : LoopState → Option Op
  | .execute _ op => if op.operation = .get then none else some op
  | _ => none

theorem LoopState.inExecution_afterCommand (message : ApplyMsg) :
    (LoopState.afterCommand message).inExecution = none := by
  unfold LoopState.afterCommand
  split <;> rfl

namespace KvServer

variable {s s' : KvServer}

def inExecution (s : KvServer) : Option Op :=
  s.loop.inExecution

/-- The command that the step gives to `ExecutePutOpOnKVDB` or `ExecuteAppendOpOnKVDB`. -/
def executing (s : KvServer) : KvAction → Option Op
  | .loop => s.inExecution
  | _ => none

theorem inExecution_of_executing {a : KvAction} {op : Op} (h : s.executing a = some op) :
    s.inExecution = some op := by
  cases a with
  | loop => exact h
  | _ => cases h

/-- The command that the step gives to `ExecuteGetOpOnKVDB`. -/
def serving (s : KvServer) : KvAction → Option Op
  | .handler h => s.handlers[h]?.bind fun handler ↦
      if handler.state = .executeGet then some handler.request.op else none
  | _ => none

/-- The command that the step gives to the duplicate check of `GetCommandFromRaft`. -/
def checking (s : KvServer) : KvAction → Option Op
  | .loop =>
    match s.loop with
    | .check message op =>
      if message.commandIndex ≤ s.lastSnapShotRaftLogIndex then none else some op
    | _ => none
  | _ => none

/-! ### The table of request ids -/

/-- The entry of a client. -/
def lastId (table : AList fun _ : String ↦ ℤ) (clientId : String) : WithBot ℤ :=
  match table.lookup clientId with
  | none => ⊥
  | some requestId => requestId

/-- The last request id of a client. -/
def stored (s : KvServer) : String → WithBot ℤ :=
  lastId s.lastRequestId

theorem ifRequestDuplicate_iff {clientId : String} {requestId : ℤ} :
    s.ifRequestDuplicate clientId requestId = true ↔
      (requestId : WithBot ℤ) ≤ s.stored clientId := by
  unfold ifRequestDuplicate stored lastId
  cases s.lastRequestId.lookup clientId with
  | none => exact iff_of_false Bool.false_ne_true (not_le.mpr (WithBot.bot_lt_coe requestId))
  | some lastRequestId => exact decide_eq_true_iff.trans WithBot.coe_le_coe.symm

theorem ifRequestDuplicate_eq_false_iff {clientId : String} {requestId : ℤ} :
    s.ifRequestDuplicate clientId requestId = false ↔
      s.stored clientId < (requestId : WithBot ℤ) := by
  rw [← not_le, ← ifRequestDuplicate_iff, Bool.not_eq_true]

theorem stored_of_insert {op : Op} {clientId : String}
    (h : s'.lastRequestId = s.lastRequestId.insert op.clientId op.requestId) :
    s'.stored clientId =
      if clientId = op.clientId then (op.requestId : WithBot ℤ) else s.stored clientId := by
  unfold stored lastId
  rw [h]
  by_cases hclient : clientId = op.clientId
  · rw [if_pos hclient, hclient, AList.lookup_insert]
  · rw [if_neg hclient, AList.lookup_insert_ne hclient]

theorem stored_congr (h : s'.lastRequestId = s.lastRequestId) : s'.stored = s.stored :=
  congrArg lastId h

/-- An execution that changes the store. -/
theorem executeOp_of_ne_get {op : Op} (h : op.operation ≠ .get) : s.executeOp op = s.setElement op := by
  unfold executeOp
  split
  · rfl
  · rfl
  · rename_i hget
    exact absurd hget h

theorem executeOp_of_get {op : Op} (h : op.operation = .get) : s.executeOp op = s := by
  unfold executeOp
  rw [h]

/-! ### The steps -/

section Archives

variable [Codec Op] [Codec KvData] [Codec (SkipList.Dump String String)]

/-- The steps of the server, with what its functions found. -/
inductive Step (s : KvServer) : KvAction → KvServer → Prop
  | exit (a : KvAction) (hexit : s.executing a = none) :
      Step s a s.exit
  | deliver (message : ApplyMsg) :
      Step s (.deliver message) { s with applyChan := s.applyChan ++ [message] }
  | rpc (request : Request) (start : Option ℤ) :
      Step s (.rpc request start) { s with handlers := s.handlers ++ [Handler.begin request start] }
  | popCommand (message : ApplyMsg) (rest : List ApplyMsg) (op : Op) (hloop : s.loop = .pop)
      (hchan : s.applyChan = message :: rest) (hop : Codec.decode message.command = some op) :
      Step s .loop { s with applyChan := rest, loop := .check message op }
  | popOther (message : ApplyMsg) (rest : List ApplyMsg) (hloop : s.loop = .pop)
      (hchan : s.applyChan = message :: rest) :
      Step s .loop { s with applyChan := rest, loop := .afterCommand message }
  | skip (message : ApplyMsg) (op : Op) (hloop : s.loop = .check message op)
      (hindex : message.commandIndex ≤ s.lastSnapShotRaftLogIndex) :
      Step s .loop { s with loop := .afterCommand message }
  | duplicate (message : ApplyMsg) (op : Op) (hloop : s.loop = .check message op)
      (hindex : s.lastSnapShotRaftLogIndex < message.commandIndex)
      (hdup : s.ifRequestDuplicate op.clientId op.requestId = true) :
      Step s .loop { s with loop := .makeSnapShot message op, applied := s.applied ++ [op] }
  | fresh (message : ApplyMsg) (op : Op) (hloop : s.loop = .check message op)
      (hindex : s.lastSnapShotRaftLogIndex < message.commandIndex)
      (hdup : s.ifRequestDuplicate op.clientId op.requestId = false) :
      Step s .loop { s with loop := .execute message op }
  | executeGet (message : ApplyMsg) (op : Op) (hloop : s.loop = .execute message op)
      (hop : op.operation = .get) :
      Step s .loop { s with loop := .makeSnapShot message op, applied := s.applied ++ [op] }
  | executeSet (message : ApplyMsg) (op : Op) (hloop : s.loop = .execute message op)
      (hop : op.operation ≠ .get) :
      Step s .loop
        { s.setElement op with loop := .makeSnapShot message op, applied := s.applied ++ [op] }
  | makeSnapShot (message : ApplyMsg) (op : Op) (hloop : s.loop = .makeSnapShot message op) :
      Step s .loop { s with loop := .send message op }
  | sendNone (message : ApplyMsg) (op : Op) (hloop : s.loop = .send message op)
      (hch : s.waitApplyCh.lookup message.commandIndex = none) :
      Step s .loop { s with loop := .afterCommand message }
  | send (message : ApplyMsg) (op : Op) (ch : ℕ) (queue : List Op)
      (hloop : s.loop = .send message op)
      (hch : s.waitApplyCh.lookup message.commandIndex = some ch)
      (hqueue : s.queues[ch]? = some (some queue)) :
      Step s .loop { s with
        queues := s.queues.set ch (some (queue ++ [op]))
        loop := .afterCommand message }
  | installEmpty (message : ApplyMsg) (hloop : s.loop = .getSnapShot message)
      (hempty : message.snapshot = "") :
      Step s .loop { s with loop := .pop, lastSnapShotRaftLogIndex := message.snapshotIndex }
  | install (message : ApplyMsg) (data : KvData) (skipList : SkipList String String)
      (hloop : s.loop = .getSnapShot message) (hsome : message.snapshot ≠ "")
      (hdata : Codec.decode message.snapshot = some data)
      (hload : loadFile s.skipList data.serializedKVData = some skipList) :
      Step s .loop { s with
        skipList := skipList
        lastRequestId := data.lastRequestId
        lastSnapShotRaftLogIndex := message.snapshotIndex
        loop := .pop }
  | findChan (h : ℕ) (handler : Handler) (ch : ℕ) (hhandler : s.handlers[h]? = some handler)
      (hstate : handler.state = .insertChan)
      (hch : s.waitApplyCh.lookup handler.raftIndex = some ch) :
      Step s (.handler h) (s.setHandler h handler (.wait ch))
  | insertChan (h : ℕ) (handler : Handler) (hhandler : s.handlers[h]? = some handler)
      (hstate : handler.state = .insertChan)
      (hch : s.waitApplyCh.lookup handler.raftIndex = none) :
      Step s (.handler h) (({ s with
        queues := s.queues ++ [some []]
        waitApplyCh := s.waitApplyCh.insert handler.raftIndex s.queues.length } :
          KvServer).setHandler h handler (.wait s.queues.length))
  | popChan (h : ℕ) (handler : Handler) (ch : ℕ) (raftCommitOp : Op) (queue : List Op)
      (hhandler : s.handlers[h]? = some handler) (hstate : handler.state = .wait ch)
      (hqueue : s.queues[ch]? = some (some (raftCommitOp :: queue))) :
      Step s (.handler h) (({ s with queues := s.queues.set ch (some queue) } :
        KvServer).setHandler h handler (handler.onCommit raftCommitOp))
  | timeOut (h : ℕ) (isLeader : Bool) (handler : Handler) (ch : ℕ)
      (hhandler : s.handlers[h]? = some handler) (hstate : handler.state = .wait ch) :
      Step s (.timeOut h isLeader) (s.setHandler h handler (.timedOut isLeader))
  | onTimeOut (h : ℕ) (handler : Handler) (isLeader : Bool)
      (hhandler : s.handlers[h]? = some handler) (hstate : handler.state = .timedOut isLeader) :
      Step s (.handler h) (s.setHandler h handler (handler.onTimeOut
        (s.ifRequestDuplicate handler.request.op.clientId handler.request.op.requestId) isLeader))
  | serveGet (h : ℕ) (handler : Handler) (hhandler : s.handlers[h]? = some handler)
      (hstate : handler.state = .executeGet) :
      Step s (.handler h) (s.serveGet h handler)
  | eraseChan (h : ℕ) (handler : Handler) (reply : Reply) (ch : ℕ)
      (hhandler : s.handlers[h]? = some handler) (hstate : handler.state = .eraseChan reply)
      (hch : s.waitApplyCh.lookup handler.raftIndex = some ch) :
      Step s (.handler h) (({ s with
        waitApplyCh := s.waitApplyCh.erase handler.raftIndex
        queues := s.queues.set ch none } : KvServer).setHandler h handler (.returned reply))
  | eraseNone (h : ℕ) (handler : Handler) (reply : Reply)
      (hhandler : s.handlers[h]? = some handler) (hstate : handler.state = .eraseChan reply)
      (hch : s.waitApplyCh.lookup handler.raftIndex = none) :
      Step s (.handler h) (s.setHandler h handler (.returned reply))

theorem getCommandFromRaft_cases {message : ApplyMsg} {op : Op}
    (hloop : s.loop = .check message op) : s.Step .loop (s.getCommandFromRaft message op) := by
  unfold getCommandFromRaft
  split
  · rename_i hindex
    exact .skip message op hloop hindex
  · rename_i hindex
    split
    · rename_i hdup
      exact .duplicate message op hloop (not_le.mp hindex) hdup
    · rename_i hdup
      exact .fresh message op hloop (not_le.mp hindex) (Bool.eq_false_iff.mpr hdup)

theorem readRaftApplyCommandLoop_cases (h : s.readRaftApplyCommandLoop = some s') :
    s.Step .loop s' := by
  unfold readRaftApplyCommandLoop at h
  split at h
  · rename_i hloop
    split at h
    · cases h
    · rename_i message rest hchan
      cases h
      unfold readMessage
      split
      · cases hop : (Codec.decode message.command : Option Op) with
        | none => exact .exit .loop (congrArg LoopState.inExecution hloop)
        | some op => exact .popCommand message rest op hloop hchan hop
      · exact .popOther message rest hloop hchan
  · rename_i message op hloop
    cases h
    exact getCommandFromRaft_cases hloop
  · rename_i message op hloop
    cases h
    by_cases hop : op.operation = .get
    · rw [executeOp_of_get hop]
      exact .executeGet message op hloop hop
    · rw [executeOp_of_ne_get hop]
      exact .executeSet message op hloop hop
  · rename_i message op hloop
    cases h
    exact .makeSnapShot message op hloop
  · rename_i message op hloop
    cases h
    unfold sendMessageToWaitChan
    split
    · rename_i hch
      exact .sendNone message op hloop hch
    · rename_i ch hch
      split
      · rename_i queue hqueue
        exact .send message op ch queue hloop hch hqueue
      · exact .exit .loop (congrArg LoopState.inExecution hloop)
  · rename_i message hloop
    cases h
    unfold getSnapShotFromRaft readSnapShotToInstall
    split
    · rename_i hempty
      exact .installEmpty message hloop hempty
    · rename_i hsome
      unfold parseFromString
      cases hdata : (Codec.decode message.snapshot : Option KvData) with
      | none => exact .exit .loop (congrArg LoopState.inExecution hloop)
      | some data =>
        cases hload : loadFile s.skipList data.serializedKVData with
        | none =>
          simp only [Option.bind_some, hload]
          exact .exit .loop (congrArg LoopState.inExecution hloop)
        | some skipList =>
          simp only [Option.bind_some, hload]
          exact .install message data skipList hloop hsome hdata hload

theorem handlerStep_cases {h : ℕ} {handler : Handler} (hhandler : s.handlers[h]? = some handler)
    (hstep : s.handlerStep h handler = some s') : s.Step (.handler h) s' := by
  unfold handlerStep at hstep
  split at hstep
  · rename_i hstate
    cases hstep
    unfold KvServer.insertChan
    split
    · rename_i ch hch
      exact .findChan h handler ch hhandler hstate hch
    · rename_i hch
      exact .insertChan h handler hhandler hstate hch
  · rename_i ch hstate
    unfold KvServer.popChan at hstep
    split at hstep
    · rename_i raftCommitOp queue hqueue
      cases hstep
      exact .popChan h handler ch raftCommitOp queue hhandler hstate hqueue
    · cases hstep
    · cases hstep
      exact .exit _ rfl
  · rename_i isLeader hstate
    cases hstep
    exact .onTimeOut h handler isLeader hhandler hstate
  · rename_i hstate
    cases hstep
    exact .serveGet h handler hhandler hstate
  · rename_i reply hstate
    cases hstep
    unfold KvServer.eraseChan
    split
    · rename_i ch hch
      exact .eraseChan h handler reply ch hhandler hstate hch
    · rename_i hch
      exact .eraseNone h handler reply hhandler hstate hch
  · cases hstep

theorem timeOutStep_cases {h : ℕ} {handler : Handler} {isLeader : Bool}
    (hhandler : s.handlers[h]? = some handler)
    (hstep : s.timeOutStep h handler isLeader = some s') : s.Step (.timeOut h isLeader) s' := by
  unfold timeOutStep at hstep
  split at hstep
  · rename_i ch hstate
    cases hstep
    unfold timeOutChan
    split
    · exact .timeOut h isLeader handler ch hhandler hstate
    · exact .exit _ rfl
  · cases hstep

theorem step_cases {a : KvAction} (h : s.step a = some s') : s.Step a s' := by
  unfold step at h
  split at h
  · cases h
  cases a with
  | deliver message =>
    cases h
    exact .deliver message
  | rpc request start =>
    cases h
    exact .rpc request start
  | loop => exact readRaftApplyCommandLoop_cases h
  | handler k =>
    obtain ⟨handler, hhandler, hstep⟩ := Option.bind_eq_some_iff.mp h
    exact handlerStep_cases hhandler hstep
  | timeOut k isLeader =>
    obtain ⟨handler, hhandler, hstep⟩ := Option.bind_eq_some_iff.mp h
    exact timeOutStep_cases hhandler hstep

theorem handlers_of_rpc {request : Request} {start : Option ℤ}
    (h : s.step (.rpc request start) = some s') :
    s'.handlers = s.handlers ++ [Handler.begin request start] := by
  unfold step at h
  split at h
  · cases h
  · cases h
    rfl

/-- A handler keeps its place and its request. -/
theorem handlers_step {a : KvAction} (h : s.step a = some s') {k : ℕ} {handler : Handler}
    (hk : s.handlers[k]? = some handler) :
    ∃ handler', s'.handlers[k]? = some handler' ∧ handler'.request = handler.request := by
  have hset : ∀ (j : ℕ) (old : Handler) (state : HandlerState), s.handlers[j]? = some old →
      ∃ handler', (s.handlers.set j { old with state := state })[k]? = some handler' ∧
        handler'.request = handler.request := by
    intro j old state hold
    by_cases hj : j = k
    · subst hj
      obtain rfl : old = handler := Option.some.inj (hold.symm.trans hk)
      exact ⟨_, List.getElem?_set_self (List.getElem?_eq_some_iff.mp hk).1, rfl⟩
    · exact ⟨handler, (List.getElem?_set_ne hj).trans hk, rfl⟩
  cases step_cases h with
  | rpc request start =>
    exact ⟨handler, (List.getElem?_append_left (List.getElem?_eq_some_iff.mp hk).1).trans hk, rfl⟩
  | findChan j old ch hold _ _ => exact hset j old _ hold
  | insertChan j old hold _ _ => exact hset j old _ hold
  | popChan j old ch raftCommitOp queue hold _ _ => exact hset j old _ hold
  | timeOut j isLeader old ch hold _ => exact hset j old _ hold
  | onTimeOut j old isLeader hold _ => exact hset j old _ hold
  | serveGet j old hold _ => exact hset j old _ hold
  | eraseChan j old reply ch hold _ _ => exact hset j old _ hold
  | eraseNone j old reply hold _ _ => exact hset j old _ hold
  | _ => exact ⟨handler, hk, rfl⟩

end Archives

/-! ### The store and the table in a step -/

section Archives

variable [Codec Op] [Codec KvData] [Codec (SkipList.Dump String String)]

/-- The snapshot that the step installs. -/
def installing (s : KvServer) : KvAction → Option KvData
  | .loop =>
    match s.loop with
    | .getSnapShot message =>
      if message.snapshot = "" then none else Codec.decode message.snapshot
    | _ => none
  | _ => none

/-- What a step does to the store, to the table and to the command in execution. -/
inductive StoreStep (s : KvServer) (a : KvAction) (s' : KvServer) : Prop
  | idle (hexecuting : s.executing a = none) (hlist : s'.skipList = s.skipList)
      (htable : s'.lastRequestId = s.lastRequestId) (happlied : s'.applied = s.applied)
      (hexec : s'.inExecution = none ∨ s'.inExecution = s.inExecution)
  | fresh (op : Op) (hchecking : s.checking a = some op)
      (hdup : s.ifRequestDuplicate op.clientId op.requestId = false)
      (hexecuting : s.executing a = none) (hlist : s'.skipList = s.skipList)
      (htable : s'.lastRequestId = s.lastRequestId) (happlied : s'.applied = s.applied)
      (hexec : s'.inExecution = if op.operation = .get then none else some op)
  | pass (op : Op)
      (hpass : op.operation = .get ∨
        s.checking a = some op ∧ s.ifRequestDuplicate op.clientId op.requestId = true)
      (hexecuting : s.executing a = none) (hlist : s'.skipList = s.skipList)
      (htable : s'.lastRequestId = s.lastRequestId) (happlied : s'.applied = s.applied ++ [op])
      (hexec : s'.inExecution = none)
  | execute (op : Op) (hop : op.operation ≠ .get) (hexecuting : s.executing a = some op)
      (hinExec : s.inExecution = some op)
      (hlist : s'.skipList = s.skipList.insertSetElement op.key op.value)
      (htable : s'.lastRequestId = s.lastRequestId.insert op.clientId op.requestId)
      (happlied : s'.applied = s.applied ++ [op]) (hexec : s'.inExecution = none)
  | serve (op : Op) (hserving : s.serving a = some op) (hexecuting : s.executing a = none)
      (hlist : s'.skipList = s.skipList)
      (htable : s'.lastRequestId = s.lastRequestId.insert op.clientId op.requestId)
      (happlied : s'.applied = s.applied) (hexec : s'.inExecution = s.inExecution)
  | install (data : KvData) (hinstalling : s.installing a = some data)
      (hexecuting : s.executing a = none) (htable : s'.lastRequestId = data.lastRequestId)
      (happlied : s'.applied = s.applied) (hexec : s'.inExecution = none)

theorem step_store {a : KvAction} (h : s.step a = some s') : s.StoreStep a s' := by
  cases step_cases h with
  | exit _ hexit =>
    exact .idle hexit rfl rfl rfl (.inr rfl)
  | deliver message => exact .idle rfl rfl rfl rfl (.inr rfl)
  | rpc request start => exact .idle rfl rfl rfl rfl (.inr rfl)
  | popCommand message rest op hloop _ _ =>
    exact .idle (congrArg LoopState.inExecution hloop) rfl rfl rfl (.inl rfl)
  | popOther message rest hloop _ =>
    exact .idle (congrArg LoopState.inExecution hloop) rfl rfl rfl
      (.inl (LoopState.inExecution_afterCommand message))
  | skip message op hloop _ =>
    exact .idle (congrArg LoopState.inExecution hloop) rfl rfl rfl
      (.inl (LoopState.inExecution_afterCommand message))
  | duplicate message op hloop hindex hdup =>
    refine .pass op (.inr ⟨?_, hdup⟩) (congrArg LoopState.inExecution hloop) rfl rfl rfl rfl
    simp [checking, hloop, hindex]
  | fresh message op hloop hindex hdup =>
    refine .fresh op ?_ hdup (congrArg LoopState.inExecution hloop) rfl rfl rfl rfl
    simp [checking, hloop, hindex]
  | executeGet message op hloop hop =>
    refine .pass op (.inl hop) ?_ rfl rfl rfl rfl
    simp [executing, inExecution, LoopState.inExecution, hloop, hop]
  | executeSet message op hloop hop =>
    have hexec : s.inExecution = some op := by
      simp [inExecution, LoopState.inExecution, hloop, hop]
    exact .execute op hop hexec hexec rfl rfl rfl rfl
  | makeSnapShot message op hloop =>
    exact .idle (congrArg LoopState.inExecution hloop) rfl rfl rfl (.inl rfl)
  | sendNone message op hloop _ =>
    exact .idle (congrArg LoopState.inExecution hloop) rfl rfl rfl
      (.inl (LoopState.inExecution_afterCommand message))
  | send message op ch queue hloop _ _ =>
    exact .idle (congrArg LoopState.inExecution hloop) rfl rfl rfl
      (.inl (LoopState.inExecution_afterCommand message))
  | installEmpty message hloop _ =>
    exact .idle (congrArg LoopState.inExecution hloop) rfl rfl rfl (.inl rfl)
  | install message data skipList hloop hsome hdata hload =>
    refine .install data ?_ (congrArg LoopState.inExecution hloop) rfl rfl rfl
    simp [installing, hloop, hsome, hdata]
  | findChan h handler ch _ _ _ => exact .idle rfl rfl rfl rfl (.inr rfl)
  | insertChan h handler _ _ _ => exact .idle rfl rfl rfl rfl (.inr rfl)
  | popChan h handler ch raftCommitOp queue _ _ _ => exact .idle rfl rfl rfl rfl (.inr rfl)
  | timeOut h isLeader handler ch _ _ => exact .idle rfl rfl rfl rfl (.inr rfl)
  | onTimeOut h handler isLeader _ _ => exact .idle rfl rfl rfl rfl (.inr rfl)
  | serveGet h handler hhandler hstate =>
    refine .serve handler.request.op ?_ rfl rfl rfl rfl rfl
    simp [serving, hhandler, hstate]
  | eraseChan h handler reply ch _ _ _ => exact .idle rfl rfl rfl rfl (.inr rfl)
  | eraseNone h handler reply _ _ _ => exact .idle rfl rfl rfl rfl (.inr rfl)

end Archives

end KvServer

end Rsylar
