import Rsylar.Kv.NoLostWrite

/-!
# Reads are linearizable

A `Get` handler reads the store when its command comes out of its queue, and also after a timeout,
when the duplicate check finds its request id and `GetState` says that the node leads. Behind either
stands an applied command of the same client with this request id or a later one (`FollowsInv`): an
entry of the table is written by an execution or by a read, and a read writes its entry only when
such a command has been applied. The command was issued no earlier than the `Get`, so it was
committed after everything that had been acknowledged by then (`readLinearizability`), whether the
node really leads or not.
-/

set_option autoImplicit false
set_option relaxedAutoImplicit false

namespace Rsylar

open TextArchive TransitionSystem

variable {m : ℕ}

/-! ### What a server has applied -/

/-- The command the loop is about to apply. -/
def LoopState.ahead : LoopState → List Op
  | .check _ op => [op]
  | .execute _ op => [op]
  | _ => []

/-- The reply of a handler that is past its wait. -/
def HandlerState.reply : HandlerState → Option Reply
  | .eraseChan reply => some reply
  | .returned reply => some reply
  | _ => none

/-- Behind a read, and behind a reply other than ErrWrongLeader, stands an applied command. -/
def HandlerState.Backed (applied : List Op) (op : Op) (state : HandlerState) : Prop :=
  (state = .executeGet → Done (· ∈ applied) op) ∧
    ∀ reply, state.reply = some reply → reply.err ≠ .errWrongLeader → Done (· ∈ applied) op

theorem Done.trans {touched : Op → Prop} {op : Op} (h : Done (Done touched) op) :
    Done touched op := by
  obtain ⟨op', ⟨op'', htouched, hclient, hle⟩, hclient', hle'⟩ := h
  exact ⟨op'', htouched, hclient.trans hclient', hle'.trans hle⟩

theorem Done.of_mem {applied : List Op} {op op' : Op} (h : op ∈ applied)
    (hclient : op.clientId = op'.clientId) (hid : op.requestId = op'.requestId) :
    Done (· ∈ applied) op' :=
  ⟨op, h, hclient, hid.ge⟩

theorem Done.append {applied : List Op} {op : Op} (h : Done (· ∈ applied) op) (more : List Op) :
    Done (· ∈ applied ++ more) op :=
  h.mono fun _ ↦ List.mem_append_left more

section Handlers

variable {applied : List Op} {handler : Handler} {op : Op} {state : HandlerState}

theorem HandlerState.Backed.append (h : state.Backed applied op) (more : List Op) :
    state.Backed (applied ++ more) op :=
  ⟨fun hread ↦ (h.1 hread).append more, fun reply hreply herr ↦ (h.2 reply hreply herr).append more⟩

/-- Whatever comes of a command that has been applied. -/
theorem HandlerState.backed_of_done (h : Done (· ∈ applied) op) : state.Backed applied op :=
  ⟨fun _ ↦ h, fun _ _ _ ↦ h⟩

theorem HandlerState.backed_of_refused (hread : state ≠ .executeGet)
    (hreply : ∀ reply, state.reply = some reply → reply.err = .errWrongLeader) :
    state.Backed applied op :=
  ⟨fun h ↦ absurd h hread, fun reply h herr ↦ absurd (hreply reply h) herr⟩

theorem Handler.backed_begin (request : Request) (start : Option ℤ) :
    (Handler.begin request start).state.Backed applied op := by
  cases start with
  | none =>
    refine HandlerState.backed_of_refused nofun fun reply h ↦ ?_
    cases h
    rfl
  | some raftIndex => exact HandlerState.backed_of_refused nofun nofun

theorem Handler.backed_onCommit (h : op ∈ applied) :
    (handler.onCommit op).Backed applied handler.request.op := by
  unfold Handler.onCommit
  split
  · rename_i hsame
    exact HandlerState.backed_of_done (Done.of_mem h hsame.1 hsame.2)
  · refine HandlerState.backed_of_refused nofun fun reply hreply ↦ ?_
    cases hreply
    rfl

theorem Handler.backed_onTimeOut {isDuplicate isLeader : Bool}
    (h : isDuplicate = true → Done (· ∈ applied) handler.request.op) :
    (handler.onTimeOut isDuplicate isLeader).Backed applied handler.request.op := by
  cases isDuplicate with
  | true => exact HandlerState.backed_of_done (h rfl)
  | false =>
    unfold Handler.onTimeOut
    cases handler.request <;> refine HandlerState.backed_of_refused nofun fun reply hreply ↦ ?_ <;>
      cases hreply <;> rfl

end Handlers

section Archives

variable [Codec Op]

/-- What Raft delivers without snapshots. -/
def IsCommand (message : ApplyMsg) : Prop :=
  ∃ (op : Op) (index : ℤ), 0 < index ∧ message = commandMessage op index

def LoopState.Follows (applied : List Op) : LoopState → Prop
  | .pop => True
  | .check message _ => IsCommand message
  | .execute message _ => IsCommand message
  | .makeSnapShot message op => IsCommand message ∧ op ∈ applied
  | .send message op => IsCommand message ∧ op ∈ applied
  | .getSnapShot _ => False

namespace KvServer

/-- The commands delivered and not yet applied. -/
def ahead (s : KvServer) : List Op :=
  s.loop.ahead ++ s.applyChan.filterMap fun message ↦ Codec.decode message.command

/-- The command that is delivered with the step. -/
def delivering : KvAction → List Op
  | .deliver message => (Codec.decode message.command).toList
  | _ => []

end KvServer

/-- The server has been delivered the commands of `log`. -/
structure FollowsInv (log : List Op) (s : KvServer) : Prop where
  noSnapshot : s.lastSnapShotRaftLogIndex = 0
  messages : ∀ message ∈ s.applyChan, IsCommand message
  loop : s.loop.Follows s.applied
  log : s.applied ++ s.ahead = log
  queues : ∀ queue, some queue ∈ s.queues → ∀ op ∈ queue, op ∈ s.applied
  table : TableInv (Done (· ∈ s.applied)) s
  handlers : ∀ handler ∈ s.handlers, handler.state.Backed s.applied handler.request.op

theorem IsCommand.afterCommand {message : ApplyMsg} (h : IsCommand message) :
    LoopState.afterCommand message = .pop := by
  obtain ⟨op, index, -, rfl⟩ := h
  rfl

theorem IsCommand.commandIndex_pos {message : ApplyMsg} (h : IsCommand message) :
    0 < message.commandIndex := by
  obtain ⟨op, index, hpos, rfl⟩ := h
  exact hpos

namespace FollowsInv

variable {log : List Op} {s s' : KvServer} {a : KvAction}

theorem initial : FollowsInv [] {} :=
  ⟨rfl, nofun, trivial, rfl, nofun, nofun, nofun⟩

theorem loop_eq (h : FollowsInv log s) {loop : LoopState} (hloop : s.loop = loop) :
    loop.Follows s.applied :=
  hloop ▸ h.loop

theorem log_eq (h : FollowsInv log s) {loop : LoopState} (hloop : s.loop = loop) :
    s.applied ++ (loop.ahead ++ s.applyChan.filterMap fun message ↦ Codec.decode message.command) =
      log :=
  hloop ▸ h.log

theorem queues_set (h : FollowsInv log s) {ch : ℕ} {queue' : Option (List Op)}
    (hqueue' : ∀ queue, queue' = some queue → ∀ op ∈ queue, op ∈ s.applied) :
    ∀ queue, some queue ∈ s.queues.set ch queue' → ∀ op ∈ queue, op ∈ s.applied := by
  intro queue hmem
  rcases List.mem_or_eq_of_mem_set hmem with hold | heq
  · exact h.queues queue hold
  · exact hqueue' queue heq.symm

theorem handlers_set (h : FollowsInv log s) {k : ℕ} {handler : Handler} {state : HandlerState}
    (hstate : state.Backed s.applied handler.request.op) :
    ∀ handler' ∈ s.handlers.set k { handler with state := state },
      handler'.state.Backed s.applied handler'.request.op := by
  intro handler' hmem
  rcases List.mem_or_eq_of_mem_set hmem with hold | rfl
  · exact h.handlers handler' hold
  · exact hstate

/-- A handler that neither comes to its read nor gets a new reply. -/
theorem handlers_wait (h : FollowsInv log s) {k : ℕ} {handler : Handler} {state : HandlerState}
    (hread : state ≠ .executeGet) (hreply : state.reply = none) :
    ∀ handler' ∈ s.handlers.set k { handler with state := state },
      handler'.state.Backed s.applied handler'.request.op :=
  h.handlers_set (HandlerState.backed_of_refused hread fun reply hsome ↦ by
    rw [hreply] at hsome
    cases hsome)

theorem backed_of_getElem? (h : FollowsInv log s) {k : ℕ} {handler : Handler}
    {state : HandlerState} (hhandler : s.handlers[k]? = some handler)
    (hstate : handler.state = state) : state.Backed s.applied handler.request.op :=
  hstate ▸ h.handlers handler (List.mem_of_getElem? hhandler)

theorem done_of_duplicate (h : FollowsInv log s) {op : Op}
    (hdup : s.ifRequestDuplicate op.clientId op.requestId = true) : Done (· ∈ s.applied) op :=
  (h.table.done hdup).trans

/-- The command at the head of those ahead is applied. -/
theorem apply (h : FollowsInv log s) {message : ApplyMsg} {op : Op} (hmessage : IsCommand message)
    (hahead : s.loop.ahead = [op]) (hloop : s'.loop = .makeSnapShot message op)
    (happlied : s'.applied = s.applied ++ [op]) (hchan : s'.applyChan = s.applyChan)
    (hsnapshot : s'.lastSnapShotRaftLogIndex = s.lastSnapShotRaftLogIndex)
    (hqueues : s'.queues = s.queues) (hhandlers : s'.handlers = s.handlers)
    (htable : s'.lastRequestId = s.lastRequestId ∨
      s'.lastRequestId = s.lastRequestId.insert op.clientId op.requestId) : FollowsInv log s' := by
  have hmem : op ∈ s'.applied := by
    rw [happlied]
    exact List.mem_append_right _ List.mem_cons_self
  have hmono : ∀ op', Done (· ∈ s.applied) op' → Done (· ∈ s'.applied) op' := by
    intro op' hdone
    rw [happlied]
    exact hdone.append [op]
  constructor
  · exact hsnapshot.trans h.noSnapshot
  · rw [hchan]
    exact h.messages
  · rw [hloop]
    exact ⟨hmessage, hmem⟩
  · have hlog := h.log
    unfold KvServer.ahead at hlog ⊢
    rw [hahead] at hlog
    rw [hloop, hchan, happlied, List.append_assoc]
    exact hlog
  · rw [hqueues, happlied]
    exact fun queue hqueue op' hop' ↦ List.mem_append_left _ (h.queues queue hqueue op' hop')
  · rcases htable with hsame | hinsert
    · intro clientId requestId hlookup
      rw [hsame] at hlookup
      exact h.table.mono hmono clientId requestId hlookup
    · exact (h.table.mono hmono).insert (Done.of_mem hmem rfl rfl) hinsert
  · rw [hhandlers, happlied]
    exact fun handler hhandler ↦ (h.handlers handler hhandler).append [op]

theorem applied_isPrefix (h : FollowsInv log s) : s.applied <+: log :=
  ⟨s.ahead, h.log⟩

variable [Codec KvData] [Codec (SkipList.Dump String String)]

/-- The loop takes the next command. -/
theorem step_pop (h : FollowsInv log s) (hloop : s.loop = .pop) {message : ApplyMsg}
    {rest : List ApplyMsg} (hchan : s.applyChan = message :: rest)
    (hstep : s.step .loop = some s') : FollowsInv log s' := by
  have hcommand := h.messages message (hchan ▸ List.mem_cons_self)
  obtain ⟨op, index, hpos, rfl⟩ := id hcommand
  unfold KvServer.step at hstep
  split at hstep
  · cases hstep
  simp only [KvServer.readRaftApplyCommandLoop, hloop, hchan, KvServer.readMessage, commandMessage,
    Codec.decode_encode, if_true, Option.map_some, Option.getD_some, Option.some.injEq] at hstep
  subst hstep
  refine ⟨h.noSnapshot, fun message' hmem ↦ h.messages message' ?_, hcommand, ?_, h.queues, h.table,
    h.handlers⟩
  · rw [hchan]
    exact List.mem_cons_of_mem _ hmem
  · have hlog := h.log_eq hloop
    rw [hchan] at hlog
    simpa [KvServer.ahead, LoopState.ahead, commandMessage, Codec.decode_encode] using hlog

/-- What one step of the loop preserves. -/
theorem step_loop (h : FollowsInv log s) (hstep : s.step .loop = some s') : FollowsInv log s' := by
  cases KvServer.step_cases hstep with
  | exit _ _ => exact ⟨h.noSnapshot, h.messages, h.loop, h.log, h.queues, h.table, h.handlers⟩
  | popCommand message rest op hloop hchan hop => exact h.step_pop hloop hchan hstep
  | popOther message rest hloop hchan => exact h.step_pop hloop hchan hstep
  | skip message op hloop hindex =>
    have hpos := (h.loop_eq hloop : IsCommand message).commandIndex_pos
    rw [h.noSnapshot] at hindex
    omega
  | duplicate message op hloop hindex hdup =>
    exact h.apply (h.loop_eq hloop) (by rw [hloop]; rfl) rfl rfl rfl rfl rfl rfl (.inl rfl)
  | fresh message op hloop hindex hdup =>
    have hcheck := h.loop_eq hloop
    have hlog := h.log_eq hloop
    exact ⟨h.noSnapshot, h.messages, hcheck, hlog, h.queues, h.table, h.handlers⟩
  | executeGet message op hloop hop =>
    exact h.apply (h.loop_eq hloop) (by rw [hloop]; rfl) rfl rfl rfl rfl rfl rfl (.inl rfl)
  | executeSet message op hloop hop =>
    exact h.apply (h.loop_eq hloop) (by rw [hloop]; rfl) rfl rfl rfl rfl rfl rfl (.inr rfl)
  | makeSnapShot message op hloop =>
    have happlied := h.loop_eq hloop
    have hlog := h.log_eq hloop
    exact ⟨h.noSnapshot, h.messages, happlied, hlog, h.queues, h.table, h.handlers⟩
  | sendNone message op hloop hch =>
    have hpop := (h.loop_eq hloop : IsCommand message ∧ op ∈ s.applied).1.afterCommand
    refine ⟨h.noSnapshot, h.messages, ?_, ?_, h.queues, h.table, h.handlers⟩
    · rw [hpop]
      trivial
    · simpa [KvServer.ahead, hpop, LoopState.ahead] using h.log_eq hloop
  | send message op ch queue hloop hch hqueue =>
    obtain ⟨hcommand, happlied⟩ := (h.loop_eq hloop : IsCommand message ∧ op ∈ s.applied)
    have hpop := hcommand.afterCommand
    refine ⟨h.noSnapshot, h.messages, ?_, ?_, h.queues_set ?_, h.table, h.handlers⟩
    · rw [hpop]
      trivial
    · simpa [KvServer.ahead, hpop, LoopState.ahead] using h.log_eq hloop
    · rintro _ ⟨⟩ op' hop'
      rcases List.mem_append.mp hop' with hold | hnew
      · exact h.queues queue (List.mem_of_getElem? hqueue) op' hold
      · rw [List.mem_singleton.mp hnew]
        exact happlied
  | installEmpty message hloop _ => exact (h.loop_eq hloop).elim
  | install message data skipList hloop _ _ _ => exact (h.loop_eq hloop).elim

/-- What one step of a handler preserves. -/
theorem step_handler (h : FollowsInv log s) {k : ℕ} (hstep : s.Step (.handler k) s') :
    FollowsInv log s' := by
  cases hstep with
  | exit _ _ => exact ⟨h.noSnapshot, h.messages, h.loop, h.log, h.queues, h.table, h.handlers⟩
  | findChan _ handler ch hhandler hstate hch =>
    exact ⟨h.noSnapshot, h.messages, h.loop, h.log, h.queues, h.table, h.handlers_wait nofun rfl⟩
  | insertChan _ handler hhandler hstate hch =>
    refine ⟨h.noSnapshot, h.messages, h.loop, h.log, fun queue hmem ↦ ?_, h.table,
      h.handlers_wait nofun rfl⟩
    rcases List.mem_append.mp hmem with hold | hnew
    · exact h.queues queue hold
    · obtain rfl : queue = [] := Option.some.inj (List.mem_singleton.mp hnew)
      exact fun op hop ↦ absurd hop List.not_mem_nil
  | popChan _ handler ch raftCommitOp queue hhandler hstate hqueue =>
    have happlied := h.queues _ (List.mem_of_getElem? hqueue)
    refine ⟨h.noSnapshot, h.messages, h.loop, h.log, h.queues_set ?_, h.table,
      h.handlers_set (Handler.backed_onCommit (happlied raftCommitOp List.mem_cons_self))⟩
    rintro _ ⟨⟩ op hop
    exact happlied op (List.mem_cons_of_mem _ hop)
  | onTimeOut _ handler isLeader hhandler hstate =>
    exact ⟨h.noSnapshot, h.messages, h.loop, h.log, h.queues, h.table,
      h.handlers_set (Handler.backed_onTimeOut h.done_of_duplicate)⟩
  | serveGet _ handler hhandler hstate =>
    have hdone := (h.backed_of_getElem? hhandler hstate).1 rfl
    exact ⟨h.noSnapshot, h.messages, h.loop, h.log, h.queues, h.table.insert hdone rfl,
      h.handlers_set (HandlerState.backed_of_done hdone)⟩
  | eraseChan _ handler reply ch hhandler hstate hch =>
    have hbacked := (h.backed_of_getElem? hhandler hstate).2
    exact ⟨h.noSnapshot, h.messages, h.loop, h.log, h.queues_set nofun, h.table,
      h.handlers_set ⟨nofun, hbacked⟩⟩
  | eraseNone _ handler reply hhandler hstate hch =>
    have hbacked := (h.backed_of_getElem? hhandler hstate).2
    exact ⟨h.noSnapshot, h.messages, h.loop, h.log, h.queues, h.table,
      h.handlers_set ⟨nofun, hbacked⟩⟩

/-- What one step preserves. Only commands are delivered. -/
theorem step (h : FollowsInv log s)
    (hdeliver : ∀ message, a = .deliver message → IsCommand message)
    (hstep : s.step a = some s') : FollowsInv (log ++ KvServer.delivering a) s' := by
  cases a with
  | loop => simpa [KvServer.delivering] using h.step_loop hstep
  | handler k => simpa [KvServer.delivering] using h.step_handler (KvServer.step_cases hstep)
  | deliver message =>
    have hcommand := hdeliver message rfl
    obtain ⟨op, index, hpos, rfl⟩ := id hcommand
    unfold KvServer.step at hstep
    split at hstep
    · cases hstep
    cases hstep
    refine ⟨h.noSnapshot, fun message' hmem ↦ ?_, h.loop, ?_, h.queues, h.table, h.handlers⟩
    · rcases List.mem_append.mp hmem with hold | hnew
      · exact h.messages message' hold
      · rw [List.mem_singleton.mp hnew]
        exact hcommand
    · rw [← h.log]
      simp [KvServer.ahead, KvServer.delivering, commandMessage, Codec.decode_encode]
  | rpc request start =>
    have hnone : log ++ KvServer.delivering (.rpc request start) = log := List.append_nil log
    rw [hnone]
    cases KvServer.step_cases hstep with
    | exit _ _ => exact ⟨h.noSnapshot, h.messages, h.loop, h.log, h.queues, h.table, h.handlers⟩
    | rpc _ _ =>
      refine ⟨h.noSnapshot, h.messages, h.loop, h.log, h.queues, h.table, fun handler hmem ↦ ?_⟩
      rcases List.mem_append.mp hmem with hold | hnew
      · exact h.handlers handler hold
      · rw [List.mem_singleton.mp hnew]
        exact Handler.backed_begin request start
  | timeOut k isLeader =>
    have hnone : log ++ KvServer.delivering (.timeOut k isLeader) = log := List.append_nil log
    rw [hnone]
    cases KvServer.step_cases hstep with
    | exit _ _ => exact ⟨h.noSnapshot, h.messages, h.loop, h.log, h.queues, h.table, h.handlers⟩
    | timeOut _ _ handler ch hhandler hstate =>
      exact ⟨h.noSnapshot, h.messages, h.loop, h.log, h.queues, h.table, h.handlers_wait nofun rfl⟩

end FollowsInv

end Archives

/-! ### Where the reply of a `Get` comes from -/

/-- What a `Get` handler answers when it reads now. -/
def KvServer.readReply (s : KvServer) (key : String) : Reply :=
  match s.skipList.searchElement key with
  | some value => { err := .ok, value := value }
  | none => { err := .errNoKey }

/-- Some handler of the request is in a state of this kind. -/
def KvServer.HasHandler (s : KvServer) (request : Request) (state : HandlerState → Prop) : Prop :=
  ∃ handler ∈ s.handlers, handler.request = request ∧ state handler.state

theorem Handler.reply_onCommit {handler : Handler} {raftCommitOp : Op} {args : GetArgs}
    {reply : Reply} (hrequest : handler.request = .get args)
    (h : (handler.onCommit raftCommitOp).reply = some reply) : reply.err = .errWrongLeader := by
  unfold Handler.onCommit at h
  rw [hrequest] at h
  split at h
  · cases h
  · cases h
    rfl

theorem Handler.reply_onTimeOut {handler : Handler} {isDuplicate isLeader : Bool} {args : GetArgs}
    {reply : Reply} (hrequest : handler.request = .get args)
    (h : (handler.onTimeOut isDuplicate isLeader).reply = some reply) :
    reply.err = .errWrongLeader := by
  unfold Handler.onTimeOut at h
  rw [hrequest] at h
  dsimp only at h
  split at h
  · cases h
  · cases h
    rfl

section Archives

variable [Codec Op] [Codec KvData] [Codec (SkipList.Dump String String)]
variable {s s' : KvServer} {a : KvAction}

/-- A `Get` handler has its reply, other than ErrWrongLeader, from before the step or reads it. -/
theorem reply_step (hstep : s.step a = some s') {args : GetArgs} {reply : Reply}
    (herr : reply.err ≠ .errWrongLeader)
    (h : s'.HasHandler (.get args) fun state ↦ state.reply = some reply) :
    s.HasHandler (.get args) (fun state ↦ state.reply = some reply) ∨
      s.HasHandler (.get args) (fun state ↦ state = .executeGet) ∧ reply = s.readReply args.key := by
  obtain ⟨new, hnew, hrequest, hreply⟩ := h
  have hset : ∀ (k : ℕ) (handler : Handler) (state : HandlerState),
      s'.handlers = s.handlers.set k { handler with state := state } →
      (handler.request = .get args → state.reply = some reply →
        s.HasHandler (.get args) (fun state ↦ state.reply = some reply) ∨
          s.HasHandler (.get args) (fun state ↦ state = .executeGet) ∧
            reply = s.readReply args.key) →
      s.HasHandler (.get args) (fun state ↦ state.reply = some reply) ∨
        s.HasHandler (.get args) (fun state ↦ state = .executeGet) ∧
          reply = s.readReply args.key := by
    intro k handler state hhandlers hstate
    rw [hhandlers] at hnew
    rcases List.mem_or_eq_of_mem_set hnew with hold | rfl
    · exact .inl ⟨new, hold, hrequest, hreply⟩
    · exact hstate hrequest hreply
  cases KvServer.step_cases hstep with
  | rpc request start =>
    rcases List.mem_append.mp hnew with hold | hbegin
    · exact .inl ⟨new, hold, hrequest, hreply⟩
    · rw [List.mem_singleton.mp hbegin] at hreply
      cases start with
      | none =>
        cases hreply
        exact absurd rfl herr
      | some raftIndex => cases hreply
  | findChan k handler ch _ _ _ => exact hset k handler _ rfl nofun
  | insertChan k handler _ _ _ => exact hset k handler _ rfl nofun
  | popChan k handler ch raftCommitOp queue _ _ _ =>
    exact hset k handler _ rfl fun hget hcommit ↦
      absurd (Handler.reply_onCommit hget hcommit) herr
  | timeOut k isLeader handler ch _ _ => exact hset k handler _ rfl nofun
  | onTimeOut k handler isLeader _ _ =>
    exact hset k handler _ rfl fun hget htimeOut ↦
      absurd (Handler.reply_onTimeOut hget htimeOut) herr
  | serveGet k handler hhandler hstate =>
    refine hset k handler _ rfl fun hget hread ↦
      .inr ⟨⟨handler, List.mem_of_getElem? hhandler, hget, hstate⟩, ?_⟩
    have hread' : s.readReply handler.request.op.key = reply := Option.some.inj hread
    rw [hget] at hread'
    exact hread'.symm
  | eraseChan k handler old ch hhandler hstate _ =>
    refine hset k handler _ rfl fun hget hold ↦
      .inl ⟨handler, List.mem_of_getElem? hhandler, hget, ?_⟩
    rw [hstate]
    exact hold
  | eraseNone k handler old hhandler hstate _ =>
    refine hset k handler _ rfl fun hget hold ↦
      .inl ⟨handler, List.mem_of_getElem? hhandler, hget, ?_⟩
    rw [hstate]
    exact hold
  | _ => exact .inl ⟨new, hnew, hrequest, hreply⟩

end Archives

/-! ### The invariant of the system -/

variable {H H' : ClerkEvent m → Prop} {clerks : List (Clerk m)} {committed : List Op}
  {s s' : ClerkSystem m} {a : ClerkAction m}

/-- The clerk waits for the answer to the command. -/
def WaitsFor (clerks : List (Clerk m)) (c : ℕ) (op : Op) : Prop :=
  ∃ clerk call, clerks[c]? = some clerk ∧ clerk.pending = some call ∧ call.request.op = op

/-- A clerk waits for a command until it has been committed. -/
def AnsweredInv (H : ClerkEvent m → Prop) (committed : List Op) (clerks : List (Clerk m)) : Prop :=
  ∀ c op, H (.issued c op) → op ∈ committed ∨ WaitsFor clerks c op

theorem AnsweredInv.set (h : AnsweredInv H committed clerks) {c : ℕ} {clerk clerk' : Clerk m}
    (hclerk : clerks[c]? = some clerk)
    (hpending : ∀ call, clerk.pending = some call → call.request.op ∈ committed ∨
      ∃ call', clerk'.pending = some call' ∧ call'.request.op = call.request.op) :
    AnsweredInv H committed (clerks.set c clerk') := by
  intro c' op hop
  rcases h c' op hop with hcommitted | ⟨other, call, hother, hcall, rfl⟩
  · exact .inl hcommitted
  · by_cases hc : c' = c
    · subst hc
      obtain rfl : clerk = other := Option.some.inj (hclerk.symm.trans hother)
      exact (hpending call hcall).imp_right fun ⟨call', hcall', hsame⟩ ↦
        ⟨clerk', call', (getElem?_set_of_some hclerk clerk' c').trans (if_pos rfl), hcall', hsame⟩
    · exact .inr ⟨other, call,
        ((getElem?_set_of_some hclerk clerk' c').trans (if_neg hc)).trans hother, hcall, rfl⟩

theorem AnsweredInv.congr (h : AnsweredInv H committed clerks)
    (hsame : ∀ c op, H' (.issued c op) ↔ H (.issued c op)) : AnsweredInv H' committed clerks :=
  fun c op hop ↦ h c op ((hsame c op).mp hop)

section System

variable [Codec Op]

structure ReadInv (H : ClerkEvent m → Prop) (s : ClerkSystem m) : Prop where
  clerk : ClerkInv H s
  delivered : ∀ i, s.delivered i ≤ s.committed.length
  follows : ∀ i, FollowsInv (s.committed.take (s.delivered i)) (s.servers i)
  answered : AnsweredInv H s.committed s.clerks

namespace ReadInv

theorem initial : ReadInv (fun _ ↦ False) ({} : ClerkSystem m) :=
  ⟨ClerkInv.initial, fun _ ↦ le_refl 0, fun _ ↦ FollowsInv.initial, fun _ _ ↦ False.elim⟩

theorem applied_isPrefix (h : ReadInv H s) (i : Fin (m + 1)) :
    (s.servers i).applied <+: s.committed :=
  (h.follows i).applied_isPrefix.trans (List.take_prefix _ _)

/-- A command is committed when one of its client with its id or a later one has been applied: the
clerk has issued the later one after it had got its answer. -/
theorem committed_of_done (h : ReadInv H s) {i : Fin (m + 1)} {op : Op} (hop : Issued H op)
    (hdone : Done (· ∈ (s.servers i).applied) op) : op ∈ s.committed := by
  obtain ⟨op', happlied, hclient, hle⟩ := hdone
  have hcommitted := (h.applied_isPrefix i).subset happlied
  obtain ⟨c, hc⟩ := hop
  obtain ⟨c', hc'⟩ := h.clerk.committed op' hcommitted
  obtain ⟨rfl, hunique⟩ := h.clerk.clerks.unique hc' hc hclient
  rcases h.answered c' op hc with hold | ⟨clerk, call, hclerk, hcall, rfl⟩
  · exact hold
  · have hid := (h.clerk.clerks.pending c' clerk call hclerk hcall).2
    obtain ⟨clerk', hclerk', -, -, hle'⟩ := h.clerk.clerks.issued c' op' hc'
    obtain rfl : clerk = clerk' := Option.some.inj (hclerk.symm.trans hclerk')
    exact hunique (by omega) ▸ hcommitted

/-- The commands issued under a client id before a call have smaller request ids. -/
theorem requestId_lt_of_issuing (h : ReadInv H s) (hown : s.OwnId a) {c : ℕ} {op op' : Op}
    (hissuing : s.issuing a = some (c, op)) (hop' : Issued H op')
    (hclient : op'.clientId = op.clientId) : op'.requestId < op.requestId := by
  obtain ⟨c', hc'⟩ := hop'
  obtain ⟨clerk', hclerk', hid', hpos, hle⟩ := h.clerk.clerks.issued c' op' hc'
  have howns := hown _ hissuing c' (List.getElem?_eq_some_iff.mp hclerk').1 clerk' hclerk'
  cases a with
  | call c₀ call =>
    obtain ⟨clerk, hclerk, hsame⟩ := Option.map_eq_some_iff.mp hissuing
    cases hsame
    rw [(call.request_ids clerk.clientId (clerk.requestId + 1)).1] at hclient
    rw [(call.request_ids clerk.clientId (clerk.requestId + 1)).2]
    by_cases hc : c' = c
    · subst hc
      obtain rfl : clerk = clerk' := Option.some.inj (hclerk.symm.trans hclerk')
      omega
    · have hzero := howns hc
        (by rw [(call.request_ids clerk.clientId (clerk.requestId + 1)).1, ← hclient, hid'])
      omega
  | _ => cases hissuing

variable [Codec KvData] [Codec (SkipList.Dump String String)] {rand : ℕ → ℕ}

/-- A server keeps what it has been delivered. -/
theorem follows_server (h : ReadInv H s) {i : Fin (m + 1)} {b : KvAction} {server : KvServer}
    (hnone : ∀ message, b ≠ .deliver message) (hserver : (s.servers i).step b = some server)
    (j : Fin (m + 1)) :
    FollowsInv (s.committed.take (s.delivered j)) ((s.setServer i server).servers j) := by
  by_cases hj : j = i
  · subst hj
    have hfollows := (h.follows j).step (fun message hb ↦ absurd hb (hnone message)) hserver
    have hempty : KvServer.delivering b = [] := by
      cases b with
      | deliver message => exact absurd rfl (hnone message)
      | _ => rfl
    rw [hempty, List.append_nil] at hfollows
    simpa [ClerkSystem.setServer] using hfollows
  · simpa [ClerkSystem.setServer, hj] using h.follows j

/-- The servers follow the committed sequence. -/
theorem follows_step (h : ReadInv H s) (hstep : s.step rand a = some s') :
    (∀ i, s'.delivered i ≤ s'.committed.length) ∧
      ∀ i, FollowsInv (s'.committed.take (s'.delivered i)) (s'.servers i) := by
  cases ClerkSystem.step_cases hstep with
  | receive k start rpc server hrpc hserver =>
    exact ⟨h.delivered, h.follows_server (fun _ ↦ KvAction.noConfusion) hserver⟩
  | commit op hop =>
    refine ⟨fun i ↦ (h.delivered i).trans (by simp), fun i ↦ ?_⟩
    rw [List.take_append_of_le_length (h.delivered i)]
    exact h.follows i
  | deliver i op server hop hserver =>
    have hlt := (List.getElem?_eq_some_iff.mp hop).1
    refine ⟨fun j ↦ ?_, fun j ↦ ?_⟩
    · by_cases hj : j = i
      · subst hj
        simpa [ClerkSystem.setServer] using Nat.succ_le_of_lt hlt
      · simpa [ClerkSystem.setServer, hj] using h.delivered j
    · by_cases hj : j = i
      · subst hj
        have hfollows := (h.follows j).step
          (by rintro _ ⟨⟩; exact ⟨op, _, by omega, rfl⟩) hserver
        simpa [ClerkSystem.setServer, List.take_add_one, hop, KvServer.delivering, commandMessage,
          Codec.decode_encode] using hfollows
      · simpa [ClerkSystem.setServer, hj] using h.follows j
  | server i b server hact hserver =>
    exact ⟨h.delivered, h.follows_server (internal_of_server hact).1 hserver⟩
  | _ => exact ⟨h.delivered, h.follows⟩

/-- The clerks wait for what has not been committed. -/
theorem answered_step (h : ReadInv H s) (hstep : s.step rand a = some s') :
    AnsweredInv (After H s a) s'.committed s'.clerks := by
  cases ClerkSystem.step_cases hstep with
  | rand process =>
    rw [after_of_quiet rfl rfl]
    exact h.answered
  | newClerk process =>
    rw [after_of_quiet rfl rfl]
    exact fun c op hop ↦ (h.answered c op hop).imp_right fun ⟨clerk, call, hclerk, hcall⟩ ↦
      ⟨clerk, call, getElem?_append_of_some hclerk _, hcall⟩
  | call c call clerk hclerk =>
    obtain ⟨clerk', hclerk', hpending⟩ := ClerkSystem.pending_of_call hstep
    obtain rfl : clerk = clerk' := Option.some.inj (hclerk.symm.trans hclerk')
    rintro c' op (hold | hnew)
    · refine h.answered.set hclerk (fun call' hcall' ↦ ?_) c' op hold
      rw [hpending] at hcall'
      cases hcall'
    · obtain ⟨clerk', hclerk', hsame⟩ := Option.map_eq_some_iff.mp hnew
      cases hsame
      obtain rfl : clerk = clerk' := Option.some.inj (hclerk.symm.trans hclerk')
      exact .inr ⟨_, _, (getElem?_set_of_some hclerk _ c).trans (if_pos rfl), rfl, rfl⟩
  | receive k start rpc server hrpc hserver =>
    rw [after_of_quiet rfl rfl]
    exact h.answered
  | retry c clerk call reply server hclerk hcall hreply hretry =>
    rw [after_of_quiet rfl rfl]
    refine h.answered.set hclerk fun call' hcall' ↦ .inr ⟨_, rfl, ?_⟩
    obtain rfl : call = call' := Option.some.inj (hcall.symm.trans hcall')
    rfl
  | finish c clerk call reply hclerk hcall hreply hretry =>
    rw [after_of_quiet rfl rfl]
    refine h.answered.set hclerk fun call' hcall' ↦ .inl ?_
    obtain rfl : call = call' := Option.some.inj (hcall.symm.trans hcall')
    obtain ⟨handler, hmem, hrequest, hstate⟩ := h.clerk.handler_of_replyTo hclerk hcall hreply
    have hbacked := ((h.follows call.server).handlers handler hmem).2 reply
      (by rw [hstate]; rfl) (Request.not_wrongLeader_of_returns hretry)
    rw [hrequest] at hbacked
    exact h.committed_of_done ⟨c, (h.clerk.clerks.pending c clerk call hclerk hcall).1⟩ hbacked
  | fail c clerk call hclerk hcall =>
    rw [after_of_quiet rfl rfl]
    refine h.answered.set hclerk fun call' hcall' ↦ .inr ⟨_, rfl, ?_⟩
    obtain rfl : call = call' := Option.some.inj (hcall.symm.trans hcall')
    rfl
  | commit op hop =>
    rw [after_of_quiet rfl rfl]
    exact fun c op' hop' ↦ (h.answered c op' hop').imp_left (List.mem_append_left _)
  | deliver i op server hop hserver =>
    rw [after_of_quiet rfl rfl]
    exact h.answered
  | server i b server hact hserver => exact h.answered.congr (issued_of_server hact)

/-- What one step preserves. -/
theorem step (h : ReadInv H s) (hown : s.OwnId a) (hstep : s.step rand a = some s') :
    ReadInv (After H s a) s' :=
  ⟨h.clerk.step hown hstep, (h.follows_step hstep).1, (h.follows_step hstep).2,
    h.answered_step hstep⟩

end ReadInv

end System

/-! ### Runs -/

section Runs

variable [Codec Op] [Codec KvData] [Codec (SkipList.Dump String String)] {rand : ℕ → ℕ}

/-- A handler of the server has answered the request. -/
def Answered (r : Run (clerkSystem m rand)) (k : ℕ) (i : Fin (m + 1)) (request : Request)
    (reply : Reply) : Prop :=
  ((r.state k).servers i).HasHandler request fun state ↦ state = .returned reply

/-- Some server has answered the Put or Append with OK. -/
def Acknowledged (r : Run (clerkSystem m rand)) (k : ℕ) (op : Op) : Prop :=
  ∃ i args reply, Answered r k i (.putAppend args) reply ∧ reply.err = .ok ∧
    op = (Request.putAppend args).op

/-- The call of the command begins at moment `k`. -/
def IssuedAt (r : Run (clerkSystem m rand)) (k : ℕ) (op : Op) : Prop :=
  ∃ a c, r.act k = some a ∧ (r.state k).issuing a = some (c, op)

def FirstIssuedAt (r : Run (clerkSystem m rand)) (k : ℕ) (op : Op) : Prop :=
  IssuedAt r k op ∧ ∀ j < k, ¬ IssuedAt r j op

/-- A reply OK or ErrNoKey to a `Get` is what the store of the server held for the key after a
prefix of the committed commands, with all the Puts and Appends that any server had acknowledged
when the `Get` was issued. -/
def ReadsLinearizable (r : Run (clerkSystem m rand)) : Prop :=
  ∀ k i args reply, Answered r k i (.get args) reply → reply.err ≠ .errWrongLeader →
    ∃ j < k, reply = ((r.state j).servers i).readReply args.key ∧
      ((r.state j).servers i).applied <+: (r.state j).committed ∧
      ∃ t < j, FirstIssuedAt r t (Request.get args).op ∧
        ∀ op, Acknowledged r t op → op ∈ ((r.state j).servers i).applied

theorem readInv_run (r : Run (clerkSystem m rand)) (hown : r.Obeys ClerkSystem.OwnId) (k : ℕ) :
    ReadInv (Before r k) (r.state k) :=
  @Run.invariant_happened _ _ _ (clerkSystem m rand) ClerkSystem.Happens ReadInv
    ClerkSystem.OwnId ReadInv.initial (fun _ _ _ _ h hok hstep ↦ h.step hok hstep) r hown k

/-- A `Get` handler that has a reply has read it. -/
theorem exists_read (r : Run (clerkSystem m rand)) {k : ℕ} {i : Fin (m + 1)} {args : GetArgs}
    {reply : Reply} (herr : reply.err ≠ .errWrongLeader)
    (h : ((r.state k).servers i).HasHandler (.get args) fun state ↦ state.reply = some reply) :
    ∃ j < k, ((r.state j).servers i).HasHandler (.get args) (fun state ↦ state = .executeGet) ∧
      reply = ((r.state j).servers i).readReply args.key := by
  induction k with
  | zero =>
    obtain ⟨handler, hmem, -⟩ := h
    rw [r.state_zero] at hmem
    cases hmem
  | succ k ih =>
    have hlater : (∃ j < k, ((r.state j).servers i).HasHandler (.get args)
          (fun state ↦ state = .executeGet) ∧
          reply = ((r.state j).servers i).readReply args.key) →
        ∃ j < k + 1, ((r.state j).servers i).HasHandler (.get args)
          (fun state ↦ state = .executeGet) ∧
          reply = ((r.state j).servers i).readReply args.key := fun ⟨j, hj, hread⟩ ↦
      ⟨j, by omega, hread⟩
    cases ha : r.act k with
    | none =>
      rw [r.pause k ha] at h
      exact hlater (ih h)
    | some a =>
      rcases ClerkSystem.servers_step (r.next k a ha) i with hsame | ⟨b, hserver⟩
      · rw [hsame] at h
        exact hlater (ih h)
      · rcases reply_step hserver herr h with hold | hread
        · exact hlater (ih hold)
        · exact ⟨k, Nat.lt_succ_self k, hread⟩

theorem committed_isPrefix (r : Run (clerkSystem m rand)) {j k : ℕ} (hjk : j ≤ k) :
    (r.state j).committed <+: (r.state k).committed := by
  induction k, hjk using Nat.le_induction with
  | base => exact List.prefix_refl _
  | succ k _ ih =>
    refine ih.trans ?_
    cases ha : r.act k with
    | none => rw [r.pause k ha]
    | some a =>
      have hnext := r.next k a ha
      generalize r.state (k + 1) = s' at hnext ⊢
      cases ClerkSystem.step_cases hnext with
      | commit op _ => exact List.prefix_append _ _
      | _ => exact List.prefix_refl _

theorem exists_firstIssuedAt (r : Run (clerkSystem m rand)) {k : ℕ} {op : Op}
    (h : Issued (Before r k) op) : ∃ t < k, FirstIssuedAt r t op := by
  classical
  obtain ⟨c, t, ht, a, ha, hissuing⟩ := h
  have hsome : ∃ t, IssuedAt r t op := ⟨t, a, c, ha, hissuing⟩
  exact ⟨Nat.find hsome, (Nat.find_min' hsome ⟨a, c, ha, hissuing⟩).trans_lt ht,
    Nat.find_spec hsome, fun j hj ↦ Nat.find_min hsome hj⟩

/-- What has been acknowledged is committed. -/
theorem committed_of_acknowledged {r : Run (clerkSystem m rand)}
    (hown : r.Obeys ClerkSystem.OwnId) {k : ℕ} {op : Op} (h : Acknowledged r k op) :
    op ∈ (r.state k).committed := by
  obtain ⟨i, args, reply, ⟨handler, hmem, hrequest, hstate⟩, hok, rfl⟩ := h
  have hinv := readInv_run r hown k
  have hissued := ((hinv.clerk.servers i).handlers handler hmem).issued
  have hdone := ((hinv.follows i).handlers handler hmem).2 reply (by rw [hstate]; rfl)
    (by rw [hok]; exact Err.noConfusion)
  rw [hrequest] at hissued hdone
  exact hinv.committed_of_done hissued hdone

/-- A command under the client id of a call, with its request id or a later one, is committed after
all that is committed when the call begins. -/
theorem isPrefix_of_done {r : Run (clerkSystem m rand)} (hown : r.Obeys ClerkSystem.OwnId)
    {t k : ℕ} (htk : t ≤ k) {i : Fin (m + 1)} {op : Op} (hissued : IssuedAt r t op)
    (hdone : Done (· ∈ ((r.state k).servers i).applied) op) :
    (r.state t).committed <+: ((r.state k).servers i).applied := by
  obtain ⟨op', happlied, hclient, hle⟩ := hdone
  obtain ⟨a, c, ha, hissuing⟩ := hissued
  have hinv := readInv_run r hown t
  have hlater : op' ∉ (r.state t).committed := by
    intro hcommitted
    have hlt := hinv.requestId_lt_of_issuing (hown t a ha) hissuing
      (hinv.clerk.committed op' hcommitted) hclient
    omega
  rcases List.prefix_or_prefix_of_prefix (committed_isPrefix r htk)
    ((readInv_run r hown k).applied_isPrefix i) with hshorter | hlonger
  · exact hshorter
  · exact absurd (hlonger.subset happlied) hlater

/-- Read linearizability. In every run in which no clerk calls under the client id of another clerk
that has called, every reply OK or ErrNoKey to a `Get` is a lookup in a store that contains what had
been acknowledged when the `Get` was issued. -/
theorem readLinearizability (r : Run (clerkSystem m rand)) (hown : r.Obeys ClerkSystem.OwnId) :
    ReadsLinearizable r := by
  rintro k i args reply ⟨handler, hmem, hrequest, hstate⟩ herr
  obtain ⟨j, hjk, ⟨reader, hreader, hget, hexecute⟩, hreply⟩ := exists_read r herr
    ⟨handler, hmem, hrequest, by rw [hstate]; rfl⟩
  have hinv := readInv_run r hown j
  have hissued := ((hinv.clerk.servers i).handlers reader hreader).issued
  have hdone := ((hinv.follows i).handlers reader hreader).1 hexecute
  rw [hget] at hissued hdone
  obtain ⟨t, htj, hfirst⟩ := exists_firstIssuedAt r hissued
  refine ⟨j, hjk, hreply, hinv.applied_isPrefix i, t, htj, hfirst, fun op hop ↦ ?_⟩
  exact (isPrefix_of_done hown htj.le hfirst.1 hdone).subset (committed_of_acknowledged hown hop)

end Runs

/-! ### A read that is answered twice -/

section Examples

open scoped Archive

def readBack : Op :=
  ((ClerkCall.get "x").request (uuid libcRand 0) 2).op

/-- A clerk writes at server 0 and reads at server 1. The answer to the read is lost, and the next
attempt times out; server 1 takes it for a duplicate and reads again. -/
def retriedRead : List (ClerkAction 1) :=
  [.newClerk 0,
    .call 0 firstWrite, .receive 0 (some 1), .handler 0 0, .commit (firstCommand 0 firstWrite),
    .deliver 0, .loop 0, .loop 0, .loop 0, .loop 0, .loop 0, .handler 0 0, .handler 0 0, .reply 0,
    .call 0 (.get "x"), .receive 1 none, .reply 0, .receive 2 (some 2), .handler 1 0,
    .commit readBack, .deliver 1, .loop 1, .loop 1, .loop 1, .loop 1, .loop 1,
    .deliver 1, .loop 1, .loop 1, .loop 1, .loop 1, .loop 1, .handler 1 0, .handler 1 0, .handler 1 0,
    .fail 0, .receive 3 none, .reply 0, .receive 4 (some 3), .handler 1 1, .timeOut 1 1 true,
    .handler 1 1, .handler 1 1, .handler 1 1]

def retriedReadRun : Run (clerkSystem 1 libcRand) :=
  Run.ofActions _ retriedRead (by decide +kernel)

theorem retriedReadRun_ownId : retriedReadRun.Obeys ClerkSystem.OwnId := by
  rw [retriedReadRun, Run.obeys_ofActions_iff]
  decide +kernel

theorem readLinearizability_retriedRead : ReadsLinearizable retriedReadRun :=
  readLinearizability retriedReadRun retriedReadRun_ownId

end Examples

end Rsylar
