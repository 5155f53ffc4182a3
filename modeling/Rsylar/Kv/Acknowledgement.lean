import Rsylar.Kv.ServerSpec

/-!
# What stands behind a reply

The view of one server that the reasoning about clerks needs. `issued` are the commands that clerks
have sent and `touched` those the server has executed or served. Every entry of the table is the id
of a touched command, so a command the duplicate check rejects is covered by a touched one of the
same client (`Done`), and so is every Put or Append that the loop hands to a waiting handler and
that a handler answers with OK (`KvServerInv`).
-/

set_option autoImplicit false
set_option relaxedAutoImplicit false

namespace Rsylar

open TextArchive TransitionSystem

variable {issued issued' touched touched' : Op → Prop} {op : Op}

/-- The server has executed or served this request of the client or a later one. -/
def Done (touched : Op → Prop) (op : Op) : Prop :=
  ∃ op', touched op' ∧ op'.clientId = op.clientId ∧ op.requestId ≤ op'.requestId

/-- A command the loop is through with. -/
structure Settled (issued touched : Op → Prop) (op : Op) : Prop where
  issued : issued op
  done : op.operation ≠ .get → Done touched op

def LoopState.Inv (issued touched : Op → Prop) : LoopState → Prop
  | .pop => True
  | .check message op => message.snapshotValid = false ∧ issued op
  | .execute message op => message.snapshotValid = false ∧ issued op
  | .makeSnapShot message op => message.snapshotValid = false ∧ Settled issued touched op
  | .send message op => message.snapshotValid = false ∧ Settled issued touched op
  | .getSnapShot _ => False

def HandlerState.Inv (touched : Op → Prop) (op : Op) : HandlerState → Prop
  | .executeGet => op.operation = .get
  | .eraseChan reply => reply.err = .ok → op.operation ≠ .get → Done touched op
  | .returned reply => reply.err = .ok → op.operation ≠ .get → Done touched op
  | _ => True

structure Handler.Inv (issued touched : Op → Prop) (handler : Handler) : Prop where
  issued : issued handler.request.op
  state : handler.state.Inv touched handler.request.op

/-- Every entry of the table is the id of a touched command. -/
def TableInv (touched : Op → Prop) (s : KvServer) : Prop :=
  ∀ clientId requestId, s.lastRequestId.lookup clientId = some requestId →
    ∃ op, touched op ∧ op.clientId = clientId ∧ op.requestId = requestId

/-! ### More commands -/

theorem Done.mono (h : Done touched op) (hmono : ∀ op, touched op → touched' op) :
    Done touched' op := by
  obtain ⟨op', htouched, hids⟩ := h
  exact ⟨op', hmono op' htouched, hids⟩

theorem Settled.mono (h : Settled issued touched op) (hissued : ∀ op, issued op → issued' op)
    (hmono : ∀ op, touched op → touched' op) : Settled issued' touched' op :=
  ⟨hissued op h.issued, fun hop ↦ (h.done hop).mono hmono⟩

theorem LoopState.Inv.mono {loop : LoopState} (h : loop.Inv issued touched)
    (hissued : ∀ op, issued op → issued' op) (hmono : ∀ op, touched op → touched' op) :
    loop.Inv issued' touched' := by
  cases loop with
  | pop => trivial
  | check message op => exact ⟨h.1, hissued op h.2⟩
  | execute message op => exact ⟨h.1, hissued op h.2⟩
  | makeSnapShot message op => exact ⟨h.1, h.2.mono hissued hmono⟩
  | send message op => exact ⟨h.1, h.2.mono hissued hmono⟩
  | getSnapShot message => exact h

theorem HandlerState.Inv.mono {state : HandlerState} (h : state.Inv touched op)
    (hmono : ∀ op, touched op → touched' op) : state.Inv touched' op := by
  cases state with
  | executeGet => exact h
  | eraseChan reply => exact fun hok hop ↦ (h hok hop).mono hmono
  | returned reply => exact fun hok hop ↦ (h hok hop).mono hmono
  | _ => trivial

/-! ### Functions of the server -/

theorem LoopState.inv_afterCommand {message : ApplyMsg} (h : message.snapshotValid = false) :
    (LoopState.afterCommand message).Inv issued touched := by
  unfold LoopState.afterCommand
  rw [h]
  trivial

theorem TableInv.mono {s : KvServer} (h : TableInv touched s)
    (hmono : ∀ op, touched op → touched' op) : TableInv touched' s := by
  intro clientId requestId hlookup
  obtain ⟨op, htouched, hids⟩ := h clientId requestId hlookup
  exact ⟨op, hmono op htouched, hids⟩

/-- The id of a command that has just been touched enters the table. -/
theorem TableInv.insert {s s' : KvServer} (h : TableInv touched s) (hop : touched op)
    (htable : s'.lastRequestId = s.lastRequestId.insert op.clientId op.requestId) :
    TableInv touched s' := by
  intro clientId requestId hlookup
  rw [htable] at hlookup
  by_cases hclient : clientId = op.clientId
  · rw [hclient, AList.lookup_insert] at hlookup
    exact ⟨op, hop, hclient.symm, Option.some.inj hlookup⟩
  · rw [AList.lookup_insert_ne hclient] at hlookup
    exact h clientId requestId hlookup

/-- What makes a command a duplicate is a touched one. -/
theorem TableInv.of_duplicate {s : KvServer} (h : TableInv touched s)
    (hdup : s.ifRequestDuplicate op.clientId op.requestId = true) :
    ∃ op', touched op' ∧ op'.clientId = op.clientId ∧
      s.stored op.clientId = (op'.requestId : WithBot ℤ) := by
  unfold KvServer.ifRequestDuplicate at hdup
  unfold KvServer.stored KvServer.lastId
  cases hlookup : s.lastRequestId.lookup op.clientId with
  | none =>
    rw [hlookup] at hdup
    cases hdup
  | some requestId =>
    obtain ⟨op', htouched, hclient, rfl⟩ := h op.clientId requestId hlookup
    exact ⟨op', htouched, hclient, rfl⟩

theorem TableInv.done {s : KvServer} (h : TableInv touched s)
    (hdup : s.ifRequestDuplicate op.clientId op.requestId = true) : Done touched op := by
  obtain ⟨op', htouched, hclient, hstored⟩ := h.of_duplicate hdup
  rw [KvServer.ifRequestDuplicate_iff, hstored] at hdup
  exact ⟨op', htouched, hclient, WithBot.coe_le_coe.mp hdup⟩

theorem Handler.inv_begin {request : Request} {start : Option ℤ} (h : issued request.op) :
    (Handler.begin request start).Inv issued touched := by
  cases start with
  | none => exact ⟨h, nofun⟩
  | some raftIndex => exact ⟨h, trivial⟩

/-- A handler answers OK to the command it waited for and to no other. -/
theorem Handler.inv_onCommit {handler : Handler} {raftCommitOp : Op}
    (h : Settled issued touched raftCommitOp)
    (hids : raftCommitOp.clientId = handler.request.op.clientId →
      raftCommitOp.requestId = handler.request.op.requestId → raftCommitOp = handler.request.op) :
    (handler.onCommit raftCommitOp).Inv touched handler.request.op := by
  unfold Handler.onCommit
  split
  · rename_i hsame
    have heq := hids hsame.1 hsame.2
    split
    · rename_i args hrequest
      rw [hrequest]
      rfl
    · exact fun _ hop ↦ heq ▸ h.done (heq ▸ hop)
  · nofun

theorem Handler.inv_onTimeOut {handler : Handler} {isDuplicate isLeader : Bool}
    (h : isDuplicate = true → Done touched handler.request.op) :
    (handler.onTimeOut isDuplicate isLeader).Inv touched handler.request.op := by
  unfold Handler.onTimeOut
  split
  · rename_i args hrequest
    split
    · rw [hrequest]
      rfl
    · nofun
  · split
    · rename_i hdup
      exact fun _ _ ↦ h hdup
    · nofun

section Archives

variable [Codec Op]
variable {s s' : KvServer} {a : KvAction}

/-! ### The invariant of a server -/

structure KvServerInv (issued touched : Op → Prop) (s : KvServer) : Prop where
  messages : ∀ message ∈ s.applyChan, ∃ op index, issued op ∧ message = commandMessage op index
  loop : s.loop.Inv issued touched
  queues : ∀ queue, some queue ∈ s.queues → ∀ op ∈ queue, Settled issued touched op
  table : TableInv touched s
  handlers : ∀ handler ∈ s.handlers, handler.Inv issued touched

namespace KvServerInv

theorem initial : KvServerInv issued touched {} :=
  ⟨nofun, trivial, nofun, nofun, nofun⟩

theorem mono (h : KvServerInv issued touched s) (hissued : ∀ op, issued op → issued' op)
    (hmono : ∀ op, touched op → touched' op) : KvServerInv issued' touched' s where
  messages := by
    intro message hmem
    obtain ⟨op, index, hop, hmessage⟩ := h.messages message hmem
    exact ⟨op, index, hissued op hop, hmessage⟩
  loop := h.loop.mono hissued hmono
  queues := fun queue hqueue op hop ↦ (h.queues queue hqueue op hop).mono hissued hmono
  table := h.table.mono hmono
  handlers := fun handler hmem ↦
    ⟨hissued _ (h.handlers handler hmem).issued, (h.handlers handler hmem).state.mono hmono⟩

theorem queues_set (h : KvServerInv issued touched s) {ch : ℕ} {queue' : Option (List Op)}
    (hqueue' : ∀ queue, queue' = some queue → ∀ op ∈ queue, Settled issued touched op) :
    ∀ queue, some queue ∈ s.queues.set ch queue' → ∀ op ∈ queue, Settled issued touched op := by
  intro queue hmem
  rcases List.mem_or_eq_of_mem_set hmem with hold | heq
  · exact h.queues queue hold
  · exact hqueue' queue heq.symm

theorem messages_tail (h : KvServerInv issued touched s) {message : ApplyMsg} {rest : List ApplyMsg}
    (hchan : s.applyChan = message :: rest) :
    (∃ op index, issued op ∧ message = commandMessage op index) ∧
      ∀ message ∈ rest, ∃ op index, issued op ∧ message = commandMessage op index := by
  have hmessages := h.messages
  rw [hchan] at hmessages
  exact ⟨hmessages message List.mem_cons_self, fun message' hmem ↦
    hmessages message' (List.mem_cons_of_mem _ hmem)⟩

theorem loop_eq (h : KvServerInv issued touched s) {loop : LoopState} (hloop : s.loop = loop) :
    loop.Inv issued touched :=
  hloop ▸ h.loop

theorem handler_of_getElem? (h : KvServerInv issued touched s) {k : ℕ} {handler : Handler}
    (hhandler : s.handlers[k]? = some handler) : handler.Inv issued touched :=
  h.handlers handler (List.mem_of_getElem? hhandler)

theorem handlers_set (h : KvServerInv issued touched s) {k : ℕ} {handler : Handler}
    {state : HandlerState} (hhandler : s.handlers[k]? = some handler)
    (hstate : state.Inv touched handler.request.op) :
    ∀ handler' ∈ s.handlers.set k { handler with state := state },
      handler'.Inv issued touched := by
  intro handler' hmem
  rcases List.mem_or_eq_of_mem_set hmem with hold | rfl
  · exact h.handlers handler' hold
  · exact ⟨(h.handler_of_getElem? hhandler).issued, hstate⟩

theorem issued_of_executing (h : KvServerInv issued touched s) (hop : s.executing a = some op) :
    issued op := by
  have hloop := h.loop
  have hexec := KvServer.inExecution_of_executing hop
  unfold KvServer.inExecution LoopState.inExecution at hexec
  split at hexec
  · rename_i message op' hstate
    rw [hstate] at hloop
    split at hexec
    · cases hexec
    · cases hexec
      exact hloop.2
  · cases hexec

/-- A read that is served is an issued `get`. -/
theorem issued_of_serving (h : KvServerInv issued touched s) (hop : s.serving a = some op) :
    issued op ∧ op.operation = .get := by
  cases a with
  | handler k =>
    obtain ⟨handler, hhandler, hserve⟩ := Option.bind_eq_some_iff.mp hop
    have hinv := h.handler_of_getElem? hhandler
    split at hserve
    · rename_i hstate
      cases hserve
      have hget := hinv.state
      rw [hstate] at hget
      exact ⟨hinv.issued, hget⟩
    · cases hserve
  | _ => cases hop

/-! ### The steps of a server -/

/-- The commands touched after a step. -/
def TouchedAfter (touched : Op → Prop) (s : KvServer) (a : KvAction) (op : Op) : Prop :=
  touched op ∨ s.executing a = some op ∨ s.serving a = some op

theorem after (h : KvServerInv issued touched s) (a : KvAction) :
    KvServerInv issued (TouchedAfter touched s a) s :=
  h.mono (fun _ hop ↦ hop) fun _ hop ↦ .inl hop

variable [Codec KvData] [Codec (SkipList.Dump String String)]

/-- What one step of the loop preserves. -/
theorem step_loop (h : KvServerInv issued touched s) (hstep : s.Step .loop s') :
    KvServerInv issued (TouchedAfter touched s .loop) s' := by
  have h' := h.after .loop
  cases hstep with
  | exit _ _ => exact ⟨h'.messages, h'.loop, h'.queues, h'.table, h'.handlers⟩
  | popCommand message rest op hloop hchan hop =>
    obtain ⟨⟨op', index, hissued, rfl⟩, hrest⟩ := h'.messages_tail hchan
    obtain rfl : op' = op := Option.some.inj ((Codec.decode_encode op').symm.trans hop)
    exact ⟨hrest, ⟨rfl, hissued⟩, h'.queues, h'.table, h'.handlers⟩
  | popOther message rest hloop hchan =>
    obtain ⟨⟨op', index, hissued, rfl⟩, hrest⟩ := h'.messages_tail hchan
    have hvalid : (commandMessage op' index).snapshotValid = false := rfl
    exact ⟨hrest, LoopState.inv_afterCommand hvalid, h'.queues, h'.table, h'.handlers⟩
  | skip message op hloop hindex =>
    exact ⟨h'.messages, LoopState.inv_afterCommand (h'.loop_eq hloop).1, h'.queues, h'.table,
      h'.handlers⟩
  | duplicate message op hloop hindex hdup =>
    obtain ⟨hvalid, hissued⟩ := h'.loop_eq hloop
    exact ⟨h'.messages, ⟨hvalid, hissued, fun _ ↦ h'.table.done hdup⟩, h'.queues, h'.table,
      h'.handlers⟩
  | fresh message op hloop hindex hdup =>
    have hcheck := h'.loop_eq hloop
    exact ⟨h'.messages, hcheck, h'.queues, h'.table, h'.handlers⟩
  | executeGet message op hloop hop =>
    obtain ⟨hvalid, hissued⟩ := h'.loop_eq hloop
    exact ⟨h'.messages, ⟨hvalid, hissued, fun hne ↦ absurd hop hne⟩, h'.queues, h'.table,
      h'.handlers⟩
  | executeSet message op hloop hop =>
    obtain ⟨hvalid, hissued⟩ := h'.loop_eq hloop
    have htouched : TouchedAfter touched s .loop op := by
      refine .inr (.inl ?_)
      simp [KvServer.executing, KvServer.inExecution, LoopState.inExecution, hloop, hop]
    exact ⟨h'.messages, ⟨hvalid, hissued, fun _ ↦ ⟨op, htouched, rfl, le_refl _⟩⟩, h'.queues,
      h'.table.insert htouched rfl, h'.handlers⟩
  | makeSnapShot message op hloop =>
    have hsettled := h'.loop_eq hloop
    exact ⟨h'.messages, hsettled, h'.queues, h'.table, h'.handlers⟩
  | sendNone message op hloop hch =>
    exact ⟨h'.messages, LoopState.inv_afterCommand (h'.loop_eq hloop).1, h'.queues, h'.table,
      h'.handlers⟩
  | send message op ch queue hloop hch hqueue =>
    obtain ⟨hvalid, hsettled⟩ := h'.loop_eq hloop
    refine ⟨h'.messages, LoopState.inv_afterCommand hvalid, h'.queues_set ?_, h'.table, h'.handlers⟩
    rintro _ ⟨⟩ op' hop'
    rcases List.mem_append.mp hop' with hold | hnew
    · exact h'.queues queue (List.mem_of_getElem? hqueue) op' hold
    · rw [List.mem_singleton.mp hnew]
      exact hsettled
  | installEmpty message hloop _ => exact (h'.loop_eq hloop).elim
  | install message data skipList hloop _ _ _ => exact (h'.loop_eq hloop).elim

/-- What one step of a handler preserves. A client id and a request id belong to one command. -/
theorem step_handler (h : KvServerInv issued touched s)
    (hids : ∀ op op', issued op → issued op' → op.clientId = op'.clientId →
      op.requestId = op'.requestId → op = op') {k : ℕ} (hstep : s.Step (.handler k) s') :
    KvServerInv issued (TouchedAfter touched s (.handler k)) s' := by
  have h' := h.after (.handler k)
  cases hstep with
  | exit _ _ => exact ⟨h'.messages, h'.loop, h'.queues, h'.table, h'.handlers⟩
  | findChan _ handler ch hhandler hstate hch =>
    exact ⟨h'.messages, h'.loop, h'.queues, h'.table, h'.handlers_set hhandler trivial⟩
  | insertChan _ handler hhandler hstate hch =>
    refine ⟨h'.messages, h'.loop, fun queue hmem ↦ ?_, h'.table, h'.handlers_set hhandler trivial⟩
    rcases List.mem_append.mp hmem with hold | hnew
    · exact h'.queues queue hold
    · obtain rfl : queue = [] := Option.some.inj (List.mem_singleton.mp hnew)
      exact fun op hop ↦ absurd hop List.not_mem_nil
  | popChan _ handler ch raftCommitOp queue hhandler hstate hqueue =>
    have hsettled := h'.queues _ (List.mem_of_getElem? hqueue)
    refine ⟨h'.messages, h'.loop, h'.queues_set ?_, h'.table, h'.handlers_set hhandler ?_⟩
    · rintro _ ⟨⟩ op hop
      exact hsettled op (List.mem_cons_of_mem _ hop)
    · have hcommit := hsettled raftCommitOp List.mem_cons_self
      exact Handler.inv_onCommit hcommit
        (hids _ _ hcommit.issued (h'.handler_of_getElem? hhandler).issued)
  | onTimeOut _ handler isLeader hhandler hstate =>
    exact ⟨h'.messages, h'.loop, h'.queues, h'.table,
      h'.handlers_set hhandler (Handler.inv_onTimeOut fun hdup ↦ h'.table.done hdup)⟩
  | serveGet _ handler hhandler hstate =>
    have htouched : TouchedAfter touched s (.handler k) handler.request.op := by
      refine .inr (.inr ?_)
      simp [KvServer.serving, hhandler, hstate]
    have hget := (h'.handler_of_getElem? hhandler).state
    rw [hstate] at hget
    exact ⟨h'.messages, h'.loop, h'.queues, h'.table.insert htouched rfl,
      h'.handlers_set hhandler fun _ hne ↦ absurd hget hne⟩
  | eraseChan _ handler reply ch hhandler hstate hch =>
    have hreply := (h'.handler_of_getElem? hhandler).state
    rw [hstate] at hreply
    exact ⟨h'.messages, h'.loop, h'.queues_set (fun _ heq ↦ by cases heq), h'.table,
      h'.handlers_set hhandler hreply⟩
  | eraseNone _ handler reply hhandler hstate hch =>
    have hreply := (h'.handler_of_getElem? hhandler).state
    rw [hstate] at hreply
    exact ⟨h'.messages, h'.loop, h'.queues, h'.table, h'.handlers_set hhandler hreply⟩

/-- What one step preserves. Only issued commands are delivered and requested. -/
theorem step (h : KvServerInv issued touched s)
    (hids : ∀ op op', issued op → issued op' → op.clientId = op'.clientId →
      op.requestId = op'.requestId → op = op')
    (hdeliver : ∀ message, a = .deliver message →
      ∃ op index, issued op ∧ message = commandMessage op index)
    (hrpc : ∀ request start, a = .rpc request start → issued request.op)
    (hstep : s.step a = some s') : KvServerInv issued (TouchedAfter touched s a) s' := by
  have h' := h.after a
  have hcases := KvServer.step_cases hstep
  cases a with
  | loop => exact h.step_loop hcases
  | handler k => exact h.step_handler hids hcases
  | deliver message =>
    cases hcases with
    | exit _ _ => exact ⟨h'.messages, h'.loop, h'.queues, h'.table, h'.handlers⟩
    | deliver _ =>
      refine ⟨fun message' hmem ↦ ?_, h'.loop, h'.queues, h'.table, h'.handlers⟩
      rcases List.mem_append.mp hmem with hold | hnew
      · exact h'.messages message' hold
      · rw [List.mem_singleton.mp hnew]
        exact hdeliver message rfl
  | rpc request start =>
    cases hcases with
    | exit _ _ => exact ⟨h'.messages, h'.loop, h'.queues, h'.table, h'.handlers⟩
    | rpc _ _ =>
      refine ⟨h'.messages, h'.loop, h'.queues, h'.table, fun handler hmem ↦ ?_⟩
      rcases List.mem_append.mp hmem with hold | hnew
      · exact h'.handlers handler hold
      · rw [List.mem_singleton.mp hnew]
        exact Handler.inv_begin (hrpc request start rfl)
  | timeOut k isLeader =>
    cases hcases with
    | exit _ _ => exact ⟨h'.messages, h'.loop, h'.queues, h'.table, h'.handlers⟩
    | timeOut _ _ handler ch hhandler hstate =>
      exact ⟨h'.messages, h'.loop, h'.queues, h'.table, h'.handlers_set hhandler trivial⟩

end KvServerInv

end Archives

end Rsylar
