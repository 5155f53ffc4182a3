import Rsylar.Kv.SnapshotInstall
import Rsylar.Raft.StateMachineSafety

/-!
# The state of a server and the committed prefixes

The map and the table of a server correspond to a prefix of the committed log when a server could
have them that has applied this prefix, with reads in between (`Reached`). A message takes the
server from one prefix to another. `GetSnapShotFromRaft` installs what it is given:
`CondInstallSnapshot` always says yes, and the index of the last snapshot is not moved by commands.
So the prefix can get shorter.

`position` is the index of the last message that took effect. As long as commands come one after the
other and a snapshot is ahead of the position and loads as it should (`InOrder`), the prefix only
grows (`kvNeverGoesBack`). In `staleSnapshotRun` a server has applied two commands when a snapshot
of the first arrives, as it can from Raft (`slowFollowerRun`), and afterwards the table is that of
the first command.
-/

set_option autoImplicit false
set_option relaxedAutoImplicit false

namespace Rsylar

open TextArchive TransitionSystem

/-! ### Prefixes of the log -/

/-- The store of a server that has applied the commands, with reads of some of them in between. -/
inductive Reached : List Op → KvServer → Prop
  | initial : Reached [] {}
  | apply {ops : List Op} {s : KvServer} (op : Op) (h : Reached ops s) :
      Reached (ops ++ [op]) (s.applyCommand op)
  | read {ops : List Op} {s : KvServer} (op : Op) (h : Reached ops s) (hop : op ∈ ops)
      (hget : op.operation = .get) : Reached ops (s.executeGetOpOnKVDB op).1

/-- The map and the table of `s` are those of the first `m` commands of the log. -/
def Corresponds (log : List Op) (s : KvServer) (m : ℕ) : Prop :=
  m ≤ log.length ∧ ∃ t, Reached (log.take m) t ∧ SameStore s t ∧ s.stored = t.stored

/-- Without reads there is one such store. -/
theorem Reached.eq_replay {ops : List Op} {s : KvServer} (h : Reached ops s)
    (hnone : ∀ op ∈ ops, op.operation ≠ .get) : s = replay ops := by
  induction h with
  | initial => rfl
  | apply op h ih =>
    rw [replay_append, ih fun op hop ↦ hnone op (List.mem_append_left _ hop)]
  | read op h hop hget _ => exact absurd hget (hnone op hop)

theorem Reached.sorted {ops : List Op} {s : KvServer} (h : Reached ops s) : s.skipList.Sorted := by
  induction h with
  | initial => exact List.Pairwise.nil
  | apply op h ih =>
    unfold KvServer.applyCommand
    split
    · exact ih
    · by_cases hop : op.operation = .get
      · rw [KvServer.executeOp_of_get hop]
        exact ih
      · rw [KvServer.executeOp_of_ne_get hop]
        exact ih.insertSetElement
  | read op h hop hget ih => exact ih

section Corresponds

variable {log : List Op} {s s' : KvServer} {m : ℕ} {op : Op}

theorem Corresponds.of_same (h : Corresponds log s m) (hlist : s'.skipList = s.skipList)
    (htable : s'.lastRequestId = s.lastRequestId) : Corresponds log s' m := by
  obtain ⟨hle, t, ht, hstore, hstored⟩ := h
  exact ⟨hle, t, ht, fun key ↦ hlist ▸ hstore key, (KvServer.stored_congr htable).trans hstored⟩

/-- A duplicate, or a command that does nothing. -/
theorem Corresponds.pass (h : Corresponds log s m) (hop : log[m]? = some op)
    (hpass : op.operation = .get ∨ s.ifRequestDuplicate op.clientId op.requestId = true)
    (hlist : s'.skipList = s.skipList) (htable : s'.lastRequestId = s.lastRequestId) :
    Corresponds log s' (m + 1) := by
  obtain ⟨-, t, ht, hstore, hstored⟩ := h
  refine ⟨(List.getElem?_eq_some_iff.mp hop).1, t, ?_, fun key ↦ hlist ▸ hstore key,
    (KvServer.stored_congr htable).trans hstored⟩
  rw [List.take_add_one, hop]
  have happly := ht.apply op
  have hkept : t.applyCommand op = t := by
    rcases hpass with hget | hdup
    · exact KvServer.applyCommand_of_get hget
    · rw [KvServer.ifRequestDuplicate_iff, hstored] at hdup
      exact KvServer.applyCommand_of_duplicate (KvServer.ifRequestDuplicate_iff.mpr hdup)
  rwa [hkept] at happly

theorem Corresponds.execute (h : Corresponds log s m) (hsorted : s.skipList.Sorted)
    (hop : log[m]? = some op) (hset : op.operation ≠ .get)
    (hfresh : s.ifRequestDuplicate op.clientId op.requestId = false)
    (hlist : s'.skipList = s.skipList.insertSetElement op.key op.value)
    (htable : s'.lastRequestId = s.lastRequestId.insert op.clientId op.requestId) :
    Corresponds log s' (m + 1) := by
  obtain ⟨-, t, ht, hstore, hstored⟩ := h
  have hfresh' : t.ifRequestDuplicate op.clientId op.requestId = false := by
    rw [KvServer.ifRequestDuplicate_eq_false_iff] at hfresh ⊢
    rwa [← hstored]
  have happly := ht.apply op
  rw [KvServer.applyCommand_of_fresh hset hfresh'] at happly
  refine ⟨(List.getElem?_eq_some_iff.mp hop).1, t.setElement op, ?_, fun key ↦ ?_, ?_⟩
  · rw [List.take_add_one, hop]
    exact happly
  · show s'.skipList.searchElement key = (t.skipList.insertSetElement _ _).searchElement key
    rw [hlist, SkipList.searchElement_insertSetElement hsorted,
      SkipList.searchElement_insertSetElement ht.sorted, hstore key]
  · funext clientId
    rw [KvServer.stored_of_insert htable,
      @KvServer.stored_of_insert t (t.setElement op) op clientId rfl, hstored]

theorem Corresponds.serve (h : Corresponds log s m) (hop : op ∈ log.take m)
    (hget : op.operation = .get) (hlist : s'.skipList = s.skipList)
    (htable : s'.lastRequestId = s.lastRequestId.insert op.clientId op.requestId) :
    Corresponds log s' m := by
  obtain ⟨hle, t, ht, hstore, hstored⟩ := h
  refine ⟨hle, _, ht.read op hop hget, fun key ↦ hlist ▸ hstore key, ?_⟩
  funext clientId
  rw [KvServer.stored_of_insert htable,
    @KvServer.stored_of_insert t (t.executeGetOpOnKVDB op).1 op clientId rfl, hstored]

end Corresponds

/-! ### What a server receives -/

section Messages

variable [Codec Op] [Codec KvData] [Codec (SkipList.Dump String String)]

/-- The message carries a command of the log and its index. -/
def CommandOf (log : List Op) (message : ApplyMsg) (op : Op) : Prop :=
  ∃ m : ℕ, log[m]? = some op ∧ message = commandMessage op (m + 1)

/-- The message carries a snapshot of a prefix of the log and its length. -/
def SnapshotOf (log : List Op) (message : ApplyMsg) : Prop :=
  ∃ (m : ℕ) (t : KvServer) (term : ℤ), Corresponds log t m ∧ t.skipList.Sorted ∧
    message = { snapshotValid := true, snapshot := t.getSnapshotData, snapshotTerm := term,
                snapshotIndex := m }

/-- What is delivered are commands of the log and snapshots of its prefixes. -/
def DeliversLog (log : List Op) (_ : KvServer) : KvAction → Prop
  | .deliver message => (∃ op, CommandOf log message op) ∨ SnapshotOf log message
  | _ => True

namespace KvServer

/-- The command message that the step is through with. -/
def applying (s : KvServer) : KvAction → Option ApplyMsg
  | .loop =>
    match s.loop with
    | .check message op =>
      if s.lastSnapShotRaftLogIndex < message.commandIndex ∧
          s.ifRequestDuplicate op.clientId op.requestId then some message else none
    | .execute message _ => some message
    | _ => none
  | _ => none

/-- The snapshot message that the step installs. -/
def installs (s : KvServer) : KvAction → Option ApplyMsg
  | .loop =>
    match s.loop with
    | .getSnapShot message => some message
    | _ => none
  | _ => none

/-- The index of the message that takes effect with the step. -/
def effect (s : KvServer) (a : KvAction) : Option ℤ :=
  ((s.applying a).map ApplyMsg.commandIndex).or ((s.installs a).map ApplyMsg.snapshotIndex)

omit [Codec Op] [Codec KvData] [Codec (SkipList.Dump String String)] in
theorem effect_loop (s : KvServer) : s.effect .loop = match s.loop with
    | .check message op =>
      if s.lastSnapShotRaftLogIndex < message.commandIndex ∧
          s.ifRequestDuplicate op.clientId op.requestId then some message.commandIndex else none
    | .execute message _ => some message.commandIndex
    | .getSnapShot message => some message.snapshotIndex
    | _ => none := by
  unfold effect applying installs
  cases s.loop with
  | check message op =>
    dsimp only
    split <;> rfl
  | _ => rfl

/-- The nodes in a snapshot. -/
def dumped (snapshot : String) : Option (SkipList String String) :=
  (Codec.decode snapshot).bind fun data : KvData ↦
    (Codec.decode data.serializedKVData).map fun dumper : SkipList.Dump String String ↦
      dumper.keyDumpVt.zip dumper.valDumpVt

omit [Codec Op] in
theorem dumped_getSnapshotData (s : KvServer) : dumped s.getSnapshotData = some s.skipList := by
  have hzip : ∀ l : SkipList String String, (l.map Prod.fst).zip (l.map Prod.snd) = l := by
    intro l
    induction l with
    | nil => rfl
    | cons node rest ih => rw [List.map_cons, List.map_cons, List.zip_cons_cons, ih]
  unfold dumped getSnapshotData
  rw [Codec.decode_encode]
  show Option.map _ (Codec.decode (Codec.encode s.skipList.dumpFile)) = _
  rw [Codec.decode_encode]
  exact congrArg some (hzip s.skipList)

end KvServer

/-- The index of the last message that has taken effect, the initial state counting as index 0. -/
def position (r : Run kvServer) : ℕ → ℤ
  | 0 => 0
  | k + 1 => ((r.act k).bind (r.state k).effect).getD (position r k)

/-- A command follows the message before it. A snapshot is ahead of it and loads as it should. A
read is of a command that has been applied, and comes before the one in execution. -/
structure InOrder (log : List Op) (s : KvServer) (position : ℤ) (a : KvAction) : Prop where
  command : ∀ message ∈ s.applying a, message.commandIndex = position + 1
  snapshot : ∀ message ∈ s.installs a, position < message.snapshotIndex ∧
    ∀ sender ∈ KvServer.dumped message.snapshot, sender.LoadsInto s.skipList
  read : ∀ op ∈ s.serving a, op ∈ log.take position.toNat ∧
    ∀ op' ∈ s.inExecution, op'.clientId = op.clientId → op.requestId < op'.requestId

instance (log : List Op) (s : KvServer) (position : ℤ) (a : KvAction) :
    Decidable (InOrder log s position a) :=
  decidable_of_iff ((∀ message ∈ s.applying a, message.commandIndex = position + 1) ∧
    (∀ message ∈ s.installs a, position < message.snapshotIndex ∧
      ∀ sender ∈ KvServer.dumped message.snapshot, sender.LoadsInto s.skipList) ∧
    ∀ op ∈ s.serving a, op ∈ log.take position.toNat ∧
      ∀ op' ∈ s.inExecution, op'.clientId = op.clientId → op.requestId < op'.requestId)
    ⟨fun h ↦ ⟨h.1, h.2.1, h.2.2⟩, fun h ↦ ⟨h.command, h.snapshot, h.read⟩⟩

/-- After each message the state corresponds to a prefix of the log that is as long as before or
longer, and no snapshot is installed that ends at a command applied before or earlier. -/
def NeverGoesBack (log : List Op) (r : Run kvServer) : Prop :=
  (∃ prefixLength : ℕ → ℕ, Monotone prefixLength ∧
    ∀ k, (r.state k).loop = .pop → Corresponds log (r.state k) (prefixLength k)) ∧
  ∀ j k a b message snapshot, j < k → r.act j = some a → (r.state j).applying a = some message →
    r.act k = some b → (r.state k).installs b = some snapshot →
    message.commandIndex < snapshot.snapshotIndex

/-! ### The invariant -/

/-- The message at hand is one of those delivered. -/
def AtHand (log : List Op) : LoopState → Prop
  | .pop => True
  | .check message op => CommandOf log message op
  | .execute message op => CommandOf log message op
  | .makeSnapShot message op => CommandOf log message op
  | .send message op => CommandOf log message op
  | .getSnapShot message => SnapshotOf log message

structure PrefixInv (log : List Op) (s : KvServer) (position : ℤ) : Prop where
  corresponds : ∃ m : ℕ, position = m ∧ Corresponds log s m
  sorted : s.skipList.Sorted
  chan : ∀ message ∈ s.applyChan, (∃ op, CommandOf log message op) ∨ SnapshotOf log message
  loop : AtHand log s.loop
  pending : ∀ op ∈ s.inExecution, s.ifRequestDuplicate op.clientId op.requestId = false
  reads : ∀ handler ∈ s.handlers, handler.state = .executeGet → handler.request.op.operation = .get

end Messages

section Step

variable [Codec Op] [NonemptyCodec KvData] [NonemptyCodec (SkipList.Dump String String)]
variable {log : List Op} {s s' : KvServer} {p : ℤ} {a : KvAction}

omit [NonemptyCodec KvData] [NonemptyCodec (SkipList.Dump String String)] in
theorem CommandOf.afterCommand {message : ApplyMsg} {op : Op} (h : CommandOf log message op) :
    LoopState.afterCommand message = .pop := by
  obtain ⟨m, -, rfl⟩ := h
  rfl

omit [NonemptyCodec KvData] [NonemptyCodec (SkipList.Dump String String)] in
theorem CommandOf.decode {message : ApplyMsg} {op op' : Op} (h : CommandOf log message op)
    (hop : Codec.decode message.command = some op') : CommandOf log message op' := by
  obtain ⟨m, hm, rfl⟩ := h
  obtain rfl : op = op' := Option.some.inj ((Codec.decode_encode op).symm.trans hop)
  exact ⟨m, hm, rfl⟩

/-- A `Get` handler comes to its read, and no other. -/
theorem reads_step (h : ∀ handler ∈ s.handlers, handler.state = .executeGet →
      handler.request.op.operation = .get) (hstep : s.step a = some s') :
    ∀ handler ∈ s'.handlers, handler.state = .executeGet →
      handler.request.op.operation = .get := by
  have hset : ∀ (k : ℕ) (handler : Handler) (state : HandlerState),
      (state = .executeGet → handler.request.op.operation = .get) →
      ∀ other ∈ s.handlers.set k { handler with state := state }, other.state = .executeGet →
        other.request.op.operation = .get := by
    intro k handler state hstate other hother hexecute
    rcases List.mem_or_eq_of_mem_set hother with hold | rfl
    · exact h other hold hexecute
    · exact hstate hexecute
  cases KvServer.step_cases hstep with
  | rpc request start =>
    intro handler hhandler hexecute
    rcases List.mem_append.mp hhandler with hold | hnew
    · exact h handler hold hexecute
    · rw [List.mem_singleton.mp hnew] at hexecute
      cases start <;> cases hexecute
  | findChan k handler ch _ _ _ => exact hset k handler _ nofun
  | insertChan k handler _ _ _ => exact hset k handler _ nofun
  | popChan k handler ch raftCommitOp queue _ _ _ =>
    refine hset k handler _ fun hexecute ↦ ?_
    unfold Handler.onCommit at hexecute
    split at hexecute
    · cases hrequest : handler.request with
      | get args => rfl
      | putAppend args =>
        rw [hrequest] at hexecute
        cases hexecute
    · cases hexecute
  | timeOut k isLeader handler ch _ _ => exact hset k handler _ nofun
  | onTimeOut k handler isLeader _ _ =>
    refine hset k handler _ fun hexecute ↦ ?_
    unfold Handler.onTimeOut at hexecute
    cases hrequest : handler.request with
    | get args => rfl
    | putAppend args =>
      rw [hrequest] at hexecute
      dsimp only at hexecute
      split at hexecute <;> cases hexecute
  | serveGet k handler _ _ => exact hset k handler _ nofun
  | eraseChan k handler reply ch _ _ _ => exact hset k handler _ nofun
  | eraseNone k handler reply _ _ _ => exact hset k handler _ nofun
  | _ => exact h

omit [Codec Op] in
/-- A server that holds the map and the table of the sender of a snapshot. -/
theorem Corresponds.install {m : ℕ} {t : KvServer} {data : KvData}
    {skipList : SkipList String String} (ht : Corresponds log t m) (hsorted : t.skipList.Sorted)
    (hdata : Codec.decode t.getSnapshotData = some data)
    (hload : KvServer.loadFile s.skipList data.serializedKVData = some skipList)
    (hloads : t.skipList.LoadsInto s.skipList) (hlist : s'.skipList = skipList)
    (htable : s'.lastRequestId = data.lastRequestId) : Corresponds log s' m := by
  obtain ⟨hle, u, hu, hstore, hstored⟩ := ht
  unfold KvServer.getSnapshotData at hdata
  rw [Codec.decode_encode] at hdata
  cases hdata
  unfold KvServer.loadFile at hload
  rw [if_neg (NonemptyCodec.encode_ne_empty _), Codec.decode_encode] at hload
  have hkeys := (SkipList.loadFile_dumpFile_iff hsorted).mpr hloads
  refine ⟨hle, u, hu, fun key ↦ ?_, (congrArg KvServer.lastId htable).trans hstored⟩
  rw [hlist, ← Option.some.inj hload, hkeys key]
  exact hstore key

/-- A step of the loop leaves its place, unless the server exits before a message takes effect. -/
theorem effect_of_exit (h : AtHand log s.loop) (hstep : s.step a = some s.exit) :
    s.effect a = none := by
  cases a with
  | loop =>
    unfold KvServer.step at hstep
    split at hstep
    · cases hstep
    have hloop : s.readRaftApplyCommandLoop.map KvServer.loop = some s.loop :=
      congrArg (Option.map KvServer.loop) hstep
    unfold KvServer.readRaftApplyCommandLoop at hloop
    unfold KvServer.effect KvServer.applying KvServer.installs
    cases hs : s.loop with
    | check message op =>
      rw [hs] at hloop
      have hloop : (s.getCommandFromRaft message op).loop = .check message op :=
        Option.some.inj hloop
      unfold KvServer.getCommandFromRaft LoopState.afterCommand at hloop
      split at hloop
      · dsimp only at hloop
        split at hloop <;> cases hloop
      · split at hloop <;> cases hloop
    | execute message op =>
      rw [hs] at hloop
      cases hloop
    | getSnapShot message =>
      rw [hs] at h hloop
      obtain ⟨m, t, term, -, -, rfl⟩ := h
      have hread := readSnapShotToInstall_getSnapshotData t s
      unfold KvServer.getSnapShotFromRaft at hloop
      dsimp only at hloop
      rw [hread] at hloop
      cases hloop
    | _ => rfl
  | _ => rfl

/-- A message that is decoded as a command is one. -/
theorem commandValid_of_check {message : ApplyMsg} {rest : List ApplyMsg} {op : Op}
    (hloop : s.loop = .pop) (hchan : s.applyChan = message :: rest)
    (hcheck : s'.loop = .check message op) (hstep : s.step .loop = some s') :
    message.commandValid = true := by
  unfold KvServer.step at hstep
  split at hstep
  · cases hstep
  dsimp only at hstep
  unfold KvServer.readRaftApplyCommandLoop at hstep
  rw [hloop, hchan] at hstep
  dsimp only at hstep
  unfold KvServer.readMessage at hstep
  by_contra hvalid
  rw [if_neg hvalid] at hstep
  cases hstep
  unfold LoopState.afterCommand at hcheck
  dsimp only [Option.getD_some] at hcheck
  split at hcheck <;> cases hcheck

namespace PrefixInv

omit [Codec Op] [NonemptyCodec KvData] [NonemptyCodec (SkipList.Dump String String)] in
theorem duplicate_congr {op : Op} (htable : s'.lastRequestId = s.lastRequestId) :
    s'.ifRequestDuplicate op.clientId op.requestId =
      s.ifRequestDuplicate op.clientId op.requestId := by
  unfold KvServer.ifRequestDuplicate
  rw [htable]

/-- A step without effect on the map and the table. -/
theorem keep (h : PrefixInv log s p) (hlist : s'.skipList = s.skipList)
    (htable : s'.lastRequestId = s.lastRequestId)
    (hchan : ∀ message ∈ s'.applyChan, (∃ op, CommandOf log message op) ∨ SnapshotOf log message)
    (hloop : AtHand log s'.loop)
    (hexec : s'.inExecution = none ∨ s'.inExecution = s.inExecution)
    (hreads : ∀ handler ∈ s'.handlers, handler.state = .executeGet →
      handler.request.op.operation = .get) : PrefixInv log s' p where
  corresponds := by
    obtain ⟨m, hm, hcorresponds⟩ := h.corresponds
    exact ⟨m, hm, hcorresponds.of_same hlist htable⟩
  sorted := hlist ▸ h.sorted
  chan := hchan
  loop := hloop
  pending := by
    intro op hop
    rcases hexec with hnone | hsame
    · rw [hnone] at hop
      cases hop
    · rw [duplicate_congr htable]
      exact h.pending op (hsame ▸ hop)
  reads := hreads

/-- The next command has taken effect. -/
theorem advance (h : PrefixInv log s p) {message : ApplyMsg} {op : Op}
    (hcommand : CommandOf log message op) (hindex : message.commandIndex = p + 1)
    (hnext : ∀ m, Corresponds log s m → log[m]? = some op → Corresponds log s' (m + 1))
    (hsorted : s'.skipList.Sorted) (hchan : s'.applyChan = s.applyChan)
    (hloop : s'.loop = .makeSnapShot message op)
    (hreads : ∀ handler ∈ s'.handlers, handler.state = .executeGet →
      handler.request.op.operation = .get) : PrefixInv log s' message.commandIndex := by
  obtain ⟨m, rfl, hcorresponds⟩ := h.corresponds
  have hat := hcommand
  obtain ⟨m', hm', heq⟩ := hcommand
  have hcommandIndex : message.commandIndex = (m' : ℤ) + 1 := by
    rw [heq]
    rfl
  obtain rfl : m = m' := by omega
  refine ⟨⟨m + 1, by rw [hindex]; push_cast; rfl, hnext m hcorresponds hm'⟩, hsorted,
    hchan ▸ h.chan, hloop ▸ hat, fun op hop ↦ ?_, hreads⟩
  unfold KvServer.inExecution at hop
  rw [hloop] at hop
  cases hop

/-- The loop is through with a command. -/
theorem afterCommand (h : PrefixInv log s p) {message : ApplyMsg} {op : Op}
    (hcommand : CommandOf log message op) (hlist : s'.skipList = s.skipList)
    (htable : s'.lastRequestId = s.lastRequestId) (hchan : s'.applyChan = s.applyChan)
    (hloop : s'.loop = .afterCommand message)
    (hreads : ∀ handler ∈ s'.handlers, handler.state = .executeGet →
      handler.request.op.operation = .get) : PrefixInv log s' p := by
  rw [hcommand.afterCommand] at hloop
  refine h.keep hlist htable (hchan ▸ h.chan) ?_ (.inl ?_) hreads
  · rw [hloop]
    trivial
  · unfold KvServer.inExecution
    rw [hloop]
    rfl

/-- What one step preserves. -/
theorem step (h : PrefixInv log s p) (hdelivers : DeliversLog log s a) (horder : InOrder log s p a)
    (hstep : s.step a = some s') : PrefixInv log s' ((s.effect a).getD p) := by
  have hreads := reads_step h.reads hstep
  have hat := h.loop
  cases KvServer.step_cases hstep with
  | exit _ _ =>
    rw [effect_of_exit h.loop hstep]
    exact h.keep rfl rfl h.chan h.loop (.inr rfl) hreads
  | deliver message =>
    refine h.keep rfl rfl (fun other hother ↦ ?_) h.loop (.inr rfl) hreads
    rcases List.mem_append.mp hother with hold | hnew
    · exact h.chan other hold
    · rw [List.mem_singleton.mp hnew]
      exact hdelivers
  | rpc request start => exact h.keep rfl rfl h.chan h.loop (.inr rfl) hreads
  | popCommand message rest op hloop hchan hop =>
    rw [s.effect_loop, hloop]
    have hmem : message ∈ s.applyChan := hchan ▸ List.mem_cons_self
    refine h.keep rfl rfl (fun other hother ↦ h.chan other (hchan ▸ List.mem_cons_of_mem _ hother))
      ?_ (.inl rfl) hreads
    rcases h.chan message hmem with ⟨op', hcommand⟩ | ⟨m, t, term, -, -, heq⟩
    · exact hcommand.decode hop
    · have hvalid := commandValid_of_check hloop hchan rfl hstep
      rw [heq] at hvalid
      cases hvalid
  | popOther message rest hloop hchan =>
    rw [s.effect_loop, hloop]
    have hmem : message ∈ s.applyChan := hchan ▸ List.mem_cons_self
    refine h.keep rfl rfl (fun other hother ↦ h.chan other (hchan ▸ List.mem_cons_of_mem _ hother))
      ?_ (.inl (LoopState.inExecution_afterCommand message)) hreads
    rcases h.chan message hmem with ⟨op, hcommand⟩ | hsnapshot
    · show AtHand log (LoopState.afterCommand message)
      rw [hcommand.afterCommand]
      exact trivial
    · obtain ⟨m, t, term, ht, hsorted, rfl⟩ := hsnapshot
      exact ⟨m, t, term, ht, hsorted, rfl⟩
  | skip message op hloop hindex =>
    rw [hloop] at hat
    have heffect : s.effect .loop = none := by
      rw [s.effect_loop, hloop]
      exact if_neg fun happlies ↦ not_lt.mpr hindex happlies.1
    rw [heffect]
    exact h.afterCommand hat rfl rfl rfl rfl hreads
  | duplicate message op hloop hindex hdup =>
    have happlying : s.applying .loop = some message := by
      simp [KvServer.applying, hloop, hindex, hdup]
    have heffect : s.effect .loop = some message.commandIndex := by
      rw [s.effect_loop, hloop]
      exact if_pos ⟨hindex, hdup⟩
    rw [heffect]
    rw [hloop] at hat
    exact h.advance hat (horder.command message happlying)
      (fun m hm hop ↦ hm.pass hop (.inr hdup) rfl rfl) h.sorted rfl rfl hreads
  | fresh message op hloop hindex hdup =>
    have heffect : s.effect .loop = none := by
      rw [s.effect_loop, hloop]
      exact if_neg fun happlies ↦ Bool.eq_false_iff.mp hdup happlies.2
    rw [heffect]
    rw [hloop] at hat
    obtain ⟨m, hm, hcorresponds⟩ := h.corresponds
    refine ⟨⟨m, hm, hcorresponds.of_same rfl rfl⟩, h.sorted, h.chan, hat, fun op' hop' ↦ ?_, hreads⟩
    have hop' : (if op.operation = .get then none else some op) = some op' := hop'
    split at hop'
    · cases hop'
    · cases hop'
      exact hdup
  | executeGet message op hloop hop =>
    have happlying : s.applying .loop = some message := by
      simp [KvServer.applying, hloop]
    rw [s.effect_loop, hloop]
    rw [hloop] at hat
    exact h.advance hat (horder.command message happlying)
      (fun m hm hlog ↦ hm.pass hlog (.inl hop) rfl rfl) h.sorted rfl rfl hreads
  | executeSet message op hloop hop =>
    have happlying : s.applying .loop = some message := by
      simp [KvServer.applying, hloop]
    have hfresh := h.pending op (by
      simp [KvServer.inExecution, LoopState.inExecution, hloop, hop])
    rw [s.effect_loop, hloop]
    rw [hloop] at hat
    exact h.advance hat (horder.command message happlying)
      (fun m hm hlog ↦ hm.execute h.sorted hlog hop hfresh rfl rfl) h.sorted.insertSetElement rfl rfl
      hreads
  | makeSnapShot message op hloop =>
    rw [s.effect_loop, hloop]
    rw [hloop] at hat
    exact h.keep rfl rfl h.chan hat (.inl rfl) hreads
  | sendNone message op hloop hch =>
    rw [s.effect_loop, hloop]
    rw [hloop] at hat
    exact h.afterCommand hat rfl rfl rfl rfl hreads
  | send message op ch queue hloop hch hqueue =>
    rw [s.effect_loop, hloop]
    rw [hloop] at hat
    exact h.afterCommand hat rfl rfl rfl rfl hreads
  | installEmpty message hloop hempty =>
    rw [hloop] at hat
    obtain ⟨m, t, term, -, -, rfl⟩ := hat
    exact absurd hempty (NonemptyCodec.encode_ne_empty _)
  | install message data skipList hloop hsome hdata hload =>
    have hinstalls : s.installs .loop = some message := by
      simp [KvServer.installs, hloop]
    rw [s.effect_loop, hloop]
    rw [hloop] at hat
    obtain ⟨m, t, term, ht, hsorted, rfl⟩ := hat
    obtain ⟨-, hloads⟩ := horder.snapshot _ hinstalls
    have hcorresponds : ∀ s', s'.skipList = skipList → s'.lastRequestId = data.lastRequestId →
        Corresponds log s' m := fun _ ↦
      ht.install hsorted hdata hload (hloads _ (KvServer.dumped_getSnapshotData t))
    exact ⟨⟨m, rfl, hcorresponds _ rfl rfl⟩, sorted_loadFile h.sorted hload, h.chan, trivial,
      (fun op hop ↦ by cases hop), hreads⟩
  | serveGet k handler hhandler hstate =>
    have hserving : s.serving (.handler k) = some handler.request.op := by
      simp [KvServer.serving, hhandler, hstate]
    obtain ⟨hop, hlater⟩ := horder.read _ hserving
    have hget := h.reads handler (List.mem_of_getElem? hhandler) hstate
    obtain ⟨m, rfl, hcorresponds⟩ := h.corresponds
    refine ⟨⟨m, rfl, hcorresponds.serve hop hget rfl rfl⟩, h.sorted, h.chan, h.loop,
      fun op' hop' ↦ ?_, hreads⟩
    rw [KvServer.ifRequestDuplicate_eq_false_iff,
      @KvServer.stored_of_insert s _ handler.request.op _ rfl]
    split
    · rename_i hclient
      exact WithBot.coe_lt_coe.mpr (hlater op' hop' hclient)
    · exact KvServer.ifRequestDuplicate_eq_false_iff.mp (h.pending op' hop')
  | findChan k handler ch _ _ _ => exact h.keep rfl rfl h.chan h.loop (.inr rfl) hreads
  | insertChan k handler _ _ _ => exact h.keep rfl rfl h.chan h.loop (.inr rfl) hreads
  | popChan k handler ch raftCommitOp queue _ _ _ =>
    exact h.keep rfl rfl h.chan h.loop (.inr rfl) hreads
  | timeOut k isLeader handler ch _ _ => exact h.keep rfl rfl h.chan h.loop (.inr rfl) hreads
  | onTimeOut k handler isLeader _ _ => exact h.keep rfl rfl h.chan h.loop (.inr rfl) hreads
  | eraseChan k handler reply ch _ _ _ => exact h.keep rfl rfl h.chan h.loop (.inr rfl) hreads
  | eraseNone k handler reply _ _ _ => exact h.keep rfl rfl h.chan h.loop (.inr rfl) hreads

end PrefixInv

end Step

/-! ### Every run -/

section Runs

variable [Codec Op] [NonemptyCodec KvData] [NonemptyCodec (SkipList.Dump String String)]
variable {log : List Op} {r : Run kvServer}

/-- Every step of the run is in order. -/
def RunsInOrder (log : List Op) (r : Run kvServer) : Prop :=
  ∀ k a, r.act k = some a → InOrder log (r.state k) (position r k) a

theorem prefixInv_run (hdelivers : r.Obeys (DeliversLog log)) (horder : RunsInOrder log r) (k : ℕ) :
    PrefixInv log (r.state k) (position r k) := by
  induction k with
  | zero =>
    rw [r.state_zero]
    exact {
      corresponds := ⟨0, rfl, Nat.zero_le _, {}, .initial, fun _ ↦ rfl, rfl⟩
      sorted := List.Pairwise.nil
      chan := nofun
      loop := trivial
      pending := nofun
      reads := nofun }
  | succ k ih =>
    unfold position
    cases ha : r.act k with
    | none =>
      rw [r.pause k ha]
      exact ih
    | some a => exact ih.step (hdelivers k a ha) (horder k a ha) (r.next k a ha)

theorem position_le_succ (horder : RunsInOrder log r) (k : ℕ) :
    position r k ≤ position r (k + 1) := by
  conv_rhs => unfold position
  cases ha : r.act k with
  | none => exact le_refl _
  | some a =>
    have hinOrder := horder k a ha
    show _ ≤ ((r.state k).effect a).getD _
    unfold KvServer.effect
    cases happlying : (r.state k).applying a with
    | some message =>
      have hindex := hinOrder.command message happlying
      show _ ≤ message.commandIndex
      omega
    | none =>
      cases hinstalls : (r.state k).installs a with
      | some message => exact (hinOrder.snapshot message hinstalls).1.le
      | none => exact le_refl _

theorem position_mono (horder : RunsInOrder log r) : Monotone (position r) :=
  monotone_nat_of_le_succ (position_le_succ horder)

end Runs

/-! ### A slow follower -/

section Examples

open scoped Archive

def earlierPut : Op :=
  { operation := .put, key := "x", value := "x", clientId := "c", requestId := 1 }

def laterPut : Op :=
  { operation := .put, key := "x", value := "x", clientId := "c", requestId := 2 }

/-- The snapshot of the first command. -/
def firstSnapshot : ApplyMsg :=
  { snapshotValid := true, snapshot := (replay [earlierPut]).getSnapshotData, snapshotTerm := 1,
    snapshotIndex := 1 }

/-- The messages delivered before a moment. -/
def received (r : Run kvServer) : ℕ → List ApplyMsg
  | 0 => []
  | k + 1 =>
    match r.act k with
    | some (.deliver message) => received r k ++ [message]
    | _ => received r k

/-- A message but for the text of its snapshot. -/
def ApplyMsg.withoutData (message : ApplyMsg) : ApplyMsg :=
  { message with snapshot := "" }

/-- Server 0 leads, and server 2 follows. Server 1 has the snapshot of the first command on its way
when it gets both commands and applies them. -/
def slowFollower : List (Action 3) :=
  [.doElection 0, .requestVote 0 2, .sendRequestVote 0 2 (voteOf 1),
    .start 0 (Codec.encode earlierPut), .start 0 (Codec.encode laterPut),
    .doHeartBeat 0, .appendEntries 0 2, .sendAppendEntries 0 2 (accepted 1), .getApplyLogs 0,
    .snapshot 0 1 "first", .doHeartBeat 0, .leaderSendSnapShot 0,
    .appendEntries 0 1, .sendAppendEntries 0 1 (accepted 1), .doHeartBeat 0, .appendEntries 2 1,
    .getApplyLogs 1, .applierPush 1, .applierPush 1, .installSnapshot 0, .pushMsgToKvServer 1 0]

def slowFollowerRun : Run (raft 3) :=
  Run.ofActions (raft 3) slowFollower (by decide +kernel)

/-- The server behind it. -/
def staleSnapshot : List KvAction :=
  [KvAction.deliver (commandMessage earlierPut 1)] ++ iteration ++
  [KvAction.deliver (commandMessage laterPut 2)] ++ iteration ++
  [KvAction.deliver firstSnapshot, .loop, .loop]

def staleSnapshotRun : Run kvServer :=
  Run.ofActions kvServer staleSnapshot (by decide +kernel)

theorem earlierPut_corresponds (log : List Op) (hlog : log[0]? = some earlierPut) :
    Corresponds log (replay [earlierPut]) 1 := by
  refine ⟨(List.getElem?_eq_some_iff.mp hlog).1, _, ?_, fun _ ↦ rfl, rfl⟩
  rw [List.take_add_one, hlog]
  exact Reached.initial.apply earlierPut

theorem firstSnapshot_snapshotOf (log : List Op) (hlog : log[0]? = some earlierPut) :
    SnapshotOf log firstSnapshot :=
  ⟨1, replay [earlierPut], 1, earlierPut_corresponds log hlog, List.pairwise_singleton _ _, rfl⟩

/-- The table tells how many of the two writes have been applied. -/
theorem length_of_corresponds {s : KvServer} {m : ℕ} {requestId : ℤ}
    (h : Corresponds [earlierPut, laterPut] s m) (hstored : s.stored "c" = requestId) :
    (m : ℤ) = requestId := by
  obtain ⟨hle, t, ht, -, htable⟩ := h
  have hnone : ∀ op ∈ [earlierPut, laterPut].take m, op.operation ≠ .get := by
    intro op hop
    have hop := List.mem_of_mem_take hop
    rcases List.mem_pair.mp hop with rfl | rfl <;> decide
  rw [htable, ht.eq_replay hnone] at hstored
  have hm : m = 0 ∨ m = 1 ∨ m = 2 := by
    have hle : m ≤ 2 := hle
    omega
  rcases hm with rfl | rfl | rfl
  · have hnone : (replay ([earlierPut, laterPut].take 0)).stored "c" = ⊥ := by decide +kernel
    rw [hnone] at hstored
    exact absurd hstored (WithBot.bot_ne_coe)
  · have hone : (replay ([earlierPut, laterPut].take 1)).stored "c" = (1 : ℤ) := by
      decide +kernel
    exact WithBot.coe_inj.mp (hone.symm.trans hstored)
  · have htwo : (replay ([earlierPut, laterPut].take 2)).stored "c" = (2 : ℤ) := by
      decide +kernel
    exact WithBot.coe_inj.mp (htwo.symm.trans hstored)

theorem staleSnapshotRun_deliversLog :
    staleSnapshotRun.Obeys (DeliversLog [earlierPut, laterPut]) := by
  intro k a ha
  cases a with
  | deliver message =>
    have hmem : KvAction.deliver message ∈ staleSnapshot := List.mem_of_getElem? ha
    have hcases : message = commandMessage earlierPut 1 ∨ message = commandMessage laterPut 2 ∨
        message = firstSnapshot := by
      simpa [staleSnapshot, iteration] using hmem
    rcases hcases with rfl | rfl | rfl
    · exact Or.inl ⟨earlierPut, 0, rfl, rfl⟩
    · exact Or.inl ⟨laterPut, 1, rfl, rfl⟩
    · exact Or.inr (firstSnapshot_snapshotOf _ rfl)
  | _ => trivial

/-- A snapshot of both writes after the first. -/
def freshSnapshot : List KvAction :=
  [KvAction.deliver (commandMessage earlierPut 1)] ++ iteration ++
  [KvAction.deliver { firstSnapshot with
      snapshot := (replay [earlierPut, laterPut]).getSnapshotData, snapshotIndex := 2 },
    .loop, .loop]

def freshSnapshotRun : Run kvServer :=
  Run.ofActions kvServer freshSnapshot (by decide +kernel)

theorem freshSnapshotRun_deliversLog :
    freshSnapshotRun.Obeys (DeliversLog [earlierPut, laterPut]) := by
  intro k a ha
  cases a with
  | deliver message =>
    have hmem : KvAction.deliver message ∈ freshSnapshot := List.mem_of_getElem? ha
    have hcases : message = commandMessage earlierPut 1 ∨ message = { firstSnapshot with
        snapshot := (replay [earlierPut, laterPut]).getSnapshotData, snapshotIndex := 2 } := by
      simpa [freshSnapshot, iteration] using hmem
    rcases hcases with rfl | rfl
    · exact Or.inl ⟨earlierPut, 0, rfl, rfl⟩
    · refine Or.inr ⟨2, replay [earlierPut, laterPut], 1, ⟨le_refl 2, _, ?_, fun _ ↦ rfl, rfl⟩,
        List.pairwise_singleton _ _, rfl⟩
      exact (Reached.initial.apply earlierPut).apply laterPut
  | _ => trivial

theorem freshSnapshotRun_inOrder : RunsInOrder [earlierPut, laterPut] freshSnapshotRun := by
  have hall : ∀ k < freshSnapshot.length, ∀ a ∈ freshSnapshot[k]?,
      InOrder [earlierPut, laterPut] (freshSnapshotRun.state k) (position freshSnapshotRun k) a := by
    decide +kernel
  exact fun k a ha ↦ hall k (List.getElem?_eq_some_iff.mp ha).1 a ha

end Examples

end Rsylar
