import Rsylar.Raft.IndexOrder
import Rsylar.Raft.StateMachineSafety

/-!
# The stream of apply messages

`applierTicker` takes the committed commands under the lock and pushes them after it has given the
lock up, one after the other; a snapshot is pushed by a task of its own. The messages reach the
channel in the order of the log (`InLogOrder`) as long as a snapshot is not pushed ahead of commands
it covers that the ticker still holds, and the ticker does not push the first command after a
snapshot ahead of it (`StreamKept`). What the ticker holds, what is still to be pushed and what is
in the channel are tied together by `StreamInv`. In `staleCommandRun` a snapshot is pushed, and then
the command it covers.
-/

set_option autoImplicit false
set_option relaxedAutoImplicit false

namespace Rsylar

open TextArchive TransitionSystem

variable {n : ℕ}

/-! ### The order of messages -/

/-- The command before the one with this index has been pushed, or a snapshot that covers it. -/
def Preceded (pushed : List ApplyMsg) (commandIndex : ℤ) : Prop :=
  commandIndex = 1 ∨ ∃ msg ∈ pushed,
    (msg.commandValid = true ∧ msg.commandIndex = commandIndex - 1) ∨
      (msg.snapshotValid = true ∧ commandIndex - 1 ≤ msg.snapshotIndex)

instance (pushed : List ApplyMsg) (commandIndex : ℤ) : Decidable (Preceded pushed commandIndex) :=
  inferInstanceAs (Decidable (_ ∨ ∃ msg ∈ pushed, _))

/-- A message that may be pushed next. -/
def Continues (pushed : List ApplyMsg) (msg : ApplyMsg) : Prop :=
  msg.commandValid = true → Preceded pushed msg.commandIndex ∧
    (∀ old ∈ pushed, old.commandValid = true → old.commandIndex ≠ msg.commandIndex) ∧
    ∀ old ∈ pushed, old.snapshotValid = true → old.snapshotIndex < msg.commandIndex

/-- Each message continues those before it. -/
def InLogOrder (msgs : List ApplyMsg) : Prop :=
  ∀ before msg after, msgs = before ++ msg :: after → Continues before msg

/-- The commands with the indices after `index`, in order. -/
def CommandsFrom (index : ℕ) : List ApplyMsg → Prop
  | [] => True
  | msg :: msgs => msg.commandValid = true ∧ msg.snapshotValid = false ∧
    msg.commandIndex = ((index + 1 : ℕ) : ℤ) ∧ CommandsFrom (index + 1) msgs

section Order

variable {msgs : List ApplyMsg} {msg : ApplyMsg}

theorem inLogOrder_nil : InLogOrder [] := by
  intro before msg after h
  simp at h

theorem InLogOrder.concat (h : InLogOrder msgs) (hmsg : Continues msgs msg) :
    InLogOrder (msgs ++ [msg]) := by
  intro before last after heq
  rcases List.eq_nil_or_concat after with rfl | ⟨rest, final, rfl⟩
  · obtain ⟨rfl, hlast⟩ := List.append_inj' heq rfl
    cases hlast
    exact hmsg
  · rw [List.concat_eq_append, ← List.cons_append, ← List.append_assoc] at heq
    exact h before last rest (List.append_inj' heq rfl).1

end Order

namespace Raft

variable {r r' : Raft n}

theorem applyFrom_commands {count lastApplied : ℕ} {msgs : List ApplyMsg}
    (h : r.applyFrom count lastApplied = .ok msgs) :
    CommandsFrom lastApplied msgs ∧ msgs.length = count := by
  induction count generalizing lastApplied msgs with
  | zero =>
    cases h
    exact ⟨trivial, rfl⟩
  | succ count ih =>
    obtain ⟨e, -, h⟩ := bind_eq_ok.mp h
    obtain ⟨_, -, h⟩ := bind_eq_ok.mp h
    obtain ⟨rest, hrest, h⟩ := bind_eq_ok.mp h
    cases h
    obtain ⟨hcommands, hlen⟩ := ih hrest
    exact ⟨⟨rfl, rfl, rfl, hcommands⟩, congrArg (· + 1) hlen⟩

theorem getApplyLogs_commands {msgs : List ApplyMsg} (h : r.getApplyLogs = .ok (r', msgs)) :
    CommandsFrom r.lastApplied msgs ∧ msgs.length = r.commitIndex - r.lastApplied ∧
      r'.lastApplied = max r.lastApplied r.commitIndex := by
  obtain ⟨_, -, h⟩ := bind_eq_ok.mp h
  obtain ⟨msgs', hmsgs, h⟩ := bind_eq_ok.mp h
  cases h
  obtain ⟨hcommands, hlen⟩ := applyFrom_commands hmsgs
  exact ⟨hcommands, hlen, rfl⟩

section Handlers

variable [Codec LogEntry] [Codec (BoostPersistRaftNode n)]

/-- A snapshot that is installed is pushed, and counts as applied. -/
theorem installSnapshot_msg {args : InstallSnapshotRequest n} {reply : InstallSnapshotResponse}
    {msg : Option ApplyMsg} (h : r.installSnapshot args = .ok (r', reply, msg)) :
    (msg = none ∧ r'.lastApplied = r.lastApplied) ∨
      ∃ m, msg = some m ∧ m.commandValid = false ∧ m.snapshotValid = true ∧
        m.snapshotIndex = (args.lastSnapshotIncludeIndex : ℤ) ∧
        r'.lastApplied = max r.lastApplied args.lastSnapshotIncludeIndex := by
  unfold installSnapshot at h
  by_cases hold : args.term < r.currentTerm
  · rw [if_pos hold] at h
    cases h
    exact Or.inl ⟨rfl, rfl⟩
  · rw [if_neg hold] at h
    by_cases hlater : r.currentTerm < args.term
    · simp only [if_pos hlater] at h
      split at h
      · cases h
        exact Or.inl ⟨rfl, rfl⟩
      · obtain ⟨logs, -, h⟩ := bind_eq_ok.mp h
        cases h
        exact Or.inr ⟨_, rfl, rfl, rfl, rfl, rfl⟩
    · simp only [if_neg hlater] at h
      split at h
      · cases h
        exact Or.inl ⟨rfl, rfl⟩
      · obtain ⟨logs, -, h⟩ := bind_eq_ok.mp h
        cases h
        exact Or.inr ⟨_, rfl, rfl, rfl, rfl, rfl⟩

theorem lastApplied_doElection (r : Raft n) (me : Fin n) :
    (r.doElection me).1.lastApplied = r.lastApplied := by
  rcases r.doElection_cases me with ⟨-, heq⟩ | ⟨-, -, heq⟩ | ⟨-, -, heq⟩ <;> rw [heq] <;> rfl

theorem lastApplied_requestVote {args : RequestVoteArgs n} {reply : RequestVoteReply}
    (hr : r.requestVote args = .ok (r', reply)) : r'.lastApplied = r.lastApplied := by
  rcases requestVote_cases hr with ⟨-, rfl, -⟩ | ⟨-, rfl, -⟩ | ⟨-, -, -, rfl, -⟩
  · rfl
  · simp
  · exact r.enterTerm_lastApplied _

theorem lastApplied_sendRequestVote {reply : RequestVoteReply} {votedNum votedNum' : ℕ}
    (hr : r.sendRequestVote reply votedNum = .ok (r', votedNum')) :
    r'.lastApplied = r.lastApplied := by
  rcases sendRequestVote_cases hr with ⟨-, rfl, -⟩ | ⟨rfl, -⟩ | ⟨-, -, -, rfl, -⟩ |
    ⟨-, -, -, -, rfl, -⟩ <;> rfl

theorem lastApplied_start {me : Fin n} {command : String} {result : Option (ℕ × ℕ)}
    (hr : r.start me command = .ok (r', result)) : r'.lastApplied = r.lastApplied := by
  rcases start_cases hr with ⟨-, rfl, -⟩ | ⟨-, e, q, found, -, rfl, -, rfl, -⟩ <;> rfl

theorem lastApplied_appendEntries {args : AppendEntriesArgs n} {reply : AppendEntriesReply}
    (hr : r.appendEntries args = .ok (r', reply)) : r'.lastApplied = r.lastApplied := by
  rcases appendEntries_cases hr with ⟨-, rfl, -⟩ | ⟨-, -, rfl⟩ | ⟨-, -, -, -, q, hq, -, rfl⟩
  · rfl
  · exact r.enterTerm_lastApplied _
  · show q.lastApplied = r.lastApplied
    rw [mergeEntries_logs hq]
    exact r.enterTerm_lastApplied _

omit [Codec LogEntry] [Codec (BoostPersistRaftNode n)] in
theorem lastApplied_sendAppendEntries {server : Fin n} {args : AppendEntriesArgs n}
    {reply : AppendEntriesReply} {appendNums appendNums' : ℕ}
    (hr : r.sendAppendEntries server args reply appendNums = .ok (r', appendNums')) :
    r'.lastApplied = r.lastApplied := by
  rcases sendAppendEntries_cases hr with ⟨rfl, -⟩ | ⟨-, -, rfl, -⟩ |
    ⟨-, -, -, -, index, -, rfl⟩ | ⟨-, -, -, reached, -, -, ⟨rfl, -⟩ | ⟨-, -, -, rfl⟩⟩ <;> rfl

theorem lastApplied_snapshot {index : ℕ} {data : String} (hle : index ≤ r.lastApplied)
    (hr : r.snapshot index data = .ok r') : r'.lastApplied = r.lastApplied := by
  rcases snapshot_cases hr with rfl | ⟨-, -, e, logs, q, -, -, rfl, rfl⟩
  · rfl
  · exact max_eq_left hle

theorem lastApplied_leaderSendSnapShotReply (r : Raft n) (server : Fin n)
    (args : InstallSnapshotRequest n) (reply : InstallSnapshotResponse) :
    (r.leaderSendSnapShotReply server args reply).lastApplied = r.lastApplied := by
  rcases r.leaderSendSnapShotReply_cases server args reply with heq | ⟨-, heq⟩ | ⟨-, -, -, heq⟩ <;>
    rw [heq] <;> rfl

end Handlers

end Raft

/-! ### What is held, what is to be pushed, what is pushed -/

/-- The index has been pushed or skipped, or it is that of a snapshot still to be pushed. -/
def PushedUpTo (pushTasks applyChan : List ApplyMsg) (index : ℕ) : Prop :=
  Preceded applyChan ((index + 1 : ℕ) : ℤ) ∨ ∃ task ∈ pushTasks, task.snapshotIndex = (index : ℤ)

/-- The messages of a server that has applied the log up to `lastApplied`. -/
structure StreamInv (lastApplied : ℕ) (ticker pushTasks applyChan : List ApplyMsg) : Prop where
  order : InLogOrder applyChan
  tasks : ∀ task ∈ pushTasks, task.commandValid = false ∧ task.snapshotValid = true ∧
    task.snapshotIndex ≤ (lastApplied : ℤ)
  snapshots : ∀ msg ∈ applyChan, msg.snapshotValid = true → msg.snapshotIndex ≤ (lastApplied : ℤ)
  /-- The ticker holds the commands after `index`, and the channel none of them. -/
  next : ∃ index, CommandsFrom index ticker ∧ index + ticker.length ≤ lastApplied ∧
    (∀ msg ∈ applyChan, msg.commandValid = true → msg.commandIndex ≤ (index : ℤ)) ∧
    (ticker ≠ [] → PushedUpTo pushTasks applyChan index ∧
      ∀ msg ∈ applyChan, msg.snapshotValid = true → msg.snapshotIndex ≤ (index : ℤ)) ∧
    (ticker ≠ [] ∧ index + ticker.length = lastApplied ∨ PushedUpTo pushTasks applyChan lastApplied)

section Stream

variable {lastApplied : ℕ} {ticker pushTasks applyChan : List ApplyMsg}

theorem Preceded.append {commandIndex : ℤ} (h : Preceded applyChan commandIndex)
    (msgs : List ApplyMsg) : Preceded (applyChan ++ msgs) commandIndex := by
  refine h.imp_right ?_
  rintro ⟨msg, hmem, hmsg⟩
  exact ⟨msg, List.mem_append_left _ hmem, hmsg⟩

/-- A server without messages. -/
theorem streamInv_nil : StreamInv 0 [] [] [] where
  order := inLogOrder_nil
  tasks := fun task htask ↦ by cases htask
  snapshots := fun msg hmsg ↦ by cases hmsg
  next := ⟨0, trivial, le_refl 0, (fun msg hmsg ↦ by cases hmsg), fun hne ↦ absurd rfl hne,
    Or.inr (Or.inl (Or.inl rfl))⟩

/-- The commands between `lastApplied` and the commit index are taken by an idle ticker. -/
theorem StreamInv.take (h : StreamInv lastApplied [] pushTasks applyChan) {commitIndex : ℕ}
    {msgs : List ApplyMsg} (hcommands : CommandsFrom lastApplied msgs)
    (hlen : msgs.length = commitIndex - lastApplied) :
    StreamInv (max lastApplied commitIndex) msgs pushTasks applyChan := by
  obtain ⟨index, -, hle, hpushed, -, hlast⟩ := h.next
  have hreached : PushedUpTo pushTasks applyChan lastApplied := by
    rcases hlast with ⟨hne, -⟩ | hreached
    · exact absurd rfl hne
    · exact hreached
  have hindex : (index : ℤ) ≤ lastApplied := by exact_mod_cast hle
  refine ⟨h.order, fun task htask ↦ ?_, fun msg hmsg hsnapshot ↦ ?_, lastApplied, hcommands,
    by omega, fun msg hmsg hvalid ↦ (hpushed msg hmsg hvalid).trans hindex,
    fun _ ↦ ⟨hreached, h.snapshots⟩, ?_⟩
  · obtain ⟨hcommand, hsnapshot, hle⟩ := h.tasks task htask
    exact ⟨hcommand, hsnapshot, by omega⟩
  · have hle := h.snapshots msg hmsg hsnapshot
    omega
  · by_cases hnil : msgs = []
    · rw [hnil] at hlen
      have hsame : max lastApplied commitIndex = lastApplied := by
        simp only [List.length_nil] at hlen
        omega
      exact Or.inr (hsame.symm ▸ hreached)
    · have hpos := List.length_pos_iff.mpr hnil
      exact Or.inl ⟨hnil, by omega⟩

/-- The ticker pushes its first command. -/
theorem StreamInv.push {msg : ApplyMsg} (h : StreamInv lastApplied (msg :: ticker) pushTasks applyChan)
    (hkept : (∃ task ∈ pushTasks, task.snapshotIndex + 1 = msg.commandIndex) →
      Preceded applyChan msg.commandIndex) :
    StreamInv lastApplied ticker pushTasks (applyChan ++ [msg]) := by
  obtain ⟨index, ⟨hvalid, hnot, hindex, hcommands⟩, hle, hpushed, hnext, hlast⟩ := h.next
  obtain ⟨hreached, hsnapshots⟩ := hnext (List.cons_ne_nil _ _)
  simp only [List.length_cons] at hle hlast
  have hpreceded : Preceded applyChan msg.commandIndex := by
    rcases hreached with hpreceded | ⟨task, htask, htaskIndex⟩
    · rwa [hindex]
    · exact hkept ⟨task, htask, by omega⟩
  have hhead : Preceded (applyChan ++ [msg]) ((index + 1 + 1 : ℕ) : ℤ) := by
    refine Or.inr ⟨msg, List.mem_append_right _ (List.mem_singleton_self _), Or.inl ⟨hvalid, ?_⟩⟩
    omega
  refine ⟨h.order.concat fun _ ↦ ⟨hpreceded, fun old hold hcommand ↦ ?_, fun old hold hsnapshot ↦ ?_⟩,
    h.tasks, fun old hold hsnapshot ↦ ?_, index + 1, hcommands, by omega,
    fun old hold hcommand ↦ ?_, fun hne ↦ ⟨Or.inl hhead, fun old hold hsnapshot ↦ ?_⟩, ?_⟩
  · have hle := hpushed old hold hcommand
    rw [hindex]
    push_cast
    omega
  · have hle := hsnapshots old hold hsnapshot
    rw [hindex]
    push_cast
    omega
  · rcases List.mem_append.mp hold with hold | hnew
    · exact h.snapshots old hold hsnapshot
    · rw [List.mem_singleton.mp hnew, hnot] at hsnapshot
      cases hsnapshot
  · rcases List.mem_append.mp hold with hold | hnew
    · have hle := hpushed old hold hcommand
      push_cast
      omega
    · rw [List.mem_singleton.mp hnew, hindex]
  · rcases List.mem_append.mp hold with hold | hnew
    · have hle := hsnapshots old hold hsnapshot
      push_cast
      omega
    · rw [List.mem_singleton.mp hnew, hnot] at hsnapshot
      cases hsnapshot
  · rcases hlast with ⟨-, heq⟩ | hreached
    · by_cases hnil : ticker = []
      · rw [hnil] at heq
        simp only [List.length_nil, Nat.zero_add] at heq
        exact Or.inr (Or.inl (heq ▸ hhead))
      · exact Or.inl ⟨hnil, by omega⟩
    · exact Or.inr (hreached.imp_left fun hpreceded ↦ hpreceded.append _)

/-- A snapshot is installed and scheduled to be pushed. -/
theorem StreamInv.install (h : StreamInv lastApplied ticker pushTasks applyChan) {task : ApplyMsg}
    {index : ℕ} (hcommand : task.commandValid = false) (hsnapshot : task.snapshotValid = true)
    (hindex : task.snapshotIndex = (index : ℤ)) :
    StreamInv (max lastApplied index) ticker (pushTasks ++ [task]) applyChan := by
  obtain ⟨first, hcommands, hle, hpushed, hnext, hlast⟩ := h.next
  have hreached : ∀ {j}, PushedUpTo pushTasks applyChan j →
      PushedUpTo (pushTasks ++ [task]) applyChan j := by
    intro j hj
    refine hj.imp_right ?_
    rintro ⟨old, hold, heq⟩
    exact ⟨old, List.mem_append_left _ hold, heq⟩
  refine ⟨h.order, fun old hold ↦ ?_, fun msg hmsg hvalid ↦ ?_, first, hcommands, by omega, hpushed,
    fun hne ↦ (hnext hne).imp_left hreached, ?_⟩
  · rcases List.mem_append.mp hold with hold | hnew
    · obtain ⟨hno, hyes, hle⟩ := h.tasks old hold
      exact ⟨hno, hyes, by omega⟩
    · rw [List.mem_singleton.mp hnew, hindex]
      exact ⟨hcommand, hsnapshot, by omega⟩
  · have hle := h.snapshots msg hmsg hvalid
    omega
  · rcases Nat.lt_or_ge lastApplied index with hlt | hge
    · refine Or.inr (Or.inr ⟨task, List.mem_append_right _ (List.mem_singleton_self _), ?_⟩)
      rw [hindex, max_eq_right hlt.le]
    · rw [max_eq_left hge]
      exact hlast.imp_right hreached

/-- The task of a snapshot pushes it. -/
theorem StreamInv.pushTask (h : StreamInv lastApplied ticker pushTasks applyChan) {k : ℕ}
    {task : ApplyMsg} (htask : pushTasks[k]? = some task)
    (hkept : ∀ msg ∈ ticker, task.snapshotIndex < msg.commandIndex) :
    StreamInv lastApplied ticker (pushTasks.eraseIdx k) (applyChan ++ [task]) := by
  obtain ⟨index, hcommands, hle, hpushed, hnext, hlast⟩ := h.next
  obtain ⟨hcommand, hsnapshot, htaskLe⟩ := h.tasks task (List.mem_of_getElem? htask)
  -- What waited for this task is now covered by its message.
  have hreached : ∀ {j}, PushedUpTo pushTasks applyChan j →
      PushedUpTo (pushTasks.eraseIdx k) (applyChan ++ [task]) j := by
    rintro j (hpreceded | ⟨old, hold, heq⟩)
    · exact Or.inl (hpreceded.append _)
    · obtain ⟨m, hm⟩ := List.getElem?_of_mem hold
      by_cases hmk : m = k
      · subst hmk
        obtain rfl : task = old := Option.some.inj (htask.symm.trans hm)
        refine Or.inl (Or.inr ⟨task, List.mem_append_right _ (List.mem_singleton_self _),
          Or.inr ⟨hsnapshot, ?_⟩⟩)
        rw [heq]
        push_cast
        omega
      · exact Or.inr ⟨old, List.mem_eraseIdx_iff_getElem?.mpr ⟨m, hmk, hm⟩, heq⟩
  refine ⟨h.order.concat fun hvalid ↦ ?_, fun old hold ↦ h.tasks old (List.mem_of_mem_eraseIdx hold),
    fun msg hmsg hvalid ↦ ?_, index, hcommands, hle, fun msg hmsg hvalid ↦ ?_,
    fun hne ↦ ⟨hreached (hnext hne).1, fun msg hmsg hvalid ↦ ?_⟩, hlast.imp_right hreached⟩
  · rw [hcommand] at hvalid
    cases hvalid
  · rcases List.mem_append.mp hmsg with hold | hnew
    · exact h.snapshots msg hold hvalid
    · rw [List.mem_singleton.mp hnew]
      exact htaskLe
  · rcases List.mem_append.mp hmsg with hold | hnew
    · exact hpushed msg hold hvalid
    · rw [List.mem_singleton.mp hnew, hcommand] at hvalid
      cases hvalid
  · rcases List.mem_append.mp hmsg with hold | hnew
    · exact (hnext hne).2 msg hold hvalid
    · rw [List.mem_singleton.mp hnew]
      cases ticker with
      | nil => exact absurd rfl hne
      | cons first rest =>
        have hlt := hkept first List.mem_cons_self
        rw [hcommands.2.2.1] at hlt
        push_cast at hlt
        omega

end Stream

/-! ### The order in every run -/

section Step

variable [Codec LogEntry] [Codec (BoostPersistRaftNode n)] {s s' : Cluster n}

/-- The ticker does not overtake the snapshot before its first command, a snapshot does not overtake
the commands it covers, and the store takes snapshots of what has been applied. -/
def StreamKept (s : Cluster n) : Action n → Prop
  | .applierPush i => ∀ msg ∈ (s.ticker i).head?,
    (∃ task ∈ s.pushTasks i, task.snapshotIndex + 1 = msg.commandIndex) →
      Preceded (s.applyChan i) msg.commandIndex
  | .pushMsgToKvServer i k => ∀ task ∈ (s.pushTasks i)[k]?, ∀ msg ∈ s.ticker i,
    task.snapshotIndex < msg.commandIndex
  | .snapshot i index _ => index ≤ (s.servers i).lastApplied
  | _ => True

instance : DecidableRel (StreamKept : Cluster n → Action n → Prop) := fun s a ↦
  match a with
  | .applierPush i => inferInstanceAs (Decidable (∀ msg ∈ (s.ticker i).head?,
    (∃ task ∈ s.pushTasks i, task.snapshotIndex + 1 = msg.commandIndex) →
      Preceded (s.applyChan i) msg.commandIndex))
  | .pushMsgToKvServer i k => inferInstanceAs (Decidable (∀ task ∈ (s.pushTasks i)[k]?,
    ∀ msg ∈ s.ticker i, task.snapshotIndex < msg.commandIndex))
  | .snapshot i index _ => inferInstanceAs (Decidable (index ≤ (s.servers i).lastApplied))
  | .doElection _ | .requestVote _ _ | .sendRequestVote _ _ _ | .start _ _ | .doHeartBeat _
  | .appendEntries _ _ | .sendAppendEntries _ _ _ | .getApplyLogs _ | .leaderSendSnapShot _
  | .installSnapshot _ | .leaderSendSnapShotReply _ _ | .restart _ => .isTrue trivial

/-- The messages of server `i` are as `StreamInv` says. -/
def Cluster.Streams (s : Cluster n) (i : Fin n) : Prop :=
  StreamInv (s.servers i).lastApplied (s.ticker i) (s.pushTasks i) (s.applyChan i)

omit [Codec LogEntry] [Codec (BoostPersistRaftNode n)] in
/-- The messages of one server change. -/
theorem Cluster.Streams.update (h : ∀ i, s.Streams i) {i : Fin n} {r : Raft n}
    {ticker pushTasks applyChan : List ApplyMsg}
    (hr : StreamInv r.lastApplied ticker pushTasks applyChan)
    (hservers : s'.servers = Function.update s.servers i r)
    (hticker : s'.ticker = Function.update s.ticker i ticker)
    (htasks : s'.pushTasks = Function.update s.pushTasks i pushTasks)
    (hchan : s'.applyChan = Function.update s.applyChan i applyChan) : ∀ j, s'.Streams j := by
  intro j
  unfold Cluster.Streams
  rw [hservers, hticker, htasks, hchan]
  by_cases hj : j = i
  · subst hj
    simpa only [Function.update_self] using hr
  · simp only [Function.update_of_ne hj]
    exact h j

omit [Codec LogEntry] [Codec (BoostPersistRaftNode n)] in
/-- A server runs a handler that applies nothing. -/
theorem Cluster.Streams.frame (h : ∀ i, s.Streams i) {i : Fin n} {r : Raft n}
    (hr : r.lastApplied = (s.servers i).lastApplied)
    (hservers : s'.servers = Function.update s.servers i r) (hticker : s'.ticker = s.ticker)
    (htasks : s'.pushTasks = s.pushTasks) (hchan : s'.applyChan = s.applyChan) :
    ∀ j, s'.Streams j := by
  have hsame : StreamInv r.lastApplied (s.ticker i) (s.pushTasks i) (s.applyChan i) := by
    rw [hr]
    exact h i
  refine Cluster.Streams.update h hsame hservers ?_ ?_ ?_
  · rw [hticker, Function.update_eq_self]
  · rw [htasks, Function.update_eq_self]
  · rw [hchan, Function.update_eq_self]

/-- The ticker takes commands when it has pushed those it took before. -/
theorem Cluster.ticker_of_getApplyLogs {i : Fin n} (hstep : s.step (.getApplyLogs i) = some s') :
    s.ticker i = [] := by
  simp only [Cluster.step, Cluster.perform, Option.bind_eq_bind, Option.bind_eq_some_iff,
    Option.guard_eq_some'] at hstep
  obtain ⟨_, ⟨_, hidle, -⟩, -⟩ := hstep
  exact hidle

/-- What one step preserves. -/
theorem streams_step (h : ∀ i, s.Streams i) {a : Action n} (ha : StreamKept s a)
    (hstep : s.step a = some s') : ∀ j, s'.Streams j := by
  cases Cluster.step_cases hstep with
  | exit i e _ => exact h
  | doElection i r request hr =>
    have hsame := (s.servers i).lastApplied_doElection i
    rw [hr] at hsame
    exact Cluster.Streams.frame h hsame rfl rfl rfl rfl
  | requestVote k peer round r reply _ _ hr =>
    exact Cluster.Streams.frame h (Raft.lastApplied_requestVote hr) rfl rfl rfl rfl
  | sendRequestVote k peer reply round r votedNum _ _ _ hr =>
    exact Cluster.Streams.frame h (Raft.lastApplied_sendRequestVote hr) rfl rfl rfl rfl
  | start i command r result hr =>
    exact Cluster.Streams.frame h (Raft.lastApplied_start hr) rfl rfl rfl rfl
  | doHeartBeat_idle i _ => exact h
  | doHeartBeat i sent _ => exact h
  | appendEntries k peer round args r reply _ _ hr =>
    exact Cluster.Streams.frame h (Raft.lastApplied_appendEntries hr) rfl rfl rfl rfl
  | sendAppendEntries k peer reply round args r appendNums _ _ _ _ hr =>
    exact Cluster.Streams.frame h (Raft.lastApplied_sendAppendEntries hr) rfl rfl rfl rfl
  | getApplyLogs i r msgs hr =>
    obtain ⟨hcommands, hlen, happlied⟩ := Raft.getApplyLogs_commands hr
    have hi := h i
    unfold Cluster.Streams at hi
    rw [Cluster.ticker_of_getApplyLogs hstep] at hi
    exact Cluster.Streams.update h (happlied ▸ hi.take hcommands hlen) rfl rfl
      (Function.update_eq_self _ _).symm (Function.update_eq_self _ _).symm
  | applierPush i msg msgs hticker =>
    have hi := h i
    unfold Cluster.Streams at hi
    rw [hticker] at hi
    exact Cluster.Streams.update h (hi.push (ha msg (by rw [hticker]; rfl)))
      (Function.update_eq_self _ _).symm rfl
      (Function.update_eq_self _ _).symm rfl
  | snapshot i index data r hr =>
    exact Cluster.Streams.frame h (Raft.lastApplied_snapshot ha hr) rfl rfl rfl rfl
  | leaderSendSnapShot k i peer r args _ hr =>
    have hsame : r.lastApplied = (s.servers i).lastApplied := by
      cases hr
      rfl
    exact Cluster.Streams.frame h hsame rfl rfl rfl rfl
  | installSnapshot k call r reply msg _ hr =>
    refine Cluster.Streams.update h ?_ rfl (Function.update_eq_self call.server _).symm rfl
      (Function.update_eq_self call.server _).symm
    rcases Raft.installSnapshot_msg hr with ⟨rfl, hsame⟩ |
      ⟨task, rfl, hcommand, hsnapshot, hindex, happlied⟩
    · rw [hsame]
      simp only [Option.toList_none, List.append_nil]
      exact h call.server
    · rw [happlied]
      exact (h call.server).install hcommand hsnapshot hindex
  | leaderSendSnapShotReply k reply call r _ _ _ hr =>
    cases hr
    exact Cluster.Streams.frame h (Raft.lastApplied_leaderSendSnapShotReply _ _ _ _) rfl rfl rfl rfl
  | pushMsgToKvServer i k msg hmsg =>
    exact Cluster.Streams.update h ((h i).pushTask hmsg (ha msg hmsg)) (Function.update_eq_self _ _).symm
      (Function.update_eq_self _ _).symm rfl rfl
  | restart i r data hr =>
    rw [Raft.restart_eq] at hr
    cases hr
    exact Cluster.Streams.update h streamInv_nil rfl rfl rfl rfl

end Step

section Runs

variable [Codec LogEntry] [Codec (BoostPersistRaftNode n)]

theorem streams_run (r : Run (raft n)) (hr : r.Obeys StreamKept) (k : ℕ) (i : Fin n) :
    (r.state k).Streams i :=
  @Run.invariant _ _ (raft n) (fun s ↦ ∀ i, s.Streams i) StreamKept (fun _ ↦ streamInv_nil)
    (fun _ _ _ h ha hstep ↦ streams_step h ha hstep) r hr k i

/-- The messages in the channel of a server are in the order of the log. -/
def ApplyStreamOrder (r : Run (raft n)) : Prop :=
  ∀ k i, InLogOrder ((r.state k).applyChan i)

/-- The order of the apply stream. It holds in every run in which no push overtakes another that
comes before it in the log. -/
theorem applyStreamOrder (r : Run (raft n)) (hr : r.Obeys StreamKept) : ApplyStreamOrder r :=
  fun k i ↦ (streams_run r hr k i).order

end Runs

/-! ### A command behind its snapshot -/

section Examples

open scoped Archive

/-- Server 1 has taken the command with index 1 and has not pushed it yet when it installs a
snapshot up to index 1. -/
def heldCommand : List (Action 3) :=
  [.doElection 0, .requestVote 0 1, .sendRequestVote 0 1 (voteOf 1), .start 0 "x",
    .doHeartBeat 0, .appendEntries 0 2, .sendAppendEntries 0 2 (accepted 1),
    .doHeartBeat 0, .appendEntries 1 1, .getApplyLogs 1,
    .getApplyLogs 0, .applierPush 0, .snapshot 0 1 "x",
    .doHeartBeat 0, .leaderSendSnapShot 0, .installSnapshot 0]

def staleCommandRun : Run (raft 3) :=
  Run.ofActions (raft 3) (heldCommand ++ [.pushMsgToKvServer 1 0, .applierPush 1])
    (by decide +kernel)

/-- The command with index 1 comes after a snapshot up to index 1. -/
theorem applyStreamOrder_staleCommand : ∃ r : Run (raft 3), ¬ ApplyStreamOrder r := by
  refine ⟨staleCommandRun, fun horder ↦ ?_⟩
  have hchan : (staleCommandRun.state 18).applyChan 1 =
      [{ snapshotValid := true, snapshot := "x", snapshotTerm := 1, snapshotIndex := 1 },
        { commandValid := true, command := "x", commandIndex := 1 }] := by decide +kernel
  have hcontinues := horder 18 1 [_] _ [] hchan rfl
  have hlt := hcontinues.2.2 _ List.mem_cons_self rfl
  exact absurd hlt (by decide)

/-- The ticker pushes the command first. -/
def orderedRun : Run (raft 3) :=
  Run.ofActions (raft 3) (heldCommand ++ [.applierPush 1, .pushMsgToKvServer 1 0])
    (by decide +kernel)

theorem applyStreamOrder_ordered : ApplyStreamOrder orderedRun :=
  applyStreamOrder orderedRun (by rw [orderedRun, Run.obeys_ofActions_iff]; decide +kernel)

end Examples

end Rsylar
