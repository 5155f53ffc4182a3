import Rsylar.Kv.ExactlyOnce

/-!
# Replica determinism

`replay` is the store that a command sequence builds when nothing but `GetCommandFromRaft` touches
it. A server without snapshots holds this store as long as its duplicate checks decide as the replay
does (`AgreesWithReplay`), so two such servers that have applied the same sequence hold the same
store. The entries that `ExecuteGetOpOnKVDB` writes can turn a decision: in `rereadRun` a read that
comes late lets a leader execute a write twice that a follower executes once.
-/

set_option autoImplicit false
set_option relaxedAutoImplicit false

namespace Rsylar

open TextArchive TransitionSystem

/-- `GetCommandFromRaft` from the duplicate check to the execution, without a break. -/
def KvServer.applyCommand (s : KvServer) (op : Op) : KvServer :=
  if s.ifRequestDuplicate op.clientId op.requestId then s else s.executeOp op

/-- The server after a command sequence that it has only applied. -/
def replay (ops : List Op) : KvServer :=
  ops.foldl KvServer.applyCommand {}

/-- The duplicate check of a Put or Append finds what it would find after the commands alone. -/
def AgreesWithReplay (s : KvServer) (a : KvAction) : Prop :=
  ∀ op ∈ s.checking a, op.operation ≠ .get →
    s.ifRequestDuplicate op.clientId op.requestId =
      (replay s.applied).ifRequestDuplicate op.clientId op.requestId

instance : DecidableRel AgreesWithReplay := fun s a ↦ by
  unfold AgreesWithReplay
  infer_instance

theorem replay_append (ops : List Op) (op : Op) :
    replay (ops ++ [op]) = (replay ops).applyCommand op :=
  List.foldl_concat _ _ _ _

section Commands

variable {s : KvServer} {op : Op}

theorem KvServer.applyCommand_of_get (h : op.operation = .get) : s.applyCommand op = s := by
  unfold KvServer.applyCommand
  rw [KvServer.executeOp_of_get h, ite_self]

theorem KvServer.applyCommand_of_duplicate
    (h : s.ifRequestDuplicate op.clientId op.requestId = true) : s.applyCommand op = s :=
  if_pos h

theorem KvServer.applyCommand_of_fresh (hop : op.operation ≠ .get)
    (h : s.ifRequestDuplicate op.clientId op.requestId = false) :
    s.applyCommand op = s.setElement op := by
  unfold KvServer.applyCommand
  rw [h, KvServer.executeOp_of_ne_get hop]
  rfl

end Commands

/-! ### The store of a server is that of its commands -/

structure ReplayInv (s : KvServer) : Prop where
  store : s.skipList = (replay s.applied).skipList
  pending : ∀ op ∈ s.inExecution,
    (replay s.applied).ifRequestDuplicate op.clientId op.requestId = false

/-- The stores hold the same key/value map. -/
def SameStore (s t : KvServer) : Prop :=
  ∀ key, s.skipList.searchElement key = t.skipList.searchElement key

section Runs

variable [Codec Op] [Codec KvData] [Codec (SkipList.Dump String String)]
variable {s s' : KvServer} {a : KvAction}

def NoSnapshot (s : KvServer) (a : KvAction) : Prop :=
  (s.installing a).isNone

instance : DecidableRel NoSnapshot := fun s a ↦ by
  unfold NoSnapshot
  infer_instance

/-- What one step preserves. -/
theorem ReplayInv.step (h : ReplayInv s) (hsnapshot : NoSnapshot s a) (hagree : AgreesWithReplay s a)
    (hstep : s.step a = some s') : ReplayInv s' := by
  cases KvServer.step_store hstep with
  | idle _ hlist _ happlied hexec =>
    refine ⟨by rw [hlist, happlied, h.store], fun op hop ↦ ?_⟩
    rw [happlied]
    rcases hexec with hnone | hsame
    · rw [hnone] at hop
      cases hop
    · exact h.pending op (hsame ▸ hop)
  | fresh op hchecking hdup _ hlist _ happlied hexec =>
    refine ⟨by rw [hlist, happlied, h.store], fun op' hop' ↦ ?_⟩
    rw [hexec] at hop'
    split at hop'
    · cases hop'
    · rename_i hop
      obtain rfl : op = op' := Option.some.inj hop'
      rw [happlied, ← hagree op hchecking hop]
      exact hdup
  | pass op hpass _ hlist _ happlied hexec =>
    have hreplay : replay (s.applied ++ [op]) = replay s.applied := by
      rw [replay_append]
      by_cases hop : op.operation = .get
      · exact KvServer.applyCommand_of_get hop
      · obtain ⟨hchecking, hdup⟩ := hpass.resolve_left hop
        rw [hagree op hchecking hop] at hdup
        exact KvServer.applyCommand_of_duplicate hdup
    refine ⟨by rw [hlist, happlied, hreplay, h.store], fun op' hop' ↦ ?_⟩
    rw [hexec] at hop'
    cases hop'
  | execute op hop _ hinExec hlist _ happlied hexec =>
    refine ⟨?_, fun op' hop' ↦ ?_⟩
    · rw [hlist, happlied, replay_append,
        KvServer.applyCommand_of_fresh hop (h.pending op hinExec), h.store]
      rfl
    · rw [hexec] at hop'
      cases hop'
  | serve op _ _ hlist _ happlied hexec =>
    refine ⟨by rw [hlist, happlied, h.store], fun op' hop' ↦ ?_⟩
    rw [happlied]
    exact h.pending op' (hexec ▸ hop')
  | install data hinstalling _ _ _ _ =>
    unfold NoSnapshot at hsnapshot
    rw [hinstalling] at hsnapshot
    cases hsnapshot

theorem replayInv_run (r : Run kvServer) (hsnapshot : r.Obeys NoSnapshot)
    (hagree : r.Obeys AgreesWithReplay) (k : ℕ) : ReplayInv (r.state k) :=
  @Run.invariant _ _ kvServer ReplayInv (fun s a ↦ NoSnapshot s a ∧ AgreesWithReplay s a)
    ⟨rfl, nofun⟩ (fun _ _ _ h hok hstep ↦ h.step hok.1 hok.2 hstep) r
    (fun k a ha ↦ ⟨hsnapshot k a ha, hagree k a ha⟩) k

/-- Replica determinism. Two servers without snapshots, each in its own run, that have applied the
same commands hold the same store, whatever they have read, as long as no duplicate check of a Put
or Append is turned by the reads. -/
theorem replicaDeterminism (r r' : Run kvServer) (hsnapshot : r.Obeys NoSnapshot)
    (hsnapshot' : r'.Obeys NoSnapshot) (hagree : r.Obeys AgreesWithReplay)
    (hagree' : r'.Obeys AgreesWithReplay) (k k' : ℕ)
    (happlied : (r.state k).applied = (r'.state k').applied) :
    SameStore (r.state k) (r'.state k') := by
  intro key
  rw [(replayInv_run r hsnapshot hagree k).store, happlied,
    (replayInv_run r' hsnapshot' hagree' k').store]

end Runs

/-! ### A leader that reads and a follower -/

section Examples

open scoped Archive

def otherRequest : Request :=
  .putAppend { key := "x", value := "w", op := .put, clientId := "d", requestId := 1 }

/-- The read of a client, its write, the write of another client, and the first write again. -/
def sequence : List Op :=
  [readRequest.op, writeRequest.op, otherRequest.op, writeRequest.op]

/-- The leader has the handler of the read still waiting for the lock when it applies the writes. -/
def lateLeader : List KvAction :=
  [KvAction.rpc readRequest (some 1), .handler 0, .deliver (commandMessage readRequest.op 1)] ++
  iteration ++
  [KvAction.handler 0, .deliver (commandMessage writeRequest.op 2)] ++ iteration ++
  [KvAction.deliver (commandMessage otherRequest.op 3)] ++ iteration ++
  [KvAction.handler 0, .deliver (commandMessage writeRequest.op 4)] ++ iteration

def earlyLeader : List KvAction :=
  [KvAction.rpc readRequest (some 1), .handler 0, .deliver (commandMessage readRequest.op 1)] ++
  iteration ++
  [KvAction.handler 0, .handler 0, .deliver (commandMessage writeRequest.op 2)] ++ iteration ++
  [KvAction.deliver (commandMessage otherRequest.op 3)] ++ iteration ++
  [KvAction.deliver (commandMessage writeRequest.op 4), .loop, .loop, .loop, .loop]

def follower : List KvAction :=
  [KvAction.deliver (commandMessage readRequest.op 1)] ++ iteration ++
  [KvAction.deliver (commandMessage writeRequest.op 2)] ++ iteration ++
  [KvAction.deliver (commandMessage otherRequest.op 3)] ++ iteration ++
  [KvAction.deliver (commandMessage writeRequest.op 4), .loop, .loop, .loop, .loop]

def lateLeaderRun : Run kvServer :=
  Run.ofActions kvServer lateLeader (by decide +kernel)

def earlyLeaderRun : Run kvServer :=
  Run.ofActions kvServer earlyLeader (by decide +kernel)

def followerRun : Run kvServer :=
  Run.ofActions kvServer follower (by decide +kernel)

theorem followerRun_noSnapshot : followerRun.Obeys NoSnapshot := by
  rw [followerRun, Run.obeys_ofActions_iff]
  decide +kernel

/-- Both servers have applied the sequence; the leader has executed the first write again. -/
theorem replicaDeterminism_lateLeader :
    ∃ r r' : Run kvServer, r.Obeys NoSnapshot ∧ r'.Obeys NoSnapshot ∧ ∃ k k',
      (r.state k).applied = (r'.state k').applied ∧ ¬ SameStore (r.state k) (r'.state k') := by
  refine ⟨lateLeaderRun, followerRun, ?_, followerRun_noSnapshot, lateLeader.length,
    follower.length, by decide +kernel, fun h ↦ ?_⟩
  · rw [lateLeaderRun, Run.obeys_ofActions_iff]
    decide +kernel
  · have hne : (lateLeaderRun.state lateLeader.length).skipList.searchElement "x" ≠
        (followerRun.state follower.length).skipList.searchElement "x" := by
      decide +kernel
    exact hne (h "x")

theorem replicaDeterminism_earlyLeader :
    SameStore (earlyLeaderRun.state earlyLeader.length) (followerRun.state follower.length) := by
  refine replicaDeterminism earlyLeaderRun followerRun ?_ followerRun_noSnapshot ?_ ?_ _ _
    (by decide +kernel)
  · rw [earlyLeaderRun, Run.obeys_ofActions_iff]
    decide +kernel
  · rw [earlyLeaderRun, Run.obeys_ofActions_iff]
    decide +kernel
  · rw [followerRun, Run.obeys_ofActions_iff]
    decide +kernel

end Examples

end Rsylar
