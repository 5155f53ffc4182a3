import Rsylar.Kv.Archive
import Rsylar.Kv.ServerSpec

/-!
# Exactly once

A command is executed when its request id is above the entry of its client, and the execution raises
the entry to that id; as long as no entry is lowered, no pair of a client and a request id is
executed twice. `ExecuteGetOpOnKVDB` also writes the entry, without a look at it and at any later
time, and so does the installation of a snapshot: `OrderlyReads` and `NewerSnapshots` say that they
do not lower it.
-/

set_option autoImplicit false
set_option relaxedAutoImplicit false

namespace Rsylar

open TextArchive TransitionSystem

/-- A read finds no later request of its client in the table, and none on its way there. -/
def OrderlyReads (s : KvServer) (a : KvAction) : Prop :=
  ∀ op ∈ s.serving a, s.stored op.clientId ≤ (op.requestId : WithBot ℤ) ∧
    ∀ op' ∈ s.inExecution, op'.clientId = op.clientId → op.requestId ≤ op'.requestId

instance : DecidableRel OrderlyReads := fun s a ↦ by
  unfold OrderlyReads
  infer_instance

section Runs

variable [Codec Op] [Codec KvData] [Codec (SkipList.Dump String String)]

/-- A snapshot is not behind the server in the requests of any client. -/
def NewerSnapshots (s : KvServer) (a : KvAction) : Prop :=
  ∀ data ∈ s.installing a, ∀ clientId, s.stored clientId ≤ KvServer.lastId data.lastRequestId clientId

/-- The entries of the table only grow. -/
def NeverDecreases (r : Run kvServer) : Prop :=
  ∀ j k, j ≤ k → ∀ clientId, (r.state j).stored clientId ≤ (r.state k).stored clientId

/-- The action of moment `k` executes a Put or Append. -/
def ExecutesAt (r : Run kvServer) (k : ℕ) (op : Op) : Prop :=
  ∃ a, r.act k = some a ∧ (r.state k).executing a = some op

/-- Of the commands with one client and one request id at most one is executed. -/
def ExecutedOnce (r : Run kvServer) : Prop :=
  ∀ j k op op', ExecutesAt r j op → ExecutesAt r k op' → op.clientId = op'.clientId →
    op.requestId = op'.requestId → j = k

/-! ### The invariant -/

/-- `H` is the set of the commands executed so far. -/
structure OnceInv (H : Op → Prop) (s : KvServer) : Prop where
  executed : ∀ op, H op → (op.requestId : WithBot ℤ) ≤ s.stored op.clientId
  ordered : ∀ op ∈ s.inExecution, s.stored op.clientId ≤ (op.requestId : WithBot ℤ)
  first : ∀ op ∈ s.inExecution, ∀ op', H op' → op'.clientId = op.clientId →
    op'.requestId ≠ op.requestId

variable {H : Op → Prop} {s s' : KvServer} {a : KvAction}

/-- A step that meets the conditions lowers no entry. -/
theorem stored_le_step
    (hordered : ∀ op ∈ s.inExecution, s.stored op.clientId ≤ (op.requestId : WithBot ℤ))
    (hreads : OrderlyReads s a) (hsnapshots : NewerSnapshots s a) (h : s.step a = some s')
    (clientId : String) : s.stored clientId ≤ s'.stored clientId := by
  cases KvServer.step_store h with
  | idle _ _ htable _ _ => rw [KvServer.stored_congr htable]
  | fresh op _ _ _ _ htable _ _ => rw [KvServer.stored_congr htable]
  | pass op _ _ _ htable _ _ => rw [KvServer.stored_congr htable]
  | execute op _ _ hinExec _ htable _ _ =>
    rw [KvServer.stored_of_insert htable]
    split
    · rename_i hclient
      rw [hclient]
      exact hordered op hinExec
    · exact le_refl _
  | serve op hserving _ _ htable _ _ =>
    rw [KvServer.stored_of_insert htable]
    split
    · rename_i hclient
      rw [hclient]
      exact (hreads op hserving).1
    · exact le_refl _
  | install data hinstalling _ htable _ _ =>
    have hle := hsnapshots data hinstalling clientId
    rwa [← htable] at hle

theorem onceInv_initial : OnceInv (fun _ ↦ False) kvServer.init where
  executed := nofun
  ordered := nofun
  first := nofun

omit [Codec Op] [Codec KvData] [Codec (SkipList.Dump String String)] in
/-- A step that executes nothing, after which the command in execution is the one before, if any. -/
theorem OnceInv.keep (h : OnceInv H s) (hmono : ∀ clientId, s.stored clientId ≤ s'.stored clientId)
    (hexecuting : s.executing a = none)
    (hexec : s'.inExecution = none ∨ s'.inExecution = s.inExecution ∧
      ∀ op ∈ s.inExecution, s'.stored op.clientId ≤ (op.requestId : WithBot ℤ)) :
    OnceInv (fun op ↦ H op ∨ s.executing a = some op) s' where
  executed := by
    rintro op (hop | hop)
    · exact (h.executed op hop).trans (hmono op.clientId)
    · rw [hexecuting] at hop
      cases hop
  ordered := by
    intro op hop
    rcases hexec with hnone | ⟨hsame, hordered⟩
    · rw [hnone] at hop
      cases hop
    · exact hordered op (hsame ▸ hop)
  first := by
    rintro op hop op' (hop' | hop')
    · rcases hexec with hnone | ⟨hsame, -⟩
      · rw [hnone] at hop
        cases hop
      · exact h.first op (hsame ▸ hop) op' hop'
    · rw [hexecuting] at hop'
      cases hop'

/-- What one step preserves. -/
theorem OnceInv.step (h : OnceInv H s) (hreads : OrderlyReads s a) (hsnapshots : NewerSnapshots s a)
    (hstep : s.step a = some s') : OnceInv (fun op ↦ H op ∨ s.executing a = some op) s' := by
  have hmono := stored_le_step h.ordered hreads hsnapshots hstep
  cases KvServer.step_store hstep with
  | idle hexecuting _ htable _ hexec =>
    refine h.keep hmono hexecuting (hexec.imp_right fun hsame ↦ ⟨hsame, ?_⟩)
    rw [KvServer.stored_congr htable]
    exact h.ordered
  | fresh op _ hdup hexecuting _ htable _ hexec =>
    have hlt := KvServer.ifRequestDuplicate_eq_false_iff.mp hdup
    have hexec' : ∀ op' ∈ s'.inExecution, op' = op := by
      intro op' hop'
      rw [hexec] at hop'
      split at hop'
      · cases hop'
      · exact (Option.some.inj hop').symm
    constructor
    · rintro op' (hop' | hop')
      · exact (h.executed op' hop').trans (hmono op'.clientId)
      · rw [hexecuting] at hop'
        cases hop'
    · intro op' hop'
      rw [hexec' op' hop', KvServer.stored_congr htable]
      exact hlt.le
    · rintro op' hop' executed (hdone | hdone)
      · -- an executed command with the same ids would have made this one a duplicate
        rw [hexec' op' hop']
        intro hclient hid
        have hle := h.executed executed hdone
        rw [hclient, hid] at hle
        exact absurd hle (not_le.mpr hlt)
      · rw [hexecuting] at hdone
        cases hdone
  | pass op _ hexecuting _ _ _ hexec => exact h.keep hmono hexecuting (.inl hexec)
  | execute op _ hexecuting hinExec _ htable _ hexec =>
    constructor
    · rintro op' (hop' | hop')
      · exact (h.executed op' hop').trans (hmono op'.clientId)
      · obtain rfl : op = op' := Option.some.inj (hexecuting.symm.trans hop')
        rw [KvServer.stored_of_insert htable, if_pos rfl]
    · rw [hexec]
      nofun
    · rw [hexec]
      nofun
  | serve op hserving hexecuting _ htable _ hexec =>
    refine h.keep hmono hexecuting (.inr ⟨hexec, fun op' hop' ↦ ?_⟩)
    rw [KvServer.stored_of_insert htable]
    split
    · rename_i hclient
      exact WithBot.coe_le_coe.mpr ((hreads op hserving).2 op' hop' hclient)
    · exact h.ordered op' hop'
  | install data _ hexecuting _ _ hexec => exact h.keep hmono hexecuting (.inl hexec)

/-! ### Runs -/

/-- The commands executed before a moment. -/
def Executed (r : Run kvServer) : ℕ → Op → Prop :=
  r.Happened fun s a op ↦ s.executing a = some op

theorem onceInv_run (r : Run kvServer) (hreads : r.Obeys OrderlyReads)
    (hsnapshots : r.Obeys NewerSnapshots) (k : ℕ) : OnceInv (Executed r k) (r.state k) :=
  @Run.invariant_happened _ _ _ kvServer (fun s a op ↦ s.executing a = some op) OnceInv
    (fun s a ↦ OrderlyReads s a ∧ NewerSnapshots s a) onceInv_initial
    (fun _ _ _ _ h hok hstep ↦ h.step hok.1 hok.2 hstep) r
    (fun k a ha ↦ ⟨hreads k a ha, hsnapshots k a ha⟩) k

theorem neverDecreases (r : Run kvServer) (hreads : r.Obeys OrderlyReads)
    (hsnapshots : r.Obeys NewerSnapshots) : NeverDecreases r := by
  intro j k hjk clientId
  induction k, hjk using Nat.le_induction with
  | base => exact le_refl _
  | succ k _ ih =>
    refine ih.trans ?_
    cases ha : r.act k with
    | none => rw [r.pause k ha]
    | some a =>
      exact stored_le_step (onceInv_run r hreads hsnapshots k).ordered (hreads k a ha)
        (hsnapshots k a ha) (r.next k a ha) clientId

/-- A command is not executed after one with the same ids. -/
theorem not_executesAt_of_lt {r : Run kvServer} (hreads : r.Obeys OrderlyReads)
    (hsnapshots : r.Obeys NewerSnapshots) {j k : ℕ} {op op' : Op} (hj : ExecutesAt r j op)
    (hjk : j < k) (hclient : op.clientId = op'.clientId) (hid : op.requestId = op'.requestId) :
    ¬ ExecutesAt r k op' := by
  rintro ⟨a', -, hexecuting'⟩
  obtain ⟨a, ha, hexecuting⟩ := hj
  exact (onceInv_run r hreads hsnapshots k).first op'
    (KvServer.inExecution_of_executing hexecuting') op ⟨j, hjk, a, ha, hexecuting⟩ hclient hid

/-- Exactly-once execution. In every run in which no read and no snapshot lowers an entry of the
table, the entries never decrease, and of the Puts and Appends with one client and one request id at
most one is executed. -/
theorem exactlyOnce (r : Run kvServer) (hreads : r.Obeys OrderlyReads)
    (hsnapshots : r.Obeys NewerSnapshots) : NeverDecreases r ∧ ExecutedOnce r := by
  refine ⟨neverDecreases r hreads hsnapshots, fun j k op op' hj hk hclient hid ↦ ?_⟩
  rcases lt_trichotomy j k with hlt | heq | hgt
  · exact absurd hk (not_executesAt_of_lt hreads hsnapshots hj hlt hclient hid)
  · exact heq
  · exact absurd hj (not_executesAt_of_lt hreads hsnapshots hk hgt hclient.symm hid.symm)

end Runs

/-! ### A read that comes late -/

section Examples

open scoped Archive

/-- The iteration of the loop for a command that is executed. -/
def iteration : List KvAction :=
  List.replicate 5 .loop

def readRequest : Request :=
  .get { key := "x", clientId := "c", requestId := 1 }

def writeRequest : Request :=
  .putAppend { key := "x", value := "v", op := .put, clientId := "c", requestId := 2 }

/-- A client reads and then writes; its first attempt to write times out and it tries again. The
handler of the read has its command, and executes it after the first of the two writes. -/
def lateRead : List KvAction :=
  [KvAction.rpc readRequest (some 1), .handler 0, .deliver (commandMessage readRequest.op 1)] ++
  iteration ++
  [KvAction.handler 0, .rpc writeRequest (some 2), .handler 1, .timeOut 1 true, .handler 1,
    .handler 1, .rpc writeRequest (some 3), .handler 2, .deliver (commandMessage writeRequest.op 2)] ++
  iteration ++
  [KvAction.handler 0, .deliver (commandMessage writeRequest.op 3)] ++ iteration

def lateReadRun : Run kvServer :=
  Run.ofActions kvServer lateRead (by decide +kernel)

/-- The same requests, with the read executed before the write is committed. -/
def earlyRead : List KvAction :=
  [KvAction.rpc readRequest (some 1), .handler 0, .deliver (commandMessage readRequest.op 1)] ++
  iteration ++
  [KvAction.handler 0, .handler 0, .rpc writeRequest (some 2), .handler 1, .timeOut 1 true,
    .handler 1, .handler 1, .rpc writeRequest (some 3), .handler 2,
    .deliver (commandMessage writeRequest.op 2)] ++ iteration ++
  [KvAction.deliver (commandMessage writeRequest.op 3), .loop, .loop, .loop, .loop, .handler 2,
    .handler 2]

def earlyReadRun : Run kvServer :=
  Run.ofActions kvServer earlyRead (by decide +kernel)

theorem earlyReadRun_orderlyReads : earlyReadRun.Obeys OrderlyReads := by
  rw [earlyReadRun, Run.obeys_ofActions_iff]
  decide +kernel

theorem earlyReadRun_newerSnapshots : earlyReadRun.Obeys NewerSnapshots := by
  have hnone : earlyReadRun.Obeys fun s a ↦ (s.installing a).isNone := by
    rw [earlyReadRun, Run.obeys_ofActions_iff]
    decide +kernel
  intro k a ha data hdata
  have hk : ((earlyReadRun.state k).installing a).isNone := hnone k a ha
  rw [Option.mem_def.mp hdata] at hk
  cases hk

theorem lateReadRun_executesAt (k : ℕ) (hk : k = 19 ∨ k = 26) :
    ExecutesAt lateReadRun k writeRequest.op := by
  rcases hk with rfl | rfl
  · exact ⟨.loop, by decide +kernel, by decide +kernel⟩
  · exact ⟨.loop, by decide +kernel, by decide +kernel⟩

/-- The entry of the client goes from 2 back to 1, and the write is executed twice. -/
theorem exactlyOnce_lateRead : ∃ r : Run kvServer, ¬ NeverDecreases r ∧ ¬ ExecutedOnce r := by
  refine ⟨lateReadRun, fun h ↦ ?_, fun h ↦ ?_⟩
  · have hlt : ¬ (lateReadRun.state 22).stored "c" ≤ (lateReadRun.state 23).stored "c" := by
      decide +kernel
    exact hlt (h 22 23 (by decide) "c")
  · have htwice : 19 = 26 := h 19 26 _ _ (lateReadRun_executesAt 19 (.inl rfl))
      (lateReadRun_executesAt 26 (.inr rfl)) rfl rfl
    exact absurd htwice (by decide)

theorem exactlyOnce_earlyRead : NeverDecreases earlyReadRun ∧ ExecutedOnce earlyReadRun :=
  exactlyOnce earlyReadRun earlyReadRun_orderlyReads earlyReadRun_newerSnapshots

end Examples

end Rsylar
