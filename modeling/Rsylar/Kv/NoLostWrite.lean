import Rsylar.Kv.Acknowledgement
import Rsylar.Kv.Archive
import Rsylar.Kv.Clerk

/-!
# No acknowledged write is lost

A call of `Clerk::PutAppend` returns when a server has answered OK, and behind such an answer stands
a request of the same client id with this request id or a later one. If the client id is the clerk's
own, it can only be the request itself (`noLostWrite`). But two processes draw the same client ids:
in `sameUuidRun` the server takes the first write of one clerk for a repetition of the first write
of the other one.
-/

set_option autoImplicit false
set_option relaxedAutoImplicit false

namespace Rsylar

open TextArchive TransitionSystem

variable {m : ℕ}

/-! ### What happens in a step -/

/-- A clerk sends the first request of a call, a server executes a Put or Append, or it serves a
read. -/
inductive ClerkEvent (m : ℕ)
  | issued (c : ℕ) (op : Op)
  | executed (i : Fin (m + 1)) (op : Op)
  | served (i : Fin (m + 1)) (op : Op)

namespace ClerkSystem

/-- The command of the call that begins. -/
def issuing (s : ClerkSystem m) : ClerkAction m → Option (ℕ × Op)
  | .call c call => s.clerks[c]?.map fun clerk ↦
      (c, (call.request clerk.clientId (clerk.requestId + 1)).op)
  | _ => none

def executing (s : ClerkSystem m) (a : ClerkAction m) : Option (Fin (m + 1) × Op) :=
  a.serverAction.bind fun (i, b) ↦ ((s.servers i).executing b).map fun op ↦ (i, op)

def serving (s : ClerkSystem m) (a : ClerkAction m) : Option (Fin (m + 1) × Op) :=
  a.serverAction.bind fun (i, b) ↦ ((s.servers i).serving b).map fun op ↦ (i, op)

def checking (s : ClerkSystem m) (a : ClerkAction m) : Option (Fin (m + 1) × Op) :=
  a.serverAction.bind fun (i, b) ↦ ((s.servers i).checking b).map fun op ↦ (i, op)

/-- The clerk whose call returns and the request that was answered. -/
def returning (s : ClerkSystem m) : ClerkAction m → Option (ℕ × Request)
  | .reply c => do
    let clerk ← s.clerks[c]?
    let call ← clerk.pending
    let reply ← s.replyTo call
    if (call.request.retryServer call.server reply).isNone then some (c, call.request) else none
  | _ => none

theorem returning_eq_some {s : ClerkSystem m} {a : ClerkAction m} {c : ℕ} {request : Request}
    (h : s.returning a = some (c, request)) : ∃ clerk call reply, s.clerks[c]? = some clerk ∧
      clerk.pending = some call ∧ s.replyTo call = some reply ∧
      call.request.retryServer call.server reply = none ∧ call.request = request := by
  cases a with
  | reply c' =>
    simp only [returning, Option.bind_eq_bind, Option.bind_eq_some_iff] at h
    obtain ⟨clerk, hclerk, call, hcall, reply, hreply, hdone⟩ := h
    split at hdone
    · rename_i hretry
      cases hdone
      exact ⟨clerk, call, reply, hclerk, hcall, hreply, Option.isNone_iff_eq_none.mp hretry, rfl⟩
    · cases hdone
  | _ => cases h

def Happens (s : ClerkSystem m) (a : ClerkAction m) : ClerkEvent m → Prop
  | .issued c op => s.issuing a = some (c, op)
  | .executed i op => s.executing a = some (i, op)
  | .served i op => s.serving a = some (i, op)

/-- A clerk that begins a call shares its client id with no clerk that has called before. -/
def OwnId (s : ClerkSystem m) (a : ClerkAction m) : Prop :=
  ∀ call ∈ s.issuing a, ∀ c < s.clerks.length, ∀ clerk ∈ s.clerks[c]?, c ≠ call.1 →
    clerk.clientId = call.2.clientId → clerk.requestId = 0

instance : DecidableRel (@OwnId m) := fun s a ↦ by
  unfold OwnId
  infer_instance

end ClerkSystem

/-! ### The invariants -/

variable {H H' : ClerkEvent m → Prop} {clerks : List (Clerk m)} {s s' : ClerkSystem m}
  {a : ClerkAction m}

def Issued (H : ClerkEvent m → Prop) (op : Op) : Prop :=
  ∃ c, H (.issued c op)

def Touched (H : ClerkEvent m → Prop) (i : Fin (m + 1)) (op : Op) : Prop :=
  H (.executed i op) ∨ H (.served i op)

/-- The clerks and the commands they have issued. -/
structure ClerksInv (H : ClerkEvent m → Prop) (clerks : List (Clerk m)) : Prop where
  nonneg : ∀ (c : ℕ) (clerk : Clerk m), clerks[c]? = some clerk → 0 ≤ clerk.requestId
  issued : ∀ (c : ℕ) (op : Op), H (.issued c op) → ∃ clerk : Clerk m, clerks[c]? = some clerk ∧
    op.clientId = clerk.clientId ∧ 0 < op.requestId ∧ op.requestId ≤ clerk.requestId
  sameCall : ∀ (c : ℕ) (op op' : Op), H (.issued c op) → H (.issued c op') →
    op.requestId = op'.requestId → op = op'
  distinct : ∀ (c c' : ℕ) (clerk clerk' : Clerk m), clerks[c]? = some clerk →
    clerks[c']? = some clerk' → clerk.clientId = clerk'.clientId → clerk.requestId ≠ 0 →
    clerk'.requestId ≠ 0 → c = c'
  pending : ∀ (c : ℕ) (clerk : Clerk m) (call : PendingCall m), clerks[c]? = some clerk →
    clerk.pending = some call →
      H (.issued c call.request.op) ∧ call.request.op.requestId = clerk.requestId

/-- The requests and the handlers that have taken them. -/
structure RpcsInv (H : ClerkEvent m → Prop) (s : ClerkSystem m) : Prop where
  issued : ∀ rpc ∈ s.rpcs, Issued H rpc.request.op
  sent : ∀ (c : ℕ) (clerk : Clerk m) (call : PendingCall m), s.clerks[c]? = some clerk →
    clerk.pending = some call → ∃ rpc : Rpc m, s.rpcs[call.rpc]? = some rpc ∧
      rpc.request = call.request ∧ rpc.server = call.server
  taken : ∀ rpc ∈ s.rpcs, ∀ h, rpc.handler = some h → ∃ handler : Handler,
    (s.servers rpc.server).handlers[h]? = some handler ∧ handler.request = rpc.request

theorem getElem?_set_of_some {α : Type} {l : List α} {c : ℕ} {x : α} (h : l[c]? = some x) (y : α)
    (c' : ℕ) : (l.set c y)[c']? = if c' = c then some y else l[c']? := by
  by_cases hc : c' = c
  · subst hc
    rw [if_pos rfl, List.getElem?_set_self (List.getElem?_eq_some_iff.mp h).1]
  · rw [if_neg hc, List.getElem?_set_ne (Ne.symm hc)]

theorem getElem?_concat_eq_some {α : Type} {l : List α} {x y : α} {c : ℕ}
    (h : (l ++ [x])[c]? = some y) : l[c]? = some y ∨ y = x := by
  rcases Nat.lt_or_ge c l.length with hlt | hge
  · exact .inl ((List.getElem?_append_left hlt).symm.trans h)
  · rw [List.getElem?_append_right hge] at h
    exact .inr (List.mem_singleton.mp (List.mem_of_getElem? h))

theorem getElem?_append_of_some {α : Type} {l : List α} {x : α} {c : ℕ} (h : l[c]? = some x)
    (l' : List α) : (l ++ l')[c]? = some x :=
  (List.getElem?_append_left (List.getElem?_eq_some_iff.mp h).1).trans h

namespace ClerksInv

/-- A client id and a request id belong to one command, and the command to one clerk. -/
theorem unique (h : ClerksInv H clerks) {c c' : ℕ} {op op' : Op} (hop : H (.issued c op))
    (hop' : H (.issued c' op')) (hclient : op.clientId = op'.clientId) :
    c = c' ∧ (op.requestId = op'.requestId → op = op') := by
  obtain ⟨clerk, hclerk, hid, hpos, hle⟩ := h.issued c op hop
  obtain ⟨clerk', hclerk', hid', hpos', hle'⟩ := h.issued c' op' hop'
  obtain rfl : c = c' := h.distinct c c' clerk clerk' hclerk hclerk'
    (hid.symm.trans (hclient.trans hid')) (by omega) (by omega)
  exact ⟨rfl, h.sameCall c op op' hop hop'⟩

/-- Only the issued commands count. -/
theorem congr (h : ClerksInv H clerks) (hsame : ∀ c op, H' (.issued c op) ↔ H (.issued c op)) :
    ClerksInv H' clerks where
  nonneg := h.nonneg
  issued c op hop := h.issued c op ((hsame c op).mp hop)
  sameCall c op op' hop hop' := h.sameCall c op op' ((hsame c op).mp hop) ((hsame c op').mp hop')
  distinct := h.distinct
  pending c clerk call hclerk hcall :=
    ⟨(hsame _ _).mpr (h.pending c clerk call hclerk hcall).1, (h.pending c clerk call hclerk hcall).2⟩

/-- A clerk is made. -/
theorem append (h : ClerksInv H clerks) (clientId : String) :
    ClerksInv H (clerks ++ [{ clientId := clientId }]) where
  nonneg := by
    intro c clerk hclerk
    rcases getElem?_concat_eq_some hclerk with hold | rfl
    · exact h.nonneg c clerk hold
    · exact le_refl _
  issued := by
    intro c op hop
    obtain ⟨clerk, hclerk, hrest⟩ := h.issued c op hop
    exact ⟨clerk, getElem?_append_of_some hclerk _, hrest⟩
  sameCall := h.sameCall
  distinct := by
    intro c c' clerk clerk' hclerk hclerk' hclient hid hid'
    rcases getElem?_concat_eq_some hclerk with hold | rfl
    · rcases getElem?_concat_eq_some hclerk' with hold' | rfl
      · exact h.distinct c c' clerk clerk' hold hold' hclient hid hid'
      · exact absurd rfl hid'
    · exact absurd rfl hid
  pending := by
    intro c clerk call hclerk hcall
    rcases getElem?_concat_eq_some hclerk with hold | rfl
    · exact h.pending c clerk call hold hcall
    · cases hcall

/-- A clerk goes on with its call or ends it. -/
theorem set (h : ClerksInv H clerks) {c : ℕ} {clerk clerk' : Clerk m}
    (hclerk : clerks[c]? = some clerk) (hclient : clerk'.clientId = clerk.clientId)
    (hid : clerk'.requestId = clerk.requestId)
    (hpending : ∀ call, clerk'.pending = some call →
      H (.issued c call.request.op) ∧ call.request.op.requestId = clerk.requestId) :
    ClerksInv H (clerks.set c clerk') := by
  have hget := getElem?_set_of_some hclerk clerk'
  have hold : ∀ (c' : ℕ) (new : Clerk m), (clerks.set c clerk')[c']? = some new →
      ∃ old : Clerk m, clerks[c']? = some old ∧ new.clientId = old.clientId ∧
        new.requestId = old.requestId := by
    intro c' new hnew
    rw [hget] at hnew
    split at hnew
    · rename_i hc
      cases hnew
      exact ⟨clerk, hc ▸ hclerk, hclient, hid⟩
    · exact ⟨new, hnew, rfl, rfl⟩
  constructor
  · intro c' new hnew
    obtain ⟨old, holdc, -, hsame⟩ := hold c' new hnew
    rw [hsame]
    exact h.nonneg c' old holdc
  · intro c' op hop
    obtain ⟨old, holdc, hrest⟩ := h.issued c' op hop
    by_cases hc : c' = c
    · subst hc
      obtain rfl : clerk = old := Option.some.inj (hclerk.symm.trans holdc)
      exact ⟨clerk', (hget c').trans (if_pos rfl), by rw [hclient, hid]; exact hrest⟩
    · exact ⟨old, ((hget c').trans (if_neg hc)).trans holdc, hrest⟩
  · exact h.sameCall
  · intro c' c'' new new' hnew hnew' hsame hne hne'
    obtain ⟨old, holdc, hcl, hi⟩ := hold c' new hnew
    obtain ⟨old', holdc', hcl', hi'⟩ := hold c'' new' hnew'
    exact h.distinct c' c'' old old' holdc holdc' (hcl.symm.trans (hsame.trans hcl'))
      (hi ▸ hne) (hi' ▸ hne')
  · intro c' new call hnew hcall
    rw [hget] at hnew
    split at hnew
    · rename_i hc
      cases hnew
      subst hc
      rw [hid]
      exact hpending call hcall
    · exact h.pending c' new call hnew hcall

/-- A clerk begins a call, under an id that no other caller has. -/
theorem begin (h : ClerksInv H clerks) {c : ℕ} {clerk clerk' : Clerk m} {op : Op}
    (hclerk : clerks[c]? = some clerk) (hclient : clerk'.clientId = clerk.clientId)
    (hid : clerk'.requestId = clerk.requestId + 1) (hop : op.clientId = clerk.clientId)
    (hrequest : op.requestId = clerk.requestId + 1)
    (hown : ∀ (c' : ℕ) (other : Clerk m), clerks[c']? = some other → c' ≠ c →
      other.clientId = clerk.clientId → other.requestId = 0)
    (hpending : ∀ call, clerk'.pending = some call → call.request.op = op)
    (hissued : ∀ c' op', H' (.issued c' op') ↔ H (.issued c' op') ∨ c' = c ∧ op' = op) :
    ClerksInv H' (clerks.set c clerk') := by
  have hget := getElem?_set_of_some hclerk clerk'
  have hself : (clerks.set c clerk')[c]? = some clerk' := (hget c).trans (if_pos rfl)
  have hother : ∀ c', c' ≠ c → (clerks.set c clerk')[c']? = clerks[c']? := fun c' hc ↦
    (hget c').trans (if_neg hc)
  have hnonneg := h.nonneg c clerk hclerk
  have hbefore : ∀ op', H (.issued c op') → op'.requestId ≤ clerk.requestId := by
    intro op' hop'
    obtain ⟨old, hold, -, -, hle⟩ := h.issued c op' hop'
    obtain rfl : clerk = old := Option.some.inj (hclerk.symm.trans hold)
    exact hle
  constructor
  · intro c' new hnew
    by_cases hc : c' = c
    · subst hc
      obtain rfl : clerk' = new := Option.some.inj (hself.symm.trans hnew)
      omega
    · exact h.nonneg c' new ((hother c' hc).symm.trans hnew)
  · intro c' op' hop'
    rcases (hissued c' op').mp hop' with hold | ⟨rfl, rfl⟩
    · obtain ⟨old, holdc, hcl, hpos, hle⟩ := h.issued c' op' hold
      by_cases hc : c' = c
      · subst hc
        obtain rfl : clerk = old := Option.some.inj (hclerk.symm.trans holdc)
        exact ⟨clerk', hself, hcl.trans hclient.symm, hpos, by omega⟩
      · exact ⟨old, (hother c' hc).trans holdc, hcl, hpos, hle⟩
    · exact ⟨clerk', hself, hop.trans hclient.symm, by omega, by omega⟩
  · intro c' op' op'' hop' hop'' hsame
    rcases (hissued c' op').mp hop' with hold | ⟨rfl, rfl⟩
    · rcases (hissued c' op'').mp hop'' with hold' | ⟨rfl, rfl⟩
      · exact h.sameCall c' op' op'' hold hold' hsame
      · have hle := hbefore op' hold
        omega
    · rcases (hissued c' op'').mp hop'' with hold' | ⟨-, rfl⟩
      · have hle := hbefore op'' hold'
        omega
      · rfl
  · intro c' c'' new new' hnew hnew' hsame hne hne'
    by_cases hc : c' = c
    · by_cases hc' : c'' = c
      · exact hc.trans hc'.symm
      · subst hc
        obtain rfl : clerk' = new := Option.some.inj (hself.symm.trans hnew)
        exact absurd (hown c'' new' ((hother c'' hc').symm.trans hnew') hc'
          (hsame.symm.trans hclient)) hne'
    · by_cases hc' : c'' = c
      · subst hc'
        obtain rfl : clerk' = new' := Option.some.inj (hself.symm.trans hnew')
        exact absurd (hown c' new ((hother c' hc).symm.trans hnew) hc
          (hsame.trans hclient)) hne
      · exact h.distinct c' c'' new new' ((hother c' hc).symm.trans hnew)
          ((hother c'' hc').symm.trans hnew') hsame hne hne'
  · intro c' new call hnew hcall
    by_cases hc : c' = c
    · subst hc
      obtain rfl : clerk' = new := Option.some.inj (hself.symm.trans hnew)
      rw [hpending call hcall]
      exact ⟨(hissued c' op).mpr (.inr ⟨rfl, rfl⟩), by omega⟩
    · obtain ⟨hop', hid'⟩ := h.pending c' new call ((hother c' hc).symm.trans hnew) hcall
      exact ⟨(hissued c' _).mpr (.inl hop'), hid'⟩

end ClerksInv

namespace RpcsInv

/-- More commands are issued. -/
theorem mono (h : RpcsInv H s) (hmono : ∀ c op, H (.issued c op) → H' (.issued c op)) :
    RpcsInv H' s where
  issued rpc hrpc := (h.issued rpc hrpc).imp fun c hop ↦ hmono c _ hop
  sent := h.sent
  taken := h.taken

/-- The call of a clerk sends a request. -/
theorem send (h : RpcsInv H s) {c : ℕ} {clerk clerk' : Clerk m} {request : Request}
    (hclerk : s.clerks[c]? = some clerk) (hissued : Issued H request.op) (server : Fin (m + 1)) :
    RpcsInv H (s.send c clerk' request server) where
  issued := by
    intro rpc hrpc
    rcases List.mem_append.mp hrpc with hold | hnew
    · exact h.issued rpc hold
    · rw [List.mem_singleton.mp hnew]
      exact hissued
  sent := by
    intro c' new call hnew hcall
    by_cases hc : c' = c
    · subst hc
      have heq := (getElem?_set_of_some hclerk _ c').symm.trans hnew
      rw [if_pos rfl] at heq
      cases heq
      cases hcall
      exact ⟨_, List.getElem?_concat_length, rfl, rfl⟩
    · have hold := (getElem?_set_of_some hclerk _ c').symm.trans hnew
      rw [if_neg hc] at hold
      obtain ⟨rpc, hrpc, hsame⟩ := h.sent c' new call hold hcall
      exact ⟨rpc, getElem?_append_of_some hrpc _, hsame⟩
  taken := by
    intro rpc hrpc
    rcases List.mem_append.mp hrpc with hold | hnew
    · exact h.taken rpc hold
    · rw [List.mem_singleton.mp hnew]
      nofun

/-- The call of a clerk returns. -/
theorem finish (h : RpcsInv H s) {c : ℕ} {clerk clerk' : Clerk m}
    (hclerk : s.clerks[c]? = some clerk) (server : Fin (m + 1)) (reply : Reply) :
    RpcsInv H (s.finish c clerk' server reply) where
  issued := h.issued
  sent := by
    intro c' new call hnew hcall
    have heq := (getElem?_set_of_some hclerk _ c').symm.trans hnew
    split at heq
    · cases heq
      cases hcall
    · exact h.sent c' new call heq hcall
  taken := h.taken

/-- A clerk is made. -/
theorem append (h : RpcsInv H s) (clientId : String) (drawn : ℕ → ℕ) :
    RpcsInv H { s with drawn := drawn, clerks := s.clerks ++ [{ clientId := clientId }] } where
  issued := h.issued
  sent := by
    intro c clerk call hclerk hcall
    rcases getElem?_concat_eq_some hclerk with hold | rfl
    · exact h.sent c clerk call hold hcall
    · cases hcall
  taken := h.taken

variable [Codec Op] [Codec KvData] [Codec (SkipList.Dump String String)]

/-- A server takes a step. -/
theorem setServer (h : RpcsInv H s) {i : Fin (m + 1)} {b : KvAction} {server : KvServer}
    (hserver : (s.servers i).step b = some server) : RpcsInv H (s.setServer i server) where
  issued := h.issued
  sent := h.sent
  taken := by
    intro rpc hrpc k hk
    obtain ⟨handler, hhandler, hrequest⟩ := h.taken rpc hrpc k hk
    by_cases hi : rpc.server = i
    · subst hi
      obtain ⟨handler', hhandler', hsame⟩ := KvServer.handlers_step hserver hhandler
      exact ⟨handler', by simpa [ClerkSystem.setServer] using hhandler', hsame.trans hrequest⟩
    · exact ⟨handler, by simpa [ClerkSystem.setServer, hi] using hhandler, hrequest⟩

/-- A request gets a handler. -/
theorem takeRpc (h : RpcsInv H s) {k : ℕ} {rpc : Rpc m} {start : Option ℤ} {server : KvServer}
    (hrpc : s.rpcs[k]? = some rpc)
    (hserver : (s.servers rpc.server).step (.rpc rpc.request start) = some server) :
    RpcsInv H (s.takeRpc k rpc start server) := by
  have hset := h.setServer hserver
  have hget := getElem?_set_of_some hrpc
    ({ rpc with handler := (s.servers rpc.server).handlers.length } : Rpc m)
  constructor
  · intro rpc' hmem
    rcases List.mem_or_eq_of_mem_set hmem with hold | rfl
    · exact h.issued rpc' hold
    · exact h.issued rpc (List.mem_of_getElem? hrpc)
  · intro c clerk call hclerk hcall
    obtain ⟨rpc', hrpc', hsame⟩ := h.sent c clerk call hclerk hcall
    by_cases hk : call.rpc = k
    · subst hk
      obtain rfl : rpc = rpc' := Option.some.inj (hrpc.symm.trans hrpc')
      exact ⟨_, (hget _).trans (if_pos rfl), hsame⟩
    · exact ⟨rpc', ((hget _).trans (if_neg hk)).trans hrpc', hsame⟩
  · intro rpc' hmem j hj
    rcases List.mem_or_eq_of_mem_set hmem with hold | rfl
    · exact hset.taken rpc' hold j hj
    · cases hj
      refine ⟨Handler.begin rpc.request start, ?_, by cases start <;> rfl⟩
      have hnew : server.handlers[(s.servers rpc.server).handlers.length]? =
          some (Handler.begin rpc.request start) := by
        rw [KvServer.handlers_of_rpc hserver, List.getElem?_concat_length]
      simpa [ClerkSystem.takeRpc, ClerkSystem.setServer] using hnew

end RpcsInv

/-! ### Events of a step -/

/-- What has happened after a step. -/
def After (H : ClerkEvent m → Prop) (s : ClerkSystem m) (a : ClerkAction m)
    (e : ClerkEvent m) : Prop :=
  H e ∨ s.Happens a e

theorem after_of_quiet (hissuing : s.issuing a = none) (hact : a.serverAction = none) :
    After H s a = H := by
  funext e
  refine propext (or_iff_left ?_)
  cases e with
  | issued c op => simp [ClerkSystem.Happens, hissuing]
  | executed i op => simp [ClerkSystem.Happens, ClerkSystem.executing, hact]
  | served i op => simp [ClerkSystem.Happens, ClerkSystem.serving, hact]

theorem touched_of_no_server (hact : a.serverAction = none) (i : Fin (m + 1)) (op : Op) :
    Touched (After H s a) i op ↔ Touched H i op := by
  simp [Touched, After, ClerkSystem.Happens, ClerkSystem.executing, ClerkSystem.serving, hact]

section Server

variable {i j : Fin (m + 1)} {b : KvAction} {op : Op}

theorem internal_of_server (hact : a.serverAction = some (i, b)) :
    (∀ message, b ≠ .deliver message) ∧ ∀ request start, b ≠ .rpc request start := by
  cases a <;> cases hact <;> exact ⟨fun _ ↦ KvAction.noConfusion, fun _ _ ↦ KvAction.noConfusion⟩

theorem issued_of_server (hact : a.serverAction = some (i, b)) (c : ℕ) (op : Op) :
    After H s a (.issued c op) ↔ H (.issued c op) := by
  refine or_iff_left ?_
  cases a <;> cases hact <;> simp [ClerkSystem.Happens, ClerkSystem.issuing]

theorem happens_executed_iff (hact : a.serverAction = some (i, b)) :
    s.Happens a (.executed j op) ↔ i = j ∧ (s.servers i).executing b = some op := by
  simp [ClerkSystem.Happens, ClerkSystem.executing, hact, and_comm]

theorem happens_served_iff (hact : a.serverAction = some (i, b)) :
    s.Happens a (.served j op) ↔ i = j ∧ (s.servers i).serving b = some op := by
  simp [ClerkSystem.Happens, ClerkSystem.serving, hact, and_comm]

theorem touched_of_server (hact : a.serverAction = some (i, b)) :
    Touched (After H s a) j op ↔ Touched H j op ∨
      i = j ∧ ((s.servers i).executing b = some op ∨ (s.servers i).serving b = some op) := by
  unfold Touched After
  rw [happens_executed_iff hact, happens_served_iff hact, and_or_left, or_or_or_comm]

end Server

/-! ### The invariant of the system -/

section Archives

variable [Codec Op]

structure ClerkInv (H : ClerkEvent m → Prop) (s : ClerkSystem m) : Prop where
  clerks : ClerksInv H s.clerks
  rpcs : RpcsInv H s
  started : ∀ op ∈ s.started, Issued H op
  committed : ∀ op ∈ s.committed, Issued H op
  servers : ∀ i, KvServerInv (Issued H) (Touched H i) (s.servers i)
  touched : ∀ i op, Touched H i op → Issued H op
  served : ∀ i op, H (.served i op) → op.operation = .get

namespace ClerkInv

theorem initial : ClerkInv (fun _ ↦ False) ({} : ClerkSystem m) where
  clerks := {
    nonneg := fun _ _ hclerk ↦ absurd hclerk (by simp)
    issued := fun _ _ ↦ False.elim
    sameCall := fun _ _ _ ↦ False.elim
    distinct := fun _ _ _ _ hclerk ↦ absurd hclerk (by simp)
    pending := fun _ _ _ hclerk ↦ absurd hclerk (by simp) }
  rpcs := {
    issued := fun _ hrpc ↦ absurd hrpc List.not_mem_nil
    sent := fun _ _ _ hclerk ↦ absurd hclerk (by simp)
    taken := fun _ hrpc ↦ absurd hrpc List.not_mem_nil }
  started := fun _ hop ↦ absurd hop List.not_mem_nil
  committed := fun _ hop ↦ absurd hop List.not_mem_nil
  servers := fun _ ↦ KvServerInv.initial
  touched := fun _ _ hop ↦ hop.elim False.elim False.elim
  served := fun _ _ ↦ False.elim

theorem unique (h : ClerkInv H s) {op op' : Op} (hop : Issued H op) (hop' : Issued H op')
    (hclient : op.clientId = op'.clientId) (hid : op.requestId = op'.requestId) : op = op' := by
  obtain ⟨c, hc⟩ := hop
  obtain ⟨c', hc'⟩ := hop'
  exact (h.clerks.unique hc hc' hclient).2 hid

/-- The handler that has answered a call. -/
theorem handler_of_replyTo (h : ClerkInv H s) {c : ℕ} {clerk : Clerk m} {call : PendingCall m}
    {reply : Reply} (hclerk : s.clerks[c]? = some clerk) (hcall : clerk.pending = some call)
    (hreply : s.replyTo call = some reply) :
    ∃ handler ∈ (s.servers call.server).handlers, handler.request = call.request ∧
      handler.state = .returned reply := by
  obtain ⟨rpc, k, handler, hrpc, hk, hhandler, hstate⟩ := ClerkSystem.replyTo_eq_some hreply
  obtain ⟨rpc', hrpc', hrequest, hserver⟩ := h.rpcs.sent c clerk call hclerk hcall
  obtain rfl : rpc = rpc' := Option.some.inj (hrpc.symm.trans hrpc')
  obtain ⟨handler', hhandler', hsame⟩ := h.rpcs.taken rpc (List.mem_of_getElem? hrpc) k hk
  rw [hserver] at hhandler'
  obtain rfl : handler = handler' := Option.some.inj (hhandler.symm.trans hhandler')
  exact ⟨handler, List.mem_of_getElem? hhandler, hsame.trans hrequest, hstate⟩

/-- Behind the answer to a Put or Append stands its execution. -/
theorem executed_of_replyTo (h : ClerkInv H s) {c : ℕ} {clerk : Clerk m} {call : PendingCall m}
    {reply : Reply} (hclerk : s.clerks[c]? = some clerk) (hcall : clerk.pending = some call)
    (hreply : s.replyTo call = some reply) (hok : reply.err = .ok)
    (hop : call.request.op.operation ≠ .get) : H (.executed call.server call.request.op) := by
  obtain ⟨handler, hmem, hrequest, hstate⟩ := h.handler_of_replyTo hclerk hcall hreply
  have hinv := ((h.servers call.server).handlers handler hmem).state
  rw [hstate, hrequest] at hinv
  -- the touched request has the id of the call at least, and the clerk has issued no later one
  obtain ⟨op', htouched, hclient, hle⟩ := hinv hok hop
  obtain ⟨hissued, hid⟩ := h.clerks.pending c clerk call hclerk hcall
  obtain ⟨c', hissued'⟩ := h.touched call.server op' htouched
  obtain ⟨rfl, hunique⟩ := h.clerks.unique hissued' hissued hclient
  obtain ⟨clerk', hclerk', -, -, hle'⟩ := h.clerks.issued c' op' hissued'
  obtain rfl : clerk = clerk' := Option.some.inj (hclerk.symm.trans hclerk')
  obtain rfl := hunique (by omega)
  rcases htouched with hexecuted | hserved
  · exact hexecuted
  · exact absurd (h.served _ _ hserved) hop

/-- What makes a command of a clerk a duplicate is a command of this clerk. -/
theorem own_of_duplicate (h : ClerkInv H s) {i : Fin (m + 1)} {c : ℕ} {op : Op}
    (hop : H (.issued c op))
    (hdup : (s.servers i).ifRequestDuplicate op.clientId op.requestId = true) :
    ∃ op', Touched H i op' ∧ op'.clientId = op.clientId ∧
      (s.servers i).stored op.clientId = (op'.requestId : WithBot ℤ) ∧
      ∀ c', H (.issued c' op') ↔ c' = c := by
  obtain ⟨op', htouched, hclient, hstored⟩ := (h.servers i).table.of_duplicate hdup
  obtain ⟨c₀, hissued⟩ := h.touched i op' htouched
  obtain ⟨rfl, -⟩ := h.clerks.unique hissued hop hclient
  refine ⟨op', htouched, hclient, hstored, fun c' ↦ ⟨fun hissued' ↦ ?_, ?_⟩⟩
  · exact (h.clerks.unique hissued' hissued rfl).1
  · rintro rfl
    exact hissued

variable [Codec KvData] [Codec (SkipList.Dump String String)] {rand : ℕ → ℕ}

/-- A step of a server that executes and serves nothing. -/
theorem servers_quiet (h : ClerkInv H s) {i : Fin (m + 1)} {b : KvAction} {server : KvServer}
    (hexecuting : (s.servers i).executing b = none) (hserving : (s.servers i).serving b = none)
    (hdeliver : ∀ message, b = .deliver message →
      ∃ op index, Issued H op ∧ message = commandMessage op index)
    (hrpc : ∀ request start, b = .rpc request start → Issued H request.op)
    (hserver : (s.servers i).step b = some server) (j : Fin (m + 1)) :
    KvServerInv (Issued H) (Touched H j) ((s.setServer i server).servers j) := by
  by_cases hj : j = i
  · subst hj
    have hstep := (h.servers j).step (fun op op' ↦ h.unique) hdeliver hrpc hserver
    simp only [ClerkSystem.setServer, Function.update_self]
    refine hstep.mono (fun _ hop ↦ hop) fun op hop ↦ ?_
    rcases hop with hold | hexec | hserve
    · exact hold
    · rw [hexecuting] at hexec
      cases hexec
    · rw [hserving] at hserve
      cases hserve
  · simpa [ClerkSystem.setServer, hj] using h.servers j

/-- What one step preserves. -/
theorem step (h : ClerkInv H s) (hown : s.OwnId a) (hstep : s.step rand a = some s') :
    ClerkInv (After H s a) s' := by
  cases ClerkSystem.step_cases hstep with
  | rand process =>
    rw [after_of_quiet rfl rfl]
    exact ⟨h.clerks, ⟨h.rpcs.issued, h.rpcs.sent, h.rpcs.taken⟩, h.started, h.committed, h.servers,
      h.touched, h.served⟩
  | newClerk process =>
    rw [after_of_quiet rfl rfl]
    exact ⟨h.clerks.append _, h.rpcs.append _ _, h.started, h.committed, h.servers, h.touched,
      h.served⟩
  | call c call clerk hclerk =>
    obtain ⟨hclient, hid⟩ := call.request_ids clerk.clientId (clerk.requestId + 1)
    have hissuing : s.issuing (.call c call) =
        some (c, (call.request clerk.clientId (clerk.requestId + 1)).op) := by
      simp [ClerkSystem.issuing, hclerk]
    have hsame : ∀ c' op', After H s (.call c call) (.issued c' op') ↔ H (.issued c' op') ∨
        c' = c ∧ op' = (call.request clerk.clientId (clerk.requestId + 1)).op := by
      intro c' op'
      simp only [After, ClerkSystem.Happens, hissuing, Option.some.injEq, Prod.mk.injEq, eq_comm]
    have hissued : ∀ op, Issued H op → Issued (After H s (.call c call)) op := fun op ⟨c', hc⟩ ↦
      ⟨c', .inl hc⟩
    refine ⟨h.clerks.begin hclerk rfl rfl hclient hid ?_ ?_ hsame,
      (h.rpcs.mono fun _ _ ↦ .inl).send hclerk ⟨c, (hsame _ _).mpr (.inr ⟨rfl, rfl⟩)⟩ _,
      fun op hop ↦ hissued op (h.started op hop), fun op hop ↦ hissued op (h.committed op hop),
      fun i ↦ (h.servers i).mono hissued fun op ↦ (touched_of_no_server rfl i op).mpr,
      fun i op hop ↦ hissued op (h.touched i op ((touched_of_no_server rfl i op).mp hop)),
      fun i op hop ↦ ?_⟩
    · intro c' other hother hne hsameId
      exact hown _ hissuing c' (List.getElem?_eq_some_iff.mp hother).1 other hother hne
        (hsameId.trans hclient.symm)
    · rintro _ ⟨⟩
      rfl
    · rcases hop with hold | hnew
      · exact h.served i op hold
      · cases hnew
  | receive k start rpc server hrpc hserver =>
    rw [after_of_quiet rfl rfl]
    have hissued := h.rpcs.issued rpc (List.mem_of_getElem? hrpc)
    refine ⟨h.clerks, h.rpcs.takeRpc hrpc hserver, fun op hop ↦ ?_, h.committed,
      h.servers_quiet rfl rfl ?_ ?_ hserver, h.touched, h.served⟩
    · simp only [ClerkSystem.takeRpc] at hop
      split at hop
      · rcases List.mem_append.mp hop with hold | hnew
        · exact h.started op hold
        · rw [List.mem_singleton.mp hnew]
          exact hissued
      · exact h.started op hop
    · rintro _ ⟨⟩
    · rintro _ _ ⟨⟩
      exact hissued
  | retry c clerk call reply server hclerk hcall hreply hretry =>
    rw [after_of_quiet rfl rfl]
    obtain ⟨hissued, hid⟩ := h.clerks.pending c clerk call hclerk hcall
    refine ⟨h.clerks.set hclerk rfl rfl ?_, h.rpcs.send hclerk ⟨c, hissued⟩ server, h.started,
      h.committed, h.servers, h.touched, h.served⟩
    rintro _ ⟨⟩
    exact ⟨hissued, hid⟩
  | finish c clerk call reply hclerk hcall hreply hretry =>
    rw [after_of_quiet rfl rfl]
    exact ⟨h.clerks.set hclerk rfl rfl nofun, h.rpcs.finish hclerk _ _, h.started, h.committed,
      h.servers, h.touched, h.served⟩
  | fail c clerk call hclerk hcall =>
    rw [after_of_quiet rfl rfl]
    obtain ⟨hissued, hid⟩ := h.clerks.pending c clerk call hclerk hcall
    refine ⟨h.clerks.set hclerk rfl rfl ?_, h.rpcs.send hclerk ⟨c, hissued⟩ _, h.started,
      h.committed, h.servers, h.touched, h.served⟩
    rintro _ ⟨⟩
    exact ⟨hissued, hid⟩
  | commit op hop =>
    rw [after_of_quiet rfl rfl]
    refine ⟨h.clerks, ⟨h.rpcs.issued, h.rpcs.sent, h.rpcs.taken⟩, h.started, fun op' hop' ↦ ?_,
      h.servers, h.touched, h.served⟩
    rcases List.mem_append.mp hop' with hold | hnew
    · exact h.committed op' hold
    · rw [List.mem_singleton.mp hnew]
      exact h.started op hop
  | deliver i op server hop hserver =>
    rw [after_of_quiet rfl rfl]
    have hset := h.rpcs.setServer hserver
    refine ⟨h.clerks, ⟨hset.issued, hset.sent, hset.taken⟩, h.started, h.committed,
      h.servers_quiet rfl rfl ?_ ?_ hserver, h.touched, h.served⟩
    · rintro _ ⟨⟩
      exact ⟨op, _, h.committed op (List.mem_of_getElem? hop), rfl⟩
    · rintro _ _ ⟨⟩
  | server i b server hact hserver =>
    have hsame : ∀ c op, After H s a (.issued c op) ↔ H (.issued c op) := issued_of_server hact
    have hissued : ∀ op, Issued H op → Issued (After H s a) op := fun op ⟨c, hc⟩ ↦
      ⟨c, (hsame c op).mpr hc⟩
    refine ⟨h.clerks.congr hsame, (h.rpcs.mono fun c op ↦ (hsame c op).mpr).setServer hserver,
      fun op hop ↦ hissued op (h.started op hop), fun op hop ↦ hissued op (h.committed op hop),
      fun j ↦ ?_, fun j op hop ↦ hissued op ?_, fun j op hop ↦ ?_⟩
    · by_cases hj : j = i
      · subst hj
        have hstep := (h.servers j).step (fun op op' ↦ h.unique)
          (fun message hb ↦ absurd hb ((internal_of_server hact).1 message))
          (fun request start hb ↦ absurd hb ((internal_of_server hact).2 request start)) hserver
        simp only [ClerkSystem.setServer, Function.update_self]
        exact hstep.mono hissued fun op hop ↦
          (touched_of_server hact).mpr (hop.imp_right fun hnew ↦ ⟨rfl, hnew⟩)
      · simp only [ClerkSystem.setServer, Function.update_of_ne hj]
        exact (h.servers j).mono hissued fun op hop ↦ (touched_of_server hact).mpr (.inl hop)
    · rcases (touched_of_server hact).mp hop with hold | ⟨rfl, hexecuting | hserving⟩
      · exact h.touched j op hold
      · exact (h.servers i).issued_of_executing hexecuting
      · exact ((h.servers i).issued_of_serving hserving).1
    · rcases hop with hold | hnew
      · exact h.served j op hold
      · exact ((h.servers i).issued_of_serving ((happens_served_iff hact).mp hnew).2).2

end ClerkInv

end Archives

section Runs

variable [Codec Op] [Codec KvData] [Codec (SkipList.Dump String String)] {rand : ℕ → ℕ}

/-- The events before a moment. -/
def Before (r : Run (clerkSystem m rand)) : ℕ → ClerkEvent m → Prop :=
  r.Happened ClerkSystem.Happens

/-- A Put or Append whose call returns has been executed. -/
def WritesExecuted (r : Run (clerkSystem m rand)) : Prop :=
  ∀ k a c request, r.act k = some a → (r.state k).returning a = some (c, request) →
    request.op.operation ≠ .get → ∃ i, Before r k (.executed i request.op)

/-- When a server finds a Put or Append of a clerk to be a duplicate, the id it compares with is
that of a request the server has executed or served, and that request was this clerk's and no
other's. -/
def OwnDuplicates (r : Run (clerkSystem m rand)) : Prop :=
  ∀ k a i op, r.act k = some a → (r.state k).checking a = some (i, op) → op.operation ≠ .get →
    ((r.state k).servers i).ifRequestDuplicate op.clientId op.requestId = true →
    ∀ c, Before r k (.issued c op) →
      ∃ op', (Before r k (.executed i op') ∨ Before r k (.served i op')) ∧
        op'.clientId = op.clientId ∧
        ((r.state k).servers i).stored op.clientId = op'.requestId ∧
        ∀ c', Before r k (.issued c' op') ↔ c' = c

theorem clerkInv_run (r : Run (clerkSystem m rand)) (hown : r.Obeys ClerkSystem.OwnId) (k : ℕ) :
    ClerkInv (Before r k) (r.state k) :=
  @Run.invariant_happened _ _ _ (clerkSystem m rand) ClerkSystem.Happens ClerkInv
    ClerkSystem.OwnId ClerkInv.initial (fun _ _ _ _ h hok hstep ↦ h.step hok hstep) r hown k

/-- No acknowledged write is lost. In every run in which no clerk calls under the client id of
another clerk that has called, every Put or Append whose call returns has been executed, and none is
taken for a duplicate of another clerk's request. -/
theorem noLostWrite (r : Run (clerkSystem m rand)) (hown : r.Obeys ClerkSystem.OwnId) :
    WritesExecuted r ∧ OwnDuplicates r := by
  constructor
  · intro k a c request _ hreturning hop
    obtain ⟨clerk, call, reply, hclerk, hcall, hreply, hretry, rfl⟩ :=
      ClerkSystem.returning_eq_some hreturning
    exact ⟨call.server, (clerkInv_run r hown k).executed_of_replyTo hclerk hcall hreply
      (Request.ok_of_returns hretry hop) hop⟩
  · intro k a i op _ _ _ hdup c hissued
    exact (clerkInv_run r hown k).own_of_duplicate hissued hdup

end Runs

/-! ### Two clerks with one client id -/

section Examples

open scoped Archive

/-- The generator of the C library, as far as the runs below draw from it. -/
def libcRand (k : ℕ) : ℕ :=
  [1804289383, 846930886, 1681692777, 1714636915,
    1957747793, 424238335, 719885386, 1649760492].getD k 0

def firstWrite : ClerkCall :=
  .put "x" "v"

def secondWrite : ClerkCall :=
  .append "x" "w"

/-- The command of the first call of a clerk that is made when `drawn` values have been drawn. -/
def firstCommand (drawn : ℕ) (call : ClerkCall) : Op :=
  (call.request (uuid libcRand drawn) 1).op

/-- Two processes make a clerk each. The second write is taken for a repetition of the first. -/
def sameUuid : List (ClerkAction 0) :=
  [.newClerk 0, .newClerk 1,
    .call 0 firstWrite, .receive 0 (some 1), .handler 0 0, .commit (firstCommand 0 firstWrite),
    .deliver 0, .loop 0, .loop 0, .loop 0, .loop 0, .loop 0, .handler 0 0, .handler 0 0, .reply 0,
    .call 1 secondWrite, .receive 1 (some 2), .handler 0 1, .commit (firstCommand 0 secondWrite),
    .deliver 0, .loop 0, .loop 0, .loop 0, .loop 0, .handler 0 1, .handler 0 1, .reply 1]

def sameUuidRun : Run (clerkSystem 0 libcRand) :=
  Run.ofActions _ sameUuid (by decide +kernel)

/-- One process makes both clerks. The second one is refused first, while the server does not lead.
-/
def ownUuid : List (ClerkAction 0) :=
  [.newClerk 0, .newClerk 0,
    .call 0 firstWrite, .receive 0 (some 1), .handler 0 0, .commit (firstCommand 0 firstWrite),
    .deliver 0, .loop 0, .loop 0, .loop 0, .loop 0, .loop 0, .handler 0 0, .handler 0 0, .reply 0,
    .call 1 secondWrite, .receive 1 none, .reply 1, .receive 2 (some 2), .handler 0 2,
    .commit (firstCommand 4 secondWrite), .deliver 0, .loop 0, .loop 0, .loop 0, .loop 0, .loop 0,
    .handler 0 2, .handler 0 2, .reply 1]

def ownUuidRun : Run (clerkSystem 0 libcRand) :=
  Run.ofActions _ ownUuid (by decide +kernel)

theorem ownUuidRun_ownId : ownUuidRun.Obeys ClerkSystem.OwnId := by
  rw [ownUuidRun, Run.obeys_ofActions_iff]
  decide +kernel

theorem sameUuidRun_issued {k j c : ℕ} {a : ClerkAction 0} {op : Op} (hj : j < k)
    (ha : sameUuidRun.act j = some a) (h : (sameUuidRun.state j).issuing a = some (c, op)) :
    Before sameUuidRun k (.issued c op) :=
  ⟨j, hj, a, ha, h⟩

/-- Only the write of clerk 0 is executed. -/
theorem sameUuidRun_executed {k : ℕ} {i : Fin 1} {op : Op}
    (h : Touched (Before sameUuidRun k) i op) : op = firstCommand 0 firstWrite := by
  have hobeys : sameUuidRun.Obeys fun s a ↦
      (∀ e ∈ s.executing a, e.2 = firstCommand 0 firstWrite) ∧ (s.serving a).isNone := by
    rw [sameUuidRun, Run.obeys_ofActions_iff]
    decide +kernel
  rcases h with ⟨j, -, a, ha, hexecuted⟩ | ⟨j, -, a, ha, hserved⟩
  · exact (hobeys j a ha).1 _ hexecuted
  · have hnone := (hobeys j a ha).2
    rw [hserved] at hnone
    cases hnone

/-- The write of clerk 1 is answered with OK and never executed: the server holds it for the write
of clerk 0. -/
theorem noLostWrite_sameUuid :
    ∃ r : Run (clerkSystem 0 libcRand), ¬ WritesExecuted r ∧ ¬ OwnDuplicates r := by
  refine ⟨sameUuidRun, fun h ↦ ?_, fun h ↦ ?_⟩
  · obtain ⟨i, hexecuted⟩ := h 26 (.reply 1) 1 (secondWrite.request (uuid libcRand 0) 1)
      (by decide +kernel) (by decide +kernel) (by decide)
    exact absurd (sameUuidRun_executed (.inl hexecuted)) (by decide)
  · obtain ⟨op', htouched, -, -, hone⟩ := h 21 (.loop 0) 0 (firstCommand 0 secondWrite)
      (by decide +kernel) (by decide +kernel) (by decide) (by decide +kernel) 1
      (@sameUuidRun_issued 21 15 1 (.call 1 secondWrite) _ (by decide) (by decide +kernel)
        (by decide +kernel))
    rw [sameUuidRun_executed htouched] at hone
    have hfirst : Before sameUuidRun 21 (.issued 0 (firstCommand 0 firstWrite)) :=
      @sameUuidRun_issued 21 2 0 (.call 0 firstWrite) _ (by decide) (by decide +kernel)
        (by decide +kernel)
    exact absurd ((hone 0).mp hfirst) (by decide)

theorem noLostWrite_ownUuid : WritesExecuted ownUuidRun ∧ OwnDuplicates ownUuidRun :=
  noLostWrite ownUuidRun ownUuidRun_ownId

end Examples

end Rsylar
