import Mathlib.Logic.Function.Basic
import Rsylar.Kv.Server

/-!
# Clerks and their servers

Any number of `Clerk` instances, in any number of processes, and `m + 1` servers. A clerk has one
call at a time; the call goes through the servers until one of them gives it an answer. A request is
under way until a server takes it, and the call may have given it up by then. What Raft does is left
to the choice of the action, within the contract the clerks and the servers rely on: only commands
that a leader has been given are committed, and the apply channel of every server delivers the one
committed sequence in its order.

The client id of a clerk is made of four values of `rand()`. The generator is a parameter; every
process starts it from the same seed, so all processes read the same sequence, each at its own
position.
-/

set_option autoImplicit false
set_option relaxedAutoImplicit false

namespace Rsylar

open TextArchive TransitionSystem

/-! ### Calls -/

/-- `Clerk::Get`, `Clerk::Put` and `Clerk::Append`. -/
inductive ClerkCall
  | get (key : String)
  | put (key value : String)
  | append (key value : String)
deriving DecidableEq

def ClerkCall.request (clientId : String) (requestId : ℤ) : ClerkCall → Request
  | get key => .get ⟨key, clientId, requestId⟩
  | put key value => .putAppend ⟨key, value, .put, clientId, requestId⟩
  | append key value => .putAppend ⟨key, value, .append, clientId, requestId⟩

theorem ClerkCall.request_ids (call : ClerkCall) (clientId : String) (requestId : ℤ) :
    (call.request clientId requestId).op.clientId = clientId ∧
      (call.request clientId requestId).op.requestId = requestId := by
  cases call <;> exact ⟨rfl, rfl⟩

variable {m : ℕ}

/-- The server a call tries after a reply, `none` when the call returns. -/
def Request.retryServer (request : Request) (server : Fin (m + 1)) (reply : Reply) :
    Option (Fin (m + 1)) :=
  match reply.err, request with
  | .errWrongLeader, _ => some (server + 1)
  | .errNoKey, .putAppend _ => some server
  | .errNoKey, .get _ => none
  | .ok, _ => none

/-- A Put or Append returns with OK only. -/
theorem Request.ok_of_returns {request : Request} {server : Fin (m + 1)} {reply : Reply}
    (h : request.retryServer server reply = none) (hop : request.op.operation ≠ .get) :
    reply.err = .ok := by
  unfold Request.retryServer at h
  split at h
  · cases h
  · cases h
  · exact absurd rfl hop
  · assumption

theorem Request.not_wrongLeader_of_returns {request : Request} {server : Fin (m + 1)}
    {reply : Reply} (h : request.retryServer server reply = none) : reply.err ≠ .errWrongLeader := by
  intro herr
  unfold Request.retryServer at h
  rw [herr] at h
  cases h

/-- A call that has not returned, with the request it waits for. -/
structure PendingCall (m : ℕ) where
  request : Request
  server : Fin (m + 1)
  rpc : ℕ

structure Clerk (m : ℕ) where
  clientId : String
  requestId : ℤ := 0
  recentLeaderId : Fin (m + 1) := 0
  pending : Option (PendingCall m) := none

/-- A request and the handler that has taken it. -/
structure Rpc (m : ℕ) where
  server : Fin (m + 1)
  request : Request
  handler : Option ℕ := none

/-- Four values of `rand()`, the first one at the given position. -/
def uuid (rand : ℕ → ℕ) (drawn : ℕ) : String :=
  toString (rand drawn) ++ toString (rand (drawn + 1)) ++ toString (rand (drawn + 2)) ++
    toString (rand (drawn + 3))

/-! ### The system -/

structure ClerkSystem (m : ℕ) where
  servers : Fin (m + 1) → KvServer := fun _ ↦ {}
  clerks : List (Clerk m) := []
  rpcs : List (Rpc m) := []
  /-- how many values of `rand()` each process has drawn -/
  drawn : ℕ → ℕ := fun _ ↦ 0
  /-- the commands that leaders have been given -/
  started : List Op := []
  committed : List Op := []
  delivered : Fin (m + 1) → ℕ := fun _ ↦ 0

inductive ClerkAction (m : ℕ)
  | rand (process : ℕ)
  | newClerk (process : ℕ)
  | call (c : ℕ) (call : ClerkCall)
  | receive (k : ℕ) (start : Option ℤ)
  | reply (c : ℕ)
  | fail (c : ℕ)
  | commit (op : Op)
  | deliver (i : Fin (m + 1))
  | loop (i : Fin (m + 1))
  | handler (i : Fin (m + 1)) (h : ℕ)
  | timeOut (i : Fin (m + 1)) (h : ℕ) (isLeader : Bool)
deriving DecidableEq

/-- The step of one server that an action is. -/
def ClerkAction.serverAction : ClerkAction m → Option (Fin (m + 1) × KvAction)
  | .loop i => some (i, .loop)
  | .handler i h => some (i, .handler h)
  | .timeOut i h isLeader => some (i, .timeOut h isLeader)
  | _ => none

namespace ClerkSystem

def setServer (s : ClerkSystem m) (i : Fin (m + 1)) (server : KvServer) : ClerkSystem m :=
  { s with servers := Function.update s.servers i server }

/-- The call of a clerk sends its request to a server. -/
def send (s : ClerkSystem m) (c : ℕ) (clerk : Clerk m) (request : Request)
    (server : Fin (m + 1)) : ClerkSystem m :=
  { s with
    clerks := s.clerks.set c { clerk with pending := some ⟨request, server, s.rpcs.length⟩ }
    rpcs := s.rpcs ++ [{ server := server, request := request }] }

/-- The call of a clerk returns. -/
def finish (s : ClerkSystem m) (c : ℕ) (clerk : Clerk m) (server : Fin (m + 1)) (reply : Reply) :
    ClerkSystem m :=
  { s with clerks := s.clerks.set c { clerk with
      recentLeaderId := if reply.err = .ok then server else clerk.recentLeaderId
      pending := none } }

/-- A call begins. -/
def beginCall (s : ClerkSystem m) (c : ℕ) (clerk : Clerk m) (call : ClerkCall) : ClerkSystem m :=
  let requestId := clerk.requestId + 1
  s.send c { clerk with requestId := requestId } (call.request clerk.clientId requestId)
    clerk.recentLeaderId

/-- A call gets a reply. -/
def answer (s : ClerkSystem m) (c : ℕ) (clerk : Clerk m) (call : PendingCall m) (reply : Reply) :
    ClerkSystem m :=
  match call.request.retryServer call.server reply with
  | some server => s.send c clerk call.request server
  | none => s.finish c clerk call.server reply

/-- A request gets a handler; a server that leads gives its command to Raft. -/
def takeRpc (s : ClerkSystem m) (k : ℕ) (rpc : Rpc m) (start : Option ℤ) (server : KvServer) :
    ClerkSystem m :=
  { s.setServer rpc.server server with
    rpcs := s.rpcs.set k { rpc with handler := (s.servers rpc.server).handlers.length }
    started := if start.isSome then s.started ++ [rpc.request.op] else s.started }

/-- The reply to a request, once its handler has returned. -/
def replyTo (s : ClerkSystem m) (call : PendingCall m) : Option Reply := do
  let rpc ← s.rpcs[call.rpc]?
  let h ← rpc.handler
  let handler ← (s.servers call.server).handlers[h]?
  match handler.state with
  | .returned reply => some reply
  | _ => none

theorem replyTo_eq_some {s : ClerkSystem m} {call : PendingCall m} {reply : Reply}
    (h : s.replyTo call = some reply) : ∃ rpc k handler, s.rpcs[call.rpc]? = some rpc ∧
      rpc.handler = some k ∧ (s.servers call.server).handlers[k]? = some handler ∧
      handler.state = .returned reply := by
  simp only [replyTo, Option.bind_eq_bind, Option.bind_eq_some_iff] at h
  obtain ⟨rpc, hrpc, k, hk, handler, hhandler, hstate⟩ := h
  split at hstate
  · rename_i reply' hreturned
    cases hstate
    exact ⟨rpc, k, handler, hrpc, hk, hhandler, hreturned⟩
  · cases hstate

section Archives

variable [Codec Op] [Codec KvData] [Codec (SkipList.Dump String String)]

def stepServer (s : ClerkSystem m) (i : Fin (m + 1)) (a : KvAction) : Option (ClerkSystem m) :=
  ((s.servers i).step a).map (s.setServer i)

def step (rand : ℕ → ℕ) (s : ClerkSystem m) : ClerkAction m → Option (ClerkSystem m)
  | .rand process =>
    some { s with drawn := Function.update s.drawn process (s.drawn process + 1) }
  | .newClerk process =>
    some { s with
      drawn := Function.update s.drawn process (s.drawn process + 4)
      clerks := s.clerks ++ [{ clientId := uuid rand (s.drawn process) }] }
  | .call c call => do
    let clerk ← s.clerks[c]?
    guard clerk.pending.isNone
    some (s.beginCall c clerk call)
  | .receive k start => do
    let rpc ← s.rpcs[k]?
    guard rpc.handler.isNone
    let server ← (s.servers rpc.server).step (.rpc rpc.request start)
    some (s.takeRpc k rpc start server)
  | .reply c => do
    let clerk ← s.clerks[c]?
    let call ← clerk.pending
    let reply ← s.replyTo call
    some (s.answer c clerk call reply)
  | .fail c => do
    let clerk ← s.clerks[c]?
    let call ← clerk.pending
    some (s.send c clerk call.request (call.server + 1))
  | .commit op =>
    if op ∈ s.started then some { s with committed := s.committed ++ [op] } else none
  | .deliver i => do
    let op ← s.committed[s.delivered i]?
    let server ← (s.servers i).step (.deliver (commandMessage op (s.delivered i + 1)))
    some { s.setServer i server with
      delivered := Function.update s.delivered i (s.delivered i + 1) }
  | .loop i => s.stepServer i .loop
  | .handler i h => s.stepServer i (.handler h)
  | .timeOut i h isLeader => s.stepServer i (.timeOut h isLeader)

/-! ### The steps -/

/-- The steps of the system. -/
inductive Step (rand : ℕ → ℕ) (s : ClerkSystem m) : ClerkAction m → ClerkSystem m → Prop
  | rand (process : ℕ) : Step rand s (.rand process)
      { s with drawn := Function.update s.drawn process (s.drawn process + 1) }
  | newClerk (process : ℕ) : Step rand s (.newClerk process) { s with
      drawn := Function.update s.drawn process (s.drawn process + 4)
      clerks := s.clerks ++ [{ clientId := uuid rand (s.drawn process) }] }
  | call (c : ℕ) (call : ClerkCall) (clerk : Clerk m) (hclerk : s.clerks[c]? = some clerk) :
      Step rand s (.call c call) (s.beginCall c clerk call)
  | receive (k : ℕ) (start : Option ℤ) (rpc : Rpc m) (server : KvServer)
      (hrpc : s.rpcs[k]? = some rpc)
      (hserver : (s.servers rpc.server).step (.rpc rpc.request start) = some server) :
      Step rand s (.receive k start) (s.takeRpc k rpc start server)
  | retry (c : ℕ) (clerk : Clerk m) (call : PendingCall m) (reply : Reply) (server : Fin (m + 1))
      (hclerk : s.clerks[c]? = some clerk) (hcall : clerk.pending = some call)
      (hreply : s.replyTo call = some reply)
      (hretry : call.request.retryServer call.server reply = some server) :
      Step rand s (.reply c) (s.send c clerk call.request server)
  | finish (c : ℕ) (clerk : Clerk m) (call : PendingCall m) (reply : Reply)
      (hclerk : s.clerks[c]? = some clerk) (hcall : clerk.pending = some call)
      (hreply : s.replyTo call = some reply)
      (hretry : call.request.retryServer call.server reply = none) :
      Step rand s (.reply c) (s.finish c clerk call.server reply)
  | fail (c : ℕ) (clerk : Clerk m) (call : PendingCall m) (hclerk : s.clerks[c]? = some clerk)
      (hcall : clerk.pending = some call) :
      Step rand s (.fail c) (s.send c clerk call.request (call.server + 1))
  | commit (op : Op) (hop : op ∈ s.started) :
      Step rand s (.commit op) { s with committed := s.committed ++ [op] }
  | deliver (i : Fin (m + 1)) (op : Op) (server : KvServer)
      (hop : s.committed[s.delivered i]? = some op)
      (hserver : (s.servers i).step (.deliver (commandMessage op (s.delivered i + 1))) =
        some server) :
      Step rand s (.deliver i) { s.setServer i server with
        delivered := Function.update s.delivered i (s.delivered i + 1) }
  | server {a : ClerkAction m} (i : Fin (m + 1)) (b : KvAction) (server : KvServer)
      (hact : a.serverAction = some (i, b)) (hserver : (s.servers i).step b = some server) :
      Step rand s a (s.setServer i server)

theorem step_cases {rand : ℕ → ℕ} {s s' : ClerkSystem m} {a : ClerkAction m}
    (h : s.step rand a = some s') : s.Step rand a s' := by
  cases a with
  | rand process =>
    cases h
    exact .rand process
  | newClerk process =>
    cases h
    exact .newClerk process
  | call c call =>
    simp only [step, Option.bind_eq_bind, Option.bind_eq_some_iff] at h
    obtain ⟨clerk, hclerk, -, -, hs⟩ := h
    cases hs
    exact .call c call clerk hclerk
  | receive k start =>
    simp only [step, Option.bind_eq_bind, Option.bind_eq_some_iff] at h
    obtain ⟨rpc, hrpc, -, -, server, hserver, hs⟩ := h
    cases hs
    exact .receive k start rpc server hrpc hserver
  | reply c =>
    simp only [step, Option.bind_eq_bind, Option.bind_eq_some_iff] at h
    obtain ⟨clerk, hclerk, call, hcall, reply, hreply, hs⟩ := h
    cases hs
    unfold answer
    split
    · rename_i server hretry
      exact .retry c clerk call reply server hclerk hcall hreply hretry
    · rename_i hretry
      exact .finish c clerk call reply hclerk hcall hreply hretry
  | fail c =>
    simp only [step, Option.bind_eq_bind, Option.bind_eq_some_iff] at h
    obtain ⟨clerk, hclerk, call, hcall, hs⟩ := h
    cases hs
    exact .fail c clerk call hclerk hcall
  | commit op =>
    simp only [step] at h
    split at h
    · rename_i hop
      cases h
      exact .commit op hop
    · cases h
  | deliver i =>
    simp only [step, Option.bind_eq_bind, Option.bind_eq_some_iff] at h
    obtain ⟨op, hop, server, hserver, hs⟩ := h
    cases hs
    exact .deliver i op server hop hserver
  | loop i =>
    obtain ⟨server, hserver, rfl⟩ := Option.map_eq_some_iff.mp h
    exact .server i .loop server rfl hserver
  | handler i k =>
    obtain ⟨server, hserver, rfl⟩ := Option.map_eq_some_iff.mp h
    exact .server i (.handler k) server rfl hserver
  | timeOut i k isLeader =>
    obtain ⟨server, hserver, rfl⟩ := Option.map_eq_some_iff.mp h
    exact .server i (.timeOut k isLeader) server rfl hserver

/-- A clerk begins a call when it has none. -/
theorem pending_of_call {rand : ℕ → ℕ} {s s' : ClerkSystem m} {c : ℕ} {call : ClerkCall}
    (h : s.step rand (.call c call) = some s') :
    ∃ clerk, s.clerks[c]? = some clerk ∧ clerk.pending = none := by
  simp only [step, Option.bind_eq_bind, Option.bind_eq_some_iff, Option.guard_eq_some'] at h
  obtain ⟨clerk, hclerk, -, hpending, -⟩ := h
  exact ⟨clerk, hclerk, Option.isNone_iff_eq_none.mp hpending⟩

/-- A step is one of a server or leaves it alone. -/
theorem servers_step {rand : ℕ → ℕ} {s s' : ClerkSystem m} {a : ClerkAction m}
    (h : s.step rand a = some s') (i : Fin (m + 1)) :
    s'.servers i = s.servers i ∨ ∃ b, (s.servers i).step b = some (s'.servers i) := by
  have hset : ∀ (j : Fin (m + 1)) (b : KvAction) (server : KvServer),
      (s.servers j).step b = some server → s'.servers = Function.update s.servers j server →
      s'.servers i = s.servers i ∨ ∃ b, (s.servers i).step b = some (s'.servers i) := by
    intro j b server hserver hservers
    rw [hservers]
    by_cases hi : i = j
    · subst hi
      rw [Function.update_self]
      exact .inr ⟨b, hserver⟩
    · rw [Function.update_of_ne hi]
      exact .inl rfl
  cases step_cases h with
  | receive k start rpc server _ hserver => exact hset rpc.server _ server hserver rfl
  | deliver j op server _ hserver => exact hset j _ server hserver rfl
  | server j b server _ hserver => exact hset j b server hserver rfl
  | _ => exact .inl rfl

end Archives

end ClerkSystem

section Archives

variable [Codec Op] [Codec KvData] [Codec (SkipList.Dump String String)]

def clerkSystem (m : ℕ) (rand : ℕ → ℕ) : Lts (ClerkSystem m) (ClerkAction m) where
  init := {}
  step := ClerkSystem.step rand

end Archives

end Rsylar
