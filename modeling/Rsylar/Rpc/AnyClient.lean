import Rsylar.Rpc.HttpCall

/-!
# What any client can make of a provider

Whatever bytes arrive at the server of a provider, and in whatever pieces, its services change by
calls of published methods only, each of them asked for by a request of its own (`rpcServer_safe`).
A request that asks for anything else has an error for its answer and leaves the services as they
are.
-/

set_option autoImplicit false
set_option relaxedAutoImplicit false

namespace Rsylar.Http.Rpc

variable {M σ : Type}

/-- The request asks for a method that is published, and its body is a request of the method. -/
structure RpcProvider.Asks (lib : MessageLibrary M) (provider : RpcProvider M σ) (req : HttpRequest)
    (call : RpcMethod M σ × M) : Prop where
  post : req.method = .post
  found : ∃ serviceName methodName, 47#8 ∉ serviceName ∧
    req.path = bytesOf "/rpc/" ++ serviceName ++ bytesOf "/" ++ methodName ∧
      provider.find serviceName methodName = some call.1
  parses : lib.parseFromString call.1.requestPrototype req.body = (call.2, true)

/-- What a request leads to: a call that it asks for, when the pattern of `Run` matches its path, or
none when there is no such call. -/
def RpcProvider.LeadsTo (lib : MessageLibrary M) (provider : RpcProvider M σ)
    (fnmatch : List Byte → List Byte → Bool) (req : HttpRequest) :
    Option (RpcMethod M σ × M) → Prop
  | some call => fnmatch (bytesOf "/rpc/*") (cString req.path) ∧ provider.Asks lib req call
  | none => fnmatch (bytesOf "/rpc/*") (cString req.path) → ∀ call, ¬provider.Asks lib req call

/-- What a call leaves of what the services keep. -/
def execute (shared : σ) : Option (RpcMethod M σ × M) → σ
  | some (method, request) => (method.callMethod request method.responsePrototype shared).2
  | none => shared

/-- The statuses of the answers to a call, and to a request that leads to none. -/
def statuses : Option (RpcMethod M σ × M) → List (BitVec 32)
  | some _ => [200, 500]
  | none => [400, 404, 405]

/-- The requests that a server which keeps connections alive serves of those that arrive. -/
def servedRequests : List (Except ReceiveError HttpRequest) → List HttpRequest
  | [] => []
  | .error _ :: _ => []
  | .ok req :: received => if req.close then [req] else req :: servedRequests received

section

variable {lib : MessageLibrary M} {provider : RpcProvider M σ} {req : HttpRequest}
  {fnmatch : List Byte → List Byte → Bool}

theorem splitPath_eq_some {rest serviceName methodName : List Byte}
    (h : RpcProvider.splitPath rest = some (serviceName, methodName)) :
    47#8 ∉ serviceName ∧ rest = serviceName ++ 47#8 :: methodName := by
  have hmem : 47#8 ∈ rest := by
    by_contra hnone
    have hall : ∀ c ∈ rest, decide (c ≠ 47#8) = true := by
      intro c hc
      rw [decide_eq_true_eq]
      rintro rfl
      exact hnone hc
    rw [RpcProvider.splitPath, List.dropWhile_eq_nil_iff.mpr hall] at h
    cases h
  obtain ⟨before, behind, rfl, hbefore⟩ := List.eq_append_cons_of_mem hmem
  rw [splitPath_append behind hbefore] at h
  cases h
  exact ⟨hbefore, rfl⟩

/-- A path that the servlet reads as one asking for a method is one. -/
theorem path_eq {path serviceName methodName : List Byte}
    (hstart : path.take RpcProvider.pathStart.length = RpcProvider.pathStart)
    (hsplit : RpcProvider.splitPath (path.drop RpcProvider.pathStart.length) =
      some (serviceName, methodName)) :
    47#8 ∉ serviceName ∧ path = bytesOf "/rpc/" ++ serviceName ++ bytesOf "/" ++ methodName := by
  obtain ⟨hservice, hrest⟩ := splitPath_eq_some hsplit
  refine ⟨hservice, ?_⟩
  rw [← List.take_append_drop RpcProvider.pathStart.length path, hstart, hrest, bytesOf_slash,
    RpcProvider.pathStart]
  simp only [List.append_assoc, List.singleton_append]

/-- What the servlet looks at, in its order. -/
theorem asks_iff {call : RpcMethod M σ × M} :
    provider.Asks lib req call ↔ req.method = .post ∧
      ¬(req.path.length ≤ RpcProvider.pathStart.length ∨
        req.path.take RpcProvider.pathStart.length ≠ RpcProvider.pathStart) ∧
      (∃ serviceName methodName, RpcProvider.splitPath
          (req.path.drop RpcProvider.pathStart.length) = some (serviceName, methodName) ∧
        provider.find serviceName methodName = some call.1) ∧
      lib.parseFromString call.1.requestPrototype req.body = (call.2, true) := by
  constructor
  · rintro ⟨hpost, ⟨serviceName, methodName, hservice, hpath, hfind⟩, hparse⟩
    obtain ⟨hlong, hsplit⟩ := path_asked hservice hpath
    exact ⟨hpost, hlong, ⟨serviceName, methodName, hsplit, hfind⟩, hparse⟩
  · rintro ⟨hpost, hlong, ⟨serviceName, methodName, hsplit, hfind⟩, hparse⟩
    obtain ⟨hservice, hpath⟩ := path_eq (not_not.mp (not_or.mp hlong).2) hsplit
    exact ⟨hpost, ⟨serviceName, methodName, hservice, hpath, hfind⟩, hparse⟩

/-- The servlet executes the call that a request asks for, and nothing when it asks for none. -/
theorem servlet_leads (lib : MessageLibrary M) (provider : RpcProvider M σ) (req : HttpRequest)
    (rsp : HttpResponse) (shared : σ) :
    ∃ call, (provider.servlet lib req rsp shared).1 = req ∧
      (provider.servlet lib req rsp shared).2.1.status ∈ statuses call ∧
      (provider.servlet lib req rsp shared).2.2 = execute shared call ∧
      match call with
      | some call => provider.Asks lib req call
      | none => ∀ call, ¬provider.Asks lib req call := by
  unfold RpcProvider.servlet
  simp only [asks_iff]
  by_cases hmethod : req.method = .post
  swap
  · rw [if_pos hmethod]
    exact ⟨none, rfl, .tail _ (.tail _ (.head _)), rfl, fun _ hasks ↦ hmethod hasks.1⟩
  rw [if_neg (not_not_intro hmethod)]
  by_cases hshort : req.path.length ≤ RpcProvider.pathStart.length ∨
      req.path.take RpcProvider.pathStart.length ≠ RpcProvider.pathStart
  · rw [if_pos hshort]
    exact ⟨none, rfl, .head _, rfl, fun _ hasks ↦ hasks.2.1 hshort⟩
  rw [if_neg hshort]
  cases hsplit : RpcProvider.splitPath (req.path.drop RpcProvider.pathStart.length) with
  | none => exact ⟨none, rfl, .head _, rfl, by simp⟩
  | some names =>
    obtain ⟨serviceName, methodName⟩ := names
    simp only
    cases hservice : provider.serviceMap.lookup serviceName with
    | none => exact ⟨none, rfl, .tail _ (.head _), rfl, by simp [RpcProvider.find, hservice]⟩
    | some methodMap =>
      simp only
      cases hfound : methodMap.lookup methodName with
      | none =>
        exact ⟨none, rfl, .tail _ (.head _), rfl, by simp [RpcProvider.find, hservice, hfound]⟩
      | some method =>
        have hmethods : provider.find serviceName methodName = some method := by
          rw [RpcProvider.find, hservice, Option.bind_some, hfound]
        simp only
        cases hparse : lib.parseFromString method.requestPrototype req.body with
        | mk request parsed =>
          cases parsed with
          | false =>
            refine ⟨none, rfl, .head _, rfl, ?_⟩
            rintro ⟨method', request'⟩ ⟨-, -, ⟨_, _, hnames, hfind⟩, hparsed⟩
            obtain ⟨rfl, rfl⟩ := Prod.mk.inj (Option.some.inj hnames)
            obtain rfl := Option.some.inj (hmethods.symm.trans hfind)
            cases hparse.symm.trans hparsed
          | true =>
            have hasks : req.method = .post ∧ _ ∧ (∃ service name,
                some (serviceName, methodName) = some (service, name) ∧
                  provider.find service name = some method) ∧
                lib.parseFromString method.requestPrototype req.body = (request, true) :=
              ⟨hmethod, hshort, ⟨serviceName, methodName, rfl, hmethods⟩, hparse⟩
            refine ⟨some (method, request), ?_⟩
            simp only
            split
            · exact ⟨rfl, .head _, rfl, hasks⟩
            · exact ⟨rfl, .tail _ (.head _), rfl, hasks⟩

theorem answer_leads (lib : MessageLibrary M) (provider : RpcProvider M σ)
    (fnmatch : List Byte → List Byte → Bool) (req : HttpRequest) (shared : σ) :
    ∃ call, provider.LeadsTo lib fnmatch req call ∧
      ((provider.server lib).answer fnmatch req shared).1 = req ∧
      ((provider.server lib).answer fnmatch req shared).2.1.status ∈ statuses call ∧
      ((provider.server lib).answer fnmatch req shared).2.2 = execute shared call := by
  rw [HttpServer.answer, ServletDispatch.handle, getMatchedServlet_any]
  by_cases hmatch : fnmatch (bytesOf "/rpc/*") (cString req.path) = true
  · simp only [hmatch, if_true]
    obtain ⟨call, hreq, hstatus, hshared, hasks⟩ := servlet_leads lib provider req _ shared
    refine ⟨call, ?_, hreq, hstatus, hshared⟩
    cases call with
    | none => exact fun _ ↦ hasks
    | some call => exact ⟨hmatch, hasks⟩
  · simp only [hmatch]
    exact ⟨none, fun h ↦ absurd h hmatch, rfl, by simp [NotFoundServlet, statuses], rfl⟩

/-- What the requests lead to, one after the other. -/
theorem serve_leads (lib : MessageLibrary M) (provider : RpcProvider M σ)
    (fnmatch : List Byte → List Byte → Bool)
    (received : List (Except ReceiveError HttpRequest)) (shared : σ) :
    ∃ calls, List.Forall₂ (provider.LeadsTo lib fnmatch) (servedRequests received) calls ∧
      List.Forall₂ (fun rsp call ↦ HttpResponse.status rsp ∈ statuses call)
        ((provider.server lib).serve fnmatch received shared).1 calls ∧
      ((provider.server lib).serve fnmatch received shared).2 = calls.foldl execute shared := by
  induction received generalizing shared with
  | nil => exact ⟨[], .nil, .nil, rfl⟩
  | cons result received ih =>
    cases result with
    | error e => exact ⟨[], .nil, .nil, rfl⟩
    | ok req =>
      obtain ⟨call, hleads, hreq, hstatus, hshared⟩ :=
        answer_leads lib provider fnmatch req shared
      have hkept : (provider.server lib).isKeepalive = true := rfl
      rw [HttpServer.serve, servedRequests]
      simp only [hreq, hkept, Bool.not_true, Bool.false_or]
      by_cases hclose : req.close = true
      · simp only [hclose, if_true]
        exact ⟨[call], .cons hleads .nil, .cons hstatus .nil, hshared⟩
      · simp only [hclose]
        obtain ⟨calls, hall, hstatuses, hrest⟩ :=
          ih ((provider.server lib).answer fnmatch req shared).2.2
        refine ⟨call :: calls, .cons hleads hall, .cons hstatus hstatuses, ?_⟩
        rw [List.foldl_cons, ← hshared]
        exact hrest

end

/-- Whatever a client sends, its requests are served one after the other up to one that fails or
asks for a close; each executes the call that it asks for or none, and nothing else changes what the
services keep. -/
theorem rpcServer_safe (lib : MessageLibrary M) (provider : RpcProvider M σ)
    (fnmatch : List Byte → List Byte → Bool) (relaxed : Bool) (b : BufferSize) (s : HttpSession)
    (w : SocketSink) (shared : σ) :
    ∃ calls : List (Option (RpcMethod M σ × M)),
      List.Forall₂ (provider.LeadsTo lib fnmatch)
        (servedRequests (HttpSession.recvRequests relaxed b (s.bytes.length + 1) s)) calls ∧
      ∃ rsps, List.Forall₂ (fun rsp call ↦ HttpResponse.status rsp ∈ statuses call) rsps calls ∧
        Served rsps w (calls.foldl execute shared)
          ((provider.server lib).handleClient fnmatch relaxed b s w shared) := by
  obtain ⟨calls, hleads, hstatuses, hshared⟩ := serve_leads lib provider
    fnmatch (HttpSession.recvRequests relaxed b (s.bytes.length + 1) s) shared
  refine ⟨calls, hleads, _, hstatuses, ?_⟩
  rw [← hshared]
  exact handleLoop_eq (provider.server lib) fnmatch relaxed b _ s w shared (Nat.lt_succ_self _)

end Rsylar.Http.Rpc
