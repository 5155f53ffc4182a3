import Rsylar.Foundations.LatestEntries
import Rsylar.Http.Response

/-!
# Servlets

`ServletDispatch` with the functions that register servlets and the one that chooses among them.
Each of them takes a lock, so that what the threads of a program do is one history of calls.

The choice after any history is `servletDispatch`: the exact entry that was set last and not deleted
since, then the first pattern that matches, in the order in which the patterns were last added, then
the default.
-/

set_option autoImplicit false
set_option relaxedAutoImplicit false

namespace Rsylar.Http

/-- A servlet may change the request and the response, which it shares with its caller, and what the
servlets keep. -/
abbrev Servlet (σ : Type) := HttpRequest → HttpResponse → σ → HttpRequest × HttpResponse × σ

/-- `HoldServletCreator`, whose pointer may be null, and `ServletCreator`. -/
inductive ServletCreator (σ : Type)
  | hold (slt : Option (Servlet σ))
  | create (new : Servlet σ)

def ServletCreator.get {σ : Type} : ServletCreator σ → Option (Servlet σ)
  | hold slt => slt
  | create new => some new

/-- `m_content` -/
def notFoundContent (name : List Byte) : List Byte :=
  bytesOf "<html><head><title>404 Not Found" ++
    bytesOf "</title></head><body><center><h1>404 Not Found</h1></center>" ++
    bytesOf "<hr><center>" ++ name ++ bytesOf "</center></body></html>"

def NotFoundServlet {σ : Type} (name : List Byte) : Servlet σ := fun req rsp shared ↦
  (req,
    { rsp with
      status := 404
      headers := (rsp.headers.setHeader (bytesOf "Server") (bytesOf "sylar/1.0.0")).setHeader
        (bytesOf "Content-Type") (bytesOf "text/html")
      body := notFoundContent name },
    shared)

structure ServletDispatch (σ : Type) where
  datas : AList fun _ : List Byte ↦ ServletCreator σ := ∅
  globs : List (List Byte × ServletCreator σ) := []
  defaultServlet : Option (Servlet σ) := some (NotFoundServlet (bytesOf "sylar/1.0"))

namespace ServletDispatch

variable {σ : Type} (d : ServletDispatch σ) (uri : List Byte)

def addServletCreator (creator : ServletCreator σ) : ServletDispatch σ :=
  { d with datas := d.datas.insert uri creator }

def addServlet (slt : Option (Servlet σ)) : ServletDispatch σ :=
  { d with datas := d.datas.insert uri (.hold slt) }

def addGlobServletCreator (creator : ServletCreator σ) : ServletDispatch σ :=
  { d with globs := d.globs.eraseP (fun it ↦ it.1 = uri) ++ [(uri, creator)] }

def addGlobServlet (slt : Option (Servlet σ)) : ServletDispatch σ :=
  { d with globs := d.globs.eraseP (fun it ↦ it.1 = uri) ++ [(uri, .hold slt)] }

def delServlet : ServletDispatch σ := { d with datas := d.datas.erase uri }

def delGlobServlet : ServletDispatch σ :=
  { d with globs := d.globs.eraseP fun it ↦ it.1 = uri }

def setDefault (v : Option (Servlet σ)) : ServletDispatch σ := { d with defaultServlet := v }

def getServlet : Option (Servlet σ) := (d.datas.lookup uri).bind ServletCreator.get

def getGlobServlet : Option (Servlet σ) :=
  (d.globs.find? fun it ↦ it.1 = uri).bind fun it ↦ it.2.get

/-- `fnmatch pattern string` is whether the function of the C library returns zero. -/
def getMatchedServlet (fnmatch : List Byte → List Byte → Bool) : Option (Servlet σ) :=
  match d.datas.lookup uri with
  | some mit => mit.get
  | none =>
    match d.globs.find? fun it ↦ fnmatch (cString it.1) (cString uri) with
    | some it => it.2.get
    | none => d.defaultServlet

/-- The result of the servlet is not looked at. -/
def handle (fnmatch : List Byte → List Byte → Bool) : Servlet σ := fun req rsp shared ↦
  match d.getMatchedServlet req.path fnmatch with
  | some slt => slt req rsp shared
  | none => (req, rsp, shared)

end ServletDispatch

/-! ### The choice after a history of calls -/

/-- A call of one of the functions that change a dispatch. -/
inductive DispatchCall (σ : Type)
  | addServlet (uri : List Byte) (slt : Option (Servlet σ))
  | addServletCreator (uri : List Byte) (creator : ServletCreator σ)
  | addGlobServlet (uri : List Byte) (slt : Option (Servlet σ))
  | addGlobServletCreator (uri : List Byte) (creator : ServletCreator σ)
  | delServlet (uri : List Byte)
  | delGlobServlet (uri : List Byte)
  | setDefault (v : Option (Servlet σ))

namespace DispatchCall

variable {σ : Type}

def run (d : ServletDispatch σ) : DispatchCall σ → ServletDispatch σ
  | addServlet uri slt => d.addServlet uri slt
  | addServletCreator uri creator => d.addServletCreator uri creator
  | addGlobServlet uri slt => d.addGlobServlet uri slt
  | addGlobServletCreator uri creator => d.addGlobServletCreator uri creator
  | delServlet uri => d.delServlet uri
  | delGlobServlet uri => d.delGlobServlet uri
  | setDefault v => d.setDefault v

/-- What a call changes for a URI that is matched exactly. -/
def exact : DispatchCall σ → Option (List Byte × Option (ServletCreator σ))
  | addServlet uri slt => some (uri, some (.hold slt))
  | addServletCreator uri creator => some (uri, some creator)
  | delServlet uri => some (uri, none)
  | _ => none

/-- What a call changes for a pattern. -/
def glob : DispatchCall σ → Option (List Byte × Option (ServletCreator σ))
  | addGlobServlet uri slt => some (uri, some (.hold slt))
  | addGlobServletCreator uri creator => some (uri, some creator)
  | delGlobServlet uri => some (uri, none)
  | _ => none

def newDefault : DispatchCall σ → Option (Option (Servlet σ))
  | setDefault v => some v
  | _ => none

end DispatchCall

/-- What a dispatch chooses after the history. -/
structure ServletDispatch.ChoosesBy {σ : Type} (history : List (DispatchCall σ))
    (d : ServletDispatch σ) : Prop where
  getServlet : ∀ uri, d.getServlet uri =
    (LatestEntries.lastValue uri (history.filterMap DispatchCall.exact)).bind ServletCreator.get
  getGlobServlet : ∀ uri, d.getGlobServlet uri =
    (LatestEntries.lastValue uri (history.filterMap DispatchCall.glob)).bind ServletCreator.get
  getMatchedServlet : ∀ fnmatch uri, d.getMatchedServlet uri fnmatch =
    match LatestEntries.lastValue uri (history.filterMap DispatchCall.exact) with
    | some creator => creator.get
    | none =>
      match (LatestEntries.latest (history.filterMap DispatchCall.glob)).find? fun entry ↦
        fnmatch (cString entry.1) (cString uri) with
      | some entry => entry.2.get
      | none => (history.filterMap DispatchCall.newDefault).getLastD
          (some (NotFoundServlet (bytesOf "sylar/1.0")))

section

variable {σ : Type} (d : ServletDispatch σ) (call : DispatchCall σ)

theorem DispatchCall.datas_run :
    (call.run d).datas = call.exact.toList.foldl LatestEntries.changeMap d.datas := by
  cases call with
  | addServlet uri slt => rfl
  | addServletCreator uri creator => rfl
  | addGlobServlet uri slt => rfl
  | addGlobServletCreator uri creator => rfl
  | delServlet uri => rfl
  | delGlobServlet uri => rfl
  | setDefault v => rfl

theorem DispatchCall.globs_run :
    (call.run d).globs = call.glob.toList.foldl LatestEntries.change d.globs := by
  cases call with
  | addServlet uri slt => rfl
  | addServletCreator uri creator => rfl
  | addGlobServlet uri slt => rfl
  | addGlobServletCreator uri creator => rfl
  | delServlet uri => rfl
  | delGlobServlet uri => exact (List.append_nil _).symm
  | setDefault v => rfl

theorem DispatchCall.defaultServlet_run :
    (call.run d).defaultServlet = call.newDefault.toList.getLastD d.defaultServlet := by
  cases call with
  | addServlet uri slt => rfl
  | addServletCreator uri creator => rfl
  | addGlobServlet uri slt => rfl
  | addGlobServletCreator uri creator => rfl
  | delServlet uri => rfl
  | delGlobServlet uri => rfl
  | setDefault v => rfl

end

theorem ServletDispatch.foldl_run {σ : Type} (history : List (DispatchCall σ)) :
    (history.foldl DispatchCall.run {}).datas =
        (history.filterMap DispatchCall.exact).foldl LatestEntries.changeMap ∅ ∧
      (history.foldl DispatchCall.run {}).globs =
        (history.filterMap DispatchCall.glob).foldl LatestEntries.change [] ∧
      (history.foldl DispatchCall.run {}).defaultServlet =
        (history.filterMap DispatchCall.newDefault).getLastD
          (some (NotFoundServlet (bytesOf "sylar/1.0"))) := by
  induction history using List.reverseRecOn with
  | nil => exact ⟨rfl, rfl, rfl⟩
  | append_singleton history call ih =>
    obtain ⟨hdatas, hglobs, hdefault⟩ := ih
    simp only [LatestEntries.filterMap_concat_toList, List.foldl_append, List.foldl_cons,
      List.foldl_nil]
    rw [DispatchCall.datas_run, DispatchCall.globs_run, DispatchCall.defaultServlet_run, hdatas,
      hglobs, hdefault]
    refine ⟨rfl, rfl, ?_⟩
    cases call.newDefault with
    | none => simp
    | some v => simp

/-- Among all servlets that were ever registered the dispatch chooses by the calls that no later
call has overridden. -/
theorem servletDispatch {σ : Type} (history : List (DispatchCall σ)) :
    (history.foldl DispatchCall.run {}).ChoosesBy history := by
  obtain ⟨hdatas, hglobs, hdefault⟩ := ServletDispatch.foldl_run history
  refine ⟨fun uri ↦ ?_, fun uri ↦ ?_, fun fnmatch uri ↦ ?_⟩
  · rw [ServletDispatch.getServlet, hdatas, LatestEntries.lookup_foldl_changeMap]
  · rw [ServletDispatch.getGlobServlet, hglobs, LatestEntries.foldl_change,
      ← LatestEntries.find_latest, Option.bind_map]
    rfl
  · rw [ServletDispatch.getMatchedServlet, hdatas, hglobs, hdefault,
      LatestEntries.lookup_foldl_changeMap, LatestEntries.foldl_change]

end Rsylar.Http
