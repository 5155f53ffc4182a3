import Rsylar.Sylar.Hook

/-!
# The contexts of descriptors

`FdManager::get` looks into the table under the read lock, and when it has to create a context it
puts that in the table under the write lock, without a second look. `FdMgrSystem` are the threads
that call it: a call between its two sections is in `pending`. The objects are numbered in the order
they are built, and `results` are the descriptors and the objects of what has been returned since
the last `del` of the descriptor.

A context is overwritten when two calls for its descriptor are both between their sections
(`overlappingRun`). The results for a descriptor are one object as long as no call puts a context in
an entry that has one, and they are one only then (`fdContexts`).
-/

set_option autoImplicit false
set_option relaxedAutoImplicit false

namespace Rsylar

open TransitionSystem

/-! ### A context -/

/-- What the kernel has for an open descriptor. -/
structure KernelFile where
  isSocket : Bool
  /-- the file status flags of `F_GETFL` -/
  flags : BitVec 32
deriving DecidableEq

/-- `O_NONBLOCK`, and `SOCK_NONBLOCK` too. -/
def O_NONBLOCK : BitVec 32 := 0x800#32

namespace FdManager

/-- The fields of `Rsylar.FdCtx` are those that the hooked IO calls read. -/
structure FdCtx extends Rsylar.FdCtx where
  fd : ℕ
  isInit : Bool
  sysNonblock : Bool
deriving DecidableEq

namespace FdCtx

/-- The constructor with `init`; `file` is `none` when `fstat` fails. -/
def create (fd : ℕ) (file : Option KernelFile) : FdCtx where
  fd := fd
  isInit := file.isSome
  isSocket := file.any KernelFile.isSocket
  sysNonblock := file.any KernelFile.isSocket

/-- What `init` does to the file. -/
def initFile (file : KernelFile) : KernelFile :=
  if file.isSocket && file.flags &&& O_NONBLOCK == 0 then
    { file with flags := file.flags ||| O_NONBLOCK }
  else file

end FdCtx

end FdManager

/-! ### The table -/

structure FdManager where
  /-- the objects of `m_datas` -/
  datas : List (Option ℕ) := List.replicate 64 none
  /-- every object that has been built -/
  ctxs : List FdManager.FdCtx := []
deriving DecidableEq

namespace FdManager

variable {m : FdManager} {fd o : ℕ}

/-- The section of `get` under the read lock: the result, or `none` when a context is to be created.
A descriptor of `none` is `-1`. -/
def lookup (m : FdManager) (fd : Option ℕ) (autoCreate : Bool) : Option (Option ℕ) :=
  match fd with
  | none => some none
  | some fd =>
    match m.datas[fd]? with
    | none => if autoCreate then none else some none
    | some data => if data.isSome || !autoCreate then some data else none

/-- `std::vector::resize` -/
def resize (datas : List (Option ℕ)) (size : ℕ) : List (Option ℕ) :=
  datas.take size ++ List.replicate (size - datas.length) none

/-- The section of `get` under the write lock. -/
def insertNew (m : FdManager) (fd : ℕ) (file : Option KernelFile) : FdManager × ℕ :=
  let ctx := m.ctxs.length
  let datas := if m.datas.length ≤ fd then resize m.datas (fd * 3 / 2) else m.datas
  ({ datas := datas.set fd (some ctx), ctxs := m.ctxs ++ [FdCtx.create fd file] }, ctx)

def del (m : FdManager) (fd : ℕ) : FdManager :=
  if m.datas.length ≤ fd then m else { m with datas := m.datas.set fd none }

/-- A call of a setter through a pointer to the object. -/
def modify (m : FdManager) (o : ℕ) (f : FdCtx → FdCtx) : FdManager :=
  { m with ctxs := m.ctxs.modify o f }

def setTimeout (m : FdManager) (o : ℕ) (type : TimeoutSo) (v : Option ℕ) : FdManager :=
  m.modify o fun ctx ↦ { ctx with toFdCtx := ctx.toFdCtx.setTimeout v type }

def getTimeout (m : FdManager) (o : ℕ) (type : TimeoutSo) : Option (Option ℕ) :=
  m.ctxs[o]?.map fun ctx ↦ ctx.toFdCtx.getTimeout type

def setUserNonblock (m : FdManager) (o : ℕ) (v : Bool) : FdManager :=
  m.modify o fun ctx ↦ { ctx with userNonblock := v }

def getUserNonblock (m : FdManager) (o : ℕ) : Option Bool :=
  m.ctxs[o]?.map fun ctx ↦ ctx.userNonblock

/-- The object that is registered for a descriptor. -/
def entry (m : FdManager) (fd : ℕ) : Option ℕ := m.datas[fd]?.join

/-- What holds of the table in every state. -/
structure Inv (m : FdManager) : Prop where
  size : 64 ≤ m.datas.length
  built : ∀ fd o, m.entry fd = some o → ∃ ctx, m.ctxs[o]? = some ctx ∧ ctx.fd = fd

/-! ### What the sections do -/

theorem lookup_some (m : FdManager) (fd : ℕ) (autoCreate : Bool) :
    m.lookup (some fd) autoCreate =
      if autoCreate && (m.entry fd).isNone then none else some (m.entry fd) := by
  unfold lookup entry
  dsimp only
  cases m.datas[fd]? with
  | none => cases autoCreate <;> simp
  | some data => cases data <;> cases autoCreate <;> simp

theorem join_getElem?_set {datas : List (Option ℕ)} (h : fd < datas.length) (v : Option ℕ)
    (fd' : ℕ) : (datas.set fd v)[fd']?.join = if fd' = fd then v else datas[fd']?.join := by
  by_cases hfd : fd' = fd
  · rw [if_pos hfd, hfd, List.getElem?_set_self h]
    rfl
  · rw [if_neg hfd, List.getElem?_set_ne (Ne.symm hfd)]

theorem join_getElem?_resize {datas : List (Option ℕ)} {size : ℕ} (h : datas.length ≤ size)
    (fd : ℕ) : (resize datas size)[fd]?.join = datas[fd]?.join := by
  unfold resize
  rw [List.take_of_length_le h, List.getElem?_append, List.getElem?_replicate]
  split_ifs with hfd hsize
  · rfl
  · rw [List.getElem?_eq_none_iff.mpr (Nat.le_of_not_lt hfd)]
    rfl
  · rw [List.getElem?_eq_none_iff.mpr (Nat.le_of_not_lt hfd)]

theorem length_resize (datas : List (Option ℕ)) (size : ℕ) :
    (resize datas size).length = size := by
  simp only [resize, List.length_append, List.length_take, List.length_replicate]
  omega

/-- A table of 64 descriptors is large enough after the resize. -/
theorem entry_insertNew (h : 64 ≤ m.datas.length) (fd : ℕ) (file : Option KernelFile) (fd' : ℕ) :
    (m.insertNew fd file).1.entry fd' = if fd' = fd then some m.ctxs.length else m.entry fd' := by
  unfold insertNew entry
  dsimp only
  by_cases hfd : m.datas.length ≤ fd
  · rw [if_pos hfd, join_getElem?_set (by rw [length_resize]; omega),
      join_getElem?_resize (by omega)]
  · rw [if_neg hfd, join_getElem?_set (Nat.lt_of_not_le hfd)]

theorem entry_del (m : FdManager) (fd fd' : ℕ) :
    (m.del fd).entry fd' = if fd' = fd then none else m.entry fd' := by
  unfold del entry
  by_cases hfd : m.datas.length ≤ fd
  · rw [if_pos hfd]
    split_ifs with h
    · rw [h, List.getElem?_eq_none_iff.mpr hfd]
      rfl
    · rfl
  · rw [if_neg hfd, join_getElem?_set (Nat.lt_of_not_le hfd)]

namespace Inv

theorem create : Inv {} where
  size := by simp
  built := by
    intro fd o ho
    simp only [entry, List.getElem?_replicate] at ho
    split_ifs at ho <;> cases ho

theorem insertNew (h : Inv m) (fd : ℕ) (file : Option KernelFile) : Inv (m.insertNew fd file).1 where
  size := by
    unfold FdManager.insertNew
    dsimp only
    have := h.size
    split_ifs
    · rw [List.length_set, length_resize]
      omega
    · rwa [List.length_set]
  built := by
    intro fd' o ho
    rw [entry_insertNew h.size] at ho
    unfold FdManager.insertNew
    split_ifs at ho with hfd
    · cases ho
      exact ⟨FdCtx.create fd file, by simp, hfd.symm⟩
    · obtain ⟨ctx, hctx, hfd'⟩ := h.built fd' o ho
      exact ⟨ctx, List.getElem?_append_left (List.getElem?_eq_some_iff.mp hctx).1 |>.trans hctx, hfd'⟩

theorem del (h : Inv m) (fd : ℕ) : Inv (m.del fd) where
  size := by
    unfold FdManager.del
    split_ifs
    · exact h.size
    · rw [List.length_set]
      exact h.size
  built := by
    intro fd' o ho
    have hctxs : (m.del fd).ctxs = m.ctxs := by
      unfold FdManager.del
      split_ifs <;> rfl
    rw [entry_del] at ho
    split_ifs at ho with hfd
    rw [hctxs]
    exact h.built fd' o ho

theorem modify (h : Inv m) (o : ℕ) {f : FdCtx → FdCtx} (hf : ∀ ctx, (f ctx).fd = ctx.fd) :
    Inv (m.modify o f) where
  size := h.size
  built := by
    intro fd o' ho
    obtain ⟨ctx, hctx, hfd⟩ := h.built fd o' ho
    unfold FdManager.modify
    dsimp only
    rw [List.getElem?_modify, hctx]
    by_cases heq : o = o'
    · exact ⟨f ctx, by simp [heq], (hf ctx).trans hfd⟩
    · exact ⟨ctx, by simp [heq], hfd⟩

end Inv

theorem getTimeout_setTimeout (h : o < m.ctxs.length) (type : TimeoutSo) (v : Option ℕ) :
    (m.setTimeout o type v).getTimeout o type = some v := by
  unfold setTimeout getTimeout modify
  simp only [List.getElem?_modify_eq, List.getElem?_eq_getElem h, Option.map_eq_map,
    Option.map_some]
  cases type <;> rfl

theorem getUserNonblock_setUserNonblock (h : o < m.ctxs.length) (v : Bool) :
    (m.setUserNonblock o v).getUserNonblock o = some v := by
  unfold setUserNonblock getUserNonblock modify
  simp only [List.getElem?_modify_eq, List.getElem?_eq_getElem h, Option.map_eq_map,
    Option.map_some]

end FdManager

/-! ### Threads -/

structure FdMgrSystem where
  mgr : FdManager := {}
  /-- the descriptors of the calls of `get` that are between their two sections -/
  pending : List ℕ := []
  results : List (ℕ × ℕ) := []
deriving DecidableEq

inductive FdMgrAction
  | get (fd : Option ℕ) (autoCreate : Bool)
  | create (i : ℕ) (file : Option KernelFile)
  | del (fd : ℕ)
  | setTimeout (o : ℕ) (type : TimeoutSo) (v : Option ℕ)
  | setUserNonblock (o : ℕ) (v : Bool)

namespace FdMgrSystem

/-- A call of `get` returns. -/
def ret (s : FdMgrSystem) : Option ℕ → Option ℕ → FdMgrSystem
  | some fd, some o => { s with results := s.results ++ [(fd, o)] }
  | _, _ => s

def step (s : FdMgrSystem) : FdMgrAction → Option FdMgrSystem
  | .get fd autoCreate =>
    match s.mgr.lookup fd autoCreate with
    | some res => some (s.ret fd res)
    | none => some { s with pending := s.pending ++ fd.toList }
  | .create i file =>
    match s.pending[i]? with
    | some fd =>
      let (mgr, o) := s.mgr.insertNew fd file
      some ({ s with mgr := mgr, pending := s.pending.eraseIdx i }.ret (some fd) (some o))
    | none => none
  | .del fd =>
    some { s with mgr := s.mgr.del fd, results := s.results.filter fun res ↦ res.1 ≠ fd }
  | .setTimeout o type v => some { s with mgr := s.mgr.setTimeout o type v }
  | .setUserNonblock o v => some { s with mgr := s.mgr.setUserNonblock o v }

/-- All results for a descriptor are one object, which is registered, and what is set through one of
them is seen through all. -/
structure OneCtx (s : FdMgrSystem) : Prop where
  same : ∀ fd o o', (fd, o) ∈ s.results → (fd, o') ∈ s.results → o = o'
  registered : ∀ fd o, (fd, o) ∈ s.results → s.mgr.entry fd = some o
  timeout : ∀ fd o o' type v, (fd, o) ∈ s.results → (fd, o') ∈ s.results →
    (s.mgr.setTimeout o type v).getTimeout o' type = some v
  userNonblock : ∀ fd o o' v, (fd, o) ∈ s.results → (fd, o') ∈ s.results →
    (s.mgr.setUserNonblock o v).getUserNonblock o' = some v

/-- The section under the write lock finds no context. -/
def Vacant (s : FdMgrSystem) : FdMgrAction → Prop
  | .create i _ => ∀ fd ∈ s.pending[i]?, s.mgr.entry fd = none
  | _ => True

end FdMgrSystem

def fdMgrSystem : Lts FdMgrSystem FdMgrAction where
  init := {}
  step := FdMgrSystem.step

/-- What holds of any threads: a context that is registered has been returned. -/
structure FdMgrInv (s : FdMgrSystem) : Prop where
  mgr : s.mgr.Inv
  built : ∀ fd o, (fd, o) ∈ s.results → o < s.mgr.ctxs.length
  returned : ∀ fd o, s.mgr.entry fd = some o → (fd, o) ∈ s.results

section

variable {s s' : FdMgrSystem} {a : FdMgrAction}

theorem FdMgrInv.initial : FdMgrInv fdMgrSystem.init where
  mgr := FdManager.Inv.create
  built := fun _ _ hres ↦ absurd hres List.not_mem_nil
  returned := by
    intro fd o ho
    simp only [fdMgrSystem, FdManager.entry, List.getElem?_replicate] at ho
    split_ifs at ho <;> cases ho

/-- The inversion of a step. A call of `get` returns nothing or what is registered. -/
inductive FdMgrStep (s : FdMgrSystem) : FdMgrAction → FdMgrSystem → Prop
  | null (fd : Option ℕ) (autoCreate : Bool) : FdMgrStep s (.get fd autoCreate) s
  | found (fd o : ℕ) (autoCreate : Bool) (ho : s.mgr.entry fd = some o) :
      FdMgrStep s (.get (some fd) autoCreate) { s with results := s.results ++ [(fd, o)] }
  | pend (fd : ℕ) (ho : s.mgr.entry fd = none) :
      FdMgrStep s (.get (some fd) true) { s with pending := s.pending ++ [fd] }
  | create (i fd : ℕ) (file : Option KernelFile) (hfd : s.pending[i]? = some fd) :
      FdMgrStep s (.create i file)
        { mgr := (s.mgr.insertNew fd file).1
          pending := s.pending.eraseIdx i
          results := s.results ++ [(fd, s.mgr.ctxs.length)] }
  | del (fd : ℕ) : FdMgrStep s (.del fd)
      { s with mgr := s.mgr.del fd, results := s.results.filter fun res ↦ res.1 ≠ fd }
  | setTimeout (o : ℕ) (type : TimeoutSo) (v : Option ℕ) : FdMgrStep s (.setTimeout o type v)
      { s with mgr := s.mgr.setTimeout o type v }
  | setUserNonblock (o : ℕ) (v : Bool) : FdMgrStep s (.setUserNonblock o v)
      { s with mgr := s.mgr.setUserNonblock o v }

theorem FdMgrSystem.step_cases (hstep : s.step a = some s') : FdMgrStep s a s' := by
  cases a with
  | get fd autoCreate =>
    cases fd with
    | none =>
      cases hstep
      exact .null none autoCreate
    | some fd =>
      simp only [FdMgrSystem.step, FdManager.lookup_some] at hstep
      cases ho : s.mgr.entry fd with
      | none =>
        cases autoCreate with
        | false =>
          simp only [ho, Bool.false_and, Bool.false_eq_true, if_false] at hstep
          cases hstep
          exact .null (some fd) false
        | true =>
          simp only [ho, Option.isNone_none, Bool.and_self, if_true] at hstep
          cases hstep
          exact .pend fd ho
      | some o =>
        simp only [ho, Option.isNone_some, Bool.and_false, Bool.false_eq_true, if_false] at hstep
        cases hstep
        exact .found fd o autoCreate ho
  | create i file =>
    simp only [FdMgrSystem.step] at hstep
    split at hstep
    · rename_i fd hfd
      cases hstep
      exact .create i fd file hfd
    · cases hstep
  | del fd =>
    cases hstep
    exact .del fd
  | setTimeout o type v =>
    cases hstep
    exact .setTimeout o type v
  | setUserNonblock o v =>
    cases hstep
    exact .setUserNonblock o v

theorem FdMgrInv.step (h : FdMgrInv s) (hstep : fdMgrSystem.step s a = some s') : FdMgrInv s' := by
  cases FdMgrSystem.step_cases hstep with
  | null fd autoCreate => exact h
  | found fd o autoCreate ho =>
    refine ⟨h.mgr, fun fd' o' hres ↦ ?_, fun fd' o' ho' ↦ ?_⟩
    · rcases List.mem_append.mp hres with hold | hnew
      · exact h.built fd' o' hold
      · cases List.mem_singleton.mp hnew
        obtain ⟨ctx, hctx, -⟩ := h.mgr.built fd o ho
        exact (List.getElem?_eq_some_iff.mp hctx).1
    · exact List.mem_append_left _ (h.returned fd' o' ho')
  | pend fd ho => exact ⟨h.mgr, h.built, h.returned⟩
  | create i fd file hfd =>
    refine ⟨h.mgr.insertNew fd file, fun fd' o' hres ↦ ?_, fun fd' o' ho' ↦ ?_⟩
    · have hlength : (s.mgr.insertNew fd file).1.ctxs.length = s.mgr.ctxs.length + 1 :=
        List.length_append
      rw [hlength]
      rcases List.mem_append.mp hres with hold | hnew
      · exact (h.built fd' o' hold).trans (Nat.lt_succ_self _)
      · cases List.mem_singleton.mp hnew
        exact Nat.lt_succ_self _
    · dsimp only at ho' ⊢
      rw [FdManager.entry_insertNew h.mgr.size] at ho'
      split_ifs at ho' with heq
      · cases ho'
        exact List.mem_append_right _ (List.mem_singleton.mpr (by rw [heq]))
      · exact List.mem_append_left _ (h.returned fd' o' ho')
  | del fd =>
    have hctxs : (s.mgr.del fd).ctxs = s.mgr.ctxs := by
      unfold FdManager.del
      split_ifs <;> rfl
    refine ⟨h.mgr.del fd, fun fd' o' hres ↦ ?_, fun fd' o' ho' ↦ ?_⟩
    · dsimp only
      rw [hctxs]
      exact h.built fd' o' (List.mem_filter.mp hres).1
    · dsimp only at ho' ⊢
      rw [FdManager.entry_del] at ho'
      split_ifs at ho' with hne
      exact List.mem_filter.mpr ⟨h.returned fd' o' ho', by simpa using hne⟩
  | setTimeout o type v =>
    refine ⟨h.mgr.modify o fun _ ↦ rfl, fun fd' o' hres ↦ ?_, h.returned⟩
    exact (h.built fd' o' hres).trans_eq (List.length_modify _ _ _).symm
  | setUserNonblock o v =>
    refine ⟨h.mgr.modify o fun _ ↦ rfl, fun fd' o' hres ↦ ?_, h.returned⟩
    exact (h.built fd' o' hres).trans_eq (List.length_modify _ _ _).symm

/-- That the results are registered is enough. -/
theorem oneCtx_iff (h : FdMgrInv s) :
    s.OneCtx ↔ ∀ fd o, (fd, o) ∈ s.results → s.mgr.entry fd = some o := by
  constructor
  · exact fun hone ↦ hone.registered
  · intro hregistered
    have hsame : ∀ fd o o', (fd, o) ∈ s.results → (fd, o') ∈ s.results → o = o' := by
      intro fd o o' ho ho'
      exact Option.some.inj ((hregistered fd o ho).symm.trans (hregistered fd o' ho'))
    refine ⟨hsame, hregistered, fun fd o o' type v ho ho' ↦ ?_, fun fd o o' v ho ho' ↦ ?_⟩
    · rw [hsame fd o' o ho' ho]
      exact FdManager.getTimeout_setTimeout (h.built fd o ho) type v
    · rw [hsame fd o' o ho' ho]
      exact FdManager.getUserNonblock_setUserNonblock (h.built fd o ho) v

/-- A context that is overwritten has been returned, and a new one is returned for its descriptor. -/
theorem oneCtx_step_iff (h : FdMgrInv s) (hone : s.OneCtx)
    (hstep : fdMgrSystem.step s a = some s') : s'.OneCtx ↔ s.Vacant a := by
  rw [oneCtx_iff (h.step hstep)]
  have hregistered := hone.registered
  cases FdMgrSystem.step_cases hstep with
  | found fd o autoCreate ho =>
    refine ⟨fun _ ↦ trivial, fun _ fd' o' hres ↦ ?_⟩
    rcases List.mem_append.mp hres with hold | hnew
    · exact hregistered fd' o' hold
    · cases List.mem_singleton.mp hnew
      exact ho
  | create i fd file hfd =>
    dsimp only
    constructor
    · intro hnew fd' hfd'
      obtain rfl : fd = fd' := Option.some.inj (hfd.symm.trans hfd')
      cases ho : s.mgr.entry fd with
      | none => rfl
      | some o =>
        have hold := hnew fd o (List.mem_append_left _ (h.returned fd o ho))
        rw [FdManager.entry_insertNew h.mgr.size, if_pos rfl] at hold
        have hlt := h.built fd o (h.returned fd o ho)
        cases hold
        exact absurd hlt (Nat.lt_irrefl _)
    · intro hvacant fd' o' hres
      rw [FdManager.entry_insertNew h.mgr.size]
      rcases List.mem_append.mp hres with hold | hnew
      · have ho' := hregistered fd' o' hold
        have hne : fd' ≠ fd := by
          rintro rfl
          cases (hvacant fd' hfd).symm.trans ho'
        rw [if_neg hne]
        exact ho'
      · cases List.mem_singleton.mp hnew
        exact if_pos rfl
  | del fd =>
    refine ⟨fun _ ↦ trivial, fun _ fd' o' hres ↦ ?_⟩
    obtain ⟨hold, hne⟩ := List.mem_filter.mp hres
    rw [FdManager.entry_del, if_neg (by simpa using hne)]
    exact hregistered fd' o' hold
  | null | pend | setTimeout | setUserNonblock => exact ⟨fun _ ↦ trivial, fun _ ↦ hregistered⟩

end

/-! ### Runs -/

/-- In a run of any calls of any threads, the results for a descriptor are one object, which stays
registered, exactly when every context is put in an entry that has none. -/
theorem fdContexts (r : Run fdMgrSystem) :
    (∀ k, (r.state k).OneCtx) ↔ r.Obeys FdMgrSystem.Vacant := by
  have hinit : fdMgrSystem.init.OneCtx :=
    (oneCtx_iff .initial).mpr fun _ _ hres ↦ absurd hres List.not_mem_nil
  exact Run.forall_iff_obeys FdMgrInv.initial hinit (fun _ _ _ hs hstep ↦ hs.step hstep)
    (fun _ _ _ hs hone hstep ↦ oneCtx_step_iff hs hone hstep) r

/-- Two threads call `get(7, true)`, and both look into the table before one has created. -/
def overlappingCreators : List FdMgrAction :=
  [.get (some 7) true, .get (some 7) true, .create 0 (some ⟨true, 2#32⟩),
    .create 0 (some ⟨true, 0x802#32⟩)]

def overlappingRun : Run fdMgrSystem :=
  .ofActions fdMgrSystem overlappingCreators (by decide +kernel)

/-- The first thread has object 0, object 1 is registered, and a timeout that is set through the
first is not seen through the second. -/
theorem fdContexts_overlapping :
    (overlappingRun.state 4).results = [(7, 0), (7, 1)] ∧
      (overlappingRun.state 4).mgr.entry 7 = some 1 ∧
      ((overlappingRun.state 4).mgr.setTimeout 0 .rcvtimeo (some 500)).getTimeout 1 .rcvtimeo =
        some none ∧
      ¬(overlappingRun.state 4).OneCtx := by
  have hresults : (overlappingRun.state 4).results = [(7, 0), (7, 1)] := by decide +kernel
  refine ⟨hresults, by decide +kernel, by decide +kernel, fun hone ↦ ?_⟩
  cases hone.same 7 0 1 (by rw [hresults]; simp) (by rw [hresults]; simp)

end Rsylar
