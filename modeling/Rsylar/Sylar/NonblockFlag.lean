import Rsylar.Sylar.FdManager

/-!
# The two views of `O_NONBLOCK`

A socket of `FdMgr` is non-blocking in the kernel, so that a hooked IO call can wait in its fiber,
and what the user has asked for is `m_userNonblock`. `FlagSystem` are the kernel and the table under
the hooked `socket`, `accept`, `fcntl` and `ioctl`, with the latest request for each descriptor.

What a call does to a descriptor is seen on the file, the context and the request (`FlagView`).
The views disagree after two calls (`FlagFit`): `socket` with `SOCK_NONBLOCK` does not remember what
the user has asked for, and `ioctl` hands a `FIONBIO` of 0 on to the kernel.
-/

set_option autoImplicit false
set_option relaxedAutoImplicit false

namespace Rsylar

open TransitionSystem

/-! ### The kernel -/

def hasNonblock (flags : BitVec 32) : Bool := flags &&& O_NONBLOCK != 0

/-- What `F_SETFL` can change: `O_APPEND`, `O_NONBLOCK`, `FASYNC`, `O_DIRECT` and `O_NOATIME`. -/
def SETFL_MASK : BitVec 32 := 0x46C00#32

namespace KernelFile

/-- A new socket is opened with `O_RDWR`. -/
def socket (type : BitVec 32) : KernelFile where
  isSocket := true
  flags := 2#32 ||| (type &&& O_NONBLOCK)

def setfl (file : KernelFile) (arg : BitVec 32) : KernelFile :=
  { file with flags := (file.flags &&& ~~~SETFL_MASK) ||| (arg &&& SETFL_MASK) }

def fionbio (file : KernelFile) (value : BitVec 32) : KernelFile :=
  { file with
    flags := if value = 0 then file.flags &&& ~~~O_NONBLOCK else file.flags ||| O_NONBLOCK }

end KernelFile

theorem hasNonblock_eq (flags : BitVec 32) : hasNonblock flags = flags.getLsbD 11 := by
  have hbit : O_NONBLOCK = BitVec.twoPow 32 11 := rfl
  rw [hasNonblock, hbit, BitVec.and_twoPow]
  cases flags.getLsbD 11 <;> rfl

theorem hasNonblock_setfl (file : KernelFile) (arg : BitVec 32) :
    hasNonblock (file.setfl arg).flags = hasNonblock arg := by
  have hmask : SETFL_MASK.getLsbD 11 = true := rfl
  simp only [hasNonblock_eq, KernelFile.setfl, BitVec.getLsbD_or, BitVec.getLsbD_and,
    BitVec.getLsbD_not, hmask]
  simp

theorem hasNonblock_or (flags : BitVec 32) : hasNonblock (flags ||| O_NONBLOCK) = true := by
  have hbit : O_NONBLOCK.getLsbD 11 = true := rfl
  simp [hasNonblock_eq, hbit]

theorem hasNonblock_and_not (flags : BitVec 32) :
    hasNonblock (flags &&& ~~~O_NONBLOCK) = false := by
  have hbit : O_NONBLOCK.getLsbD 11 = true := rfl
  simp [hasNonblock_eq, hbit]

theorem hasNonblock_fionbio (file : KernelFile) (value : BitVec 32) :
    hasNonblock (file.fionbio value).flags = (value != 0) := by
  unfold KernelFile.fionbio
  by_cases hvalue : value = 0
  · rw [hvalue, if_pos rfl, hasNonblock_and_not]
    rfl
  · rw [if_neg hvalue, hasNonblock_or, bne_iff_ne.mpr hvalue]

theorem hasNonblock_initFile {file : KernelFile} (hsocket : file.isSocket = true) :
    hasNonblock (FdManager.FdCtx.initFile file).flags = true := by
  unfold FdManager.FdCtx.initFile
  split_ifs with hclear
  · exact hasNonblock_or _
  · simpa [hasNonblock, hsocket] using hclear

/-! ### The calls -/

namespace FdManager

/-- `get(fd)` -/
def get (m : FdManager) (fd : ℕ) : Option ℕ := (m.lookup (some fd) false).join

/-- The context that `get(fd)` points to. -/
def find (m : FdManager) (fd : ℕ) : Option FdCtx := (m.get fd).bind fun o ↦ m.ctxs[o]?

end FdManager

structure FlagSystem where
  kernel : ℕ → Option KernelFile := fun _ ↦ none
  mgr : FdManager := {}
  /-- the latest request for the descriptor asked for `O_NONBLOCK` -/
  asked : ℕ → Bool := fun _ ↦ false

/-- A descriptor of `none` is what a call returns that fails. -/
inductive FlagAction
  | socket (hookEnable : Bool) (type : BitVec 32) (fd : Option ℕ)
  | accept (fd : Option ℕ)
  | setfl (fd : ℕ) (arg : BitVec 32)
  | getfl (fd : ℕ)
  | fionbio (fd : ℕ) (value : BitVec 32)
  | io (hookEnable : Bool) (fd : ℕ)

/-- How `do_io` makes the underlying call: once, not at all, or again whenever it would block. -/
inductive IoMode
  | direct
  | refused
  | retried
deriving DecidableEq

namespace FlagSystem

/-- `get(fd, true)` -/
def register (s : FlagSystem) (fd : ℕ) : FlagSystem :=
  match s.mgr.lookup (some fd) true with
  | some _ => s
  | none =>
    { s with
      kernel := Function.update s.kernel fd ((s.kernel fd).map FdManager.FdCtx.initFile)
      mgr := (s.mgr.insertNew fd (s.kernel fd)).1 }

/-- The kernel opens a socket, for which the user has asked `type`. -/
def opened (s : FlagSystem) (fd : ℕ) (type : BitVec 32) : FlagSystem :=
  { s with
    kernel := Function.update s.kernel fd (some (KernelFile.socket type))
    asked := Function.update s.asked fd (hasNonblock type) }

def kernelCall (s : FlagSystem) (fd : ℕ) (f : KernelFile → KernelFile) : FlagSystem :=
  { s with kernel := Function.update s.kernel fd ((s.kernel fd).map f) }

def request (s : FlagSystem) (fd : ℕ) (nonblock : Bool) : FlagSystem :=
  { s with asked := Function.update s.asked fd nonblock }

/-- The look at the context in `fcntl` and `ioctl`: the object and its context when it is that of a
socket. -/
def managed (s : FlagSystem) (fd : ℕ) : Option (ℕ × FdManager.FdCtx) := do
  let o ← s.mgr.get fd
  let ctx ← s.mgr.ctxs[o]?
  guard (ctx.isClosed = false ∧ ctx.isSocket = true)
  some (o, ctx)

/-- `fcntl` with `F_SETFL` -/
def setfl (s : FlagSystem) (fd : ℕ) (arg : BitVec 32) : FlagSystem :=
  match s.managed fd with
  | none => s.kernelCall fd fun file ↦ file.setfl arg
  | some (o, ctx) =>
    { s with mgr := s.mgr.setUserNonblock o (hasNonblock arg) }.kernelCall fd fun file ↦
      file.setfl (if ctx.sysNonblock then arg ||| O_NONBLOCK else arg &&& ~~~O_NONBLOCK)

/-- `fcntl` with `F_GETFL` -/
def getfl (s : FlagSystem) (fd : ℕ) : Option (BitVec 32) := do
  let file ← s.kernel fd
  match s.managed fd with
  | none => some file.flags
  | some (_, ctx) =>
    some (if ctx.userNonblock then file.flags ||| O_NONBLOCK else file.flags &&& ~~~O_NONBLOCK)

/-- `ioctl` with `FIONBIO` -/
def fionbio (s : FlagSystem) (fd : ℕ) (value : BitVec 32) : FlagSystem :=
  match s.managed fd with
  | none => s.kernelCall fd fun file ↦ file.fionbio value
  | some (o, _) =>
    { s with mgr := s.mgr.setUserNonblock o (value != 0) }.kernelCall fd fun file ↦
      file.fionbio value

/-- The checks of `do_io` -/
def ioMode (s : FlagSystem) (hookEnable : Bool) (fd : ℕ) : IoMode :=
  if hookEnable then
    match s.mgr.find fd with
    | none => .direct
    | some ctx =>
      if ctx.isClosed then .refused
      else if !ctx.isSocket || ctx.userNonblock then .direct
      else .retried
  else .direct

def step (s : FlagSystem) : FlagAction → Option FlagSystem
  | .socket _ _ none => some s
  | .socket hookEnable type (some fd) =>
    if s.kernel fd = none then
      some (if hookEnable then (s.opened fd type).register fd else s.opened fd type)
    else none
  | .accept none => some s
  | .accept (some fd) =>
    if s.kernel fd = none then some ((s.opened fd 0).register fd) else none
  | .setfl fd arg => some ((s.setfl fd arg).request fd (hasNonblock arg))
  | .getfl _ => some s
  | .fionbio fd value => some ((s.fionbio fd value).request fd (value != 0))
  | .io _ _ => some s

/-- For every socket that is managed, the kernel has the flag while `m_sysNonblock` is set, `F_GETFL`
tells what the user has asked for, and no call that `do_io` is to make again blocks its thread. -/
structure FlagsTrue (s : FlagSystem) : Prop where
  kernel : ∀ fd ctx file, s.mgr.find fd = some ctx → s.kernel fd = some file →
    ctx.sysNonblock = true → hasNonblock file.flags = true
  getfl : ∀ fd o ctx flags, s.managed fd = some (o, ctx) → s.getfl fd = some flags →
    hasNonblock flags = s.asked fd
  io : ∀ hookEnable fd file, s.ioMode hookEnable fd = .retried → s.kernel fd = some file →
    hasNonblock file.flags = true

/-- No managed socket is opened with `SOCK_NONBLOCK`, and `FIONBIO` is not set to 0. -/
def FlagFit (s : FlagSystem) : FlagAction → Prop
  | .socket hookEnable type fd => hookEnable = true → fd ≠ none → hasNonblock type = false
  | .fionbio fd value => s.managed fd ≠ none → value ≠ 0
  | _ => True

end FlagSystem

def flagSystem : Lts FlagSystem FlagAction where
  init := {}
  step := FlagSystem.step

/-! ### One descriptor -/

namespace FdManager

variable {m : FdManager} {fd o : ℕ}

theorem get_eq (m : FdManager) (fd : ℕ) : m.get fd = m.entry fd := by
  rw [get, lookup_some]
  rfl

theorem find_eq_some_iff {ctx : FdCtx} :
    m.find fd = some ctx ↔ ∃ o, m.entry fd = some o ∧ m.ctxs[o]? = some ctx := by
  rw [find, get_eq, Option.bind_eq_some_iff]

theorem find_eq (h : m.entry fd = some o) : m.find fd = m.ctxs[o]? := by
  rw [find, get_eq, h]
  rfl

theorem find_eq_none (h : m.entry fd = none) : m.find fd = none := by
  rw [find, get_eq, h]
  rfl

theorem Inv.find_eq_none_iff (h : m.Inv) : m.find fd = none ↔ m.entry fd = none := by
  refine ⟨fun hfind ↦ ?_, find_eq_none⟩
  cases ho : m.entry fd with
  | none => rfl
  | some o =>
    obtain ⟨ctx, hctx, -⟩ := h.built fd o ho
    cases (hfind.symm.trans (find_eq ho)).trans hctx

theorem Inv.find_insertNew (h : m.Inv) (fd : ℕ) (file : Option KernelFile) (fd' : ℕ) :
    (m.insertNew fd file).1.find fd' =
      if fd' = fd then some (FdCtx.create fd file) else m.find fd' := by
  have hctxs : (m.insertNew fd file).1.ctxs = m.ctxs ++ [FdCtx.create fd file] := rfl
  have hentry := entry_insertNew h.size fd file fd'
  split_ifs at hentry ⊢ with hfd
  · rw [find_eq hentry, hctxs, List.getElem?_concat_length]
  · cases ho : m.entry fd' with
    | none => rw [find_eq_none ho, find_eq_none (hentry.trans ho)]
    | some o =>
      obtain ⟨ctx, hctx, -⟩ := h.built fd' o ho
      rw [find_eq ho, find_eq (hentry.trans ho), hctxs,
        List.getElem?_append_left (List.getElem?_eq_some_iff.mp hctx).1]

/-- A descriptor has an object of its own. -/
theorem Inv.find_setUserNonblock (h : m.Inv) (ho : m.entry fd = some o) (v : Bool) (fd' : ℕ) :
    (m.setUserNonblock o v).find fd' =
      if fd' = fd then (m.find fd').map fun ctx ↦ { ctx with userNonblock := v }
      else m.find fd' := by
  cases ho' : m.entry fd' with
  | none =>
    rw [find_eq_none ho', find_eq_none (m := m.setUserNonblock o v) ho']
    split_ifs <;> rfl
  | some o' =>
    rw [find_eq ho', find_eq (m := m.setUserNonblock o v) ho', setUserNonblock,
      FdManager.modify]
    obtain ⟨ctx, hctx, hfd⟩ := h.built fd o ho
    obtain ⟨ctx', hctx', hfd'⟩ := h.built fd' o' ho'
    have hobject : o = o' ↔ fd' = fd := by
      constructor
      · rintro rfl
        rw [← hfd, ← hfd', Option.some.inj (hctx.symm.trans hctx')]
      · rintro rfl
        exact Option.some.inj (ho.symm.trans ho')
    dsimp only
    rw [List.getElem?_modify]
    simp only [hobject]
    split_ifs
    · rfl
    · exact Option.map_id'

end FdManager

/-- What is known of a descriptor. -/
structure FlagView where
  file : Option KernelFile
  ctx : Option FdManager.FdCtx
  asked : Bool

/-- The kernel has the flag, and the context knows what has been asked for. -/
def FlagView.Agrees (v : FlagView) : Prop :=
  ∀ ctx file, v.ctx = some ctx → v.file = some file →
    hasNonblock file.flags = true ∧ ctx.userNonblock = v.asked

/-- What holds after any calls: a context is that of an open socket. -/
structure FlagInv (s : FlagSystem) : Prop where
  mgr : s.mgr.Inv
  ctx : ∀ fd ctx, s.mgr.find fd = some ctx → (∃ file, s.kernel fd = some file) ∧
    ctx.isSocket = true ∧ ctx.sysNonblock = true ∧ ctx.isClosed = false

namespace FlagSystem

variable {s s' : FlagSystem} {a : FlagAction} {fd o : ℕ} {ctx : FdManager.FdCtx}

def view (s : FlagSystem) (fd : ℕ) : FlagView := ⟨s.kernel fd, s.mgr.find fd, s.asked fd⟩

theorem managed_eq_some_iff (h : FlagInv s) :
    s.managed fd = some (o, ctx) ↔ s.mgr.entry fd = some o ∧ s.mgr.find fd = some ctx := by
  simp only [managed, FdManager.get_eq, Option.bind_eq_bind, Option.bind_eq_some_iff,
    Option.guard_eq_some', Option.some.injEq, Prod.mk.injEq]
  constructor
  · rintro ⟨o', ho, ctx', hctx, _, -, rfl, rfl⟩
    exact ⟨ho, (FdManager.find_eq ho).trans hctx⟩
  · rintro ⟨ho, hfind⟩
    obtain ⟨-, hsocket, -, hclosed⟩ := h.ctx fd ctx hfind
    exact ⟨o, ho, ctx, (FdManager.find_eq ho).symm.trans hfind, (), ⟨hclosed, hsocket⟩, rfl, rfl⟩

theorem managed_eq_none_iff (h : FlagInv s) :
    s.managed fd = none ↔ s.mgr.find fd = none := by
  constructor
  · intro hnone
    cases hfind : s.mgr.find fd with
    | none => rfl
    | some ctx =>
      obtain ⟨o, ho, -⟩ := FdManager.find_eq_some_iff.mp hfind
      cases hnone.symm.trans ((managed_eq_some_iff h).mpr ⟨ho, hfind⟩)
  · intro hfind
    cases hmanaged : s.managed fd with
    | none => rfl
    | some res => cases hfind.symm.trans ((managed_eq_some_iff h).mp hmanaged).2

theorem getfl_managed (hmanaged : s.managed fd = some (o, ctx)) {file : KernelFile}
    (hfile : s.kernel fd = some file) :
    ∃ flags, s.getfl fd = some flags ∧ hasNonblock flags = ctx.userNonblock := by
  refine ⟨_, by simp only [getfl, hfile, hmanaged, Option.bind_eq_bind, Option.bind_some]; rfl, ?_⟩
  split_ifs with huser
  · rw [hasNonblock_or, huser]
  · rw [hasNonblock_and_not, Bool.eq_false_of_not_eq_true huser]

theorem ioMode_retried {hookEnable : Bool} (h : s.ioMode hookEnable fd = .retried) :
    ∃ ctx, s.mgr.find fd = some ctx := by
  unfold ioMode at h
  cases hfind : s.mgr.find fd with
  | none =>
    rw [hfind] at h
    split_ifs at h
  | some ctx => exact ⟨ctx, rfl⟩

theorem flagsTrue_iff (h : FlagInv s) : s.FlagsTrue ↔ ∀ fd, (s.view fd).Agrees := by
  constructor
  · intro htrue fd ctx file hctx hfile
    obtain ⟨-, -, hsys, -⟩ := h.ctx fd ctx hctx
    refine ⟨htrue.kernel fd ctx file hctx hfile hsys, ?_⟩
    obtain ⟨o, ho, -⟩ := FdManager.find_eq_some_iff.mp hctx
    have hmanaged := (managed_eq_some_iff h).mpr ⟨ho, hctx⟩
    obtain ⟨flags, hgetfl, hflags⟩ := getfl_managed hmanaged hfile
    rw [← hflags]
    exact htrue.getfl fd o ctx flags hmanaged hgetfl
  · intro hagrees
    refine ⟨fun fd ctx file hctx hfile _ ↦ (hagrees fd ctx file hctx hfile).1,
      fun fd o ctx flags hmanaged hgetfl ↦ ?_, fun hookEnable fd file hmode hfile ↦ ?_⟩
    · have hctx := ((managed_eq_some_iff h).mp hmanaged).2
      obtain ⟨⟨file, hfile⟩, -⟩ := h.ctx fd ctx hctx
      obtain ⟨flags', hgetfl', hflags⟩ := getfl_managed hmanaged hfile
      obtain rfl : flags = flags' := Option.some.inj (hgetfl.symm.trans hgetfl')
      exact hflags.trans (hagrees fd ctx file hctx hfile).2
    · obtain ⟨ctx, hctx⟩ := ioMode_retried hmode
      exact (hagrees fd ctx file hctx hfile).1

/-! ### What a call does to a descriptor -/

theorem view_opened (h : FlagInv s) (hfree : s.kernel fd = none) (type : BitVec 32) (fd' : ℕ) :
    (s.opened fd type).view fd' =
      if fd' = fd then ⟨some (.socket type), none, hasNonblock type⟩ else s.view fd' := by
  by_cases hfd : fd' = fd
  · subst hfd
    have hfind : s.mgr.find fd' = none := by
      cases hfind : s.mgr.find fd' with
      | none => rfl
      | some ctx =>
        obtain ⟨⟨file, hfile⟩, -⟩ := h.ctx fd' ctx hfind
        cases hfree.symm.trans hfile
    simp [view, opened, hfind]
  · simp [view, opened, hfd]

theorem view_registered (h : FlagInv s) (hfree : s.kernel fd = none) (type : BitVec 32) (fd' : ℕ) :
    ((s.opened fd type).register fd).view fd' =
      if fd' = fd then ⟨some (FdManager.FdCtx.initFile (.socket type)),
        some (FdManager.FdCtx.create fd (some (.socket type))), hasNonblock type⟩
      else s.view fd' := by
  have hopened := view_opened h hfree type fd'
  have hfind : s.mgr.find fd = none := by
    have hself := congrArg FlagView.ctx (view_opened h hfree type fd)
    rwa [if_pos rfl] at hself
  have hlookup : s.mgr.lookup (some fd) true = none := by
    rw [FdManager.lookup_some, h.mgr.find_eq_none_iff.mp hfind]
    rfl
  have hregister : (s.opened fd type).register fd = { s.opened fd type with
      kernel := Function.update (s.opened fd type).kernel fd
        (((s.opened fd type).kernel fd).map FdManager.FdCtx.initFile)
      mgr := (s.mgr.insertNew fd ((s.opened fd type).kernel fd)).1 } := by
    rw [register, show (s.opened fd type).mgr = s.mgr from rfl, hlookup]
  have hfile : (s.opened fd type).kernel fd = some (.socket type) := Function.update_self _ _ _
  rw [hregister, hfile]
  by_cases hfd : fd' = fd
  · subst hfd
    simp [view, opened, h.mgr.find_insertNew]
  · simp [view, opened, h.mgr.find_insertNew, hfd]

theorem view_kernelCall (f : KernelFile → KernelFile) (nonblock : Bool) (fd' : ℕ) :
    ((s.kernelCall fd f).request fd nonblock).view fd' =
      if fd' = fd then ⟨(s.kernel fd).map f, s.mgr.find fd, nonblock⟩ else s.view fd' := by
  by_cases hfd : fd' = fd
  · subst hfd
    simp [view, kernelCall, request]
  · simp [view, kernelCall, request, hfd]

theorem view_unmanaged (hfind : s.mgr.find fd = none) (f : KernelFile → KernelFile)
    (nonblock : Bool) (fd' : ℕ) : ((s.kernelCall fd f).request fd nonblock).view fd' =
      if fd' = fd then ⟨(s.kernel fd).map f, none, nonblock⟩ else s.view fd' := by
  rw [view_kernelCall, hfind]

/-- The context and the kernel are told what the user has asked for. -/
theorem view_setFlags (h : FlagInv s) (hmanaged : s.managed fd = some (o, ctx)) (v : Bool)
    (f : KernelFile → KernelFile) (fd' : ℕ) :
    (({ s with mgr := s.mgr.setUserNonblock o v }.kernelCall fd f).request fd v).view fd' =
      if fd' = fd then ⟨(s.kernel fd).map f, some { ctx with userNonblock := v }, v⟩
      else s.view fd' := by
  obtain ⟨ho, hctx⟩ := (managed_eq_some_iff h).mp hmanaged
  rw [view_kernelCall]
  by_cases hfd : fd' = fd
  · subst hfd
    simp [h.mgr.find_setUserNonblock ho, hctx]
  · simp [view, h.mgr.find_setUserNonblock ho, hfd]

/-- The action makes `v` of the view of the descriptor. -/
inductive ViewStep (s : FlagSystem) : FlagAction → ℕ → FlagView → Prop
  | same (a : FlagAction) (fd : ℕ) (ha : s.FlagFit a) : ViewStep s a fd (s.view fd)
  | socket (type : BitVec 32) (fd : ℕ) : ViewStep s (.socket false type (some fd)) fd
      ⟨some (.socket type), none, hasNonblock type⟩
  | register (type : BitVec 32) (fd : ℕ) : ViewStep s (.socket true type (some fd)) fd
      ⟨some (FdManager.FdCtx.initFile (.socket type)),
        some (FdManager.FdCtx.create fd (some (.socket type))), hasNonblock type⟩
  | accept (fd : ℕ) : ViewStep s (.accept (some fd)) fd
      ⟨some (FdManager.FdCtx.initFile (.socket 0)),
        some (FdManager.FdCtx.create fd (some (.socket 0))), false⟩
  | unmanaged (a : FlagAction) (fd : ℕ) (file : Option KernelFile) (asked : Bool)
      (ha : s.FlagFit a) : ViewStep s a fd ⟨file, none, asked⟩
  | setfl (fd : ℕ) (arg : BitVec 32) (ctx : FdManager.FdCtx) (hctx : s.mgr.find fd = some ctx) :
      ViewStep s (.setfl fd arg) fd ⟨(s.kernel fd).map fun file ↦ file.setfl (arg ||| O_NONBLOCK),
        some { ctx with userNonblock := hasNonblock arg }, hasNonblock arg⟩
  | fionbio (fd : ℕ) (value : BitVec 32) (ctx : FdManager.FdCtx) (hctx : s.mgr.find fd = some ctx) :
      ViewStep s (.fionbio fd value) fd ⟨(s.kernel fd).map fun file ↦ file.fionbio value,
        some { ctx with userNonblock := value != 0 }, value != 0⟩

theorem view_step (h : FlagInv s) (hstep : s.step a = some s') :
    ∃ fd v, s.ViewStep a fd v ∧ ∀ fd', s'.view fd' = if fd' = fd then v else s.view fd' := by
  have hsame : ∀ fd fd', s.view fd' = if fd' = fd then s.view fd else s.view fd' := by
    intro fd fd'
    split_ifs with hfd
    · rw [hfd]
    · rfl
  cases a with
  | socket hookEnable type fd =>
    cases fd with
    | none =>
      cases hstep
      exact ⟨0, _, .same _ 0 fun _ hne ↦ absurd rfl hne, hsame 0⟩
    | some fd =>
      simp only [step, Option.ite_none_right_eq_some] at hstep
      obtain ⟨hfree, hs'⟩ := hstep
      cases hs'
      cases hookEnable with
      | false => exact ⟨fd, _, .socket type fd, view_opened h hfree type⟩
      | true => exact ⟨fd, _, .register type fd, view_registered h hfree type⟩
  | accept fd =>
    cases fd with
    | none =>
      cases hstep
      exact ⟨0, _, .same _ 0 trivial, hsame 0⟩
    | some fd =>
      simp only [step, Option.ite_none_right_eq_some] at hstep
      obtain ⟨hfree, hs'⟩ := hstep
      cases hs'
      exact ⟨fd, _, .accept fd, view_registered h hfree 0⟩
  | setfl fd arg =>
    cases hstep
    unfold FlagSystem.setfl
    split
    · rename_i hmanaged
      have hfind := (managed_eq_none_iff h).mp hmanaged
      exact ⟨fd, _, .unmanaged _ fd _ _ trivial, view_unmanaged hfind _ _⟩
    · rename_i o ctx hmanaged
      have hctx := ((managed_eq_some_iff h).mp hmanaged).2
      obtain ⟨-, -, hsys, -⟩ := h.ctx fd ctx hctx
      rw [hsys]
      exact ⟨fd, _, .setfl fd arg ctx hctx, view_setFlags h hmanaged _ _⟩
  | getfl fd =>
    cases hstep
    exact ⟨fd, _, .same _ fd trivial, hsame fd⟩
  | fionbio fd value =>
    cases hstep
    unfold FlagSystem.fionbio
    split
    · rename_i hmanaged
      have hfind := (managed_eq_none_iff h).mp hmanaged
      exact ⟨fd, _, .unmanaged _ fd _ _ fun hne ↦ absurd hmanaged hne, view_unmanaged hfind _ _⟩
    · rename_i o ctx hmanaged
      have hctx := ((managed_eq_some_iff h).mp hmanaged).2
      exact ⟨fd, _, .fionbio fd value ctx hctx, view_setFlags h hmanaged _ _⟩
  | io hookEnable fd =>
    cases hstep
    exact ⟨fd, _, .same _ fd trivial, hsame fd⟩

end FlagSystem

/-! ### Runs -/

section

variable {s s' : FlagSystem} {a : FlagAction}

theorem FlagInv.initial : FlagInv flagSystem.init where
  mgr := FdManager.Inv.create
  ctx := by
    intro fd ctx hctx
    obtain ⟨o, -, ho⟩ := FdManager.find_eq_some_iff.mp hctx
    cases ho

theorem FdManager.Inv.step (h : s.mgr.Inv) (hstep : s.step a = some s') : s'.mgr.Inv := by
  have hregister : ∀ (t : FlagSystem) (fd : ℕ), t.mgr.Inv → (t.register fd).mgr.Inv := by
    intro t fd ht
    unfold FlagSystem.register
    split
    · exact ht
    · exact ht.insertNew fd _
  cases a with
  | socket hookEnable type fd =>
    cases fd with
    | none =>
      cases hstep
      exact h
    | some fd =>
      simp only [FlagSystem.step, Option.ite_none_right_eq_some] at hstep
      obtain ⟨-, hs'⟩ := hstep
      cases hs'
      split_ifs
      · exact hregister _ fd h
      · exact h
  | accept fd =>
    cases fd with
    | none =>
      cases hstep
      exact h
    | some fd =>
      simp only [FlagSystem.step, Option.ite_none_right_eq_some] at hstep
      obtain ⟨-, hs'⟩ := hstep
      cases hs'
      exact hregister _ fd h
  | setfl fd arg =>
    cases hstep
    unfold FlagSystem.setfl
    split
    · exact h
    · exact h.modify _ fun _ ↦ rfl
  | fionbio fd value =>
    cases hstep
    unfold FlagSystem.fionbio
    split
    · exact h
    · exact h.modify _ fun _ ↦ rfl
  | getfl | io =>
    cases hstep
    exact h

theorem FlagInv.step (h : FlagInv s) (hstep : flagSystem.step s a = some s') : FlagInv s' := by
  obtain ⟨fd, v, hv, hview⟩ := FlagSystem.view_step h hstep
  refine ⟨h.mgr.step hstep, fun fd' ctx hctx ↦ ?_⟩
  have hctx' : (s'.view fd').ctx = some ctx := hctx
  change (∃ file, (s'.view fd').file = some file) ∧ _
  rw [hview] at hctx' ⊢
  split_ifs at hctx' ⊢ with hfd
  · cases hv with
    | same _ _ => exact h.ctx fd ctx hctx'
    | socket => cases hctx'
    | register type =>
      cases hctx'
      exact ⟨⟨_, rfl⟩, rfl, rfl, rfl⟩
    | accept =>
      cases hctx'
      exact ⟨⟨_, rfl⟩, rfl, rfl, rfl⟩
    | unmanaged => cases hctx'
    | setfl _ arg old hold =>
      cases hctx'
      obtain ⟨⟨file, hfile⟩, hflags⟩ := h.ctx fd old hold
      exact ⟨⟨file.setfl (arg ||| O_NONBLOCK), by rw [hfile]; rfl⟩, hflags⟩
    | fionbio _ value old hold =>
      cases hctx'
      obtain ⟨⟨file, hfile⟩, hflags⟩ := h.ctx fd old hold
      exact ⟨⟨file.fionbio value, by rw [hfile]; rfl⟩, hflags⟩
  · exact h.ctx fd' ctx hctx'

/-- The view that a call makes agrees exactly when the call meets the condition. -/
theorem agrees_iff_flagFit (h : FlagInv s) (hagrees : ∀ fd, (s.view fd).Agrees) {fd : ℕ}
    {v : FlagView} (hv : s.ViewStep a fd v) : v.Agrees ↔ s.FlagFit a := by
  cases hv with
  | same _ _ ha => exact ⟨fun _ ↦ ha, fun _ ↦ hagrees fd⟩
  | socket type =>
    constructor
    · intro _ hhook
      cases hhook
    · intro _ ctx file hctx
      cases hctx
  | register type =>
    constructor
    · intro hv _ _
      exact (hv _ _ rfl rfl).2.symm
    · intro ha ctx file hctx hfile
      cases hctx
      cases hfile
      exact ⟨hasNonblock_initFile rfl, (ha rfl (Option.some_ne_none _)).symm⟩
  | accept =>
    refine ⟨fun _ ↦ trivial, fun _ ctx file hctx hfile ↦ ?_⟩
    cases hctx
    cases hfile
    exact ⟨hasNonblock_initFile rfl, rfl⟩
  | unmanaged _ _ file asked ha => exact ⟨fun _ ↦ ha, fun _ ctx file hctx ↦ by cases hctx⟩
  | setfl _ arg old hold =>
    refine ⟨fun _ ↦ trivial, fun _ ctx file hctx hfile ↦ ?_⟩
    cases hctx
    obtain ⟨file', -, rfl⟩ := Option.map_eq_some_iff.mp hfile
    refine ⟨?_, rfl⟩
    rw [hasNonblock_setfl, hasNonblock_or]
  | fionbio _ value old hold =>
    obtain ⟨⟨file, hfile⟩, -⟩ := h.ctx fd old hold
    constructor
    · intro hv _
      have hflag := (hv _ (file.fionbio value) rfl (by rw [hfile]; rfl)).1
      rw [hasNonblock_fionbio] at hflag
      exact bne_iff_ne.mp hflag
    · intro ha ctx file' hctx hfile'
      cases hctx
      obtain ⟨file'', -, rfl⟩ := Option.map_eq_some_iff.mp hfile'
      refine ⟨?_, rfl⟩
      rw [hasNonblock_fionbio]
      refine bne_iff_ne.mpr (ha fun hnone ↦ ?_)
      cases ((FlagSystem.managed_eq_none_iff h).mp hnone).symm.trans hold

end

/-- After any sequence of calls the kernel and the context have the flag as they should, exactly when
every call of the sequence meets the condition. -/
theorem nonblockFlags (r : Run flagSystem) :
    (∀ k, (r.state k).FlagsTrue) ↔ r.Obeys FlagSystem.FlagFit := by
  have hinit : flagSystem.init.FlagsTrue := by
    refine (FlagSystem.flagsTrue_iff .initial).mpr fun fd ctx file _ hfile ↦ ?_
    cases hfile
  refine Run.forall_iff_obeys FlagInv.initial hinit (fun _ _ _ hs hstep ↦ hs.step hstep) ?_ r
  intro s a s' hs htrue hstep
  obtain ⟨fd, v, hv, hview⟩ := FlagSystem.view_step hs hstep
  have hagrees := (FlagSystem.flagsTrue_iff hs).mp htrue
  rw [FlagSystem.flagsTrue_iff (hs.step hstep), ← agrees_iff_flagFit hs hagrees hv]
  constructor
  · intro hs'
    have hfd := hs' fd
    rwa [hview, if_pos rfl] at hfd
  · intro hv fd'
    rw [hview]
    split_ifs
    · exact hv
    · exact hagrees fd'

/-- A socket is made blocking, first with `F_SETFL` and then with `FIONBIO`. -/
def blockingRun : Run flagSystem :=
  .ofActions flagSystem [.socket true 1#32 (some 5), .setfl 5 0, .fionbio 5 0, .io true 5]
    (by decide +kernel)

/-- A socket is opened with `SOCK_STREAM | SOCK_NONBLOCK`. -/
def nonblockingRun : Run flagSystem :=
  .ofActions flagSystem [.socket true 0x801#32 (some 5)] (by decide +kernel)

/-- `do_io` makes a call that blocks the thread, and `F_GETFL` does not report what was asked for. -/
theorem not_flagsTrue_blocking :
    ((blockingRun.state 3).ioMode true 5 = .retried ∧
      ((blockingRun.state 3).kernel 5).map KernelFile.flags = some 2#32 ∧
      ¬(blockingRun.state 3).FlagsTrue) ∧
    (nonblockingRun.state 1).asked 5 = true ∧ (nonblockingRun.state 1).getfl 5 = some 2#32 ∧
      ¬(nonblockingRun.state 1).FlagsTrue := by
  have hmode : (blockingRun.state 3).ioMode true 5 = .retried := by decide +kernel
  have hkernel : (blockingRun.state 3).kernel 5 = some ⟨true, 2#32⟩ := by decide +kernel
  have hgetfl : (nonblockingRun.state 1).getfl 5 = some 2#32 := by decide +kernel
  refine ⟨⟨hmode, by rw [hkernel]; rfl, fun htrue ↦ ?_⟩, by decide +kernel, hgetfl, fun htrue ↦ ?_⟩
  · cases htrue.io true 5 _ hmode hkernel
  · obtain ⟨o, ctx, hmanaged⟩ : ∃ o ctx, (nonblockingRun.state 1).managed 5 = some (o, ctx) :=
      ⟨0, FdManager.FdCtx.create 5 (some (.socket 0x801#32)), by decide +kernel⟩
    have hasked : (nonblockingRun.state 1).asked 5 = true := by decide +kernel
    cases (htrue.getfl 5 o ctx _ hmanaged hgetfl).trans hasked

end Rsylar
