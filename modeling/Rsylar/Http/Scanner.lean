import Rsylar.Foundations.ActionRegex
import Rsylar.Sylar.ByteArray

/-!
# The execute loop of the generated parsers

`http_parser_execute` and `httpclient_parser_execute`. A machine reads the bytes of a buffer one by
one; its actions set marks, which are offsets into this buffer, and pass the bytes between a mark
and the current byte to callbacks. The bytes before the current one are the first argument of
`exec`: no action reads beyond the current byte.

The state of the machine outlives a call of `execute`, the marks do not: each call counts them from
the beginning of its own buffer. `exec_segment` is when that makes no difference: when no callback
uses a mark that an earlier call set (`UncutAt`).
-/

set_option autoImplicit false
set_option relaxedAutoImplicit false

namespace Rsylar.Http

open ActionRegex

/-- What the actions of a machine do: `κ` are the callbacks that are given the bytes from the mark
on, `φ` the flags of the parser. The action of a callback with an empty body is `skip`. -/
inductive ScanAction (κ φ : Type)
  | mark
  | startField
  | writeField
  | startQuery
  | token (k : κ)
  | queryString
  | writeValue
  | flag (f : φ)
  | skip
  | done
deriving DecidableEq

/-- A callback with the bytes it is given. A token ends before the byte `next`; there is no text for
a query that would begin behind its end. -/
inductive ScanCall (κ φ : Type)
  | token (k : κ) (text : List Byte) (next : Byte)
  | queryString (text : Option (List Byte))
  | field (name value : List Byte)
  | flag (f : φ)
deriving DecidableEq

/-- The offsets that `mark`, `field_start` and `query_start` hold, and `field_len`. No code reads
`lenFrom`: it is the `field_start` that `field_len` was counted from. -/
structure Marks where
  mark : ℕ := 0
  fieldStart : ℕ := 0
  fieldLen : ℕ := 0
  queryStart : ℕ := 0
  lenFrom : ℕ := 0
deriving DecidableEq

/-- An action at the offset `p`. -/
def Marks.set {κ φ : Type} (p : ℕ) (m : Marks) : ScanAction κ φ → Marks
  | .mark => { m with mark := p }
  | .startField => { m with fieldStart := p }
  | .writeField => { m with fieldLen := p - m.fieldStart, lenFrom := m.fieldStart }
  | .startQuery => { m with queryStart := p }
  | .token _ => m
  | .queryString => m
  | .writeValue => m
  | .flag _ => m
  | .skip => m
  | .done => m

/-- `execute` begins with new marks; only `query_start` is not among them. -/
def Marks.reset (m : Marks) : Marks := { queryStart := m.queryStart }

inductive ScanOutcome
  | more
  | done
  | error
deriving DecidableEq

/-- Where the loop ends: the state of the machine, the marks, the callbacks in their order and the
bytes that are not read. `spans` is a record for proofs: for each callback from where to where it
depends on the buffer. -/
structure ScanResult (κ φ : Type) where
  outcome : ScanOutcome
  cs : Expr (ScanAction κ φ)
  marks : Marks
  calls : List (ScanCall κ φ)
  left : List Byte
  spans : List (ℕ × ℕ)
deriving DecidableEq

namespace Scanner

variable {κ φ : Type}

/-- The callback of an action at the byte `c`, after the bytes `seen` of the buffer. -/
def call (seen : List Byte) (c : Byte) (m : Marks) : ScanAction κ φ → List (ScanCall κ φ)
  | .mark => []
  | .startField => []
  | .writeField => []
  | .startQuery => []
  | .token k => [.token k (seen.drop m.mark) c]
  | .queryString =>
    [.queryString (if m.queryStart ≤ seen.length then some (seen.drop m.queryStart) else none)]
  | .writeValue => [.field ((seen.drop m.fieldStart).take m.fieldLen) (seen.drop m.mark)]
  | .flag f => [.flag f]
  | .skip => []
  | .done => []

/-- The part of the buffer that the callback of an action at the offset `p` depends on. -/
def span (p : ℕ) (m : Marks) : ScanAction κ φ → List (ℕ × ℕ)
  | .mark => []
  | .startField => []
  | .writeField => []
  | .startQuery => []
  | .token _ => [(m.mark, p)]
  | .queryString => [(m.queryStart, p)]
  | .writeValue => [(min (min m.fieldStart m.lenFrom) m.mark, p)]
  | .flag _ => []
  | .skip => []
  | .done => []

def setAll (p : ℕ) (m : Marks) (as : List (ScanAction κ φ)) : Marks := as.foldl (Marks.set p) m

def callAll (seen : List Byte) (c : Byte) : Marks → List (ScanAction κ φ) → List (ScanCall κ φ)
  | _, [] => []
  | m, a :: as => call seen c m a ++ callAll seen c (m.set seen.length a) as

def spanAll (p : ℕ) : Marks → List (ScanAction κ φ) → List (ℕ × ℕ)
  | _, [] => []
  | m, a :: as => span p m a ++ spanAll p (m.set p a) as

/-! ### The marks of one byte -/

/-- Marks that were set from the offset `off` on are the same in a buffer that begins there. -/
structure Fresh (off : ℕ) (g m : Marks) : Prop where
  mark : off ≤ g.mark → m.mark + off = g.mark
  fieldStart : off ≤ g.fieldStart → m.fieldStart + off = g.fieldStart
  fieldLen : off ≤ g.lenFrom → m.fieldLen = g.fieldLen
  queryStart : off ≤ g.queryStart → m.queryStart + off = g.queryStart

section Marks

variable {first seen : List Byte} {g m : Marks} {a : ScanAction κ φ} {as : List (ScanAction κ φ)}
  {c : Byte}

theorem drop_of_fresh {f f' : ℕ} (h : f' + first.length = f) :
    (first ++ seen).drop f = seen.drop f' := by
  rw [← h, Nat.add_comm, List.drop_length_add_append]

theorem Fresh.set (h : Fresh first.length g m) :
    Fresh first.length (g.set (first ++ seen).length a) (m.set seen.length a) := by
  obtain ⟨hmark, hfield, hlen, hquery⟩ := h
  have hlength : (first ++ seen).length = first.length + seen.length := List.length_append
  cases a with
  | mark => exact ⟨fun _ ↦ by simp only [Marks.set]; omega, hfield, hlen, hquery⟩
  | startField => exact ⟨hmark, fun _ ↦ by simp only [Marks.set]; omega, hlen, hquery⟩
  | writeField =>
    refine ⟨hmark, hfield, fun hle ↦ ?_, hquery⟩
    have hstart := hfield hle
    simp only [Marks.set]
    omega
  | startQuery => exact ⟨hmark, hfield, hlen, fun _ ↦ by simp only [Marks.set]; omega⟩
  | token | queryString | writeValue | flag | skip | done => exact ⟨hmark, hfield, hlen, hquery⟩

/-- A callback that only depends on what was read from the offset on. -/
theorem Fresh.call (h : Fresh first.length g m)
    (hspan : ∀ s ∈ span (first ++ seen).length g a, first.length ≤ s.1) :
    call seen c m a = call (first ++ seen) c g a := by
  have hlength : (first ++ seen).length = first.length + seen.length := List.length_append
  cases a with
  | token k =>
    have hmark := h.mark (hspan _ List.mem_cons_self)
    rw [Scanner.call, Scanner.call, drop_of_fresh hmark]
  | queryString =>
    have hquery := h.queryStart (hspan _ List.mem_cons_self)
    have hiff : m.queryStart ≤ seen.length ↔ g.queryStart ≤ (first ++ seen).length := by omega
    simp only [Scanner.call, drop_of_fresh hquery, hiff]
  | writeValue =>
    have hle := hspan _ List.mem_cons_self
    have hstart := h.fieldStart (by omega)
    have hlen := h.fieldLen (by omega)
    have hmark := h.mark (by omega)
    rw [Scanner.call, Scanner.call, drop_of_fresh hmark, drop_of_fresh hstart, hlen]
  | mark | startField | writeField | startQuery | flag | skip | done => rfl

theorem Fresh.setAll (h : Fresh first.length g m) :
    Fresh first.length (setAll (first ++ seen).length g as) (setAll seen.length m as) := by
  induction as generalizing g m with
  | nil => exact h
  | cons a as ih => exact ih h.set

theorem Fresh.callAll (h : Fresh first.length g m)
    (hspans : ∀ s ∈ spanAll (first ++ seen).length g as, first.length ≤ s.1) :
    callAll seen c m as = callAll (first ++ seen) c g as := by
  induction as generalizing g m with
  | nil => rfl
  | cons a as ih =>
    obtain ⟨ha, has⟩ := List.forall_mem_append.mp hspans
    rw [Scanner.callAll, Scanner.callAll, h.call ha, ih h.set has]

/-- All marks are before the offset `p`, or have not been set. -/
def Below (p : ℕ) (g : Marks) : Prop :=
  g.mark ≤ p - 1 ∧ g.fieldStart ≤ p - 1 ∧ g.lenFrom ≤ p - 1 ∧ g.queryStart ≤ p - 1

theorem Below.setAll {p : ℕ} (h : Below (p + 1) g) :
    Below (p + 1) (setAll p g as) := by
  induction as generalizing g with
  | nil => exact h
  | cons a as ih =>
    refine ih ?_
    obtain ⟨hmark, hfield, hlen, hquery⟩ := h
    cases a with
    | mark => exact ⟨Nat.le_refl _, hfield, hlen, hquery⟩
    | startField => exact ⟨hmark, Nat.le_refl _, hlen, hquery⟩
    | writeField => exact ⟨hmark, hfield, hfield, hquery⟩
    | startQuery => exact ⟨hmark, hfield, hlen, Nat.le_refl _⟩
    | token | queryString | writeValue | flag | skip | done => exact ⟨hmark, hfield, hlen, hquery⟩

theorem Below.mono {p q : ℕ} {g : Marks} (h : Below p g) (hpq : p ≤ q) : Below q g := by
  obtain ⟨hmark, hfield, hlen, hquery⟩ := h
  exact ⟨by omega, by omega, by omega, by omega⟩

theorem end_of_mem_spanAll {p : ℕ} {s : ℕ × ℕ}
    (h : s ∈ spanAll p m as) : s.2 = p := by
  induction as generalizing m with
  | nil => cases h
  | cons a as ih =>
    rcases List.mem_append.mp h with ha | has
    · cases a with
      | token | queryString | writeValue => rw [List.mem_singleton.mp ha]
      | mark | startField | writeField | startQuery | flag | skip | done => cases ha
    · exact ih has

end Marks

/-! ### The loop -/

variable [DecidableEq κ] [DecidableEq φ]

/-- One byte: the state of the machine after it and the actions of the transition. -/
def step (cs : Expr (ScanAction κ φ)) (c : Byte) :
    Expr (ScanAction κ φ) × List (ScanAction κ φ) :=
  let (cs', as) := cs.deriv c.toNat
  (cs', as.map Prod.snd)

/-- The loop stops at a byte that the machine cannot read, and behind the byte of `done`. -/
def exec (seen : List Byte) : List Byte → Expr (ScanAction κ φ) → Marks → ScanResult κ φ
  | [], cs, m => ⟨.more, cs, m, [], [], []⟩
  | c :: data, cs, m =>
    let (cs', as) := step cs c
    if cs'.isVoid then ⟨.error, cs', m, [], c :: data, []⟩
    else
      let m' := setAll seen.length m as
      let calls := callAll seen c m as
      let spans := spanAll seen.length m as
      if .done ∈ as then ⟨.done, cs', m', calls, data, spans⟩
      else
        let r := exec (seen ++ [c]) data cs' m'
        { r with calls := calls ++ r.calls, spans := spans ++ r.spans }

attribute [local simp] exec

/-! ### Resuming in the same buffer -/

/-- The result of reading on after `r`. -/
def followedBy (r s : ScanResult κ φ) : ScanResult κ φ :=
  { s with calls := r.calls ++ s.calls, spans := r.spans ++ s.spans }

variable {seen xs ys : List Byte} {cs : Expr (ScanAction κ φ)} {m : Marks}

theorem exec_append (h : (exec seen xs cs m).outcome = .more) :
    exec seen (xs ++ ys) cs m = followedBy (exec seen xs cs m)
      (exec (seen ++ xs) ys (exec seen xs cs m).cs (exec seen xs cs m).marks) := by
  induction xs generalizing seen cs m with
  | nil => rw [List.append_nil, List.nil_append]; rfl
  | cons c xs ih =>
    simp only [exec, List.cons_append] at h ⊢
    split at h
    · cases h
    · rename_i hvoid
      split at h
      · cases h
      · rename_i hdone
        rw [if_neg hvoid, if_neg hdone, if_neg hvoid, if_neg hdone, ih h]
        simp only [followedBy, List.append_assoc, List.singleton_append]

theorem exec_append_of_stop (h : (exec seen xs cs m).outcome ≠ .more) :
    exec seen (xs ++ ys) cs m =
      { exec seen xs cs m with left := (exec seen xs cs m).left ++ ys } := by
  induction xs generalizing seen cs m with
  | nil => exact absurd rfl h
  | cons c xs ih =>
    simp only [exec, List.cons_append] at h ⊢
    by_cases hvoid : (step cs c).1.isVoid
    · rw [if_pos hvoid, if_pos hvoid]
      rfl
    · rw [if_neg hvoid, if_neg hvoid]
      rw [if_neg hvoid] at h
      by_cases hdone : .done ∈ (step cs c).2
      · rw [if_pos hdone, if_pos hdone]
      · rw [if_neg hdone] at h
        rw [if_neg hdone, if_neg hdone, ih h]

theorem left_of_more (h : (exec seen xs cs m).outcome = .more) : (exec seen xs cs m).left = [] := by
  induction xs generalizing seen cs m with
  | nil => rfl
  | cons c xs ih =>
    simp only [exec] at h ⊢
    split at h
    · cases h
    · rename_i hvoid
      split at h
      · cases h
      · rename_i hdone
        rw [if_neg hvoid, if_neg hdone]
        exact ih h

/-- What is read to its end without anything left has not stopped before its last byte. -/
theorem more_of_append (h : (exec seen (xs ++ ys) cs m).left = []) (hys : ys ≠ []) :
    (exec seen xs cs m).outcome = .more := by
  by_contra hstop
  rw [exec_append_of_stop hstop] at h
  exact hys (List.append_eq_nil_iff.mp h).2

theorem isVoid_of_ne_error (hcs : cs.isVoid = false) (h : (exec seen xs cs m).outcome ≠ .error) :
    (exec seen xs cs m).cs.isVoid = false := by
  induction xs generalizing seen cs m with
  | nil => exact hcs
  | cons c xs ih =>
    simp only [exec] at h ⊢
    split at h
    · exact absurd rfl h
    · rename_i hvoid
      rw [if_neg hvoid]
      split at h
      · rename_i hdone
        rw [if_pos hdone]
        exact Bool.eq_false_iff.mpr hvoid
      · rename_i hdone
        rw [if_neg hdone]
        exact ih (Bool.eq_false_iff.mpr hvoid) h

/-- A machine that finishes with `done` is not finished where the loop wants more. -/
theorem not_nullable_of_more (hcs : cs.FinishesWith .done) (hnull : cs.nullable = false)
    (h : (exec seen xs cs m).outcome = .more) : (exec seen xs cs m).cs.nullable = false := by
  induction xs generalizing seen cs m with
  | nil => exact hnull
  | cons c xs ih =>
    simp only [exec] at h ⊢
    split at h
    · cases h
    · rename_i hvoid
      split at h
      · cases h
      · rename_i hdone
        rw [if_neg hvoid, if_neg hdone]
        refine ih (hcs.deriv c.toNat) ?_ h
        exact Bool.eq_false_iff.mpr fun htrue ↦ hdone (hcs.mem_of_nullable htrue)

/-! ### Resuming in another buffer -/

/-- Two results that differ in their marks only. -/
structure Agree (r s : ScanResult κ φ) : Prop where
  outcome : r.outcome = s.outcome
  cs : r.cs = s.cs
  calls : r.calls = s.calls
  left : r.left = s.left

theorem exec_fresh {first : List Byte} {g : Marks} (h : Fresh first.length g m)
    (hspans : ∀ s ∈ (exec (first ++ seen) xs cs g).spans, first.length ≤ s.1) :
    Agree (exec seen xs cs m) (exec (first ++ seen) xs cs g) := by
  induction xs generalizing seen cs g m with
  | nil => exact ⟨rfl, rfl, rfl, rfl⟩
  | cons c xs ih =>
    simp only [exec] at hspans ⊢
    split at hspans
    · rename_i hvoid
      rw [if_pos hvoid, if_pos hvoid]
      exact ⟨rfl, rfl, rfl, rfl⟩
    · rename_i hvoid
      rw [if_neg hvoid, if_neg hvoid]
      split at hspans
      · rename_i hdone
        rw [if_pos hdone, if_pos hdone]
        exact ⟨rfl, rfl, h.callAll hspans, rfl⟩
      · rename_i hdone
        obtain ⟨hnow, hlater⟩ := List.forall_mem_append.mp hspans
        rw [if_neg hdone, if_neg hdone]
        rw [List.append_assoc] at hlater ⊢
        obtain ⟨houtcome, hcs, hcalls, hleft⟩ := ih h.setAll hlater
        exact ⟨houtcome, hcs, by rw [h.callAll hnow, hcalls], hleft⟩

theorem below_exec (h : Below seen.length m) :
    Below (seen ++ xs).length (exec seen xs cs m).marks := by
  induction xs generalizing seen cs m with
  | nil => rwa [List.append_nil]
  | cons c xs ih =>
    have hlength : (seen ++ c :: xs).length = seen.length + 1 + xs.length := by
      rw [List.length_append, List.length_cons]
      omega
    have hnow : Below (seen.length + 1) (setAll seen.length m (step cs c).2) :=
      (h.mono (Nat.le_succ _)).setAll
    simp only [exec]
    split
    · exact h.mono (by omega)
    · split
      · exact hnow.mono (by omega)
      · have hlength' : (seen ++ [c]).length = seen.length + 1 := List.length_append
        rw [← hlength'] at hnow
        rw [← List.singleton_append, ← List.append_assoc]
        exact ih hnow

theorem le_of_mem_spans {s : ℕ × ℕ} (h : s ∈ (exec seen xs cs m).spans) : seen.length ≤ s.2 := by
  induction xs generalizing seen cs m with
  | nil => cases h
  | cons c xs ih =>
    simp only [exec] at h
    split at h
    · cases h
    · split at h
      · exact Nat.le_of_eq (end_of_mem_spanAll h).symm
      · rcases List.mem_append.mp h with hnow | hlater
        · exact Nat.le_of_eq (end_of_mem_spanAll hnow).symm
        · have hle := ih hlater
          rw [List.length_append] at hle
          omega

end Scanner

/-! ### A message in several buffers -/

section Segments

open Scanner

variable {κ φ : Type} [DecidableEq κ] [DecidableEq φ]

/-- The machine reads the text as one message, in one buffer. -/
structure ReadsWhole (cs : Expr (ScanAction κ φ)) (text : List Byte) : Prop where
  outcome : (exec [] text cs {}).outcome = .done
  left : (exec [] text cs {}).left = []
  finished : (exec [] text cs {}).cs.nullable

/-- No callback of the message depends on bytes on both sides of the offset, nor is made there. -/
def UncutAt (cs : Expr (ScanAction κ φ)) (text : List Byte) (off : ℕ) : Prop :=
  ∀ s ∈ (exec [] text cs {}).spans, s.1 < off → s.2 < off

variable {cs : Expr (ScanAction κ φ)} {text first rest data : List Byte} {m : Marks}

theorem UncutAt.zero : UncutAt cs text 0 :=
  fun _ _ hlt ↦ absurd hlt (Nat.not_lt_zero _)

theorem ReadsWhole.more (h : ReadsWhole cs (first ++ rest)) (hrest : rest ≠ []) :
    (exec [] first cs {}).outcome = .more :=
  more_of_append h.left hrest

/-- The machine reads the next part of a message in a buffer of its own as it reads it behind the
first part. -/
theorem exec_segment (h : ReadsWhole cs (first ++ (data ++ rest))) (hdata : data ≠ [])
    (huncut : UncutAt cs (first ++ (data ++ rest)) first.length)
    (hm : first = [] → m.queryStart = 0) :
    Agree (followedBy (exec [] first cs {}) (exec [] data (exec [] first cs {}).cs m.reset))
      (exec [] (first ++ data) cs {}) := by
  have hmore := h.more (List.append_ne_nil_of_left_ne_nil hdata rest)
  have hdataEq : exec [] (first ++ data) cs {} = followedBy (exec [] first cs {})
      (exec first data (exec [] first cs {}).cs (exec [] first cs {}).marks) := exec_append hmore
  have hall : ∀ s ∈ (exec [] (first ++ data) cs {}).spans,
      s ∈ (exec [] (first ++ (data ++ rest)) cs {}).spans := by
    intro s hs
    rw [← List.append_assoc]
    cases rest with
    | nil => rwa [List.append_nil]
    | cons c rest =>
      rw [← List.append_assoc] at h
      rw [exec_append (h.more (List.cons_ne_nil c rest))]
      exact List.mem_append_left _ hs
  have hspans : ∀ s ∈ (exec first data (exec [] first cs {}).cs (exec [] first cs {}).marks).spans,
      first.length ≤ s.1 := by
    intro s hs
    have hle := le_of_mem_spans hs
    by_contra hlt
    have hcut := huncut s (hall s (by rw [hdataEq]; exact List.mem_append_right _ hs)) (by omega)
    omega
  have hfresh : Fresh first.length (exec [] first cs {}).marks m.reset := by
    cases first with
    | nil =>
      have hquery := hm rfl
      exact ⟨fun _ ↦ rfl, fun _ ↦ rfl, fun _ ↦ rfl, fun _ ↦ hquery⟩
    | cons c first =>
      have hbelow : Below ([] ++ c :: first).length (exec [] (c :: first) cs {}).marks :=
        below_exec ⟨Nat.le_refl _, Nat.le_refl _, Nat.le_refl _, Nat.le_refl _⟩
      obtain ⟨hmark, hfield, hlen, hquery⟩ := hbelow
      simp only [List.nil_append, List.length_cons] at hmark hfield hlen hquery ⊢
      exact ⟨fun hle ↦ absurd hmark (by omega), fun hle ↦ absurd hfield (by omega),
        fun hle ↦ absurd hlen (by omega), fun hle ↦ absurd hquery (by omega)⟩
  have hnil : first ++ [] = first := List.append_nil first
  obtain ⟨houtcome, hcs, hcalls, hleft⟩ := exec_fresh hfresh (by rwa [hnil])
  rw [hnil] at houtcome hcs hcalls hleft
  rw [hdataEq]
  exact ⟨houtcome, hcs, congrArg ((exec [] first cs {}).calls ++ ·) hcalls, hleft⟩

end Segments

end Rsylar.Http
