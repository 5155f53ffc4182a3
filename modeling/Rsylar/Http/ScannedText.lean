import Rsylar.Http.Scanner

/-!
# Texts that a machine reads

`Reaches` is what the loop does with a text behind which more is to come: the state it ends in, the
marks and the callbacks; `Finishes` is what it does with the last text of a message. A text is put
together from single bytes and from elements, which are parts of any length with the byte behind
them (`reaches_element`).
-/

set_option autoImplicit false
set_option relaxedAutoImplicit false

namespace Rsylar.Http

open ActionRegex

namespace Scanner

variable {κ φ : Type} [DecidableEq κ] [DecidableEq φ]

/-- The actions that only set marks. -/
def onlyMarks : ScanAction κ φ → Bool
  | .mark | .startField | .writeField | .startQuery | .skip => true
  | .token _ | .queryString | .writeValue | .flag _ | .done => false

/-- After the bytes `seen` of a buffer the loop reads the text. -/
structure Reaches (seen text : List Byte) (cs : Expr (ScanAction κ φ)) (m : Marks)
    (cs' : Expr (ScanAction κ φ)) (m' : Marks) (calls : List (ScanCall κ φ)) : Prop where
  outcome : (exec seen text cs m).outcome = .more
  state : (exec seen text cs m).cs = cs'
  marks : (exec seen text cs m).marks = m'
  calls : (exec seen text cs m).calls = calls

/-- After the bytes `seen` of a buffer the text ends the message. -/
structure Finishes (seen text : List Byte) (cs : Expr (ScanAction κ φ)) (m : Marks)
    (calls : List (ScanCall κ φ)) : Prop where
  outcome : (exec seen text cs m).outcome = .done
  left : (exec seen text cs m).left = []
  finished : (exec seen text cs m).cs.nullable
  calls : (exec seen text cs m).calls = calls

variable {seen text rest : List Byte} {c : Byte} {cs cs' cs'' : Expr (ScanAction κ φ)}
  {m m' m'' : Marks} {as bs : List (ScanAction κ φ)} {calls calls' : List (ScanCall κ φ)}

theorem reaches_nil : Reaches seen [] cs m cs m [] := ⟨rfl, rfl, rfl, rfl⟩

theorem Reaches.append (h : Reaches seen text cs m cs' m' calls)
    (hrest : Reaches (seen ++ text) rest cs' m' cs'' m'' calls') :
    Reaches seen (text ++ rest) cs m cs'' m'' (calls ++ calls') := by
  obtain ⟨houtcome, rfl, rfl, rfl⟩ := h
  have happend : exec seen (text ++ rest) cs m = followedBy (exec seen text cs m)
      (exec (seen ++ text) rest (exec seen text cs m).cs (exec seen text cs m).marks) :=
    exec_append houtcome
  constructor
  · rw [happend]
    exact hrest.outcome
  · rw [happend]
    exact hrest.state
  · rw [happend]
    exact hrest.marks
  · rw [happend, followedBy, hrest.calls]

theorem Reaches.finish (h : Reaches seen text cs m cs' m' calls)
    (hrest : Finishes (seen ++ text) rest cs' m' calls') :
    Finishes seen (text ++ rest) cs m (calls ++ calls') := by
  obtain ⟨houtcome, rfl, rfl, rfl⟩ := h
  have happend : exec seen (text ++ rest) cs m = followedBy (exec seen text cs m)
      (exec (seen ++ text) rest (exec seen text cs m).cs (exec seen text cs m).marks) :=
    exec_append houtcome
  constructor
  · rw [happend]
    exact hrest.outcome
  · rw [happend]
    exact hrest.left
  · rw [happend]
    exact hrest.finished
  · rw [happend, followedBy, hrest.calls]

theorem Finishes.readsWhole (h : Finishes [] text cs {} calls) : ReadsWhole cs text :=
  ⟨h.outcome, h.left, h.finished⟩

/-- A byte leads from one state to another, with the actions. -/
def Goes (cs : Expr (ScanAction κ φ)) (c : Byte) (cs' : Expr (ScanAction κ φ))
    (as : List (ScanAction κ φ)) : Prop :=
  step cs c = (cs', as) ∧ cs'.isVoid = false

instance : Decidable (Goes cs c cs' as) := instDecidableAnd

theorem goes_of_deriv (hcs : (cs.deriv c.toNat).1 = cs')
    (has : (cs.deriv c.toNat).2.map Prod.snd = as) (hvoid : cs'.isVoid = false) :
    Goes cs c cs' as :=
  ⟨by rw [step, ← hcs, ← has], hvoid⟩

/-- One byte. -/
theorem reaches_byte (h : Goes cs c cs' as) (hdone : .done ∉ as) :
    Reaches seen [c] cs m cs' (setAll seen.length m as) (callAll seen c m as) := by
  obtain ⟨hstep, hvoid⟩ := h
  have hexec : exec seen [c] cs m = ⟨.more, cs', setAll seen.length m as, callAll seen c m as, [],
      spanAll seen.length m as⟩ := by
    simp only [exec, hstep, hvoid, Bool.false_eq_true, if_false, hdone, List.append_nil]
  exact ⟨by rw [hexec], by rw [hexec], by rw [hexec], by rw [hexec]⟩

omit [DecidableEq κ] [DecidableEq φ] in
theorem callAll_of_onlyMarks (has : as.all onlyMarks) : callAll seen c m as = [] := by
  induction as generalizing m with
  | nil => rfl
  | cons a as ih =>
    simp only [List.all_cons, Bool.and_eq_true] at has
    rw [callAll, ih has.2, List.append_nil]
    cases a with
    | mark | startField | writeField | startQuery | skip => rfl
    | token | queryString | writeValue | flag | done => exact absurd has.1 (by simp [onlyMarks])

omit [DecidableEq κ] [DecidableEq φ] in
theorem done_notMem_of_onlyMarks (has : as.all onlyMarks) :
    (ScanAction.done : ScanAction κ φ) ∉ as := by
  intro hmem
  have hdone := List.all_eq_true.mp has _ hmem
  cases hdone

/-- A byte that sets marks. -/
theorem reaches_mark (h : Goes cs c cs' as) (hmarks : as.all onlyMarks) :
    Reaches seen [c] cs m cs' (setAll seen.length m as) [] := by
  have hbyte : Reaches seen [c] cs m cs' (setAll seen.length m as) (callAll seen c m as) :=
    reaches_byte h (done_notMem_of_onlyMarks hmarks)
  rwa [callAll_of_onlyMarks hmarks] at hbyte

/-! ### Elements -/

/-- The ranges between the bounds are all bytes. -/
structure CoversBytes (bounds : List ℕ) : Prop where
  first : bounds.head? = some 0
  last : bounds.getLast? = some 256

variable {bounds : List ℕ} {table : List (Expr (ScanAction κ φ) × Expr (ScanAction κ φ))}
  {r : Expr (ScanAction κ φ)}

theorem CoversBytes.exists_range (h : CoversBytes bounds) (c : Byte) :
    ∃ b ∈ Expr.rangesOf bounds, b.1 ≤ c.toNat ∧ c.toNat ≤ b.2 :=
  Expr.exists_range h.first h.last (Nat.zero_le _) c.isLt

theorem reaches_rest (hbounds : CoversBytes bounds)
    (hfollows : Expr.follows (Expr.rangesOf bounds) table [] table) (hmem : (r, cs) ∈ table)
    (haccepts : r.accepts (text.map BitVec.toNat)) :
    ∃ r' cs', (r', cs') ∈ table ∧ r'.nullable ∧ Reaches seen text cs m cs' m [] := by
  induction text generalizing seen r cs with
  | nil => exact ⟨r, cs, hmem, haccepts, reaches_nil⟩
  | cons c text ih =>
    obtain ⟨b, hb, hlo, hhi⟩ := hbounds.exists_range c
    obtain ⟨hvoid, hactions, hmem'⟩ :=
      Expr.of_follows hfollows hmem hb hlo hhi (Expr.not_void_of_accepts haccepts)
    obtain ⟨r', cs', htable, hnull, hrest⟩ := ih hmem' haccepts
    exact ⟨r', cs', htable, hnull, 
      (reaches_mark (goes_of_deriv rfl hactions hvoid) rfl).append hrest⟩

/-- A part of any length, and the byte behind it. -/
theorem reaches_element {fuel : ℕ} {exits : List (Expr.Exit (ScanAction κ φ))}
    {e : Expr.Exit (ScanAction κ φ)} (hbounds : CoversBytes bounds)
    (hpasses : Expr.passes bounds fuel r cs as exits) (he : e ∈ exits) (hc : c.toNat = e.byte)
    (hmarks : as.all onlyMarks) (hdone : .done ∉ e.actions) (htext : text ≠ [])
    (haccepts : r.accepts (text.map BitVec.toNat)) :
    Reaches seen (text ++ [c]) cs m e.residual
      (setAll (seen ++ text).length (setAll seen.length m as) e.actions)
      (callAll (seen ++ text) c (setAll seen.length m as) e.actions) := by
  obtain ⟨hreads, hleaves⟩ := Bool.and_eq_true_iff.mp hpasses
  obtain ⟨hfirst, hrest⟩ := Bool.and_eq_true_iff.mp hreads
  have hleave := List.all_eq_true.mp hleaves e he
  have hvoid : e.residual.isVoid = false := by
    simpa using (Bool.and_eq_true_iff.mp hleave).1
  cases text with
  | nil => exact absurd rfl htext
  | cons d text =>
    obtain ⟨b, hb, hlo, hhi⟩ := hbounds.exists_range d
    obtain ⟨hvoid', hactions, hmem⟩ := Expr.of_follows hfirst List.mem_cons_self hb hlo hhi
      (Expr.not_void_of_accepts haccepts)
    obtain ⟨r', p, htable, hnull, htext⟩ := reaches_rest hbounds hrest hmem haccepts
    obtain ⟨hcs, hactions'⟩ := Expr.of_leaves hleave htable hnull
    rw [← hc] at hcs hactions'
    exact ((reaches_mark (goes_of_deriv rfl hactions hvoid') hmarks).append htext).append
      (reaches_byte (goes_of_deriv hcs hactions' hvoid) hdone)

end Scanner

end Rsylar.Http
