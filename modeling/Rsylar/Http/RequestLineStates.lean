import Rsylar.Foundations.RegexResiduals
import Rsylar.Http.Headers
import Rsylar.Http.RequestGrammar

/-!
# The states in a request line

The machine of the requests taken apart at the delimiters of the request line: what is left of the
line (`inLine`) when the method, the URI or the version is being read, and the transitions of these
states. No table of the states of the URI is made: it is a part that avoids blanks. The versions of
the grammar are the two texts of `eq_of_accepts_versionText`.
-/

set_option autoImplicit false
set_option relaxedAutoImplicit false

namespace Rsylar.Http

open ActionRegex Scanner

namespace HttpParser

open Expr CharSet

/-! ### The parts of the grammar -/

section Parts

variable (relaxed : Bool)

def methodText : RequestExpr :=
  cat (chars (union upper digit)) (upTo 19 (chars (union upper digit)))

def versionText : RequestExpr := cat (str "HTTP/") httpNumber

def uriPart : RequestExpr := ((uriReference relaxed).number 2).1

/-- The number of the first action behind the URI. -/
def uriEnd : ℕ := ((uriReference relaxed).number 2).2

def headerPart : RequestExpr := ((cat (star messageHeader) crlf).number (uriEnd relaxed + 2)).1

def headerEnd : ℕ := ((cat (star messageHeader) crlf).number (uriEnd relaxed + 2)).2

def socketPart : RequestExpr := ((socketRequest relaxed).number (headerEnd relaxed)).1

def lastNumber : ℕ := ((socketRequest relaxed).number (headerEnd relaxed)).2

/-- An element with its delimiter and what is behind it, when the element has been begun. -/
def begun (r : RequestExpr) (n : ℕ) (k : RequestToken) (s : RequestExpr) : RequestExpr :=
  cat (leave r n (.token k)) s

def fromVersion : RequestExpr :=
  begun (enter (uriEnd relaxed) .mark versionText) (uriEnd relaxed + 1) .httpVersion crlf

def fromUri : RequestExpr := cat (uriPart relaxed) (cat (lit 32) (fromVersion relaxed))

def fromMethod : RequestExpr :=
  begun (enter 0 .mark methodText) 1 .requestMethod (cat (lit 32) (fromUri relaxed))

/-- The state in which `r` is left of the request line. -/
def inLine (r : RequestExpr) : RequestExpr :=
  finishOf (catOf r (headerPart relaxed)) (lastNumber relaxed) .done

theorem number_method :
    method.number 0 = (leave (enter 0 .mark methodText) 1 (.token .requestMethod), 2) := rfl

theorem number_httpVersion (n : ℕ) : httpVersion.number n =
    (leave (enter n .mark versionText) (n + 1) (.token .httpVersion), n + 2) := rfl

theorem number_requestLine :
    (requestLine relaxed).number 0 = (fromMethod relaxed, uriEnd relaxed + 2) := by
  have hblank : (str " " : RequestExpr) = lit 32 := rfl
  have hcrlf : ∀ n, crlf.number n = (crlf, n) := fun _ ↦ rfl
  simp only [requestLine, seqAll, number, number_method, number_httpVersion, hblank, hcrlf, lit]
  rfl

theorem start_eq : start relaxed =
    finish (alt (cat (fromMethod relaxed) (headerPart relaxed)) (socketPart relaxed))
      (lastNumber relaxed) .done := by
  have hseq : request relaxed = cat (requestLine relaxed) (cat (star messageHeader) crlf) := rfl
  have hrequest : (request relaxed).number 0 =
      (cat (fromMethod relaxed) (headerPart relaxed), headerEnd relaxed) := by
    rw [hseq, number, number_requestLine]
    rfl
  rw [start, main, number, number, hrequest]
  rfl

end Parts

/-- The actions of all parts of a message but the method and the version. -/
def otherAction : ScanAction RequestToken Empty → Bool
  | .token .requestMethod | .token .httpVersion => false
  | _ => true

theorem madeOf_uriPart (relaxed : Bool) :
    (uriPart relaxed).madeOf (fun s ↦ !s.mem 32) otherAction := by
  rw [uriPart, madeOf_number]
  revert relaxed
  decide +kernel

theorem madeOf_headerPart (relaxed : Bool) :
    (headerPart relaxed).madeOf (fun _ ↦ true) fun a ↦ otherAction a && decide (a ≠ .done) := by
  rw [headerPart, madeOf_number]
  decide +kernel

theorem stopsWith_start (relaxed : Bool) : (start relaxed).StopsWith .done := by
  refine .inr ⟨_, _, start_eq relaxed, ?_⟩
  revert relaxed
  decide +kernel

theorem deriv_socketPart {relaxed : Bool} {c : ℕ} (hc : (union upper digit).mem c) :
    (socketPart relaxed).deriv c = (void, []) := by
  have hsteady : (socketPart relaxed).steady 48 57 ∧ (socketPart relaxed).deriv 48 = (void, []) ∧
      (socketPart relaxed).steady 65 90 ∧ (socketPart relaxed).deriv 65 = (void, []) := by
    revert relaxed
    decide +kernel
  obtain ⟨hdigit, hdigit', hupper, hupper'⟩ := hsteady
  simp only [CharSet.mem, upper, digit, Bool.or_eq_true, Bool.and_eq_true, Nat.ble_eq] at hc
  rcases hc with ⟨hlo, hhi⟩ | ⟨hlo, hhi⟩
  · rw [deriv_of_steady hupper hlo hhi, hupper']
  · rw [deriv_of_steady hdigit hlo hhi, hdigit']

theorem nullable_headerPart (relaxed : Bool) : (headerPart relaxed).nullable = false := rfl

theorem isVoid_headerPart (relaxed : Bool) : (headerPart relaxed).isVoid = false := rfl

/-! ### Transitions in the request line -/

section Transitions

variable {relaxed : Bool} {r s : RequestExpr} {c : Byte} {n : ℕ} {k : RequestToken}

theorem isVoid_inLine : (inLine relaxed r).isVoid = r.isVoid := by
  have hcat : (catOf r (headerPart relaxed)).isVoid = r.isVoid :=
    isVoid_catOf (isVoid_headerPart relaxed)
  rw [inLine, finishOf, ← hcat]
  split
  · rename_i hvoid
    rw [hvoid]
    rfl
  · rename_i hvoid
    exact (Bool.eq_false_iff.mpr hvoid).symm

theorem not_nullable_inLine : (inLine relaxed r).nullable = false := by
  rw [inLine, finishOf]
  split
  · rfl
  · rw [nullable, nullable_catOf, nullable_headerPart, Bool.and_false]

theorem madeOf_inLine (hr : r.madeOf (fun _ ↦ true) otherAction) :
    (inLine relaxed r).madeOf (fun _ ↦ true) otherAction := by
  apply madeOf_finishOf rfl
  apply madeOf_catOf hr
  refine madeOf_mono (madeOf_headerPart relaxed) (fun _ _ ↦ rfl) fun a ha ↦ ?_
  exact (Bool.and_eq_true_iff.mp ha).1

/-- A byte of the request line. -/
theorem step_inLine (hnull : r.nullable = false) (hvoid : r.isVoid = false) :
    step (inLine relaxed r) c =
      (inLine relaxed (r.deriv c.toNat).1, (r.deriv c.toNat).2.map Prod.snd) := by
  have hline : inLine relaxed r =
      finish (cat r (headerPart relaxed)) (lastNumber relaxed) .done := by
    cases r with
    | void => cases hvoid
    | empty => cases hnull
    | _ => rfl
  have hcat : (catOf (r.deriv c.toNat).1 (headerPart relaxed)).nullable = false := by
    rw [nullable_catOf, nullable_headerPart, Bool.and_false]
  rw [step, hline]
  simp only [Expr.deriv, hnull, Bool.false_eq_true, if_false, hcat]
  rfl

theorem deriv_enter_mark {m : ℕ} (htext : r.madeOf (fun _ ↦ true) fun _ ↦ false)
    (hvoid : (r.deriv c.toNat).1.isVoid = false) :
    (enter m .mark r).deriv c.toNat = ((r.deriv c.toNat).1, [(m, .mark)]) := by
  simp only [Expr.deriv, hvoid, deriv_snd_of_madeOf htext, Bool.false_eq_true, if_false]
  rfl

/-- A byte of an element that has been begun. -/
theorem deriv_begun_within (hs : s.deriv c.toNat = (void, [])) :
    (begun r n k s).deriv c.toNat =
      if (r.deriv c.toNat).1.isVoid then (void, (r.deriv c.toNat).2)
      else (begun (r.deriv c.toNat).1 n k s, (r.deriv c.toNat).2) := by
  have hcat : (begun r n k s).deriv c.toNat =
      (catOf ((leave r n (.token k)).deriv c.toNat).1 s,
        ((leave r n (.token k)).deriv c.toNat).2) :=
    deriv_catOf_within (r := leave r n (.token k)) hs
  rw [hcat]
  simp only [Expr.deriv, leaveOf]
  split
  · rfl
  · rfl

/-- The delimiter behind an element. -/
theorem deriv_begun_behind (htext : r.madeOf (fun _ ↦ true) fun _ ↦ false)
    (havoids : r.avoids c.toNat) (hs : (s.deriv c.toNat).1.isVoid = false)
    (hactions : (s.deriv c.toNat).2 = []) :
    (begun r n k s).deriv c.toNat =
      if r.nullable then ((s.deriv c.toNat).1, [(n, .token k)]) else (void, []) := by
  have hleave : (leave r n (.token k)).avoids c.toNat := by
    rw [avoids, madeOf]
    exact havoids
  have hcat : (begun r n k s).deriv c.toNat =
      if (leave r n (.token k)).nullable then
        ((s.deriv c.toNat).1, mergeActions (leave r n (.token k)).outs (s.deriv c.toNat).2)
      else (void, []) :=
    deriv_catOf_behind hleave hs
  rw [hcat, hactions, outs, outs_of_madeOf htext]
  rfl

theorem step_begun_within (hs : s.deriv c.toNat = (void, [])) (hnull : s.nullable = false)
    (hvoid : (step (inLine relaxed (begun r n k s)) c).1.isVoid = false) :
    (r.deriv c.toNat).1.isVoid = false ∧ step (inLine relaxed (begun r n k s)) c =
      (inLine relaxed (begun (r.deriv c.toNat).1 n k s), (r.deriv c.toNat).2.map Prod.snd) := by
  have hbegun : (begun r n k s).nullable = false := by
    rw [begun, nullable, hnull, Bool.and_false]
  rw [step_inLine hbegun rfl, deriv_begun_within hs] at hvoid ⊢
  rw [isVoid_inLine] at hvoid
  split at hvoid
  · cases hvoid
  · rename_i hread
    rw [if_neg hread]
    exact ⟨Bool.eq_false_iff.mpr hread, rfl⟩

theorem step_begun_behind (htext : r.madeOf (fun _ ↦ true) fun _ ↦ false)
    (havoids : r.avoids c.toNat) (hs : (s.deriv c.toNat).1.isVoid = false)
    (hactions : (s.deriv c.toNat).2 = []) (hnull : s.nullable = false)
    (hvoid : (step (inLine relaxed (begun r n k s)) c).1.isVoid = false) :
    r.nullable ∧ step (inLine relaxed (begun r n k s)) c =
      (inLine relaxed (s.deriv c.toNat).1, [.token k]) := by
  have hbegun : (begun r n k s).nullable = false := by
    rw [begun, nullable, hnull, Bool.and_false]
  rw [step_inLine hbegun rfl, deriv_begun_behind htext havoids hs hactions] at hvoid ⊢
  rw [isVoid_inLine] at hvoid
  split at hvoid
  · rename_i hend
    rw [if_pos hend]
    exact ⟨hend, rfl⟩
  · cases hvoid

/-- The first byte of a method. -/
theorem step_start (hc : (union upper digit).mem c.toNat) :
    step (start relaxed) c =
      (inLine relaxed (begun (methodText.deriv c.toNat).1 1 .requestMethod
        (cat (lit 32) (fromUri relaxed))), [.mark]) := by
  have hblank : (cat (lit 32) (fromUri relaxed)).deriv c.toNat = (void, []) := by
    rw [deriv_cat_lit, if_neg]
    intro heq
    rw [heq] at hc
    cases hc
  have htext : methodText.deriv c.toNat = (upTo 19 (chars (union upper digit)), []) := by
    simp only [methodText, Expr.deriv, hc, nullable, Bool.false_eq_true, if_true, if_false]
    rfl
  have hmethod : (fromMethod relaxed).deriv c.toNat =
      (begun (methodText.deriv c.toNat).1 1 .requestMethod (cat (lit 32) (fromUri relaxed)),
        [(0, .mark)]) := by
    rw [fromMethod, deriv_begun_within hblank]
    simp only [Expr.deriv, htext]
    rfl
  have hcat : (cat (fromMethod relaxed) (headerPart relaxed)).deriv c.toNat =
      (cat (begun (methodText.deriv c.toNat).1 1 .requestMethod (cat (lit 32) (fromUri relaxed)))
        (headerPart relaxed), [(0, .mark)]) := by
    have hnull : (fromMethod relaxed).nullable = false := rfl
    simp only [Expr.deriv, hmethod, hnull, Bool.false_eq_true, if_false]
    rfl
  have halt : (alt (cat (fromMethod relaxed) (headerPart relaxed))
      (socketPart relaxed)).deriv c.toNat =
      (cat (begun (methodText.deriv c.toNat).1 1 .requestMethod (cat (lit 32) (fromUri relaxed)))
        (headerPart relaxed), [(0, .mark)]) := by
    rw [Expr.deriv, hcat, deriv_socketPart hc]
    rfl
  have hnull : (cat (begun (methodText.deriv c.toNat).1 1 .requestMethod
      (cat (lit 32) (fromUri relaxed))) (headerPart relaxed)).nullable = false := by
    rw [nullable, nullable_headerPart, Bool.and_false]
  rw [step, start_eq, Expr.deriv, halt]
  simp only [hnull]
  rfl

end Transitions

/-! ### The versions of the grammar -/

/-- How the versions of the grammar begin. -/
def versionBeginnings : List (List ℕ) :=
  ((bytesOf "HTTP/1.1").map BitVec.toNat).inits ++ ((bytesOf "HTTP/1.0").map BitVec.toNat).inits

theorem versionText_residuals :
    (versionBeginnings.all fun w ↦ (List.range 256).all fun c ↦
      ((versionText.residual w).deriv c).1.isVoid || decide (w ++ [c] ∈ versionBeginnings)) ∧
    versionBeginnings.all fun w ↦ !versionText.accepts w ||
      decide (w = (bytesOf "HTTP/1.1").map BitVec.toNat) ||
      decide (w = (bytesOf "HTTP/1.0").map BitVec.toNat) := by
  decide +kernel

theorem mem_versionBeginnings {w : List ℕ} {t : List Byte} (hw : w ∈ versionBeginnings)
    (h : (versionText.residual (w ++ t.map BitVec.toNat)).isVoid = false) :
    w ++ t.map BitVec.toNat ∈ versionBeginnings := by
  induction t generalizing w with
  | nil => rwa [List.map_nil, List.append_nil]
  | cons c t ih =>
    have hrow := List.all_eq_true.mp versionText_residuals.1 w hw
    have hentry := List.all_eq_true.mp hrow c.toNat (List.mem_range.mpr c.isLt)
    rw [List.map_cons, List.append_cons] at h ⊢
    refine ih ?_ h
    rcases Bool.or_eq_true_iff.mp hentry with hvoid | hmem
    · rw [residual_append, residual_append] at h
      generalize hr : ((versionText.residual w).deriv c.toNat).1 = r at hvoid
      cases r with
      | void =>
        have hnone : (versionText.residual w).residual [c.toNat] = void := hr
        rw [hnone, residual_void] at h
        cases h
      | _ => cases hvoid
    · exact of_decide_eq_true hmem

/-- The grammar has two versions. -/
theorem eq_of_accepts_versionText {t : List Byte}
    (h : versionText.accepts (t.map BitVec.toNat)) :
    t = bytesOf "HTTP/1.1" ∨ t = bytesOf "HTTP/1.0" := by
  have hinj : Function.Injective (List.map (BitVec.toNat (w := 8))) :=
    List.map_injective_iff.mpr fun _ _ ↦ BitVec.eq_of_toNat_eq
  have hvoid : (versionText.residual ([] ++ t.map BitVec.toNat)).isVoid = false := by
    rw [accepts] at h
    rw [List.nil_append]
    generalize versionText.residual (t.map BitVec.toNat) = r at h
    cases r with
    | void => cases h
    | _ => rfl
  have hmem := mem_versionBeginnings (by decide) hvoid
  have hentry := List.all_eq_true.mp versionText_residuals.2 _ hmem
  rw [List.nil_append, h] at hentry
  simp only [Bool.not_true, Bool.false_or, Bool.or_eq_true, decide_eq_true_eq] at hentry
  exact hentry.imp (hinj ·) (hinj ·)

end HttpParser

end Rsylar.Http
