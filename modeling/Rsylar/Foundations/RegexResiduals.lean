import Rsylar.Foundations.ActionRegex

/-!
# What residuals are made of

A residual has no character set and no action that its expression does not have (`madeOf_deriv`),
whatever is read. So a byte that no set of an expression has cannot be read in any of its residuals
(`deriv_of_avoids`), and a part whose delimiter it avoids is left exactly there: the part is read on
with every other byte (`deriv_catOf_within`), and with the delimiter it is left, with the actions of
its end (`deriv_catOf_behind`). No table of the residuals of the part is needed. `StopsWith` is an
action with which an expression finishes and that runs nowhere else.
-/

set_option autoImplicit false
set_option relaxedAutoImplicit false

namespace ActionRegex.Expr

variable {α : Type}

/-- All character sets satisfy `f` and all actions satisfy `p`. -/
def madeOf (f : CharSet → Bool) (p : α → Bool) : Expr α → Bool
  | void => true
  | empty => true
  | chars s => f s
  | cat r s => r.madeOf f p && s.madeOf f p
  | alt r s => r.madeOf f p && s.madeOf f p
  | star r => r.madeOf f p
  | enter _ a r => p a && r.madeOf f p
  | leave r _ a => p a && r.madeOf f p
  | finish r _ a => p a && r.madeOf f p
  | guard r s => r.madeOf f p && s.madeOf f p

attribute [local simp] madeOf

/-- No character set has the byte. -/
def avoids (c : ℕ) (r : Expr α) : Bool := r.madeOf (fun s ↦ !s.mem c) fun _ ↦ true

theorem mem_singleton {c d : ℕ} : (CharSet.range d d).mem c = true ↔ c = d := by
  simp only [CharSet.mem, Bool.and_eq_true, Nat.ble_eq]
  omega

theorem avoids_lit {c d : ℕ} : (lit d : Expr α).avoids c ↔ c ≠ d := by
  rw [avoids, lit, madeOf, Bool.not_eq_true', Bool.eq_false_iff, ne_eq, mem_singleton]

theorem nullable_catOf {r s : Expr α} : (catOf r s).nullable = (r.nullable && s.nullable) := by
  cases r <;> rfl

theorem isVoid_catOf {r s : Expr α} (hs : s.isVoid = false) : (catOf r s).isVoid = r.isVoid := by
  cases r with
  | empty => exact hs
  | _ => rfl

section MadeOf

variable {f g : CharSet → Bool} {p q : α → Bool} {r s : Expr α}

theorem madeOf_number (r : Expr α) (n : ℕ) : (r.number n).1.madeOf f p = r.madeOf f p := by
  induction r generalizing n with
  | void | empty | chars => rfl
  | cat r s hr hs | alt r s hr hs | guard r s hr hs => rw [number, madeOf, madeOf, hr, hs]
  | star r hr | enter _ a r hr | leave r _ a hr | finish r _ a hr => rw [number, madeOf, madeOf, hr]

theorem madeOf_mono (h : r.madeOf f p) (hf : ∀ s, f s → g s) (hp : ∀ a, p a → q a) :
    r.madeOf g q := by
  induction r with
  | void | empty => rfl
  | chars s => exact hf s h
  | cat r s hr hs | alt r s hr hs | guard r s hr hs =>
    rw [madeOf, Bool.and_eq_true] at h ⊢
    exact ⟨hr h.1, hs h.2⟩
  | star r hr => exact hr h
  | enter _ a r hr | leave r _ a hr | finish r _ a hr =>
    rw [madeOf, Bool.and_eq_true] at h ⊢
    exact ⟨hp a h.1, hr h.2⟩

theorem madeOf_catOf (hr : r.madeOf f p) (hs : s.madeOf f p) : (catOf r s).madeOf f p := by
  unfold catOf
  split
  · rfl
  · exact hs
  · rw [madeOf, hr, hs]
    rfl

theorem madeOf_guardOf (hr : r.madeOf f p) (hs : s.madeOf f p) : (guardOf r s).madeOf f p := by
  unfold guardOf
  split
  · rfl
  · rw [madeOf, hr, hs]
    rfl

theorem madeOf_leaveOf {n : ℕ} {a : α} (ha : p a) (hr : r.madeOf f p) :
    (leaveOf r n a).madeOf f p := by
  unfold leaveOf
  split
  · rfl
  · rw [madeOf, ha, hr]
    rfl

theorem madeOf_finishOf {n : ℕ} {a : α} (ha : p a) (hr : r.madeOf f p) :
    (finishOf r n a).madeOf f p := by
  unfold finishOf
  split
  · rfl
  · rw [madeOf, ha, hr]
    rfl

variable [DecidableEq α]

theorem madeOf_altOf (hr : r.madeOf f p) (hs : s.madeOf f p) : (altOf r s).madeOf f p := by
  fun_induction altOf r s with
  | case1 s => exact hs
  | case2 r₁ r₂ s ih₂ ih₁ =>
    rw [madeOf, Bool.and_eq_true] at hr
    exact ih₁ hr.1 (ih₂ hr.2 hs)
  | case3 | case4 => assumption
  | case5 => rw [madeOf, hr, hs]; rfl

theorem of_mem_insertAction {a b : ℕ × α} {as : List (ℕ × α)} (h : b ∈ insertAction a as) :
    b = a ∨ b ∈ as := by
  induction as with
  | nil => exact .inl (List.mem_singleton.mp h)
  | cons c cs ih =>
    rw [insertAction] at h
    split at h
    · exact List.mem_cons.mp h
    · split at h
      · exact .inr h
      · rcases List.mem_cons.mp h with rfl | hmem
        · exact .inr List.mem_cons_self
        · exact (ih hmem).imp_right (List.mem_cons_of_mem c)

theorem of_mem_mergeActions {b : ℕ × α} {as bs : List (ℕ × α)} (h : b ∈ mergeActions as bs) :
    b ∈ as ∨ b ∈ bs := by
  induction as with
  | nil => exact .inr h
  | cons a as ih =>
    rcases of_mem_insertAction h with rfl | hmem
    · exact .inl List.mem_cons_self
    · exact (ih hmem).imp_left (List.mem_cons_of_mem a)

/-- The actions of leaving an expression are its actions. -/
theorem of_mem_outs (h : r.madeOf f p) : ∀ a ∈ r.outs, p a.2 := by
  induction r with
  | void | empty | chars | star => exact fun a ha ↦ absurd ha List.not_mem_nil
  | cat r s hr hs | guard r s hr hs =>
    rw [madeOf, Bool.and_eq_true] at h
    intro a ha
    exact (of_mem_mergeActions ha).elim (hr h.1 a) (hs h.2 a)
  | alt r s hr hs =>
    rw [madeOf, Bool.and_eq_true] at h
    intro a ha
    rcases of_mem_mergeActions ha with hmem | hmem
    · split at hmem
      · exact hr h.1 a hmem
      · exact absurd hmem List.not_mem_nil
    · split at hmem
      · exact hs h.2 a hmem
      · exact absurd hmem List.not_mem_nil
  | enter n b r hr | leave r n b hr =>
    rw [madeOf, Bool.and_eq_true] at h
    intro a ha
    rcases of_mem_insertAction ha with rfl | hmem
    · exact h.1
    · exact hr h.2 a hmem
  | finish r n b hr =>
    rw [madeOf, Bool.and_eq_true] at h
    exact hr h.2

/-- The residual and the actions of the transition have nothing that is not in the expression. -/
theorem madeOf_deriv (h : r.madeOf f p) (c : ℕ) :
    (r.deriv c).1.madeOf f p ∧ ∀ a ∈ (r.deriv c).2, p a.2 := by
  induction r with
  | void | empty => exact ⟨rfl, fun a ha ↦ absurd ha List.not_mem_nil⟩
  | chars s =>
    refine ⟨?_, fun a ha ↦ absurd ha List.not_mem_nil⟩
    rw [deriv]
    split <;> rfl
  | cat r s hr hs =>
    have hcat := Bool.and_eq_true_iff.mp h
    obtain ⟨hr', has⟩ := hr hcat.1
    obtain ⟨hs', hbs⟩ := hs hcat.2
    simp only [deriv]
    split
    · split
      · exact ⟨madeOf_catOf hr' hcat.2, has⟩
      · refine ⟨madeOf_altOf (madeOf_catOf hr' hcat.2) hs', fun a ha ↦ ?_⟩
        refine (of_mem_mergeActions ha).elim (has a) fun hmem ↦ ?_
        exact (of_mem_mergeActions hmem).elim (of_mem_outs hcat.1 a) (hbs a)
    · exact ⟨madeOf_catOf hr' hcat.2, has⟩
  | alt r s hr hs =>
    have halt := Bool.and_eq_true_iff.mp h
    obtain ⟨hr', has⟩ := hr halt.1
    obtain ⟨hs', hbs⟩ := hs halt.2
    exact ⟨madeOf_altOf hr' hs', fun a ha ↦ (of_mem_mergeActions ha).elim (has a) (hbs a)⟩
  | star r hr =>
    obtain ⟨hr', has⟩ := hr h
    exact ⟨madeOf_catOf hr' h, has⟩
  | enter n b r hr =>
    have henter := Bool.and_eq_true_iff.mp h
    obtain ⟨hr', has⟩ := hr henter.2
    refine ⟨hr', fun a ha ↦ ?_⟩
    simp only [deriv] at ha
    split at ha
    · exact absurd ha List.not_mem_nil
    · rcases of_mem_insertAction ha with rfl | hmem
      · exact henter.1
      · exact has a hmem
  | leave r n b hr =>
    have hleave := Bool.and_eq_true_iff.mp h
    obtain ⟨hr', has⟩ := hr hleave.2
    exact ⟨madeOf_leaveOf hleave.1 hr', has⟩
  | finish r n b hr =>
    have hfinish := Bool.and_eq_true_iff.mp h
    obtain ⟨hr', has⟩ := hr hfinish.2
    refine ⟨madeOf_finishOf hfinish.1 hr', fun a ha ↦ ?_⟩
    simp only [deriv] at ha
    split at ha
    · rcases of_mem_insertAction ha with rfl | hmem
      · exact hfinish.1
      · exact has a hmem
    · exact has a ha
  | guard r s hr hs =>
    have hguard := Bool.and_eq_true_iff.mp h
    obtain ⟨hr', has⟩ := hr hguard.1
    obtain ⟨hs', hbs⟩ := hs hguard.2
    simp only [deriv]
    split
    · split
      · exact ⟨madeOf_guardOf hr' hguard.2, has⟩
      · exact ⟨hs', fun a ha ↦ (of_mem_mergeActions ha).elim (of_mem_outs hguard.1 a) (hbs a)⟩
    · exact ⟨madeOf_guardOf hr' hguard.2, has⟩

/-- Without actions there are none of a transition. -/
theorem deriv_snd_of_madeOf (h : r.madeOf f fun _ ↦ false) (c : ℕ) : (r.deriv c).2 = [] := by
  rw [List.eq_nil_iff_forall_not_mem]
  intro a ha
  exact Bool.false_ne_true ((madeOf_deriv h c).2 a ha)

theorem outs_of_madeOf (h : r.madeOf f fun _ ↦ false) : r.outs = [] := by
  rw [List.eq_nil_iff_forall_not_mem]
  intro a ha
  exact Bool.false_ne_true (of_mem_outs h a ha)

end MadeOf

/-! ### Delimiters -/

section Delimiters

variable [DecidableEq α] {r s : Expr α} {c : ℕ}

theorem deriv_of_avoids (h : r.avoids c) : r.deriv c = (void, []) := by
  induction r with
  | void | empty => rfl
  | chars s =>
    have hmem : s.mem c = false := Bool.not_eq_true' _ ▸ h
    rw [deriv, hmem]
    rfl
  | cat r s hr hs | guard r s hr hs =>
    have hparts := Bool.and_eq_true_iff.mp h
    simp only [deriv, hr hparts.1, hs hparts.2, isVoid, if_true, ite_self]
    rfl
  | alt r s hr hs =>
    have hparts := Bool.and_eq_true_iff.mp h
    rw [deriv, hr hparts.1, hs hparts.2]
    rfl
  | star r hr => rw [deriv, hr h]; rfl
  | enter n a r hr | leave r n a hr | finish r n a hr => rw [deriv, hr h]; rfl

/-- A byte with which the second part cannot begin. -/
theorem deriv_catOf_within (h : s.deriv c = (void, [])) :
    (catOf r s).deriv c = (catOf (r.deriv c).1 s, (r.deriv c).2) := by
  have hcat : (cat r s).deriv c = (catOf (r.deriv c).1 s, (r.deriv c).2) := by
    simp only [deriv, h, isVoid, if_true, ite_self]
  cases r with
  | void => rfl
  | empty => exact h
  | _ => exact hcat

/-- A byte that the first part avoids: the part is left, if it can end there. -/
theorem deriv_catOf_behind (havoids : r.avoids c) (hvoid : (s.deriv c).1.isVoid = false) :
    (catOf r s).deriv c =
      if r.nullable then ((s.deriv c).1, mergeActions r.outs (s.deriv c).2) else (void, []) := by
  have hcat : (cat r s).deriv c =
      if r.nullable then ((s.deriv c).1, mergeActions r.outs (s.deriv c).2) else (void, []) := by
    simp only [deriv, deriv_of_avoids havoids, hvoid, Bool.false_eq_true, if_false]
    rfl
  cases r with
  | void => rfl
  | empty => rfl
  | _ => exact hcat

theorem deriv_cat_lit {d : ℕ} :
    (cat (lit d) s).deriv c = if c = d then (s, []) else (void, []) := by
  simp only [lit, deriv, mem_singleton, nullable, Bool.false_eq_true, if_false]
  split
  · rfl
  · rfl

theorem residual_append (r : Expr α) (v w : List ℕ) :
    r.residual (v ++ w) = (r.residual v).residual w :=
  List.foldl_append

theorem madeOf_residual {f : CharSet → Bool} {p : α → Bool} (h : r.madeOf f p) (w : List ℕ) :
    (r.residual w).madeOf f p := by
  induction w generalizing r with
  | nil => exact h
  | cons c w ih => exact ih (madeOf_deriv h c).1

end Delimiters

/-! ### An action at the end and nowhere else -/

/-- The whole expression finishes with the action, and no part of it has the action. -/
def StopsWith [DecidableEq α] (a : α) (r : Expr α) : Prop :=
  r = void ∨ ∃ s n, r = finish s n a ∧ s.madeOf (fun _ ↦ true) fun b ↦ decide (b ≠ a)

namespace StopsWith

variable [DecidableEq α] {a : α} {r : Expr α} {c : ℕ}

theorem deriv (h : StopsWith a r) : StopsWith a (r.deriv c).1 := by
  rcases h with rfl | ⟨s, n, rfl, hs⟩
  · exact .inl rfl
  · simp only [Expr.deriv, finishOf]
    split
    · exact .inl rfl
    · exact .inr ⟨_, n, rfl, (madeOf_deriv hs c).1⟩

/-- Where the action runs the expression may end. -/
theorem nullable_of_mem (h : StopsWith a r) (hmem : a ∈ (r.deriv c).2.map Prod.snd) :
    (r.deriv c).1.nullable := by
  rcases h with rfl | ⟨s, n, rfl, hs⟩
  · exact absurd hmem List.not_mem_nil
  · simp only [Expr.deriv, finishOf] at hmem ⊢
    by_cases hnull : (s.deriv c).1.nullable
    · have hvoid : (s.deriv c).1.isVoid = false := by
        generalize (s.deriv c).1 = r at hnull
        cases r with
        | void => cases hnull
        | _ => rfl
      rw [hvoid]
      exact hnull
    · rw [if_neg hnull] at hmem
      obtain ⟨b, hb, rfl⟩ := List.mem_map.mp hmem
      exact absurd rfl (of_decide_eq_true ((madeOf_deriv hs c).2 b hb))

end StopsWith

end ActionRegex.Expr
