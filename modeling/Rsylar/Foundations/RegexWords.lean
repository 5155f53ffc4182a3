import Mathlib.Data.List.Forall2
import Rsylar.Foundations.ActionRegex

/-!
# Words with rules of their own

An expression that reads names may have rules for certain words beside the rule for all names. A
name is then read along the rules of all words that it may still become. `readsWords` is checked on
a table of the words' remainders with the expressions there: a byte with which one of the words goes
on leads to another entry and runs no action, and with any other byte only the general rule is left
(`step_of_readsWords`), as it is at the end of a name that is none of the words
(`end_of_readsWords`).

A word is a list of sets, so that a letter may stand for both of its cases.
-/

set_option autoImplicit false
set_option relaxedAutoImplicit false

namespace ActionRegex

namespace CharSet

/-- The bytes of a set. -/
def members : CharSet → List ℕ
  | range lo hi => List.range' lo (hi + 1 - lo)
  | union s t => s.members ++ t.members
  | diff s t => s.members.filter fun c ↦ !t.mem c

theorem mem_members {s : CharSet} {c : ℕ} (h : s.mem c) : c ∈ s.members := by
  induction s with
  | range lo hi =>
    simp only [mem, Bool.and_eq_true, Nat.ble_eq] at h
    rw [members, List.mem_range'_1]
    omega
  | union s t hs ht =>
    rw [mem, Bool.or_eq_true] at h
    exact List.mem_append.mpr (h.imp hs ht)
  | diff s t hs ht =>
    rw [mem, Bool.and_eq_true] at h
    exact List.mem_filter.mpr ⟨hs h.1, h.2⟩

end CharSet

namespace Expr

variable {α : Type}

/-! ### What an expression can begin with -/

def begins : Expr α → List CharSet
  | void => []
  | empty => []
  | chars s => [s]
  | cat r s => r.begins ++ if r.nullable then s.begins else []
  | alt r s => r.begins ++ s.begins
  | star r => r.begins
  | enter _ _ r => r.begins
  | leave r _ _ => r.begins
  | finish r _ _ => r.begins
  | guard r s => r.begins ++ if r.nullable then s.begins else []

variable [DecidableEq α]

theorem deriv_of_begins {r : Expr α} {c : ℕ} (h : ∀ s ∈ r.begins, s.mem c = false) :
    r.deriv c = (void, []) := by
  induction r with
  | void | empty => rfl
  | chars s => rw [deriv, h s List.mem_cons_self, if_neg Bool.false_ne_true]
  | cat r s hr hs | guard r s hr hs =>
    rw [begins, List.forall_mem_append] at h
    simp only [deriv, hr h.1]
    by_cases hnull : r.nullable
    · rw [if_pos hnull] at h
      rw [if_pos hnull, hs h.2]
      rfl
    · rw [if_neg hnull]
      rfl
  | alt r s hr hs =>
    rw [begins, List.forall_mem_append] at h
    rw [deriv, hr h.1, hs h.2]
    rfl
  | star r hr | enter _ _ r hr | leave r _ _ hr | finish r _ _ hr =>
    rw [deriv, hr h]
    rfl

/-! ### Inside a part -/

omit [DecidableEq α] in
theorem catOf_eq {r : Expr α} (hvoid : r.isVoid = false) (hnull : r.nullable = false) (s : Expr α) :
    catOf r s = cat r s := by
  cases r with
  | void => cases hvoid
  | empty => cases hnull
  | _ => rfl

/-- A byte with which something is left to read, and which is not the last one. -/
structure ReadsOn (r : Expr α) (c : ℕ) (r' : Expr α) (as : List (ℕ × α)) : Prop where
  deriv : r.deriv c = (r', as)
  notVoid : r'.isVoid = false
  notNullable : r'.nullable = false

namespace ReadsOn

variable {r r' s : Expr α} {c : ℕ} {as : List (ℕ × α)}

theorem cat (h : ReadsOn r c r' as) (hnull : r.nullable = false) (s : Expr α) :
    ReadsOn (cat r s) c (cat r' s) as where
  deriv := by
    simp only [Expr.deriv, h.deriv, hnull, Bool.false_eq_true, if_false,
      catOf_eq h.notVoid h.notNullable]
  notVoid := rfl
  notNullable := by rw [nullable, h.notNullable, Bool.false_and]

theorem catStar (h : ReadsOn r c r' as) (hs : (s.deriv c).1.isVoid) (hnull : s.nullable = false) :
    ReadsOn (Expr.cat (star r) s) c (Expr.cat (Expr.cat r' (star r)) s) as where
  deriv := by
    simp only [Expr.deriv, h.deriv, nullable, if_true, hs, catOf_eq h.notVoid h.notNullable]
    rfl
  notVoid := rfl
  notNullable := by rw [nullable, hnull, Bool.and_false]

theorem finish (h : ReadsOn r c r' as) (n : ℕ) (a : α) :
    ReadsOn (finish r n a) c (finish r' n a) as where
  deriv := by
    simp only [Expr.deriv, h.deriv, finishOf, h.notVoid, h.notNullable, Bool.false_eq_true,
      if_false]
  notVoid := rfl
  notNullable := h.notNullable

end ReadsOn

/-! ### Alternatives -/

/-- The alternatives in front of a last one. -/
def besides : Expr α → List (Expr α)
  | alt r s => r :: s.besides
  | _ => []

def lastOf : Expr α → Expr α
  | alt _ s => s.lastOf
  | r => r

/-- Only the last alternative is left when the others cannot go on. -/
theorem deriv_of_besides {r : Expr α} {c : ℕ}
    (h : ∀ x ∈ r.besides, ∀ s ∈ x.begins, s.mem c = false) : r.deriv c = r.lastOf.deriv c := by
  induction r with
  | alt r s _ hs =>
    obtain ⟨hr, hrest⟩ := List.forall_mem_cons.mp h
    rw [deriv, deriv_of_begins hr, hs hrest]
    rfl
  | _ => rfl

/-! ### Words -/

/-- The text is the word. -/
def Spells (word : List CharSet) (w : List ℕ) : Prop := List.Forall₂ (fun s c ↦ s.mem c) word w

/-- What is left of the words that begin with the set. -/
def tails (s : CharSet) (words : List (List CharSet)) : List (List CharSet) :=
  words.filterMap fun word ↦ if word.head? = some s then some word.tail else none

def heads (words : List (List CharSet)) : List CharSet := words.filterMap List.head?

omit [DecidableEq α] in
theorem not_spells_tails {s : CharSet} {words : List (List CharSet)} {c : ℕ} {w : List ℕ}
    (hc : s.mem c) (h : ∀ word ∈ words, ¬Spells word (c :: w)) :
    ∀ word ∈ tails s words, ¬Spells word w := by
  intro word hword hspells
  obtain ⟨longer, hlonger, htail⟩ := List.mem_filterMap.mp hword
  split at htail
  · rename_i hhead
    obtain ⟨rest, rfl⟩ := List.head?_eq_some_iff.mp hhead
    obtain rfl : rest = word := Option.some.inj htail
    exact h _ hlonger (List.Forall₂.cons hc hspells)
  · cases htail

/-- The remainders of words with the expressions there: `g` is the rule for all names, and `d` the
delimiter behind a name. -/
def readsWords (table : List (List (List CharSet) × Expr α)) (g : Expr α) (d : ℕ) : Bool :=
  table.all fun p ↦
    decide (p.2.lastOf = g) && !p.2.nullable &&
    p.2.besides.all (fun x ↦ x.begins.all fun s ↦
      decide (s ∈ heads p.1) || (decide ([] ∈ p.1) && decide (s = CharSet.range d d))) &&
    (heads p.1).all fun s ↦ !s.mem d && s.members.all fun c ↦
      decide ((p.2.deriv c).2 = []) && decide ((tails s p.1, (p.2.deriv c).1) ∈ table)

variable {table : List (List (List CharSet) × Expr α)} {g q : Expr α} {d c : ℕ}
  {words : List (List CharSet)} {w : List ℕ}

theorem not_nullable_of_readsWords (h : readsWords table g d) (hmem : (words, q) ∈ table) :
    q.nullable = false := by
  have hentry := List.all_eq_true.mp h _ hmem
  simp only [Bool.and_eq_true, Bool.not_eq_true'] at hentry
  exact hentry.1.1.2

theorem not_void_of_readsWords (h : readsWords table g d) (hmem : (words, q) ∈ table)
    (hg : g.isVoid = false) : q.isVoid = false := by
  have hentry := List.all_eq_true.mp h _ hmem
  simp only [Bool.and_eq_true, decide_eq_true_eq] at hentry
  obtain ⟨⟨⟨hlast, -⟩, -⟩, -⟩ := hentry
  cases q with
  | void =>
    rw [← hlast] at hg
    exact hg
  | _ => rfl

/-- A further byte of a name that is none of the words. -/
theorem step_of_readsWords (h : readsWords table g d) (hmem : (words, q) ∈ table) (hc : c ≠ d)
    (hother : ∀ word ∈ words, ¬Spells word (c :: w)) :
    q.deriv c = g.deriv c ∨ ∃ words', (words', (q.deriv c).1) ∈ table ∧ (q.deriv c).2 = [] ∧
      ∀ word ∈ words', ¬Spells word w := by
  have hentry := List.all_eq_true.mp h _ hmem
  simp only [Bool.and_eq_true, Bool.not_eq_true', List.all_eq_true, Bool.or_eq_true,
    decide_eq_true_eq] at hentry
  obtain ⟨⟨⟨rfl, -⟩, hbeside⟩, hheads⟩ := hentry
  by_cases hhead : ∃ s ∈ heads words, s.mem c
  · obtain ⟨s, hs, hsc⟩ := hhead
    obtain ⟨hactions, htable⟩ := (hheads s hs).2 c (CharSet.mem_members hsc)
    exact .inr ⟨_, htable, hactions, not_spells_tails hsc hother⟩
  · refine .inl (deriv_of_besides fun x hx s hs ↦ ?_)
    rcases hbeside x hx s hs with hmem | ⟨-, rfl⟩
    · exact Bool.eq_false_iff.mpr fun hsc ↦ hhead ⟨s, hmem, hsc⟩
    · refine Bool.eq_false_iff.mpr fun hsc ↦ hc ?_
      simp only [CharSet.mem, Bool.and_eq_true, Nat.ble_eq] at hsc
      omega

/-- The delimiter behind a name that is none of the words. -/
theorem end_of_readsWords (h : readsWords table g d) (hmem : (words, q) ∈ table)
    (hother : ∀ word ∈ words, ¬Spells word []) : q.deriv d = g.deriv d := by
  have hentry := List.all_eq_true.mp h _ hmem
  simp only [Bool.and_eq_true, Bool.not_eq_true', List.all_eq_true, Bool.or_eq_true,
    decide_eq_true_eq] at hentry
  obtain ⟨⟨⟨rfl, -⟩, hbeside⟩, hheads⟩ := hentry
  refine deriv_of_besides fun x hx s hs ↦ ?_
  rcases hbeside x hx s hs with hmem | ⟨hnil, -⟩
  · exact (hheads s hmem).1
  · exact absurd List.Forall₂.nil (hother [] hnil)

end Expr

end ActionRegex
