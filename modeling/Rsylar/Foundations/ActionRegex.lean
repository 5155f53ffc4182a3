import Mathlib.Data.List.Basic
import Mathlib.Data.Nat.Notation

/-!
# Regular expressions with actions

Expressions over bytes in which actions are embedded that a scanner runs while it reads: when a part
is entered, when it is left by the next byte, when it is finished. The scanner of an expression is
its derivative: what is left to read after a byte, with the actions of the transition in the order
of their numbers. `number` gives the numbers in the order in which the expression is written.

A part of unbounded length inside a larger expression is read along a table of pairs of residuals:
with its first byte the larger expression runs given actions and with every further one none, which
is checked once on the table (`reads`), and so is what happens with the byte behind the part
(`leaves`).
-/

set_option autoImplicit false
set_option relaxedAutoImplicit false

namespace ActionRegex

/-- A set of bytes. -/
inductive CharSet
  | range (lo hi : ℕ)
  | union (s t : CharSet)
  | diff (s t : CharSet)
deriving DecidableEq

namespace CharSet

def mem : CharSet → ℕ → Bool
  | range lo hi, c => Nat.ble lo c && Nat.ble c hi
  | union s t, c => s.mem c || t.mem c
  | diff s t, c => s.mem c && !t.mem c

/-- The bytes of a text. -/
def ofList : List Char → CharSet
  | [] => range 1 0
  | [c] => range c.toNat c.toNat
  | c :: cs => union (range c.toNat c.toNat) (ofList cs)

def oneOf (s : String) : CharSet := ofList s.toList

/-- All bytes of the range are in the set or none is. -/
def steady (lo hi : ℕ) : CharSet → Bool
  | range a b => Nat.blt b a || Nat.blt hi a || Nat.blt b lo || (Nat.ble a lo && Nat.ble hi b)
  | union s t => s.steady lo hi && t.steady lo hi
  | diff s t => s.steady lo hi && t.steady lo hi

theorem mem_of_steady {s : CharSet} {lo hi c : ℕ} (h : s.steady lo hi) (hlo : lo ≤ c)
    (hhi : c ≤ hi) : s.mem c = s.mem lo := by
  induction s with
  | range a b =>
    simp only [steady, Bool.or_eq_true, Bool.and_eq_true, Nat.blt_eq, Nat.ble_eq] at h
    rw [mem, mem, Bool.eq_iff_iff]
    simp only [Bool.and_eq_true, Nat.ble_eq]
    omega
  | union s t hs ht =>
    simp only [steady, Bool.and_eq_true] at h
    rw [mem, mem, hs h.1, ht h.2]
  | diff s t hs ht =>
    simp only [steady, Bool.and_eq_true] at h
    rw [mem, mem, hs h.1, ht h.2]

end CharSet

/-- `enter` runs its action with the first byte of `r`, `leave` with the first byte after it, and
`finish` with a byte that may be its last. `guard` is left for `s` as soon as `s` can begin. -/
inductive Expr (α : Type)
  | void
  | empty
  | chars (s : CharSet)
  | cat (r s : Expr α)
  | alt (r s : Expr α)
  | star (r : Expr α)
  | enter (n : ℕ) (a : α) (r : Expr α)
  | leave (r : Expr α) (n : ℕ) (a : α)
  | finish (r : Expr α) (n : ℕ) (a : α)
  | guard (r s : Expr α)
deriving DecidableEq

variable {α : Type}

namespace Expr

/-! ### Writing expressions -/

def lit (c : ℕ) : Expr α := chars (.range c c)

def seqAll : List (Expr α) → Expr α
  | [] => empty
  | [r] => r
  | r :: rs => cat r (seqAll rs)

def altAll : List (Expr α) → Expr α
  | [] => void
  | [r] => r
  | r :: rs => alt r (altAll rs)

def str (s : String) : Expr α := seqAll (s.toList.map fun c ↦ lit c.toNat)

def plus (r : Expr α) : Expr α := cat r (star r)

def opt (r : Expr α) : Expr α := alt r empty

def times : ℕ → Expr α → Expr α
  | 0, _ => empty
  | 1, r => r
  | n + 1, r => cat r (times n r)

def upTo : ℕ → Expr α → Expr α
  | 0, _ => empty
  | n + 1, r => opt (cat r (upTo n r))

def atLeast : ℕ → Expr α → Expr α
  | 0, r => star r
  | n + 1, r => cat r (atLeast n r)

/-- Numbers the actions from `n` on: an entering action before the actions of its part, the others
after them. -/
def number : Expr α → ℕ → Expr α × ℕ
  | void, n => (void, n)
  | empty, n => (empty, n)
  | chars s, n => (chars s, n)
  | cat r s, n => (cat (r.number n).1 (s.number (r.number n).2).1, (s.number (r.number n).2).2)
  | alt r s, n => (alt (r.number n).1 (s.number (r.number n).2).1, (s.number (r.number n).2).2)
  | star r, n => (star (r.number n).1, (r.number n).2)
  | enter _ a r, n => (enter n a (r.number (n + 1)).1, (r.number (n + 1)).2)
  | leave r _ a, n => (leave (r.number n).1 (r.number n).2 a, (r.number n).2 + 1)
  | finish r _ a, n => (finish (r.number n).1 (r.number n).2 a, (r.number n).2 + 1)
  | guard r s, n => (guard (r.number n).1 (s.number (r.number n).2).1, (s.number (r.number n).2).2)

def nullable : Expr α → Bool
  | void => false
  | empty => true
  | chars _ => false
  | cat r s => r.nullable && s.nullable
  | alt r s => r.nullable || s.nullable
  | star _ => true
  | enter _ _ r => r.nullable
  | leave r _ _ => r.nullable
  | finish r _ _ => r.nullable
  | guard r s => r.nullable && s.nullable

/-- Nothing can be read any more. -/
def isVoid : Expr α → Bool
  | void => true
  | _ => false

variable [DecidableEq α]

/-- An action with its number, put among others in the order of the numbers and once. -/
def insertAction (a : ℕ × α) : List (ℕ × α) → List (ℕ × α)
  | [] => [a]
  | b :: bs => if a.1 < b.1 then a :: b :: bs else if a = b then b :: bs else b :: insertAction a bs

def mergeActions (as bs : List (ℕ × α)) : List (ℕ × α) := as.foldr insertAction bs

/-- The actions of leaving an expression that is at an end. -/
def outs : Expr α → List (ℕ × α)
  | void => []
  | empty => []
  | chars _ => []
  | cat r s => mergeActions r.outs s.outs
  | alt r s =>
    mergeActions (if r.nullable then r.outs else []) (if s.nullable then s.outs else [])
  | star _ => []
  | enter n a r => insertAction (n, a) r.outs
  | leave r n a => insertAction (n, a) r.outs
  | finish r _ _ => r.outs
  | guard r s => mergeActions r.outs s.outs

/-! ### Constructors that keep residuals small -/

def catOf : Expr α → Expr α → Expr α
  | void, _ => void
  | empty, s => s
  | r, s => cat r s

def leaveOf (r : Expr α) (n : ℕ) (a : α) : Expr α := if r.isVoid then void else leave r n a

def finishOf (r : Expr α) (n : ℕ) (a : α) : Expr α := if r.isVoid then void else finish r n a

def guardOf (r s : Expr α) : Expr α := if r.isVoid then void else guard r s

/-- `r` is one of the alternatives. -/
def isAlternative (r : Expr α) : Expr α → Bool
  | alt s t => decide (r = s) || isAlternative r t
  | s => decide (r = s)

/-- Alternatives in a row, each once. -/
def altOf : Expr α → Expr α → Expr α
  | void, s => s
  | alt r₁ r₂, s => altOf r₁ (altOf r₂ s)
  | r, s => if s.isVoid then r else if isAlternative r s then s else alt r s

/-- What is left after a byte, and the actions of the transition. -/
def deriv (c : ℕ) : Expr α → Expr α × List (ℕ × α)
  | void => (void, [])
  | empty => (void, [])
  | chars s => (if s.mem c then empty else void, [])
  | cat r s =>
    let (r', as) := r.deriv c
    if r.nullable then
      let (s', bs) := s.deriv c
      if s'.isVoid then (catOf r' s, as)
      else (altOf (catOf r' s) s', mergeActions as (mergeActions r.outs bs))
    else (catOf r' s, as)
  | alt r s =>
    let (r', as) := r.deriv c
    let (s', bs) := s.deriv c
    (altOf r' s', mergeActions as bs)
  | star r =>
    let (r', as) := r.deriv c
    (catOf r' (star r), as)
  | enter n a r =>
    let (r', as) := r.deriv c
    (r', if r'.isVoid then [] else insertAction (n, a) as)
  | leave r n a =>
    let (r', as) := r.deriv c
    (leaveOf r' n a, as)
  | finish r n a =>
    let (r', as) := r.deriv c
    (finishOf r' n a, if r'.nullable then insertAction (n, a) as else as)
  | guard r s =>
    let (r', as) := r.deriv c
    if r.nullable then
      let (s', bs) := s.deriv c
      if s'.isVoid then (guardOf r' s, as) else (s', mergeActions r.outs bs)
    else (guardOf r' s, as)

attribute [local simp] deriv

/-- What is left after a text. -/
def residual (r : Expr α) (w : List ℕ) : Expr α := w.foldl (fun r c ↦ (r.deriv c).1) r

/-- The text can be read to its end. -/
def accepts (r : Expr α) (w : List ℕ) : Bool := (r.residual w).nullable

theorem residual_void (w : List ℕ) : (void : Expr α).residual w = void := by
  induction w with
  | nil => rfl
  | cons c w ih => exact ih

theorem residual_cons (r : Expr α) (c : ℕ) (w : List ℕ) :
    r.residual (c :: w) = (r.deriv c).1.residual w := rfl

/-! ### The action at the end -/

/-- The whole expression finishes with the action. -/
def FinishesWith (a : α) (r : Expr α) : Prop := r = void ∨ ∃ s n, r = finish s n a

theorem mem_insertAction (a : ℕ × α) (as : List (ℕ × α)) : a ∈ insertAction a as := by
  induction as with
  | nil => exact List.mem_cons_self
  | cons b bs ih =>
    rw [insertAction]
    split
    · exact List.mem_cons_self
    · split
      · rename_i heq
        exact heq ▸ List.mem_cons_self
      · exact List.mem_cons_of_mem b ih

namespace FinishesWith

variable {a : α} {r : Expr α}

theorem deriv (h : FinishesWith a r) (c : ℕ) : FinishesWith a (r.deriv c).1 := by
  rcases h with rfl | ⟨s, n, rfl⟩
  · exact .inl rfl
  · simp only [Expr.deriv, finishOf]
    split
    · exact .inl rfl
    · exact .inr ⟨_, n, rfl⟩

/-- The action runs with every byte that may be the last one. -/
theorem mem_of_nullable (h : FinishesWith a r) {c : ℕ} (hnull : (r.deriv c).1.nullable) :
    a ∈ (r.deriv c).2.map Prod.snd := by
  rcases h with rfl | ⟨s, n, rfl⟩
  · cases hnull
  · simp only [Expr.deriv, finishOf] at hnull ⊢
    have hs : (s.deriv c).1.nullable := by
      split at hnull
      · cases hnull
      · exact hnull
    rw [if_pos hs]
    exact List.mem_map_of_mem (mem_insertAction (n, a) _)

end FinishesWith

/-! ### Bytes that are alike -/

/-- The expression does not tell the bytes of the range apart. -/
def steady (lo hi : ℕ) : Expr α → Bool
  | void => true
  | empty => true
  | chars s => s.steady lo hi
  | cat r s => r.steady lo hi && (!r.nullable || s.steady lo hi)
  | alt r s => r.steady lo hi && s.steady lo hi
  | star r => r.steady lo hi
  | enter _ _ r => r.steady lo hi
  | leave r _ _ => r.steady lo hi
  | finish r _ _ => r.steady lo hi
  | guard r s => r.steady lo hi && (!r.nullable || s.steady lo hi)

theorem deriv_of_steady {r : Expr α} {lo hi c : ℕ} (h : r.steady lo hi) (hlo : lo ≤ c)
    (hhi : c ≤ hi) : r.deriv c = r.deriv lo := by
  induction r with
  | void => rfl
  | empty => rfl
  | chars s => rw [deriv, deriv, CharSet.mem_of_steady h hlo hhi]
  | cat r s hr hs =>
    simp only [steady, Bool.and_eq_true, Bool.or_eq_true, Bool.not_eq_true'] at h
    rw [deriv, deriv, hr h.1]
    rcases h.2 with hnull | hs'
    · simp only [hnull, Bool.false_eq_true, if_false]
    · rw [hs hs']
  | alt r s hr hs =>
    simp only [steady, Bool.and_eq_true] at h
    rw [deriv, deriv, hr h.1, hs h.2]
  | star r hr => rw [deriv, deriv, hr h]
  | enter n a r hr => rw [deriv, deriv, hr h]
  | leave r n a hr => rw [deriv, deriv, hr h]
  | finish r n a hr => rw [deriv, deriv, hr h]
  | guard r s hr hs =>
    simp only [steady, Bool.and_eq_true, Bool.or_eq_true, Bool.not_eq_true'] at h
    rw [deriv, deriv, hr h.1]
    rcases h.2 with hnull | hs'
    · simp only [hnull, Bool.false_eq_true, if_false]
    · rw [hs hs']

/-! ### Reading a part -/

/-- The ranges between bounds. -/
def rangesOf : List ℕ → List (ℕ × ℕ)
  | [] => []
  | [_] => []
  | a :: b :: l => (a, b - 1) :: rangesOf (b :: l)

theorem exists_range {bounds : List ℕ} {a b c : ℕ} (ha : bounds.head? = some a)
    (hb : bounds.getLast? = some b) (hac : a ≤ c) (hcb : c < b) :
    ∃ p ∈ rangesOf bounds, p.1 ≤ c ∧ c ≤ p.2 := by
  induction bounds generalizing a with
  | nil => cases ha
  | cons a' l ih =>
    obtain rfl : a' = a := Option.some.inj ha
    cases l with
    | nil =>
      obtain rfl : a' = b := Option.some.inj hb
      omega
    | cons d l =>
      by_cases hlt : c < d
      · exact ⟨(a', d - 1), List.mem_cons_self, hac, by omega⟩
      · obtain ⟨p, hp, hrange⟩ := ih (a := d) rfl (by rwa [List.getLast?_cons_cons] at hb) (by omega)
        exact ⟨p, List.mem_cons_of_mem _ hp, hrange⟩

/-- With every byte of the ranges that the first expression of a pair can read, the second runs the
actions, and the residuals are a pair of the table. -/
def follows (ranges : List (ℕ × ℕ)) (pairs : List (Expr α × Expr α)) (as : List α)
    (table : List (Expr α × Expr α)) : Bool :=
  pairs.all fun p ↦ ranges.all fun b ↦
    p.1.steady b.1 b.2 && ((p.1.deriv b.1).1.isVoid ||
      (p.2.steady b.1 b.2 && !(p.2.deriv b.1).1.isVoid &&
        decide ((p.2.deriv b.1).2.map Prod.snd = as) &&
        decide (((p.1.deriv b.1).1, (p.2.deriv b.1).1) ∈ table)))

theorem of_follows {ranges : List (ℕ × ℕ)} {pairs table : List (Expr α × Expr α)} {as : List α}
    (h : follows ranges pairs as table) {r q : Expr α} (hmem : (r, q) ∈ pairs) {b : ℕ × ℕ}
    (hb : b ∈ ranges) {c : ℕ} (hlo : b.1 ≤ c) (hhi : c ≤ b.2)
    (hread : (r.deriv c).1.isVoid = false) :
    (q.deriv c).1.isVoid = false ∧ (q.deriv c).2.map Prod.snd = as ∧
      ((r.deriv c).1, (q.deriv c).1) ∈ table := by
  have hpair := List.all_eq_true.mp (List.all_eq_true.mp h _ hmem) b hb
  simp only [Bool.and_eq_true, Bool.or_eq_true, Bool.not_eq_true', decide_eq_true_eq] at hpair
  obtain ⟨hsteady, hor⟩ := hpair
  rw [deriv_of_steady hsteady hlo hhi] at hread ⊢
  rcases hor with hvoid | ⟨⟨⟨hsteady', hvoid'⟩, hactions⟩, htable⟩
  · rw [hvoid] at hread
    cases hread
  · rw [deriv_of_steady hsteady' hlo hhi]
    exact ⟨hvoid', hactions, htable⟩

theorem not_void_of_accepts {r : Expr α} {c : ℕ} {w : List ℕ} (h : r.accepts (c :: w)) :
    (r.deriv c).1.isVoid = false := by
  rw [accepts, residual_cons] at h
  cases hr : (r.deriv c).1 with
  | void =>
    rw [hr, residual_void] at h
    cases h
  | _ => rfl

theorem accepts_cat_chars {s : CharSet} {r : Expr α} {c : ℕ} {w : List ℕ} (hc : s.mem c) :
    (cat (chars s) r).accepts (c :: w) = r.accepts w := by
  have hderiv : ((cat (chars s) r).deriv c).1 = r := by
    simp only [deriv, nullable, hc, if_true, Bool.false_eq_true, if_false, catOf]
  rw [accepts, residual_cons, hderiv, accepts]

theorem accepts_star_chars {s : CharSet} {w : List ℕ} (h : ∀ c ∈ w, s.mem c) :
    (star (chars s) : Expr α).accepts w := by
  induction w with
  | nil => rfl
  | cons c w ih =>
    obtain ⟨hc, hw⟩ := List.forall_mem_cons.mp h
    have hderiv : ((star (chars s) : Expr α).deriv c).1 = star (chars s) := by
      simp only [deriv, hc, if_true, catOf]
    rw [accepts, residual_cons, hderiv]
    exact ih hw

/-- The pairs of residuals that are reached from those of the list, and are not in the table. -/
def reach (ranges : List (ℕ × ℕ)) :
    ℕ → List (Expr α × Expr α) → List (Expr α × Expr α) → List (Expr α × Expr α)
  | 0, _, table => table
  | _ + 1, [], table => table
  | fuel + 1, p :: pairs, table =>
    let fresh := ranges.foldl (fun fresh b ↦
      let next := ((p.1.deriv b.1).1, (p.2.deriv b.1).1)
      if next.1.isVoid || decide (next ∈ fresh) || decide (next ∈ table) then fresh
      else next :: fresh) []
    reach ranges fuel (fresh ++ pairs) (fresh ++ table)

/-- The second expression reads the part `r`: it runs the actions with the first byte, and none with
the bytes after it. -/
def reads (bounds : List ℕ) (table : List (Expr α × Expr α)) (r q : Expr α) (as : List α) : Bool :=
  follows (rangesOf bounds) [(r, q)] as table && follows (rangesOf bounds) table [] table

/-- A byte behind a part, the residual that it leads to and the actions with it. -/
structure Exit (α : Type) where
  byte : ℕ
  residual : Expr α
  actions : List α

/-- Wherever the part can end, the byte leads to the residual with the actions. -/
def leaves (table : List (Expr α × Expr α)) (e : Exit α) : Bool :=
  !e.residual.isVoid && table.all fun p ↦ !p.1.nullable ||
    (decide ((p.2.deriv e.byte).1 = e.residual) &&
      decide ((p.2.deriv e.byte).2.map Prod.snd = e.actions))

theorem of_leaves {table : List (Expr α × Expr α)} {e : Exit α} (h : leaves table e)
    {r p : Expr α} (hmem : (r, p) ∈ table) (hnull : r.nullable) :
    (p.deriv e.byte).1 = e.residual ∧ (p.deriv e.byte).2.map Prod.snd = e.actions := by
  have hpair := List.all_eq_true.mp (Bool.and_eq_true_iff.mp h).2 _ hmem
  simp only [hnull, Bool.not_true, Bool.false_or, Bool.and_eq_true, decide_eq_true_eq] at hpair
  exact hpair

/-- The second expression reads the part along the table that is reached from the beginning, and
leaves it at each of the exits. -/
def passes (bounds : List ℕ) (fuel : ℕ) (r q : Expr α) (as : List α) (exits : List (Exit α)) :
    Bool :=
  let table := reach (rangesOf bounds) fuel [(r, q)] []
  reads bounds table r q as && exits.all (leaves table)

end Expr

end ActionRegex
