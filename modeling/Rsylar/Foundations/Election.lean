import Mathlib.Data.Fintype.Card
import Rsylar.Foundations.TransitionSystem

/-!
# Elections by majority vote

A peer shows its term, the vote it has cast in that term, its role and its log. The past of a
system of peers is the set of the configurations it has shown; `Seen H i p` says that peer `i` has
shown `p`. From the past one reads off who voted for whom in which term (`Voted`), who has led a
term (`Led`) and who holds a majority of its votes (`Elected`).

The voting discipline is `LawfulMove`: the term of a peer never goes back, a vote cast in a term is
kept as long as the term lasts, and a peer leads a term only if it led that term before or a
majority has voted for it there. Nothing is said about the log or about messages. `BallotInv` is the
invariant of every system whose peers keep the discipline (`BallotInv.step`), and from it a term has
at most one leader over the whole past (`BallotInv.led_unique`).
-/

set_option autoImplicit false
set_option relaxedAutoImplicit false

namespace Consensus

inductive Role
  | follower
  | candidate
  | leader
deriving DecidableEq

/-- What a peer shows to the others: its term, its vote in this term, its role and its log. -/
structure Peer (S E : Type*) where
  term : ℕ
  vote : Option S
  role : Role
  log : List E

variable {S E : Type*}

/-! ### Majorities -/

/-- More than half of the peers. -/
def IsMajority [Fintype S] (Q : Finset S) : Prop :=
  Fintype.card S < 2 * Q.card

/-- Two majorities have a common member. -/
theorem IsMajority.exists_common [Fintype S] {Q R : Finset S}
    (hQ : IsMajority Q) (hR : IsMajority R) : ∃ v, v ∈ Q ∧ v ∈ R := by
  classical
  by_contra hnone
  have hdisjoint : Disjoint Q R :=
    Finset.disjoint_left.mpr fun v hv hv' ↦ hnone ⟨v, hv, hv'⟩
  have hunion : Q.card + R.card ≤ Fintype.card S := by
    rw [← Finset.card_union_of_disjoint hdisjoint]
    exact Finset.card_le_univ _
  unfold IsMajority at hQ hR
  omega

/-! ### What the past says about votes and leaders -/

/-- Peer `i` has shown `p`. -/
def Seen (H : Set (S → Peer S E)) (i : S) (p : Peer S E) : Prop :=
  ∃ f ∈ H, f i = p

/-- Peer `v` has cast its vote of term `t` for `c`. -/
def Voted (H : Set (S → Peer S E)) (v : S) (t : ℕ) (c : S) : Prop :=
  ∃ p, Seen H v p ∧ p.term = t ∧ p.vote = some c

/-- Peer `i` has been a leader in term `t`. -/
def Led (H : Set (S → Peer S E)) (t : ℕ) (i : S) : Prop :=
  ∃ p, Seen H i p ∧ p.term = t ∧ p.role = .leader

/-- A majority of the peers has voted for `c` in term `t`. -/
def Elected [Fintype S] (H : Set (S → Peer S E)) (t : ℕ) (c : S) : Prop :=
  ∃ Q : Finset S, IsMajority Q ∧ ∀ v ∈ Q, Voted H v t c

section Past

variable {H H' : Set (S → Peer S E)}

theorem seen_insert {f : S → Peer S E} {i : S} {p : Peer S E} :
    Seen (insert f H) i p ↔ f i = p ∨ Seen H i p := by
  simp [Seen]

theorem seen_cur (f : S → Peer S E) (i : S) : Seen (insert f H) i (f i) :=
  ⟨f, Set.mem_insert _ _, rfl⟩

theorem Seen.mono (h : H ⊆ H') {i : S} {p : Peer S E} (hp : Seen H i p) : Seen H' i p := by
  obtain ⟨f, hf, rfl⟩ := hp
  exact ⟨f, h hf, rfl⟩

theorem Voted.mono (h : H ⊆ H') {v c : S} {t : ℕ} (hv : Voted H v t c) : Voted H' v t c := by
  obtain ⟨p, hp, ht, hc⟩ := hv
  exact ⟨p, hp.mono h, ht, hc⟩

theorem Led.mono (h : H ⊆ H') {i : S} {t : ℕ} (hl : Led H t i) : Led H' t i := by
  obtain ⟨p, hp, ht, hr⟩ := hl
  exact ⟨p, hp.mono h, ht, hr⟩

theorem Elected.mono [Fintype S] (h : H ⊆ H') {c : S} {t : ℕ} (he : Elected H t c) :
    Elected H' t c := by
  obtain ⟨Q, hQ, hv⟩ := he
  exact ⟨Q, hQ, fun v hvQ ↦ (hv v hvQ).mono h⟩

theorem voted_insert {f : S → Peer S E} {v c : S} {t : ℕ} :
    Voted (insert f H) v t c ↔ ((f v).term = t ∧ (f v).vote = some c) ∨ Voted H v t c := by
  constructor
  · rintro ⟨p, hp, ht, hc⟩
    rcases seen_insert.mp hp with rfl | hp
    · exact Or.inl ⟨ht, hc⟩
    · exact Or.inr ⟨p, hp, ht, hc⟩
  · rintro (⟨ht, hc⟩ | hv)
    · exact ⟨f v, seen_cur f v, ht, hc⟩
    · exact hv.mono (Set.subset_insert _ _)

theorem led_insert {f : S → Peer S E} {i : S} {t : ℕ} :
    Led (insert f H) t i ↔ ((f i).term = t ∧ (f i).role = .leader) ∨ Led H t i := by
  constructor
  · rintro ⟨p, hp, ht, hr⟩
    rcases seen_insert.mp hp with rfl | hp
    · exact Or.inl ⟨ht, hr⟩
    · exact Or.inr ⟨p, hp, ht, hr⟩
  · rintro (⟨ht, hr⟩ | hl)
    · exact ⟨f i, seen_cur f i, ht, hr⟩
    · exact hl.mono (Set.subset_insert _ _)

end Past

/-! ### The voting discipline -/

variable [Fintype S]

/-- A change of peer `i` from `p` to `p'` that keeps the voting discipline, where `H` is the past
with the new configuration included. -/
structure LawfulMove (H : Set (S → Peer S E)) (i : S) (p p' : Peer S E) : Prop where
  term_le : p.term ≤ p'.term
  vote_kept : p.term = p'.term → ∀ c, p.vote = some c → p'.vote = some c
  leads : p'.role = .leader → (p.role = .leader ∧ p.term = p'.term) ∨ Elected H p'.term i

theorem LawfulMove.refl (H : Set (S → Peer S E)) (i : S) (p : Peer S E) : LawfulMove H i p p where
  term_le := le_refl _
  vote_kept := fun _ _ h ↦ h
  leads := fun h ↦ Or.inl ⟨h, rfl⟩

/-- The invariant of the voting discipline: the present configuration is the last of the past, terms
have only grown, votes were kept, and every leader held a majority of the votes of its term. -/
structure BallotInv (H : Set (S → Peer S E)) (cur : S → Peer S E) : Prop where
  cur_mem : cur ∈ H
  term_le : ∀ i p, Seen H i p → p.term ≤ (cur i).term
  vote_kept : ∀ i p c, Seen H i p → p.term = (cur i).term → p.vote = some c →
    (cur i).vote = some c
  vote_unique : ∀ v t c c', Voted H v t c → Voted H v t c' → c = c'
  led_elected : ∀ t i, Led H t i → Elected H t i

namespace BallotInv

variable {H : Set (S → Peer S E)} {cur cur' : S → Peer S E}

theorem seen_self (h : BallotInv H cur) (i : S) : Seen H i (cur i) :=
  ⟨cur, h.cur_mem, rfl⟩

theorem voted_le (h : BallotInv H cur) {v c : S} {t : ℕ} (hv : Voted H v t c) :
    t ≤ (cur v).term := by
  obtain ⟨p, hp, rfl, -⟩ := hv
  exact h.term_le v p hp

theorem led_le (h : BallotInv H cur) {i : S} {t : ℕ} (hl : Led H t i) : t ≤ (cur i).term := by
  obtain ⟨p, hp, rfl, -⟩ := hl
  exact h.term_le i p hp

/-- At the start nobody leads. -/
theorem initial (hrole : ∀ i, (cur i).role ≠ .leader) : BallotInv {cur} cur where
  cur_mem := rfl
  term_le := by
    rintro i p ⟨f, rfl, rfl⟩
    exact le_refl _
  vote_kept := by
    rintro i p c ⟨f, rfl, rfl⟩ - hc
    exact hc
  vote_unique := by
    rintro v t c c' ⟨p, ⟨f, rfl, rfl⟩, -, hc⟩ ⟨p', ⟨f', rfl, rfl⟩, -, hc'⟩
    rw [hc] at hc'
    exact Option.some.inj hc'
  led_elected := by
    rintro t i ⟨p, ⟨f, rfl, rfl⟩, -, hr⟩
    exact absurd hr (hrole i)

/-- A step in which every peer keeps the discipline keeps the invariant. -/
theorem step (h : BallotInv H cur)
    (hmove : ∀ i, LawfulMove (insert cur' H) i (cur i) (cur' i)) :
    BallotInv (insert cur' H) cur' where
  cur_mem := Set.mem_insert _ _
  term_le := by
    intro i p hp
    rcases seen_insert.mp hp with rfl | hp
    · exact le_refl _
    · exact (h.term_le i p hp).trans (hmove i).term_le
  vote_kept := by
    intro i p c hp ht hc
    rcases seen_insert.mp hp with rfl | hp
    · exact hc
    · have hle := h.term_le i p hp
      have hle' := (hmove i).term_le
      exact (hmove i).vote_kept (by omega) c (h.vote_kept i p c hp (by omega) hc)
  vote_unique := by
    intro v t c c' hv hv'
    -- A vote shown now and a vote shown before in the same term: the vote was kept.
    have hkept : ∀ d, Voted H v t d → (cur' v).term = t → (cur' v).vote = some d := by
      rintro d ⟨p, hp, hpt, hpd⟩ ht
      have hle := h.term_le v p hp
      have hle' := (hmove v).term_le
      exact (hmove v).vote_kept (by omega) d (h.vote_kept v p d hp (by omega) hpd)
    rcases voted_insert.mp hv with ⟨ht, hc⟩ | hv <;> rcases voted_insert.mp hv' with ⟨ht', hc'⟩ | hv'
    · rw [hc] at hc'
      exact Option.some.inj hc'
    · rw [hkept c' hv' ht] at hc
      exact (Option.some.inj hc).symm
    · rw [hkept c hv ht'] at hc'
      exact Option.some.inj hc'
    · exact h.vote_unique v t c c' hv hv'
  led_elected := by
    intro t i hl
    have hsub : H ⊆ insert cur' H := Set.subset_insert _ _
    rcases led_insert.mp hl with ⟨ht, hr⟩ | hl
    · rcases (hmove i).leads hr with ⟨hrole, hterm⟩ | helected
      · exact (h.led_elected t i ⟨cur i, h.seen_self i, by omega, hrole⟩).mono hsub
      · rwa [ht] at helected
    · exact (h.led_elected t i hl).mono hsub

/-- Two peers that hold a majority of the votes of one term are the same peer. -/
theorem elected_unique (h : BallotInv H cur) {t : ℕ} {i j : S}
    (hi : Elected H t i) (hj : Elected H t j) : i = j := by
  obtain ⟨Q, hQ, hvQ⟩ := hi
  obtain ⟨R, hR, hvR⟩ := hj
  obtain ⟨v, hv, hv'⟩ := hQ.exists_common hR
  exact h.vote_unique v t i j (hvQ v hv) (hvR v hv')

/-- Election safety: a term has at most one leader over the whole past. -/
theorem led_unique (h : BallotInv H cur) {t : ℕ} {i j : S}
    (hi : Led H t i) (hj : Led H t j) : i = j :=
  h.elected_unique (h.led_elected t i hi) (h.led_elected t j hj)

end BallotInv

end Consensus
