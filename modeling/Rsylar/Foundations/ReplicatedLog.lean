import Mathlib.Data.List.Basic
import Rsylar.Foundations.Election

/-!
# Log replication by elected leaders

Peers that keep the voting discipline of `Election` and replicate a log. The entries are arbitrary;
`τ` is the term an entry was created in. A peer changes by one of the moves of `Move`: it learns of
a later term, stands for election, votes for a candidate whose log is at least as up to date as its
own (`UpToDate`), wins, appends an entry as a leader, or follows a leader, and then its log stays as
it is or becomes the log of that leader. The last alternative is only open when the log of the
leader is not already a prefix of its own, so a late message takes nothing back.

`ReplicaInv` is the invariant (`ReplicaInv.step`). Every prefix of every log is a prefix of a log of
the leader of the term of its last entry (`rooted`), so two logs that agree on the term of an entry
agree up to it (`ReplicaInv.comparable`). For commitment the invariant speaks of a log `q` ending in
an entry of term `t`: `Acked H v t q` says that `v` has held `q` during term `t` of whose leader it
is a log, and `Dead H cur t q` that a majority has left term `t` without ever doing so. A peer that
has acknowledged `q` still holds it, and a vote of such a peer goes to a candidate that holds it,
unless `q` is dead (`kept`, `voters`). A log acknowledged by a majority is never dead, so every
later leader holds it (`ReplicaInv.committed_led`) and any two such logs agree
(`ReplicaInv.committed_comparable`). The prefixes of such logs are the `Decided` ones.
-/

set_option autoImplicit false
set_option relaxedAutoImplicit false

namespace Consensus

variable {S E : Type*} {τ : E → ℕ}

/-! ### Logs and their last entries -/

/-- The last entry of the log was created in term `t`. -/
def EndsIn (τ : E → ℕ) (t : ℕ) (q : List E) : Prop :=
  ∃ e, q.getLast? = some e ∧ τ e = t

/-- The term of the last entry, `0` for the empty log. -/
def lastTerm (τ : E → ℕ) (l : List E) : ℕ :=
  (l.getLast?.map τ).getD 0

/-- Log `l` is at least as up to date as `m`: its last term is later, or equal and it is at least as
long. -/
def UpToDate (τ : E → ℕ) (l m : List E) : Prop :=
  lastTerm τ m < lastTerm τ l ∨ lastTerm τ l = lastTerm τ m ∧ m.length ≤ l.length

theorem EndsIn.ne_nil {t : ℕ} {q : List E} (h : EndsIn τ t q) : q ≠ [] := by
  rintro rfl
  obtain ⟨e, he, -⟩ := h
  cases he

theorem endsIn_lastTerm {q : List E} (h : q ≠ []) : EndsIn τ (lastTerm τ q) q := by
  cases hq : q.getLast? with
  | none => exact absurd (List.getLast?_eq_none_iff.mp hq) h
  | some e => exact ⟨e, hq, by simp [lastTerm, hq]⟩

theorem EndsIn.exists_mem {t : ℕ} {q : List E} (h : EndsIn τ t q) : ∃ e ∈ q, τ e = t := by
  obtain ⟨e, he, rfl⟩ := h
  exact ⟨e, List.mem_of_getLast? he, rfl⟩

/-- In a log whose terms grow the last term bounds the terms of its entries. -/
theorem EndsIn.le_of_mem {t : ℕ} {q : List E} (h : EndsIn τ t q)
    (hsorted : q.Pairwise fun a b ↦ τ a ≤ τ b) {e : E} (he : e ∈ q) : τ e ≤ t := by
  obtain ⟨last, hlast, rfl⟩ := h
  obtain ⟨init, rfl⟩ := List.getLast?_eq_some_iff.mp hlast
  rcases List.mem_append.mp he with hinit | hend
  · exact (List.pairwise_append.mp hsorted).2.2 e hinit last (List.mem_singleton_self last)
  · rw [List.mem_singleton.mp hend]

/-- A prefix ends in a term no later than that of the whole log. -/
theorem EndsIn.le_of_prefix {t u : ℕ} {q l : List E} (hq : EndsIn τ t q) (hl : EndsIn τ u l)
    (hsorted : l.Pairwise fun a b ↦ τ a ≤ τ b) (h : q <+: l) : t ≤ u := by
  obtain ⟨e, he, rfl⟩ := hq.exists_mem
  exact hl.le_of_mem hsorted (h.subset he)

/-! ### The moves of a peer -/

/-- Log `l` is the log with which `c` stood for election in term `t`. -/
def Stood (H : Set (S → Peer S E)) (c : S) (t : ℕ) (l : List E) : Prop :=
  ∃ p, Seen H c p ∧ p.term = t ∧ p.role = .candidate ∧ p.log = l

/-- Log `l` is a log peer `j` has had as a leader of term `t`. -/
def LeaderLog (H : Set (S → Peer S E)) (j : S) (t : ℕ) (l : List E) : Prop :=
  ∃ p, Seen H j p ∧ p.term = t ∧ p.role = .leader ∧ p.log = l

/-- Log `q` is a prefix of a log of a leader of term `t`. -/
def Canon (H : Set (S → Peer S E)) (t : ℕ) (q : List E) : Prop :=
  ∃ j l, LeaderLog H j t l ∧ q <+: l

/-- Peer `v` has held `q`, a log of the leader of term `t`, during term `t`. -/
def Acked (H : Set (S → Peer S E)) (v : S) (t : ℕ) (q : List E) : Prop :=
  ∃ p, Seen H v p ∧ p.term = t ∧ q <+: p.log ∧ Canon H t q

/-- A majority has left term `t` without having held `q` in it. -/
def Dead [Fintype S] (H : Set (S → Peer S E)) (cur : S → Peer S E) (t : ℕ) (q : List E) : Prop :=
  ∃ Q : Finset S, IsMajority Q ∧ ∀ v ∈ Q, t < (cur v).term ∧ ¬ Acked H v t q

/-- A majority has held `q`, a log of the leader of term `t` that ends in an entry of term `t`. -/
def Committed [Fintype S] (τ : E → ℕ) (H : Set (S → Peer S E)) (t : ℕ) (q : List E) : Prop :=
  EndsIn τ t q ∧ Canon H t q ∧ ∃ Q : Finset S, IsMajority Q ∧ ∀ v ∈ Q, Acked H v t q

/-- Log `d` is empty or a prefix of a log that was committed in a term up to `t`. -/
def Decided [Fintype S] (τ : E → ℕ) (H : Set (S → Peer S E)) (t : ℕ) (d : List E) : Prop :=
  d = [] ∨ ∃ u q, u ≤ t ∧ Committed τ H u q ∧ d <+: q

/-- The moves of peer `i` from `p`, given the past `H`. -/
inductive Move [Fintype S] (τ : E → ℕ) (H : Set (S → Peer S E)) (i : S) (p : Peer S E) :
    Peer S E → Prop
  | stay : Move τ H i p p
  | raise (t : ℕ) (hterm : p.term < t) :
      Move τ H i p { p with term := t, vote := none, role := .follower }
  | stand (t : ℕ) (hterm : p.term < t) :
      Move τ H i p { p with term := t, vote := some i, role := .candidate }
  /-- A peer that is a majority by itself leads at once. -/
  | crown (t : ℕ) (hterm : p.term < t) (halone : IsMajority {i}) :
      Move τ H i p { p with term := t, vote := some i, role := .leader }
  | grant (c : S) (l : List E) (p' : Peer S E) (hother : c ≠ i) (hterm : p.term ≤ p'.term)
      (hfree : p.term = p'.term → (p.vote = none ∨ p.vote = some c) ∧ p'.role = p.role)
      (hlater : p.term < p'.term → p'.role = .follower) (hvote : p'.vote = some c)
      (hlog : p'.log = p.log) (hstood : Stood H c p'.term l) (hup : UpToDate τ l p.log) :
      Move τ H i p p'
  | win (hrole : p.role = .candidate) (helected : Elected H p.term i) :
      Move τ H i p { p with role := .leader }
  | append (e : E) (hrole : p.role = .leader) (hterm : τ e = p.term) :
      Move τ H i p { p with log := p.log ++ [e] }
  | follow (j : S) (l : List E) (p' : Peer S E) (hother : j ≠ i) (hleader : LeaderLog H j p'.term l)
      (hterm : p.term ≤ p'.term) (hsame : p.term = p'.term → p'.vote = p.vote)
      (hlater : p.term < p'.term → p'.vote = none) (hrole : p'.role = .follower)
      (hlog : p'.log = p.log ∨ p'.log = l ∧ ¬ l <+: p.log) : Move τ H i p p'

/-! ### The invariant -/

/-- The invariant of log replication. -/
structure ReplicaInv [Fintype S] (τ : E → ℕ) (H : Set (S → Peer S E)) (cur : S → Peer S E) :
    Prop where
  ballot : BallotInv H cur
  self_vote : ∀ i p, Seen H i p → p.role ≠ .follower → p.vote = some i
  demoted : ∀ i, (cur i).vote = some i → (cur i).role = .follower →
    ∃ j, j ≠ i ∧ Led H (cur i).term j
  stood : ∀ v t c, Voted H v t c → ∃ p, Seen H c p ∧ p.term = t ∧ p.role ≠ .follower
  sorted : ∀ i p, Seen H i p → p.log.Pairwise fun a b ↦ τ a ≤ τ b
  term_le : ∀ i p, Seen H i p → ∀ e ∈ p.log, τ e ≤ p.term
  term_lt : ∀ i p, Seen H i p → p.role = .candidate → ∀ e ∈ p.log, τ e < p.term
  rooted : ∀ i p q t, Seen H i p → q <+: p.log → EndsIn τ t q → Canon H t q
  latest : ∀ i p, Seen H i p → p.term = (cur i).term → p.role ≠ .follower →
    (cur i).role ≠ .follower → p.log <+: (cur i).log
  chain : ∀ i p p', Seen H i p → Seen H i p' → p.term = p'.term → p.role ≠ .follower →
    p'.role ≠ .follower → p.log <+: p'.log ∨ p'.log <+: p.log
  origin : ∀ i p p', Seen H i p → Seen H i p' → p.term = p'.term → p.role = .candidate →
    p'.role ≠ .follower → p.log <+: p'.log
  kept : ∀ v t q, EndsIn τ t q → Acked H v t q → q <+: (cur v).log ∨ Dead H cur t q
  voters : ∀ v u c t q, Voted H v u c → t < u → EndsIn τ t q → Acked H v t q →
    (∀ p, Seen H c p → p.term = u → p.role ≠ .follower → q <+: p.log) ∨ Dead H cur t q

/-! ### Growth of the past -/

section Past

variable {H H' : Set (S → Peer S E)}

theorem LeaderLog.mono (h : H ⊆ H') {j : S} {t : ℕ} {l : List E} (hl : LeaderLog H j t l) :
    LeaderLog H' j t l := by
  obtain ⟨p, hp, hrest⟩ := hl
  exact ⟨p, hp.mono h, hrest⟩

theorem LeaderLog.led {j : S} {t : ℕ} {l : List E} (hl : LeaderLog H j t l) : Led H t j := by
  obtain ⟨p, hp, ht, hr, -⟩ := hl
  exact ⟨p, hp, ht, hr⟩

theorem Canon.mono (h : H ⊆ H') {t : ℕ} {q : List E} (hc : Canon H t q) : Canon H' t q := by
  obtain ⟨j, l, hl, hq⟩ := hc
  exact ⟨j, l, hl.mono h, hq⟩

theorem Acked.mono (h : H ⊆ H') {v : S} {t : ℕ} {q : List E} (ha : Acked H v t q) :
    Acked H' v t q := by
  obtain ⟨p, hp, ht, hq, hc⟩ := ha
  exact ⟨p, hp.mono h, ht, hq, hc.mono h⟩

theorem Acked.canon {v : S} {t : ℕ} {q : List E} (ha : Acked H v t q) : Canon H t q := by
  obtain ⟨-, -, -, -, hc⟩ := ha
  exact hc

theorem Committed.mono [Fintype S] (h : H ⊆ H') {t : ℕ} {q : List E} (hc : Committed τ H t q) :
    Committed τ H' t q := by
  obtain ⟨he, hcanon, Q, hQ, hack⟩ := hc
  exact ⟨he, hcanon.mono h, Q, hQ, fun v hv ↦ (hack v hv).mono h⟩

theorem Canon.of_prefix {t : ℕ} {q q' : List E} (hc : Canon H t q) (hq : q' <+: q) :
    Canon H t q' := by
  obtain ⟨j, l, hl, hql⟩ := hc
  exact ⟨j, l, hl, hq.trans hql⟩

theorem Acked.of_prefix {v : S} {t : ℕ} {q q' : List E} (ha : Acked H v t q) (hq : q' <+: q) :
    Acked H v t q' := by
  obtain ⟨p, hp, ht, hqp, hc⟩ := ha
  exact ⟨p, hp, ht, hq.trans hqp, hc.of_prefix hq⟩

/-- A leader has held its own log. -/
theorem LeaderLog.acked {j : S} {t : ℕ} {l : List E} (hl : LeaderLog H j t l) : Acked H j t l := by
  have hcanon : Canon H t l := ⟨j, l, hl, List.prefix_refl _⟩
  obtain ⟨p, hp, ht, -, rfl⟩ := hl
  exact ⟨p, hp, ht, List.prefix_refl _, hcanon⟩

theorem Decided.mono [Fintype S] (h : H ⊆ H') {t u : ℕ} (htu : t ≤ u) {d : List E}
    (hd : Decided τ H t d) : Decided τ H' u d := by
  rcases hd with hd | ⟨w, q, hw, hq, hdq⟩
  · exact Or.inl hd
  · exact Or.inr ⟨w, q, hw.trans htu, hq.mono h, hdq⟩

theorem Committed.decided [Fintype S] {t : ℕ} {q : List E} (hq : Committed τ H t q) :
    Decided τ H t q :=
  Or.inr ⟨t, q, le_refl _, hq, List.prefix_refl _⟩

end Past

namespace ReplicaInv

variable [Fintype S] {H : Set (S → Peer S E)} {cur cur' : S → Peer S E}

/-! ### Consequences of the invariant -/

/-- Two prefixes of logs of the leader of one term are comparable. -/
theorem canon_comparable (h : ReplicaInv τ H cur) {t : ℕ} {q q' : List E} (hq : Canon H t q)
    (hq' : Canon H t q') : q <+: q' ∨ q' <+: q := by
  obtain ⟨j, l, hl, hql⟩ := hq
  obtain ⟨j', l', hl', hql'⟩ := hq'
  obtain rfl : j = j' := h.ballot.led_unique hl.led hl'.led
  obtain ⟨p, hp, hpt, hpr, rfl⟩ := hl
  obtain ⟨p', hp', hpt', hpr', rfl⟩ := hl'
  have hrole : p.role ≠ .follower := by rw [hpr]; decide
  have hrole' : p'.role ≠ .follower := by rw [hpr']; decide
  rcases h.chain j p p' hp hp' (hpt.trans hpt'.symm) hrole hrole' with hpre | hpre
  · exact List.prefix_or_prefix_of_prefix (hql.trans hpre) hql'
  · exact List.prefix_or_prefix_of_prefix hql (hql'.trans hpre)

/-- Log matching: prefixes of two logs that end in entries of the same term are comparable. -/
theorem comparable (h : ReplicaInv τ H cur) {i j : S} {p p' : Peer S E} (hp : Seen H i p)
    (hp' : Seen H j p') {t : ℕ} {q q' : List E} (hq : q <+: p.log) (hq' : q' <+: p'.log)
    (hend : EndsIn τ t q) (hend' : EndsIn τ t q') : q <+: q' ∨ q' <+: q :=
  h.canon_comparable (h.rooted i p q t hp hq hend) (h.rooted j p' q' t hp' hq' hend')

/-- A later leader holds an acknowledgeable log, unless that log is dead. -/
theorem led_or_dead (h : ReplicaInv τ H cur) {t u : ℕ} {q : List E} (hend : EndsIn τ t q)
    (htu : t < u) {c : S} {l : List E} (hl : LeaderLog H c u l) : q <+: l ∨ Dead H cur t q := by
  obtain ⟨Q, hQ, hvoted⟩ := h.ballot.led_elected u c hl.led
  obtain ⟨p, hp, hpt, hpr, rfl⟩ := hl
  by_cases hacked : ∃ v ∈ Q, Acked H v t q
  · obtain ⟨v, hv, hack⟩ := hacked
    rcases h.voters v u c t q (hvoted v hv) htu hend hack with hholds | hdead
    · exact Or.inl (hholds p hp hpt (by rw [hpr]; decide))
    · exact Or.inr hdead
  · right
    refine ⟨Q, hQ, fun v hv ↦ ⟨?_, fun hack ↦ hacked ⟨v, hv, hack⟩⟩⟩
    have hle := h.ballot.voted_le (hvoted v hv)
    omega

/-- The vote restriction. Assumes: a voter whose log `m` has the prefix `q` ending in term `t`, and
a candidate of a later term whose log `l` is at least as up to date as `m`. The candidate holds `q`,
unless `q` is dead. -/
theorem upToDate_or_dead (h : ReplicaInv τ H cur) {t u : ℕ} {q : List E} (hend : EndsIn τ t q)
    {v c : S} {p : Peer S E} (hp : Seen H v p) (hqp : q <+: p.log) {l : List E}
    (hstood : Stood H c u l) (hup : UpToDate τ l p.log) : q <+: l ∨ Dead H cur t q := by
  obtain ⟨s, hs, hst, hsr, rfl⟩ := hstood
  have hpne : p.log ≠ [] := by
    intro hnil
    rw [hnil] at hqp
    exact hend.ne_nil (List.prefix_nil.mp hqp)
  have hplast : EndsIn τ (lastTerm τ p.log) p.log := endsIn_lastTerm hpne
  have htp : t ≤ lastTerm τ p.log := hend.le_of_prefix hplast (h.sorted v p hp) hqp
  have hsne : s.log ≠ [] := by
    intro hnil
    rcases hup with hlt | ⟨-, hlen⟩
    · rw [hnil] at hlt
      simp [lastTerm] at hlt
    · rw [hnil] at hlen
      exact hpne (List.length_eq_zero_iff.mp (by simpa using hlen))
  have hslast : EndsIn τ (lastTerm τ s.log) s.log := endsIn_lastTerm hsne
  rcases hup with hlt | ⟨heq, hlen⟩
  · -- The candidate's last entry is from a later leader, and that leader holds `q`.
    obtain ⟨j, l', hl', hsl'⟩ := h.rooted c s s.log _ hs (List.prefix_refl _) hslast
    rcases h.led_or_dead hend (by omega) hl' with hql' | hdead
    · rcases List.prefix_or_prefix_of_prefix hql' hsl' with hqs | hsq
      · exact Or.inl hqs
      · have hle := hslast.le_of_prefix hend ((h.sorted v p hp).sublist hqp.sublist) hsq
        omega
    · exact Or.inr hdead
  · -- Both logs end in the same term, and the candidate's is not shorter.
    rw [heq] at hslast
    rcases h.comparable hs hp (List.prefix_refl _) (List.prefix_refl _) hslast hplast with hsp | hps
    · have hsame : s.log = p.log := List.IsPrefix.eq_of_length_le hsp hlen
      exact Or.inl (hsame ▸ hqp)
    · exact Or.inl (hqp.trans hps)

/-! ### Preservation -/

end ReplicaInv

/-! #### What one move can do -/

section Inversion

variable [Fintype S] {H : Set (S → Peer S E)} {i : S} {p p' : Peer S E}

theorem Move.term_mono (hmove : Move τ H i p p') : p.term ≤ p'.term := by
  cases hmove with
  | stay => exact le_refl _
  | raise t hterm => exact hterm.le
  | stand t hterm => exact hterm.le
  | crown t hterm halone => exact hterm.le
  | grant c l _ hother hterm => exact hterm
  | win hrole helected => exact le_refl _
  | append e hrole hterm => exact le_refl _
  | follow j l _ hother hleader hterm => exact hterm

/-- The log is kept, extended by a leader, or replaced by the log of a leader. -/
theorem Move.log_cases (hmove : Move τ H i p p') :
    p'.log = p.log ∨
      (∃ e, τ e = p.term ∧ p.role = .leader ∧ p' = { p with log := p.log ++ [e] }) ∨
      ∃ j l, LeaderLog H j p'.term l ∧ p'.role = .follower ∧ p'.log = l ∧ ¬ l <+: p.log := by
  cases hmove with
  | stay => exact Or.inl rfl
  | raise t hterm => exact Or.inl rfl
  | stand t hterm => exact Or.inl rfl
  | crown t hterm halone => exact Or.inl rfl
  | grant c l _ hother hterm hfree hlater hvote hlog => exact Or.inl hlog
  | win hrole helected => exact Or.inl rfl
  | append e hrole hterm => exact Or.inr (Or.inl ⟨e, hterm, hrole, rfl⟩)
  | follow j l _ hother hleader hterm hsame hlater hrole hlog =>
    rcases hlog with hlog | ⟨hlog, hnot⟩
    · exact Or.inl hlog
    · exact Or.inr (Or.inr ⟨j, l, hleader, hrole, hlog, hnot⟩)

/-- A peer that is not a follower after a move was none before, in the same term and with a prefix
of its log, or has just stood for election. -/
theorem Move.active_cases (hmove : Move τ H i p p') (hactive : p'.role ≠ .follower) :
    (p.role ≠ .follower ∧ p.term = p'.term ∧ (∀ c, p.vote = some c → p'.vote = some c) ∧
        p.log <+: p'.log ∧ (p'.role = .candidate → p.role = .candidate ∧ p'.log = p.log)) ∨
      (p.term < p'.term ∧ p'.vote = some i ∧ p'.log = p.log) := by
  cases hmove with
  | stay => exact Or.inl ⟨hactive, rfl, fun _ h ↦ h, List.prefix_refl _, fun hr ↦ ⟨hr, rfl⟩⟩
  | raise t hterm => exact absurd rfl hactive
  | stand t hterm => exact Or.inr ⟨hterm, rfl, rfl⟩
  | crown t hterm halone => exact Or.inr ⟨hterm, rfl, rfl⟩
  | grant c l _ hother hterm hfree hlater hvote hlog hstood hup =>
    rcases hterm.lt_or_eq with hlt | heq
    · exact absurd (hlater hlt) hactive
    · obtain ⟨hvotes, hrole⟩ := hfree heq
      refine Or.inl ⟨hrole ▸ hactive, heq, fun d hd ↦ ?_, by rw [hlog], fun hr ↦
        ⟨hrole ▸ hr, hlog⟩⟩
      rcases hvotes with hnone | hsome
      · rw [hnone] at hd
        cases hd
      · rw [hvote, ← hsome, hd]
  | win hrole helected =>
    exact Or.inl ⟨by rw [hrole]; decide, rfl, fun _ h ↦ h, List.prefix_refl _, fun hr ↦ by cases hr⟩
  | append e hrole hterm =>
    refine Or.inl ⟨hactive, rfl, fun _ h ↦ h, List.prefix_append _ _, fun hr ↦ ?_⟩
    change p.role = .candidate at hr
    rw [hrole] at hr
    cases hr
  | follow j l _ hother hleader hterm hsame hlater hrole hlog => exact absurd hrole hactive

/-- The vote of a peer after a move is an old one of the same term, its own on standing for
election, or one for a candidate whose log is up to date. -/
theorem Move.vote_cases (hmove : Move τ H i p p') {c : S} (hvote : p'.vote = some c) :
    (p.term = p'.term ∧ p.vote = some c) ∨
      (c = i ∧ p.term < p'.term ∧ p'.role ≠ .follower ∧ p'.log = p.log) ∨
      (c ≠ i ∧ p'.log = p.log ∧ ∃ l, Stood H c p'.term l ∧ UpToDate τ l p.log) := by
  cases hmove with
  | stay => exact Or.inl ⟨rfl, hvote⟩
  | raise t hterm => cases hvote
  | stand t hterm =>
    exact Or.inr (Or.inl ⟨(Option.some.inj hvote).symm, hterm, nofun, rfl⟩)
  | crown t hterm halone =>
    exact Or.inr (Or.inl ⟨(Option.some.inj hvote).symm, hterm, nofun, rfl⟩)
  | grant d l _ hother hterm hfree hlater hgiven hlog hstood hup =>
    obtain rfl : d = c := Option.some.inj (hgiven.symm.trans hvote)
    exact Or.inr (Or.inr ⟨hother, hlog, l, hstood, hup⟩)
  | win hrole helected => exact Or.inl ⟨rfl, hvote⟩
  | append e hrole hterm => exact Or.inl ⟨rfl, hvote⟩
  | follow j l _ hother hleader hterm hsame hlater hrole hlog =>
    rcases hterm.lt_or_eq with hlt | heq
    · rw [hlater hlt] at hvote
      cases hvote
    · exact Or.inl ⟨heq, (hsame heq).symm.trans hvote⟩

/-- A peer that has voted for itself and follows was demoted by another leader of the term, or was
following already. -/
theorem Move.demoted_cases (hmove : Move τ H i p p') (hvote : p'.vote = some i)
    (hrole : p'.role = .follower) :
    (p.vote = some i ∧ p.role = .follower ∧ p.term = p'.term) ∨
      ∃ j, j ≠ i ∧ Led H p'.term j := by
  cases hmove with
  | stay => exact Or.inl ⟨hvote, hrole, rfl⟩
  | raise t hterm => cases hvote
  | stand t hterm => cases hrole
  | crown t hterm halone => cases hrole
  | grant c l _ hother hterm hfree hlater hgiven =>
    exact absurd (Option.some.inj (hgiven.symm.trans hvote)) hother
  | win hwon helected => cases hrole
  | append e hleader hterm =>
    change p.role = .follower at hrole
    rw [hleader] at hrole
    cases hrole
  | follow j l _ hother hleader => exact Or.inr ⟨j, hother, hleader.led⟩

/-- Every move keeps the voting discipline. -/
theorem Move.lawful {cur' : S → Peer S E} (hmove : Move τ H i p (cur' i)) :
    LawfulMove (insert cur' H) i p (cur' i) where
  term_le := hmove.term_mono
  vote_kept := by
    intro heq c hc
    generalize cur' i = p' at hmove heq
    cases hmove with
    | stay => exact hc
    | raise t hterm => exact absurd heq hterm.ne
    | stand t hterm => exact absurd heq hterm.ne
    | crown t hterm halone => exact absurd heq hterm.ne
    | grant d l _ hother hterm hfree hlater hvote =>
      rcases (hfree heq).1 with hnone | hsome
      · rw [hnone] at hc
        cases hc
      · rw [hvote, ← hsome, hc]
    | win hrole helected => exact hc
    | append e hrole hterm => exact hc
    | follow j l _ hother hleader hterm hsame => rw [hsame heq, hc]
  leads := by
    intro hr
    generalize hp' : cur' i = p' at hmove hr
    cases hmove with
    | stay => exact Or.inl ⟨hr, rfl⟩
    | raise t hterm => cases hr
    | stand t hterm => cases hr
    | crown t hterm halone =>
      refine Or.inr ⟨{i}, halone, fun v hv ↦ ?_⟩
      obtain rfl := Finset.mem_singleton.mp hv
      exact ⟨cur' v, seen_cur cur' v, by rw [hp'], by rw [hp']⟩
    | grant d l _ hother hterm hfree hlater =>
      rcases hterm.lt_or_eq with hlt | heq
      · rw [hlater hlt] at hr
        cases hr
      · exact Or.inl ⟨(hfree heq).2 ▸ hr, heq⟩
    | win hrole helected => exact Or.inr (helected.mono (Set.subset_insert _ _))
    | append e hrole hterm => exact Or.inl ⟨hr, rfl⟩
    | follow j l _ hother hleader hterm hsame hlater hrole =>
      rw [hrole] at hr
      cases hr

end Inversion

namespace ReplicaInv

variable [Fintype S] {H : Set (S → Peer S E)} {cur cur' : S → Peer S E}

/-- At the start every peer follows with an empty log, and nobody has voted. -/
theorem initial (hrole : ∀ i, (cur i).role = .follower) (hvote : ∀ i, (cur i).vote = none)
    (hlog : ∀ i, (cur i).log = []) : ReplicaInv τ {cur} cur := by
  have hseen : ∀ {i p}, Seen {cur} i p → p = cur i := by
    rintro i p ⟨f, rfl, rfl⟩
    rfl
  have hfollow : ∀ {i p}, Seen {cur} i p → ¬ p.role ≠ .follower := by
    intro i p hp hr
    rw [hseen hp] at hr
    exact hr (hrole i)
  have hcanon : ∀ {t q}, ¬ Canon {cur} t q := by
    rintro t q ⟨j, l, ⟨p, hp, -, hr, -⟩, -⟩
    exact hfollow hp (by rw [hr]; decide)
  have hnovote : ∀ {v t c}, ¬ Voted {cur} v t c := by
    rintro v t c ⟨p, hp, -, hc⟩
    rw [hseen hp, hvote] at hc
    cases hc
  have hempty : ∀ {i p}, Seen {cur} i p → p.log = [] := fun {i} {p} hp ↦ by
    rw [hseen hp, hlog]
  exact {
    ballot := BallotInv.initial fun i ↦ by rw [hrole i]; decide
    self_vote := fun i p hp hr ↦ absurd hr (hfollow hp)
    demoted := fun i hv ↦ by rw [hvote] at hv; cases hv
    stood := fun v t c hv ↦ absurd hv hnovote
    sorted := fun i p hp ↦ by rw [hempty hp]; exact List.Pairwise.nil
    term_le := fun i p hp e he ↦ by rw [hempty hp] at he; cases he
    term_lt := fun i p hp _ e he ↦ by rw [hempty hp] at he; cases he
    rooted := fun i p q t hp hq hend ↦ by
      rw [hempty hp] at hq
      exact absurd (List.prefix_nil.mp hq) hend.ne_nil
    latest := fun i p hp _ hr _ ↦ absurd hr (hfollow hp)
    chain := fun i p p' hp _ _ hr _ ↦ absurd hr (hfollow hp)
    origin := fun i p p' hp _ _ hr _ ↦ absurd (by rw [hr]; decide) (hfollow hp)
    kept := fun v t q _ hack ↦ absurd hack.canon hcanon
    voters := fun v u c t q hv ↦ absurd hv hnovote }

section Step

variable (h : ReplicaInv τ H cur) (hmove : ∀ i, Move τ H i (cur i) (cur' i))

include h hmove

theorem ballot_step : BallotInv (insert cur' H) cur' :=
  h.ballot.step fun i ↦ (hmove i).lawful

theorem self_vote_step (i : S) (p : Peer S E) (hp : Seen (insert cur' H) i p)
    (hr : p.role ≠ .follower) : p.vote = some i := by
  rcases seen_insert.mp hp with rfl | hp
  · rcases (hmove i).active_cases hr with ⟨hold, -, hkept, -⟩ | ⟨-, hvote, -⟩
    · exact hkept i (h.self_vote i _ (h.ballot.seen_self i) hold)
    · exact hvote
  · exact h.self_vote i p hp hr

theorem demoted_step (i : S) (hvote : (cur' i).vote = some i) (hr : (cur' i).role = .follower) :
    ∃ j, j ≠ i ∧ Led (insert cur' H) (cur' i).term j := by
  have hsub : H ⊆ insert cur' H := Set.subset_insert _ _
  rcases (hmove i).demoted_cases hvote hr with ⟨hv, hf, ht⟩ | ⟨j, hj, hled⟩
  · obtain ⟨j, hj, hled⟩ := h.demoted i hv hf
    exact ⟨j, hj, (ht ▸ hled).mono hsub⟩
  · exact ⟨j, hj, hled.mono hsub⟩

theorem stood_step (v : S) (t : ℕ) (c : S) (hv : Voted (insert cur' H) v t c) :
    ∃ p, Seen (insert cur' H) c p ∧ p.term = t ∧ p.role ≠ .follower := by
  have hsub : H ⊆ insert cur' H := Set.subset_insert _ _
  have hold : ∀ {u}, Voted H v u c →
      ∃ p, Seen (insert cur' H) c p ∧ p.term = u ∧ p.role ≠ .follower := by
    intro u hu
    obtain ⟨p, hp, hrest⟩ := h.stood v u c hu
    exact ⟨p, hp.mono hsub, hrest⟩
  rcases voted_insert.mp hv with ⟨ht, hc⟩ | hv
  · rcases (hmove v).vote_cases hc with ⟨hsame, hc'⟩ | ⟨rfl, -, hr, -⟩ | ⟨-, -, l, hl, -⟩
    · exact hold ⟨cur v, h.ballot.seen_self v, hsame.trans ht, hc'⟩
    · exact ⟨cur' c, seen_cur cur' c, ht, hr⟩
    · obtain ⟨p, hp, hpt, hpr, -⟩ := hl
      exact ⟨p, hp.mono hsub, hpt.trans ht, by rw [hpr]; decide⟩
  · exact hold hv

theorem sorted_step (i : S) (p : Peer S E) (hp : Seen (insert cur' H) i p) :
    p.log.Pairwise fun a b ↦ τ a ≤ τ b := by
  rcases seen_insert.mp hp with rfl | hp
  · rcases (hmove i).log_cases with hlog | ⟨e, he, -, hp'⟩ | ⟨j, l, hl, -, hlog, -⟩
    · rw [hlog]
      exact h.sorted i _ (h.ballot.seen_self i)
    · rw [hp']
      refine List.pairwise_append.mpr ⟨h.sorted i _ (h.ballot.seen_self i),
        List.pairwise_singleton _ _, fun a ha b hb ↦ ?_⟩
      rw [List.mem_singleton.mp hb, he]
      exact h.term_le i _ (h.ballot.seen_self i) a ha
    · obtain ⟨s, hs, -, -, rfl⟩ := hl
      rw [hlog]
      exact h.sorted j s hs
  · exact h.sorted i p hp

theorem term_le_step (i : S) (p : Peer S E) (hp : Seen (insert cur' H) i p) (e : E)
    (he : e ∈ p.log) : τ e ≤ p.term := by
  rcases seen_insert.mp hp with rfl | hp
  · have hold := h.term_le i _ (h.ballot.seen_self i)
    rcases (hmove i).log_cases with hlog | ⟨a, ha, -, hp'⟩ | ⟨j, l, hl, -, hlog, -⟩
    · rw [hlog] at he
      exact (hold e he).trans (hmove i).term_mono
    · rw [hp'] at he ⊢
      rcases List.mem_append.mp he with he | he
      · exact hold e he
      · rw [List.mem_singleton.mp he, ha]
    · obtain ⟨s, hs, hst, -, rfl⟩ := hl
      rw [hlog] at he
      exact hst ▸ h.term_le j s hs e he
  · exact h.term_le i p hp e he

theorem term_lt_step (i : S) (p : Peer S E) (hp : Seen (insert cur' H) i p)
    (hr : p.role = .candidate) (e : E) (he : e ∈ p.log) : τ e < p.term := by
  rcases seen_insert.mp hp with rfl | hp
  · rcases (hmove i).active_cases (by rw [hr]; decide) with
      ⟨-, hterm, -, -, hcand⟩ | ⟨hterm, -, hlog⟩
    · obtain ⟨hold, hlog⟩ := hcand hr
      rw [hlog] at he
      exact hterm ▸ h.term_lt i _ (h.ballot.seen_self i) hold e he
    · rw [hlog] at he
      exact (h.term_le i _ (h.ballot.seen_self i) e he).trans_lt hterm
  · exact h.term_lt i p hp hr e he

theorem rooted_step (i : S) (p : Peer S E) (q : List E) (t : ℕ) (hp : Seen (insert cur' H) i p)
    (hq : q <+: p.log) (hend : EndsIn τ t q) : Canon (insert cur' H) t q := by
  have hsub : H ⊆ insert cur' H := Set.subset_insert _ _
  rcases seen_insert.mp hp with rfl | hp
  · have hold : q <+: (cur i).log → Canon (insert cur' H) t q := fun hq ↦
      (h.rooted i _ q t (h.ballot.seen_self i) hq hend).mono hsub
    rcases (hmove i).log_cases with hlog | ⟨e, he, hlead, hp'⟩ | ⟨j, l, hl, -, hlog, -⟩
    · exact hold (hlog ▸ hq)
    · -- A new entry: the log that ends in it is the log of the leader that created it.
      have hlog : (cur' i).log = (cur i).log ++ [e] := by rw [hp']
      rw [hlog] at hq
      rcases List.prefix_concat_iff.mp hq with rfl | hq
      · obtain ⟨a, ha, rfl⟩ := hend
        have hae : e = a := by simpa using ha
        refine ⟨i, (cur i).log ++ [e], ⟨cur' i, seen_cur cur' i, ?_, ?_, hlog⟩, List.prefix_refl _⟩
        · rw [hp', ← hae, he]
        · rw [hp']; exact hlead
      · exact hold hq
    · obtain ⟨s, hs, -, -, rfl⟩ := hl
      rw [hlog] at hq
      exact (h.rooted j s q t hs hq hend).mono hsub
  · exact (h.rooted i p q t hp hq hend).mono hsub

theorem latest_step (i : S) (p : Peer S E) (hp : Seen (insert cur' H) i p)
    (ht : p.term = (cur' i).term) (hr : p.role ≠ .follower) (hr' : (cur' i).role ≠ .follower) :
    p.log <+: (cur' i).log := by
  rcases seen_insert.mp hp with rfl | hp
  · exact List.prefix_refl _
  · rcases (hmove i).active_cases hr' with ⟨hold, hterm, -, hpre, -⟩ | ⟨hterm, -, -⟩
    · exact (h.latest i p hp (ht.trans hterm.symm) hr hold).trans hpre
    · have hle := h.ballot.term_le i p hp
      omega

theorem chain_step (i : S) (p p' : Peer S E) (hp : Seen (insert cur' H) i p)
    (hp' : Seen (insert cur' H) i p') (ht : p.term = p'.term) (hr : p.role ≠ .follower)
    (hr' : p'.role ≠ .follower) : p.log <+: p'.log ∨ p'.log <+: p.log := by
  rcases seen_insert.mp hp with rfl | hold
  · exact Or.inr (h.latest_step hmove i p' hp' ht.symm hr' hr)
  · rcases seen_insert.mp hp' with rfl | hold'
    · exact Or.inl (h.latest_step hmove i p hp ht hr hr')
    · exact h.chain i p p' hold hold' ht hr hr'

theorem origin_step (i : S) (p p' : Peer S E) (hp : Seen (insert cur' H) i p)
    (hp' : Seen (insert cur' H) i p') (ht : p.term = p'.term) (hr : p.role = .candidate)
    (hr' : p'.role ≠ .follower) : p.log <+: p'.log := by
  rcases seen_insert.mp hp' with rfl | hold'
  · exact h.latest_step hmove i p hp ht (by rw [hr]; decide) hr'
  · rcases seen_insert.mp hp with rfl | hold
    · rcases (hmove i).active_cases (by rw [hr]; decide) with
        ⟨-, hterm, -, -, hcand⟩ | ⟨hterm, -, -⟩
      · obtain ⟨hcand, hlog⟩ := hcand hr
        rw [hlog]
        exact h.origin i _ p' (h.ballot.seen_self i) hold' (hterm.trans ht) hcand hr'
      · have hle := h.ballot.term_le i p' hold'
        omega
    · exact h.origin i p p' hold hold' ht hr hr'

omit hmove in
/-- A log acknowledged by a peer that had left the term was acknowledged before. -/
theorem acked_of_acked_step {v : S} {t : ℕ} {q : List E} (hend : EndsIn τ t q)
    (hack : Acked (insert cur' H) v t q) (hne : (cur' v).term ≠ t) : Acked H v t q := by
  obtain ⟨p, hp, hpt, hq, -⟩ := hack
  rcases seen_insert.mp hp with rfl | hp
  · exact absurd hpt hne
  · exact ⟨p, hp, hpt, hq, h.rooted v p q t hp hq hend⟩

theorem dead_step {t : ℕ} {q : List E} (hend : EndsIn τ t q) (hdead : Dead H cur t q) :
    Dead (insert cur' H) cur' t q := by
  obtain ⟨Q, hQ, hgone⟩ := hdead
  refine ⟨Q, hQ, fun v hv ↦ ?_⟩
  obtain ⟨hlt, hnot⟩ := hgone v hv
  have hmono := (hmove v).term_mono
  exact ⟨by omega, fun hack ↦ hnot (h.acked_of_acked_step hend hack (by omega))⟩

theorem kept_step (v : S) (t : ℕ) (q : List E) (hend : EndsIn τ t q)
    (hack : Acked (insert cur' H) v t q) :
    q <+: (cur' v).log ∨ Dead (insert cur' H) cur' t q := by
  obtain ⟨p, hp, hpt, hq, -⟩ := hack
  rcases seen_insert.mp hp with rfl | hp
  · exact Or.inl hq
  · have hcanon : Canon H t q := h.rooted v p q t hp hq hend
    rcases h.kept v t q hend ⟨p, hp, hpt, hq, hcanon⟩ with hholds | hdead
    · rcases (hmove v).log_cases with hlog | ⟨e, -, -, hp'⟩ | ⟨j, l, hl, -, hlog, hnot⟩
      · exact Or.inl (hlog ▸ hholds)
      · rw [hp']
        exact Or.inl (hholds.trans (List.prefix_append _ _))
      · rw [hlog]
        have hterm : t ≤ (cur' v).term :=
          hpt ▸ (h.ballot.term_le v p hp).trans (hmove v).term_mono
        rcases hterm.lt_or_eq with hlt | heq
        · exact (h.led_or_dead hend hlt hl).imp_right (h.dead_step hmove hend)
        · -- A log of the same leader: the shorter of the two is a prefix of the longer.
          have hcanonl : Canon H t l := ⟨j, l, heq ▸ hl, List.prefix_refl _⟩
          rcases h.canon_comparable hcanon hcanonl with hql | hlq
          · exact Or.inl hql
          · exact absurd (hlq.trans hholds) hnot
    · exact Or.inr (h.dead_step hmove hend hdead)

/-- A vote cast in this step goes to a candidate that holds what the voter has acknowledged. -/
theorem new_vote_step {v c : S} {t : ℕ} {q : List E} (hc : (cur' v).vote = some c)
    (hnew : ¬ Voted H v (cur' v).term c) (hend : EndsIn τ t q) (hack : Acked H v t q)
    (p : Peer S E) (hp : Seen (insert cur' H) c p) (hpt : p.term = (cur' v).term)
    (hpr : p.role ≠ .follower) : q <+: p.log ∨ Dead H cur t q := by
  rcases h.kept v t q hend hack with hholds | hdead
  · rcases (hmove v).vote_cases hc with ⟨hsame, hc'⟩ | ⟨rfl, hlt, -, hlog⟩ | ⟨-, -, l, hl, hup⟩
    · exact absurd ⟨cur v, h.ballot.seen_self v, hsame, hc'⟩ hnew
    · -- The voter itself stands: it shows this term for the first time, with its old log.
      rcases seen_insert.mp hp with rfl | hp
      · exact Or.inl (hlog ▸ hholds)
      · have hle := h.ballot.term_le _ p hp
        omega
    · have hsub : H ⊆ insert cur' H := Set.subset_insert _ _
      rcases h.upToDate_or_dead hend (h.ballot.seen_self v) hholds hl hup with hql | hdead
      · obtain ⟨s, hs, hst, hsr, rfl⟩ := hl
        exact Or.inl (hql.trans
          (h.origin_step hmove c s p (hs.mono hsub) hp (hst.trans hpt.symm) hsr hpr))
      · exact Or.inr hdead
  · exact Or.inr hdead

theorem voters_step (v : S) (u : ℕ) (c : S) (t : ℕ) (q : List E)
    (hv : Voted (insert cur' H) v u c) (htu : t < u) (hend : EndsIn τ t q)
    (hack : Acked (insert cur' H) v t q) :
    (∀ p, Seen (insert cur' H) c p → p.term = u → p.role ≠ .follower → q <+: p.log) ∨
      Dead (insert cur' H) cur' t q := by
  have hu : u ≤ (cur' v).term := (h.ballot_step hmove).voted_le hv
  have hold : Acked H v t q := h.acked_of_acked_step hend hack (by omega)
  by_cases hdead : Dead H cur t q
  · exact Or.inr (h.dead_step hmove hend hdead)
  left
  intro p hp hpt hpr
  by_cases hvold : Voted H v u c
  · rcases h.voters v u c t q hvold htu hend hold with hholds | hdead'
    · rcases seen_insert.mp hp with rfl | hp
      · rcases (hmove c).active_cases hpr with ⟨hr, hterm, -, hpre, -⟩ | ⟨hlt, -, -⟩
        · exact (hholds _ (h.ballot.seen_self c) (hterm.trans hpt) hr).trans hpre
        · -- A vote for `c` in this term means that `c` has stood in it before.
          obtain ⟨s, hs, hst, -⟩ := h.stood v u c hvold
          have hle := h.ballot.term_le c s hs
          omega
      · exact hholds p hp hpt hpr
    · exact absurd hdead' hdead
  · rcases voted_insert.mp hv with ⟨hvt, hc⟩ | hv
    · rw [← hvt] at hvold hpt
      exact (h.new_vote_step hmove hc hvold hend hold p hp hpt hpr).resolve_right hdead
    · exact absurd hv hvold

/-- Every step of the peers keeps the invariant. -/
theorem step : ReplicaInv τ (insert cur' H) cur' where
  ballot := h.ballot_step hmove
  self_vote := h.self_vote_step hmove
  demoted := h.demoted_step hmove
  stood := h.stood_step hmove
  sorted := h.sorted_step hmove
  term_le := h.term_le_step hmove
  term_lt := h.term_lt_step hmove
  rooted := h.rooted_step hmove
  latest := h.latest_step hmove
  chain := h.chain_step hmove
  origin := h.origin_step hmove
  kept := h.kept_step hmove
  voters := h.voters_step hmove

end Step

/-! ### What is committed stays -/

theorem committed_not_dead {t : ℕ} {q : List E} (hq : Committed τ H t q) :
    ¬ Dead H cur t q := by
  obtain ⟨-, -, Q, hQ, hack⟩ := hq
  rintro ⟨R, hR, hgone⟩
  obtain ⟨v, hvQ, hvR⟩ := hQ.exists_common hR
  exact (hgone v hvR).2 (hack v hvQ)

/-- Leader completeness: a leader of a later term holds every committed log. -/
theorem committed_led (h : ReplicaInv τ H cur) {t u : ℕ} {q : List E} (hq : Committed τ H t q)
    (htu : t < u) {c : S} {l : List E} (hl : LeaderLog H c u l) : q <+: l :=
  (h.led_or_dead hq.1 htu hl).resolve_right (committed_not_dead hq)

/-- Any two committed logs agree: one is a prefix of the other. -/
theorem committed_comparable (h : ReplicaInv τ H cur) {t u : ℕ} {q r : List E}
    (hq : Committed τ H t q) (hr : Committed τ H u r) : q <+: r ∨ r <+: q := by
  rcases Nat.lt_trichotomy t u with htu | rfl | hut
  · obtain ⟨j, l, hl, hrl⟩ := hr.2.1
    exact List.prefix_or_prefix_of_prefix (h.committed_led hq htu hl) hrl
  · exact h.canon_comparable hq.2.1 hr.2.1
  · obtain ⟨j, l, hl, hql⟩ := hq.2.1
    exact List.prefix_or_prefix_of_prefix hql (h.committed_led hr hut hl)

/-- Any two decided logs agree: one is a prefix of the other. -/
theorem decided_comparable (h : ReplicaInv τ H cur) {t u : ℕ} {d d' : List E}
    (hd : Decided τ H t d) (hd' : Decided τ H u d') : d <+: d' ∨ d' <+: d := by
  rcases hd with rfl | ⟨_, q, -, hq, hdq⟩
  · exact Or.inl List.nil_prefix
  rcases hd' with rfl | ⟨_, q', -, hq', hdq'⟩
  · exact Or.inr List.nil_prefix
  rcases h.committed_comparable hq hq' with hqq' | hqq'
  · exact List.prefix_or_prefix_of_prefix (hdq.trans hqq') hdq'
  · exact List.prefix_or_prefix_of_prefix hdq (hdq'.trans hqq')

/-- A leader of a later term holds what was decided. -/
theorem decided_led (h : ReplicaInv τ H cur) {t u : ℕ} {d : List E} (hd : Decided τ H t d)
    (htu : t < u) {c : S} {l : List E} (hl : LeaderLog H c u l) : d <+: l := by
  rcases hd with rfl | ⟨w, q, hw, hq, hdq⟩
  · exact List.nil_prefix
  · exact hdq.trans (h.committed_led hq (hw.trans_lt htu) hl)

/-- What was decided up to the term of a leader agrees with the log of the leader. -/
theorem decided_leader_comparable (h : ReplicaInv τ H cur) {t u : ℕ} {d : List E}
    (hd : Decided τ H t d) (htu : t ≤ u) {c : S} {l : List E} (hl : LeaderLog H c u l) :
    d <+: l ∨ l <+: d := by
  rcases hd with rfl | ⟨w, q, hw, hq, hdq⟩
  · exact Or.inl List.nil_prefix
  rcases (hw.trans htu).lt_or_eq with hlt | rfl
  · exact Or.inl (hdq.trans (h.committed_led hq hlt hl))
  · rcases h.canon_comparable hq.2.1 ⟨c, l, hl, List.prefix_refl _⟩ with hql | hlq
    · exact Or.inl (hdq.trans hql)
    · exact List.prefix_or_prefix_of_prefix hdq hlq

/-- Log matching, by position: two logs with entries of one term at the same place agree up to it.
-/
theorem take_eq (h : ReplicaInv τ H cur) {i j : S} {p p' : Peer S E} (hp : Seen H i p)
    (hp' : Seen H j p') {m : ℕ} {e e' : E} (he : p.log[m]? = some e) (he' : p'.log[m]? = some e')
    (hterm : τ e = τ e') : p.log.take (m + 1) = p'.log.take (m + 1) := by
  obtain ⟨hm, -⟩ := List.getElem?_eq_some_iff.mp he
  obtain ⟨hm', -⟩ := List.getElem?_eq_some_iff.mp he'
  have hend : ∀ {l : List E} {a : E}, l[m]? = some a → EndsIn τ (τ a) (l.take (m + 1)) := by
    intro l a ha
    refine ⟨a, ?_, rfl⟩
    rw [List.take_add_one, ha]
    simp
  have hlen : (p.log.take (m + 1)).length = (p'.log.take (m + 1)).length := by
    rw [List.length_take_of_le hm, List.length_take_of_le hm']
  rcases h.comparable hp hp' (List.take_prefix _ _) (List.take_prefix _ _) (hend he)
    (hterm ▸ hend he') with hpre | hpre
  · exact hpre.eq_of_length hlen
  · exact (hpre.eq_of_length hlen.symm).symm

end ReplicaInv

end Consensus
