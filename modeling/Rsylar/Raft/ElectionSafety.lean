import Rsylar.Raft.Archive
import Rsylar.Raft.Cluster

/-!
# Election safety

Every step of a cluster without restarts keeps the voting discipline of `Consensus.LawfulMove`. Most
handlers do so without a new leader (`Raft.Quiet`). A server becomes a leader when the answers to
one of its elections make a majority, so the invariant `ElectionInv` says of every election that its
counter `votedNum` counts distinct voters whose calls have returned, as long as its caller does not
lead the term; after that the counter together with the calls that can still return stays below a
majority, so the election is not won again.
-/

set_option autoImplicit false
set_option relaxedAutoImplicit false

namespace Rsylar

open TextArchive TransitionSystem Consensus

variable {n : ℕ}

/-! ### What the servers show -/

def Raft.peer (r : Raft n) : Peer (Fin n) LogEntry where
  term := r.currentTerm
  vote := r.votedFor
  role := r.status
  log := r.logs

def Cluster.view (s : Cluster n) (i : Fin n) : Peer (Fin n) LogEntry :=
  (s.servers i).peer

/-- The condition of a run in which no process is replaced by a new one. -/
def NoRestart (_ : Cluster n) : Action n → Prop
  | .restart _ => False
  | _ => True

@[simp]
theorem Cluster.view_setServer_self (s : Cluster n) (i : Fin n) (r : Raft n) :
    (s.setServer i r).view i = r.peer := by
  simp [Cluster.view, Cluster.setServer]

@[simp]
theorem Cluster.view_setServer_of_ne (s : Cluster n) {i j : Fin n} (r : Raft n) (h : j ≠ i) :
    (s.setServer i r).view j = s.view j := by
  simp [Cluster.view, Cluster.setServer, h]

/-! ### Moves without a new leader -/

/-- A lawful move after which a leader is one that led this term before. -/
structure Quiet (p p' : Peer (Fin n) LogEntry) : Prop where
  term_le : p.term ≤ p'.term
  vote_kept : p.term = p'.term → ∀ c, p.vote = some c → p'.vote = some c
  leads : p'.role = .leader → p.role = .leader ∧ p.term = p'.term

namespace Quiet

variable {H : Set (Fin n → Peer (Fin n) LogEntry)} {i : Fin n} {p p' : Peer (Fin n) LogEntry}

theorem refl (p : Peer (Fin n) LogEntry) : Quiet p p where
  term_le := le_refl _
  vote_kept := fun _ _ h ↦ h
  leads := fun h ↦ ⟨h, rfl⟩

theorem lawful (h : Quiet p p') : LawfulMove H i p p' where
  term_le := h.term_le
  vote_kept := h.vote_kept
  leads := fun hr ↦ Or.inl (h.leads hr)

/-- A follower of a later term leads nothing and has kept nothing. -/
theorem of_lt (h : p.term < p'.term) (hr : p'.role ≠ .leader) : Quiet p p' where
  term_le := h.le
  vote_kept := fun heq ↦ by omega
  leads := fun hl ↦ absurd hl hr

/-- A move that shows the same term and vote and no new role. -/
theorem of_same (hterm : p'.term = p.term) (hvote : p'.vote = p.vote)
    (hrole : p'.role = p.role ∨ p'.role = .follower) : Quiet p p' where
  term_le := hterm.ge
  vote_kept := fun _ c hc ↦ hvote.trans hc
  leads := fun hl ↦ by
    rcases hrole with heq | heq
    · exact ⟨heq ▸ hl, hterm.symm⟩
    · rw [heq] at hl
      cases hl

end Quiet

section Handlers

variable [Codec LogEntry] [Codec (BoostPersistRaftNode n)] {r r' : Raft n}

theorem quiet_requestVote {args : RequestVoteArgs n} {reply : RequestVoteReply}
    (h : r.requestVote args = .ok (r', reply)) : Quiet r.peer r'.peer := by
  rcases Raft.requestVote_cases h with ⟨-, rfl, -⟩ | ⟨hle, rfl, -⟩ | ⟨hle, -, hfree, rfl, -⟩
  · exact Quiet.of_same rfl rfl (Or.inl rfl)
  · rcases r.enterTerm_cases _ hle with ⟨hlt, heq⟩ | ⟨-, heq⟩
    · rw [heq]
      exact Quiet.of_lt hlt (by simp [Raft.peer])
    · rw [heq]
      exact Quiet.of_same rfl rfl (Or.inl rfl)
  · rcases r.enterTerm_cases _ hle with ⟨hlt, heq⟩ | ⟨-, heq⟩
    · rw [heq]
      exact Quiet.of_lt hlt (by simp [Raft.peer])
    · rw [heq] at hfree ⊢
      refine ⟨le_refl _, fun _ c hc ↦ ?_, fun hl ↦ ⟨hl, rfl⟩⟩
      have hc : r.votedFor = some c := hc
      rcases hfree with hnone | hsome
      · rw [hnone] at hc
        cases hc
      · rw [hsome] at hc
        exact hc

theorem quiet_appendEntries {args : AppendEntriesArgs n} {reply : AppendEntriesReply}
    (h : r.appendEntries args = .ok (r', reply)) : Quiet r.peer r'.peer := by
  have hfollow : ∀ q : Raft n, r.currentTerm ≤ args.term →
      q.currentTerm = (r.enterTerm args.term).currentTerm →
      q.votedFor = (r.enterTerm args.term).votedFor → q.status = .follower →
      Quiet r.peer q.peer := by
    intro q hle hterm hvote hstatus
    rcases r.enterTerm_cases _ hle with ⟨hlt, heq⟩ | ⟨-, heq⟩
    · rw [heq] at hterm
      exact Quiet.of_lt (hlt.trans_eq hterm.symm) (by simp [Raft.peer, hstatus])
    · rw [heq] at hterm hvote
      exact Quiet.of_same hterm hvote (Or.inr hstatus)
  rcases Raft.appendEntries_cases h with ⟨-, rfl, -⟩ | ⟨hle, -, rfl⟩ | ⟨hle, -, -, -, q, hq, -, rfl⟩
  · exact Quiet.refl _
  · exact hfollow _ hle rfl rfl rfl
  · rw [Raft.mergeEntries_logs hq]
    exact hfollow _ hle rfl rfl rfl

theorem quiet_installSnapshot {args : InstallSnapshotRequest n} {reply : InstallSnapshotResponse}
    {msg : Option ApplyMsg} (h : r.installSnapshot args = .ok (r', reply, msg)) :
    Quiet r.peer r'.peer := by
  rcases Raft.installSnapshot_cases h with ⟨-, rfl⟩ | ⟨p, hp, h⟩
  · exact Quiet.refl _
  · have hr' : r'.currentTerm = p.currentTerm ∧ r'.votedFor = p.votedFor ∧
        r'.status = .follower := by
      rcases h with ⟨-, rfl⟩ | ⟨-, logs, q, -, rfl, rfl⟩
      · exact ⟨rfl, rfl, rfl⟩
      · exact ⟨rfl, rfl, rfl⟩
    obtain ⟨hterm, hvote, hstatus⟩ := hr'
    rcases hp with ⟨hlt, rfl⟩ | ⟨-, rfl⟩
    · exact Quiet.of_lt (hlt.trans_eq hterm.symm) (by simp [Raft.peer, hstatus])
    · exact Quiet.of_same hterm hvote (Or.inr hstatus)

theorem quiet_start {me : Fin n} {command : String} {result : Option (ℕ × ℕ)}
    (h : r.start me command = .ok (r', result)) : Quiet r.peer r'.peer := by
  rcases Raft.start_cases h with ⟨-, rfl, -⟩ | ⟨-, e, q, found, -, rfl, -, rfl, -⟩
  · exact Quiet.refl _
  · exact Quiet.of_same rfl rfl (Or.inl rfl)

omit [Codec LogEntry] [Codec (BoostPersistRaftNode n)] in
theorem quiet_sendAppendEntries {server : Fin n} {args : AppendEntriesArgs n}
    {reply : AppendEntriesReply} {appendNums appendNums' : ℕ}
    (h : r.sendAppendEntries server args reply appendNums = .ok (r', appendNums')) :
    Quiet r.peer r'.peer := by
  rcases Raft.sendAppendEntries_cases h with ⟨rfl, -⟩ | ⟨-, hlt, rfl, -⟩ |
    ⟨-, -, -, -, index, -, rfl⟩ | ⟨-, -, -, reached, -, -, ⟨rfl, -⟩ | ⟨-, -, -, rfl⟩⟩
  · exact Quiet.refl _
  · exact Quiet.of_lt hlt (by simp [Raft.peer])
  · exact Quiet.of_same rfl rfl (Or.inl rfl)
  · exact Quiet.of_same rfl rfl (Or.inl rfl)
  · exact Quiet.of_same rfl rfl (Or.inl rfl)

omit [Codec LogEntry] [Codec (BoostPersistRaftNode n)] in
theorem quiet_getApplyLogs {msgs : List ApplyMsg} (h : r.getApplyLogs = .ok (r', msgs)) :
    Quiet r.peer r'.peer := by
  obtain ⟨rfl, -⟩ := Raft.getApplyLogs_cases h
  exact Quiet.of_same rfl rfl (Or.inl rfl)

theorem quiet_snapshot {index : ℕ} {data : String} (h : r.snapshot index data = .ok r') :
    Quiet r.peer r'.peer := by
  rcases Raft.snapshot_cases h with rfl | ⟨-, -, e, logs, q, -, -, rfl, rfl⟩
  · exact Quiet.refl _
  · exact Quiet.of_same rfl rfl (Or.inl rfl)

theorem quiet_leaderSendSnapShotReply (r : Raft n) (server : Fin n)
    (args : InstallSnapshotRequest n) (reply : InstallSnapshotResponse) :
    Quiet r.peer (r.leaderSendSnapShotReply server args reply).peer := by
  rcases r.leaderSendSnapShotReply_cases server args reply with heq | ⟨hlt, heq⟩ | ⟨-, -, -, heq⟩
  · rw [heq]
    exact Quiet.refl _
  · rw [heq]
    exact Quiet.of_lt hlt (by simp [Raft.peer])
  · rw [heq]
    exact Quiet.of_same rfl rfl (Or.inl rfl)

end Handlers

/-! ### The invariant -/

/-- What is known of one election. -/
structure VoteRoundInv (H : Set (Fin n → Peer (Fin n) LogEntry)) (round : VoteRound n) : Prop where
  candidate : round.args.candidateId = round.caller
  own_vote : Voted H round.caller round.args.term round.caller
  granted : ∀ peer reply, (peer, reply) ∈ round.replies → reply.voteGranted = true →
    reply.term = round.args.term ∧ Voted H peer round.args.term round.caller
  /-- The counter counts voters, or the election has been won and cannot be won again. -/
  count : (¬ Led H round.args.term round.caller ∧
      ∃ Q : Finset (Fin n), (∀ v ∈ Q, Voted H v round.args.term round.caller) ∧
        Q.card = round.votedNum ∧ Disjoint Q round.pending) ∨
    round.votedNum + round.pending.card < n / 2 + 1

structure ElectionInv (H : Set (Fin n → Peer (Fin n) LogEntry)) (s : Cluster n) : Prop where
  ballot : BallotInv H s.view
  rounds : ∀ (k : ℕ) round, s.elections[k]? = some round → VoteRoundInv H round
  /-- A server has one election in a term. -/
  distinct : ∀ (k k' : ℕ) round round', s.elections[k]? = some round → s.elections[k']? = some round' →
    round.caller = round'.caller → round.args.term = round'.args.term → k = k'

theorem VoteRoundInv.mono {H H' : Set (Fin n → Peer (Fin n) LogEntry)} {round : VoteRound n}
    (h : VoteRoundInv H round) (hsub : H ⊆ H')
    (hled : Led H' round.args.term round.caller → Led H round.args.term round.caller) :
    VoteRoundInv H' round where
  candidate := h.candidate
  own_vote := h.own_vote.mono hsub
  granted := fun peer reply hmem hgranted ↦
    (h.granted peer reply hmem hgranted).imp_right fun hv ↦ hv.mono hsub
  count := by
    rcases h.count with ⟨hnot, Q, hQ, hcard, hdisj⟩ | hwon
    · exact Or.inl ⟨fun hl ↦ hnot (hled hl), Q, fun v hv ↦ (hQ v hv).mono hsub, hcard, hdisj⟩
    · exact Or.inr hwon

/-- One more vote that makes a majority elects the caller. -/
theorem VoteRoundInv.elected {H : Set (Fin n → Peer (Fin n) LogEntry)} {round : VoteRound n}
    (h : VoteRoundInv H round) {peer : Fin n} (hpending : peer ∈ round.pending)
    (hvoted : Voted H peer round.args.term round.caller)
    (hmajority : n / 2 + 1 ≤ round.votedNum + 1) : Elected H round.args.term round.caller := by
  have hpos : 0 < round.pending.card := Finset.card_pos.mpr ⟨peer, hpending⟩
  rcases h.count with ⟨-, Q, hQ, hnum, hdisj⟩ | hwon
  · have hnew : peer ∉ Q := fun hQpeer ↦ Finset.disjoint_left.mp hdisj hQpeer hpending
    have hcard := Finset.card_insert_of_notMem hnew
    refine ⟨insert peer Q, ?_, fun v hv ↦ ?_⟩
    · unfold IsMajority
      rw [Fintype.card_fin]
      omega
    · rcases Finset.mem_insert.mp hv with rfl | hv
      · exact hvoted
      · exact hQ v hv
  · omega

/-! ### Positions in a list of rounds -/

section Positions

variable {α : Type*} {l m : List α} {a b : α} {j k : ℕ}

theorem getElem?_set_cases (h : (l.set k a)[j]? = some b) :
    (j = k ∧ b = a) ∨ (j ≠ k ∧ l[j]? = some b) := by
  by_cases hjk : j = k
  · subst hjk
    left
    rw [List.getElem?_set_self'] at h
    refine ⟨rfl, ?_⟩
    obtain ⟨c, -, hc⟩ := Option.map_eq_some_iff.mp h
    exact hc.symm
  · right
    rw [List.getElem?_set_ne (Ne.symm hjk)] at h
    exact ⟨hjk, h⟩

theorem getElem?_append_cases (h : (l ++ m)[j]? = some b) : l[j]? = some b ∨ b ∈ m := by
  rcases Nat.lt_or_ge j l.length with hlt | hge
  · rw [List.getElem?_append_left hlt] at h
    exact Or.inl h
  · rw [List.getElem?_append_right hge] at h
    exact Or.inr (List.mem_of_getElem? h)

theorem mem_of_lookup {α β : Type*} [BEq α] [LawfulBEq α] {l : List (α × β)} {a : α} {b : β}
    (h : l.lookup a = some b) : (a, b) ∈ l := by
  obtain ⟨l₁, l₂, rfl, -⟩ := List.lookup_eq_some_iff.mp h
  exact List.mem_append_right _ List.mem_cons_self

end Positions

/-! ### Preservation -/

section Step

variable {H : Set (Fin n → Peer (Fin n) LogEntry)} {s s' : Cluster n}

theorem quiet_setServer {i : Fin n} {r : Raft n} (h : Quiet (s.view i) r.peer) (j : Fin n) :
    Quiet (s.view j) ((s.setServer i r).view j) := by
  by_cases hji : j = i
  · subst hji
    rw [Cluster.view_setServer_self]
    exact h
  · rw [Cluster.view_setServer_of_ne s r hji]
    exact Quiet.refl _

/-- The term of a server never goes back as long as its process lasts. -/
theorem term_le_step [Codec LogEntry] [Codec (BoostPersistRaftNode n)] {a : Action n}
    (hstep : s.step a = some s') {j : Fin n} (ha : ∀ i, a = .restart i → i ≠ j) :
    (s.servers j).currentTerm ≤ (s'.servers j).currentTerm := by
  have hset : ∀ {i : Fin n} {r : Raft n}, (s.servers i).currentTerm ≤ r.currentTerm →
      (s.servers j).currentTerm ≤ ((s.setServer i r).servers j).currentTerm := by
    intro i r hle
    by_cases hji : j = i
    · subst hji
      simpa [Cluster.setServer] using hle
    · simp [Cluster.setServer, hji]
  cases Cluster.step_cases hstep with
  | exit i e _ => exact le_refl _
  | doElection i r request hr =>
    refine hset ?_
    rcases (s.servers i).doElection_cases i with ⟨-, heq⟩ | ⟨-, -, heq⟩ | ⟨-, -, heq⟩ <;>
      obtain ⟨rfl, -⟩ := Prod.mk.inj (heq.symm.trans hr)
    · exact le_refl _
    · exact Nat.le_succ _
    · exact Nat.le_succ _
  | requestVote k peer round r reply _ _ hr => exact hset (quiet_requestVote hr).term_le
  | sendRequestVote k peer reply round r votedNum _ _ _ hr =>
    refine hset ?_
    rcases Raft.sendRequestVote_cases hr with ⟨hlt, rfl, -⟩ | ⟨rfl, -⟩ | ⟨-, -, -, rfl, -⟩ |
      ⟨-, -, -, -, rfl, -⟩
    · exact hlt.le
    · exact le_refl _
    · exact le_refl _
    · exact le_refl _
  | start i command r result hr => exact hset (quiet_start hr).term_le
  | doHeartBeat_idle i _ => exact le_refl _
  | doHeartBeat i sent _ => exact le_refl _
  | appendEntries k peer round args r reply _ _ hr => exact hset (quiet_appendEntries hr).term_le
  | sendAppendEntries k peer reply round args r appendNums _ _ _ _ hr =>
    exact hset (quiet_sendAppendEntries hr).term_le
  | getApplyLogs i r msgs hr => exact hset (quiet_getApplyLogs hr).term_le
  | applierPush i msg msgs _ => exact le_refl _
  | snapshot i index data r hr => exact hset (quiet_snapshot hr).term_le
  | leaderSendSnapShot k i peer r args _ hr =>
    cases hr
    exact hset (le_refl _)
  | installSnapshot k call r reply msg _ hr => exact hset (quiet_installSnapshot hr).term_le
  | leaderSendSnapShotReply k reply call r _ _ _ hr =>
    cases hr
    exact hset (quiet_leaderSendSnapShotReply _ _ _ _).term_le
  | pushMsgToKvServer i k msg _ => exact le_refl _
  | restart i r data _ =>
    have hne := ha i rfl
    simp [Cluster.replace, hne.symm]

/-- After quiet moves nobody leads who did not lead before. -/
theorem led_of_quiet (hcur : s.view ∈ H) (hmove : ∀ i, Quiet (s.view i) (s'.view i)) {t : ℕ}
    {i : Fin n} (h : Led (insert s'.view H) t i) : Led H t i := by
  rcases led_insert.mp h with ⟨hterm, hrole⟩ | h
  · obtain ⟨hrole, hsame⟩ := (hmove i).leads hrole
    exact ⟨s.view i, ⟨s.view, hcur, rfl⟩, hsame.trans hterm, hrole⟩
  · exact h

namespace ElectionInv

/-- A round that has changed keeps its place among the rounds. -/
theorem distinct_set (h : ElectionInv H s) {k : ℕ} {round round' : VoteRound n}
    (hround : s.elections[k]? = some round) (hcaller : round'.caller = round.caller)
    (hargs : round'.args = round.args) (j j' : ℕ) (a b : VoteRound n)
    (ha : (s.elections.set k round')[j]? = some a) (hb : (s.elections.set k round')[j']? = some b)
    (hab : a.caller = b.caller) (hterm : a.args.term = b.args.term) : j = j' := by
  have horigin : ∀ {i : ℕ} {c : VoteRound n}, (s.elections.set k round')[i]? = some c →
      ∃ d, s.elections[i]? = some d ∧ d.caller = c.caller ∧ d.args = c.args := by
    intro i c hc
    rcases getElem?_set_cases hc with ⟨rfl, rfl⟩ | ⟨-, hc⟩
    · exact ⟨round, hround, hcaller.symm, hargs.symm⟩
    · exact ⟨c, hc, rfl, rfl⟩
  obtain ⟨a', ha', hac, haa⟩ := horigin ha
  obtain ⟨b', hb', hbc, hba⟩ := horigin hb
  exact h.distinct j j' a' b' ha' hb' (by rw [hac, hbc, hab]) (by rw [haa, hba, hterm])

/-- A step that touches no election and makes no leader. -/
theorem frame (h : ElectionInv H s) (hmove : ∀ i, Quiet (s.view i) (s'.view i))
    (heq : s'.elections = s.elections) : ElectionInv (insert s'.view H) s' where
  ballot := h.ballot.step fun i ↦ (hmove i).lawful
  rounds := fun k round hround ↦ by
    rw [heq] at hround
    exact (h.rounds k round hround).mono (Set.subset_insert _ _)
      (led_of_quiet h.ballot.cur_mem hmove)
  distinct := by
    rw [heq]
    exact h.distinct

/-- A step that changes one election and makes no leader. -/
theorem frame_set (h : ElectionInv H s) (hmove : ∀ i, Quiet (s.view i) (s'.view i)) {k : ℕ}
    {round : VoteRound n} (round' : VoteRound n) (hround : s.elections[k]? = some round)
    (heq : s'.elections = s.elections.set k round') (hcaller : round'.caller = round.caller)
    (hargs : round'.args = round.args) (hinv : VoteRoundInv (insert s'.view H) round') :
    ElectionInv (insert s'.view H) s' where
  ballot := h.ballot.step fun i ↦ (hmove i).lawful
  rounds := fun j a ha ↦ by
    rw [heq] at ha
    rcases getElem?_set_cases ha with ⟨-, rfl⟩ | ⟨-, ha⟩
    · exact hinv
    · exact (h.rounds j a ha).mono (Set.subset_insert _ _) (led_of_quiet h.ballot.cur_mem hmove)
  distinct := by
    rw [heq]
    exact h.distinct_set hround hcaller hargs

theorem initial : ElectionInv {(Cluster.initial : Cluster n).view} (Cluster.initial : Cluster n) where
  ballot := BallotInv.initial fun i ↦ by simp [Cluster.view, Cluster.initial, Raft.peer, Raft.fresh]
  rounds := fun k round hround ↦ by simp [Cluster.initial] at hround
  distinct := fun k k' round round' hround ↦ by simp [Cluster.initial] at hround

/-- The counter of an election after one more call has returned, when it is not won by it. -/
theorem round_counted {round : VoteRound n} (hinv : VoteRoundInv H round) {peer : Fin n}
    (hpending : peer ∈ round.pending)
    {votedNum : ℕ} (hcount : votedNum = round.votedNum ∨
      votedNum = round.votedNum + 1 ∧ Voted H peer round.args.term round.caller) :
    VoteRoundInv H { round with votedNum := votedNum, pending := round.pending.erase peer } := by
  have hcard := Finset.card_erase_of_mem hpending
  have hpos : 0 < round.pending.card := Finset.card_pos.mpr ⟨peer, hpending⟩
  refine ⟨hinv.candidate, hinv.own_vote, hinv.granted, ?_⟩
  rcases hinv.count with ⟨hnot, Q, hQ, hnum, hdisj⟩ | hwon
  · left
    refine ⟨hnot, ?_⟩
    rcases hcount with rfl | ⟨rfl, hvoted⟩
    · exact ⟨Q, hQ, hnum, hdisj.mono_right (Finset.erase_subset _ _)⟩
    · have hnew : peer ∉ Q := fun hQpeer ↦ Finset.disjoint_left.mp hdisj hQpeer hpending
      refine ⟨insert peer Q, fun v hv ↦ ?_, by rw [Finset.card_insert_of_notMem hnew, hnum], ?_⟩
      · rcases Finset.mem_insert.mp hv with rfl | hv
        · exact hvoted
        · exact hQ v hv
      · rw [Finset.disjoint_insert_left]
        exact ⟨Finset.notMem_erase _ _, hdisj.mono_right (Finset.erase_subset _ _)⟩
  · right
    show votedNum + (round.pending.erase peer).card < n / 2 + 1
    rcases hcount with rfl | ⟨rfl, -⟩ <;> omega

variable [Codec LogEntry] [Codec (BoostPersistRaftNode n)]

theorem step_requestVote (h : ElectionInv H s) {k : ℕ} {peer : Fin n} {round : VoteRound n}
    {r : Raft n} {reply : RequestVoteReply} (hround : s.elections[k]? = some round)
    (hr : (s.servers peer).requestVote round.args = .ok (r, reply))
    (hview : s'.view = (s.setServer peer r).view)
    (helections : s'.elections =
      s.elections.set k { round with replies := round.replies ++ [(peer, reply)] }) :
    ElectionInv (insert s'.view H) s' := by
  have hinv := h.rounds k round hround
  have hmove : ∀ i, Quiet (s.view i) (s'.view i) := by
    rw [hview]
    exact quiet_setServer (quiet_requestVote hr)
  have hold := hinv.mono (Set.subset_insert s'.view H) (led_of_quiet h.ballot.cur_mem hmove)
  refine h.frame_set hmove { round with replies := round.replies ++ [(peer, reply)] } hround
    helections rfl rfl ⟨hold.candidate, hold.own_vote, fun v answer hmem hgranted ↦ ?_, hold.count⟩
  rcases List.mem_append.mp hmem with hmem | hmem
  · exact hold.granted v answer hmem hgranted
  · -- The new answer: the vote it grants is in the voter's state.
    cases List.mem_singleton.mp hmem
    rcases Raft.requestVote_cases hr with ⟨-, -, hno⟩ | ⟨-, -, hno⟩ | ⟨hle, -, -, rfl, rfl⟩
    · rw [hno] at hgranted
      cases hgranted
    · rw [hno] at hgranted
      cases hgranted
    · refine ⟨rfl, voted_insert.mpr (Or.inl ?_)⟩
      rw [hview, Cluster.view_setServer_self]
      exact ⟨Raft.enterTerm_currentTerm _ _ hle, congrArg some hinv.candidate⟩

theorem step_sendRequestVote (h : ElectionInv H s) {k : ℕ} {peer : Fin n} {round : VoteRound n}
    {r : Raft n} {reply : RequestVoteReply} {votedNum : ℕ} (hround : s.elections[k]? = some round)
    (hpending : peer ∈ round.pending) (hreply : (peer, reply) ∈ round.replies)
    (hr : (s.servers round.caller).sendRequestVote reply round.votedNum = .ok (r, votedNum))
    (hview : s'.view = (s.setServer round.caller r).view)
    (helections : s'.elections = s.elections.set k
      { round with votedNum := votedNum, pending := round.pending.erase peer }) :
    ElectionInv (insert s'.view H) s' := by
  have hinv := h.rounds k round hround
  have hcaller : s'.view round.caller = r.peer := by
    rw [hview, Cluster.view_setServer_self]
  have hother : ∀ j, j ≠ round.caller → s'.view j = s.view j := fun j hj ↦ by
    rw [hview, Cluster.view_setServer_of_ne s r hj]
  -- The answers that do not win the election.
  have hquiet : Quiet (s.view round.caller) r.peer →
      (votedNum = round.votedNum ∨
        votedNum = round.votedNum + 1 ∧ Voted H peer round.args.term round.caller) →
      ElectionInv (insert s'.view H) s' := by
    intro hq hcount
    have hmove : ∀ i, Quiet (s.view i) (s'.view i) := by
      rw [hview]
      exact quiet_setServer hq
    exact h.frame_set hmove _ hround helections rfl rfl
      ((round_counted hinv hpending hcount).mono (Set.subset_insert _ _)
        (led_of_quiet h.ballot.cur_mem hmove))
  rcases Raft.sendRequestVote_cases hr with ⟨hlt, rfl, rfl⟩ | ⟨rfl, rfl⟩ |
    ⟨hterm, hgranted, -, rfl, rfl⟩ | ⟨hterm, hgranted, hmajority, hnotlead, rfl, rfl⟩
  · exact hquiet (Quiet.of_lt hlt (by simp [Raft.peer])) (Or.inl rfl)
  · exact hquiet (Quiet.refl _) (Or.inl rfl)
  · exact hquiet (Quiet.refl _) (Or.inr ⟨rfl, (hinv.granted peer reply hreply hgranted).2⟩)
  · -- The election is won: the counted voters and this one are a majority.
    obtain ⟨hreplyTerm, hvoted⟩ := hinv.granted peer reply hreply hgranted
    have hpos : 0 < round.pending.card := Finset.card_pos.mpr ⟨peer, hpending⟩
    rcases hinv.count with ⟨hnot, Q, hQ, hnum, hdisj⟩ | hwon
    · have hsub : H ⊆ insert s'.view H := Set.subset_insert _ _
      have hroundTerm : (s.servers round.caller).currentTerm = round.args.term :=
        hterm.symm.trans hreplyTerm
      have helected := hinv.elected hpending hvoted hmajority
      have hlawful : ∀ i, LawfulMove (insert s'.view H) i (s.view i) (s'.view i) := by
        intro i
        by_cases hi : i = round.caller
        · subst hi
          rw [hcaller]
          refine ⟨le_refl _, fun _ c hc ↦ hc, fun _ ↦ Or.inr ?_⟩
          show Elected _ (s.servers round.caller).currentTerm _
          rw [hroundTerm]
          exact helected.mono hsub
        · rw [hother i hi]
          exact LawfulMove.refl _ _ _
      -- A server that leads now and did not lead before is the caller in this term.
      have hled : ∀ t i, Led (insert s'.view H) t i →
          Led H t i ∨ (i = round.caller ∧ t = round.args.term) := by
        intro t i hl
        rcases led_insert.mp hl with ⟨ht, hrole⟩ | hl
        · by_cases hi : i = round.caller
          · subst hi
            rw [hcaller] at ht
            exact Or.inr ⟨rfl, ht.symm.trans hroundTerm⟩
          · rw [hother i hi] at ht hrole
            exact Or.inl ⟨s.view i, h.ballot.seen_self i, ht, hrole⟩
        · exact Or.inl hl
      refine ⟨h.ballot.step hlawful, fun j a ha ↦ ?_, ?_⟩
      · rw [helections] at ha
        rcases getElem?_set_cases ha with ⟨-, rfl⟩ | ⟨hjk, ha⟩
        · refine ⟨hinv.candidate, hinv.own_vote.mono hsub, fun v answer hmem hyes ↦
            (hinv.granted v answer hmem hyes).imp_right fun hv ↦ hv.mono hsub, Or.inr ?_⟩
          show 0 + (round.pending.erase peer).card < n / 2 + 1
          have herase := Finset.card_erase_of_mem hpending
          have hunion := Finset.card_union_of_disjoint hdisj
          have htotal := Finset.card_le_univ (Q ∪ round.pending)
          rw [Fintype.card_fin] at htotal
          omega
        · refine (h.rounds j a ha).mono hsub fun hl ↦ ?_
          rcases hled _ _ hl with hl | ⟨hcaller, hterm⟩
          · exact hl
          · exact absurd (h.distinct j k a round ha hround hcaller hterm) hjk
      · rw [helections]
        exact h.distinct_set hround rfl rfl
    · omega

theorem step_doElection (h : ElectionInv H s) {i : Fin n} {r : Raft n}
    {request : Option (RequestVoteArgs n)} (hr : (s.servers i).doElection i = (r, request))
    (hview : s'.view = (s.setServer i r).view)
    (helections : s'.elections = s.elections ++ (request.map (VoteRound.begin i)).toList) :
    ElectionInv (insert s'.view H) s' := by
  have hsub : H ⊆ insert s'.view H := Set.subset_insert _ _
  have hself : s'.view i = r.peer := by
    rw [hview, Cluster.view_setServer_self]
  rcases (s.servers i).doElection_cases i with ⟨-, heq⟩ | ⟨-, hone, heq⟩ | ⟨-, -, heq⟩
  · obtain ⟨rfl, rfl⟩ := Prod.mk.inj (heq.symm.trans hr)
    refine h.frame ?_ (by simpa using helections)
    rw [hview]
    exact quiet_setServer (Quiet.refl _)
  · -- A single server is a majority by itself.
    obtain ⟨rfl, rfl⟩ := Prod.mk.inj (heq.symm.trans hr)
    have hvoted : Voted (insert s'.view H) i ((s.servers i).currentTerm + 1) i :=
      voted_insert.mpr (Or.inl (by rw [hself]; exact ⟨rfl, rfl⟩))
    have hall : ∀ j : Fin n, j = i := by
      subst hone
      exact fun j ↦ Subsingleton.elim _ _
    have hlawful : ∀ j, LawfulMove (insert s'.view H) j (s.view j) (s'.view j) := by
      intro j
      obtain rfl := hall j
      rw [hself]
      refine ⟨Nat.le_succ _, fun hterm ↦ absurd hterm (Nat.succ_ne_self _).symm, fun _ ↦
        Or.inr ⟨{j}, ?_, fun v hv ↦ ?_⟩⟩
      · unfold IsMajority
        rw [Fintype.card_fin, Finset.card_singleton]
        omega
      · rw [Finset.mem_singleton.mp hv]
        exact hvoted
    have hnone : s'.elections = s.elections := by simpa using helections
    refine ⟨h.ballot.step hlawful, fun k round hround ↦ ?_, by rw [hnone]; exact h.distinct⟩
    rw [hnone] at hround
    have hinv := h.rounds k round hround
    refine hinv.mono hsub fun hl ↦ ?_
    rcases led_insert.mp hl with ⟨hterm, -⟩ | hl
    · -- The elections of this server are of earlier terms.
      have hle := h.ballot.voted_le hinv.own_vote
      rw [hall round.caller, hself] at hterm
      rw [hall round.caller] at hle
      have hterm : (s.servers i).currentTerm + 1 = round.args.term := hterm
      have hle : round.args.term ≤ (s.servers i).currentTerm := hle
      omega
    · exact hl
  · obtain ⟨rfl, rfl⟩ := Prod.mk.inj (heq.symm.trans hr)
    have hmove : ∀ j, Quiet (s.view j) (s'.view j) := by
      rw [hview]
      exact quiet_setServer (Quiet.of_lt (Nat.lt_succ_self _) (by simp [Raft.peer]))
    have hvoted : Voted (insert s'.view H) i ((s.servers i).currentTerm + 1) i :=
      voted_insert.mpr (Or.inl (by rw [hself]; exact ⟨rfl, rfl⟩))
    have hold : ∀ (k : ℕ) round, s.elections[k]? = some round → round.caller = i →
        round.args.term ≤ (s.servers i).currentTerm := by
      rintro k round hround rfl
      exact h.ballot.voted_le (h.rounds k round hround).own_vote
    refine ⟨h.ballot.step fun j ↦ (hmove j).lawful, fun k round hround ↦ ?_, ?_⟩
    · rw [helections] at hround
      rcases getElem?_append_cases hround with hround | hnew
      · exact (h.rounds k round hround).mono hsub (led_of_quiet h.ballot.cur_mem hmove)
      · obtain rfl : round = _ := by simpa using hnew
        refine ⟨rfl, hvoted, fun peer reply hmem ↦ absurd hmem (List.not_mem_nil), Or.inl ⟨?_, {i},
          fun v hv ↦ ?_, rfl, ?_⟩⟩
        · intro hl
          have hle := h.ballot.led_le (led_of_quiet h.ballot.cur_mem hmove hl)
          exact absurd hle (Nat.not_succ_le_self _)
        · rw [Finset.mem_singleton.mp hv]
          exact hvoted
        · simp [VoteRound.begin]
    · rw [helections]
      simp only [Option.map_some, Option.toList_some]
      intro k k' a b ha hb hab hterm
      rw [List.getElem?_append] at ha hb
      split at ha <;> split at hb
      · exact h.distinct k k' a b ha hb hab hterm
      · obtain ⟨rfl, -⟩ : b = _ ∧ True := ⟨by simpa using List.mem_of_getElem? hb, trivial⟩
        have hle := hold k a ha hab
        rw [hterm] at hle
        exact absurd hle (Nat.not_succ_le_self _)
      · obtain ⟨rfl, -⟩ : a = _ ∧ True := ⟨by simpa using List.mem_of_getElem? ha, trivial⟩
        have hle := hold k' b hb hab.symm
        rw [← hterm] at hle
        exact absurd hle (Nat.not_succ_le_self _)
      · have hk := (List.getElem?_eq_some_iff.mp ha).1
        have hk' := (List.getElem?_eq_some_iff.mp hb).1
        simp only [List.length_singleton] at hk hk'
        omega

/-- Every step of a cluster without restarts keeps the invariant. -/
theorem step (h : ElectionInv H s) {a : Action n} (ha : NoRestart s a)
    (hstep : s.step a = some s') : ElectionInv (insert s'.view H) s' := by
  cases Cluster.step_cases hstep with
  | exit i e _ => exact h.frame (fun j ↦ Quiet.refl _) rfl
  | doElection i r request hr => exact h.step_doElection hr rfl rfl
  | requestVote k peer round r reply hround _ hr => exact h.step_requestVote hround hr rfl rfl
  | sendRequestVote k peer reply round r votedNum hround hpending hreply hr =>
    exact h.step_sendRequestVote hround hpending hreply hr rfl rfl
  | start i command r result hr => exact h.frame (quiet_setServer (quiet_start hr)) rfl
  | doHeartBeat_idle i _ => exact h.frame (fun j ↦ Quiet.refl _) rfl
  | doHeartBeat i sent _ => exact h.frame (fun j ↦ Quiet.refl _) rfl
  | appendEntries k peer round args r reply _ _ hr =>
    exact h.frame (quiet_setServer (quiet_appendEntries hr)) rfl
  | sendAppendEntries k peer reply round args r appendNums _ _ _ _ hr =>
    exact h.frame (quiet_setServer (quiet_sendAppendEntries hr)) rfl
  | getApplyLogs i r msgs hr => exact h.frame (quiet_setServer (quiet_getApplyLogs hr)) rfl
  | applierPush i msg msgs _ => exact h.frame (fun j ↦ Quiet.refl _) rfl
  | snapshot i index data r hr => exact h.frame (quiet_setServer (quiet_snapshot hr)) rfl
  | leaderSendSnapShot k i peer r args _ hr =>
    cases hr
    exact h.frame (quiet_setServer (Quiet.refl _)) rfl
  | installSnapshot k call r reply msg _ hr =>
    exact h.frame (quiet_setServer (quiet_installSnapshot hr)) rfl
  | leaderSendSnapShotReply k reply call r _ _ _ hr =>
    cases hr
    exact h.frame (quiet_setServer (quiet_leaderSendSnapShotReply _ _ _ _)) rfl
  | pushMsgToKvServer i k msg _ => exact h.frame (fun j ↦ Quiet.refl _) rfl
  | restart i r data _ => exact ha.elim

end ElectionInv

end Step

/-! ### Election safety of every run -/

section Runs

variable [Codec LogEntry] [Codec (BoostPersistRaftNode n)]

theorem electionInv_run (r : Run (raft n)) (hr : r.Obeys NoRestart) (k : ℕ) :
    ElectionInv (r.past Cluster.view k) (r.state k) :=
  r.invariant_past ElectionInv.initial (fun _ _ _ _ h ha hstep ↦ h.step ha hstep) hr k

/-- A leader shown at a moment is one of the past at every later moment. -/
theorem led_past (r : Run (raft n)) {j k : ℕ} (hjk : j ≤ k) {i : Fin n}
    (hlead : ((r.state j).servers i).status = .leader) :
    Led (r.past Cluster.view k) ((r.state j).servers i).currentTerm i :=
  ⟨(r.state j).view i, ⟨(r.state j).view, r.mem_past_of_le Cluster.view hjk, rfl⟩, rfl, hlead⟩

/-- Election safety. In every run without restarts, leaders of one term, at whatever moments, are
the same server, and no answer to a vote request makes a leader a leader again. -/
theorem electionSafety (r : Run (raft n)) (hr : r.Obeys NoRestart) :
    (∀ j k i i', ((r.state j).servers i).status = .leader →
      ((r.state k).servers i').status = .leader →
      ((r.state j).servers i).currentTerm = ((r.state k).servers i').currentTerm → i = i') ∧
    ∀ k round peer reply i,
      (r.state k).perform (.sendRequestVote round peer reply) ≠ some (i, .error .leaderTwice) := by
  constructor
  · intro j k i i' hlead hlead' hterm
    have hinv := electionInv_run r hr (max j k)
    have hled := led_past r (le_max_left j k) hlead
    rw [hterm] at hled
    exact hinv.ballot.led_unique hled (led_past r (le_max_right j k) hlead')
  · intro k m peer reply i h
    have hinv := electionInv_run r hr k
    simp only [Cluster.perform, Option.bind_eq_bind, Option.bind_eq_some_iff,
      Option.guard_eq_some', Option.some.injEq, Prod.mk.injEq] at h
    obtain ⟨round, hround, _, ⟨hpending, hreply⟩, -, h⟩ := h
    rcases bind_eq_error.mp h with h | ⟨_, -, h⟩
    · obtain ⟨hterm, hgranted, hmajority, hlead⟩ := Raft.sendRequestVote_leaderTwice h
      have hvotes := hinv.rounds m round hround
      obtain ⟨hreplyTerm, -⟩ := hvotes.granted peer reply hreply hgranted
      have hpos : 0 < round.pending.card := Finset.card_pos.mpr ⟨peer, hpending⟩
      rcases hvotes.count with ⟨hnot, -⟩ | hwon
      · -- The caller leads this term, but its election is still open.
        refine hnot ⟨(r.state k).view round.caller, hinv.ballot.seen_self _, ?_, hlead⟩
        exact hterm.symm.trans hreplyTerm
      · omega
    · exact pure_ne_error h

end Runs

/-! ### A first election -/

section FirstElection

open scoped Archive

instance twoServers : @NeZero ℕ (@Zero.ofOfNat0 ℕ _) 2 := ⟨Nat.succ_ne_zero 1⟩

/-- One of two servers is elected with both votes. -/
def firstElection : List (Action 2) :=
  [.doElection 0, .requestVote 0 1, .sendRequestVote 0 1 ⟨1, true, .normal⟩]

def firstElectionRun : Run (raft 2) :=
  Run.ofActions (raft 2) firstElection (by decide +kernel)

theorem firstElectionRun_noRestart : firstElectionRun.Obeys NoRestart :=
  Run.obeys_ofActions _ _ (by simp [firstElection, NoRestart])

theorem electionSafety_firstElection :
    ((firstElectionRun.state 3).servers 0).status = .leader ∧
      (∀ k i, ((firstElectionRun.state k).servers i).status = .leader →
        ((firstElectionRun.state 3).servers 0).currentTerm =
          ((firstElectionRun.state k).servers i).currentTerm → 0 = i) ∧
      ∀ i, (firstElectionRun.state 2).perform (.sendRequestVote 0 1 ⟨1, true, .normal⟩) ≠
        some (i, .error .leaderTwice) := by
  have hlead : ((firstElectionRun.state 3).servers 0).status = .leader := by decide +kernel
  obtain ⟨hunique, hnever⟩ := electionSafety firstElectionRun firstElectionRun_noRestart
  exact ⟨hlead, fun k i hi ↦ hunique 3 k 0 i hlead hi, hnever 2 0 1 ⟨1, true, .normal⟩⟩

end FirstElection

end Rsylar
