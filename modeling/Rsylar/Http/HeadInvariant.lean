import Rsylar.Foundations.RegexResiduals
import Rsylar.Http.MessageParser

/-!
# Invariants of receiving a head

The loop of `recvHead` in steps: a byte that is read into the buffer, and the next read, with which
the buffer begins anew. What holds at the start and is kept by both holds where a successful loop
ends (`recvHead_invariant`), whatever the machine accepts. A byte comes with the position at which
its buffer begins (`InBuffer`), on which the texts of the callbacks depend.
-/

set_option autoImplicit false
set_option relaxedAutoImplicit false

namespace Rsylar.Http

open ActionRegex Scanner

/-- With reads of at most `n` bytes, the byte at the position `pos` is read into a buffer that
begins at the position `off`. -/
structure InBuffer (n : ℕ) (s : SocketStream) (off pos : ℕ) : Prop where
  readEnd : ∃ i, s.readEnd n i = off
  le : off ≤ pos
  last : ∀ i, s.readEnd n i ≤ pos → s.readEnd n i ≤ off

/-- The bytes that have been read and the position at which the buffer begins, with the machine, its
marks and the data of the parser. -/
structure HeadState (κ φ σ : Type) where
  off : ℕ
  past : List Byte
  cs : Expr (ScanAction κ φ)
  marks : Marks
  data : σ

variable {κ φ σ : Type}

namespace HeadState

/-- What the buffer holds. -/
def seen (st : HeadState κ φ σ) : List Byte := st.past.drop st.off

/-- The next read. -/
def cut (st : HeadState κ φ σ) : HeadState κ φ σ :=
  { st with off := st.past.length, marks := st.marks.reset }

/-- A byte of the buffer. -/
def byte [DecidableEq κ] [DecidableEq φ] (cb : Callbacks κ φ σ) (st : HeadState κ φ σ) (c : Byte) :
    HeadState κ φ σ where
  off := st.off
  past := st.past ++ [c]
  cs := (step st.cs c).1
  marks := setAll st.seen.length st.marks (step st.cs c).2
  data := (callAll st.seen c st.marks (step st.cs c).2).foldl cb.onCall st.data

end HeadState

theorem InBuffer.unique {n : ℕ} {s : SocketStream} {off off' pos : ℕ} (h : InBuffer n s off pos)
    (h' : InBuffer n s off' pos) : off = off' := by
  obtain ⟨i, hi⟩ := h.readEnd
  obtain ⟨j, hj⟩ := h'.readEnd
  have hle := h'.last i (by rw [hi]; exact h.le)
  have hge := h.last j (by rw [hj]; exact h'.le)
  omega

/-- The byte behind a read and before the end of the next one. -/
theorem inBuffer_of_lt {n i pos : ℕ} {s : SocketStream} (hle : s.readEnd n i ≤ pos)
    (hlt : pos < s.readEnd n (i + 1)) : InBuffer n s (s.readEnd n i) pos where
  readEnd := ⟨i, rfl⟩
  le := hle
  last := by
    intro j hj
    rcases Nat.lt_or_ge i j with hij | hij
    · have hmono : s.readEnd n (i + 1) ≤ s.readEnd n j := SocketStream.readEnd_mono s n hij
      omega
    · exact SocketStream.readEnd_mono s n hij

variable [DecidableEq κ] [DecidableEq φ]

/-- What is kept by a read and by a byte that is not an error. -/
structure HeadInvariant (cb : Callbacks κ φ σ) (n : ℕ) (s : SocketStream)
    (I : HeadState κ φ σ → Prop) : Prop where
  cut : ∀ {st}, I st → I st.cut
  byte : ∀ {st} {c : Byte}, I st → InBuffer n s st.off st.past.length →
    (step st.cs c).1.isVoid = false → cb.failure (st.byte cb c).data = none → I (st.byte cb c)

section

variable {cb : Callbacks κ φ σ} {n : ℕ} {s : SocketStream} {I : HeadState κ φ σ → Prop}
  {st : HeadState κ φ σ} {xs : List Byte}

theorem HeadState.seen_byte (cb : Callbacks κ φ σ) (c : Byte) (h : st.off ≤ st.past.length) :
    (st.byte cb c).seen = st.seen ++ [c] :=
  List.drop_append_of_le_length h

/-- The bytes of one buffer: all are read, or the machine may stop. -/
theorem exec_invariant (hI : HeadInvariant cb n s I) (hst : I st) (hstop : st.cs.StopsWith .done)
    (hin : ∀ k < xs.length, InBuffer n s st.off (st.past.length + k))
    (hvoid : (exec st.seen xs st.cs st.marks).outcome ≠ .error)
    (hfailure :
      cb.failure ((exec st.seen xs st.cs st.marks).calls.foldl cb.onCall st.data) = none) :
    ∃ st', I st' ∧ st'.cs = (exec st.seen xs st.cs st.marks).cs ∧
      st'.marks = (exec st.seen xs st.cs st.marks).marks ∧
      st'.data = (exec st.seen xs st.cs st.marks).calls.foldl cb.onCall st.data ∧
      st'.cs.StopsWith .done ∧ ∃ ys, ys <+: xs ∧ st'.past = st.past ++ ys ∧
        (st'.cs.nullable ∨ (exec st.seen xs st.cs st.marks).outcome = .more ∧ ys = xs) := by
  induction xs generalizing st with
  | nil => exact ⟨st, hst, rfl, rfl, rfl, hstop, [], List.nil_prefix, (List.append_nil _).symm,
      .inr ⟨rfl, rfl⟩⟩
  | cons c xs ih =>
    have hnow := hin 0 (Nat.succ_pos _)
    have hstop' : (st.byte cb c).cs.StopsWith .done := hstop.deriv
    simp only [exec] at hvoid hfailure ⊢
    split at hvoid
    · exact absurd rfl hvoid
    · rename_i hread
      have hread' : (step st.cs c).1.isVoid = false := Bool.eq_false_iff.mpr hread
      rw [if_neg hread] at hfailure ⊢
      by_cases hdone : .done ∈ (step st.cs c).2
      · rw [if_pos hdone] at hfailure ⊢
        have hnext : I (st.byte cb c) := hI.byte hst hnow hread' hfailure
        have hnull : (st.byte cb c).cs.nullable := hstop.nullable_of_mem hdone
        exact ⟨st.byte cb c, hnext, rfl, rfl, rfl, hstop', [c],
          List.prefix_append [c] xs, rfl, .inl hnull⟩
      · rw [if_neg hdone] at hvoid hfailure ⊢
        simp only [List.foldl_append] at hvoid hfailure ⊢
        have hnext : I (st.byte cb c) := hI.byte hst hnow hread' (cb.failure_foldl hfailure)
        have hlater : ∀ k < xs.length,
            InBuffer n s (st.byte cb c).off ((st.byte cb c).past.length + k) := by
          intro k hk
          have hpos : (st.byte cb c).past.length + k = st.past.length + (k + 1) := by
            simp only [HeadState.byte, List.length_append, List.length_singleton]
            omega
          rw [hpos]
          exact hin (k + 1) (Nat.succ_lt_succ hk)
        rw [← st.seen_byte cb c hnow.le] at hvoid hfailure ⊢
        obtain ⟨st', hst', hcs, hmarks, hdata, hstop'', ys, hys, hpast, hend⟩ :=
          ih hnext hstop' hlater hvoid hfailure
        refine ⟨st', hst', hcs, hmarks, hdata, hstop'', c :: ys, ?_, ?_, ?_⟩
        · exact List.cons_prefix_cons.mpr ⟨rfl, hys⟩
        · rw [hpast, HeadState.byte, List.append_assoc, List.singleton_append]
        · exact hend.imp_right fun hmore ↦ ⟨hmore.1, congrArg (c :: ·) hmore.2⟩

theorem outcome_ne_error {seen : List Byte} {cs : Expr (ScanAction κ φ)} {m : Marks}
    (h : (exec seen xs cs m).cs.isVoid = false) : (exec seen xs cs m).outcome ≠ .error := by
  induction xs generalizing seen cs m with
  | nil => exact ScanOutcome.noConfusion
  | cons c xs ih =>
    simp only [exec] at h ⊢
    split at h
    · rename_i hvoid
      rw [hvoid] at h
      cases h
    · rename_i hvoid
      rw [if_neg hvoid]
      split at h
      · rename_i hdone
        rw [if_pos hdone]
        exact ScanOutcome.noConfusion
      · rename_i hdone
        rw [if_neg hdone]
        exact ih h

variable {p p' : MessageParser κ φ σ} {fuel i : ℕ} {data' : List Byte} {s' : SocketStream}

/-- One turn of a successful loop. -/
theorem recvHead_turn (h : cb.recvHead n (fuel + 1) p [] s = .ok (p', data', s')) :
    cb.error (cb.execute p (s.bytes.take (s.readSize n))).1 = none ∧
      ((cb.execute p (s.bytes.take (s.readSize n))).1.cs.nullable ∧
          p' = (cb.execute p (s.bytes.take (s.readSize n))).1 ∨
        (cb.execute p (s.bytes.take (s.readSize n))).1.cs.nullable = false ∧
          cb.recvHead n fuel (cb.execute p (s.bytes.take (s.readSize n))).1
            (cb.execute p (s.bytes.take (s.readSize n))).2 (s.skip (s.readSize n)) =
              .ok (p', data', s')) := by
  have hconn : s.connected := by
    by_contra hclosed
    simp [Callbacks.recvHead, SocketStream.read, hclosed] at h
  simp only [Callbacks.recvHead, List.length_nil, Nat.sub_zero, List.nil_append,
    SocketStream.read_eq hconn] at h
  split at h
  · cases h
  · split at h
    · cases h
    · rename_i herror
      refine ⟨herror, ?_⟩
      split at h
      · cases h
      · split at h
        · rename_i hnull
          cases h
          exact .inl ⟨hnull, rfl⟩
        · rename_i hnull
          exact .inr ⟨Bool.eq_false_iff.mpr hnull, h⟩

/-- Assumes: an invariant that holds when the bytes before the end of a read have been read. It
holds where the loop ends, and there the machine may stop and no callback has failed. -/
theorem recvHead_invariant_from (hI : HeadInvariant cb n s I) (hstop : p.cs.StopsWith .done)
    (hst : I ⟨s.readEnd n i, s.bytes.take (s.readEnd n i), p.cs, p.marks.reset, p.data⟩)
    (hi : s.readEnd n i ≤ s.bytes.length)
    (h : cb.recvHead n fuel p [] (s.skip (s.readEnd n i)) = .ok (p', data', s')) :
    ∃ st, I st ∧ st.past <+: s.bytes ∧ st.cs.nullable ∧ st.data = p'.data ∧
      cb.failure p'.data = none := by
  induction fuel generalizing i p with
  | zero => cases h
  | succ fuel ih =>
    obtain ⟨herror, hturn⟩ := recvHead_turn h
    have hnext : s.readEnd n (i + 1) =
        s.readEnd n i + (s.skip (s.readEnd n i)).readSize n := rfl
    have hlength : ((s.skip (s.readEnd n i)).bytes.take
        ((s.skip (s.readEnd n i)).readSize n)).length = (s.skip (s.readEnd n i)).readSize n :=
      SocketStream.length_take_readSize
    have hfit : (s.skip (s.readEnd n i)).readSize n ≤ (s.skip (s.readEnd n i)).bytes.length :=
      SocketStream.readSize_le_length
    rw [SocketStream.bytes_skip] at herror hturn hlength hfit
    rw [SocketStream.skip_skip, ← hnext] at hturn
    rw [List.length_drop] at hfit
    generalize hxs : (s.bytes.drop (s.readEnd n i)).take
      ((s.skip (s.readEnd n i)).readSize n) = xs at *
    rw [Callbacks.error, Option.or_eq_none_iff] at herror
    obtain ⟨hfailure, hvoid⟩ := herror
    have hvoid' : (cb.execute p xs).1.cs.isVoid = false := by
      by_contra hne
      rw [Bool.not_eq_false] at hne
      rw [if_pos hne] at hvoid
      cases hvoid
    have htake : (s.bytes.take (s.readEnd n i)).length = s.readEnd n i :=
      List.length_take_of_le hi
    have hseen : (s.bytes.take (s.readEnd n i)).drop (s.readEnd n i) = [] :=
      List.drop_of_length_le (Nat.le_of_eq htake)
    have hin : ∀ k < xs.length, InBuffer n s (s.readEnd n i)
        ((s.bytes.take (s.readEnd n i)).length + k) := by
      intro k hk
      apply inBuffer_of_lt
      · omega
      · omega
    have hfirst : (⟨s.readEnd n i, s.bytes.take (s.readEnd n i), p.cs, p.marks.reset, p.data⟩ :
        HeadState κ φ σ).seen = [] := hseen
    have hrun := exec_invariant hI hst hstop hin
      (by rw [hfirst]; exact outcome_ne_error hvoid') (by rw [hfirst]; exact hfailure)
    rw [hfirst] at hrun
    obtain ⟨st, hst', hcs, hmarks, hdata, hstop', ys, hys, hpast, hend⟩ := hrun
    have hsplit : s.bytes.take (s.readEnd n i) ++ xs = s.bytes.take (s.readEnd n (i + 1)) := by
      rw [← hxs, hnext]
      exact List.take_add.symm
    rcases hturn with ⟨hnull, rfl⟩ | ⟨hnull, hrest⟩
    · refine ⟨st, hst', ?_, ?_, hdata, hfailure⟩
      · rw [hpast]
        refine List.IsPrefix.trans ?_ (List.take_prefix (s.readEnd n (i + 1)) s.bytes)
        rw [← hsplit]
        exact (List.prefix_append_right_inj _).mpr hys
      · rw [hcs]
        exact hnull
    · have hnull' : st.cs.nullable = false := by
        rw [hcs]
        exact hnull
      obtain ⟨hmore, rfl⟩ := hend.resolve_left (by rw [hnull']; exact Bool.false_ne_true)
      have hleft : (cb.execute p ys).2 = [] := left_of_more hmore
      rw [hsplit] at hpast
      have hpos : st.past.length = s.readEnd n (i + 1) := by
        rw [hpast]
        apply List.length_take_of_le
        omega
      have hcut := hI.cut hst'
      rw [HeadState.cut, hpos, hpast, hcs, hmarks, hdata] at hcut
      rw [hleft] at hrest
      have hcs' : st.cs = (cb.execute p ys).1.cs := hcs
      rw [hcs'] at hstop'
      exact ih hstop' hcut (by omega) hrest

/-- Assumes: an invariant that holds before the first read. It holds where the loop ends, and there
the machine may stop and no callback has failed. -/
theorem recvHead_invariant (hI : HeadInvariant cb n s I) (hstop : p.cs.StopsWith .done)
    (hst : I ⟨0, [], p.cs, p.marks.reset, p.data⟩)
    (h : cb.recvHead n fuel p [] s = .ok (p', data', s')) :
    ∃ st, I st ∧ st.past <+: s.bytes ∧ st.cs.nullable ∧ st.data = p'.data ∧
      cb.failure p'.data = none := by
  apply recvHead_invariant_from (i := 0) hI hstop hst (Nat.zero_le _)
  rwa [SocketStream.readEnd, SocketStream.skip_zero]

end

end Rsylar.Http
