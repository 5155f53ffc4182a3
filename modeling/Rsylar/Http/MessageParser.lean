import Mathlib.Algebra.Group.Nat.Defs
import Rsylar.Http.Scanner
import Rsylar.Sylar.SocketStream

/-!
# Receiving the head of a message

What `HttpRequestParser` and `HttpResponseParser` have in common, and the loop with which
`recvRequest` and `recvResponse` begin: it reads into a buffer and executes the parser on what is in
the buffer, until the machine is finished.

`recvHead_eq` is what the loop returns for a head that the machine accepts: the callbacks are those
of the head in one piece when no read ends where a callback needs bytes of both sides
(`HeadReads`).
-/

set_option autoImplicit false
set_option relaxedAutoImplicit false

namespace Rsylar.Http

open ActionRegex Scanner

/-- `http.request.buffer_size`, which the code converts to an `int`. -/
structure BufferSize where
  size : ℕ
  pos : 0 < size
  lt : size < 2 ^ 31

/-- How receiving a message fails: the connection is closed and the result is the null pointer, or
the constructor of a string throws. -/
inductive ReceiveError
  | closed
  | lengthError
deriving DecidableEq

/-- The callbacks of a parser on its data `σ`. An error is not taken back. -/
structure Callbacks (κ φ σ : Type) where
  onCall : σ → ScanCall κ φ → σ
  failure : σ → Option ReceiveError
  sticky : ∀ s c, (failure s).isSome → (failure (onCall s c)).isSome

structure MessageParser (κ φ σ : Type) where
  cs : Expr (ScanAction κ φ)
  marks : Marks := {}
  data : σ

/-- The result of the loop: the parser, the bytes of the buffer that it has left, and the
connection. -/
abbrev HeadResult (κ φ σ : Type) := MessageParser κ φ σ × List Byte × SocketStream

variable {κ φ σ : Type}

namespace Callbacks

variable (cb : Callbacks κ φ σ)

theorem failure_foldl {d : σ} {calls : List (ScanCall κ φ)}
    (h : cb.failure (calls.foldl cb.onCall d) = none) : cb.failure d = none := by
  induction calls generalizing d with
  | nil => exact h
  | cons call calls ih =>
    have hnext := ih h
    by_contra hsome
    have hsticky := cb.sticky d call (Option.isSome_iff_ne_none.mpr hsome)
    rw [hnext] at hsticky
    cases hsticky

variable [DecidableEq κ] [DecidableEq φ]

/-- Executes the parser on the bytes of the buffer; what it does not read is moved to the front. -/
def execute (p : MessageParser κ φ σ) (data : List Byte) : MessageParser κ φ σ × List Byte :=
  let r := exec [] data p.cs p.marks.reset
  ({ cs := r.cs, marks := r.marks, data := r.calls.foldl cb.onCall p.data }, r.left)

/-- `hasError`. -/
def error (p : MessageParser κ φ σ) : Option ReceiveError :=
  (cb.failure p.data).or (if p.cs.isVoid then some .closed else none)

/-- The loop; `data` is what is in the buffer. Every turn reads a byte at least. -/
def recvHead (buffSize : ℕ) :
    ℕ → MessageParser κ φ σ → List Byte → SocketStream → Except ReceiveError (HeadResult κ φ σ)
  | 0, _, _, _ => .error .closed
  | fuel + 1, p, data, s =>
    let (bytes, s) := s.read (buffSize - data.length)
    if bytes = [] then .error .closed
    else
      let (p, data) := cb.execute p (data ++ bytes)
      match cb.error p with
      | some e => .error e
      | none =>
        if data.length = buffSize then .error .closed
        else if p.cs.nullable then .ok (p, data, s)
        else recvHead buffSize fuel p data s

end Callbacks

variable [DecidableEq κ] [DecidableEq φ]

/-! ### Heads that arrive in parts -/

/-- No read that returns bytes of the head ends inside what a callback is given. -/
def HeadReads (cs : Expr (ScanAction κ φ)) (b : BufferSize) (head : List Byte) (s : SocketStream) :
    Prop :=
  ∀ i, s.readEnd b.size i < head.length → UncutAt cs head (s.readEnd b.size i)

/-- A machine at its start: `done` is the last action of its messages, and there is no empty one. -/
structure AtStart (cs : Expr (ScanAction κ φ)) : Prop where
  finishes : cs.FinishesWith .done
  notNullable : cs.nullable = false
  notVoid : cs.isVoid = false

/-- The parser has read the first part of a message. -/
structure HasRead (cb : Callbacks κ φ σ) (p₀ : MessageParser κ φ σ) (first : List Byte)
    (p : MessageParser κ φ σ) : Prop where
  cs : p.cs = (exec [] first p₀.cs {}).cs
  data : p.data = (exec [] first p₀.cs {}).calls.foldl cb.onCall p₀.data
  queryStart : first = [] → p.marks.queryStart = 0

section Head

variable {cb : Callbacks κ φ σ} {p₀ p : MessageParser κ φ σ} {first data rest : List Byte}

/-- The next part of the message in a buffer of its own, perhaps with bytes behind the message. -/
theorem HasRead.execute (h : HasRead cb p₀ first p) (more : List Byte)
    (hwhole : ReadsWhole p₀.cs (first ++ (data ++ rest))) (hdata : data ≠ [])
    (huncut : UncutAt p₀.cs (first ++ (data ++ rest)) first.length)
    (hmore : more = [] ∨ rest = []) :
    HasRead cb p₀ (first ++ data) (cb.execute p (data ++ more)).1 ∧
      (cb.execute p (data ++ more)).2 = more := by
  obtain ⟨hcs, hfold, hquery⟩ := h
  obtain ⟨houtcome, hcs', hcalls, hleft⟩ := exec_segment hwhole hdata huncut hquery
  rw [← hcs] at houtcome hcs' hcalls hleft
  have hnone : (exec [] data p.cs p.marks.reset).left = [] := by
    cases rest with
    | nil => exact hleft.trans (List.append_nil data ▸ hwhole.left)
    | cons c rest =>
      rw [← List.append_assoc] at hwhole
      exact hleft.trans (left_of_more (hwhole.more (List.cons_ne_nil c rest)))
  have hexec : exec [] (data ++ more) p.cs p.marks.reset =
      { exec [] data p.cs p.marks.reset with left := more } := by
    rcases hmore with rfl | rfl
    · rw [List.append_nil]
      generalize exec [] data p.cs p.marks.reset = r at hnone
      cases r
      cases hnone
      rfl
    · have hdone : (exec [] data p.cs p.marks.reset).outcome = .done :=
        houtcome.trans (List.append_nil data ▸ hwhole.outcome)
      rw [exec_append_of_stop (by rw [hdone]; exact ScanOutcome.noConfusion), hnone, List.nil_append]
  refine ⟨⟨?_, ?_, fun hnil ↦ absurd (List.append_eq_nil_iff.mp hnil).2 hdata⟩, ?_⟩
  · rw [Callbacks.execute, hexec]
    exact hcs'
  · rw [Callbacks.execute, hexec, ← hcalls, hfold]
    exact (List.foldl_append ..).symm
  · rw [Callbacks.execute, hexec]

variable {b : BufferSize} {s : SocketStream} {head tail : List Byte}

/-- One turn of the loop. -/
theorem recvHead_succ {buffSize fuel : ℕ} {s' : SocketStream} (hread : s.read buffSize = (data, s'))
    (hdata : data ≠ []) (herror : cb.error (cb.execute p data).1 = none)
    (hlength : (cb.execute p data).2.length ≠ buffSize) :
    cb.recvHead buffSize (fuel + 1) p [] s =
      if (cb.execute p data).1.cs.nullable then .ok ((cb.execute p data).1, (cb.execute p data).2, s')
      else cb.recvHead buffSize fuel (cb.execute p data).1 (cb.execute p data).2 s' := by
  simp only [Callbacks.recvHead, List.length_nil, Nat.sub_zero, hread, hdata, if_false,
    List.nil_append, herror, hlength]

/-- A parser in the middle of a message has no error, and one at its end has none but its data's. -/
theorem HasRead.error (h : HasRead cb p₀ first p) (rest : List Byte) (hstart : AtStart p₀.cs)
    (hwhole : ReadsWhole p₀.cs (first ++ rest))
    (hdata : cb.failure ((exec [] (first ++ rest) p₀.cs {}).calls.foldl cb.onCall p₀.data) = none) :
    cb.error p = none := by
  have houtcome : (exec [] first p₀.cs {}).outcome ≠ .error ∧ cb.failure p.data = none := by
    cases rest with
    | nil =>
      rw [List.append_nil] at hwhole hdata
      exact ⟨by rw [hwhole.outcome]; exact ScanOutcome.noConfusion, h.data ▸ hdata⟩
    | cons c rest =>
      have hmore := hwhole.more (List.cons_ne_nil c rest)
      rw [exec_append hmore, followedBy, List.foldl_append] at hdata
      exact ⟨by rw [hmore]; exact ScanOutcome.noConfusion, h.data ▸ cb.failure_foldl hdata⟩
  rw [Callbacks.error, houtcome.2, h.cs, isVoid_of_ne_error hstart.notVoid houtcome.1]
  rfl

/-- Where the loop is when `off` bytes of the head have been read. -/
theorem recvHead_loop (fuel i : ℕ) (hstart : AtStart p₀.cs) (hwhole : ReadsWhole p₀.cs head)
    (hdata : cb.failure ((exec [] head p₀.cs {}).calls.foldl cb.onCall p₀.data) = none)
    (hs : s.connected) (hbytes : s.bytes = head ++ tail) (hreads : HeadReads p₀.cs b head s)
    (hoff : s.readEnd b.size i < head.length)
    (hp : HasRead cb p₀ (head.take (s.readEnd b.size i)) p)
    (hfuel : head.length ≤ s.readEnd b.size i + fuel) :
    ∃ k, s.readEnd b.size k < head.length ∧ head.length ≤ s.readEnd b.size (k + 1) ∧
      ∃ p', HasRead cb p₀ head p' ∧
        cb.recvHead b.size fuel p [] (s.skip (s.readEnd b.size i)) =
          .ok (p', tail.take (s.readEnd b.size (k + 1) - head.length),
            s.skip (s.readEnd b.size (k + 1))) := by
  induction fuel generalizing i p with
  | zero => omega
  | succ fuel ih =>
    generalize hoffEq : s.readEnd b.size i = off at *
    have hnext : s.readEnd b.size (i + 1) = off + (s.skip off).readSize b.size := by
      rw [SocketStream.readEnd, hoffEq]
    have hrestBytes : (s.skip off).bytes = head.drop off ++ tail := by
      rw [SocketStream.bytes_skip, hbytes, List.drop_append_of_le_length (Nat.le_of_lt hoff)]
    have hdropLength : (head.drop off).length = head.length - off := List.length_drop
    have hpos : 0 < (s.skip off).readSize b.size := by
      refine SocketStream.readSize_pos b.pos ?_
      rw [hrestBytes]
      exact List.append_ne_nil_of_left_ne_nil (List.ne_nil_of_length_pos (by omega)) _
    have hle : (s.skip off).readSize b.size ≤ b.size := SocketStream.readSize_le
    have hread := SocketStream.read_eq (s := s.skip off) hs b.size
    generalize (s.skip off).readSize b.size = k at *
    rw [SocketStream.skip_skip, hrestBytes] at hread
    have hfirst : (head.take off).length = off := List.length_take_of_le (Nat.le_of_lt hoff)
    have huncut : UncutAt p₀.cs head off := hoffEq ▸ hreads i (hoffEq ▸ hoff)
    by_cases hlt : off + k < head.length
    · have htake : (head.drop off ++ tail).take k = (head.drop off).take k :=
        List.take_append_of_le_length (by omega)
      have hsplit : head = head.take off ++ ((head.drop off).take k ++ head.drop (off + k)) := by
        rw [← List.drop_drop, List.take_append_drop, List.take_append_drop]
      have hfirst' : head.take off ++ (head.drop off).take k = head.take (off + k) :=
        List.take_add.symm
      have hne : (head.drop off).take k ≠ [] :=
        List.ne_nil_of_length_pos (by rw [List.length_take]; omega)
      obtain ⟨hp', hleft⟩ := hp.execute [] (hsplit ▸ hwhole) hne
        (by rwa [← hsplit, hfirst]) (.inl rfl)
      rw [List.append_nil, hfirst'] at hp'
      rw [List.append_nil] at hleft
      have hrest : head.take (off + k) ++ head.drop (off + k) = head := List.take_append_drop ..
      have herror := hp'.error _ hstart (hrest.symm ▸ hwhole) (hrest.symm ▸ hdata)
      have hmore : (exec [] (head.take (off + k)) p₀.cs {}).outcome = .more :=
        (hrest.symm ▸ hwhole).more (List.ne_nil_of_length_pos (by rw [List.length_drop]; omega))
      have hnull := not_nullable_of_more hstart.finishes hstart.notNullable hmore
      rw [← hp'.cs] at hnull
      rw [htake] at hread
      rw [recvHead_succ hread hne herror (by rw [hleft]; exact Nat.ne_of_lt b.pos), hnull, hleft]
      have hloop := ih (i + 1) (hnext ▸ hlt) (hnext ▸ hp') (by omega)
      rwa [hnext] at hloop
    · have hrest : head.take off ++ (head.drop off ++ []) = head := by
        rw [List.append_nil, List.take_append_drop]
      have hne : head.drop off ≠ [] := List.ne_nil_of_length_pos (by omega)
      have htake : (head.drop off ++ tail).take k =
          head.drop off ++ tail.take (off + k - head.length) := by
        rw [List.take_append, List.take_of_length_le (by omega)]
        congr 2
        omega
      obtain ⟨hp', hleft⟩ := hp.execute (tail.take (off + k - head.length))
        (hrest.symm ▸ hwhole) hne (by rwa [hrest, hfirst]) (.inr rfl)
      rw [List.take_append_drop] at hp'
      have herror := hp'.error [] hstart ((List.append_nil head).symm ▸ hwhole)
        ((List.append_nil head).symm ▸ hdata)
      have hnull := hwhole.finished
      rw [← hp'.cs] at hnull
      rw [htake] at hread
      refine ⟨i, hoffEq ▸ hoff, by omega, _, hp', ?_⟩
      rw [recvHead_succ hread (List.append_ne_nil_of_left_ne_nil hne _) herror
        (by rw [hleft, List.length_take]; omega), if_pos hnull, hleft, hnext]

/-- The loop on a head that arrives as `HeadReads` says: the parser has read the head as one piece,
and what the last read returned behind it is left in the buffer. -/
theorem recvHead_eq (hstart : AtStart p₀.cs) (hmarks : p₀.marks = {})
    (hwhole : ReadsWhole p₀.cs head)
    (hdata : cb.failure ((exec [] head p₀.cs {}).calls.foldl cb.onCall p₀.data) = none)
    (hs : s.connected) (hbytes : s.bytes = head ++ tail) (hreads : HeadReads p₀.cs b head s) :
    ∃ k, s.readEnd b.size k < head.length ∧ head.length ≤ s.readEnd b.size (k + 1) ∧
      ∃ p', HasRead cb p₀ head p' ∧
        cb.recvHead b.size (s.bytes.length + 1) p₀ [] s =
          .ok (p', tail.take (s.readEnd b.size (k + 1) - head.length),
            s.skip (s.readEnd b.size (k + 1))) := by
  have hpos : 0 < head.length := by
    refine List.length_pos_iff.mpr fun hnil ↦ ?_
    have hdone := hwhole.outcome
    rw [hnil] at hdone
    cases hdone
  have hfuel : head.length ≤ s.bytes.length := by
    rw [hbytes, List.length_append]
    exact Nat.le_add_right ..
  have hloop := recvHead_loop (s.bytes.length + 1) 0 hstart hwhole hdata hs hbytes hreads hpos
    ⟨rfl, rfl, fun _ ↦ by rw [hmarks]⟩ (by omega)
  rwa [SocketStream.readEnd, SocketStream.skip_zero] at hloop

/-- What a successful loop leaves: the data is what callbacks have made of the data at the start,
and the connection is open. -/
theorem recvHead_ok {buffSize fuel : ℕ} {data' : List Byte} {s' : SocketStream}
    {p' : MessageParser κ φ σ} (h : cb.recvHead buffSize fuel p data s = .ok (p', data', s')) :
    (∃ calls : List (ScanCall κ φ), p'.data = calls.foldl cb.onCall p.data) ∧ s'.connected := by
  induction fuel generalizing p data s with
  | zero => cases h
  | succ fuel ih =>
    simp only [Callbacks.recvHead] at h
    split at h
    · cases h
    · rename_i hread
      have hs : s.connected := by
        by_contra hclosed
        rw [SocketStream.read, if_neg hclosed] at hread
        exact hread rfl
      split at h
      · cases h
      · split at h
        · cases h
        · split at h
          · cases h
            rw [SocketStream.read, if_pos hs]
            exact ⟨⟨_, rfl⟩, hs⟩
          · obtain ⟨⟨calls, hcalls⟩, hopen⟩ := ih h
            exact ⟨⟨_, hcalls.trans (List.foldl_append ..).symm⟩, hopen⟩

end Head

end Rsylar.Http
