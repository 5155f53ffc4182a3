import Rsylar.Kv.ServerSpec
import Rsylar.Raft.IndexOrder

/-!
# Who owns a wait channel

A handler that has started a command makes a queue, puts it into `waitApplyCh` under the index that
`Start` returned, waits on it and at the end erases and deletes what it finds under the index. The
key says nothing about the handler, so all of this is safe only because no index is returned twice:
the last index of a server does not go back while its process lives (`ShapeInv.last_le_step`).

`kvNode` is the Raft cluster together with the key/value server of one of its servers, whose
handlers get their indices from `Start` and whose apply channel is filled by Raft. `ChannelInv` says
who owns the queues of a server; `OwnsWaitChannels` is what follows for every run.
-/

set_option autoImplicit false
set_option relaxedAutoImplicit false

namespace Rsylar

open TextArchive TransitionSystem

/-! ### The owners of the queues -/

/-- The handler has not returned. -/
def Handler.Live (handler : Handler) : Prop :=
  ∀ reply, handler.state ≠ .returned reply

/-- The handler is past the insertion of its queue and before the deletion. -/
def Handler.Holds (handler : Handler) : Prop :=
  handler.Live ∧ handler.state ≠ .insertChan

/-- The queue exists. -/
def KvServer.Alive (s : KvServer) (ch : ℕ) : Prop :=
  ∃ queue, s.queues[ch]? = some (some queue)

/-- The queue that the step makes, with the handler it is for. -/
def KvServer.inserting (s : KvServer) : KvAction → Option (ℕ × ℕ)
  | .handler h => s.handlers[h]?.bind fun handler ↦
      if handler.state = .insertChan ∧ s.waitApplyCh.lookup handler.raftIndex = none then
        some (h, s.queues.length)
      else none
  | _ => none

/-- Handler `h` waits on a queue it has inserted itself, and nobody else has touched the entry. -/
structure Owns (inserted : ℕ × ℕ → Prop) (s : KvServer) (h : ℕ) (handler : Handler) (ch : ℕ) :
    Prop where
  inserted : inserted (h, ch)
  lookup : s.waitApplyCh.lookup handler.raftIndex = some ch
  alive : s.Alive ch
  wait : ∀ ch', handler.state = .wait ch' → ch' = ch

/-- Who owns the queues, when `inserted` are the queues made so far with their handlers and `last`
is the greatest index that `Start` can have returned. -/
structure ChannelInv (inserted : ℕ × ℕ → Prop) (last : ℤ) (s : KvServer) : Prop where
  below : ∀ (h : ℕ) (handler : Handler), s.handlers[h]? = some handler → handler.Live →
    handler.raftIndex ≤ last
  distinct : ∀ (h h' : ℕ) (handler handler' : Handler), s.handlers[h]? = some handler →
    s.handlers[h']? = some handler' → handler.Live → handler'.Live →
    handler.raftIndex = handler'.raftIndex → h = h'
  owns : ∀ (h : ℕ) (handler : Handler), s.handlers[h]? = some handler → handler.Holds →
    ∃ ch, Owns inserted s h handler ch
  /-- Every entry is the one of a handler that holds it. -/
  entries : ∀ index ch, s.waitApplyCh.lookup index = some ch →
    ∃ (h : ℕ) (handler : Handler),
      s.handlers[h]? = some handler ∧ handler.Holds ∧ handler.raftIndex = index
  /-- No queue is under two indices. -/
  separate : ∀ index index' ch, s.waitApplyCh.lookup index = some ch →
    s.waitApplyCh.lookup index' = some ch → index = index'

namespace ChannelInv

variable {inserted inserted' : ℕ × ℕ → Prop} {last last' : ℤ} {s s' : KvServer}

theorem initial (s : KvServer) (hhandlers : s.handlers = []) (hchannels : s.waitApplyCh = ∅) :
    ChannelInv inserted last s where
  below := by
    intro h handler hhandler
    rw [hhandlers] at hhandler
    cases hhandler
  distinct := by
    intro h h' handler handler' hhandler
    rw [hhandlers] at hhandler
    cases hhandler
  owns := by
    intro h handler hhandler
    rw [hhandlers] at hhandler
    cases hhandler
  entries := by
    intro index ch hch
    rw [hchannels] at hch
    cases hch
  separate := by
    intro index index' ch hch
    rw [hchannels] at hch
    cases hch

theorem alive_of_lookup (h : ChannelInv inserted last s) {index : ℤ} {ch : ℕ}
    (hch : s.waitApplyCh.lookup index = some ch) : s.Alive ch := by
  obtain ⟨k, handler, hhandler, hholds, rfl⟩ := h.entries index ch hch
  obtain ⟨ch', howns⟩ := h.owns k handler hhandler hholds
  obtain rfl : ch = ch' := Option.some.inj (hch.symm.trans howns.lookup)
  exact howns.alive

/-- The index of a handler that is about to insert its queue has no entry. -/
theorem lookup_insertChan (h : ChannelInv inserted last s) {k : ℕ} {handler : Handler}
    (hhandler : s.handlers[k]? = some handler) (hstate : handler.state = .insertChan) :
    s.waitApplyCh.lookup handler.raftIndex = none := by
  cases hch : s.waitApplyCh.lookup handler.raftIndex with
  | none => rfl
  | some ch =>
    obtain ⟨k', handler', hhandler', hholds, hindex⟩ := h.entries _ ch hch
    have hlive : handler.Live := fun reply hreply ↦ by
      rw [hstate] at hreply
      cases hreply
    obtain rfl : k' = k := h.distinct k' k handler' handler hhandler' hhandler hholds.1 hlive hindex
    obtain rfl : handler = handler' := Option.some.inj (hhandler.symm.trans hhandler')
    exact absurd hstate hholds.2

/-- Nothing is pushed into a queue that has been deleted. -/
theorem sendMessageToWaitChan_isSome (h : ChannelInv inserted last s) (op : Op) (raftIndex : ℤ) :
    (s.sendMessageToWaitChan op raftIndex).isSome := by
  unfold KvServer.sendMessageToWaitChan
  cases hch : s.waitApplyCh.lookup raftIndex with
  | none => rfl
  | some ch =>
    obtain ⟨queue, hqueue⟩ := h.alive_of_lookup hch
    simp only [hqueue, Option.isSome_some]

/-! ### The steps -/

/-- The handlers and the entries stay, and no queue is deleted. -/
theorem frame (h : ChannelInv inserted last s) (hinserted : ∀ e, inserted e → inserted' e)
    (hlast : last ≤ last') (hhandlers : s'.handlers = s.handlers)
    (hchannels : s'.waitApplyCh = s.waitApplyCh) (halive : ∀ ch, s.Alive ch → s'.Alive ch) :
    ChannelInv inserted' last' s' where
  below := fun k handler hhandler hlive ↦
    (h.below k handler (hhandlers ▸ hhandler) hlive).trans hlast
  distinct := by
    rw [hhandlers]
    exact h.distinct
  owns := by
    intro k handler hhandler hholds
    obtain ⟨ch, howns⟩ := h.owns k handler (hhandlers ▸ hhandler) hholds
    exact ⟨ch, hinserted _ howns.inserted, hchannels ▸ howns.lookup, halive ch howns.alive,
      howns.wait⟩
  entries := by
    rw [hhandlers, hchannels]
    exact h.entries
  separate := by
    rw [hchannels]
    exact h.separate

/-- What a list holds after one of its items has been replaced. -/
theorem handlers_set {handlers : List Handler} {k j : ℕ} {new handler : Handler}
    (h : (handlers.set k new)[j]? = some handler) :
    j = k ∧ handler = new ∨ j ≠ k ∧ handlers[j]? = some handler := by
  by_cases hj : j = k
  · subst hj
    obtain ⟨hlt, heq⟩ := List.getElem?_eq_some_iff.mp h
    rw [List.getElem_set_self] at heq
    exact .inl ⟨rfl, heq.symm⟩
  · rw [List.getElem?_set_ne (Ne.symm hj)] at h
    exact .inr ⟨hj, h⟩

/-- A handler that holds a queue goes on with it. -/
theorem progress (h : ChannelInv inserted last s) {k : ℕ} {handler : Handler} {state : HandlerState}
    (hhandler : s.handlers[k]? = some handler) (hholds : handler.Holds)
    (hnew : ({ handler with state := state } : Handler).Holds) (hwait : ∀ ch, state ≠ .wait ch)
    (hhandlers : s'.handlers = s.handlers.set k { handler with state := state })
    (hchannels : s'.waitApplyCh = s.waitApplyCh) (halive : ∀ ch, s.Alive ch → s'.Alive ch) :
    ChannelInv inserted last s' where
  below := by
    intro j other hother hlive
    rw [hhandlers] at hother
    rcases handlers_set hother with ⟨-, rfl⟩ | ⟨-, hother⟩
    · exact h.below k handler hhandler hholds.1
    · exact h.below j other hother hlive
  distinct := by
    intro i j first second hfirst hsecond hlive hlive' hindex
    rw [hhandlers] at hfirst hsecond
    rcases handlers_set hfirst with ⟨hi, rfl⟩ | ⟨-, hfirst⟩
    · rcases handlers_set hsecond with ⟨hj, -⟩ | ⟨-, hsecond⟩
      · exact hi.trans hj.symm
      · exact hi.trans (h.distinct k j handler second hhandler hsecond hholds.1 hlive' hindex)
    · rcases handlers_set hsecond with ⟨hj, rfl⟩ | ⟨-, hsecond⟩
      · exact (h.distinct i k first handler hfirst hhandler hlive hholds.1 hindex).trans hj.symm
      · exact h.distinct i j first second hfirst hsecond hlive hlive' hindex
  owns := by
    intro j other hother hholds'
    rw [hhandlers] at hother
    rcases handlers_set hother with ⟨rfl, rfl⟩ | ⟨-, hother⟩
    · obtain ⟨ch, howns⟩ := h.owns _ handler hhandler hholds
      exact ⟨ch, howns.inserted, hchannels ▸ howns.lookup, halive ch howns.alive,
        fun ch' hch' ↦ absurd hch' (hwait ch')⟩
    · obtain ⟨ch, howns⟩ := h.owns j other hother hholds'
      exact ⟨ch, howns.inserted, hchannels ▸ howns.lookup, halive ch howns.alive, howns.wait⟩
  entries := by
    intro index ch hch
    rw [hchannels] at hch
    obtain ⟨j, other, hother, hholds', hindex⟩ := h.entries index ch hch
    by_cases hj : j = k
    · subst hj
      obtain rfl : handler = other := Option.some.inj (hhandler.symm.trans hother)
      refine ⟨j, { handler with state := state }, ?_, hnew, hindex⟩
      rw [hhandlers]
      exact List.getElem?_set_self (List.getElem?_eq_some_iff.mp hhandler).1
    · refine ⟨j, other, ?_, hholds', hindex⟩
      rw [hhandlers, List.getElem?_set_ne (Ne.symm hj)]
      exact hother
  separate := by
    rw [hchannels]
    exact h.separate

/-- A request comes in, with an index greater than all before or with none. -/
theorem rpc (h : ChannelInv inserted last s) {request : Request} {start : Option ℤ}
    (hlast : last ≤ last') (hstart : ∀ index ∈ start, last < index ∧ index ≤ last') :
    ChannelInv inserted last' { s with handlers := s.handlers ++ [Handler.begin request start] } := by
  have hmem : ∀ (j : ℕ) (handler : Handler),
      (s.handlers ++ [Handler.begin request start])[j]? = some handler →
      s.handlers[j]? = some handler ∨
        j = s.handlers.length ∧ handler = Handler.begin request start := by
    intro j handler hhandler
    rcases Nat.lt_or_ge j s.handlers.length with hlt | hge
    · rw [List.getElem?_append_left hlt] at hhandler
      exact .inl hhandler
    · rw [List.getElem?_append_right hge, List.getElem?_singleton] at hhandler
      split at hhandler
      · exact .inr ⟨by omega, (Option.some.inj hhandler).symm⟩
      · cases hhandler
  have hnew : (Handler.begin request start).Live → ∃ index ∈ start,
      (Handler.begin request start).raftIndex = index ∧
        (Handler.begin request start).state = .insertChan := by
    intro hlive
    cases start with
    | none => exact absurd rfl (hlive _)
    | some index => exact ⟨index, rfl, rfl, rfl⟩
  -- the index of the new handler is above those of the live ones
  have hapart : ∀ (j : ℕ) (handler : Handler), s.handlers[j]? = some handler → handler.Live →
      (Handler.begin request start).Live →
      handler.raftIndex ≠ (Handler.begin request start).raftIndex := by
    intro j handler hhandler hlive hlive'
    obtain ⟨index, hindex, heq, -⟩ := hnew hlive'
    have hbelow := h.below j handler hhandler hlive
    have habove := (hstart index hindex).1
    omega
  refine ⟨?_, ?_, ?_, ?_, h.separate⟩
  · intro j handler hhandler hlive
    rcases hmem j handler hhandler with hold | ⟨-, rfl⟩
    · exact (h.below j handler hold hlive).trans hlast
    · obtain ⟨index, hindex, heq, -⟩ := hnew hlive
      exact heq ▸ (hstart index hindex).2
  · intro i j first second hfirst hsecond hlive hlive' hindex
    rcases hmem i first hfirst with hfirst | ⟨hi, rfl⟩
    · rcases hmem j second hsecond with hsecond | ⟨-, rfl⟩
      · exact h.distinct i j first second hfirst hsecond hlive hlive' hindex
      · exact absurd hindex (hapart i first hfirst hlive hlive')
    · rcases hmem j second hsecond with hsecond | ⟨hj, -⟩
      · exact absurd hindex.symm (hapart j second hsecond hlive' hlive)
      · exact hi.trans hj.symm
  · intro j handler hhandler hholds
    rcases hmem j handler hhandler with hold | ⟨-, rfl⟩
    · obtain ⟨ch, howns⟩ := h.owns j handler hold hholds
      exact ⟨ch, howns.inserted, howns.lookup, howns.alive, howns.wait⟩
    · obtain ⟨-, -, -, hstate⟩ := hnew hholds.1
      exact absurd hstate hholds.2
  · intro index ch hch
    obtain ⟨j, handler, hhandler, hholds, hindex⟩ := h.entries index ch hch
    exact ⟨j, handler, (List.getElem?_append_left (List.getElem?_eq_some_iff.mp hhandler).1).trans
      hhandler, hholds, hindex⟩

/-- A handler inserts its queue. -/
theorem insertChan (h : ChannelInv inserted last s) {k : ℕ} {handler : Handler}
    (hhandler : s.handlers[k]? = some handler) (hstate : handler.state = .insertChan)
    (hinserted : inserted (k, s.queues.length)) :
    ChannelInv inserted last (({ s with
      queues := s.queues ++ [some []]
      waitApplyCh := s.waitApplyCh.insert handler.raftIndex s.queues.length } :
        KvServer).setHandler k handler (.wait s.queues.length)) := by
  have hlive : handler.Live := fun reply hreply ↦ by
    rw [hstate] at hreply
    cases hreply
  have hnone := h.lookup_insertChan hhandler hstate
  have halive : ∀ ch, s.Alive ch → ∃ queue, (s.queues ++ [some []])[ch]? = some (some queue) := by
    rintro ch ⟨queue, hqueue⟩
    exact ⟨queue, (List.getElem?_append_left (List.getElem?_eq_some_iff.mp hqueue).1).trans hqueue⟩
  have hother : ∀ {j : ℕ} {other : Handler}, s.handlers[j]? = some other → other.Live → j ≠ k →
      other.raftIndex ≠ handler.raftIndex := fun hj hlive' hne hindex ↦
    hne (h.distinct _ k _ handler hj hhandler hlive' hlive hindex)
  refine ⟨?_, ?_, ?_, ?_, ?_⟩
  · intro j other hj hlive'
    rcases handlers_set hj with ⟨-, rfl⟩ | ⟨-, hj⟩
    · exact h.below k handler hhandler hlive
    · exact h.below j other hj hlive'
  · intro i j first second hfirst hsecond hlive₁ hlive₂ hindex
    rcases handlers_set hfirst with ⟨hi, rfl⟩ | ⟨hi, hfirst⟩
    · rcases handlers_set hsecond with ⟨hj, -⟩ | ⟨hj, hsecond⟩
      · exact hi.trans hj.symm
      · exact absurd hindex.symm (hother hsecond hlive₂ hj)
    · rcases handlers_set hsecond with ⟨hj, rfl⟩ | ⟨hj, hsecond⟩
      · exact absurd hindex (hother hfirst hlive₁ hi)
      · exact h.distinct i j first second hfirst hsecond hlive₁ hlive₂ hindex
  · intro j other hj hholds
    rcases handlers_set hj with ⟨rfl, rfl⟩ | ⟨hne, hj⟩
    · refine ⟨s.queues.length, hinserted, AList.lookup_insert _, ⟨[], ?_⟩, fun ch hch ↦ ?_⟩
      · exact List.getElem?_concat_length
      · cases hch
        rfl
    · obtain ⟨ch, howns⟩ := h.owns j other hj hholds
      exact ⟨ch, howns.inserted,
        (AList.lookup_insert_ne (hother hj hholds.1 hne)).trans howns.lookup,
        halive ch howns.alive, howns.wait⟩
  · intro index ch hch
    have hkept : ∀ {j : ℕ} {new : Handler}, j ≠ k →
        (s.handlers.set k new)[j]? = s.handlers[j]? := fun hne ↦ List.getElem?_set_ne (Ne.symm hne)
    by_cases hindex : index = handler.raftIndex
    · refine ⟨k, { handler with state := .wait s.queues.length }, ?_, ⟨nofun, nofun⟩, hindex.symm⟩
      exact List.getElem?_set_self (List.getElem?_eq_some_iff.mp hhandler).1
    · obtain ⟨j, other, hj, hholds, rfl⟩ :=
        h.entries index ch ((AList.lookup_insert_ne hindex).symm.trans hch)
      have hne : j ≠ k := by
        rintro rfl
        exact hindex (congrArg Handler.raftIndex (Option.some.inj (hj.symm.trans hhandler)))
      exact ⟨j, other, (hkept hne).trans hj, hholds, rfl⟩
  · intro index index' ch hch hch'
    -- the number of the new queue is that of no old one
    have hfresh : s.waitApplyCh.lookup index ≠ some s.queues.length ∧
        s.waitApplyCh.lookup index' ≠ some s.queues.length := by
      constructor <;>
      · intro hold
        obtain ⟨queue, hqueue⟩ := h.alive_of_lookup hold
        exact absurd (List.getElem?_eq_some_iff.mp hqueue).1 (lt_irrefl _)
    by_cases hindex : index = handler.raftIndex
    · by_cases hindex' : index' = handler.raftIndex
      · exact hindex.trans hindex'.symm
      · subst hindex
        obtain rfl : s.queues.length = ch :=
          Option.some.inj ((AList.lookup_insert _).symm.trans hch)
        exact absurd ((AList.lookup_insert_ne hindex').symm.trans hch') hfresh.2
    · by_cases hindex' : index' = handler.raftIndex
      · subst hindex'
        obtain rfl : s.queues.length = ch :=
          Option.some.inj ((AList.lookup_insert _).symm.trans hch')
        exact absurd ((AList.lookup_insert_ne hindex).symm.trans hch) hfresh.1
      · exact h.separate index index' ch ((AList.lookup_insert_ne hindex).symm.trans hch)
          ((AList.lookup_insert_ne hindex').symm.trans hch')

/-- A handler erases and deletes its queue. -/
theorem eraseChan (h : ChannelInv inserted last s) {k : ℕ} {handler : Handler} {reply : Reply}
    {ch : ℕ} (hhandler : s.handlers[k]? = some handler) (hstate : handler.state = .eraseChan reply)
    (hch : s.waitApplyCh.lookup handler.raftIndex = some ch) :
    ChannelInv inserted last (({ s with
      waitApplyCh := s.waitApplyCh.erase handler.raftIndex
      queues := s.queues.set ch none } : KvServer).setHandler k handler (.returned reply)) := by
  have hlive : handler.Live := fun reply hreply ↦ by
    rw [hstate] at hreply
    cases hreply
  have hreturned : ¬({ handler with state := .returned reply } : Handler).Live :=
    fun hlive ↦ hlive reply rfl
  have hold : ∀ {index : ℤ} {ch' : ℕ},
      (s.waitApplyCh.erase handler.raftIndex).lookup index = some ch' →
      index ≠ handler.raftIndex ∧ s.waitApplyCh.lookup index = some ch' := by
    intro index ch' hlookup
    by_cases hindex : index = handler.raftIndex
    · rw [hindex, AList.lookup_erase] at hlookup
      cases hlookup
    · rw [AList.lookup_erase_ne hindex] at hlookup
      exact ⟨hindex, hlookup⟩
  refine ⟨?_, ?_, ?_, ?_, ?_⟩
  · intro j other hj hlive'
    rcases handlers_set hj with ⟨-, rfl⟩ | ⟨-, hj⟩
    · exact absurd hlive' hreturned
    · exact h.below j other hj hlive'
  · intro i j first second hfirst hsecond hlive₁ hlive₂ hindex
    rcases handlers_set hfirst with ⟨-, rfl⟩ | ⟨-, hfirst⟩
    · exact absurd hlive₁ hreturned
    · rcases handlers_set hsecond with ⟨-, rfl⟩ | ⟨-, hsecond⟩
      · exact absurd hlive₂ hreturned
      · exact h.distinct i j first second hfirst hsecond hlive₁ hlive₂ hindex
  · intro j other hj hholds
    rcases handlers_set hj with ⟨-, rfl⟩ | ⟨hne, hj⟩
    · exact absurd hholds.1 hreturned
    · obtain ⟨ch', howns⟩ := h.owns j other hj hholds
      have hindex : other.raftIndex ≠ handler.raftIndex := fun hindex ↦
        hne (h.distinct j k other handler hj hhandler hholds.1 hlive hindex)
      have hch' : ch ≠ ch' := by
        rintro rfl
        exact hindex (h.separate _ _ ch howns.lookup hch)
      obtain ⟨queue, hqueue⟩ := howns.alive
      exact ⟨ch', howns.inserted, (AList.lookup_erase_ne hindex).trans howns.lookup,
        ⟨queue, (List.getElem?_set_ne hch').trans hqueue⟩, howns.wait⟩
  · intro index ch' hlookup
    obtain ⟨hindex, hlookup⟩ := hold hlookup
    obtain ⟨j, other, hj, hholds, rfl⟩ := h.entries index ch' hlookup
    have hne : j ≠ k := by
      rintro rfl
      exact hindex (congrArg Handler.raftIndex (Option.some.inj (hj.symm.trans hhandler)))
    exact ⟨j, other, (List.getElem?_set_ne (Ne.symm hne)).trans hj, hholds, rfl⟩
  · intro index index' ch' hlookup hlookup'
    exact h.separate index index' ch' (hold hlookup).2 (hold hlookup').2

theorem holds_onCommit (handler : Handler) (op : Op) :
    (∀ ch, handler.onCommit op ≠ .wait ch) ∧
      ({ handler with state := handler.onCommit op } : Handler).Holds := by
  unfold Handler.Holds Handler.Live Handler.onCommit
  split
  · split <;> exact ⟨nofun, nofun, nofun⟩
  · exact ⟨nofun, nofun, nofun⟩

theorem holds_onTimeOut (handler : Handler) (isDuplicate isLeader : Bool) :
    (∀ ch, handler.onTimeOut isDuplicate isLeader ≠ .wait ch) ∧
      ({ handler with state := handler.onTimeOut isDuplicate isLeader } : Handler).Holds := by
  unfold Handler.Holds Handler.Live Handler.onTimeOut
  split <;> split <;> exact ⟨nofun, nofun, nofun⟩

theorem mono (h : ChannelInv inserted last s) (hinserted : ∀ e, inserted e → inserted' e)
    (hlast : last ≤ last') : ChannelInv inserted' last' s :=
  h.frame hinserted hlast rfl rfl fun _ ↦ id

/-- A queue whose contents change still exists. -/
theorem alive_set {ch : ℕ} {queue : List Op} {queues : List (Option (List Op))}
    (hqueues : queues = s.queues.set ch (some queue)) (ch' : ℕ) (h : s.Alive ch') :
    ∃ queue, queues[ch']? = some (some queue) := by
  obtain ⟨old, hold⟩ := h
  by_cases hch : ch' = ch
  · subst hch
    exact ⟨queue, hqueues ▸ List.getElem?_set_self (List.getElem?_eq_some_iff.mp hold).1⟩
  · exact ⟨old, hqueues ▸ (List.getElem?_set_ne (Ne.symm hch)).trans hold⟩

section Archives

variable [Codec Op] [Codec KvData] [Codec (SkipList.Dump String String)]

/-- What one step of the server preserves, when the index of a new handler is greater than all
before. -/
theorem step {a : KvAction} (h : ChannelInv inserted last s) (hlast : last ≤ last')
    (hinserted : ∀ e, inserted e ∨ s.inserting a = some e → inserted' e)
    (hstart : ∀ request start, a = .rpc request start →
      ∀ index ∈ start, last < index ∧ index ≤ last')
    (hstep : s.step a = some s') : ChannelInv inserted' last' s' := by
  have hmono : ∀ e, inserted e → inserted' e := fun e he ↦ hinserted e (.inl he)
  have hold := h.mono hmono hlast
  have hinsert : ∀ e, s.inserting a = some e → inserted' e := fun e he ↦ hinserted e (.inr he)
  cases KvServer.step_cases hstep with
  | rpc request start => exact (h.mono hmono (le_refl _)).rpc hlast (hstart request start rfl)
  | findChan k handler ch hhandler hstate hch =>
    rw [h.lookup_insertChan hhandler hstate] at hch
    cases hch
  | insertChan k handler hhandler hstate hch =>
    refine hold.insertChan hhandler hstate (hinsert _ ?_)
    simp [KvServer.inserting, hhandler, hstate, hch]
  | popChan k handler ch raftCommitOp queue hhandler hstate hqueue =>
    obtain ⟨hwait, hnew⟩ := holds_onCommit handler raftCommitOp
    exact hold.progress hhandler ⟨by simp [Handler.Live, hstate], by simp [hstate]⟩ hnew hwait rfl
      rfl (alive_set rfl)
  | timeOut k isLeader handler ch hhandler hstate =>
    have hnew : ({ handler with state := .timedOut isLeader } : Handler).Holds := ⟨nofun, nofun⟩
    exact hold.progress hhandler ⟨by simp [Handler.Live, hstate], by simp [hstate]⟩ hnew nofun rfl
      rfl fun _ ↦ id
  | onTimeOut k handler isLeader hhandler hstate =>
    obtain ⟨hwait, hnew⟩ := holds_onTimeOut handler _ isLeader
    exact hold.progress hhandler ⟨by simp [Handler.Live, hstate], by simp [hstate]⟩ hnew hwait rfl
      rfl fun _ ↦ id
  | serveGet k handler hhandler hstate =>
    obtain ⟨reply, hreply⟩ : ∃ reply, (s.serveGet k handler).handlers =
        s.handlers.set k { handler with state := .eraseChan reply } := ⟨_, rfl⟩
    have hnew : ({ handler with state := .eraseChan reply } : Handler).Holds := ⟨nofun, nofun⟩
    exact hold.progress hhandler ⟨by simp [Handler.Live, hstate], by simp [hstate]⟩ hnew nofun
      hreply rfl fun _ ↦ id
  | eraseChan k handler reply ch hhandler hstate hch =>
    exact hold.eraseChan hhandler hstate hch
  | eraseNone k handler reply hhandler hstate hch =>
    obtain ⟨ch, howns⟩ := h.owns k handler hhandler
      ⟨by simp [Handler.Live, hstate], by simp [hstate]⟩
    rw [howns.lookup] at hch
    cases hch
  | send message op ch queue _ _ _ =>
    exact hold.frame (fun _ ↦ id) (le_refl _) rfl rfl (alive_set rfl)
  | _ => exact hold.frame (fun _ ↦ id) (le_refl _) rfl rfl fun _ ↦ id

end Archives

end ChannelInv

/-! ### A server on its Raft node -/

variable {n : ℕ}

/-- The Raft cluster and the key/value server of one of its servers. -/
structure KvNode (n : ℕ) where
  cluster : Cluster n
  kv : KvServer

/-- The commands of this server come from its handlers, so `raft` is any action of the cluster but
`start` there. -/
inductive KvNodeAction (n : ℕ)
  | raft (a : Action n)
  | rpc (request : Request)
  | loop
  | handler (h : ℕ)
  | timeOut (h : ℕ)

section Archives

variable [Codec Op] [Codec KvData] [Codec (SkipList.Dump String String)]

/-- The server of a new process, which has read the snapshot of the one before. -/
def KvServer.create (snapshot : String) : KvServer :=
  (({} : KvServer).readSnapShotToInstall snapshot).getD ({} : KvServer).exit

namespace KvNode

/-- The process ends when the key/value server does. -/
def setKv (s : KvNode n) (me : Fin n) (kv : KvServer) : KvNode n where
  cluster := if kv.exited then s.cluster.exit me else s.cluster
  kv := kv

def kvStep (s : KvNode n) (me : Fin n) (a : KvAction) : Option (KvNode n) :=
  if s.cluster.exited me then none else (s.kv.step a).map (s.setKv me)

variable [Codec LogEntry] [Codec (BoostPersistRaftNode n)]

/-- What `Start` returns for the command of a request. -/
def start (s : KvNode n) (me : Fin n) (request : Request) : Option ℤ :=
  match (s.cluster.servers me).start me (Codec.encode request.op) with
  | .ok (_, some (newLogIndex, _)) => some newLogIndex
  | _ => none

/-- The messages that Raft pushes go to the server, and a new process has a new server. -/
def raftStep (s : KvNode n) (me : Fin n) (a : Action n) : Option (KvNode n) :=
  (s.cluster.step a).map fun cluster ↦
    let pushed := (cluster.applyChan me).drop (s.cluster.applyChan me).length
    let going : KvNode n := ⟨cluster, { s.kv with applyChan := s.kv.applyChan ++ pushed }⟩
    match a with
    | .restart i =>
      if i = me then
        match (s.cluster.servers me).restart with
        | .ok (_, snapshot) => (⟨cluster, s.kv⟩ : KvNode n).setKv me (KvServer.create snapshot)
        | .error _ => ⟨cluster, {}⟩
      else going
    | _ => going

def step (me : Fin n) (s : KvNode n) : KvNodeAction n → Option (KvNode n)
  | .raft (.start i command) => if i = me then none else s.raftStep me (.start i command)
  | .raft a => s.raftStep me a
  | .rpc request =>
    (s.cluster.step (.start me (Codec.encode request.op))).bind fun cluster ↦
      if cluster.exited me then some ⟨cluster, s.kv⟩
      else (⟨cluster, s.kv⟩ : KvNode n).kvStep me (.rpc request (s.start me request))
  | .loop => s.kvStep me .loop
  | .handler h => s.kvStep me (.handler h)
  | .timeOut h => s.kvStep me (.timeOut h ((s.cluster.servers me).status = .leader))

/-- What one step does to the cluster and to the server. -/
inductive Step (me : Fin n) (s : KvNode n) : KvNodeAction n → KvNode n → Prop
  | raft (a : Action n) (cluster : Cluster n) (kv : KvServer) (ha : a ≠ .restart me)
      (h : s.cluster.step a = some cluster) (hhandlers : kv.handlers = s.kv.handlers)
      (hchannels : kv.waitApplyCh = s.kv.waitApplyCh) (hqueues : kv.queues = s.kv.queues) :
      Step me s (.raft a) ⟨cluster, kv⟩
  | restart (cluster : Cluster n) (kv : KvServer) (h : s.cluster.step (.restart me) = some cluster)
      (hhandlers : kv.handlers = []) (hchannels : kv.waitApplyCh = ∅) :
      Step me s (.raft (.restart me)) ((⟨cluster, s.kv⟩ : KvNode n).setKv me kv)
  | startAbort (request : Request) (cluster : Cluster n)
      (h : s.cluster.step (.start me (Codec.encode request.op)) = some cluster)
      (hexited : cluster.exited me = true) :
      Step me s (.rpc request) ⟨cluster, s.kv⟩
  | rpc (request : Request) (cluster : Cluster n) (kv : KvServer)
      (h : s.cluster.step (.start me (Codec.encode request.op)) = some cluster)
      (hkv : s.kv.step (.rpc request (s.start me request)) = some kv) :
      Step me s (.rpc request) ((⟨cluster, s.kv⟩ : KvNode n).setKv me kv)
  | loop (kv : KvServer) (hkv : s.kv.step .loop = some kv) : Step me s .loop (s.setKv me kv)
  | handler (h : ℕ) (kv : KvServer) (hkv : s.kv.step (.handler h) = some kv) :
      Step me s (.handler h) (s.setKv me kv)
  | timeOut (h : ℕ) (isLeader : Bool) (kv : KvServer)
      (hkv : s.kv.step (.timeOut h isLeader) = some kv) :
      Step me s (.timeOut h) (s.setKv me kv)

omit [Codec Op] [Codec LogEntry] [Codec (BoostPersistRaftNode n)] in
theorem create_handlers (snapshot : String) :
    (KvServer.create snapshot).handlers = [] ∧ (KvServer.create snapshot).waitApplyCh = ∅ := by
  unfold KvServer.create KvServer.readSnapShotToInstall KvServer.parseFromString
  split
  · exact ⟨rfl, rfl⟩
  · cases (Codec.decode snapshot : Option KvData) with
    | none => exact ⟨rfl, rfl⟩
    | some data =>
      simp only [Option.bind_some]
      cases KvServer.loadFile ({} : KvServer).skipList data.serializedKVData with
      | none => exact ⟨rfl, rfl⟩
      | some skipList => exact ⟨rfl, rfl⟩

omit [Codec LogEntry] [Codec (BoostPersistRaftNode n)] in
theorem kvStep_cases {s s' : KvNode n} {me : Fin n} {a : KvAction} (h : s.kvStep me a = some s') :
    ∃ kv, s.kv.step a = some kv ∧ s' = s.setKv me kv := by
  unfold kvStep at h
  split at h
  · cases h
  · obtain ⟨kv, hkv, heq⟩ := Option.map_eq_some_iff.mp h
    exact ⟨kv, hkv, heq.symm⟩

theorem raftStep_cases {s s' : KvNode n} {me : Fin n} {a : Action n}
    (h : s.raftStep me a = some s') : Step me s (.raft a) s' := by
  obtain ⟨cluster, hcluster, rfl⟩ := Option.map_eq_some_iff.mp h
  cases a with
  | restart i =>
    by_cases hi : i = me
    · subst hi
      simp only [↓reduceIte]
      cases (s.cluster.servers i).restart with
      | ok result =>
        exact .restart cluster _ hcluster (create_handlers _).1 (create_handlers _).2
      | error e => exact .restart cluster {} hcluster rfl rfl
    · simp only [if_neg hi]
      exact .raft _ cluster _ (fun heq ↦ hi (by cases heq; rfl)) hcluster rfl rfl rfl
  | _ => exact .raft _ cluster _ nofun hcluster rfl rfl rfl

theorem step_cases {s s' : KvNode n} {me : Fin n} {a : KvNodeAction n}
    (h : s.step me a = some s') : Step me s a s' := by
  cases a with
  | raft a =>
    refine raftStep_cases ?_
    cases a with
    | start i command =>
      by_cases hi : i = me
      · simp [step, hi] at h
      · simpa [step, hi] using h
    | _ => exact h
  | rpc request =>
    obtain ⟨cluster, hcluster, hrest⟩ := Option.bind_eq_some_iff.mp h
    split at hrest
    · rename_i hexited
      cases hrest
      exact .startAbort request cluster hcluster hexited
    · obtain ⟨kv, hkv, rfl⟩ := kvStep_cases hrest
      exact .rpc request cluster kv hcluster hkv
  | loop =>
    obtain ⟨kv, hkv, rfl⟩ := kvStep_cases h
    exact .loop kv hkv
  | handler k =>
    obtain ⟨kv, hkv, rfl⟩ := kvStep_cases h
    exact .handler k kv hkv
  | timeOut k =>
    obtain ⟨kv, hkv, rfl⟩ := kvStep_cases h
    exact .timeOut k _ kv hkv

end KvNode

variable [Codec LogEntry] [Codec (BoostPersistRaftNode n)]

/-- The cluster with the key/value server of `me`. -/
def kvNode (me : Fin n) : Lts (KvNode n) (KvNodeAction n) where
  init := ⟨Cluster.initial, {}⟩
  step := KvNode.step me

/-! ### The property -/

/-- The index that `Start` returns to a handler in this step, when it succeeds. -/
def KvNode.starting (me : Fin n) (s : KvNode n) : KvNodeAction n → Option ℤ
  | .rpc request => s.start me request
  | _ => none

/-- The queue that a handler makes and inserts in this step, with the handler. -/
def KvNode.inserting (s : KvNode n) : KvNodeAction n → Option (ℕ × ℕ)
  | .handler h => s.kv.inserting (.handler h)
  | _ => none

variable {me : Fin n}

/-- The process of `me` is not replaced from moment `j` to moment `k`. -/
def WithinProcess (r : Run (kvNode me)) (j k : ℕ) : Prop :=
  ∀ l, j ≤ l → l < k → r.act l ≠ some (.raft (.restart me))

/-- Handler `e.1` of the process that runs at moment `k` has inserted the queue `e.2`. -/
def Inserted (r : Run (kvNode me)) (k : ℕ) (e : ℕ × ℕ) : Prop :=
  ∃ j a, j < k ∧ r.act j = some a ∧ (r.state j).inserting a = some e ∧ WithinProcess r j k

/-- The indices that `Start` returns to the handlers of one process increase, so the handlers that
have not returned have different keys. A handler waits on the queue it has inserted, and what it
erases and deletes is this queue. `SendMessageToWaitChan` finds no deleted queue. -/
structure OwnsWaitChannels (r : Run (kvNode me)) : Prop where
  increasing : ∀ (j k : ℕ) (a b : KvNodeAction n) (index index' : ℤ), j < k → WithinProcess r j k →
    r.act j = some a → r.act k = some b → (r.state j).starting me a = some index →
    (r.state k).starting me b = some index' → index < index'
  keys : ∀ (k h h' : ℕ) (handler handler' : Handler), (r.state k).kv.handlers[h]? = some handler →
    (r.state k).kv.handlers[h']? = some handler' → h ≠ h' → handler.Live → handler'.Live →
    handler.raftIndex ≠ handler'.raftIndex
  inserts : ∀ (k h : ℕ) (handler : Handler), (r.state k).kv.handlers[h]? = some handler →
    handler.state = .insertChan → (r.state k).kv.waitApplyCh.lookup handler.raftIndex = none
  waits : ∀ (k h : ℕ) (handler : Handler) (ch : ℕ), (r.state k).kv.handlers[h]? = some handler →
    handler.state = .wait ch → Inserted r k (h, ch) ∧ (r.state k).kv.Alive ch ∧
      (r.state k).kv.waitApplyCh.lookup handler.raftIndex = some ch
  deletes : ∀ (k h : ℕ) (handler : Handler) (reply : Reply), r.act k = some (.handler h) →
    (r.state k).kv.handlers[h]? = some handler → handler.state = .eraseChan reply →
    ∃ ch, Inserted r k (h, ch) ∧ (r.state k).kv.Alive ch ∧
      (r.state k).kv.waitApplyCh.lookup handler.raftIndex = some ch ∧
      (r.state (k + 1)).kv.waitApplyCh = (r.state k).kv.waitApplyCh.erase handler.raftIndex ∧
      (r.state (k + 1)).kv.queues = (r.state k).kv.queues.set ch none
  sends : ∀ (k : ℕ) (op : Op) (raftIndex : ℤ),
    ((r.state k).kv.sendMessageToWaitChan op raftIndex).isSome

/-! ### Indices only grow -/

omit [Codec KvData] [Codec (SkipList.Dump String String)] in
/-- A new command gets the index after the last one. -/
theorem KvNode.start_index {s : KvNode n} {request : Request} {index : ℤ} {cluster : Cluster n}
    (hstep : s.cluster.step (.start me (Codec.encode request.op)) = some cluster)
    (hstart : s.start me request = some index) :
    index = (s.cluster.servers me).getLastLogIndex + 1 ∧
      index = (cluster.servers me).getLastLogIndex := by
  unfold KvNode.start at hstart
  split at hstart
  · rename_i r newLogIndex newLogTerm hr
    cases hstart
    have hserver : cluster.servers me = r := by
      cases Cluster.step_cases hstep with
      | exit i e hperform =>
        simp only [Cluster.perform, hr] at hperform
        cases hperform
      | start i command r' result hr' =>
        rw [hr] at hr'
        cases hr'
        exact Function.update_self ..
    rw [hserver]
    rcases Raft.start_cases hr with ⟨-, -, hnone⟩ | ⟨-, e, q, found, rfl, rfl, -, rfl, hresult⟩
    · cases hnone
    · cases hresult
      exact ⟨by push_cast; rfl,
        by simp [Raft.getLastLogIndex, Raft.getLastLogIndexAndTerm, Raft.persist]⟩
  · cases hstart

omit [Codec Op] [Codec KvData] [Codec (SkipList.Dump String String)] [Codec LogEntry]
  [Codec (BoostPersistRaftNode n)] in
theorem KvNode.servers_setKv (s : KvNode n) (kv : KvServer) :
    (s.setKv me kv).cluster.servers = s.cluster.servers := by
  unfold KvNode.setKv
  split <;> rfl

theorem KvNode.starting_index {s s' : KvNode n} {a : KvNodeAction n} {index : ℤ}
    (hstep : s.step me a = some s') (hstart : s.starting me a = some index) :
    index = (s.cluster.servers me).getLastLogIndex + 1 ∧
      index = (s'.cluster.servers me).getLastLogIndex := by
  cases KvNode.step_cases hstep with
  | startAbort request cluster hcluster _ => exact KvNode.start_index hcluster hstart
  | rpc request cluster kv hcluster _ =>
    rw [KvNode.servers_setKv]
    exact KvNode.start_index hcluster hstart
  | _ => cases hstart

/-- What holds at every moment. -/
structure NodeInv (inserted : ℕ × ℕ → Prop) (me : Fin n) (s : KvNode n) : Prop where
  shape : ShapeInv s.cluster
  channels : ChannelInv inserted (s.cluster.servers me).getLastLogIndex s.kv

namespace NodeInv

variable {inserted inserted' : ℕ × ℕ → Prop} {s s' : KvNode n} {a : KvNodeAction n}

omit [Codec Op] [Codec KvData] [Codec (SkipList.Dump String String)] [Codec LogEntry]
  [Codec (BoostPersistRaftNode n)] in
/-- The end of a process leaves its log. -/
theorem setKv {kv : KvServer} (hshape : ShapeInv s.cluster)
    (hchannels : ChannelInv inserted (s.cluster.servers me).getLastLogIndex kv) :
    NodeInv inserted me (s.setKv me kv) := by
  unfold KvNode.setKv
  split
  · exact ⟨⟨hshape.servers, hshape.requests, hshape.calls⟩, hchannels⟩
  · exact ⟨hshape, hchannels⟩

/-- What one step preserves. A new process starts without handlers. -/
theorem step (h : NodeInv inserted me s)
    (hinserted : a ≠ .raft (.restart me) → ∀ e, inserted e ∨ s.inserting a = some e → inserted' e)
    (hstep : s.step me a = some s') : NodeInv inserted' me s' := by
  have hmove : ∀ (b : KvAction) {kv : KvServer}, a ≠ .raft (.restart me) →
      s.kv.inserting b = s.inserting a → (∀ request start, b ≠ .rpc request start) →
      s.kv.step b = some kv → NodeInv inserted' me (s.setKv me kv) := by
    intro b kv ha hinserting hb hkv
    refine setKv h.shape (h.channels.step (le_refl _) ?_ ?_ hkv)
    · rw [hinserting]
      exact hinserted ha
    · exact fun request start heq ↦ absurd heq (hb request start)
  cases KvNode.step_cases hstep with
  | raft b cluster kv hb hcluster hhandlers hchannels hqueues =>
    have ha : KvNodeAction.raft b ≠ .raft (.restart me) := fun heq ↦ hb (by cases heq; rfl)
    refine ⟨h.shape.step hcluster, h.channels.frame (fun e he ↦ hinserted ha e (.inl he)) ?_
      hhandlers hchannels fun ch hch ↦ ?_⟩
    · exact_mod_cast h.shape.last_le_step hcluster me fun heq ↦ absurd heq hb
    · unfold KvServer.Alive
      rw [hqueues]
      exact hch
  | restart cluster kv hcluster hhandlers hchannels =>
    exact setKv (h.shape.step hcluster) (.initial kv hhandlers hchannels)
  | startAbort request cluster hcluster _ =>
    have hlast := h.shape.last_le_step hcluster me nofun
    exact ⟨h.shape.step hcluster,
      h.channels.mono (fun e he ↦ hinserted nofun e (.inl he)) (by exact_mod_cast hlast)⟩
  | rpc request cluster kv hcluster hkv =>
    have hlast := h.shape.last_le_step hcluster me nofun
    refine setKv (s := ⟨cluster, s.kv⟩) (h.shape.step hcluster)
      (h.channels.step (by exact_mod_cast hlast)
        (fun e he ↦ hinserted nofun e (he.imp_right nofun)) ?_ hkv)
    intro request' start heq index hindex
    cases heq
    obtain ⟨hold, hnew⟩ := KvNode.start_index hcluster hindex
    exact ⟨by omega, hnew.le⟩
  | loop kv hkv => exact hmove .loop nofun rfl nofun hkv
  | handler k kv hkv => exact hmove (.handler k) nofun rfl nofun hkv
  | timeOut k isLeader kv hkv => exact hmove (.timeOut k isLeader) nofun rfl nofun hkv

end NodeInv

/-! ### Every run -/

variable {r : Run (kvNode me)}

/-- The queues that have been inserted, one step later. -/
theorem Inserted.succ {k : ℕ} {e : ℕ × ℕ} (h : Inserted r k e)
    (hk : r.act k ≠ some (.raft (.restart me))) : Inserted r (k + 1) e := by
  obtain ⟨j, a, hj, ha, hinserting, hsame⟩ := h
  refine ⟨j, a, by omega, ha, hinserting, fun l hjl hl ↦ ?_⟩
  rcases Nat.lt_or_ge l k with hlt | hge
  · exact hsame l hjl hlt
  · obtain rfl : l = k := by omega
    exact hk

theorem Inserted.now {k : ℕ} {e : ℕ × ℕ} {a : KvNodeAction n} (ha : r.act k = some a)
    (hinserting : (r.state k).inserting a = some e) : Inserted r (k + 1) e := by
  refine ⟨k, a, Nat.lt_succ_self k, ha, hinserting, fun l hkl hl hrestart ↦ ?_⟩
  obtain rfl : l = k := by omega
  rw [ha] at hrestart
  cases hrestart
  cases hinserting

theorem nodeInv_run (r : Run (kvNode me)) (k : ℕ) : NodeInv (Inserted r k) me (r.state k) := by
  induction k with
  | zero =>
    rw [r.state_zero]
    exact ⟨.initial, .initial _ rfl rfl⟩
  | succ k ih =>
    cases ha : r.act k with
    | none =>
      rw [r.pause k ha]
      exact ⟨ih.shape, ih.channels.mono (fun e he ↦ he.succ (by rw [ha]; nofun)) (le_refl _)⟩
    | some a =>
      refine ih.step (fun hrestart e he ↦ ?_) (r.next k a ha)
      rcases he with he | he
      · exact he.succ (by rw [ha]; exact fun heq ↦ hrestart (Option.some.inj heq))
      · exact .now ha he

/-- The last index of the log does not go back while the process lives. -/
theorem last_le_withinProcess (r : Run (kvNode me)) {j k : ℕ} (hjk : j ≤ k)
    (hsame : WithinProcess r j k) :
    ((r.state j).cluster.servers me).getLastLogIndex ≤
      ((r.state k).cluster.servers me).getLastLogIndex := by
  refine r.le_between (fun s ↦ (s.cluster.servers me).getLastLogIndex) hjk
    fun l a hjl hl ha ↦ ?_
  have hshape := (nodeInv_run r l).shape
  have hstep := r.next l a ha
  generalize r.state (l + 1) = s' at hstep ⊢
  cases KvNode.step_cases hstep with
  | raft b cluster kv hb hcluster _ _ _ =>
    exact hshape.last_le_step hcluster me fun heq ↦ absurd heq hb
  | restart cluster kv _ _ _ => exact absurd ha (hsame l hjl hl)
  | startAbort request cluster hcluster _ => exact hshape.last_le_step hcluster me nofun
  | rpc request cluster kv hcluster _ =>
    rw [KvNode.servers_setKv]
    exact hshape.last_le_step hcluster me nofun
  | loop kv _ => rw [KvNode.servers_setKv]
  | handler k kv _ => rw [KvNode.servers_setKv]
  | timeOut k isLeader kv _ => rw [KvNode.servers_setKv]

omit [Codec LogEntry] in
/-- What the deletion of a queue does. -/
theorem KvServer.eraseChan_step {s s' : KvServer} {h ch : ℕ} {handler : Handler} {reply : Reply}
    (hstep : s.step (.handler h) = some s') (hhandler : s.handlers[h]? = some handler)
    (hstate : handler.state = .eraseChan reply)
    (hch : s.waitApplyCh.lookup handler.raftIndex = some ch) :
    s'.waitApplyCh = s.waitApplyCh.erase handler.raftIndex ∧
      s'.queues = s.queues.set ch none := by
  unfold KvServer.step at hstep
  split at hstep
  · cases hstep
  · simp only [hhandler, Option.bind_some, KvServer.handlerStep, hstate, KvServer.eraseChan, hch,
      Option.some.injEq] at hstep
    subst hstep
    exact ⟨rfl, rfl⟩

/-- Ownership of the wait channels. In every run of the cluster, whatever the other servers, the
clients and the network do, the handlers of a server own the queues they wait on. -/
theorem ownsWaitChannels (r : Run (kvNode me)) : OwnsWaitChannels r where
  increasing := by
    intro j k a b index index' hjk hsame ha hb hindex hindex'
    obtain ⟨-, hlast⟩ := KvNode.starting_index (r.next j a ha) hindex
    obtain ⟨hlast', -⟩ := KvNode.starting_index (r.next k b hb) hindex'
    have hle := last_le_withinProcess r (j := j + 1) hjk fun l hl hlk ↦ hsame l (by omega) hlk
    omega
  keys := by
    intro k h h' handler handler' hhandler hhandler' hne hlive hlive' hindex
    exact hne ((nodeInv_run r k).channels.distinct h h' handler handler' hhandler hhandler' hlive
      hlive' hindex)
  inserts := fun k h handler hhandler hstate ↦
    (nodeInv_run r k).channels.lookup_insertChan hhandler hstate
  waits := by
    intro k h handler ch hhandler hstate
    obtain ⟨ch', howns⟩ := (nodeInv_run r k).channels.owns h handler hhandler
      ⟨by simp [Handler.Live, hstate], by simp [hstate]⟩
    obtain rfl : ch = ch' := howns.wait ch hstate
    exact ⟨howns.inserted, howns.alive, howns.lookup⟩
  deletes := by
    intro k h handler reply hact hhandler hstate
    obtain ⟨ch, howns⟩ := (nodeInv_run r k).channels.owns h handler hhandler
      ⟨by simp [Handler.Live, hstate], by simp [hstate]⟩
    obtain ⟨kv, hkv, heq⟩ := KvNode.kvStep_cases (r.next k _ hact)
    obtain ⟨hchannels, hqueues⟩ := KvServer.eraseChan_step hkv hhandler hstate howns.lookup
    rw [heq]
    exact ⟨ch, howns.inserted, howns.alive, howns.lookup, hchannels, hqueues⟩
  sends := fun k op raftIndex ↦
    (nodeInv_run r k).channels.sendMessageToWaitChan_isSome op raftIndex

end Archives

end Rsylar
