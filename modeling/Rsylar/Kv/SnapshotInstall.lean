import Rsylar.Kv.ReplicaDeterminism

/-!
# Installing a snapshot

A snapshot carries the dump of the sender's skip list and the sender's table. The table of the
receiver is replaced. Its skip list is not: `load_file` adds the keys it lacks and keeps the others
with the values they have, and it takes the key, not the value, of a node for the new value
(`SkipList.searchElement_loadFile`). The receiver has the sender's map afterwards exactly when it
has no key that the sender lacks, no other value for a common key, and the keys it lacks have
themselves as values (`snapshotInstallation`).
-/

set_option autoImplicit false
set_option relaxedAutoImplicit false

namespace Rsylar

open TextArchive TransitionSystem

/-! ### The keys of a server grow -/

section Sorted

variable [Codec (SkipList.Dump String String)] {s s' : KvServer}

theorem sorted_loadFile {l l' : SkipList String String} (h : l.Sorted) {dumpStr : String}
    (hload : KvServer.loadFile l dumpStr = some l') : l'.Sorted := by
  unfold KvServer.loadFile at hload
  split at hload
  · cases hload
    exact h
  · obtain ⟨dumper, -, rfl⟩ := Option.map_eq_some_iff.mp hload
    exact h.loadFile dumper

variable [Codec Op] [Codec KvData]

theorem sorted_step (h : s.skipList.Sorted) {a : KvAction} (hstep : s.step a = some s') :
    s'.skipList.Sorted := by
  cases KvServer.step_cases hstep with
  | executeSet message op _ _ => exact h.insertSetElement
  | install message data skipList _ _ _ hload => exact sorted_loadFile h hload
  | _ => exact h

theorem sorted_run (r : Run kvServer) (k : ℕ) : (r.state k).skipList.Sorted :=
  @Run.invariant _ _ kvServer (fun s ↦ s.skipList.Sorted) (fun _ _ ↦ True) List.Pairwise.nil
    (fun _ _ _ h _ hstep ↦ sorted_step h hstep) r (fun _ _ _ ↦ trivial) k

end Sorted

/-! ### What the receiver has afterwards -/

/-- Loading the dump of `sender` into `receiver` gives the map of `sender`: the receiver's keys have
the values that the sender has for them, and those it lacks have themselves as values. -/
def SkipList.LoadsInto (sender receiver : SkipList String String) : Prop :=
  ∀ key, (∀ v, receiver.searchElement key = some v → sender.searchElement key = some v) ∧
    (receiver.searchElement key = none → ∀ v, sender.searchElement key = some v → v = key)

/-- The condition is one on the nodes. -/
theorem SkipList.loadsInto_iff_nodes {sender receiver : SkipList String String} :
    sender.LoadsInto receiver ↔
      (∀ node ∈ receiver, receiver.searchElement node.1 = some node.2 →
        sender.searchElement node.1 = some node.2) ∧
      ∀ node ∈ sender, sender.searchElement node.1 = some node.2 →
        receiver.searchElement node.1 = none → node.2 = node.1 := by
  constructor
  · exact fun h ↦ ⟨fun node _ hnode ↦ (h node.1).1 node.2 hnode,
      fun node _ hnode hnone ↦ (h node.1).2 hnone node.2 hnode⟩
  · rintro ⟨hcommon, hmissing⟩ key
    exact ⟨fun v hv ↦ hcommon _ (mem_of_searchElement hv) hv,
      fun hnone v hv ↦ hmissing _ (mem_of_searchElement hv) hv hnone⟩

instance (sender receiver : SkipList String String) : Decidable (sender.LoadsInto receiver) :=
  decidable_of_iff _ SkipList.loadsInto_iff_nodes.symm

/-- The map after loading, key by key. -/
theorem SkipList.loadFile_dumpFile_iff {sender receiver : SkipList String String}
    (h : sender.Sorted) : (∀ key, (receiver.loadFile sender.dumpFile).searchElement key =
      sender.searchElement key) ↔ sender.LoadsInto receiver := by
  have hfound : ∀ key, key ∈ sender.dumpFile.keyDumpVt ↔ ∃ v, sender.searchElement key = some v := by
    intro key
    rw [keyDumpVt_dumpFile, List.mem_map]
    constructor
    · rintro ⟨⟨_, v⟩, hmem, rfl⟩
      exact ⟨v, h.searchElement_of_mem hmem⟩
    · rintro ⟨v, hv⟩
      exact ⟨_, mem_of_searchElement hv, rfl⟩
  refine forall_congr' fun key ↦ ?_
  rw [searchElement_loadFile]
  cases hreceiver : receiver.searchElement key with
  | some v =>
    rw [if_neg fun hnone ↦ by cases hnone.1]
    constructor
    · exact fun heq ↦ ⟨fun v' hv' ↦ heq.symm.trans hv', fun hnone ↦ by cases hnone⟩
    · exact fun hloads ↦ (hloads.1 v rfl).symm
  | none =>
    cases hsender : sender.searchElement key with
    | some v =>
      rw [if_pos ⟨rfl, (hfound key).mpr ⟨v, hsender⟩⟩]
      constructor
      · intro heq
        refine ⟨(fun _ hv' ↦ by cases hv'), fun _ v' hv' ↦ ?_⟩
        exact (Option.some.inj (heq.trans hv')).symm
      · exact fun hloads ↦ congrArg some (hloads.2 rfl v rfl).symm
    | none =>
      have hnot : key ∉ sender.dumpFile.keyDumpVt := by
        intro hmem
        obtain ⟨v, hv⟩ := (hfound key).mp hmem
        rw [hsender] at hv
        cases hv
      rw [if_neg fun hboth ↦ hnot hboth.2]
      simp

section Install

variable [NonemptyCodec KvData] [NonemptyCodec (SkipList.Dump String String)]

/-- The receiver after the installation. -/
theorem readSnapShotToInstall_getSnapshotData (sender receiver : KvServer) :
    receiver.readSnapShotToInstall sender.getSnapshotData =
      some { receiver with
        skipList := receiver.skipList.loadFile sender.skipList.dumpFile
        lastRequestId := sender.lastRequestId } := by
  unfold KvServer.readSnapShotToInstall KvServer.getSnapshotData
  rw [if_neg (NonemptyCodec.encode_ne_empty _)]
  unfold KvServer.parseFromString
  rw [Codec.decode_encode]
  show Option.map _ (KvServer.loadFile _ _) = _
  unfold KvServer.loadFile
  rw [if_neg (NonemptyCodec.encode_ne_empty _), Codec.decode_encode]
  rfl

/-- After `receiver` has installed the snapshot of `sender` it has the map and the table of
`sender`. -/
def Replaces (sender receiver : KvServer) : Prop :=
  ∃ installed, receiver.readSnapShotToInstall sender.getSnapshotData = some installed ∧
    SameStore installed sender ∧ installed.lastRequestId = sender.lastRequestId

theorem replaces_iff {sender receiver : KvServer} (h : sender.skipList.Sorted) :
    Replaces sender receiver ↔ sender.skipList.LoadsInto receiver.skipList := by
  unfold Replaces
  rw [readSnapShotToInstall_getSnapshotData, ← SkipList.loadFile_dumpFile_iff h]
  constructor
  · rintro ⟨installed, hinstalled, hsame, -⟩
    cases hinstalled
    exact hsame
  · exact fun hsame ↦ ⟨_, rfl, hsame, rfl⟩

/-- Snapshot installation. A server that installs the snapshot of another has its map and its table
afterwards if and only if loading the one list into the other gives this map. -/
theorem snapshotInstallation [Codec Op] (r : Run kvServer) (k : ℕ) (receiver : KvServer) :
    Replaces (r.state k) receiver ↔ (r.state k).skipList.LoadsInto receiver.skipList :=
  replaces_iff (sorted_run r k)

end Install

/-! ### A new server -/

section Examples

open scoped Archive

/-- A server executes one write. -/
def singleWrite : List KvAction :=
  [KvAction.deliver (commandMessage writeRequest.op 1)] ++ iteration

def singleWriteRun : Run kvServer :=
  Run.ofActions kvServer singleWrite (by decide +kernel)

/-- The sender maps `x` to `v`, and an empty receiver maps `x` to `x` afterwards. -/
theorem snapshotInstallation_singleWrite :
    ∃ (r : Run kvServer) (k : ℕ) (receiver : KvServer), ¬ Replaces (r.state k) receiver := by
  refine ⟨singleWriteRun, 6, {}, ?_⟩
  rintro ⟨installed, hinstalled, hsame, -⟩
  have hsender : (singleWriteRun.state 6).skipList.searchElement "x" = some "v" := by
    decide +kernel
  have hreceiver : ((({} : KvServer).readSnapShotToInstall
      (singleWriteRun.state 6).getSnapshotData).map fun s ↦ s.skipList.searchElement "x") =
      some (some "x") := by
    decide +kernel
  rw [hinstalled] at hreceiver
  have hfound : installed.skipList.searchElement "x" = some "x" := Option.some.inj hreceiver
  have hx := hsame "x"
  rw [hsender, hfound] at hx
  exact absurd hx (by decide)

end Examples

end Rsylar
