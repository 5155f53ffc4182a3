import Rsylar.Kv.Server
import Rsylar.Raft.Archive

/-!
# The texts of the key/value server

A command, the dump of a skip list and a snapshot as text archives. As for the node, these are the
instances for runs on fixed inputs.
-/

set_option autoImplicit false
set_option relaxedAutoImplicit false

namespace Rsylar.Archive

open TextArchive

def operationText : Operation → String
  | .get => "Get"
  | .put => "Put"
  | .append => "Append"

def operationOfText (text : String) : Operation :=
  if text = "Put" then .put else if text = "Append" then .append else .get

theorem operationOfText_operationText (operation : Operation) :
    operationOfText (operationText operation) = operation := by
  cases operation <;> decide

/-- The numbers before a class and before a list of strings say that it is not tracked and has
version 0. -/
def opFormat : Format Op :=
  Format.after 0 (Format.after 0 (Format.retract
    (Format.string.prod (Format.string.prod (Format.string.prod
      (Format.string.prod Format.int))))
    (fun op ↦ (operationText op.operation, op.key, op.value, op.clientId, op.requestId))
    (fun (operation, key, value, clientId, requestId) ↦
      some ⟨operationOfText operation, key, value, clientId, requestId⟩)
    (fun op ↦ by simp only [operationOfText_operationText])))

scoped instance : NonemptyCodec Op :=
  opFormat.archive archiveHeader archiveHeader_ne_empty

def stringsFormat : Format (List String) :=
  Format.after 0 (Format.after 0 Format.string.list)

def dumpFormat : Format (SkipList.Dump String String) :=
  Format.after 0 (Format.after 0 (Format.retract (stringsFormat.prod stringsFormat)
    (fun dump ↦ (dump.keyDumpVt, dump.valDumpVt))
    (fun (keys, values) ↦ some ⟨keys, values⟩)
    (fun _ ↦ rfl)))

scoped instance : NonemptyCodec (SkipList.Dump String String) :=
  dumpFormat.archive archiveHeader archiveHeader_ne_empty

/-- The entries of a table. -/
def tablePairs (table : AList fun _ : String ↦ ℤ) : List (String × ℤ) :=
  table.entries.map fun entry ↦ (entry.1, entry.2)

def tableOfPairs (pairs : List (String × ℤ)) : AList fun _ : String ↦ ℤ :=
  (pairs.map fun pair ↦ (⟨pair.1, pair.2⟩ : Σ _ : String, ℤ)).toAList

theorem dedupKeys_of_nodupKeys {entries : List (Σ _ : String, ℤ)} (h : entries.NodupKeys) :
    entries.dedupKeys = entries := by
  induction entries with
  | nil => rfl
  | cons entry rest ih =>
    obtain ⟨hnot, hrest⟩ := List.nodupKeys_cons.mp h
    rw [List.dedupKeys_cons, ih hrest, List.kinsert_def, List.kerase_of_notMem_keys hnot]

theorem tableOfPairs_tablePairs (table : AList fun _ : String ↦ ℤ) :
    tableOfPairs (tablePairs table) = table := by
  apply AList.ext
  unfold tableOfPairs tablePairs
  rw [AList.entries_toAList, List.map_map]
  exact (congrArg List.dedupKeys (List.map_id _)).trans (dedupKeys_of_nodupKeys table.nodupKeys)

/-- A table is written as the list of its entries; the number of buckets is left out. -/
def kvDataFormat : Format KvData :=
  Format.after 0 (Format.after 0 (Format.retract
    (Format.string.prod
      (Format.after 0 (Format.after 0 (Format.string.prod Format.int).list)))
    (fun data ↦ (data.serializedKVData, tablePairs data.lastRequestId))
    (fun (serializedKVData, pairs) ↦ some ⟨serializedKVData, tableOfPairs pairs⟩)
    (fun data ↦ by simp only [tableOfPairs_tablePairs])))

scoped instance : NonemptyCodec KvData :=
  kvDataFormat.archive archiveHeader archiveHeader_ne_empty

end Rsylar.Archive
