import QConf.Agent.Reads
import QConf.Base.Shm.Iterate

/-!
# The keys under which the agent stores values

A client sends the agent a byte string, and the agent uses it as the table key as
it is: `msg_process` queues it, `deque_process` takes it from the queue, and
`set_watcher_and_update_tbl` decodes it, reads what the decoded parts name from
ZooKeeper and stores the value under the string.  The event handlers know only the
idc and the path of a node, and build the key again.

`deserialize_from_tblkey` reads the parts and does not ask whether the string ends
there.  A string with more bytes behind the path is stored under itself and found by
no event.

The machine here has every way into the table: the gray nodes, ZooKeeper, and the dump
when ZooKeeper fails, with everything that fills the gray map and the dump.  The
ZooKeeper sessions and what is evicted are up to the actions.
-/

namespace QConf.StoredKeys

open Shm Transition
open Scan (Listing readNode readService readBatch sortedListing sessionOf sessionOf_some)

/-! ### The agent -/

/-- An entry of `_need_trigger_nodes`: a value to dump, or `none` to delete the key. -/
structure Trigger where
  tblkey : Bytes
  tblval : Option Bytes

structure Pipe where
  /-- `_need_watch_nodes` -/
  need : List Bytes
  /-- `_exist_watch_nodes` -/
  exist : Finset Bytes
  /-- the shared-memory table -/
  tbl : BytesMap
  dump : BytesMap
  /-- `_gray_nodes` -/
  gray : BytesMap
  triggers : List Trigger

def Pipe.init : Pipe := ⟨[], ∅, ∅, ∅, ∅, []⟩

/-- `add_watcher_node`. -/
def Pipe.addWatcherNode (s : Pipe) (key : Bytes) : Pipe :=
  if key = [] then s
  else if key ∈ s.exist then s
  else { s with need := s.need ++ [key], exist := insert key s.exist }

/-- `add_change_trigger_node`: nothing is queued while a trigger of the same type waits for
the key. -/
def Pipe.addChangeTriggerNode (s : Pipe) (tblkey : Bytes) (tblval : Option Bytes) : Pipe :=
  if tblkey = [] then s
  else if s.triggers.any (fun g => g.tblkey == tblkey && g.tblval.isSome == tblval.isSome) then s
  else { s with triggers := s.triggers ++ [⟨tblkey, tblval⟩] }

/-- `hash_tbl_set`, on the map that the table is.  A value that does not fit leaves the
key without one; the evictions are actions of their own. -/
def tblSet (tbl : BytesMap) (tblkey tblval : Bytes) (fits : Bool) : Ret × BytesMap :=
  if tbl.lookup tblkey = some tblval then (.errSameValue, tbl)
  else if fits then (.ok, tbl.insert tblkey tblval)
  else (.errTblSet, tbl.erase tblkey)

/-- What follows a read that succeeded. -/
def Pipe.store (s : Pipe) (tblkey tblval : Bytes) (fits : Bool) : Ret × Pipe :=
  match tblSet s.tbl tblkey tblval fits with
  | (.ok, tbl) => (.ok, { s with tbl := tbl }.addChangeTriggerNode tblkey (some tblval))
  | (ret, tbl) => (if ret = .errSameValue then .ok else ret, { s with tbl := tbl })

/-- What follows a read that ZooKeeper failed: the value of the dump. -/
def Pipe.storeDump (s : Pipe) (tblkey : Bytes) (fits : Bool) : Ret × Pipe :=
  match s.dump.lookup tblkey with
  | none => (.errOther, s)
  | some tblval =>
    match tblSet s.tbl tblkey tblval fits with
    | (ret, tbl) => (if ret = .errSameValue then .ok else ret, { s with tbl := tbl })

/-- What `process_node` and its siblings do with what they read. -/
def processRead (fits : Bool) (s : Pipe) (tblkey : Bytes) : Ret × Bytes → Ret × Pipe
  | (.ok, tblval) => s.store tblkey tblval fits
  | (.nodeNotExist, _) => (.ok, { s with tbl := s.tbl.erase tblkey }.addChangeTriggerNode tblkey none)
  | (ret, _) => (ret, s)

/-- `process_node`. -/
def processNode (fits : Bool) (s : Pipe) (zk : Zk) (tblkey path : Bytes) : Ret × Pipe :=
  processRead fits s tblkey (readNode zk tblkey path)

/-- `process_service`. -/
def processService (l : Listing) (fits : Bool) (s : Pipe) (zk : Zk) (tblkey path : Bytes) : Ret × Pipe :=
  processRead fits s tblkey (readService l zk tblkey path)

/-- `process_batch`. -/
def processBatch (l : Listing) (fits : Bool) (s : Pipe) (zk : Zk) (tblkey path : Bytes) : Ret × Pipe :=
  processRead fits s tblkey (readBatch l zk tblkey path)

/-- The one of the three that the data type of the key asks for. -/
def process (l : Listing) (fits : Bool) (s : Pipe) (zk : Zk) (dataType : UInt8) (tblkey path : Bytes) :
    Ret × Pipe :=
  if dataType = dataTypeNode then processNode fits s zk tblkey path
  else if dataType = dataTypeService then processService l fits s zk tblkey path
  else if dataType = dataTypeBatchNode then processBatch l fits s zk tblkey path
  else (.errDataType, s)

/-- The dump is asked only where ZooKeeper failed. -/
def orDump (fits : Bool) (tblkey : Bytes) : Ret × Pipe → Ret × Pipe
  | (.errZooFailed, s) => s.storeDump tblkey fits
  | r => r

/-- `set_watcher_and_update_tbl`.  The return code of `deserialize_from_tblkey` is not
looked at. -/
def setWatcherAndUpdateTbl (conf : Finset Bytes) (sessions : Bytes → Option Zk) (fits : Bool)
    (s : Pipe) (tblkey : Bytes) : Ret × Pipe :=
  match Gray.isGrayNode s.gray tblkey with
  | some grayValue =>
    match s.store tblkey grayValue fits with
    | (.ok, s) => (.ok, s)
    | (_, s) => (.errGrayFakeShmFailed, s)
  | none =>
    let parts := deserializeFromTblkey tblkey
    match sessionOf conf sessions parts.idc with
    | none => (.errOther, s)
    | some zk =>
      orDump fits tblkey
        (process sortedListing fits s zk (parts.dataType.getD dataTypeUnknown) tblkey parts.path)

inductive PipeAction
  /-- `msg_process` receives a message -/
  | message (key : Bytes)
  /-- an event handler builds the key of a node and queues it where it is stored or just
  being handled -/
  | event (dataType : UInt8) (idc path : Bytes) (pending : Bool)
  /-- `deque_process` handles the key at the front of the queue -/
  | update (sessions : Bytes → Option Zk) (fits : Bool)
  /-- `change_trigger_process` -/
  | trigger
  /-- `process_tbl` comes to an entry, which may differ from ZooKeeper -/
  | scan (key : Bytes) (differs : Bool)
  /-- `do_gray_process` for an idc -/
  | grayIdc (host : Bytes) (session : Option Zk) (idc : Bytes)
  | evict (key : Bytes)
  /-- the command `clear-all` -/
  | clearAll
  /-- a new agent on the old table and the old dump -/
  | restart

/-- One step.  A message has at least one byte and less than `QCONF_MAX_MSG_LEN`.  An idc that
`do_gray_process` finds in the configuration was read from behind a length of one byte; the
encoded pairs of an idc and a host that `process_tbl` queues as well are no names of the
configuration. -/
def pipeStep (conf : Finset Bytes) (s : Pipe) : PipeAction → Option Pipe
  | .message key =>
    if 1 ≤ key.length ∧ key.length ≤ 2047 then some (s.addWatcherNode key) else none
  | .event dataType idc path pending =>
    let key := tblkeyOf dataType idc path
    some (if pending ∨ key ∈ s.tbl then s.addWatcherNode key else s)
  | .update sessions fits =>
    match s.need with
    | [] => none
    | key :: rest => some (setWatcherAndUpdateTbl conf sessions fits
        { s with need := rest, exist := s.exist.erase key } key).2
  | .trigger =>
    match s.triggers with
    | [] => none
    | ⟨key, some val⟩ :: rest => some { s with triggers := rest, dump := s.dump.insert key val }
    | ⟨key, none⟩ :: rest => some { s with triggers := rest, dump := s.dump.erase key }
  | .scan key differs =>
    match s.tbl.lookup key with
    | none => none
    | some tblval =>
      match keyParts (getDataType key) tblval with
      | (.ok, idc, path) =>
        let key := tblkeyOf (getDataType key) idc path
        let s := { s with dump := s.dump.insert key tblval }
        some (if differs then s.addWatcherNode key else s)
      | _ => some s
  | .grayIdc host session idc =>
    if idc ≠ [] ∧ idc ∈ conf ∧ idc.length < 256 then
      let out := Gray.grayProcess host session idc s.gray
      some (out.nodes.foldl (fun s kv => s.addWatcherNode kv.1) { s with gray := out.gray })
    else none
  | .evict key => some { s with tbl := s.tbl.erase key }
  | .clearAll => some { s with tbl := ∅, dump := ∅ }
  | .restart => some { s with need := [], exist := ∅, gray := ∅, triggers := [] }

/-! ### Canonical keys -/

/-- The key decodes, and the decoded parts make the key again. -/
def Canonical (key : Bytes) : Prop :=
  ∃ t idc path, deserializeFromTblkey key = ⟨.ok, some t, idc, path⟩ ∧
    serializeToTblkey t idc path = (.ok, key)

/-- An event at the node that was read for the key puts the key into the queue.  ZooKeeper
got the path as a C string, and the event has it from there. -/
def Refreshed (conf : Finset Bytes) (s : Pipe) (key : Bytes) : Prop :=
  ∀ t idc path, deserializeFromTblkey key = ⟨.ok, some t, idc, path⟩ →
    isValidPath (cStr path) = true → ∀ pending s',
      pipeStep conf s (.event t idc (cStr path) pending) = some s' → key ∈ s'.need

def Decodes (key : Bytes) (t : UInt8) (idc path : Bytes) : Prop :=
  HasPath t ∧ deserializeFromTblkey key = ⟨.ok, some t, idc, path⟩

/-- The key decodes to a node that a configured ZooKeeper may have. -/
def Readable (conf : Finset Bytes) (key : Bytes) (t : UInt8) (idc path : Bytes) : Prop :=
  Decodes key t idc path ∧ idc ≠ [] ∧ idc ∈ conf ∧ isValidPath (cStr path) = true

/-- The key can be read and is not the one of the node: there are more bytes behind the
path, or a NUL in it. -/
def Astray (conf : Finset Bytes) (key : Bytes) : Prop :=
  ∃ t idc path, Readable conf key t idc path ∧ tblkeyOf t idc (cStr path) ≠ key

section

variable {conf : Finset Bytes} {key : Bytes} {s s' : Pipe} {t : UInt8} {idc path : Bytes}

/-- **What decodes**: a key that fits, and any bytes. -/
theorem decodes_iff : Decodes key t idc path ↔
    HasPath t ∧ idc.length < 256 ∧ path.length < 65536 ∧ ∃ suf, key = tblkeyOf t idc path ++ suf := by
  constructor
  · rintro ⟨ht, h⟩
    cases key with
    | nil => exact absurd h (by simp [deserializeFromTblkey])
    | cons b rest =>
      simp only [deserializeFromTblkey] at h
      have hb : b = t := by
        split at h
        · split at h
          · exact absurd h (by simp)
          · split at h
            · exact absurd h (by simp)
            · simp only [TblkeyParts.mk.injEq, Option.some.injEq] at h
              exact h.2.1
        · split at h
          · split at h
            · exact absurd h (by simp)
            · simp only [TblkeyParts.mk.injEq, Option.some.injEq] at h
              exact h.2.1
          · split at h
            · simp only [TblkeyParts.mk.injEq, Option.some.injEq] at h
              exact h.2.1
            · exact absurd h (by simp)
      subst hb
      rw [if_pos ht] at h
      split at h
      · exact absurd h (by simp)
      · next idc' pos hsub =>
        split at h
        · exact absurd h (by simp)
        · next path' pos' hsub' =>
          simp only [TblkeyParts.mk.injEq, true_and] at h
          obtain ⟨rfl, rfl⟩ := h
          refine ⟨ht, (ByteCodec.readField_some hsub).1, (ByteCodec.readField_some hsub').1,
            (b :: rest).drop pos', ?_⟩
          rw [tblkeyOf_hasPath ht, List.cons_append, List.append_assoc,
            ← ByteCodec.readField_drop hsub', ← ByteCodec.readField_drop hsub]
          rfl
  · rintro ⟨ht, hidc, hpath, suf, rfl⟩
    exact ⟨ht, deserialize_tblkeyOf ht hidc hpath suf⟩

theorem Decodes.unique {t' : UInt8} {idc' path' : Bytes} (h : Decodes key t idc path)
    (h' : Decodes key t' idc' path') : t' = t ∧ idc' = idc ∧ path' = path := by
  have heq := h.2.symm.trans h'.2
  simp only [TblkeyParts.mk.injEq, Option.some.injEq, true_and] at heq
  exact ⟨heq.1.symm, heq.2.1.symm, heq.2.2.symm⟩

/-- A path is only decoded with the rest. -/
theorem decodes_of_path (h : (deserializeFromTblkey key).path ≠ []) :
    ∃ t, (deserializeFromTblkey key).dataType = some t ∧
      Decodes key t (deserializeFromTblkey key).idc (deserializeFromTblkey key).path := by
  unfold Decodes
  cases key with
  | nil => exact absurd rfl h
  | cons b rest =>
    simp only [deserializeFromTblkey] at h ⊢
    split at h
    · next ht =>
      rw [if_pos ht]
      split at h
      · exact absurd rfl h
      · split at h
        · exact absurd rfl h
        · exact ⟨b, rfl, ht, rfl⟩
    · split at h
      · split at h <;> exact absurd rfl h
      · split at h <;> exact absurd rfl h

/-! ### What is stored -/

/-- A key of the table: it decodes to a configured idc, and to a path that a ZooKeeper may have unless
it is made again from its parts. -/
def Entry (conf : Finset Bytes) (key : Bytes) : Prop :=
  ∃ t idc path, Decodes key t idc path ∧ idc ≠ [] ∧ idc ∈ conf ∧
    (isValidPath (cStr path) = true ∨ key = tblkeyOf t idc path)

/-- A key of the dump.  One that `process_tbl` has put there is made from its parts, and its idc may
be one that is not configured. -/
def DumpEntry (conf : Finset Bytes) (key : Bytes) : Prop :=
  Entry conf key ∨ ∃ t idc path, Decodes key t idc path ∧ key = tblkeyOf t idc path

/-- The three reads in one. -/
theorem process_eq (l : Listing) (fits : Bool) (s : Pipe) (zk : Zk) (t : UInt8) (tblkey path : Bytes) :
    process l fits s zk t tblkey path = processRead fits s tblkey (Scan.read l zk t tblkey path) := by
  unfold process Scan.read
  split
  · rfl
  split
  · rfl
  split
  · rfl
  · rfl

/-- A node whose value was read is there. -/
theorem mem_of_read {l : Listing} {zk : Zk} {val : Bytes} (h : Scan.read l zk t key path = (.ok, val)) :
    cStr path ∈ zk.tree.nodes := by
  unfold Scan.read at h
  split at h
  · unfold readNode at h
    split at h
    · next hget => exact ZkTree.mem_of_lookup ((Gray.zkGetNode_spec hget).2.1 rfl)
    · next hret _ => exact absurd (Prod.mk.inj h).1 hret
  split at h
  · unfold readService Scan.zkGetChdnodesWithStatus at h
    by_cases hpath : path = []
    · rw [if_pos hpath] at h
      exact absurd h (by simp)
    rw [if_neg hpath] at h
    cases hget : Scan.zkGetChdnodes l zk path with
    | mk ret r =>
      rw [hget] at h
      cases ret with
      | ok => exact ((Scan.zkGetChdnodes_spec hget).2.1 rfl).1
      | _ => exact absurd h (by simp)
  split at h
  · unfold readBatch at h
    split at h
    · next hget => exact ((Scan.zkGetChdnodes_spec hget).2.1 rfl).1
    · next hret _ => exact absurd (Prod.mk.inj h).1 hret
  · exact absurd h (by simp)

/-- **What ZooKeeper gives is an entry.** -/
theorem entry_of_read {l : Listing} {zk : Zk} {val : Bytes} (hne : (deserializeFromTblkey key).idc ≠ [])
    (hconf : (deserializeFromTblkey key).idc ∈ conf)
    (h : Scan.read l zk ((deserializeFromTblkey key).dataType.getD dataTypeUnknown) key
      (deserializeFromTblkey key).path = (.ok, val)) : Entry conf key := by
  have hvalid := zk.tree.valid _ (mem_of_read h)
  have hpath : (deserializeFromTblkey key).path ≠ [] := by
    intro hnil
    rw [hnil] at hvalid
    exact absurd hvalid (by decide)
  obtain ⟨t, -, hdec⟩ := decodes_of_path hpath
  exact ⟨t, _, _, hdec, hne, hconf, Or.inl hvalid⟩

/-- **What the dump gives is an entry**, where the key has a session. -/
theorem entry_of_dump (hne : (deserializeFromTblkey key).idc ≠ []) (hconf : (deserializeFromTblkey key).idc ∈ conf)
    (h : DumpEntry conf key) : Entry conf key := by
  rcases h with h | ⟨t, idc, path, hdec, hkey⟩
  · exact h
  · rw [hdec.2] at hne hconf
    exact ⟨t, idc, path, hdec, hne, hconf, Or.inr hkey⟩

theorem getDataType_of_decodes (h : Decodes key t idc path) : getDataType key = t := by
  obtain ⟨ht, -, -, suf, rfl⟩ := decodes_iff.mp h
  rw [tblkeyOf_hasPath ht]
  rfl

theorem decodes_tblkeyOf (ht : HasPath t) (hidc : idc.length < 256) (hpath : path.length < 65536) :
    Decodes (tblkeyOf t idc path) t idc path :=
  decodes_iff.mpr ⟨ht, hidc, hpath, [], (List.append_nil _).symm⟩

theorem nodeval_fits {val : Bytes} (h : (tblvalToNodeval val).ret = .ok) :
    (tblvalToNodeval val).idc.length < 256 ∧ (tblvalToNodeval val).path.length < 65536 := by
  unfold tblvalToNodeval at h ⊢
  split at h
  · exact absurd h (by simp)
  · split at h
    · next hd =>
      rw [if_pos hd]
      split at h
      · exact absurd h (by simp)
      · next hsub =>
        split at h
        · exact absurd h (by simp)
        · next hsub' =>
          exact ⟨(ByteCodec.readField_some hsub).1, (ByteCodec.readField_some hsub').1⟩
    · exact absurd h (by simp)

theorem vectorval_fits {val : Bytes} (h : (tblvalToVectorval val t).ret = .ok) :
    (tblvalToVectorval val t).idc.length < 256 ∧ (tblvalToVectorval val t).path.length < 65536 := by
  unfold tblvalToVectorval at h ⊢
  split at h
  · exact absurd h (by simp)
  · split at h
    · next hd =>
      rw [if_pos hd]
      split at h
      · exact absurd h (by simp)
      · next hsub =>
        split at h
        · exact absurd h (by simp)
        · next hsub' =>
          exact ⟨(ByteCodec.readField_some hsub).1, (ByteCodec.readField_some hsub').1⟩
    · exact absurd h (by simp)

/-- The idc and the path of a value fit their lengths. -/
theorem keyParts_fits {val : Bytes} (ht : HasPath t) (h : keyParts t val = (.ok, idc, path)) :
    idc.length < 256 ∧ path.length < 65536 := by
  unfold keyParts at h
  rcases ht with rfl | rfl | rfl
  · rw [if_pos rfl] at h
    obtain ⟨hret, h⟩ := Prod.mk.inj h
    obtain ⟨rfl, rfl⟩ := Prod.mk.inj h
    exact nodeval_fits hret
  · rw [if_neg (by decide), if_pos rfl] at h
    obtain ⟨hret, h⟩ := Prod.mk.inj h
    obtain ⟨rfl, rfl⟩ := Prod.mk.inj h
    exact vectorval_fits hret
  · rw [if_neg (by decide), if_neg (by decide), if_pos rfl] at h
    obtain ⟨hret, h⟩ := Prod.mk.inj h
    obtain ⟨rfl, rfl⟩ := Prod.mk.inj h
    exact vectorval_fits hret

/-- **What `process_tbl` dumps**: the entry under the key that is built from its value, whatever
the value holds. -/
theorem dumpEntry_of_scan {val : Bytes} (h : Entry conf key)
    (hparts : keyParts (getDataType key) val = (.ok, idc, path)) :
    DumpEntry conf (tblkeyOf (getDataType key) idc path) := by
  obtain ⟨t, _, _, hdec, -⟩ := h
  rw [getDataType_of_decodes hdec] at hparts ⊢
  obtain ⟨hidc, hpath⟩ := keyParts_fits hdec.1 hparts
  exact Or.inr ⟨t, idc, path, decodes_tblkeyOf hdec.1 hidc hpath, rfl⟩

/-- **The keys of the gray map.** -/
theorem entry_of_gray {zk : Zk} {notifyId val : Bytes} (hne : idc ≠ []) (hconf : idc ∈ conf) (hlen : idc.length < 256)
    (h : (key, val) ∈ (Gray.readNotifyContent zk notifyId idc).2.1) : Entry conf key := by
  obtain ⟨r, hr, heq⟩ := Gray.mem_readNotifyContent h
  exact ⟨dataTypeNode, idc, _, (Prod.mk.inj heq).1 ▸
    decodes_tblkeyOf (Or.inl rfl) hlen (Gray.path_length_of_ok hr), hne, hconf, Or.inr (Prod.mk.inj heq).1⟩

/-! ### The queue -/

/-- Both sides of the queue agree. -/
structure QueueInv (s : Pipe) : Prop where
  nodup : s.need.Nodup
  exist : s.exist = s.need.toFinset

@[simp] theorem addWatcherNode_gray (s : Pipe) (key : Bytes) : (s.addWatcherNode key).gray = s.gray := by
  unfold Pipe.addWatcherNode
  split
  · rfl
  split <;> rfl

@[simp] theorem addWatcherNode_tbl (s : Pipe) (key : Bytes) : (s.addWatcherNode key).tbl = s.tbl := by
  unfold Pipe.addWatcherNode
  split
  · rfl
  split <;> rfl

/-- `add_watcher_node` only adds to the queue. -/
theorem need_subset_addWatcherNode (s : Pipe) (key : Bytes) : s.need ⊆ (s.addWatcherNode key).need := by
  unfold Pipe.addWatcherNode
  split
  · exact List.Subset.refl _
  split
  · exact List.Subset.refl _
  · exact List.subset_append_left _ _

@[simp] theorem addChangeTriggerNode_need (s : Pipe) (key : Bytes) (val : Option Bytes) :
    (s.addChangeTriggerNode key val).need = s.need := by
  unfold Pipe.addChangeTriggerNode
  split
  · rfl
  split <;> rfl

@[simp] theorem addChangeTriggerNode_exist (s : Pipe) (key : Bytes) (val : Option Bytes) :
    (s.addChangeTriggerNode key val).exist = s.exist := by
  unfold Pipe.addChangeTriggerNode
  split
  · rfl
  split <;> rfl

@[simp] theorem addChangeTriggerNode_gray (s : Pipe) (key : Bytes) (val : Option Bytes) :
    (s.addChangeTriggerNode key val).gray = s.gray := by
  unfold Pipe.addChangeTriggerNode
  split
  · rfl
  split <;> rfl

@[simp] theorem addChangeTriggerNode_tbl (s : Pipe) (key : Bytes) (val : Option Bytes) :
    (s.addChangeTriggerNode key val).tbl = s.tbl := by
  unfold Pipe.addChangeTriggerNode
  split
  · rfl
  split <;> rfl

theorem QueueInv.addWatcherNode (h : QueueInv s) (key : Bytes) : QueueInv (s.addWatcherNode key) := by
  unfold Pipe.addWatcherNode
  split
  · exact h
  split
  · exact h
  · next hnot =>
    have hneed : key ∉ s.need := by rwa [h.exist, List.mem_toFinset] at hnot
    constructor
    · refine List.nodup_append.mpr ⟨h.nodup, List.nodup_singleton key, ?_⟩
      rintro a ha b hb rfl
      exact hneed (List.mem_singleton.mp hb ▸ ha)
    · change insert key s.exist = (s.need ++ [key]).toFinset
      rw [h.exist, List.toFinset_append]
      ext a
      simp

/-- After `add_watcher_node` the key is in the queue. -/
theorem QueueInv.mem_addWatcherNode (h : QueueInv s) (hne : key ≠ []) : key ∈ (s.addWatcherNode key).need := by
  unfold Pipe.addWatcherNode
  rw [if_neg hne]
  split
  · next hm => rwa [h.exist, List.mem_toFinset] at hm
  · simp

/-- The key at the front is taken from both sides. -/
theorem QueueInv.pop (h : QueueInv s) {rest : List Bytes} (hneed : s.need = key :: rest) :
    QueueInv { s with need := rest, exist := s.exist.erase key } := by
  have hnd := h.nodup
  rw [hneed, List.nodup_cons] at hnd
  refine ⟨hnd.2, ?_⟩
  change s.exist.erase key = rest.toFinset
  rw [h.exist, hneed, List.toFinset_cons, Finset.erase_insert (by rw [List.mem_toFinset]; exact hnd.1)]

theorem QueueInv.addChangeTriggerNode (h : QueueInv s) (key : Bytes) (val : Option Bytes) :
    QueueInv (s.addChangeTriggerNode key val) :=
  ⟨by rw [addChangeTriggerNode_need]; exact h.nodup,
    by rw [addChangeTriggerNode_exist, addChangeTriggerNode_need]; exact h.exist⟩

theorem QueueInv.store (h : QueueInv s) (key val : Bytes) (fits : Bool) : QueueInv (s.store key val fits).2 := by
  unfold Pipe.store
  split
  · refine QueueInv.addChangeTriggerNode ?_ key _
    exact ⟨h.nodup, h.exist⟩
  · exact ⟨h.nodup, h.exist⟩

theorem QueueInv.processRead (h : QueueInv s) (fits : Bool) (key : Bytes) (r : Ret × Bytes) :
    QueueInv (processRead fits s key r).2 := by
  obtain ⟨ret, val⟩ := r
  cases ret with
  | ok => exact h.store key val fits
  | nodeNotExist =>
    have herase : QueueInv { s with tbl := s.tbl.erase key } := ⟨h.nodup, h.exist⟩
    exact herase.addChangeTriggerNode key none
  | _ => exact h

theorem QueueInv.setWatcherAndUpdateTbl (h : QueueInv s) (sessions : Bytes → Option Zk) (fits : Bool) (key : Bytes) :
    QueueInv (setWatcherAndUpdateTbl conf sessions fits s key).2 := by
  unfold StoredKeys.setWatcherAndUpdateTbl
  split
  · next val _ =>
    have hstore := h.store key val fits
    split
    · next heq => rwa [heq] at hstore
    · next heq => rwa [heq] at hstore
  · dsimp only
    split
    · exact h
    · next zk _ =>
      rw [process_eq]
      have hread := h.processRead fits key (Scan.read sortedListing zk
        ((deserializeFromTblkey key).dataType.getD dataTypeUnknown) key (deserializeFromTblkey key).path)
      unfold orDump
      split
      · next heq =>
        rw [heq] at hread
        unfold Pipe.storeDump
        split
        · exact hread
        · exact ⟨hread.nodup, hread.exist⟩
      · exact hread

theorem QueueInv.foldl_addWatcherNode : ∀ {nodes : List (Bytes × Bytes)} {s : Pipe}, QueueInv s →
    QueueInv (nodes.foldl (fun s kv => s.addWatcherNode kv.1) s) := by
  intro nodes
  induction nodes with
  | nil => intro s h; exact h
  | cons kv nodes ih => intro s h; exact ih (h.addWatcherNode kv.1)

/-- **Every step keeps the two sides of the queue together.** -/
theorem QueueInv.step (h : QueueInv s) {a : PipeAction} (hstep : pipeStep conf s a = some s') : QueueInv s' := by
  cases a with
  | message key =>
    simp only [pipeStep] at hstep
    split at hstep
    · rw [← Option.some.inj hstep]
      exact h.addWatcherNode key
    · exact absurd hstep (by simp)
  | event t idc path pending =>
    simp only [pipeStep, Option.some.injEq] at hstep
    rw [← hstep]
    split
    · exact h.addWatcherNode _
    · exact h
  | update sessions fits =>
    simp only [pipeStep] at hstep
    split at hstep
    · exact absurd hstep (by simp)
    · next key rest hneed =>
      rw [← Option.some.inj hstep]
      exact (h.pop hneed).setWatcherAndUpdateTbl sessions fits key
  | trigger =>
    simp only [pipeStep] at hstep
    split at hstep
    · exact absurd hstep (by simp)
    all_goals
      rw [← Option.some.inj hstep]
      exact ⟨h.nodup, h.exist⟩
  | scan key differs =>
    simp only [pipeStep] at hstep
    split at hstep
    · exact absurd hstep (by simp)
    · split at hstep
      · rw [← Option.some.inj hstep]
        split
        · refine QueueInv.addWatcherNode ?_ _
          exact ⟨h.nodup, h.exist⟩
        · exact ⟨h.nodup, h.exist⟩
      · rw [← Option.some.inj hstep]
        exact h
  | grayIdc host session idc =>
    simp only [pipeStep] at hstep
    split at hstep
    · rw [← Option.some.inj hstep]
      exact QueueInv.foldl_addWatcherNode ⟨h.nodup, h.exist⟩
    · exact absurd hstep (by simp)
  | evict key =>
    rw [← Option.some.inj hstep]
    exact ⟨h.nodup, h.exist⟩
  | clearAll =>
    rw [← Option.some.inj hstep]
    exact ⟨h.nodup, h.exist⟩
  | restart =>
    rw [← Option.some.inj hstep]
    exact ⟨List.nodup_nil, rfl⟩

theorem queueInv_of_reaches {C : Pipe → PipeAction → Prop} (h : Reaches (pipeStep conf) C .init s) : QueueInv s :=
  h.invariant QueueInv ⟨List.nodup_nil, rfl⟩ fun hi _ hs => hi.step hs

/-! ### The values -/

/-- What the agent has anywhere: the values of the table, of the gray map and of the triggers are `P`
for their keys, those of the dump are `Q`. -/
structure Holding (P Q : Bytes → Bytes → Prop) (s : Pipe) : Prop where
  tbl : ∀ key val, s.tbl.lookup key = some val → P key val
  dump : ∀ key val, s.dump.lookup key = some val → Q key val
  gray : ∀ key val, s.gray.lookup key = some val → P key val
  triggers : ∀ key val, ⟨key, some val⟩ ∈ s.triggers → P key val

/-- The ways on which values come: they are read, taken from the dump where the key has a session,
given by a release, dumped, and dumped by the scan under the key built from the value. -/
structure Ways (conf : Finset Bytes) (P Q : Bytes → Bytes → Prop) (C : Pipe → PipeAction → Prop) : Prop where
  read : ∀ {s sessions fits key zk val}, C s (.update sessions fits) →
    sessionOf conf sessions (deserializeFromTblkey key).idc = some zk →
    Scan.read sortedListing zk ((deserializeFromTblkey key).dataType.getD dataTypeUnknown) key
      (deserializeFromTblkey key).path = (.ok, val) → P key val
  restore : ∀ {key val}, (deserializeFromTblkey key).idc ≠ [] → (deserializeFromTblkey key).idc ∈ conf →
    Q key val → P key val
  dump : ∀ {key val}, P key val → Q key val
  scan : ∀ {key val idc path}, P key val → keyParts (getDataType key) val = (.ok, idc, path) →
    Q (tblkeyOf (getDataType key) idc path) val
  release : ∀ {s host zk idc notifyId zk' nodes ret key val}, C s (.grayIdc host (some zk) idc) → idc ≠ [] →
    idc ∈ conf → idc.length < 256 → Gray.zkGetNode zk (Gray.notifyNode host) = (.ok, notifyId, zk') →
    Gray.readNotifyContent zk' notifyId idc = (ret, nodes) → (key, val) ∈ nodes.1 → P key val

section

variable {P Q : Bytes → Bytes → Prop} {C : Pipe → PipeAction → Prop} {val : Bytes}

theorem Holding.init : Holding P Q .init where
  tbl key val h := absurd h (by simp [Pipe.init])
  dump key val h := absurd h (by simp [Pipe.init])
  gray key val h := absurd h (by simp [Pipe.init])
  triggers key val h := absurd h (by simp [Pipe.init])

theorem Holding.addWatcherNode (h : Holding P Q s) (key : Bytes) : Holding P Q (s.addWatcherNode key) := by
  unfold Pipe.addWatcherNode
  split
  · exact h
  split
  · exact h
  · exact ⟨h.tbl, h.dump, h.gray, h.triggers⟩

theorem Holding.addChangeTriggerNode (h : Holding P Q s) {val : Option Bytes}
    (hval : ∀ v, val = some v → P key v) : Holding P Q (s.addChangeTriggerNode key val) := by
  unfold Pipe.addChangeTriggerNode
  split
  · exact h
  split
  · exact h
  · refine ⟨h.tbl, h.dump, h.gray, fun k v hm => ?_⟩
    rcases List.mem_append.mp hm with hm | hm
    · exact h.triggers k v hm
    · simp only [List.mem_singleton, Trigger.mk.injEq] at hm
      rw [hm.1]
      exact hval v hm.2.symm

theorem Holding.erase (h : Holding P Q s) (key : Bytes) : Holding P Q { s with tbl := s.tbl.erase key } :=
  ⟨fun _ _ hl => h.tbl _ _ (lookup_erase_iff.mp hl).2, h.dump, h.gray, h.triggers⟩

theorem Holding.tblSet (h : Holding P Q s) (hval : P key val) (fits : Bool) :
    Holding P Q { s with tbl := (tblSet s.tbl key val fits).2 } := by
  unfold StoredKeys.tblSet
  split
  · exact h
  split
  · refine ⟨fun k v hl => ?_, h.dump, h.gray, h.triggers⟩
    rcases lookup_insert_iff.mp hl with ⟨rfl, rfl⟩ | ⟨-, hl⟩
    · exact hval
    · exact h.tbl k v hl
  · exact h.erase key

theorem Holding.store (h : Holding P Q s) (hval : P key val) (fits : Bool) :
    Holding P Q (s.store key val fits).2 := by
  have hset := h.tblSet hval fits
  unfold Pipe.store
  split
  · next heq =>
    rw [heq] at hset
    exact hset.addChangeTriggerNode fun v hv => Option.some.inj hv ▸ hval
  · next heq =>
    rw [heq] at hset
    exact hset

theorem Holding.processRead (h : Holding P Q s) (fits : Bool) {r : Ret × Bytes}
    (hr : ∀ val, r = (.ok, val) → P key val) : Holding P Q (processRead fits s key r).2 := by
  obtain ⟨ret, val⟩ := r
  cases ret with
  | ok => exact h.store (hr val rfl) fits
  | nodeNotExist => exact (h.erase key).addChangeTriggerNode (by simp)
  | _ => exact h

/-- **One call of `set_watcher_and_update_tbl`.** -/
theorem Holding.setWatcherAndUpdateTbl (w : Ways conf P Q C) (h : Holding P Q s) {sessions : Bytes → Option Zk}
    {fits : Bool} {s₀ : Pipe} (hC : C s₀ (.update sessions fits)) (key : Bytes) :
    Holding P Q (setWatcherAndUpdateTbl conf sessions fits s key).2 := by
  unfold StoredKeys.setWatcherAndUpdateTbl
  split
  · next val hgray =>
    have hstore := h.store (h.gray key val hgray) fits
    split
    · next heq => rwa [heq] at hstore
    · next heq => rwa [heq] at hstore
  · dsimp only
    split
    · exact h
    · next zk hzk =>
      obtain ⟨hne, hconf, -⟩ := sessionOf_some hzk
      rw [process_eq]
      have hread := h.processRead fits fun val hval => w.read hC hzk hval
      unfold orDump
      split
      · next heq =>
        rw [heq] at hread
        unfold Pipe.storeDump
        split
        · exact hread
        · next val hval => exact hread.tblSet (w.restore hne hconf (hread.dump key val hval)) fits
      · exact hread

/-- **One run of `gray_process`.** -/
theorem Holding.grayProcess (w : Ways conf P Q C) (h : Holding P Q s) {host : Bytes} {session : Option Zk}
    (hC : C s (.grayIdc host session idc)) (hne : idc ≠ []) (hconf : idc ∈ conf) (hlen : idc.length < 256)
    (hl : (Gray.grayProcess host session idc s.gray).gray.lookup key = some val) : P key val := by
  unfold Gray.grayProcess at hl
  split at hl
  · exact h.gray _ _ hl
  rw [if_neg hne] at hl
  split at hl
  · next hget =>
    split at hl
    · next nodes _ hread =>
      rw [Gray.lookup_grayNodesSet, Option.or_eq_some_iff] at hl
      rcases hl with hl | ⟨-, hl⟩
      · exact h.gray _ _ hl
      · obtain ⟨l₁, l₂, hnodes, -⟩ := List.lookup_eq_some_iff.mp hl
        exact w.release hC hne hconf hlen hget hread (by rw [hnodes]; simp)
    · exact h.gray _ _ hl
  · exact absurd hl (by simp)
  · exact h.gray _ _ hl

theorem Holding.foldl_addWatcherNode : ∀ {nodes : List (Bytes × Bytes)} {s : Pipe}, Holding P Q s →
    Holding P Q (nodes.foldl (fun s kv => s.addWatcherNode kv.1) s) := by
  intro nodes
  induction nodes with
  | nil => intro s h; exact h
  | cons kv nodes ih => intro s h; exact ih (h.addWatcherNode kv.1)

/-- **Every step keeps what the values are**, where their ways do. -/
theorem Holding.step (w : Ways conf P Q C) (h : Holding P Q s) {a : PipeAction} (hC : C s a)
    (hstep : pipeStep conf s a = some s') : Holding P Q s' := by
  cases a with
  | message key =>
    simp only [pipeStep] at hstep
    split at hstep
    · rw [← Option.some.inj hstep]
      exact h.addWatcherNode key
    · exact absurd hstep (by simp)
  | event t idc path pending =>
    simp only [pipeStep, Option.some.injEq] at hstep
    rw [← hstep]
    split
    · exact h.addWatcherNode _
    · exact h
  | update sessions fits =>
    simp only [pipeStep] at hstep
    split at hstep
    · exact absurd hstep (by simp)
    · next key rest hneed =>
      rw [← Option.some.inj hstep]
      have hpop : Holding P Q { s with need := rest, exist := s.exist.erase key } :=
        ⟨h.tbl, h.dump, h.gray, h.triggers⟩
      exact hpop.setWatcherAndUpdateTbl w hC key
  | trigger =>
    simp only [pipeStep] at hstep
    split at hstep
    · exact absurd hstep (by simp)
    · next key val rest htrig =>
      rw [← Option.some.inj hstep]
      refine ⟨h.tbl, fun k v hl => ?_, h.gray, fun k v hm =>
        h.triggers k v (by rw [htrig]; exact List.mem_cons_of_mem _ hm)⟩
      rcases lookup_insert_iff.mp hl with ⟨rfl, rfl⟩ | ⟨-, hl⟩
      · exact w.dump (h.triggers _ _ (by rw [htrig]; exact List.mem_cons_self))
      · exact h.dump k v hl
    · next key rest htrig =>
      rw [← Option.some.inj hstep]
      exact ⟨h.tbl, fun _ _ hl => h.dump _ _ (lookup_erase_iff.mp hl).2, h.gray, fun k v hm =>
        h.triggers k v (by rw [htrig]; exact List.mem_cons_of_mem _ hm)⟩
  | scan key differs =>
    simp only [pipeStep] at hstep
    split at hstep
    · exact absurd hstep (by simp)
    · next val hval =>
      split at hstep
      · next idc path hparts =>
        have hdump : Holding P Q { s with dump := s.dump.insert (tblkeyOf (getDataType key) idc path) val } := by
          refine ⟨h.tbl, fun k v hl => ?_, h.gray, h.triggers⟩
          rcases lookup_insert_iff.mp hl with ⟨rfl, rfl⟩ | ⟨-, hl⟩
          · exact w.scan (h.tbl _ _ hval) hparts
          · exact h.dump k v hl
        rw [← Option.some.inj hstep]
        split
        · exact hdump.addWatcherNode _
        · exact hdump
      · rw [← Option.some.inj hstep]
        exact h
  | grayIdc host session idc =>
    simp only [pipeStep] at hstep
    split at hstep
    · next hidc =>
      rw [← Option.some.inj hstep]
      exact Holding.foldl_addWatcherNode ⟨h.tbl, h.dump, fun k v hl =>
        h.grayProcess w hC hidc.1 hidc.2.1 hidc.2.2 hl, h.triggers⟩
    · exact absurd hstep (by simp)
  | evict key =>
    rw [← Option.some.inj hstep]
    exact h.erase key
  | clearAll =>
    rw [← Option.some.inj hstep]
    exact ⟨by simp, by simp, h.gray, h.triggers⟩
  | restart =>
    rw [← Option.some.inj hstep]
    exact ⟨h.tbl, h.dump, by simp, by simp⟩

theorem holding_of_reaches (w : Ways conf P Q C) (h : Reaches (pipeStep conf) C .init s) : Holding P Q s :=
  h.invariant (Holding P Q) .init fun hi hC hs => hi.step w hC hs

end

/-- Whatever way a value comes, its key is an entry. -/
theorem ways_entry (conf : Finset Bytes) :
    Ways conf (fun key _ => Entry conf key) (fun key _ => DumpEntry conf key) (fun _ _ => True) where
  read _ hzk hread := entry_of_read (sessionOf_some hzk).1 (sessionOf_some hzk).2.1 hread
  restore hne hconf h := entry_of_dump hne hconf h
  dump h := Or.inl h
  scan h hparts := dumpEntry_of_scan h hparts
  release _ hne hconf hlen _ hread hmem := entry_of_gray hne hconf hlen (by rw [hread]; exact hmem)

/-! ### Keys that are not astray -/

theorem Decodes.canonical_of_eq (h : Decodes key t idc path) (hkey : tblkeyOf t idc path = key) :
    Canonical key := by
  refine ⟨t, idc, path, h.2, ?_⟩
  rw [← hkey, tblkeyOf, serializeToTblkey, if_pos h.1]

/-- A key that the C string of its path makes again has no NUL in the path. -/
theorem Decodes.path_of_eq (h : Decodes key t idc path) (hkey : tblkeyOf t idc (cStr path) = key) :
    cStr path = path := by
  obtain ⟨ht, hidc, hpath, -⟩ := decodes_iff.mp h
  have hle : (cStr path).length ≤ path.length := (List.takeWhile_sublist _).length_le
  have h' := decodes_tblkeyOf ht hidc (Nat.lt_of_le_of_lt hle hpath)
  rw [hkey] at h'
  exact (h.unique h').2.2

theorem Entry.canonical (h : Entry conf key) (hnot : ¬ Astray conf key) : Canonical key := by
  obtain ⟨t, idc, path, hdec, hne, hconf, hvalid | hkey⟩ := h
  · have hkey : tblkeyOf t idc (cStr path) = key := by
      by_contra hne'
      exact hnot ⟨t, idc, path, ⟨hdec, hne, hconf, hvalid⟩, hne'⟩
    refine hdec.canonical_of_eq ?_
    rwa [hdec.path_of_eq hkey] at hkey
  · exact hdec.canonical_of_eq hkey.symm

theorem Entry.refreshed (h : Entry conf key) (hq : QueueInv s) (hkey : key ∈ s.tbl) (hnot : ¬ Astray conf key) :
    Refreshed conf s key := by
  intro t idc path hdes hvalid pending s' hstep
  obtain ⟨t', idc', path', hdec, hne, hconf, -⟩ := h
  have heq := hdec.2.symm.trans hdes
  simp only [TblkeyParts.mk.injEq, Option.some.injEq, true_and] at heq
  obtain ⟨rfl, rfl, rfl⟩ := heq
  have hown : tblkeyOf t' idc' (cStr path') = key := by
    by_contra hk
    exact hnot ⟨t', idc', path', ⟨hdec, hne, hconf, hvalid⟩, hk⟩
  simp only [pipeStep, hown, Option.some.injEq] at hstep
  rw [if_pos (Or.inr hkey)] at hstep
  rw [← hstep]
  exact hq.mem_addWatcherNode (hown ▸ tblkeyOf_ne_nil _ _ _)

/-! ### Keys that are astray -/

/-- A tree whose deepest node is a given one. -/
theorem exists_deepest : ∀ (n : Nat) (q : Bytes), q.length ≤ n → isValidPath q = true →
    ∃ tree : ZkTree, q ∈ tree.nodes ∧ ∀ p ∈ tree.nodes, p.length ≤ q.length := by
  intro n
  induction n with
  | zero =>
    intro q hn hv
    rw [List.eq_nil_of_length_eq_zero (Nat.le_zero.mp hn)] at hv
    exact absurd hv (by decide)
  | succ n ih =>
    intro q hn hv
    by_cases hr : q = rootPath
    · subst hr
      refine ⟨.empty, ZkTree.empty.root, fun p hp => ?_⟩
      rw [(Finmap.mem_singleton _ _ _).mp hp]
    · have hlen := ZkTree.zkParent_length_lt hv hr
      obtain ⟨tree, hmem, hdeep⟩ := ih (zkParent q) (by omega) (ZkTree.isValidPath_zkParent hv hr)
      refine ⟨tree.put q [] hv (by decide) hmem, Finmap.mem_insert.mpr (Or.inl rfl), fun p hp' => ?_⟩
      rcases Finmap.mem_insert.mp hp' with rfl | hp'
      · exact Nat.le_refl _
      · exact Nat.le_trans (hdeep p hp') (Nat.le_of_lt hlen)

theorem children_deepest {tree : ZkTree} {q : Bytes} (hdeep : ∀ p ∈ tree.nodes, p.length ≤ q.length) :
    tree.children q = ∅ := by
  rw [Finset.eq_empty_iff_forall_notMem]
  intro c hc
  obtain ⟨p, hp, hr, hpar, -⟩ := ZkTree.mem_children.mp hc
  have hlen := ZkTree.zkParent_length_lt (tree.valid p hp) hr
  rw [hpar] at hlen
  exact absurd (hdeep p hp) (Nat.not_le.mpr hlen)

theorem read_leaf {tree : ZkTree} (ht : HasPath t) (hpath : path ≠ []) (hmem : cStr path ∈ tree.nodes)
    (hleaf : tree.children (cStr path) = ∅) (key : Bytes) :
    ∃ val, Scan.read sortedListing (.quiet tree) t key path = (.ok, val) := by
  have hchd := Scan.zkGetChdnodes_quiet sortedListing tree (tree.valid _ hmem)
  rw [if_pos hmem, hleaf] at hchd
  unfold Scan.read
  rcases ht with rfl | rfl | rfl
  · obtain ⟨d, hd⟩ := Finmap.mem_iff.mp hmem
    refine ⟨nodevalToTblval key (d.take maxValueSize), ?_⟩
    rw [if_pos rfl, readNode, Gray.zkGetNode, Zk.zooGet, calls_quiet, ZkTree.serve, ZkTree.get_eq_ok.mpr hd]
    rfl
  · refine ⟨chdnodevalToTblval key [] [], ?_⟩
    rw [if_neg (by decide), if_pos rfl, readService, Scan.zkGetChdnodesWithStatus, if_neg hpath, hchd]
    rfl
  · refine ⟨batchnodevalToTblval key [], ?_⟩
    rw [if_neg (by decide), if_neg (by decide), if_pos rfl, readBatch, hchd]
    rfl

theorem store_fits (s : Pipe) (key val : Bytes) : key ∈ (s.store key val true).2.tbl ∧
    (s.store key val true).2.need = s.need ∧ (s.store key val true).2.exist = s.exist := by
  unfold Pipe.store tblSet
  by_cases hsame : s.tbl.lookup key = some val
  · rw [if_pos hsame]
    exact ⟨ZkTree.mem_of_lookup hsame, rfl, rfl⟩
  · rw [if_neg hsame, if_pos rfl]
    simp

/-- Where a value was read, the dump is not asked. -/
theorem orDump_store (s : Pipe) (key val : Bytes) (fits : Bool) :
    orDump fits key (s.store key val fits) = s.store key val fits := by
  unfold Pipe.store tblSet
  by_cases hsame : s.tbl.lookup key = some val
  · rw [if_pos hsame]
    rfl
  · rw [if_neg hsame]
    cases fits <;> rfl

/-- **Every key that can be read is stored by some run**, which leaves the queue empty. -/
theorem Readable.stored (h : Readable conf key t idc path) (hlen : 1 ≤ key.length ∧ key.length ≤ 2047) :
    ∃ s, Reaches (pipeStep conf) (fun _ _ => True) .init s ∧ key ∈ s.tbl ∧ s.need = [] ∧ s.exist = ∅ := by
  obtain ⟨hdec, hne, hconf, hvalid⟩ := h
  obtain ⟨tree, hmem, hdeep⟩ := exists_deepest _ (cStr path) (Nat.le_refl _) hvalid
  have hpath : path ≠ [] := by
    rintro rfl
    exact absurd hvalid (by decide)
  obtain ⟨val, hread⟩ := read_leaf hdec.1 hpath hmem (children_deepest hdeep) key
  have hkey : key ≠ [] := List.length_pos_iff.mp hlen.1
  have hqueued : Pipe.init.addWatcherNode key = ⟨[key], {key}, ∅, ∅, ∅, []⟩ := by
    rw [Pipe.addWatcherNode, if_neg hkey, if_neg (by simp [Pipe.init])]
    rfl
  have hfirst : pipeStep conf .init (.message key) = some ⟨[key], {key}, ∅, ∅, ∅, []⟩ := by
    rw [pipeStep, if_pos hlen, hqueued]
  have hupdate : pipeStep conf ⟨[key], {key}, ∅, ∅, ∅, []⟩ (.update (fun _ => some (.quiet tree)) true) =
      some (Pipe.store ⟨[], ({key} : Finset Bytes).erase key, ∅, ∅, ∅, []⟩ key val true).2 := by
    simp only [pipeStep, setWatcherAndUpdateTbl, Gray.isGrayNode, Finmap.lookup_empty, hdec.2,
      sessionOf, if_neg hne, if_pos hconf, Option.getD_some, process_eq, hread, processRead, orDump_store]
  have hqueue : Reaches (pipeStep conf) (fun _ _ => True) .init ⟨[key], {key}, ∅, ∅, ∅, []⟩ :=
    .tail .start (a := .message key) trivial hfirst
  obtain ⟨hin, hneed, hexist⟩ := store_fits ⟨[], ({key} : Finset Bytes).erase key, ∅, ∅, ∅, []⟩ key val
  exact ⟨_, hqueue.tail trivial hupdate, hin, hneed, hexist.trans (by simp)⟩

/-- **Stored keys are canonical and refreshed exactly where they are not astray.**  For every
string that a client can send: whatever the ZooKeepers hold and in whatever order the
threads of the agent go, the table only has it as a key that decodes, is made again from
its parts and is queued by the events of its node, if and only if it does not decode to a
node of a configured ZooKeeper with more bytes behind the path or a NUL in the path. -/
theorem stored_keys_canonical_iff (conf : Finset Bytes) (key : Bytes)
    (hlen : 1 ≤ key.length ∧ key.length ≤ 2047) :
    (∀ s, Reaches (pipeStep conf) (fun _ _ => True) .init s → key ∈ s.tbl →
      Canonical key ∧ Refreshed conf s key) ↔ ¬ Astray conf key := by
  constructor
  · rintro hall ⟨t, idc, path, hread, hkey⟩
    obtain ⟨s, hs, hmem, hneed, hexist⟩ := hread.stored hlen
    obtain ⟨-, hrefresh⟩ := hall s hs hmem
    have hqueue := hrefresh t idc path hread.1.2 hread.2.2.2 true _ rfl
    rw [if_pos (Or.inl rfl), Pipe.addWatcherNode, hexist, hneed] at hqueue
    split at hqueue
    · rw [hneed] at hqueue
      exact absurd hqueue (by simp)
    · rw [if_neg (by simp)] at hqueue
      exact hkey (List.mem_singleton.mp hqueue).symm
  · intro hnot s hs hmem
    obtain ⟨val, hval⟩ := Finmap.mem_iff.mp hmem
    have hentry := (holding_of_reaches (ways_entry conf) hs).tbl key val hval
    exact ⟨hentry.canonical hnot, hentry.refreshed (queueInv_of_reaches hs) hmem hnot⟩

end

/-- The key of the node `/a` in the idc `i`. -/
def plainKey : Bytes := tblkeyOf dataTypeNode (ascii "i") (ascii "/a")

theorem plainKey_canonical : ¬ Astray {ascii "i"} plainKey ∧
    ∀ s, Reaches (pipeStep {ascii "i"}) (fun _ _ => True) .init s → plainKey ∈ s.tbl →
      Canonical plainKey ∧ Refreshed {ascii "i"} s plainKey := by
  have hnot : ¬ Astray {ascii "i"} plainKey := by
    rintro ⟨t, idc, path, ⟨⟨-, hdes⟩, -⟩, hne⟩
    have hparts : deserializeFromTblkey plainKey = ⟨.ok, some dataTypeNode, ascii "i", ascii "/a"⟩ := by
      decide +kernel
    rw [hparts, TblkeyParts.mk.injEq, Option.some.injEq] at hdes
    obtain ⟨-, rfl, rfl, rfl⟩ := hdes
    exact hne (by decide +kernel)
  exact ⟨hnot, (stored_keys_canonical_iff {ascii "i"} plainKey (by decide +kernel)).mpr hnot⟩

/-- The same key with a byte behind it. -/
def strayKey : Bytes := plainKey ++ ascii "x"

theorem isValidPath_a : isValidPath (ascii "/a") = true := by decide +kernel

theorem zkParent_a : zkParent (ascii "/a") ∈ ZkTree.empty.nodes := by decide +kernel

/-- A ZooKeeper with the value `v` at `/a`. -/
def oneNode : ZkTree := ZkTree.empty.put (ascii "/a") (ascii "v") isValidPath_a (by decide +kernel) zkParent_a

/-- **A client sends the key with a byte behind it**: the value is stored under it, and an
event at the node queues nothing. -/
theorem trailing_byte_is_stored :
    (run (pipeStep {ascii "i"}) .init [.message strayKey, .update (fun _ => some (.quiet oneNode)) true,
      .event dataTypeNode (ascii "i") (ascii "/a") false]).map
        (fun s => (s.tbl.lookup strayKey, s.need)) =
      some (some (nodevalToTblval strayKey (ascii "v")), []) ∧ ¬ Canonical strayKey := by
  refine ⟨by decide +kernel, ?_⟩
  rintro ⟨t, idc, path, hdes, hser⟩
  have hparts : deserializeFromTblkey strayKey = ⟨.ok, some dataTypeNode, ascii "i", ascii "/a"⟩ := by
    decide +kernel
  rw [hparts, TblkeyParts.mk.injEq, Option.some.injEq] at hdes
  obtain ⟨-, rfl, rfl, rfl⟩ := hdes
  exact absurd hser (by decide +kernel)

end QConf.StoredKeys
