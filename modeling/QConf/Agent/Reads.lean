import QConf.Agent.Gray
import QConf.Base.Decode
import QConf.Base.Integer

/-!
# What is read for a key

`set_watcher_and_update_tbl` and `diff_with_zk` read ZooKeeper with the same functions: the data
of a node, the names of its children, or the names and the status of each.  What they get is
encoded under the key, and a value is compared with another one byte by byte.

ZooKeeper lists the children of a node in any order, another one on each call; `zk_get_chdnodes`
sorts them, so the order is lost (`read_listing`).
-/

namespace QConf.Scan

/-! ### Listings in any order -/

/-- An order in which ZooKeeper lists the names of a node. -/
structure Listing where
  list : Finset Bytes → List Bytes
  nodup : ∀ s, (list s).Nodup
  mem : ∀ s c, c ∈ list s ↔ c ∈ s

/-- The sorted order, and the reverse. -/
def sortedListing : Listing where
  list := sortBytes
  nodup := nodup_sortBytes
  mem _ _ := mem_sortBytes

def reverseListing : Listing where
  list s := (sortBytes s).reverse
  nodup s := List.nodup_reverse.mpr (nodup_sortBytes s)
  mem s c := by rw [List.mem_reverse, mem_sortBytes]

/-- `qsort` with `children_node_cmp`. -/
def qsortNames (names : List Bytes) : List Bytes := names.insertionSort (· ≤ ·)

theorem qsortNames_list (l : Listing) (s : Finset Bytes) : qsortNames (l.list s) = sortBytes s := by
  have hset : (l.list s).toFinset = s := by
    ext c
    rw [List.mem_toFinset, l.mem]
  rw [qsortNames, Sorting.insertionSort_eq_sortedList (l.nodup s), hset]
  rfl

/-! ### The calls -/

/-- `zk_get_chdnodes`. -/
def zkGetChdnodes (l : Listing) (zk : Zk) (path : Bytes) : Ret × List Bytes × Zk :=
  if path = [] then (.errParam, [], zk)
  else
    match zk.zooGetChildren path with
    | (.ok names, zk) => (.ok, qsortNames (l.list names), zk)
    | (.error .noNode, zk) => (.nodeNotExist, [], zk)
    | (.error _, zk) => (.errZooFailed, [], zk)

/-- `zk_get_service_status`; `none` is any error. -/
def zkGetServiceStatus (zk : Zk) (path : Bytes) : Option Status × Zk :=
  match Gray.zkGetNode zk path with
  | (.ok, buf, zk) => (statusOfValue buf, zk)
  | (_, _, zk) => (none, zk)

/-- The loop of `zk_get_chdnodes_with_status`. -/
def zkGetStatuses (path : Bytes) : List Bytes → Zk → Option (List Status) × Zk
  | [], zk => (some [], zk)
  | name :: names, zk =>
    match zkGetServiceStatus zk (path ++ slash :: name) with
    | (none, zk) => (none, zk)
    | (some st, zk) =>
      match zkGetStatuses path names zk with
      | (none, zk) => (none, zk)
      | (some sts, zk) => (some (st :: sts), zk)

/-- `zk_get_chdnodes_with_status`. -/
def zkGetChdnodesWithStatus (l : Listing) (zk : Zk) (path : Bytes) : Ret × List Bytes × List Status :=
  if path = [] then (.errParam, [], [])
  else
    match zkGetChdnodes l zk path with
    | (.ok, nodes, zk) =>
      match (zkGetStatuses path nodes zk).1 with
      | some status => (.ok, nodes, status)
      | none => (.errOther, nodes, [])
    | (ret, nodes, _) => (ret, nodes, [])

/-! ### The reads -/

/-- The read for a `NODE` key: the return code and the table value. -/
def readNode (zk : Zk) (tblkey path : Bytes) : Ret × Bytes :=
  match Gray.zkGetNode zk path with
  | (.ok, val, _) => (.ok, nodevalToTblval tblkey val)
  | (ret, _, _) => (ret, [])

/-- The read for a `SERVICE` key. -/
def readService (l : Listing) (zk : Zk) (tblkey path : Bytes) : Ret × Bytes :=
  match zkGetChdnodesWithStatus l zk path with
  | (.ok, nodes, status) => (.ok, chdnodevalToTblval tblkey nodes status)
  | (ret, _, _) => (ret, [])

/-- The read for a `BATCH_NODE` key. -/
def readBatch (l : Listing) (zk : Zk) (tblkey path : Bytes) : Ret × Bytes :=
  match zkGetChdnodes l zk path with
  | (.ok, nodes, _) => (.ok, batchnodevalToTblval tblkey nodes)
  | (ret, _, _) => (ret, [])

def read (l : Listing) (zk : Zk) (dataType : UInt8) (tblkey path : Bytes) : Ret × Bytes :=
  if dataType = dataTypeNode then readNode zk tblkey path
  else if dataType = dataTypeService then readService l zk tblkey path
  else if dataType = dataTypeBatchNode then readBatch l zk tblkey path
  else (.errDataType, [])

/-- The session of an idc, as `get_zhandle_by_idc` finds or opens it: there is none for an idc that
is empty or not configured. -/
def sessionOf {H : Type} (conf : Finset Bytes) (sessions : Bytes → Option H) (idc : Bytes) : Option H :=
  if idc = [] then none else if idc ∈ conf then sessions idc else none

/-! ### What the calls give -/

section

variable {l : Listing} {zk zk' : Zk} {path : Bytes} {nodes : List Bytes} {ret : Ret}

theorem zooGetChildren_spec {r : Except ZooErr (Finset Bytes)} (h : zk.zooGetChildren path = (r, zk')) :
    zk'.tree = zk.tree ∧ (∀ names, r = .ok names →
      cStr path ∈ zk.tree.nodes ∧ names = zk.tree.children (cStr path)) ∧
      (r = .error .noNode → cStr path ∉ zk.tree.nodes) := by
  obtain ⟨ht, hok, hno⟩ := Manager.calls_read h
  refine ⟨ht, fun names hr => ?_, fun hr hmem => ?_⟩
  · obtain ⟨names', hf, rfl⟩ := hok names hr
    exact ZkTree.getChildren_ok hf
  · have := hno hr
    rw [ZkTree.getChildren, if_pos (zk.tree.valid _ hmem), if_pos hmem] at this
    exact absurd this (by simp)

theorem zkGetChdnodes_spec (h : zkGetChdnodes l zk path = (ret, nodes, zk')) : zk'.tree = zk.tree ∧
      (ret = .ok → cStr path ∈ zk.tree.nodes ∧ nodes = sortBytes (zk.tree.children (cStr path))) ∧
      (ret = .nodeNotExist → cStr path ∉ zk.tree.nodes) := by
  unfold zkGetChdnodes at h
  split at h
  · cases h
    exact ⟨rfl, fun h => absurd h (by simp), fun h => absurd h (by simp)⟩
  · split at h
    · next names zk₁ hz =>
      cases h
      obtain ⟨htree, hok, -⟩ := zooGetChildren_spec hz
      obtain ⟨hmem, rfl⟩ := hok _ rfl
      exact ⟨htree, fun _ => ⟨hmem, qsortNames_list l _⟩, fun h => absurd h (by simp)⟩
    · next zk₁ hz =>
      cases h
      obtain ⟨htree, -, hno⟩ := zooGetChildren_spec hz
      exact ⟨htree, fun h => absurd h (by simp), fun _ => hno rfl⟩
    · next zk₁ hz =>
      cases h
      exact ⟨(zooGetChildren_spec hz).1, fun h => absurd h (by simp), fun h => absurd h (by simp)⟩

/-- A ZooKeeper that does not fail. -/
theorem zkGetChdnodes_quiet (l : Listing) (tree : ZkTree) (hvalid : isValidPath (cStr path) = true) :
    zkGetChdnodes l (.quiet tree) path = if cStr path ∈ tree.nodes then
      (.ok, sortBytes (tree.children (cStr path)), .quiet tree) else (.nodeNotExist, [], .quiet tree) := by
  have hpath : path ≠ [] := by
    rintro rfl
    exact absurd hvalid (by decide)
  rw [zkGetChdnodes, if_neg hpath, Zk.zooGetChildren, calls_quiet, ZkTree.serve, ZkTree.getChildren, if_pos hvalid]
  by_cases hmem : cStr path ∈ tree.nodes
  · rw [if_pos hmem, if_pos hmem, ← qsortNames_list l]
    rfl
  · rw [if_neg hmem, if_neg hmem]
    rfl

/-- The order of a listing is lost. -/
theorem zkGetChdnodes_listing (l l' : Listing) (zk : Zk) (path : Bytes) :
    zkGetChdnodes l zk path = zkGetChdnodes l' zk path := by
  unfold zkGetChdnodes
  simp only [qsortNames_list]

/-- **The reads do not depend on the order in which the children are listed.** -/
theorem read_listing (l l' : Listing) (zk : Zk) (dataType : UInt8) (tblkey path : Bytes) :
    read l zk dataType tblkey path = read l' zk dataType tblkey path := by
  unfold read readService readBatch zkGetChdnodesWithStatus
  rw [zkGetChdnodes_listing l l']

theorem sessionOf_some {H : Type} {conf : Finset Bytes} {sessions : Bytes → Option H} {idc : Bytes} {zh : H}
    (h : sessionOf conf sessions idc = some zh) : idc ≠ [] ∧ idc ∈ conf ∧ sessions idc = some zh := by
  unfold sessionOf at h
  split at h
  · exact absurd h (by simp)
  · next hne =>
    split at h
    · next hconf => exact ⟨hne, hconf, h⟩
    · exact absurd h (by simp)

end

end QConf.Scan
