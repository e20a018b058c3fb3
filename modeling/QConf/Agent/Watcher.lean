import QConf.Base.Format
import QConf.Base.Integer
import QConf.Lib.Transition
import QConf.Zookeeper.Session

/-!
# The watcher of the agent

The agent keeps a table of what clients asked for and refreshes it when a
ZooKeeper watch fires.  Four parties work on the same state: the servers change
their trees and send events, the event handler of each ZooKeeper handle
(`global_watcher`) queues the keys an event may concern, the message thread queues
what clients ask for, and `deque_process` takes one key after the other from the
queue, reads it from ZooKeeper with a new watch and writes the table.

`step` is one atomic action of one party.  Every lock-protected access of the
source and every ZooKeeper call is an action of its own, so the interleavings of
`step` are those of the threads.  Reads do not fail, except where the path is not
one ZooKeeper accepts, and no gray release is active.
-/

namespace QConf.Agent

def nodeKey (idc path : Bytes) : Bytes := tblkeyOf dataTypeNode idc path
def serviceKey (idc path : Bytes) : Bytes := tblkeyOf dataTypeService idc path
def batchKey (idc path : Bytes) : Bytes := tblkeyOf dataTypeBatchNode idc path

/-! ### Events and what the handlers test -/

inductive EventType
  | created
  | deleted
  | changed
  | child
  deriving DecidableEq, Repr

structure Event where
  type : EventType
  path : Bytes
  deriving DecidableEq, Repr

/-- One test of an event handler:
`if (pending_node_exist(pend) || hash_tbl_exist(_shm_tbl, key)) add_watcher_node(key)`. -/
structure Check where
  pend : Bytes
  key : Bytes
  deriving DecidableEq, Repr

def Check.of (key : Bytes) : Check := ⟨key, key⟩

def processDeletedEvent (idc path : Bytes) : List Check :=
  [.of (nodeKey idc path), .of (serviceKey idc path), .of (batchKey idc path)]

/-- The second test asks whether the key of the changed node is pending, not
whether the key of the service above it is. -/
def processChangedEvent (idc path : Bytes) : List Check :=
  .of (nodeKey idc path) ::
    match splitLast path with
    | none => []
    | some (parent, _) => [⟨nodeKey idc path, serviceKey idc parent⟩]

def processChildEvent (idc path : Bytes) : List Check :=
  [.of (serviceKey idc path), .of (batchKey idc path)]

/-- `process_created_event` does nothing. -/
def processCreatedEvent : List Check := []

def checksOf (idc : Bytes) (e : Event) : List Check :=
  match e.type with
  | .deleted => processDeletedEvent idc e.path
  | .changed => processChangedEvent idc e.path
  | .child => processChildEvent idc e.path
  | .created => processCreatedEvent

/-! ### The state -/

/-- Where the handler stands in the test at the front. -/
inductive Stage
  | pendingTest
  | tableTest
  | addNode
  deriving DecidableEq, Repr

/-- An event being handled, with the tests still to make. -/
structure Handler where
  event : Event
  stage : Stage
  checks : List Check
  deriving DecidableEq, Repr

/-- How far `deque_process` has got with the key it took. -/
inductive Phase
  | popped
  | pending
  /-- a service: the children listed, and the statuses read so far -/
  | listed (names : List Bytes) (status : List Status)
  | read (tblval : Bytes)
  | gone
  | failed
  | written
  deriving DecidableEq, Repr

structure Work where
  key : Bytes
  phase : Phase
  deriving DecidableEq, Repr

structure State where
  /-- the tree of each idc -/
  trees : Bytes → ZkTree
  /-- one-shot watches, by idc and path -/
  dataWatch : Finset (Bytes × Bytes)
  childWatch : Finset (Bytes × Bytes)
  /-- events on their way to the handler of an idc -/
  inflight : Bytes → List Event
  handler : Bytes → Option Handler
  /-- `_need_watch_nodes` -/
  need : List Bytes
  /-- `_exist_watch_nodes` -/
  exist : Finset Bytes
  /-- `_pending_nodes` -/
  pending : Finset Bytes
  work : Option Work
  /-- the shared-memory table -/
  tbl : BytesMap

/-- A started agent with an empty table. -/
def State.init (trees : Bytes → ZkTree) : State where
  trees := trees
  dataWatch := ∅
  childWatch := ∅
  inflight := fun _ => []
  handler := fun _ => none
  need := []
  exist := ∅
  pending := ∅
  work := none
  tbl := ∅

/-! ### Watches -/

def State.notify (s : State) (idc : Bytes) (e : Event) : State :=
  { s with inflight := Function.update s.inflight idc (s.inflight idc ++ [e]) }

/-- The data watch on a node that was set. -/
def State.fireChanged (s : State) (idc path : Bytes) : State :=
  if (idc, path) ∈ s.dataWatch then
    { s with dataWatch := s.dataWatch.erase (idc, path) }.notify idc ⟨.changed, path⟩
  else s

/-- The child watch on a node that lost or got a child. -/
def State.fireChild (s : State) (idc path : Bytes) : State :=
  if (idc, path) ∈ s.childWatch then
    { s with childWatch := s.childWatch.erase (idc, path) }.notify idc ⟨.child, path⟩
  else s

/-- The data and child watches on a node that was deleted, which share one event. -/
def State.fireDeleted (s : State) (idc path : Bytes) : State :=
  if (idc, path) ∈ s.dataWatch ∨ (idc, path) ∈ s.childWatch then
    { s with dataWatch := s.dataWatch.erase (idc, path),
             childWatch := s.childWatch.erase (idc, path) }.notify idc ⟨.deleted, path⟩
  else s

def State.setTree (s : State) (idc : Bytes) (t : ZkTree) : State :=
  { s with trees := Function.update s.trees idc t }

/-! ### The agent's steps -/

/-- `add_watcher_node`. -/
def State.addWatcherNode (s : State) (key : Bytes) : State :=
  if key = [] then s
  else if key ∈ s.exist then s
  else { s with need := s.need ++ [key], exist := insert key s.exist }

def State.setHandler (s : State) (idc : Bytes) (o : Option Handler) : State :=
  { s with handler := Function.update s.handler idc o }

/-- One step of the handler of an idc. -/
def State.handle (s : State) (idc : Bytes) (h : Handler) : State :=
  match h.checks with
  | [] => s.setHandler idc none
  | c :: rest =>
    match h.stage with
    | .pendingTest =>
      if c.pend ∈ s.pending then s.setHandler idc (some ⟨h.event, .addNode, c :: rest⟩)
      else s.setHandler idc (some ⟨h.event, .tableTest, c :: rest⟩)
    | .tableTest =>
      if c.key ∈ s.tbl then s.setHandler idc (some ⟨h.event, .addNode, c :: rest⟩)
      else s.setHandler idc (some ⟨h.event, .pendingTest, rest⟩)
    | .addNode => (s.addWatcherNode c.key).setHandler idc (some ⟨h.event, .pendingTest, rest⟩)

def State.setPhase (s : State) (key : Bytes) (phase : Phase) : State :=
  { s with work := some ⟨key, phase⟩ }

/-- `zoo_get` with a watch, as `zk_get_node` calls it: the path goes through
`c_str()`, and a watch is left only where the node exists. -/
def State.zkGetNode (s : State) (idc path : Bytes) : Except ZooErr Bytes × State :=
  match (s.trees idc).get (cStr path) with
  | .ok d => (.ok (d.take maxValueSize), { s with dataWatch := insert (idc, cStr path) s.dataWatch })
  | .error e => (.error e, s)

/-- `zk_get_chdnodes`: the children come in some order and are sorted by
`strcmp`. -/
def State.zkGetChdnodes (s : State) (idc path : Bytes) (order : List Bytes) :
    Option (Except ZooErr (List Bytes) × State) :=
  match (s.trees idc).getChildren (cStr path) with
  | .ok names =>
    if order.Nodup ∧ order.toFinset = names then
      some (.ok (order.insertionSort (· ≤ ·)),
        { s with childWatch := insert (idc, cStr path) s.childWatch })
    else none
  | .error e => some (.error e, s)

/-- The first ZooKeeper call for a key: `process_node`, `process_batch` and the
listing of `process_service`.  An idc that is not configured has no handle. -/
def State.process (conf : List Bytes) (s : State) (key : Bytes) (dataType : Option UInt8)
    (idc path : Bytes) (order : List Bytes) : Option State :=
  if idc ∉ conf ∨ idc = [] then some (s.setPhase key .failed)
  else if dataType = some dataTypeNode then
    match s.zkGetNode idc path with
    | (.ok d, s) => some (s.setPhase key (.read (nodevalToTblval key d)))
    | (.error .noNode, s) => some (s.setPhase key .gone)
    | (.error _, s) => some (s.setPhase key .failed)
  else if path = [] then some (s.setPhase key .failed)
  else if dataType = some dataTypeBatchNode then
    match s.zkGetChdnodes idc path order with
    | none => none
    | some (.ok names, s) => some (s.setPhase key (.read (batchnodevalToTblval key names)))
    | some (.error .noNode, s) => some (s.setPhase key .gone)
    | some (.error _, s) => some (s.setPhase key .failed)
  else if dataType = some dataTypeService then
    match s.zkGetChdnodes idc path order with
    | none => none
    | some (.ok names, s) => some (s.setPhase key (.listed names []))
    | some (.error .noNode, s) => some (s.setPhase key .gone)
    | some (.error _, s) => some (s.setPhase key .failed)
  else some (s.setPhase key .failed)

/-- `set_watcher_and_update_tbl`, up to the first answer. -/
def State.fetch (conf : List Bytes) (s : State) (key : Bytes) (order : List Bytes) : Option State :=
  let parts := deserializeFromTblkey key
  s.process conf key parts.dataType parts.idc parts.path order

/-- The loop of `zk_get_chdnodes_with_status`: one watched read a child, and the
value once every child was read. -/
def State.fetchStatus (s : State) (key : Bytes) (names : List Bytes) (status : List Status) : State :=
  let parts := deserializeFromTblkey key
  match names.drop status.length with
  | [] => s.setPhase key (.read (chdnodevalToTblval key names status))
  | c :: _ =>
    match s.zkGetNode parts.idc (parts.path ++ slash :: c) with
    | (.ok d, s) =>
      match statusOfValue d with
      | some st => s.setPhase key (.listed names (status ++ [st]))
      | none => s.setPhase key .failed
    | (.error _, s) => s.setPhase key .failed

/-- `hash_tbl_set` and `hash_tbl_remove`.  A value that does not fit the table
whatever is evicted leaves the key without one. -/
def State.write (s : State) (key : Bytes) (fits : Bool) : Phase → Option State
  | .read tblval => some
      ({ s with tbl := if fits then s.tbl.insert key tblval else s.tbl.erase key }.setPhase key .written)
  | .gone => some ({ s with tbl := s.tbl.erase key }.setPhase key .written)
  -- a key that could not be read is not in the dump either
  | .failed => some (s.setPhase key .written)
  | _ => none

/-! ### All actions -/

inductive Action
  | zkCreate (idc path data : Bytes)
  | zkSet (idc path data : Bytes)
  | zkDelete (idc path : Bytes)
  | deliver (idc : Bytes)
  | handle (idc : Bytes)
  | message (dataType : UInt8) (idc path : Bytes)
  | evict (key : Bytes)
  | pop
  | addPending
  | fetch (order : List Bytes)
  | fetchStatus
  | write (fits : Bool)
  | delPending
  deriving DecidableEq, Repr

/-- One step of the system; `none` where the action is not possible. -/
def step (conf : List Bytes) (s : State) : Action → Option State
  | .zkCreate idc path data =>
    match (s.trees idc).create path data with
    | .ok t => some ((s.setTree idc t).fireChild idc (zkParent path))
    | .error _ => none
  | .zkSet idc path data =>
    match (s.trees idc).set path data with
    | .ok t => some ((s.setTree idc t).fireChanged idc path)
    | .error _ => none
  | .zkDelete idc path =>
    match (s.trees idc).delete path with
    | .ok t => some (((s.setTree idc t).fireDeleted idc path).fireChild idc (zkParent path))
    | .error _ => none
  | .deliver idc =>
    match s.handler idc, s.inflight idc with
    | none, e :: rest => some
        ({ s with inflight := Function.update s.inflight idc rest }.setHandler idc
          (some ⟨e, .pendingTest, checksOf idc e⟩))
    | _, _ => none
  | .handle idc => (s.handler idc).map (s.handle idc)
  | .message dataType idc path =>
    if idc.length ≤ 255 ∧ path.length ≤ 65535 then
      some (s.addWatcherNode (serializeToTblkey dataType idc path).2)
    else none
  | .evict key => some { s with tbl := s.tbl.erase key }
  | .pop =>
    match s.work, s.need with
    | none, key :: rest => some
        { s with need := rest, exist := s.exist.erase key, work := some ⟨key, .popped⟩ }
    | _, _ => none
  | .addPending =>
    match s.work with
    | some ⟨key, .popped⟩ => some ({ s with pending := insert key s.pending }.setPhase key .pending)
    | _ => none
  | .fetch order =>
    match s.work with
    | some ⟨key, .pending⟩ => s.fetch conf key order
    | _ => none
  | .fetchStatus =>
    match s.work with
    | some ⟨key, .listed names status⟩ => some (s.fetchStatus key names status)
    | _ => none
  | .write fits =>
    match s.work with
    | some ⟨key, phase⟩ => s.write key fits phase
    | none => none
  | .delPending =>
    match s.work with
    | some ⟨key, .written⟩ => some { s with pending := s.pending.erase key, work := none }
    | _ => none

end QConf.Agent
