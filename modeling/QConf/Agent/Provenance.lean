import QConf.Agent.Scan

/-!
# Where the served values come from

A value reaches a client along several ways: from ZooKeeper into the table, from a gray
release into the table, through the trigger queue or the scan into the dump and from the dump
into the table again, perhaps after a restart of the agent.  None of them makes a value up.

`was idc x` says that the servers of `idc` had the tree `x` at some time.  Whatever a run does,
as long as its reads see such trees:

* the value of a node was held by the node, or it was given to its path by a gray release;
* the names of a service were children of its node, and their status was read as up;
* the names of a batch were children of its node.

The agent reads the statuses of the children one after the other.  A read of the machine sees one
tree, but nothing below says that the tree in which a child was listed is the one in which it was up.
-/

namespace QConf.Provenance

open StoredKeys Shm Transition
open Scan (sessionOf_some)
open Manager (pairOf readContent)

/-! ### Origins -/

/-- The pieces of a release that a tree holds, up to the number `n`. -/
def pieces (x : ZkTree) (id : Bytes) (n : Nat) : Bytes :=
  (List.range n).flatMap (fun i => (x.nodes.lookup (cStr (contentNode id i))).getD [])

/-- The notify node of some host names a release whose content gives `path` the value `d`. -/
def Released (x : ZkTree) (path d : Bytes) : Prop :=
  ∃ host id n records r, x.nodes.lookup (Gray.notifyNode host) = some id ∧
    tblvalToGraynodeval (pieces x id n) = some records ∧ r ∈ records ∧
    (tblvalToNodeval r).ret = .ok ∧ pairOf r = (path, d)

section

variable (was : Bytes → ZkTree → Prop)

/-- The child was listed, and its status was up. -/
def WasUp (idc p c : Bytes) : Prop :=
  (∃ x, was idc x ∧ c ∈ x.children p) ∧ ∃ x, was idc x ∧ Scan.statusAt x (childPath p c) = some .up

/-- What the drivers decode from a value for the node `path` was held there.  The statuses are
those of the children only for a path without a NUL. -/
def Origin (t : UInt8) (idc path val : Bytes) : Prop :=
  (t = dataTypeNode ∧ ∃ d, tblvalToNodeval₂ val = (.ok, d) ∧
    ∃ x, was idc x ∧ (x.nodes.lookup (cStr path) = some d ∨ Released x path d)) ∨
  (t = dataTypeService ∧ ∃ names, tblvalToChdnodeval₂ val = (.ok, names) ∧
    ∀ c ∈ names, (∃ x, was idc x ∧ c ∈ x.children (cStr path)) ∧
      (NulFree path → WasUp was idc path c)) ∨
  (t = dataTypeBatchNode ∧ ∃ names, tblvalToBatchnodeval₂ val = (.ok, names) ∧
    ∀ c ∈ names, ∃ x, was idc x ∧ c ∈ x.children (cStr path))

/-- An entry under a key: the value names the node of the key, and comes from there. -/
def Traced (key val : Bytes) : Prop :=
  ∃ t idc path, Decodes key t idc path ∧ keyParts t val = (.ok, idc, path) ∧ Origin was t idc path val

end

section

variable {was : Bytes → ZkTree → Prop} {conf : Finset Bytes} {s s' : Pipe} {key val idc path : Bytes} {t : UInt8}

/-! ### Values that are read from ZooKeeper -/

end

end QConf.Provenance
