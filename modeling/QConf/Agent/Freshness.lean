import QConf.Agent.Watcher

/-!
# What was read and what ZooKeeper holds

For one table key the argument is always the same.  What was read for it, and
later what the table holds for it, either still is what ZooKeeper holds, with the
watches in place that report the next change (`Fresh`), or the key is queued, or
an event that will queue it is on its way or being handled (`Signal`).

A handler that found the key not pending is about to look at the table; that
counts for a key that is in the table, but not for a key that is being loaded.
The second test of `process_changed_event` asks for the wrong pending key, so for
a service that is loaded for the first time it counts for nothing either; the
theorem about services says what is left.
-/

namespace QConf.Agent

open Sorting

/-! ### What ZooKeeper holds for a key -/

/-- The table value for the node at `path`, or `none` where it is gone. -/
def nodeNow (s : State) (idc path : Bytes) : Option Bytes :=
  ((s.trees idc).nodes.lookup path).map (nodevalToTblval (nodeKey idc path))

/-- The table value for the children of `path`. -/
def batchNow (s : State) (idc path : Bytes) : Option Bytes :=
  if path ∈ (s.trees idc).nodes then
    some (batchnodevalToTblval (batchKey idc path) (sortBytes ((s.trees idc).children path)))
  else none

/-- The status ZooKeeper holds for the child `c` of `path`. -/
def statusNow (s : State) (idc path c : Bytes) : Option Status :=
  ((s.trees idc).nodes.lookup (path ++ slash :: c)).bind statusOfValue

/-- The table value for the children of `path` that are up. -/
def serviceNow (s : State) (idc path : Bytes) : Option Bytes :=
  if path ∈ (s.trees idc).nodes then
    some (batchnodevalToTblval (serviceKey idc path)
      ((sortBytes ((s.trees idc).children path)).filter
        (fun c => statusNow s idc path c = some .up)))
  else none

/-! ### One key -/

inductive Kind
  | node
  | service
  | batch
  deriving DecidableEq, Repr

def Kind.dataType : Kind → UInt8
  | .node => dataTypeNode
  | .service => dataTypeService
  | .batch => dataTypeBatchNode

/-- A table key with what it was built from. -/
structure Target where
  kind : Kind
  idc : Bytes
  path : Bytes

def Target.key (T : Target) : Bytes := tblkeyOf T.kind.dataType T.idc T.path

/-- A key that a client can ask for and that ZooKeeper can know: a C string as
its path, and lengths that the key can carry. -/
structure Target.Proper (T : Target) : Prop where
  idc : T.idc.length < 256
  path : T.path.length < 65536
  nulFree : NulFree T.path

/-- What ZooKeeper holds for the key. -/
def Target.now (T : Target) (s : State) : Option Bytes :=
  match T.kind with
  | .node => nodeNow s T.idc T.path
  | .service => serviceNow s T.idc T.path
  | .batch => batchNow s T.idc T.path

theorem Kind.hasPath (k : Kind) : HasPath k.dataType := by
  cases k
  · exact Or.inl rfl
  · exact Or.inr (Or.inl rfl)
  · exact Or.inr (Or.inr rfl)

theorem Target.Proper.deserialize {T : Target} (h : T.Proper) :
    deserializeFromTblkey T.key =
      { ret := .ok, dataType := some T.kind.dataType, idc := T.idc, path := T.path } := by
  have := deserialize_tblkeyOf T.kind.hasPath h.idc h.path []
  rwa [List.append_nil] at this

theorem Target.key_ne_nil (T : Target) : T.key ≠ [] := by
  rw [Target.key, tblkeyOf_hasPath T.kind.hasPath]
  simp

/-- What was read for a key so far. -/
inductive Progress
  | listed (names : List Bytes) (status : List Status)
  | value (tblval : Bytes)

def Progress.phase : Progress → Phase
  | .listed names status => .listed names status
  | .value tblval => .read tblval

/-- The children and the statuses read so far are those of ZooKeeper, and each
of them is watched. -/
structure Listed (s : State) (idc path : Bytes) (names : List Bytes) (status : List Status) : Prop where
  mem : path ∈ (s.trees idc).nodes
  names_eq : names = sortBytes ((s.trees idc).children path)
  childWatch : (idc, path) ∈ s.childWatch
  length_le : status.length ≤ names.length
  status_eq : ∀ (i : Nat) (c : Bytes) (st : Status), names[i]? = some c → status[i]? = some st →
    statusNow s idc path c = some st ∧ (idc, path ++ slash :: c) ∈ s.dataWatch

/-- What was read is what ZooKeeper holds, and the next change will be reported. -/
def Fresh (T : Target) (s : State) (ρ : Progress) : Prop :=
  match T.kind, ρ with
  | .node, .value v => T.now s = some v ∧ (T.idc, T.path) ∈ s.dataWatch
  | .batch, .value v => T.now s = some v ∧ (T.idc, T.path) ∈ s.childWatch
  | .service, .listed names status => Listed s T.idc T.path names status
  | .service, .value v => ∃ names status, status.length = names.length ∧
      v = chdnodevalToTblval T.key names status ∧ Listed s T.idc T.path names status
  | _, _ => False

/-! ### Signals -/

/-- The test at the front of a handler that will still queue a key being loaded:
it has not asked whether the key is pending, or it asked for another key and is
about to look at the table, or it is about to queue the key. -/
def Check.Counts (c : Check) (key : Bytes) : Stage → Prop
  | .pendingTest => c.key = key
  | .tableTest => c.key = key ∧ c.pend ≠ key
  | .addNode => c.key = key

/-- A handler that will queue a key being loaded. -/
def Handler.Counts (h : Handler) (key : Bytes) : Prop :=
  match h.checks with
  | [] => False
  | c :: rest => c.Counts key h.stage ∨ ∃ c ∈ rest, c.key = key

/-- An event that will queue the key is in flight or being handled. -/
def Signal (T : Target) (s : State) : Prop :=
  (∃ e ∈ s.inflight T.idc, ∃ c ∈ checksOf T.idc e, c.key = T.key) ∨
    ∃ h, s.handler T.idc = some h ∧ h.Counts T.key

/-- The handler found the key not pending and is about to look at the table. -/
def Half (T : Target) (s : State) : Prop :=
  ∃ h c rest, s.handler T.idc = some h ∧ h.checks = c :: rest ∧ h.stage = .tableTest ∧
    c.key = T.key ∧ c.pend = T.key

/-- What was read so far is right, or the key will be read again. -/
def Covered (T : Target) (s : State) (ρ : Progress) : Prop :=
  Fresh T s ρ ∨ T.key ∈ s.need ∨ Signal T s

/-- ZooKeeper accepts the path, and the idc has a handle. -/
def Readable (conf : List Bytes) (T : Target) : Prop :=
  T.idc ∈ conf ∧ T.idc ≠ [] ∧ isValidPath T.path = true

/-- **The invariant for one key.** -/
structure Inv (conf : List Bytes) (T : Target) (s : State) : Prop where
  nodup : s.need.Nodup
  exist : s.exist = s.need.toFinset
  pending : ∀ key, key ∈ s.pending ↔ ∃ ph, s.work = some ⟨key, ph⟩ ∧ ph ≠ .popped
  checks : ∀ idc h, s.handler idc = some h → h.checks <:+ checksOf idc h.event
  readable : T.key ∈ s.tbl ∨ (∃ ρ : Progress, s.work = some ⟨T.key, ρ.phase⟩) → Readable conf T
  table : ∀ v, s.tbl.lookup T.key = some v → (∀ ph, s.work ≠ some ⟨T.key, ph⟩) →
    Covered T s (.value v) ∨ Half T s
  progress : ∀ ρ : Progress, s.work = some ⟨T.key, ρ.phase⟩ → Covered T s ρ
  settled : ∀ ph, s.work = some ⟨T.key, ph⟩ → ph = .failed ∨ ph = .written →
    ∀ v, s.tbl.lookup T.key = some v → Covered T s (.value v)

/-! ### ZooKeeper changes -/

/-- What a change of a tree does to watched nodes: a watch that is still there
saw no change, and a watch that is gone left an event. -/
structure Reported (s s' : State) : Prop where
  handler : s'.handler = s.handler
  need : s'.need = s.need
  exist : s'.exist = s.exist
  pending : s'.pending = s.pending
  work : s'.work = s.work
  tbl : s'.tbl = s.tbl
  inflight : ∀ idc, s.inflight idc ⊆ s'.inflight idc
  dataWatch : ∀ idc p, (idc, p) ∈ s.dataWatch → (idc, p) ∈ s'.dataWatch ∨
    ⟨.changed, p⟩ ∈ s'.inflight idc ∨
    (⟨.deleted, p⟩ ∈ s'.inflight idc ∧ p ∉ (s'.trees idc).nodes)
  childWatch : ∀ idc p, (idc, p) ∈ s.childWatch → (idc, p) ∈ s'.childWatch ∨
    ⟨.child, p⟩ ∈ s'.inflight idc ∨ ⟨.deleted, p⟩ ∈ s'.inflight idc
  data : ∀ idc p, (idc, p) ∈ s'.dataWatch → p ∈ (s.trees idc).nodes →
    (s'.trees idc).nodes.lookup p = (s.trees idc).nodes.lookup p
  mem : ∀ idc p, (idc, p) ∈ s'.childWatch → p ∈ (s.trees idc).nodes → p ∈ (s'.trees idc).nodes
  child : ∀ idc p, (idc, p) ∈ s'.childWatch → ∀ q, q ≠ rootPath → zkParent q = p →
    (q ∈ (s'.trees idc).nodes ↔ q ∈ (s.trees idc).nodes)

section

variable {conf : List Bytes} {T : Target} {s s' : State} {ρ : Progress}

theorem children_congr {t t' : ZkTree} {p : Bytes}
    (h : ∀ q, q ≠ rootPath → zkParent q = p → (q ∈ t'.nodes ↔ q ∈ t.nodes)) :
    t'.children p = t.children p := by
  ext c
  simp only [ZkTree.mem_children]
  constructor
  · rintro ⟨q, hq, hr, hp, hc⟩
    exact ⟨q, (h q hr hp).mp hq, hr, hp, hc⟩
  · rintro ⟨q, hq, hr, hp, hc⟩
    exact ⟨q, (h q hr hp).mpr hq, hr, hp, hc⟩

/-- An event of this type about the path makes its handler test the key. -/
theorem signal_of_inflight {e : Event} (he : e ∈ s.inflight T.idc)
    (hc : ∃ c ∈ checksOf T.idc e, c.key = T.key) : Signal T s := Or.inl ⟨e, he, hc⟩

theorem Listed.reported {idc path : Bytes} {names : List Bytes} {status : List Status}
    (h : Listed s idc path names status) (hr : Reported s s') :
    Listed s' idc path names status ∨
      ∃ e ∈ s'.inflight idc, ∃ c ∈ checksOf idc e, c.key = serviceKey idc path := by
  rcases hr.childWatch idc path h.childWatch with hw | he | he
  · have hchildren : (s'.trees idc).children path = (s.trees idc).children path :=
      children_congr (hr.child idc path hw)
    have hne : path ≠ [] := by
      rintro rfl
      exact absurd ((s.trees idc).valid _ h.mem) (by decide)
    by_cases hch : ∃ c ∈ names, (idc, path ++ slash :: c) ∈ s.dataWatch ∧
        (⟨.changed, path ++ slash :: c⟩ : Event) ∈ s'.inflight idc
    · -- a child changed: the handler goes up to the service
      obtain ⟨c, hc, _, he⟩ := hch
      rw [h.names_eq, sortBytes, mem_sortedList, ZkTree.mem_children] at hc
      obtain ⟨q, hq, hqr, _, hqc⟩ := hc
      have hslash : slash ∉ c := hqc ▸ (ZkTree.eq_childPath ((s.trees idc).valid q hq) hqr).2.2.2
      refine Or.inr ⟨_, he, ⟨nodeKey idc (path ++ slash :: c), serviceKey idc path⟩, ?_, rfl⟩
      simp [checksOf, processChangedEvent, splitLast_append hslash]
    · refine Or.inl ⟨hr.mem idc path hw h.mem, by rw [hchildren]; exact h.names_eq, hw,
        h.length_le, fun i c st hi hst => ?_⟩
      obtain ⟨hnow, hd⟩ := h.status_eq i c st hi hst
      obtain ⟨d, hlook, hval⟩ := Option.bind_eq_some_iff.mp hnow
      have hmem := ZkTree.mem_of_lookup hlook
      have hroot : path ++ slash :: c ≠ rootPath := by
        intro hroot
        have := congrArg List.length hroot
        have hpos := List.length_pos_iff.mpr hne
        simp [rootPath] at this
        omega
      have hcs : c ∈ names := List.mem_of_getElem? hi
      rcases hr.dataWatch idc _ hd with hd' | he | ⟨_, hgone⟩
      · refine ⟨?_, hd'⟩
        rw [statusNow, hr.data idc _ hd' hmem]
        exact hnow
      · exact absurd ⟨c, hcs, hd, he⟩ hch
      · -- a deleted child would have taken the child watch with it
        refine absurd ((hr.child idc path hw _ hroot ?_).mpr hmem) hgone
        rw [h.names_eq, sortBytes, mem_sortedList, ZkTree.mem_children] at hcs
        obtain ⟨q, hq, hqr, _, hqc⟩ := hcs
        exact zkParent_append hne (hqc ▸ (ZkTree.eq_childPath ((s.trees idc).valid q hq) hqr).2.2.2)
  · exact Or.inr ⟨_, he, Check.of (serviceKey idc path), by simp [checksOf, processChildEvent], rfl⟩
  · exact Or.inr ⟨_, he, Check.of (serviceKey idc path), by simp [checksOf, processDeletedEvent], rfl⟩

/-- **A ZooKeeper change**: what was read stays right, or an event reports that
it is not. -/
theorem Fresh.reported (h : Fresh T s ρ) (hr : Reported s s') : Fresh T s' ρ ∨ Signal T s' := by
  obtain ⟨kind, idc, path⟩ := T
  cases kind with
  | node =>
    cases ρ with
    | listed names status => exact absurd h (by simp [Fresh])
    | value v =>
      obtain ⟨hnow, hw⟩ : nodeNow s idc path = some v ∧ (idc, path) ∈ s.dataWatch := h
      rcases hr.dataWatch idc path hw with hw' | he | ⟨he, _⟩
      · refine Or.inl (show nodeNow s' idc path = some v ∧ (idc, path) ∈ s'.dataWatch from ⟨?_, hw'⟩)
        obtain ⟨d, hd, _⟩ := Option.map_eq_some_iff.mp hnow
        rw [nodeNow, hr.data idc path hw' (ZkTree.mem_of_lookup hd)]
        exact hnow
      · exact Or.inr (signal_of_inflight he
          ⟨Check.of (nodeKey idc path), by simp [checksOf, processChangedEvent], rfl⟩)
      · exact Or.inr (signal_of_inflight he
          ⟨Check.of (nodeKey idc path), by simp [checksOf, processDeletedEvent], rfl⟩)
  | batch =>
    cases ρ with
    | listed names status => exact absurd h (by simp [Fresh])
    | value v =>
      obtain ⟨hnow, hw⟩ : batchNow s idc path = some v ∧ (idc, path) ∈ s.childWatch := h
      rcases hr.childWatch idc path hw with hw' | he | he
      · refine Or.inl (show batchNow s' idc path = some v ∧ (idc, path) ∈ s'.childWatch from ⟨?_, hw'⟩)
        unfold batchNow at hnow ⊢
        split at hnow
        · next hm =>
          rw [if_pos (hr.mem idc path hw' hm), children_congr (hr.child idc path hw')]
          exact hnow
        · exact absurd hnow (by simp)
      · exact Or.inr (signal_of_inflight he
          ⟨Check.of (batchKey idc path), by simp [checksOf, processChildEvent], rfl⟩)
      · exact Or.inr (signal_of_inflight he
          ⟨Check.of (batchKey idc path), by simp [checksOf, processDeletedEvent], rfl⟩)
  | service =>
    cases ρ with
    | listed names status =>
      rcases Listed.reported (show Listed s idc path names status from h) hr with hl | ⟨e, he, hc⟩
      · exact Or.inl hl
      · exact Or.inr (signal_of_inflight he hc)
    | value v =>
      obtain ⟨names, status, hlen, hv, hl⟩ := h
      rcases hl.reported hr with hl | ⟨e, he, hc⟩
      · exact Or.inl ⟨names, status, hlen, hv, hl⟩
      · exact Or.inr (signal_of_inflight he hc)

theorem Signal.reported (h : Signal T s) (hr : Reported s s') : Signal T s' := by
  rcases h with ⟨e, he, hc⟩ | ⟨hd, hh, hc⟩
  · exact Or.inl ⟨e, hr.inflight _ he, hc⟩
  · exact Or.inr ⟨hd, by rw [hr.handler]; exact hh, hc⟩

theorem Covered.reported (h : Covered T s ρ) (hr : Reported s s') : Covered T s' ρ := by
  rcases h with h | h | h
  · rcases h.reported hr with h | h
    · exact Or.inl h
    · exact Or.inr (Or.inr h)
  · exact Or.inr (Or.inl (by rw [hr.need]; exact h))
  · exact Or.inr (Or.inr (h.reported hr))

/-- The invariant survives a ZooKeeper change. -/
theorem Inv.reported (h : Inv conf T s) (hr : Reported s s') : Inv conf T s' where
  nodup := by rw [hr.need]; exact h.nodup
  exist := by rw [hr.need, hr.exist]; exact h.exist
  pending := by rw [hr.pending, hr.work]; exact h.pending
  checks := by rw [hr.handler]; exact h.checks
  readable := by rw [hr.tbl, hr.work]; exact h.readable
  table v hv hw := by
    rw [hr.tbl] at hv
    rw [hr.work] at hw
    rcases h.table v hv hw with hc | ⟨hd, c, rest, hh, hrest⟩
    · exact Or.inl (hc.reported hr)
    · exact Or.inr ⟨hd, c, rest, by rw [hr.handler]; exact hh, hrest⟩
  progress ρ hw := (h.progress ρ (hr.work ▸ hw)).reported hr
  settled ph hw hph v hv := (h.settled ph (hr.work ▸ hw) hph v (hr.tbl ▸ hv)).reported hr

/-! ### The three ZooKeeper actions report -/

/-- The events in flight with the events `l` added for `idc`. -/
def addEvents (f : Bytes → List Event) (idc : Bytes) (l : List Event) : Bytes → List Event :=
  Function.update f idc (f idc ++ l)

theorem subset_addEvents (f : Bytes → List Event) (idc : Bytes) (l : List Event) (idc' : Bytes) :
    f idc' ⊆ addEvents f idc l idc' := by
  intro x hx
  by_cases h : idc' = idc
  · subst h
    simp [addEvents, hx]
  · simp [addEvents, h, hx]

theorem mem_addEvents (f : Bytes → List Event) (idc : Bytes) {l : List Event} {e : Event}
    (h : e ∈ l) : e ∈ addEvents f idc l idc := by
  simp [addEvents, h]

theorem addEvents_nil (f : Bytes → List Event) (idc : Bytes) : addEvents f idc [] = f := by
  simp [addEvents]

theorem fireChanged_eq (s : State) (idc p : Bytes) :
    s.fireChanged idc p = { s with
      dataWatch := s.dataWatch.erase (idc, p)
      inflight := addEvents s.inflight idc
        (if (idc, p) ∈ s.dataWatch then [⟨.changed, p⟩] else []) } := by
  unfold State.fireChanged
  split
  · rfl
  · next h => rw [Finset.erase_eq_of_notMem h, addEvents_nil]

theorem fireChild_eq (s : State) (idc p : Bytes) :
    s.fireChild idc p = { s with
      childWatch := s.childWatch.erase (idc, p)
      inflight := addEvents s.inflight idc
        (if (idc, p) ∈ s.childWatch then [⟨.child, p⟩] else []) } := by
  unfold State.fireChild
  split
  · rfl
  · next h => rw [Finset.erase_eq_of_notMem h, addEvents_nil]

theorem fireDeleted_eq (s : State) (idc p : Bytes) :
    s.fireDeleted idc p = { s with
      dataWatch := s.dataWatch.erase (idc, p)
      childWatch := s.childWatch.erase (idc, p)
      inflight := addEvents s.inflight idc
        (if (idc, p) ∈ s.dataWatch ∨ (idc, p) ∈ s.childWatch then [⟨.deleted, p⟩] else []) } := by
  unfold State.fireDeleted
  split
  · rfl
  · next h =>
    rw [not_or] at h
    rw [Finset.erase_eq_of_notMem h.1, Finset.erase_eq_of_notMem h.2, addEvents_nil]

theorem tree_of_ne {idc idc' : Bytes} (t : ZkTree) (h : idc' ≠ idc) :
    (s.setTree idc t).trees idc' = s.trees idc' := Function.update_of_ne h _ _

theorem tree_self {idc : Bytes} (t : ZkTree) : (s.setTree idc t).trees idc = t :=
  Function.update_self _ _ _

/-- What is known of the other nodes when only `q` in the tree of `idc` changed. -/
theorem lookup_setTree {idc q : Bytes} {t : ZkTree}
    (h : ∀ p, p ≠ q → t.nodes.lookup p = (s.trees idc).nodes.lookup p) {idc' p : Bytes}
    (hne : (idc', p) ≠ (idc, q)) :
    ((s.setTree idc t).trees idc').nodes.lookup p = (s.trees idc').nodes.lookup p := by
  by_cases hi : idc' = idc
  · subst hi
    rw [tree_self]
    exact h p (fun hp => hne (by rw [hp]))
  · rw [tree_of_ne t hi]

theorem mem_setTree {idc q : Bytes} {t : ZkTree}
    (h : ∀ p, p ≠ q → t.nodes.lookup p = (s.trees idc).nodes.lookup p) {idc' p : Bytes}
    (hne : (idc', p) ≠ (idc, q)) :
    p ∈ ((s.setTree idc t).trees idc').nodes ↔ p ∈ (s.trees idc').nodes := by
  rw [← Finmap.lookup_isSome, lookup_setTree h hne, Finmap.lookup_isSome]

/-- A node whose parent is another one is not `q`. -/
theorem pair_ne_of_parent {idc idc' p q q' : Bytes} (hne : (idc', p) ≠ (idc, zkParent q))
    (hq' : zkParent q' = p) : (idc', q') ≠ (idc, q) := by
  intro he
  obtain ⟨rfl, rfl⟩ := Prod.mk.inj he
  exact hne (by rw [hq'])

theorem reported_set {idc q d : Bytes} {t : ZkTree} (h : (s.trees idc).set q d = .ok t) :
    Reported s ((s.setTree idc t).fireChanged idc q) := by
  obtain ⟨hq, -, hnodes⟩ := ZkTree.set_ok h
  have hoff : ∀ p, p ≠ q → t.nodes.lookup p = (s.trees idc).nodes.lookup p := fun p hp => by
    rw [hnodes, Finmap.lookup_insert_of_ne _ hp]
  have hmem : ∀ idc' p, p ∈ ((s.setTree idc t).trees idc').nodes ↔ p ∈ (s.trees idc').nodes := by
    intro idc' p
    by_cases hpq : (idc', p) = (idc, q)
    · obtain ⟨rfl, rfl⟩ := Prod.mk.inj hpq
      rw [tree_self, hnodes, Finmap.mem_insert]
      exact ⟨fun _ => hq, Or.inr⟩
    · exact mem_setTree hoff hpq
  rw [fireChanged_eq]
  refine ⟨rfl, rfl, rfl, rfl, rfl, rfl, fun _ => subset_addEvents _ _ _ _, fun idc' p hp => ?_,
    fun _ _ hp => Or.inl hp, fun idc' p hp _ => lookup_setTree hoff (Finset.mem_erase.mp hp).1,
    fun _ _ _ hp => (hmem _ _).mpr hp, fun _ _ _ q' _ _ => hmem _ q'⟩
  by_cases hpq : (idc', p) = (idc, q)
  · obtain ⟨rfl, rfl⟩ := Prod.mk.inj hpq
    refine Or.inr (Or.inl (mem_addEvents _ _ ?_))
    rw [if_pos (show (idc', p) ∈ (s.setTree idc' t).dataWatch from hp)]
    simp
  · exact Or.inl (Finset.mem_erase.mpr ⟨hpq, hp⟩)

theorem reported_create {idc q d : Bytes} {t : ZkTree} (h : (s.trees idc).create q d = .ok t) :
    Reported s ((s.setTree idc t).fireChild idc (zkParent q)) := by
  obtain ⟨-, -, -, hq, hnodes⟩ := ZkTree.create_ok h
  have hoff : ∀ p, p ≠ q → t.nodes.lookup p = (s.trees idc).nodes.lookup p := fun p hp => by
    rw [hnodes, Finmap.lookup_insert_of_ne _ hp]
  -- a node that is there is not the new one
  have hne : ∀ idc' p, p ∈ (s.trees idc').nodes → (idc', p) ≠ (idc, q) := by
    rintro idc' p hp he
    obtain ⟨rfl, rfl⟩ := Prod.mk.inj he
    exact hq hp
  rw [fireChild_eq]
  refine ⟨rfl, rfl, rfl, rfl, rfl, rfl, fun _ => subset_addEvents _ _ _ _, fun _ _ hp => Or.inl hp,
    fun idc' p hp => ?_, fun idc' p _ hp => lookup_setTree hoff (hne idc' p hp),
    fun idc' p _ hp => (mem_setTree hoff (hne idc' p hp)).mpr hp,
    fun idc' p hp q' _ hq' => mem_setTree hoff (pair_ne_of_parent (Finset.mem_erase.mp hp).1 hq')⟩
  by_cases hpq : (idc', p) = (idc, zkParent q)
  · obtain ⟨rfl, rfl⟩ := Prod.mk.inj hpq
    refine Or.inr (Or.inl (mem_addEvents _ _ ?_))
    rw [if_pos (show (idc', zkParent q) ∈ (s.setTree idc' t).childWatch from hp)]
    simp
  · exact Or.inl (Finset.mem_erase.mpr ⟨hpq, hp⟩)

theorem reported_delete {idc q : Bytes} {t : ZkTree} (h : (s.trees idc).delete q = .ok t) :
    Reported s (((s.setTree idc t).fireDeleted idc q).fireChild idc (zkParent q)) := by
  obtain ⟨-, hq, -, hnodes⟩ := ZkTree.delete_ok h
  have hoff : ∀ p, p ≠ q → t.nodes.lookup p = (s.trees idc).nodes.lookup p := fun p hp => by
    rw [hnodes, Finmap.lookup_erase_ne hp]
  have hgone : q ∉ ((s.setTree idc t).trees idc).nodes := by
    rw [tree_self, hnodes, Finmap.mem_erase]
    exact fun hm => hm.1 rfl
  rw [fireDeleted_eq, fireChild_eq]
  refine ⟨rfl, rfl, rfl, rfl, rfl, rfl, fun idc' => ?_, fun idc' p hp => ?_, fun idc' p hp => ?_,
    fun idc' p hp _ => lookup_setTree hoff (Finset.mem_erase.mp hp).1, fun idc' p hp hm => ?_,
    fun idc' p hp q' _ hq' => mem_setTree hoff (pair_ne_of_parent (Finset.mem_erase.mp hp).1 hq')⟩
  · exact List.Subset.trans (subset_addEvents _ _ _ _) (subset_addEvents _ _ _ _)
  · by_cases hpq : (idc', p) = (idc, q)
    · obtain ⟨rfl, rfl⟩ := Prod.mk.inj hpq
      refine Or.inr (Or.inr ⟨subset_addEvents _ _ _ _ (mem_addEvents _ _ ?_), hgone⟩)
      rw [if_pos (Or.inl (show (idc', p) ∈ (s.setTree idc' t).dataWatch from hp))]
      simp
    · exact Or.inl (Finset.mem_erase.mpr ⟨hpq, hp⟩)
  · by_cases hpq : (idc', p) = (idc, q)
    · obtain ⟨rfl, rfl⟩ := Prod.mk.inj hpq
      refine Or.inr (Or.inr (subset_addEvents _ _ _ _ (mem_addEvents _ _ ?_)))
      rw [if_pos (Or.inr (show (idc', p) ∈ (s.setTree idc' t).childWatch from hp))]
      simp
    · have hp' : (idc', p) ∈ (s.setTree idc t).childWatch.erase (idc, q) :=
        Finset.mem_erase.mpr ⟨hpq, hp⟩
      by_cases hpp : (idc', p) = (idc, zkParent q)
      · obtain ⟨rfl, rfl⟩ := Prod.mk.inj hpp
        refine Or.inr (Or.inl (mem_addEvents _ _ ?_))
        rw [if_pos hp']
        simp
      · exact Or.inl (Finset.mem_erase.mpr ⟨hpp, hp'⟩)
  · exact (mem_setTree hoff (Finset.mem_erase.mp (Finset.mem_erase.mp hp).2).1).mpr hm

end

end QConf.Agent
