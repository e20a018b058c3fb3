import QConf.Agent.Refresh

/-!
# The table follows ZooKeeper

The two coherence results.  A node or batch key whose table value is not what
ZooKeeper holds has an event on its way, or is queued, or is being processed, in
every state of every run.  For a service the same holds in the runs whose steps
are `Kept`; the closed run at the end shows how a change of a child is lost while
the service is loaded for the first time.
-/

namespace QConf.Agent

open ByteCodec

/-- An event for the path is in flight or being handled. -/
def EventFor (s : State) (idc path : Bytes) : Prop :=
  (∃ e ∈ s.inflight idc, e.path = path) ∨ ∃ h, s.handler idc = some h ∧ h.event.path = path

section

variable {conf : List Bytes} {T : Target} {s : State}

/-! ### Which events test a key -/

/-- The paths of the events that test the key of `T`. -/
def Target.Concerns (T : Target) (path : Bytes) : Prop :=
  path = T.path ∨ (T.kind = .service ∧ ∃ c, path = T.path ++ slash :: c)

theorem Target.of_key_eq {k : Kind} {path : Bytes} (h : tblkeyOf k.dataType T.idc path = T.key) :
    k = T.kind ∧ path = T.path := by
  obtain ⟨ht, hp⟩ := tblkeyOf_path_inj k.hasPath T.kind.hasPath h
  refine ⟨?_, hp⟩
  revert ht
  cases k <;> cases T.kind <;> decide

theorem Target.concerns_of_check {e : Event} {c : Check} (hc : c ∈ checksOf T.idc e)
    (hkey : c.key = T.key) : T.Concerns e.path := by
  have hown : ∀ k : Kind, c = Check.of (tblkeyOf k.dataType T.idc e.path) → T.Concerns e.path := by
    rintro k rfl
    exact Or.inl (Target.of_key_eq (k := k) hkey).2
  unfold checksOf at hc
  cases htype : e.type with
  | created =>
    rw [htype] at hc
    exact absurd hc (by simp [processCreatedEvent])
  | deleted =>
    rw [htype] at hc
    simp only [processDeletedEvent, List.mem_cons, List.not_mem_nil, or_false] at hc
    rcases hc with hc | hc | hc
    · exact hown .node hc
    · exact hown .service hc
    · exact hown .batch hc
  | child =>
    rw [htype] at hc
    simp only [processChildEvent, List.mem_cons, List.not_mem_nil, or_false] at hc
    rcases hc with hc | hc
    · exact hown .service hc
    · exact hown .batch hc
  | changed =>
    rw [htype] at hc
    rcases List.mem_cons.mp hc with hc | hc
    · exact hown .node hc
    · split at hc
      · exact absurd hc (by simp)
      · next parent name hs =>
        rw [List.mem_singleton] at hc
        subst hc
        obtain ⟨hk, hp⟩ := Target.of_key_eq (k := .service) hkey
        exact Or.inr ⟨hk.symm, name, by rw [← hp]; exact (splitLast_some hs).1⟩

/-- A signal is an event that concerns the key. -/
theorem Signal.event (hi : Inv conf T s) (h : Signal T s) :
    ∃ path, T.Concerns path ∧ EventFor s T.idc path := by
  rcases h with ⟨e, he, c, hc, hkey⟩ | ⟨hd, hh, hcounts⟩
  · exact ⟨e.path, T.concerns_of_check hc hkey, Or.inl ⟨e, he, rfl⟩⟩
  · -- the tests of a handler are tests of its event
    have hsuf := (hi.checks T.idc hd hh).subset
    have hex : ∃ c ∈ hd.checks, c.key = T.key := by
      unfold Handler.Counts at hcounts
      cases hck : hd.checks with
      | nil => rw [hck] at hcounts; exact absurd hcounts (by simp)
      | cons c rest =>
        rw [hck] at hcounts
        rcases hcounts with hc | ⟨c', hc', hkey⟩
        · refine ⟨c, List.mem_cons_self, ?_⟩
          cases hst : hd.stage <;> rw [hst] at hc
          · exact hc
          · exact hc.1
          · exact hc
        · exact ⟨c', List.mem_cons_of_mem _ hc', hkey⟩
    obtain ⟨c, hc, hkey⟩ := hex
    exact ⟨hd.event.path, T.concerns_of_check (hsuf hc) hkey, Or.inr ⟨hd, hh, rfl⟩⟩

theorem Half.event (hi : Inv conf T s) (h : Half T s) :
    ∃ path, T.Concerns path ∧ EventFor s T.idc path := by
  obtain ⟨hd, c, rest, hh, hck, -, hkey, -⟩ := h
  have hmem : c ∈ checksOf T.idc hd.event :=
    (hi.checks T.idc hd hh).subset (by rw [hck]; exact List.mem_cons_self)
  exact ⟨hd.event.path, T.concerns_of_check hmem hkey, Or.inr ⟨hd, hh, rfl⟩⟩

/-! ### What is fresh is right -/

theorem zip_filter_up {f : Bytes → Option Status} :
    ∀ (names : List Bytes) (status : List Status), status.length = names.length →
      (∀ (i : Nat) (c : Bytes) (st : Status), names[i]? = some c → status[i]? = some st → f c = some st) →
      ((names.zip status).filter (fun p => p.2 = Status.up)).map Prod.fst =
        names.filter (fun c => f c = some .up) := by
  intro names
  induction names with
  | nil => intro status _ _; rfl
  | cons c names ih =>
    intro status hlen hf
    cases status with
    | nil => exact absurd hlen (by simp)
    | cons st status =>
      have hc : f c = some st := hf 0 c st rfl rfl
      have htail := ih status (by simpa using hlen) (fun i c st hi hst => hf (i + 1) c st hi hst)
      by_cases hst : st = .up
      · subst hst
        simp [hc, htail]
      · simp [hc, hst, htail]

theorem chdnodevalToTblval_eq (key : Bytes) (names : List Bytes) (status : List Status) :
    chdnodevalToTblval key names status = batchnodevalToTblval key
      (((names.zip status).filter (fun p => p.2 = Status.up)).map Prod.fst) := by
  simp [chdnodevalToTblval, batchnodevalToTblval, List.flatMap_map]

theorem Fresh.now {v : Bytes} (h : Fresh T s (.value v)) : T.now s = some v := by
  obtain ⟨kind, idc, path⟩ := T
  cases kind with
  | node => exact h.1
  | batch => exact h.1
  | service =>
    obtain ⟨names, status, hlen, hv, hl⟩ := h
    have hup := zip_filter_up (f := statusNow s idc path) names status hlen
      (fun i c st hi hst => (hl.status_eq i c st hi hst).1)
    show serviceNow s idc path = some v
    rw [serviceNow, if_pos hl.mem, hv, chdnodevalToTblval_eq, hup, hl.names_eq]
    rfl

/-- **What the invariant says of a stale value.** -/
theorem Inv.stale {v : Bytes} (hi : Inv conf T s) (hv : s.tbl.lookup T.key = some v)
    (hne : T.now s ≠ some v) :
    (∃ path, T.Concerns path ∧ EventFor s T.idc path) ∨ T.key ∈ s.need ∨
      ∃ ph, s.work = some ⟨T.key, ph⟩ := by
  by_cases hw : ∃ ph, s.work = some ⟨T.key, ph⟩
  · exact Or.inr (Or.inr hw)
  · rcases hi.table v hv (fun ph hp => hw ⟨ph, hp⟩) with (hf | hn | hs) | hh
    · exact absurd hf.now hne
    · exact Or.inr (Or.inl hn)
    · exact Or.inl (hs.event hi)
    · exact Or.inl (hh.event hi)

/-! ### Nodes and batches -/

/-- Only the key of a service is tested behind a pending test of another key. -/
theorem check_pend {idc : Bytes} {e : Event} {c : Check} (hc : c ∈ checksOf idc e) :
    c.pend = c.key ∨ ∃ parent, c.key = serviceKey idc parent := by
  have hof : ∀ key, c = Check.of key → c.pend = c.key := by
    rintro key rfl
    rfl
  unfold checksOf at hc
  cases htype : e.type <;> rw [htype] at hc
  · exact absurd hc (by simp [processCreatedEvent])
  · simp only [processDeletedEvent, List.mem_cons, List.not_mem_nil, or_false] at hc
    rcases hc with hc | hc | hc <;> exact Or.inl (hof _ hc)
  · rcases List.mem_cons.mp hc with hc | hc
    · exact Or.inl (hof _ hc)
    · split at hc
      · exact absurd hc (by simp)
      · next parent _ _ =>
        rw [List.mem_singleton] at hc
        subst hc
        exact Or.inr ⟨parent, rfl⟩
  · simp only [processChildEvent, List.mem_cons, List.not_mem_nil, or_false] at hc
    rcases hc with hc | hc <;> exact Or.inl (hof _ hc)

/-- No step loses a change of a node or of a batch. -/
theorem Inv.kept (hi : Inv conf T s) (hkind : T.kind ≠ .service) (a : Action) : Kept T s a where
  test idc h c rest _ hh hck _ hkey hne _ := by
    have hmem : c ∈ checksOf idc h.event :=
      (hi.checks idc h hh).subset (by rw [hck]; exact List.mem_cons_self)
    rcases check_pend hmem with hp | ⟨parent, hp⟩
    · exact absurd (hp.trans hkey) hne
    · exfalso
      -- the keys of a service have a type of their own
      rw [hp, serviceKey, Target.key, tblkeyOf_hasPath (Or.inr (Or.inl rfl)),
        tblkeyOf_hasPath T.kind.hasPath, List.cons.injEq] at hkey
      revert hkind
      have htype := hkey.1
      revert htype
      cases T.kind <;> decide
  status hk := absurd hk hkind

theorem inv_of_reaches_all {trees : Bytes → ZkTree} (hT : T.Proper) (hkind : T.kind ≠ .service)
    (h : Transition.Reaches (step conf) (fun _ _ => True) (State.init trees) s) : Inv conf T s :=
  h.invariant (Inv conf T) (inv_init conf T trees)
    (fun hi _ hs => hi.step hT (hi.kept hkind _) hs)

/-- **Cache coherence for nodes and batches.**  In every state that any run of
the agent and the servers reaches, a key whose table value is not what ZooKeeper
holds has an event for its path in flight or being handled, or is queued, or is
the key being processed. -/
theorem table_follows_zookeeper (conf : List Bytes) (trees : Bytes → ZkTree) (s : State)
    (hreach : Transition.Reaches (step conf) (fun _ _ => True) (State.init trees) s)
    (T : Target) (hT : T.Proper) (hkind : T.kind = .node ∨ T.kind = .batch) (v : Bytes)
    (hv : s.tbl.lookup T.key = some v) (hstale : T.now s ≠ some v) :
    EventFor s T.idc T.path ∨ T.key ∈ s.need ∨ ∃ ph, s.work = some ⟨T.key, ph⟩ := by
  have hns : T.kind ≠ .service := by
    rcases hkind with h | h <;> rw [h] <;> decide
  rcases (inv_of_reaches_all hT hns hreach).stale hv hstale with ⟨path, hc, he⟩ | h
  · rcases hc with rfl | ⟨hk, -⟩
    · exact Or.inl he
    · exact absurd hk hns
  · exact Or.inr h

/-- The idc `i`, the only one configured in the runs below. -/
def idcI : Bytes := [105]
/-- The path `/a`. -/
def pathA : Bytes := [47, 97]
/-- The path `/a`, a NUL byte and `b`: as a C string it is `/a`. -/
def pathNul : Bytes := [47, 97, 0, 98]

/-- A client asks for a node, and the agent loads it. -/
def loadNode (path : Bytes) : List Action :=
  [.message dataTypeNode idcI path, .pop, .addPending, .fetch [], .write true, .delPending]

/-- The started agent with empty trees. -/
def emptyState : State := State.init (fun _ => ZkTree.empty)

/-- A state of a closed run, with what can be decided of it. -/
theorem reaches_of_any (acts : List Action) (p : State → Prop) [DecidablePred p]
    (h : (Transition.run (step [idcI]) emptyState acts).any (fun s => decide (p s)) = true) :
    ∃ s, Transition.Reaches (step [idcI]) (fun _ _ => True) emptyState s ∧ p s := by
  obtain ⟨s, hr, hp⟩ := (Option.any_eq_true _ _).mp h
  exact ⟨s, Transition.reaches_of_run hr, of_decide_eq_true hp⟩

theorem table_follows_zookeeper_changed :
    ∃ s v, s.tbl.lookup (nodeKey idcI pathA) = some v ∧ nodeNow s idcI pathA ≠ some v ∧
      (EventFor s idcI pathA ∨ nodeKey idcI pathA ∈ s.need ∨
        ∃ ph, s.work = some ⟨nodeKey idcI pathA, ph⟩) := by
  let v := nodevalToTblval (nodeKey idcI pathA) [120]
  obtain ⟨s, hreach, hv, hne⟩ := reaches_of_any
    (.zkCreate idcI pathA [120] :: (loadNode pathA ++ [.zkSet idcI pathA [121]]))
    (fun s => s.tbl.lookup (nodeKey idcI pathA) = some v ∧ nodeNow s idcI pathA ≠ some v)
    (by decide)
  exact ⟨s, v, hv, hne, table_follows_zookeeper [idcI] _ s hreach ⟨.node, idcI, pathA⟩
    ⟨by decide, by decide, by decide⟩ (Or.inl rfl) v hv hne⟩

/-- **A path with a NUL byte.**  The agent reads and watches `/a`; when that node
changes, the event is about `/a` and finds no key, so the value stays in the table
with nothing on its way. -/
theorem nul_path_goes_stale :
    ∃ s v, Transition.Reaches (step [idcI]) (fun _ _ => True) emptyState s ∧
      idcI.length ≤ 255 ∧ pathNul.length ≤ 65535 ∧
      s.tbl.lookup (nodeKey idcI pathNul) = some v ∧ nodeNow s idcI pathNul ≠ some v ∧
      ((s.trees idcI).nodes.lookup pathA).map (nodevalToTblval (nodeKey idcI pathNul)) ≠ some v ∧
      (∀ path, ¬ EventFor s idcI path) ∧ nodeKey idcI pathNul ∉ s.need ∧ s.work = none := by
  let v := nodevalToTblval (nodeKey idcI pathNul) [120]
  obtain ⟨s, hreach, hv, hne, hne', hfly, hh, hneed, hw⟩ := reaches_of_any
    (.zkCreate idcI pathA [120] :: (loadNode pathNul ++ [.zkSet idcI pathA [121],
      .deliver idcI, .handle idcI, .handle idcI, .handle idcI, .handle idcI, .handle idcI]))
    (fun s => s.tbl.lookup (nodeKey idcI pathNul) = some v ∧ nodeNow s idcI pathNul ≠ some v ∧
      ((s.trees idcI).nodes.lookup pathA).map (nodevalToTblval (nodeKey idcI pathNul)) ≠ some v ∧
      s.inflight idcI = [] ∧ s.handler idcI = none ∧ nodeKey idcI pathNul ∉ s.need ∧ s.work = none)
    (by decide)
  refine ⟨s, v, hreach, by decide, by decide, hv, hne, hne', ?_, hneed, hw⟩
  rintro path (⟨e, he, -⟩ | ⟨h, hh', -⟩)
  · rw [hfly] at he
    exact absurd he (by simp)
  · rw [hh] at hh'
    exact absurd hh' (by simp)

/-! ### Services -/

/-- **Cache coherence for services**, in the runs whose steps lose no change of
the key: the status of every listed child can be read, and no handler that asked
for the pending key of a child looks at the table while the service is loaded for
the first time. -/
theorem service_follows_zookeeper (conf : List Bytes) (trees : Bytes → ZkTree) (s : State)
    (idc path : Bytes) (hT : Target.Proper ⟨.service, idc, path⟩)
    (hreach : Transition.Reaches (step conf) (Kept ⟨.service, idc, path⟩) (State.init trees) s)
    (v : Bytes) (hv : s.tbl.lookup (serviceKey idc path) = some v)
    (hstale : serviceNow s idc path ≠ some v) :
    (EventFor s idc path ∨ ∃ c, EventFor s idc (path ++ slash :: c)) ∨
      serviceKey idc path ∈ s.need ∨ ∃ ph, s.work = some ⟨serviceKey idc path, ph⟩ := by
  rcases (inv_of_reaches hT hreach).stale hv hstale with ⟨p, hc, he⟩ | h
  · rcases hc with rfl | ⟨-, c, rfl⟩
    · exact Or.inl (Or.inl he)
    · exact Or.inl (Or.inr ⟨c, he⟩)
  · exact Or.inr h

/-- The path `/a/c`. -/
def pathAC : Bytes := [47, 97, 47, 99]

/-- A test for `Kept`: no handler runs, and the statuses are read of a service
without children. -/
def keptTest (s : State) : Action → Bool
  | .handle _ => false
  | .fetchStatus => decide (s.work = some ⟨serviceKey idcI pathA, .listed [] []⟩)
  | _ => true

theorem kept_of_test (s : State) (a : Action) (h : keptTest s a = true) :
    Kept ⟨.service, idcI, pathA⟩ s a where
  test idc _ _ _ ha := by
    subst ha
    exact absurd h (by simp [keptTest])
  status _ names status c ha hw hc := by
    subst ha
    have hsame := (of_decide_eq_true h).symm.trans hw
    simp only [Option.some.injEq, Work.mk.injEq, Phase.listed.injEq] at hsame
    rw [← hsame.2.1] at hc
    exact absurd hc (by simp)

/-- A service without children was loaded, and then a child came up. -/
theorem service_follows_zookeeper_child :
    ∃ s v, s.tbl.lookup (serviceKey idcI pathA) = some v ∧ serviceNow s idcI pathA ≠ some v ∧
      ((EventFor s idcI pathA ∨ ∃ c, EventFor s idcI (pathA ++ slash :: c)) ∨
        serviceKey idcI pathA ∈ s.need ∨ ∃ ph, s.work = some ⟨serviceKey idcI pathA, ph⟩) := by
  let acts : List Action := [.zkCreate idcI pathA [], .message dataTypeService idcI pathA, .pop,
    .addPending, .fetch [], .fetchStatus, .write true, .delPending, .zkCreate idcI pathAC [48]]
  let v := batchnodevalToTblval (serviceKey idcI pathA) []
  have hrun : (Transition.run (Transition.guarded keptTest (step [idcI])) emptyState acts).any (fun s =>
      decide (s.tbl.lookup (serviceKey idcI pathA) = some v ∧ serviceNow s idcI pathA ≠ some v)) =
      true := by decide
  obtain ⟨s, hr, hp⟩ := (Option.any_eq_true _ _).mp hrun
  obtain ⟨hv, hne⟩ := of_decide_eq_true hp
  exact ⟨s, v, hv, hne, service_follows_zookeeper [idcI] _ s idcI pathA
    ⟨by decide, by decide, by decide⟩ (Transition.Reaches.guardedRun keptTest kept_of_test .start hr) v hv hne⟩

/-- **A change of a child is lost while its service is loaded for the first time.**
The status of `/a/c` is read, then it goes down; the handler finds the key of the
node `/a/c` not pending and the service not in the table yet, and drops the event.
Then the old list is written. -/
theorem first_load_loses_status :
    ∃ s v, Transition.Reaches (step [idcI]) (fun _ _ => True) emptyState s ∧
      s.tbl.lookup (serviceKey idcI pathA) = some v ∧ serviceNow s idcI pathA ≠ some v ∧
      (∀ path, ¬ EventFor s idcI path) ∧ serviceKey idcI pathA ∉ s.need ∧ s.work = none := by
  let v := batchnodevalToTblval (serviceKey idcI pathA) [[99]]
  obtain ⟨s, hreach, hv, hne, hfly, hh, hneed, hw⟩ := reaches_of_any
    [.zkCreate idcI pathA [], .zkCreate idcI pathAC [48], .message dataTypeService idcI pathA, .pop,
      .addPending, .fetch [[99]], .fetchStatus, .zkSet idcI pathAC [50], .deliver idcI, .handle idcI,
      .handle idcI, .handle idcI, .handle idcI, .handle idcI, .fetchStatus, .write true, .delPending]
    (fun s => s.tbl.lookup (serviceKey idcI pathA) = some v ∧ serviceNow s idcI pathA ≠ some v ∧
      s.inflight idcI = [] ∧ s.handler idcI = none ∧ serviceKey idcI pathA ∉ s.need ∧ s.work = none)
    (by decide)
  refine ⟨s, v, hreach, hv, hne, ?_, hneed, hw⟩
  rintro path (⟨e, he, -⟩ | ⟨h, hh', -⟩)
  · rw [hfly] at he
    exact absurd he (by simp)
  · rw [hh] at hh'
    exact absurd hh' (by simp)

end

end QConf.Agent
