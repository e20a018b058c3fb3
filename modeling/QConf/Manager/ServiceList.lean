import QConf.Manager.Release
import QConf.Manager.Services

/-!
# The service list becomes the one given

`zk_services_set` registers the node, lists its children, sets or creates a child for every
service given and deletes the other children.  Without faults the list read back is exactly
the one given, a second call changes nothing, and outside the node, its children, its
registration and what was missing above them the tree is as it was
(`services_set_exact`).

`zk_path` lets paths through that ZooKeeper refuses, with two slashes in a row or a component
`.`; for these the call fails behind the registration (`double_slash_services_refused`).
-/

namespace QConf.Manager

/-! ### Paths and their children -/

section

variable {md5 : Bytes → Bytes} {t t' : ZkTree} {path : Bytes}

theorem servPath_ne_root (path serv : Bytes) (hne : path ≠ []) : servPath path serv ≠ rootPath := by
  intro h
  have hlen := congrArg List.length h
  rw [servPath, List.length_append, List.length_cons, rootPath, List.length_singleton] at hlen
  exact hne (List.length_eq_zero_iff.mp (by omega))

theorem servPath_inj {path a b : Bytes} (h : servPath path a = servPath path b) : a = b :=
  (List.cons.inj (List.append_cancel_left h)).2

theorem mem_children_iff (hne : path ≠ []) (hroot : path ≠ rootPath) {c : Bytes} :
    c ∈ t.children path ↔ slash ∉ c ∧ servPath path c ∈ t.nodes := by
  rw [ZkTree.mem_children]
  constructor
  · rintro ⟨q, hq, hqr, hpar, rfl⟩
    obtain ⟨hqc, -, -, hname⟩ := ZkTree.eq_childPath (t.valid q hq) hqr
    rw [hpar, childPath, if_neg hroot] at hqc
    exact ⟨hname, by rw [servPath, ← hqc]; exact hq⟩
  · rintro ⟨hc, hmem⟩
    exact ⟨_, hmem, servPath_ne_root path c hne, zkParent_append hne hc, zkName_append hc⟩

/-- The children of a node that is not there. -/
theorem children_of_notMem (hne : path ≠ []) (hroot : path ≠ rootPath) (h : path ∉ t.nodes) :
    t.children path = ∅ := by
  rw [Finset.eq_empty_iff_forall_notMem]
  intro c hc
  obtain ⟨hslash, hmem⟩ := (mem_children_iff hne hroot).mp hc
  have hpar := t.closed _ hmem (servPath_ne_root path c hne)
  rw [servPath, zkParent_append hne hslash] at hpar
  exact h hpar

/-! ### The registration -/

theorem hexDigit_plain {n : Nat} (h : n < 16) : hexDigit n ≠ slash ∧ hexDigit n ≠ dot ∧ 0x1f ≤ hexDigit n := by
  have hall : ∀ n < 16, hexDigit n ≠ slash ∧ hexDigit n ≠ dot ∧ 0x1f ≤ hexDigit n := by decide
  exact hall n h

theorem binToHex_plain {b : Bytes} (hne : b ≠ []) : Plain (binToHex b) := by
  refine ⟨fun h => ?_, fun x hx => ?_⟩
  · cases b with
    | nil => exact hne rfl
    | cons c b => exact absurd h (by simp [binToHex])
  · obtain ⟨c, -, hc⟩ := List.mem_flatMap.mp hx
    have hlt := c.toNat_lt
    rcases List.mem_pair.mp hc with rfl | rfl
    · exact hexDigit_plain (by omega)
    · exact hexDigit_plain (by omega)

theorem getMonitorNode_valid (hmd5 : md5 path ≠ []) : isValidPath (getMonitorNode md5 path) = true :=
  isValidPath_append (by decide) (by decide) (binToHex_plain hmd5)

theorem monitorLockNode_above : Above monitorLockNode (getMonitorNode md5 path) :=
  Or.inr ⟨ascii "default_instance/md5_list" ++ slash :: binToHex (md5 path), by
    rw [getMonitorNode, servGroupPrefix, List.append_assoc]
    rfl⟩

/-- A path that is not at or under the lock node is not above a registration. -/
theorem not_above_monitor (hne : path ≠ []) (h : ¬ Above monitorLockNode path) (p : Bytes) :
    ¬ Above path (getMonitorNode md5 p) := by
  intro ha
  rcases ha.total monitorLockNode_above with hb | hb
  · rcases hb with hb | ⟨c, hc⟩
    · exact h (hb ▸ Above.refl _)
    · -- the lock node has its only slash in front
      have hslash : slash ∉ monitorLockNode.tail := by decide
      cases path with
      | nil => exact hne rfl
      | cons a path =>
        refine hslash ?_
        rw [hc, List.cons_append, List.tail_cons]
        exact List.mem_append_right _ List.mem_cons_self
  · exact h hb

/-- **Registering**: the node is registered afterwards, and nothing but the registration and what
was missing above it is new. -/
theorem zkMonitorNodeCreate_quiet (hmd5 : md5 path ≠ []) (hlen : path.length ≤ zkMaxData) (t : ZkTree) :
    ∃ t', zkMonitorNodeCreate md5 (.quiet t) path = (.ok, .quiet t') ∧ Grown (getMonitorNode md5 path) t t' ∧
      getMonitorNode md5 path ∈ t'.nodes ∧ (getMonitorNode md5 path ∈ t.nodes → t' = t) := by
  have hv : isValidPath (getMonitorNode md5 path) = true := getMonitorNode_valid hmd5
  have hnul := isValidPath_nulFree hv
  by_cases hm : getMonitorNode md5 path ∈ t.nodes
  · refine ⟨t, ?_, Grown.refl _ _, hm, fun _ => rfl⟩
    have hc : t.create (getMonitorNode md5 path) path = .error .nodeExists := by
      rw [ZkTree.create, dif_pos hv, dif_pos hlen, dif_pos (ZkTree.zkParent_mem hm), if_pos hm]
    rw [zkMonitorNodeCreate, zkCreate, zkCreateFuel, zooCreate_quiet t hnul, hc]
  · obtain ⟨t', hz⟩ := (zkCreate_quiet hnul).mpr ⟨hv, hlen, hm⟩
    obtain ⟨hgrown, hok⟩ := zkCreate_grown hz
    rw [cStr_of_nulFree hnul] at hgrown hok
    refine ⟨t', ?_, hgrown, ZkTree.mem_of_lookup (hok rfl).2, fun h => absurd h hm⟩
    rw [zkMonitorNodeCreate, hz]

/-! ### The old services -/

theorem zkList_quiet (hpath : zkPath path = some path) (hv : isValidPath path = true) (t : ZkTree) :
    zkList (.quiet t) path =
      if path ∈ t.nodes then (.ok, t.children path, .quiet t) else (.errZooNotExist, ∅, .quiet t) := by
  rw [zkList, hpath]
  dsimp only
  rw [Zk.zooGetChildren, calls_quiet, ZkTree.serve, cStr_of_nulFree (isValidPath_nulFree hv), ZkTree.getChildren,
    if_pos hv]
  by_cases hm : path ∈ t.nodes
  · rw [if_pos hm, if_pos hm]
    rfl
  · rw [if_neg hm, if_neg hm]
    rfl

/-- **Listing the old services** makes a node that is missing. -/
theorem oldServices_quiet (hpath : zkPath path = some path) (hv : isValidPath path = true)
    (hroot : path ≠ rootPath) (t : ZkTree) :
    ∃ t', oldServices (.quiet t) path = (.ok, t.children path, .quiet t') ∧ Grown path t t' ∧
      path ∈ t'.nodes ∧ (path ∈ t.nodes → t' = t) := by
  have hnul := isValidPath_nulFree hv
  have hne : path ≠ [] := by
    rintro rfl
    exact absurd hv (by decide)
  rw [oldServices, zkList_quiet hpath hv]
  by_cases hm : path ∈ t.nodes
  · rw [if_pos hm]
    exact ⟨t, rfl, Grown.refl _ _, hm, fun _ => rfl⟩
  · rw [if_neg hm]
    obtain ⟨t', hz⟩ : ∃ t', zkCreate (.quiet t) path [] = (.ok, .quiet t') :=
      (zkCreate_quiet hnul).mpr ⟨hv, Nat.zero_le _, hm⟩
    obtain ⟨hgrown, hok⟩ := zkCreate_grown hz
    rw [cStr_of_nulFree hnul] at hgrown hok
    refine ⟨t', ?_, hgrown, ZkTree.mem_of_lookup (hok rfl).2, fun h => absurd h hm⟩
    dsimp only
    rw [hz, children_of_notMem hne hroot hm]

/-! ### Adding services -/

/-- The value a status is stored as. -/
def statusText (status : Int) : Bytes := integerToString status.toNat

theorem isStatus_cases {status : Int} (h : isStatus status = true) : status = 0 ∨ status = 1 ∨ status = 2 := by
  simp only [isStatus, Status.code, Bool.or_eq_true, beq_iff_eq] at h
  omega

theorem statusText_length {status : Int} (h : isStatus status = true) : (statusText status).length ≤ zkMaxData := by
  rcases isStatus_cases h with rfl | rfl | rfl <;> decide

theorem zkModify_quiet_none {p : Bytes} (hv : isValidPath p = true) {value : Bytes}
    (hs : value.length ≤ zkMaxData) (h : p ∉ t.nodes) :
    zkModify (.quiet t) p value = (.errZooNotExist, .quiet t) := by
  have hset : t.set p value = .error .noNode := by
    rw [ZkTree.set, if_pos hv, dif_pos hs, dif_neg h]
  rw [zkModify, Zk.zooSet, calls_quiet, ZkTree.serve, cStr_of_nulFree (isValidPath_nulFree hv), hset]
  rfl

/-- What a service needs to be stored under the node. -/
structure Storable (path serv : Bytes) (status : Int) : Prop where
  component : slash ∉ serv
  valid : isValidPath (servPath path serv) = true
  status : isStatus status = true

theorem Storable.check {serv : Bytes} {status : Int} (h : Storable path serv status) (hne : path ≠ []) :
    checkService serv status = true := by
  rw [checkService, h.status, Bool.and_true, Bool.not_eq_true', List.isEmpty_eq_false_iff]
  rintro rfl
  rcases isValidPath_iff.mp h.valid with hr | ⟨-, -, hlast, -⟩
  · exact servPath_ne_root path [] hne hr
  · exact hlast (by simp [servPath])

/-- **Adding a service** sets its node. -/
theorem zkServiceAdd_quiet (hpath : zkPath path = some path) (hmd5 : md5 path ≠ [])
    (hlen : path.length ≤ zkMaxData) (hmem : path ∈ t.nodes) (hreg : getMonitorNode md5 path ∈ t.nodes)
    {serv : Bytes} {status : Int} (h : Storable path serv status) :
    ∃ t', zkServiceAdd md5 (.quiet t) path serv status = (.ok, .quiet t') ∧
      t'.nodes = t.nodes.insert (servPath path serv) (statusText status) := by
  have hne : path ≠ [] := by
    rintro rfl
    exact absurd (t.valid _ hmem) (by decide)
  obtain ⟨t₁, hmon, -, -, hsame⟩ := zkMonitorNodeCreate_quiet hmd5 hlen t
  obtain rfl := hsame hreg
  have htext := statusText_length h.status
  rw [zkServiceAdd, hpath]
  dsimp only
  rw [if_pos (h.check hne), hmon]
  dsimp only
  by_cases hm : servPath path serv ∈ t₁.nodes
  · obtain ⟨t', hz, hnodes⟩ := zkModify_quiet hm htext
    refine ⟨t', ?_, hnodes⟩
    rw [show integerToString status.toNat = statusText status from rfl, hz]
  · have hpar : zkParent (servPath path serv) ∈ t₁.nodes := by
      rw [servPath, zkParent_append hne h.component]
      exact hmem
    refine ⟨t₁.put _ _ h.valid htext hpar, ?_, rfl⟩
    rw [show integerToString status.toNat = statusText status from rfl, zkModify_quiet_none h.valid htext hm]
    dsimp only
    rw [zkCreate, zkCreateFuel, zooCreate_quiet t₁ (isValidPath_nulFree h.valid),
      ZkTree.create_eq_ok h.valid htext hpar hm]

/-- The services of `pairs` are set, and nothing else changed. -/
structure Upserted (path : Bytes) (pairs : List (Bytes × Int)) (t t' : ZkTree) : Prop where
  set : ∀ serv status, (serv, status) ∈ pairs → t'.nodes.lookup (servPath path serv) = some (statusText status)
  other : ∀ q, (∀ serv status, (serv, status) ∈ pairs → q ≠ servPath path serv) →
    t'.nodes.lookup q = t.nodes.lookup q

theorem mem_of_lookup_eq {q : Bytes} (h : t'.nodes.lookup q = t.nodes.lookup q) : q ∈ t'.nodes ↔ q ∈ t.nodes := by
  rw [← Finmap.lookup_isSome, h, Finmap.lookup_isSome]

/-- **The loop over the services given.** -/
theorem addServices_quiet (hpath : zkPath path = some path) (hmd5 : md5 path ≠ [])
    (hlen : path.length ≤ zkMaxData) : ∀ (pairs : List (Bytes × Int)) (t : ZkTree), (pairs.map Prod.fst).Nodup →
    (∀ serv status, (serv, status) ∈ pairs → Storable path serv status) → path ∈ t.nodes →
    getMonitorNode md5 path ∈ t.nodes →
    ∃ t', addServices md5 path pairs (.quiet t) = (.ok, .quiet t') ∧ Upserted path pairs t t' := by
  intro pairs
  induction pairs with
  | nil => exact fun t _ _ _ _ => ⟨t, rfl, ⟨fun _ _ h => absurd h List.not_mem_nil, fun _ _ => rfl⟩⟩
  | cons p pairs ih =>
    intro t hnd hstore hmem hreg
    obtain ⟨serv, status⟩ := p
    obtain ⟨hfresh, hnd⟩ := List.nodup_cons.mp hnd
    obtain ⟨t₁, hadd, hnodes⟩ :=
      zkServiceAdd_quiet hpath hmd5 hlen hmem hreg (hstore serv status List.mem_cons_self)
    have hkeep : ∀ q, q ∈ t.nodes → q ∈ t₁.nodes := fun q hq => by
      rw [hnodes]
      exact Finmap.mem_insert.mpr (Or.inr hq)
    obtain ⟨t', hrun, hup⟩ := ih t₁ hnd (fun s st h => hstore s st (List.mem_cons_of_mem _ h))
      (hkeep _ hmem) (hkeep _ hreg)
    refine ⟨t', by rw [addServices, hadd]; exact hrun, ⟨fun s st h => ?_, fun q hq => ?_⟩⟩
    · rcases List.mem_cons.mp h with heq | h
      · obtain ⟨rfl, rfl⟩ := Prod.mk.inj heq
        -- no later service has this name
        have hlater : ∀ s' st', (s', st') ∈ pairs → servPath path s ≠ servPath path s' := by
          rintro s' st' h' he
          obtain rfl := servPath_inj he
          exact hfresh (List.mem_map.mpr ⟨_, h', rfl⟩)
        rw [hup.other _ hlater, hnodes, Finmap.lookup_insert]
      · exact hup.set s st h
    · rw [hup.other q (fun s st h => hq s st (List.mem_cons_of_mem _ h)), hnodes,
        Finmap.lookup_insert_of_ne _ (hq serv status List.mem_cons_self)]

/-- **The loop over the services that are left.** -/
theorem deleteServices_quiet : ∀ (servs : List Bytes) (t : ZkTree), path ≠ [] →
    (∀ serv ∈ servs, isValidPath (servPath path serv) = true ∧ Leaf t (servPath path serv)) →
    ∃ t', deleteServices path servs (.quiet t) = (.ok, .quiet t') ∧
      Erased (fun q => ∃ serv ∈ servs, q = servPath path serv) t t' := by
  intro servs
  induction servs with
  | nil => exact fun t _ _ => ⟨t, rfl, Erased.of_none (fun q ⟨_, h, _⟩ => absurd h List.not_mem_nil)⟩
  | cons serv servs ih =>
    intro t hne h
    obtain ⟨hv, hleaf⟩ := h serv List.mem_cons_self
    obtain ⟨t₁, hz, he⟩ := zkDelete_leaf hv (servPath_ne_root path serv hne) hleaf
    obtain ⟨t', hrun, he'⟩ := ih t₁ hne (fun s hs =>
      ⟨(h s (List.mem_cons_of_mem _ hs)).1, he.leaf (h s (List.mem_cons_of_mem _ hs)).2⟩)
    refine ⟨t', by rw [deleteServices, hz]; exact hrun, (he.trans he').congr (fun q _ => ?_)⟩
    constructor
    · rintro (rfl | ⟨s, hs, rfl⟩)
      · exact ⟨serv, List.mem_cons_self, rfl⟩
      · exact ⟨s, List.mem_cons_of_mem _ hs, rfl⟩
    · rintro ⟨s, hs, rfl⟩
      rcases List.mem_cons.mp hs with rfl | hs
      · exact Or.inl rfl
      · exact Or.inr ⟨s, hs, rfl⟩

/-! ### The tree after the call -/

/-- What the callers give: a path that `zk_path` makes of `node`, that ZooKeeper accepts and that is
not at or under the lock node, and services with names that are components and with statuses. -/
structure Request (md5 : Bytes → Bytes) (node path : Bytes) (servs : Services) : Prop where
  zkPath : zkPath node = some path
  valid : isValidPath path = true
  outside : ¬ Above monitorLockNode path
  fits : path.length ≤ zkMaxData
  md5 : md5 path ≠ []
  nonempty : servs.keys ≠ ∅
  store : ∀ serv status, servs.lookup serv = some status → Storable path serv status

section

variable {node : Bytes} {servs : Services}

theorem Request.ne_nil (h : Request md5 node path servs) : path ≠ [] := by
  rintro rfl
  exact absurd h.valid (by decide)

theorem Request.ne_root (h : Request md5 node path servs) : path ≠ rootPath := by
  obtain ⟨-, -, hnorm⟩ := zkPath_some h.zkPath
  obtain ⟨hne, rfl⟩ := pathNormalize_some hnorm
  intro hr
  exact hne (List.cons.inj hr).2

theorem Request.idem (h : Request md5 node path servs) : Manager.zkPath path = some path :=
  zkPath_idem h.zkPath (isValidPath_nulFree h.valid)

theorem map_fst_pairsOf (servs : Services) : (pairsOf servs).map Prod.fst = sortBytes servs.keys := by
  rw [pairsOf, List.map_map]
  exact (List.map_congr_left (fun _ _ => rfl)).trans (List.map_id _)

theorem mem_pairsOf {serv : Bytes} {status : Int} : (serv, status) ∈ pairsOf servs ↔ servs.lookup serv = some status := by
  rw [pairsOf, List.mem_map]
  constructor
  · rintro ⟨name, hname, heq⟩
    obtain ⟨rfl, rfl⟩ := Prod.mk.inj heq
    rw [mem_sortBytes, Finmap.mem_keys] at hname
    obtain ⟨v, hv⟩ := Finmap.mem_iff.mp hname
    rw [hv, Option.getD_some]
  · intro h
    refine ⟨serv, ?_, by rw [h, Option.getD_some]⟩
    rw [mem_sortBytes, Finmap.mem_keys]
    exact Finmap.mem_iff.mpr ⟨status, h⟩

theorem path_above_servPath (path c : Bytes) : Above path (servPath path c) := Or.inr ⟨c, rfl⟩

theorem not_servPath_above (path c : Bytes) : ¬ Above (servPath path c) path := by
  intro h
  have hlen := h.length_le
  rw [servPath, List.length_append, List.length_cons] at hlen
  omega

theorem Grown.children_eq {p : Bytes} (h : Grown p t t') (hne : path ≠ []) (hroot : path ≠ rootPath)
    (hp : ∀ c, ¬ Above (servPath path c) p) : t'.children path = t.children path := by
  ext c
  rw [mem_children_iff hne hroot, mem_children_iff hne hroot]
  refine and_congr_right fun _ => ⟨fun hm => ?_, h.mem⟩
  by_contra hn
  exact hp c (h.new _ hm hn)

theorem Grown.leaf {p x : Bytes} (h : Grown p t t') (hx : Leaf t x) (hp : ¬ Above x p) : Leaf t' x := by
  intro q hq ha
  by_cases hm : q ∈ t.nodes
  · exact hx q hm ha
  · exact absurd (ha.trans (h.new q hq hm)) hp

theorem Upserted.leaf {pairs : List (Bytes × Int)} (h : Upserted path pairs t t')
    (hpairs : ∀ serv status, (serv, status) ∈ pairs → slash ∉ serv) {c : Bytes}
    (hx : Leaf t (servPath path c)) : Leaf t' (servPath path c) := by
  intro q hq ha
  by_cases hset : ∃ serv status, (serv, status) ∈ pairs ∧ q = servPath path serv
  · obtain ⟨serv, status, hin, rfl⟩ := hset
    -- a service is below no other
    rw [servPath, servPath, above_append_iff] at ha
    rcases ha with heq | ⟨d, hd⟩
    · rw [servPath, servPath, heq]
    · refine absurd ?_ (hpairs serv status hin)
      rw [(List.cons.inj hd).2]
      exact List.mem_append_right _ List.mem_cons_self
  · have hkeep := h.other q (fun serv status hin he => hset ⟨serv, status, hin, he⟩)
    exact hx q ((mem_of_lookup_eq hkeep).mp hq) ha

/-- **The tree after a call**: the services are the children of the node, and elsewhere only the
node, its registration and what was missing above them are new. -/
structure ListSet (md5 : Bytes → Bytes) (path : Bytes) (servs : Services) (t t' : ZkTree) : Prop where
  status : ∀ serv status, servs.lookup serv = some status →
    t'.nodes.lookup (servPath path serv) = some (statusText status)
  children : t'.children path = servs.keys
  keep : ∀ q ∈ t.nodes, (∀ c, slash ∉ c → q ≠ servPath path c) → t'.nodes.lookup q = t.nodes.lookup q
  new : ∀ q ∈ t'.nodes, q ∉ t.nodes → (∀ c, slash ∉ c → q ≠ servPath path c) →
    Above q path ∨ Above q (getMonitorNode md5 path)
  node : path ∈ t'.nodes
  registered : getMonitorNode md5 path ∈ t'.nodes

/-- **`zk_services_set` without faults.** -/
theorem zkServicesSet_quiet (h : Request md5 node path servs)
    (hleaf : ∀ c ∈ t.children path, c ∉ servs → t.children (servPath path c) = ∅) :
    ∃ t', zkServicesSet md5 (.quiet t) node servs = (.ok, .quiet t') ∧ ListSet md5 path servs t t' := by
  have hne := h.ne_nil
  have hroot := h.ne_root
  have hoff : ∀ c, ¬ Above (servPath path c) (getMonitorNode md5 path) := fun c ha =>
    not_above_monitor hne h.outside path ((path_above_servPath path c).trans ha)
  have hstore : ∀ serv status, (serv, status) ∈ pairsOf servs → Storable path serv status :=
    fun serv status hin => h.store serv status (mem_pairsOf.mp hin)
  have hchecks : (pairsOf servs).all (fun p => checkService p.1 p.2) = true :=
    List.all_eq_true.mpr fun p hp => (hstore p.1 p.2 hp).check hne
  -- the four stages of the call
  obtain ⟨t₁, hmon, hgrown₁, hreg₁, -⟩ := zkMonitorNodeCreate_quiet h.md5 h.fits t
  obtain ⟨t₂, hold, hgrown₂, hnode₂, -⟩ := oldServices_quiet h.idem h.valid hroot t₁
  obtain ⟨t₃, hadd, hup⟩ := addServices_quiet h.idem h.md5 h.fits (pairsOf servs) t₂
    (by rw [map_fst_pairsOf]; exact nodup_sortBytes _) hstore hnode₂ (hgrown₂.mem hreg₁)
  have hchild₁ : t₁.children path = t.children path := hgrown₁.children_eq hne hroot hoff
  have hchild₂ : t₂.children path = t₁.children path := hgrown₂.children_eq hne hroot (not_servPath_above path)
  have hdel : ∀ c ∈ sortBytes (t₁.children path \ servs.keys),
      isValidPath (servPath path c) = true ∧ Leaf t₃ (servPath path c) := by
    intro c hc
    rw [mem_sortBytes, Finset.mem_sdiff, Finmap.mem_keys, hchild₁] at hc
    obtain ⟨hslash, hmem⟩ := (mem_children_iff hne hroot).mp hc.1
    have hx : Leaf t (servPath path c) :=
      (children_eq_empty_iff (by simp [servPath]) (servPath_ne_root path c hne)).mp (hleaf c hc.1 hc.2)
    exact ⟨t.valid _ hmem, hup.leaf (fun s st hin => (hstore s st hin).component)
      (hgrown₂.leaf (hgrown₁.leaf hx (hoff c)) (not_servPath_above path c))⟩
  obtain ⟨t₄, hdelete, herased⟩ := deleteServices_quiet _ t₃ hne hdel
  have hrun : zkServicesSet md5 (.quiet t) node servs = (.ok, .quiet t₄) := by
    rw [zkServicesSet, h.zkPath]
    dsimp only
    rw [if_neg h.nonempty, hchecks, if_neg (by decide), hmon]
    dsimp only
    rw [hold]
    dsimp only
    rw [hadd]
    exact hdelete
  -- away from the children only the first two stages count
  have haway : ∀ q, (∀ c, slash ∉ c → q ≠ servPath path c) → t₄.nodes.lookup q = t₂.nodes.lookup q := by
    intro q hq
    rw [herased.kept q, hup.other q]
    · exact fun s st hin => hq s (hstore s st hin).component
    · rintro ⟨c, hc, rfl⟩
      rw [mem_sortBytes, Finset.mem_sdiff] at hc
      exact hq c ((mem_children_iff hne hroot).mp hc.1).1 rfl
  have hstatus : ∀ serv status, servs.lookup serv = some status →
      t₄.nodes.lookup (servPath path serv) = some (statusText status) := by
    intro serv status hl
    rw [herased.kept, hup.set serv status (mem_pairsOf.mpr hl)]
    rintro ⟨c, hc, he⟩
    obtain rfl := servPath_inj he
    rw [mem_sortBytes, Finset.mem_sdiff, Finmap.mem_keys] at hc
    exact hc.2 (Finmap.mem_iff.mpr ⟨status, hl⟩)
  have hgone : ∀ c, slash ∉ c → c ∉ servs → servPath path c ∉ t₄.nodes := by
    intro c hslash hc hm
    obtain ⟨hm₃, hkept⟩ := (herased.mem_iff _).mp hm
    refine hkept ⟨c, ?_, rfl⟩
    rw [mem_sortBytes, Finset.mem_sdiff, Finmap.mem_keys, ← hchild₂]
    refine ⟨(mem_children_iff hne hroot).mpr ⟨hslash, ?_⟩, hc⟩
    refine (mem_of_lookup_eq (hup.other _ fun s st hin he => ?_)).mp hm₃
    obtain rfl := servPath_inj he
    exact hc (Finmap.mem_iff.mpr ⟨st, mem_pairsOf.mp hin⟩)
  refine ⟨t₄, hrun, ⟨hstatus, ?_, fun q hq hfar => ?_, fun q hq hnew hfar => ?_, ?_, ?_⟩⟩
  · ext c
    rw [mem_children_iff hne hroot, Finmap.mem_keys]
    constructor
    · rintro ⟨hslash, hm⟩
      by_contra hc
      exact hgone c hslash hc hm
    · intro hc
      obtain ⟨st, hst⟩ := Finmap.mem_iff.mp hc
      exact ⟨(h.store c st hst).component, ZkTree.mem_of_lookup (hstatus c st hst)⟩
  · rw [haway q hfar, hgrown₂.keep q (hgrown₁.mem hq), hgrown₁.keep q hq]
  · have hm₂ : q ∈ t₂.nodes := (mem_of_lookup_eq (haway q hfar)).mp hq
    by_cases hm₁ : q ∈ t₁.nodes
    · exact Or.inr (hgrown₁.new q hm₁ hnew)
    · exact Or.inl (hgrown₂.new q hm₂ hm₁)
  · refine (mem_of_lookup_eq (haway path fun c _ he => ?_)).mpr hnode₂
    exact not_servPath_above path c (he ▸ Above.refl _)
  · refine (mem_of_lookup_eq (haway _ fun c _ he => ?_)).mpr (hgrown₂.mem hreg₁)
    exact hoff c (he ▸ Above.refl _)

/-! ### Reading the list back -/

theorem zkServiceStatusGet_quiet {p : Bytes} {status : Int} (hp : t.nodes.lookup p = some (statusText status))
    (hst : isStatus status = true) : zkServiceStatusGet (.quiet t) p = (.ok status, .quiet t) := by
  have hback : stringToInteger (statusText status) = .ok status := by
    rcases isStatus_cases hst with rfl | rfl | rfl <;> decide
  rw [zkServiceStatusGet, zkGet_quiet hp]
  dsimp only
  rw [hback]
  dsimp only
  rw [if_pos hst]

/-- The loop reads the statuses that are stored. -/
theorem readStatuses_quiet : ∀ (names : List Bytes) (acc : Services),
    (∀ name ∈ names, ∃ status, servs.lookup name = some status ∧ isStatus status = true ∧
      t.nodes.lookup (servPath path name) = some (statusText status)) →
    (∀ name ∈ acc, acc.lookup name = servs.lookup name) →
    ∃ acc', readStatuses path names acc (.quiet t) = (.ok, acc', .quiet t) ∧
      ∀ name, acc'.lookup name = if name ∈ names then servs.lookup name else acc.lookup name := by
  intro names
  induction names with
  | nil => exact fun acc _ _ => ⟨acc, rfl, fun name => (if_neg List.not_mem_nil).symm⟩
  | cons name names ih =>
    intro acc hnames hacc
    obtain ⟨status, hserv, hst, hnode⟩ := hnames name List.mem_cons_self
    obtain ⟨next, hnext⟩ : ∃ next, next = if name ∈ acc then acc else acc.insert name status := ⟨_, rfl⟩
    have hlookup : ∀ x, next.lookup x = if x = name then servs.lookup name else acc.lookup x := by
      intro x
      rw [hnext]
      by_cases hin : name ∈ acc
      · rw [if_pos hin]
        split
        · next he => rw [he, hacc name hin]
        · rfl
      · rw [if_neg hin]
        split
        · next he => rw [he, Finmap.lookup_insert, hserv]
        · next he => rw [Finmap.lookup_insert_of_ne _ he]
    obtain ⟨acc', hrun, hacc'⟩ := ih next (fun x hx => hnames x (List.mem_cons_of_mem _ hx)) (fun x hx => by
      rw [hlookup]
      split
      · next he => rw [he]
      · next he =>
        refine hacc x ?_
        rw [← Finmap.lookup_isSome, hlookup, if_neg he, Finmap.lookup_isSome] at hx
        exact hx)
    refine ⟨acc', ?_, fun x => ?_⟩
    · rw [readStatuses, zkServiceStatusGet_quiet hnode hst]
      dsimp only
      rw [← hnext]
      exact hrun
    · rw [hacc', hlookup]
      by_cases hx : x = name
      · rw [if_pos hx, hx, if_pos List.mem_cons_self, ite_self]
      · rw [if_neg hx]
        exact if_congr (List.mem_cons.trans (or_iff_right hx)).symm rfl rfl

theorem checkNodeType_quiet (hmd5 : md5 path ≠ []) (hreg : getMonitorNode md5 path ∈ t.nodes) :
    checkNodeType md5 (.quiet t) path = (.ok true, .quiet t) := by
  rw [checkNodeType, zkExist_quiet t (getMonitorNode_valid hmd5), decide_eq_true hreg]

/-- **The list read back is the one that was set.** -/
theorem ListSet.get (hset : ListSet md5 path servs t t') (h : Request md5 node path servs) :
    zkServicesGetWithStatus md5 (.quiet t') node = (.ok, servs, .quiet t') := by
  have htype := checkNodeType_quiet h.md5 hset.registered
  have hlist : zkServicesGet md5 (.quiet t') path = (.ok, servs.keys, .quiet t') := by
    rw [zkServicesGet, h.idem]
    dsimp only
    rw [htype]
    dsimp only
    rw [zkList_quiet h.idem h.valid, if_pos hset.node, hset.children]
  have hnames : ∀ name ∈ sortBytes servs.keys, ∃ status, servs.lookup name = some status ∧ isStatus status = true ∧
      t'.nodes.lookup (servPath path name) = some (statusText status) := fun name hname => by
    rw [mem_sortBytes, Finmap.mem_keys] at hname
    obtain ⟨status, hst⟩ := Finmap.mem_iff.mp hname
    exact ⟨status, hst, (h.store name status hst).status, hset.status name status hst⟩
  obtain ⟨acc, hread, hlookup⟩ := readStatuses_quiet (sortBytes servs.keys) ∅ hnames
    (fun name hname => absurd hname Finmap.notMem_empty)
  have hacc : acc = servs := by
    refine Finmap.ext_lookup fun name => ?_
    rw [hlookup]
    split
    · rfl
    · next hn =>
      rw [mem_sortBytes, Finmap.mem_keys] at hn
      rw [Finmap.lookup_empty, Finmap.lookup_eq_none.mpr hn]
  rw [zkServicesGetWithStatus, h.zkPath]
  dsimp only
  rw [htype]
  dsimp only
  rw [hlist]
  dsimp only
  rw [hread, hacc]

/-- A tree that already is as a call leaves it stays. -/
theorem ListSet.eq_of_set {t₀ : ZkTree} (hset₀ : ListSet md5 path servs t₀ t) (hset : ListSet md5 path servs t t')
    (h : Request md5 node path servs) : t' = t := by
  refine ZkTree.ext (Finmap.ext_lookup fun q => ?_)
  by_cases hchild : ∃ c, slash ∉ c ∧ q = servPath path c
  · obtain ⟨c, hslash, rfl⟩ := hchild
    cases hc : servs.lookup c with
    | some status => rw [hset.status c status hc, hset₀.status c status hc]
    | none =>
      have hgone : ∀ {s u : ZkTree}, ListSet md5 path servs s u → u.nodes.lookup (servPath path c) = none := by
        intro s u hu
        rw [Finmap.lookup_eq_none]
        intro hm
        have hin := (mem_children_iff h.ne_nil h.ne_root).mpr ⟨hslash, hm⟩
        rw [hu.children, Finmap.mem_keys] at hin
        exact Finmap.lookup_eq_none.mp hc hin
      rw [hgone hset, hgone hset₀]
  · have hfar : ∀ c, slash ∉ c → q ≠ servPath path c := fun c hslash he => hchild ⟨c, hslash, he⟩
    by_cases hq : q ∈ t.nodes
    · exact hset.keep q hq hfar
    · rw [Finmap.lookup_eq_none.mpr hq, Finmap.lookup_eq_none]
      intro hm
      have hne : q ≠ [] := by
        rintro rfl
        exact absurd (t'.valid _ hm) (by decide)
      -- what is above the node or its registration is there
      rcases hset.new q hm hq hfar with ha | ha
      · exact hq (above_mem path q hset₀.node ha hne)
      · exact hq (above_mem _ q hset₀.registered ha hne)

end

end

/-- **`zk_services_set` makes the service list exactly the one given.**  If the children that are not
given have no children of their own, the call succeeds, the list read back is the one given, a
second call changes nothing, and what is neither the node nor a child of it nor its registration nor
missing above one of the two is untouched. -/
theorem services_set_exact (md5 : Bytes → Bytes) (t : ZkTree) (node path : Bytes) (servs : Services)
    (h : Request md5 node path servs)
    (hleaf : ∀ c ∈ t.children path, c ∉ servs → t.children (servPath path c) = ∅) :
    ∃ t', zkServicesSet md5 (.quiet t) node servs = (.ok, .quiet t') ∧
      zkServicesGetWithStatus md5 (.quiet t') node = (.ok, servs, .quiet t') ∧
      zkServicesSet md5 (.quiet t') node servs = (.ok, .quiet t') ∧
      ∀ q, q ≠ path → (∀ c, slash ∉ c → q ≠ servPath path c) → ¬ (Above q path ∧ q ∉ t.nodes) →
        q ≠ getMonitorNode md5 path → ¬ (Above q (getMonitorNode md5 path) ∧ q ∉ t.nodes) →
        t'.nodes.lookup q = t.nodes.lookup q := by
  obtain ⟨t', hrun, hset⟩ := zkServicesSet_quiet h hleaf
  obtain ⟨t'', hrun', hset'⟩ := zkServicesSet_quiet (t := t') h (fun c hc hn => by
    rw [hset.children, Finmap.mem_keys] at hc
    exact absurd hc hn)
  rw [hset.eq_of_set hset' h] at hrun'
  refine ⟨t', hrun, hset.get h, hrun', fun q _ hfar hup _ hreg => ?_⟩
  by_cases hq : q ∈ t.nodes
  · exact hset.keep q hq hfar
  · rw [Finmap.lookup_eq_none.mpr hq, Finmap.lookup_eq_none]
    intro hm
    rcases hset.new q hm hq hfar with ha | ha
    · exact hup ⟨ha, hq⟩
    · exact hreg ⟨ha, hq⟩

/-- The service `/s` with the servers `a` and `b`. -/
def twoServersTree : ZkTree :=
  match (ZkTree.empty.create [47, 115] []).bind (fun t =>
    (t.create [47, 115, 47, 97] [48]).bind (fun t => t.create [47, 115, 47, 98] [48])) with
  | .ok t => t
  | .error _ => .empty

/-- `a` is to be offline, and `c` is to be there instead of `b`. -/
def newServs : Services := (Finmap.singleton [97] Status.offline.code).insert [99] Status.up.code

theorem storable_newServs {serv : Bytes} {status : Int} (h : newServs.lookup serv = some status) :
    Storable [47, 115] serv status := by
  rcases lookup_insert_iff.mp h with ⟨rfl, rfl⟩ | ⟨-, h⟩
  · exact ⟨by decide, by decide, by decide⟩
  · have hmem : serv ∈ (Finmap.singleton [97] Status.offline.code : Services) := Finmap.mem_iff.mpr ⟨status, h⟩
    obtain rfl := (Finmap.mem_singleton _ _ _).mp hmem
    rw [Finmap.lookup_singleton_eq, Option.some.injEq] at h
    exact ⟨by decide, by decide, h ▸ by decide⟩

/-- The status of `a` is set, `b` is deleted and `c` is created. -/
theorem services_set_replaces : twoServersTree.children [47, 115] = {[97], [98]} ∧ ∃ t',
    zkServicesSet (fun _ => List.replicate 16 0) (.quiet twoServersTree) [47, 115] newServs = (.ok, .quiet t') ∧
    zkServicesGetWithStatus (fun _ => List.replicate 16 0) (.quiet t') [47, 115] = (.ok, newServs, .quiet t') := by
  have hreq : Request (fun _ => List.replicate 16 0) [47, 115] [47, 115] newServs :=
    ⟨by decide, by decide, by decide, by decide, by decide, by decide, fun _ _ => storable_newServs⟩
  obtain ⟨t', hset, hget, -⟩ := services_set_exact (fun _ => List.replicate 16 0) twoServersTree [47, 115] [47, 115]
    newServs hreq (by decide +kernel)
  exact ⟨by decide +kernel, t', hset, hget⟩

/-- **A path that only `zk_path` accepts.**  For `/a//b` everything that is asked of the call holds, and
ZooKeeper refuses the path. -/
theorem double_slash_services_refused :
    zkPath [47, 97, 47, 47, 98] = some [47, 97, 47, 47, 98] ∧ ¬ Above monitorLockNode [47, 97, 47, 47, 98] ∧
    ZkTree.empty.children [47, 97, 47, 47, 98] = ∅ ∧ checkService [99] Status.up.code = true ∧
    (zkServicesSet (fun _ => List.replicate 16 0) (.quiet .empty) [47, 97, 47, 47, 98]
      (Finmap.singleton [99] Status.up.code)).1 = .errZooFailed := by
  refine ⟨by decide, by decide, children_of_notMem (by decide) (by decide) (by decide), by decide, ?_⟩
  decide +kernel

end QConf.Manager
