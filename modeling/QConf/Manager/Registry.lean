import QConf.Lib.Simulation
import QConf.Manager.ServiceList

/-!
# The registry of services

To its callers the manager keeps a registry: a node is registered as a service node or not, and
where it is there it has a list of services with their statuses.  `Call.effect` says what each call
does to the node it is about and what it answers; nothing in it speaks of paths, children or
digests.

The calls of `QConfZK` refine it (`service_calls_refine`): for service nodes none of which lies
under another, every sequence of calls without faults, with whatever happens elsewhere in the tree
between them, is answered as the registry answers it.

* A call writes under its node, on the way to it and at the registration (`Framed`), so it
  leaves the other service nodes alone (`ServicePaths.same_of_framed`).
* What is under a node is one equation (`Lists.below`), so each call is a calculation with
  finite maps.
-/

namespace QConf.Registry

open Manager

/-! ### The abstract registry -/

/-- A service node as the callers see it. -/
structure Node where
  registered : Bool
  /-- `none` where the node is not there. -/
  list : Option Services

/-- A node nobody has touched. -/
def Node.fresh : Node := ⟨false, none⟩

/-- The calls of the manager about service nodes. -/
inductive Call
  | set (node : Bytes) (servs : Services)
  | add (node serv : Bytes) (status : Int)
  | delete (node serv : Bytes)
  | clear (node : Bytes)
  | up (node serv : Bytes)
  | down (node serv : Bytes)
  | offline (node serv : Bytes)
  | nodeSet (node value : Bytes)
  | nodeDelete (node : Bytes)
  | names (node : Bytes)
  | statuses (node : Bytes)

/-- What a call returns. -/
inductive Answer
  | code (ret : Ret)
  | names (ret : Ret) (servs : Finset Bytes)
  | statuses (ret : Ret) (servs : Services)

namespace Call

/-- The node that a call is given. -/
def node : Call → Bytes
  | set node _ | add node _ _ | delete node _ | clear node | up node _ | down node _ | offline node _
  | nodeSet node _ | nodeDelete node | names node | statuses node => node

/-- The answer to a call whose node is no path. -/
def refused : Call → Answer
  | names _ => .names .errParam ∅
  | statuses _ => .statuses .errParam ∅
  | _ => .code .errParam

/-- The status that is set in a list. -/
def mark (status : Status) (serv : Bytes) (n : Node) : Answer × Node :=
  if n.registered then
    match n.list with
    | none => (.code .errZooNotExist, n)
    | some m =>
      if serv ∈ m then (.code .ok, { n with list := some (m.insert serv status.code) })
      else (.code .errZooNotExist, n)
  else (.code .errNodeType, n)

/-- **What a call does to the node it is about.** -/
def effect : Call → Node → Answer × Node
  | set _ servs, n =>
    if servs.keys = ∅ ∨ ¬ (pairsOf servs).all (fun p => checkService p.1 p.2) then (.code .errParam, n)
    else (.code .ok, ⟨true, some servs⟩)
  | add _ serv status, n =>
    if checkService serv status then (.code .ok, ⟨true, some ((n.list.getD ∅).insert serv status)⟩)
    else (.code .errParam, n)
  | delete _ serv, n =>
    if n.registered then (.code .ok, { n with list := n.list.map (Finmap.erase serv) }) else (.code .errNodeType, n)
  | clear _, n =>
    if n.registered then
      match n.list with
      | none => (.code .errZooNotExist, n)
      | some _ => (.code .ok, { n with list := some ∅ })
    else (.code .errNodeType, n)
  | up _ serv, n => mark .up serv n
  | down _ serv, n => mark .down serv n
  | offline _ serv, n => mark .offline serv n
  | nodeSet _ _, n => (.code .ok, { n with list := some (n.list.getD ∅) })
  | nodeDelete _, n =>
    match n.list with
    | none => (.code .ok, n)
    | some m => if m.keys = ∅ then (.code .ok, { n with list := none }) else (.code .errZooNotempty, n)
  | names _, n =>
    if n.registered then
      match n.list with
      | none => (.names .errZooNotExist ∅, n)
      | some m => (.names .ok m.keys, n)
    else (.names .errNodeType ∅, n)
  | statuses _, n =>
    if n.registered then
      match n.list with
      | none => (.statuses .errZooNotExist ∅, n)
      | some m => (.statuses .ok m, n)
    else (.statuses .errNodeType ∅, n)

/-! ### The calls of the code -/

/-- The call of `QConfZK`. -/
def exec (md5 : Bytes → Bytes) (zk : Zk) : Call → Answer × Zk
  | set node servs => (zkServicesSet md5 zk node servs).map .code id
  | add node serv status => (zkServiceAdd md5 zk node serv status).map .code id
  | delete node serv => (zkServiceDelete md5 zk node serv).map .code id
  | clear node => (zkServiceClear md5 zk node).map .code id
  | up node serv => (zkServiceUp md5 zk node serv).map .code id
  | down node serv => (zkServiceDown md5 zk node serv).map .code id
  | offline node serv => (zkServiceOffline md5 zk node serv).map .code id
  | nodeSet node value => (zkNodeSet zk node value).map .code id
  | nodeDelete node => (zkNodeDelete zk node).map .code id
  | names node =>
    match zkServicesGet md5 zk node with
    | (ret, servs, zk) => (.names ret servs, zk)
  | statuses node =>
    match zkServicesGetWithStatus md5 zk node with
    | (ret, servs, zk) => (.statuses ret servs, zk)

end Call

/-! ### Service nodes in the tree -/

section

variable {md5 : Bytes → Bytes} {t t' t'' : ZkTree} {p : Bytes} {m : Services} {n : Node}

/-- A path that can be a service node. -/
structure ServicePath (md5 : Bytes → Bytes) (p : Bytes) : Prop where
  normal : zkPath p = some p
  valid : isValidPath p = true
  fits : p.length ≤ zkMaxData
  outside : ¬ Above monitorLockNode p
  digest : md5 p ≠ []

/-- Everything under the node is a service of the list, with its status. -/
structure Lists (t : ZkTree) (p : Bytes) (m : Services) : Prop where
  node : p ∈ t.nodes
  names : ∀ c st, m.lookup c = some st → slash ∉ c ∧ isStatus st = true
  below : ∀ c, t.nodes.lookup (servPath p c) = (m.lookup c).map statusText

/-- The tree shows the node `n` at the path. -/
structure Shown (md5 : Bytes → Bytes) (t : ZkTree) (p : Bytes) (n : Node) : Prop where
  registered : getMonitorNode md5 p ∈ t.nodes ↔ n.registered = true
  absent : n.list = none → p ∉ t.nodes
  lists : ∀ m, n.list = some m → Lists t p m

theorem ServicePath.ne_nil (h : ServicePath md5 p) : p ≠ [] := by
  rintro rfl
  exact absurd h.valid (by decide)

theorem ServicePath.ne_root (h : ServicePath md5 p) : p ≠ rootPath := by
  intro hr
  exact absurd h.normal (by rw [hr]; decide)

theorem ServicePath.off_monitor (h : ServicePath md5 p) (q : Bytes) : ¬ Above p (getMonitorNode md5 q) :=
  not_above_monitor h.ne_nil h.outside q

theorem shown_none {b : Bool} (hreg : getMonitorNode md5 p ∈ t.nodes ↔ b = true) (h : p ∉ t.nodes) :
    Shown md5 t p ⟨b, none⟩ := ⟨hreg, fun _ => h, fun _ hm => absurd hm (by simp)⟩

theorem shown_some {b : Bool} (hreg : getMonitorNode md5 p ∈ t.nodes ↔ b = true) (h : Lists t p m) :
    Shown md5 t p ⟨b, some m⟩ := ⟨hreg, fun hm => absurd hm (by simp), fun _ hm => Option.some.inj hm ▸ h⟩

/-! ### What a call may touch -/

/-- The paths that a call about `p` may write. -/
def Touches (md5 : Bytes → Bytes) (p q : Bytes) : Prop := Above p q ∨ Above q p ∨ Above q (getMonitorNode md5 p)

/-- Nothing else changed. -/
def Framed (md5 : Bytes → Bytes) (p : Bytes) (t t' : ZkTree) : Prop :=
  ∀ q, ¬ Touches md5 p q → t'.nodes.lookup q = t.nodes.lookup q

/-- Nothing of `p` changed. -/
structure Same (md5 : Bytes → Bytes) (p : Bytes) (t t' : ZkTree) : Prop where
  below : ∀ q, Above p q → t'.nodes.lookup q = t.nodes.lookup q
  monitor : t'.nodes.lookup (getMonitorNode md5 p) = t.nodes.lookup (getMonitorNode md5 p)

theorem Framed.refl (md5 : Bytes → Bytes) (p : Bytes) (t : ZkTree) : Framed md5 p t t := fun _ _ => rfl

theorem Framed.trans (h : Framed md5 p t t') (h' : Framed md5 p t' t'') : Framed md5 p t t'' :=
  fun q hq => (h' q hq).trans (h q hq)

theorem Shown.of_same (h : Shown md5 t p n) (hs : Same md5 p t t') : Shown md5 t' p n := by
  refine ⟨(mem_of_lookup_eq hs.monitor).trans h.registered, fun hn => ?_, fun m hm => ?_⟩
  · exact fun hp => h.absent hn ((mem_of_lookup_eq (hs.below p (Above.refl p))).mp hp)
  · obtain ⟨hnode, hnames, hbelow⟩ := h.lists m hm
    refine ⟨(mem_of_lookup_eq (hs.below p (Above.refl p))).mpr hnode, hnames, fun c => ?_⟩
    rw [hs.below _ (path_above_servPath p c), hbelow]

/-- Nodes that are new lie on the way to a path, and a write to it is kept to it. -/
structure Written (q v : Bytes) (t t' : ZkTree) : Prop where
  value : t'.nodes.lookup q = some v
  keep : ∀ x ∈ t.nodes, x ≠ q → t'.nodes.lookup x = t.nodes.lookup x
  new : ∀ x ∈ t'.nodes, x ∉ t.nodes → Above x q

theorem Written.lookup {q v x : Bytes} (h : Written q v t t') (hx : ¬ Above x q) :
    t'.nodes.lookup x = t.nodes.lookup x := by
  have hne : x ≠ q := fun he => hx (he ▸ Above.refl q)
  by_cases hm : x ∈ t.nodes
  · exact h.keep x hm hne
  · rw [Finmap.lookup_eq_none.mpr hm, Finmap.lookup_eq_none]
    exact fun hm' => hx (h.new x hm' hm)

theorem Written.framed {q v : Bytes} (h : Written q v t t') (hq : ∀ x, Above x q → Touches md5 p x) :
    Framed md5 p t t' := fun x hx => h.lookup fun ha => hx (hq x ha)

/-- **Setting a node that may be missing**, as `zk_node_set` and `zk_service_add` do. -/
theorem upsert_quiet {q v : Bytes} (hv : isValidPath q = true) (hs : v.length ≤ zkMaxData) (t : ZkTree) :
    ∃ t', Written q v t t' ∧ (zkModify (.quiet t) q v = (.ok, .quiet t') ∨
      (zkModify (.quiet t) q v = (.errZooNotExist, .quiet t) ∧ zkCreate (.quiet t) q v = (.ok, .quiet t'))) := by
  by_cases hm : q ∈ t.nodes
  · obtain ⟨t', hz, hnodes⟩ := zkModify_quiet hm hs
    refine ⟨t', ⟨by rw [hnodes, Finmap.lookup_insert], fun x _ hx => ?_, fun x hx hn => ?_⟩, Or.inl hz⟩
    · rw [hnodes, Finmap.lookup_insert_of_ne _ hx]
    · rw [hnodes, Finmap.mem_insert] at hx
      exact hx.elim (fun he => he ▸ Above.refl x) (fun h => absurd h hn)
  · have hnul := isValidPath_nulFree hv
    obtain ⟨t', hz⟩ := (zkCreate_quiet (t := t) hnul).mpr ⟨hv, hs, hm⟩
    obtain ⟨hgrown, hok⟩ := zkCreate_grown hz
    rw [cStr_of_nulFree hnul] at hgrown hok
    exact ⟨t', ⟨(hok rfl).2, fun x hx _ => hgrown.keep x hx, hgrown.new⟩, Or.inr ⟨zkModify_quiet_none hv hs hm, hz⟩⟩

/-! ### Reading the tree -/

theorem Lists.mem_iff (h : Lists t p m) (c : Bytes) : servPath p c ∈ t.nodes ↔ c ∈ m := by
  rw [← Finmap.lookup_isSome, h.below, Option.isSome_map, Finmap.lookup_isSome]

theorem Lists.children (h : Lists t p m) (hp : ServicePath md5 p) : t.children p = m.keys := by
  ext c
  rw [mem_children_iff hp.ne_nil hp.ne_root, h.mem_iff, Finmap.mem_keys]
  refine and_iff_right_of_imp fun hc => ?_
  obtain ⟨st, hst⟩ := Finmap.mem_iff.mp hc
  exact (h.names c st hst).1

/-- Nothing is under a node that is not there. -/
theorem lookup_of_absent (hp : ServicePath md5 p) (h : p ∉ t.nodes) (c : Bytes) :
    t.nodes.lookup (servPath p c) = none := by
  rw [Finmap.lookup_eq_none]
  exact fun hm => h (above_mem _ p hm (path_above_servPath p c) hp.ne_nil)

/-- What is under the node, whether it is there or not. -/
theorem Shown.below (h : Shown md5 t p n) (hp : ServicePath md5 p) (c : Bytes) :
    t.nodes.lookup (servPath p c) = ((n.list.getD ∅).lookup c).map statusText := by
  cases hl : n.list with
  | none =>
    rw [lookup_of_absent hp (h.absent hl)]
    rfl
  | some m => exact (h.lists m hl).below c

theorem Shown.names (h : Shown md5 t p n) (c : Bytes) (st : Int) (hc : (n.list.getD ∅).lookup c = some st) :
    slash ∉ c ∧ isStatus st = true := by
  cases hl : n.list with
  | none =>
    rw [hl] at hc
    exact absurd hc (by simp)
  | some m =>
    rw [hl] at hc
    exact (h.lists m hl).names c st hc

/-- A service has nothing under it. -/
theorem Shown.leaf (h : Shown md5 t p n) (hp : ServicePath md5 p) (c : Bytes) : Leaf t (servPath p c) := by
  intro q hq ha
  rcases ha with he | ⟨d, hd⟩
  · exact he.symm
  · have hq' : q = servPath p (c ++ slash :: d) := by
      rw [hd, servPath, servPath, List.append_assoc, List.cons_append]
    -- a name with a slash is in no list
    rw [hq', ← Finmap.lookup_isSome, h.below hp, Option.isSome_map] at hq
    obtain ⟨st, hst⟩ := Option.isSome_iff_exists.mp hq
    exact absurd (List.mem_append_right c List.mem_cons_self) (h.names _ st hst).1

theorem Shown.checkNodeType_eq (h : Shown md5 t p n) (hp : ServicePath md5 p) :
    checkNodeType md5 (.quiet t) p = (.ok n.registered, .quiet t) := by
  rw [checkNodeType, zkExist_quiet t (getMonitorNode_valid hp.digest)]
  have hreg : decide (getMonitorNode md5 p ∈ t.nodes) = n.registered := by
    rw [Bool.eq_iff_iff, decide_eq_true_iff]
    exact h.registered
  dsimp only
  rw [hreg]

/-- The start of the calls on services. -/
theorem Shown.onServices_eq (h : Shown md5 t p n) (hp : ServicePath md5 p) {node : Bytes} (hnode : zkPath node = some p)
    (call : Bytes → Zk → Ret × Zk) :
    onServices md5 (.quiet t) node call =
      if n.registered then call p (.quiet t) else (.errNodeType, .quiet t) := by
  rw [onServices, hnode]
  dsimp only
  rw [h.checkNodeType_eq hp]
  cases n.registered with
  | true => rfl
  | false => rfl

/-! ### One call -/

/-- The outcome `r` of a call about `p` in `t` is what the registry says. -/
def Refines (md5 : Bytes → Bytes) (t : ZkTree) (p : Bytes) (r : Answer × Zk) (a : Answer × Node) : Prop :=
  ∃ t', r = (a.1, .quiet t') ∧ Framed md5 p t t' ∧ Shown md5 t' p a.2

theorem Shown.refines (h : Shown md5 t p n) {a : Answer} : Refines md5 t p (a, .quiet t) (a, n) :=
  ⟨t, rfl, Framed.refl md5 p t, h⟩

/-- A call whose start has found the node registered. -/
theorem Shown.refines_onServices (h : Shown md5 t p n) (hp : ServicePath md5 p) {node : Bytes}
    (hnode : zkPath node = some p) {call : Bytes → Zk → Ret × Zk} {a : Answer × Node}
    (hcall : n.registered = true → Refines md5 t p ((call p (.quiet t)).map .code id) a) :
    Refines md5 t p ((onServices md5 (.quiet t) node call).map .code id)
      (if n.registered then a else (.code .errNodeType, n)) := by
  rw [h.onServices_eq hp hnode]
  cases hr : n.registered with
  | true => exact hcall hr
  | false => exact h.refines

/-- A path that a write to a service, its node or its registration makes is one the call may touch. -/
theorem touches_servPath {serv : Bytes} (hserv : slash ∉ serv) (x : Bytes) (hx : Above x (servPath p serv)) :
    Touches md5 p x := by
  rcases hx.eq_or_above hserv with rfl | ha
  · exact Or.inl (path_above_servPath p serv)
  · exact Or.inr (Or.inl ha)

theorem grown_lookup {q x : Bytes} (h : Grown q t t') (hx : ¬ Above x q) : t'.nodes.lookup x = t.nodes.lookup x := by
  by_cases hm : x ∈ t.nodes
  · exact h.keep x hm
  · rw [Finmap.lookup_eq_none.mpr hm, Finmap.lookup_eq_none]
    exact fun hm' => hx (h.new x hm' hm)

/-- **Registering** leaves the list as it is. -/
theorem Shown.register (h : Shown md5 t p n) (hp : ServicePath md5 p) :
    ∃ t', zkMonitorNodeCreate md5 (.quiet t) p = (.ok, .quiet t') ∧ Framed md5 p t t' ∧ Shown md5 t' p ⟨true, n.list⟩ := by
  obtain ⟨t', hz, hgrown, hreg, -⟩ := zkMonitorNodeCreate_quiet hp.digest hp.fits t
  have hbelow : ∀ q, Above p q → t'.nodes.lookup q = t.nodes.lookup q := fun q hq =>
    grown_lookup hgrown fun ha => hp.off_monitor p (hq.trans ha)
  refine ⟨t', hz, fun q hq => grown_lookup hgrown fun ha => hq (Or.inr (Or.inr ha)), ?_⟩
  refine ⟨iff_of_true hreg rfl, fun hl hm => ?_, fun m hl => ?_⟩
  · exact h.absent hl ((mem_of_lookup_eq (hbelow p (Above.refl p))).mp hm)
  · obtain ⟨hnode, hnames, hm⟩ := h.lists m hl
    refine ⟨(mem_of_lookup_eq (hbelow p (Above.refl p))).mpr hnode, hnames, fun c => ?_⟩
    rw [hbelow _ (path_above_servPath p c), hm]

/-- A name that can be a service of the node. -/
def Named (p serv : Bytes) : Prop := slash ∉ serv ∧ isValidPath (servPath p serv) = true

theorem servPath_ne_monitor (hp : ServicePath md5 p) (c : Bytes) : servPath p c ≠ getMonitorNode md5 p :=
  fun he => hp.off_monitor p (he ▸ path_above_servPath p c)

/-- A monitor node is not on the way to a service. -/
theorem monitor_not_above (hp : ServicePath md5 p) {c : Bytes} (hc : slash ∉ c) (q : Bytes) :
    ¬ Above (getMonitorNode md5 q) (servPath p c) := by
  intro ha
  rcases ha.eq_or_above hc with he | ha
  · exact hp.off_monitor q (he ▸ path_above_servPath p c)
  · exact hp.outside (monitorLockNode_above.trans ha)

/-- **Writing a service** puts it into the list. -/
theorem Shown.write (h : Shown md5 t p n) (hp : ServicePath md5 p) {serv : Bytes} {status : Int}
    (hserv : slash ∉ serv) (hst : isStatus status = true) (hw : Written (servPath p serv) (statusText status) t t') :
    Shown md5 t' p ⟨n.registered, some ((n.list.getD ∅).insert serv status)⟩ := by
  refine shown_some ((mem_of_lookup_eq (hw.lookup (monitor_not_above hp hserv p))).trans h.registered) ?_
  refine ⟨above_mem _ p (ZkTree.mem_of_lookup hw.value) (path_above_servPath p serv) hp.ne_nil, fun c st hc => ?_,
    fun c => ?_⟩
  · by_cases hcs : c = serv
    · subst hcs
      rw [Finmap.lookup_insert, Option.some.injEq] at hc
      exact ⟨hserv, hc ▸ hst⟩
    · rw [Finmap.lookup_insert_of_ne _ hcs] at hc
      exact h.names c st hc
  · by_cases hcs : c = serv
    · subst hcs
      rw [Finmap.lookup_insert, hw.value]
      rfl
    · rw [Finmap.lookup_insert_of_ne _ hcs, hw.lookup, h.below hp]
      -- another service is not on the way to this one
      intro ha
      rcases ha.eq_or_above hserv with he | ha
      · exact hcs (servPath_inj he)
      · exact not_servPath_above p c ha

theorem Shown.refines_add (h : Shown md5 t p n) (hp : ServicePath md5 p) {node serv : Bytes} {status : Int}
    (hnode : zkPath node = some p) (hserv : Named p serv) :
    Refines md5 t p (Call.exec md5 (.quiet t) (.add node serv status)) (Call.effect (.add node serv status) n) := by
  rw [Call.exec, Call.effect, zkServiceAdd, hnode]
  dsimp only
  by_cases hc : checkService serv status = true
  · rw [if_pos hc, if_pos hc]
    have hst : isStatus status = true := (Bool.and_eq_true_iff.mp hc).2
    obtain ⟨t₁, hreg, hframe₁, hshown₁⟩ := h.register hp
    obtain ⟨t₂, hw, hup⟩ := upsert_quiet hserv.2 (statusText_length hst) t₁
    refine ⟨t₂, ?_, hframe₁.trans (hw.framed (touches_servPath hserv.1)), hshown₁.write hp hserv.1 hst hw⟩
    rw [hreg]
    dsimp only
    rw [show integerToString status.toNat = statusText status from rfl]
    rcases hup with hz | ⟨hz, hcreate⟩
    · rw [hz]
      rfl
    · rw [hz]
      dsimp only
      rw [hcreate]
      rfl
  · rw [if_neg hc, if_neg hc]
    exact h.refines

/-- The arguments that a whole list needs. -/
theorem request_of_named (hp : ServicePath md5 p) {node : Bytes} {servs : Services} (hnode : zkPath node = some p)
    (hne : servs.keys ≠ ∅) (hchecks : (pairsOf servs).all (fun p => checkService p.1 p.2) = true)
    (hnamed : ∀ serv ∈ servs, Named p serv) : Request md5 node p servs := by
  refine ⟨hnode, hp.valid, hp.outside, hp.fits, hp.digest, hne, fun serv status hl => ?_⟩
  obtain ⟨hslash, hv⟩ := hnamed serv (Finmap.mem_iff.mpr ⟨status, hl⟩)
  exact ⟨hslash, hv, (Bool.and_eq_true_iff.mp (List.all_eq_true.mp hchecks _ (mem_pairsOf.mpr hl))).2⟩

/-- **Setting a list** leaves nothing under the node but the list. -/
theorem Shown.set (h : Shown md5 t p n) (hp : ServicePath md5 p) {node : Bytes} {servs : Services}
    (hreq : Request md5 node p servs) (hset : ListSet md5 p servs t t') :
    Framed md5 p t t' ∧ Shown md5 t' p ⟨true, some servs⟩ := by
  -- what is deeper than a service was not there and is not on the way to anything written
  have hdeep : ∀ c, slash ∈ c → servPath p c ∉ t'.nodes := by
    intro c hc hm
    have hfar : ∀ d, slash ∉ d → servPath p c ≠ servPath p d := fun d hd he => hd (servPath_inj he ▸ hc)
    have hnew : servPath p c ∉ t.nodes := by
      intro hm
      rw [← Finmap.lookup_isSome, h.below hp, Option.isSome_map] at hm
      obtain ⟨st, hst⟩ := Option.isSome_iff_exists.mp hm
      exact (h.names c st hst).1 hc
    rcases hset.new _ hm hnew hfar with ha | ha
    · exact not_servPath_above p c ha
    · exact hp.off_monitor p ((path_above_servPath p c).trans ha)
  refine ⟨fun q hq => ?_, shown_some (iff_of_true hset.registered rfl) ⟨hset.node, fun c st hc => ?_, fun c => ?_⟩⟩
  · have hfar : ∀ c, slash ∉ c → q ≠ servPath p c := fun c _ he => hq (Or.inl (he ▸ path_above_servPath p c))
    by_cases hm : q ∈ t.nodes
    · exact hset.keep q hm hfar
    · rw [Finmap.lookup_eq_none.mpr hm, Finmap.lookup_eq_none]
      exact fun hm' => hq (Or.inr (hset.new q hm' hm hfar))
  · exact ⟨(hreq.store c st hc).component, (hreq.store c st hc).status⟩
  · cases hc : servs.lookup c with
    | some st => rw [hset.status c st hc, Option.map_some]
    | none =>
      rw [Option.map_none, Finmap.lookup_eq_none]
      intro hm
      by_cases hslash : slash ∈ c
      · exact hdeep c hslash hm
      · have hin := (mem_children_iff hp.ne_nil hp.ne_root).mpr ⟨hslash, hm⟩
        rw [hset.children, Finmap.mem_keys] at hin
        exact Finmap.lookup_eq_none.mp hc hin

theorem Shown.refines_set (h : Shown md5 t p n) (hp : ServicePath md5 p) {node : Bytes} {servs : Services}
    (hnode : zkPath node = some p) (hnamed : ∀ serv ∈ servs, Named p serv) :
    Refines md5 t p (Call.exec md5 (.quiet t) (.set node servs)) (Call.effect (.set node servs) n) := by
  rw [Call.exec, Call.effect]
  by_cases hargs : servs.keys = ∅ ∨ ¬ (pairsOf servs).all (fun p => checkService p.1 p.2) = true
  · rw [if_pos hargs, zkServicesSet, hnode]
    dsimp only
    rcases hargs with hempty | hchecks
    · rw [if_pos hempty]
      exact h.refines
    · rw [Bool.eq_false_iff.mpr hchecks, Bool.not_false, if_pos rfl, ite_self]
      exact h.refines
  · rw [if_neg hargs]
    obtain ⟨hne, hchecks⟩ := not_or.mp hargs
    have hreq := request_of_named hp hnode hne (not_not.mp hchecks) hnamed
    obtain ⟨t', hz, hset⟩ := zkServicesSet_quiet (t := t) hreq fun c _ _ =>
      (children_eq_empty_iff (by simp [servPath]) (servPath_ne_root p c hp.ne_nil)).mpr (h.leaf hp c)
    obtain ⟨hframe, hshown⟩ := h.set hp hreq hset
    exact ⟨t', by rw [hz]; rfl, hframe, hshown⟩

/-- **Taking services out** takes them out of the list. -/
theorem Shown.erase (h : Shown md5 t p n) (hp : ServicePath md5 p) {S : Bytes → Prop} [DecidablePred S]
    (he : Erased (fun q => ∃ c, S c ∧ q = servPath p c) t t') {l : Option Services}
    (hl : ∀ m, n.list = some m → ∃ m', l = some m' ∧ ∀ c, m'.lookup c = if S c then none else m.lookup c)
    (hl' : n.list = none → l = none) :
    Framed md5 p t t' ∧ Shown md5 t' p ⟨n.registered, l⟩ := by
  have hoff : ∀ q, (∀ c, q ≠ servPath p c) → t'.nodes.lookup q = t.nodes.lookup q := fun q hq =>
    he.kept q fun ⟨c, _, hc⟩ => hq c hc
  have hmon := hoff _ fun c hc => servPath_ne_monitor hp c hc.symm
  have hself : t'.nodes.lookup p = t.nodes.lookup p :=
    hoff p fun c hc => not_servPath_above p c (hc ▸ Above.refl p)
  refine ⟨fun q hq => hoff q fun c hc => hq (Or.inl (hc ▸ path_above_servPath p c)), ?_⟩
  have hreg := (mem_of_lookup_eq hmon).trans h.registered
  cases hn : n.list with
  | none =>
    rw [hl' hn]
    exact shown_none hreg fun hm => h.absent hn ((mem_of_lookup_eq hself).mp hm)
  | some m =>
    obtain ⟨m', rfl, hm'⟩ := hl m hn
    obtain ⟨hnode, hnames, hbelow⟩ := h.lists m hn
    refine shown_some hreg ⟨(mem_of_lookup_eq hself).mpr hnode, fun c st hc => ?_, fun c => ?_⟩
    · rw [hm'] at hc
      split at hc
      · exact absurd hc (by simp)
      · exact hnames c st hc
    · rw [hm']
      split
      · next hS =>
        rw [Option.map_none, Finmap.lookup_eq_none]
        exact he.gone _ ⟨c, hS, rfl⟩
      · next hS =>
        rw [← hbelow]
        refine he.kept _ fun ⟨d, hd, hcd⟩ => hS ?_
        rw [servPath_inj hcd]
        exact hd

theorem Shown.refines_delete (h : Shown md5 t p n) (hp : ServicePath md5 p) {node serv : Bytes}
    (hnode : zkPath node = some p) (hserv : Named p serv) :
    Refines md5 t p (Call.exec md5 (.quiet t) (.delete node serv)) (Call.effect (.delete node serv) n) := by
  refine h.refines_onServices hp hnode fun hr => ?_
  obtain ⟨t', hz, he⟩ := zkDelete_leaf hserv.2 (servPath_ne_root p serv hp.ne_nil) (h.leaf hp serv)
  have he' : Erased (fun q => ∃ c, c = serv ∧ q = servPath p c) t t' := he.congr fun q _ => by simp
  have hl : ∀ m, n.list = some m → ∃ m', n.list.map (Finmap.erase serv) = some m' ∧
      ∀ c, m'.lookup c = if c = serv then none else m.lookup c := by
    intro m hm
    refine ⟨m.erase serv, by rw [hm]; rfl, fun c => ?_⟩
    split
    · next hc => rw [hc, Finmap.lookup_erase]
    · next hc => rw [Finmap.lookup_erase_ne hc]
  obtain ⟨hframe, hshown⟩ := h.erase hp he' hl (fun hn => by rw [hn]; rfl)
  exact ⟨t', by rw [hz]; rfl, hframe, hshown⟩

theorem Shown.refines_clear (h : Shown md5 t p n) (hp : ServicePath md5 p) {node : Bytes}
    (hnode : zkPath node = some p) :
    Refines md5 t p (Call.exec md5 (.quiet t) (.clear node)) (Call.effect (.clear node) n) := by
  refine h.refines_onServices hp hnode fun hr => ?_
  rw [zkList_quiet hp.normal hp.valid]
  cases hl : n.list with
  | none =>
    rw [if_neg (h.absent hl)]
    exact h.refines
  | some m =>
    have hlists := h.lists m hl
    rw [if_pos hlists.node, hlists.children hp]
    dsimp only
    have hleaves : ∀ serv ∈ sortBytes m.keys, isValidPath (servPath p serv) = true ∧ Leaf t (servPath p serv) := by
      intro serv hs
      rw [mem_sortBytes, Finmap.mem_keys] at hs
      exact ⟨t.valid _ ((hlists.mem_iff serv).mpr hs), h.leaf hp serv⟩
    obtain ⟨t', hz, he⟩ := deleteServices_quiet (sortBytes m.keys) t hp.ne_nil hleaves
    have hempty : ∀ m', n.list = some m' → ∃ m'' : Services, some ∅ = some m'' ∧
        ∀ c, m''.lookup c = if c ∈ sortBytes m.keys then none else m'.lookup c := by
      intro m' hm'
      obtain rfl := Option.some.inj (hl.symm.trans hm')
      refine ⟨∅, rfl, fun c => ?_⟩
      rw [Finmap.lookup_empty]
      split
      · rfl
      · next hc =>
        rw [mem_sortBytes, Finmap.mem_keys] at hc
        exact (Finmap.lookup_eq_none.mpr hc).symm
    obtain ⟨hframe, hshown⟩ := h.erase hp he hempty (fun hn => absurd (hl.symm.trans hn) (by simp))
    exact ⟨t', by rw [hz]; rfl, hframe, hshown⟩

/-- **Setting a status.** -/
theorem Shown.refines_mark (h : Shown md5 t p n) (hp : ServicePath md5 p) {node serv : Bytes} (status : Status)
    (hnode : zkPath node = some p) (hserv : Named p serv) :
    Refines md5 t p ((zkServiceModify md5 status (.quiet t) node serv).map .code id) (Call.mark status serv n) := by
  have hst : isStatus status.code = true := by cases status <;> rfl
  refine h.refines_onServices hp hnode fun hr => ?_
  rw [show integerToString status.code.toNat = statusText status.code from rfl]
  have hmiss : servPath p serv ∉ t.nodes → Refines md5 t p
      ((zkModify (.quiet t) (servPath p serv) (statusText status.code)).map .code id) (.code .errZooNotExist, n) := by
    intro hm
    rw [zkModify_quiet_none hserv.2 (statusText_length hst) hm]
    exact h.refines
  cases hl : n.list with
  | none =>
    refine hmiss fun hm => ?_
    exact h.absent hl (above_mem _ p hm (path_above_servPath p serv) hp.ne_nil)
  | some m =>
    have hlists := h.lists m hl
    dsimp only
    by_cases hc : serv ∈ m
    · rw [if_pos hc]
      obtain ⟨t', hz, hnodes⟩ := zkModify_quiet ((hlists.mem_iff serv).mpr hc) (statusText_length hst)
      have hw : Written (servPath p serv) (statusText status.code) t t' := by
        refine ⟨by rw [hnodes, Finmap.lookup_insert], fun x _ hx => ?_, fun x hx hn => ?_⟩
        · rw [hnodes, Finmap.lookup_insert_of_ne _ hx]
        · rw [hnodes, Finmap.mem_insert] at hx
          exact hx.elim (fun he => he ▸ Above.refl x) (fun h => absurd h hn)
      have hshown := h.write hp hserv.1 hst hw
      rw [hl] at hshown
      exact ⟨t', by rw [hz]; rfl, hw.framed (touches_servPath hserv.1), hshown⟩
    · rw [if_neg hc]
      exact hmiss fun hm => hc ((hlists.mem_iff serv).mp hm)

/-! ### The node itself -/

theorem zkDelete_notEmpty {q : Bytes} (hm : q ∈ t.nodes) (hroot : q ≠ rootPath) (hc : t.children q ≠ ∅) :
    zkDelete (.quiet t) q = (.errZooNotempty, .quiet t) := by
  have hv := t.valid q hm
  rw [zkDelete, zkDeleteExist, zooDelete_quiet t (isValidPath_nulFree hv), ZkTree.delete, if_pos hv, dif_neg hroot,
    if_pos hm, dif_neg hc]

theorem monitor_not_above_node (hp : ServicePath md5 p) (q : Bytes) : ¬ Above (getMonitorNode md5 q) p :=
  fun ha => hp.outside (monitorLockNode_above.trans ha)

theorem Shown.refines_nodeSet (h : Shown md5 t p n) (hp : ServicePath md5 p) {node value : Bytes}
    (hnode : zkPath node = some p) (hs : value.length ≤ zkMaxData) :
    Refines md5 t p (Call.exec md5 (.quiet t) (.nodeSet node value)) (Call.effect (.nodeSet node value) n) := by
  obtain ⟨t', hw, hup⟩ := upsert_quiet hp.valid hs t
  refine ⟨t', ?_, hw.framed fun x hx => Or.inr (Or.inl hx), ?_⟩
  · rw [Call.exec, zkNodeSet, hnode]
    dsimp only
    rcases hup with hz | ⟨hz, hcreate⟩
    · rw [hz]
      rfl
    · rw [hz]
      dsimp only
      rw [hcreate]
      rfl
  · refine shown_some ((mem_of_lookup_eq (hw.lookup (monitor_not_above_node hp p))).trans h.registered) ?_
    refine ⟨ZkTree.mem_of_lookup hw.value, h.names, fun c => ?_⟩
    rw [hw.lookup (not_servPath_above p c), h.below hp]

theorem Shown.refines_nodeDelete (h : Shown md5 t p n) (hp : ServicePath md5 p) {node : Bytes}
    (hnode : zkPath node = some p) :
    Refines md5 t p (Call.exec md5 (.quiet t) (.nodeDelete node)) (Call.effect (.nodeDelete node) n) := by
  have hrun : Call.exec md5 (.quiet t) (.nodeDelete node) = (zkDelete (.quiet t) p).map .code id := by
    rw [Call.exec, zkNodeDelete, hnode]
  rw [hrun, Call.effect]
  cases hl : n.list with
  | none =>
    rw [zkDelete, zkDeleteExist_quiet_none hp.valid (h.absent hl)]
    exact h.refines
  | some m =>
    have hlists := h.lists m hl
    dsimp only
    by_cases hm : m.keys = ∅
    · have hleaf : Leaf t p := (children_eq_empty_iff hp.ne_nil hp.ne_root).mp ((hlists.children hp).trans hm)
      obtain ⟨t', hz, he⟩ := zkDelete_leaf hp.valid hp.ne_root hleaf
      have hmon : t'.nodes.lookup (getMonitorNode md5 p) = t.nodes.lookup (getMonitorNode md5 p) :=
        he.kept _ fun hq => hp.off_monitor p (Or.inl hq.symm)
      rw [if_pos hm, hz]
      refine ⟨t', rfl, fun q hq => he.kept q fun hqp => hq (Or.inl (hqp ▸ Above.refl p)), ?_⟩
      exact shown_none ((mem_of_lookup_eq hmon).trans h.registered) (he.gone p rfl)
    · rw [if_neg hm, zkDelete_notEmpty hlists.node hp.ne_root ((hlists.children hp) ▸ hm)]
      exact h.refines

/-! ### The reads -/

theorem Shown.servicesGet (h : Shown md5 t p n) (hp : ServicePath md5 p) {node : Bytes} (hnode : zkPath node = some p) :
    zkServicesGet md5 (.quiet t) node =
      if n.registered then
        match n.list with
        | none => (.errZooNotExist, ∅, .quiet t)
        | some m => (.ok, m.keys, .quiet t)
      else (.errNodeType, ∅, .quiet t) := by
  rw [zkServicesGet, hnode]
  dsimp only
  rw [h.checkNodeType_eq hp]
  cases n.registered with
  | false => rfl
  | true =>
    dsimp only
    rw [zkList_quiet hp.normal hp.valid]
    cases hl : n.list with
    | none => rw [if_neg (h.absent hl), if_pos rfl]
    | some m => rw [if_pos (h.lists m hl).node, (h.lists m hl).children hp, if_pos rfl]

theorem Shown.refines_names (h : Shown md5 t p n) (hp : ServicePath md5 p) {node : Bytes} (hnode : zkPath node = some p) :
    Refines md5 t p (Call.exec md5 (.quiet t) (.names node)) (Call.effect (.names node) n) := by
  rw [Call.exec, h.servicesGet hp hnode, Call.effect]
  cases n.registered with
  | false => exact h.refines
  | true =>
    cases hl : n.list with
    | none => exact h.refines
    | some m => exact h.refines

/-- The list that is under the node is what is read. -/
theorem Lists.readStatuses_eq (h : Lists t p m) : readStatuses p (sortBytes m.keys) ∅ (.quiet t) = (.ok, m, .quiet t) := by
  have hnames : ∀ name ∈ sortBytes m.keys, ∃ status, m.lookup name = some status ∧ isStatus status = true ∧
      t.nodes.lookup (servPath p name) = some (statusText status) := by
    intro name hname
    rw [mem_sortBytes, Finmap.mem_keys] at hname
    obtain ⟨status, hst⟩ := Finmap.mem_iff.mp hname
    exact ⟨status, hst, (h.names name status hst).2, by rw [h.below, hst, Option.map_some]⟩
  obtain ⟨acc, hread, hlookup⟩ := readStatuses_quiet (sortBytes m.keys) ∅ hnames
    (fun name hname => absurd hname Finmap.notMem_empty)
  rw [hread]
  refine congrArg (fun acc => (Ret.ok, acc, Zk.quiet t)) (Finmap.ext_lookup fun name => ?_)
  rw [hlookup]
  split
  · rfl
  · next hn =>
    rw [mem_sortBytes, Finmap.mem_keys] at hn
    rw [Finmap.lookup_empty, Finmap.lookup_eq_none.mpr hn]

theorem Shown.servicesGetWithStatus (h : Shown md5 t p n) (hp : ServicePath md5 p) {node : Bytes}
    (hnode : zkPath node = some p) :
    zkServicesGetWithStatus md5 (.quiet t) node =
      if n.registered then
        match n.list with
        | none => (.errZooNotExist, ∅, .quiet t)
        | some m => (.ok, m, .quiet t)
      else (.errNodeType, ∅, .quiet t) := by
  rw [zkServicesGetWithStatus, hnode]
  dsimp only
  rw [h.checkNodeType_eq hp]
  cases hr : n.registered with
  | false => rfl
  | true =>
    dsimp only
    rw [h.servicesGet hp hp.normal, if_pos hr, if_pos rfl]
    cases hl : n.list with
    | none => rfl
    | some m => exact (h.lists m hl).readStatuses_eq

theorem Shown.refines_statuses (h : Shown md5 t p n) (hp : ServicePath md5 p) {node : Bytes}
    (hnode : zkPath node = some p) :
    Refines md5 t p (Call.exec md5 (.quiet t) (.statuses node)) (Call.effect (.statuses node) n) := by
  rw [Call.exec, h.servicesGetWithStatus hp hnode, Call.effect]
  cases n.registered with
  | false => exact h.refines
  | true =>
    cases hl : n.list with
    | none => exact h.refines
    | some m => exact h.refines

/-! ### All calls -/

/-- The arguments are ones that ZooKeeper takes: names that are components of paths, and values that
a request can carry. -/
def Call.Proper (p : Bytes) : Call → Prop
  | set _ servs => ∀ serv ∈ servs, Named p serv
  | add _ serv _ | delete _ serv | up _ serv | down _ serv | offline _ serv => Named p serv
  | nodeSet _ value => value.length ≤ zkMaxData
  | clear _ | nodeDelete _ | names _ | statuses _ => True

/-- **One call** is answered as the registry answers it. -/
theorem Shown.refines_call (h : Shown md5 t p n) (hp : ServicePath md5 p) (c : Call) (hnode : zkPath c.node = some p)
    (hc : c.Proper p) : Refines md5 t p (c.exec md5 (.quiet t)) (c.effect n) := by
  cases c with
  | set node servs => exact h.refines_set hp hnode hc
  | add node serv status => exact h.refines_add hp hnode hc
  | delete node serv => exact h.refines_delete hp hnode hc
  | clear node => exact h.refines_clear hp hnode
  | up node serv => exact h.refines_mark hp .up hnode hc
  | down node serv => exact h.refines_mark hp .down hnode hc
  | offline node serv => exact h.refines_mark hp .offline hnode hc
  | nodeSet node value => exact h.refines_nodeSet hp hnode hc
  | nodeDelete node => exact h.refines_nodeDelete hp hnode
  | names node => exact h.refines_names hp hnode
  | statuses node => exact h.refines_statuses hp hnode

/-- A node that is no path is refused before any request. -/
theorem exec_refused (zk : Zk) (c : Call) (hnode : zkPath c.node = none) : c.exec md5 zk = (c.refused, zk) := by
  cases c with
  | set node servs => rw [Call.exec, zkServicesSet, show zkPath node = none from hnode]; rfl
  | add node serv status => rw [Call.exec, zkServiceAdd, show zkPath node = none from hnode]; rfl
  | delete node serv => rw [Call.exec, zkServiceDelete, onServices, show zkPath node = none from hnode]; rfl
  | clear node => rw [Call.exec, zkServiceClear, onServices, show zkPath node = none from hnode]; rfl
  | up node serv => rw [Call.exec, zkServiceUp, zkServiceModify, onServices, show zkPath node = none from hnode]; rfl
  | down node serv => rw [Call.exec, zkServiceDown, zkServiceModify, onServices, show zkPath node = none from hnode]; rfl
  | offline node serv =>
    rw [Call.exec, zkServiceOffline, zkServiceModify, onServices, show zkPath node = none from hnode]; rfl
  | nodeSet node value => rw [Call.exec, zkNodeSet, show zkPath node = none from hnode]; rfl
  | nodeDelete node => rw [Call.exec, zkNodeDelete, show zkPath node = none from hnode]; rfl
  | names node => rw [Call.exec, zkServicesGet, show zkPath node = none from hnode]; rfl
  | statuses node => rw [Call.exec, zkServicesGetWithStatus, show zkPath node = none from hnode]; rfl

/-! ### Service nodes side by side -/

theorem hexDigit_inj {a b : Nat} (ha : a < 16) (hb : b < 16) (h : hexDigit a = hexDigit b) : a = b := by
  have hall : ∀ a < 16, ∀ b < 16, hexDigit a = hexDigit b → a = b := by decide
  exact hall a ha b hb h

theorem binToHex_inj : ∀ {a b : Bytes}, binToHex a = binToHex b → a = b := by
  intro a
  induction a with
  | nil =>
    intro b h
    cases b with
    | nil => rfl
    | cons y b => exact absurd h (by simp [binToHex])
  | cons x a ih =>
    intro b h
    cases b with
    | nil => exact absurd h (by simp [binToHex])
    | cons y b =>
      simp only [binToHex, List.flatMap_cons, List.cons_append, List.nil_append, List.cons.injEq] at h
      obtain ⟨hhigh, hlow, hrest⟩ := h
      have hx := x.toNat_lt
      have hy := y.toNat_lt
      have hdiv := hexDigit_inj (by omega) (by omega) hhigh
      have hmod := hexDigit_inj (by omega) (by omega) hlow
      have hxy : x = y := UInt8.toNat_inj.mp (by omega)
      rw [hxy, ih hrest]

/-- Registrations are side by side, too. -/
theorem monitor_above_monitor {q : Bytes} (hq : md5 q ≠ []) (h : Above (getMonitorNode md5 p) (getMonitorNode md5 q)) :
    md5 p = md5 q := by
  rw [getMonitorNode, getMonitorNode, above_append_iff] at h
  rcases h with he | ⟨c, hc⟩
  · exact binToHex_inj (List.cons.inj he).2
  · refine absurd ?_ (binToHex_plain hq).not_mem_slash
    rw [(List.cons.inj hc).2]
    exact List.mem_append_right _ List.mem_cons_self

/-- Paths that can be service nodes at the same time: none is under another, and their digests
tell them apart. -/
structure ServicePaths (md5 : Bytes → Bytes) (P : Set Bytes) : Prop where
  path : ∀ p ∈ P, ServicePath md5 p
  apart : ∀ p ∈ P, ∀ q ∈ P, Above p q → p = q
  distinct : Set.InjOn md5 P

/-- **A call about one service node leaves the others alone.** -/
theorem ServicePaths.same_of_framed {P : Set Bytes} (hP : ServicePaths md5 P) {q : Bytes} (hp : p ∈ P) (hq : q ∈ P)
    (hne : q ≠ p) (h : Framed md5 p t t') : Same md5 q t t' := by
  have hpp := hP.path p hp
  have hqp := hP.path q hq
  refine ⟨fun x hx => h x ?_, h _ ?_⟩
  · rintro (ha | ha | ha)
    · rcases ha.total hx with hb | hb
      · exact hne (hP.apart p hp q hq hb).symm
      · exact hne (hP.apart q hq p hp hb)
    · exact hne (hP.apart q hq p hp (hx.trans ha))
    · exact hqp.off_monitor p (hx.trans ha)
  · rintro (ha | ha | ha)
    · exact hpp.off_monitor q ha
    · exact monitor_not_above_node hpp q ha
    · exact hne (hP.distinct hq hp (monitor_above_monitor hpp.digest ha))

end

/-! ### Whole runs -/

/-- What happens to the tree: a call, or something else that leaves the service nodes alone. -/
inductive Event
  | call (c : Call)
  | other (f : ZkTree → ZkTree)

namespace Event

/-- The path of the node that an event is about. -/
def about : Event → Option Bytes
  | call c => zkPath c.node
  | other _ => none

def refused : Event → Option Answer
  | call c => some c.refused
  | other _ => none

def effect : Event → Node → Option Answer × Node
  | call c, n => (some (c.effect n).1, (c.effect n).2)
  | other _, n => (none, n)

/-- What the code makes of an event. -/
def step (md5 : Bytes → Bytes) (t : ZkTree) : Event → Option Answer × ZkTree
  | call c => (some (c.exec md5 (.quiet t)).1, (c.exec md5 (.quiet t)).2.tree)
  | other f => (none, f t)

/-- The condition on an event, for the service nodes `P`. -/
def Proper (md5 : Bytes → Bytes) (P : Set Bytes) : Event → Prop
  | call c => ∀ p, zkPath c.node = some p → c.Proper p
  | other f => ∀ t, ∀ p ∈ P, Same md5 p t (f t)

end Event

open Simulation

/-- What the registry makes of an event. -/
def registryStep : (Bytes → Node) → Event → Option Answer × (Bytes → Node) :=
  onObject Event.about Event.refused Event.effect

theorem simulates_registry {md5 : Bytes → Bytes} {P : Set Bytes} (hP : ServicePaths md5 P) :
    Simulates (fun t r => ∀ p ∈ P, Shown md5 t p (r p))
      (fun e => e.Proper md5 P ∧ ∀ p, e.about = some p → p ∈ P) (Event.step md5) registryStep := by
  refine simulates_onObject P (fun p t n => Shown md5 t p n) (fun t e he habout => ?_) (fun t e p n he habout hp h => ?_)
    (fun t e p q n m he habout hp hn hq hne h => ?_)
  · cases e with
    | call c =>
      rw [Event.step, exec_refused _ c habout]
      exact ⟨rfl, fun p _ n h => h⟩
    | other f => exact ⟨rfl, fun p hp n h => h.of_same (he t p hp)⟩
  · cases e with
    | call c =>
      obtain ⟨t', hrun, -, hshown⟩ := h.refines_call (hP.path p hp) c habout (he p habout)
      rw [Event.step, hrun]
      exact ⟨rfl, hshown⟩
    | other f => exact absurd habout (by simp [Event.about])
  · cases e with
    | call c =>
      obtain ⟨t', hrun, hframe, -⟩ := hn.refines_call (hP.path p hp) c habout (he p habout)
      rw [Event.step, hrun]
      exact h.of_same (hP.same_of_framed hp hq hne hframe)
    | other f => exact absurd habout (by simp [Event.about])

theorem proper_call {md5 : Bytes → Bytes} {P : Set Bytes} {c : Call} {p : Bytes} (hp : p ∈ P)
    (hnode : zkPath c.node = some p) (hc : c.Proper p) :
    (Event.call c).Proper md5 P ∧ ∀ q, (Event.call c).about = some q → q ∈ P := by
  refine ⟨fun q hq => ?_, fun q hq => ?_⟩
  · rw [← Option.some.inj (hnode.symm.trans hq)]
    exact hc
  · rw [← Option.some.inj (hnode.symm.trans hq)]
    exact hp

/-- The paths `/s` and `/u`. -/
def twoPaths : Set Bytes := {[47, 115], [47, 117]}

theorem servicePaths_two : ServicePaths id twoPaths := by
  refine ⟨?_, ?_, fun _ _ _ _ h => h⟩
  · rintro p (rfl | rfl)
    · exact ⟨by decide, by decide, by decide, by decide, by decide⟩
    · exact ⟨by decide, by decide, by decide, by decide, by decide⟩
  · rintro p (rfl | rfl) q (rfl | rfl)
    · exact fun _ => rfl
    · exact fun h => absurd h (by decide)
    · exact fun h => absurd h (by decide)
    · exact fun _ => rfl

/-- A service is added to `/s` and set down; `/u` is no service node, and `/s` can be deleted only behind its
service. -/
def twoPathsRun : List Event :=
  [.call (.add [47, 115] [97] 0), .call (.down [47, 115] [97]), .call (.up [47, 117] [97]),
    .call (.statuses [47, 115]), .call (.nodeDelete [47, 115]), .call (.delete [47, 115] [97]),
    .call (.nodeDelete [47, 115])]

/-- **The calls about services refine the registry.**  For service nodes side by side, every sequence
of calls about them, with whatever happens elsewhere in the tree between the calls, is answered as
the registry answers it, and the tree shows the registry again behind it. -/
theorem service_calls_refine (md5 : Bytes → Bytes) (P : Set Bytes) (hP : ServicePaths md5 P) (t : ZkTree)
    (r : Bytes → Node) (h : ∀ p ∈ P, Shown md5 t p (r p)) (events : List Event)
    (hevents : ∀ e ∈ events, e.Proper md5 P ∧ ∀ p, e.about = some p → p ∈ P) :
    (trace (Event.step md5) t events).1 = (trace registryStep r events).1 ∧
      ∀ p ∈ P, Shown md5 (trace (Event.step md5) t events).2 p ((trace registryStep r events).2 p) :=
  (simulates_registry hP).trace_eq events t r h hevents

theorem twoPathsRun_answers : (trace (Event.step id) .empty twoPathsRun).1 =
    [some (.code .ok), some (.code .ok), some (.code .errNodeType),
      some (.statuses .ok (Finmap.singleton [97] 2)), some (.code .errZooNotempty), some (.code .ok),
      some (.code .ok)] := by
  have hshown : ∀ p ∈ twoPaths, Shown id ZkTree.empty p Node.fresh := by
    rintro p (rfl | rfl)
    · exact shown_none (iff_of_false (by decide) (by decide)) (by decide)
    · exact shown_none (iff_of_false (by decide) (by decide)) (by decide)
  rw [(service_calls_refine id twoPaths servicePaths_two .empty (fun _ => .fresh) hshown twoPathsRun ?_).1]
  · rfl
  · intro e he
    have hs : ([47, 115] : Bytes) ∈ twoPaths := Or.inl rfl
    have hu : ([47, 117] : Bytes) ∈ twoPaths := Or.inr rfl
    simp only [twoPathsRun, List.mem_cons, List.not_mem_nil, or_false] at he
    rcases he with rfl | rfl | rfl | rfl | rfl | rfl | rfl
    · exact proper_call hs (by decide) ⟨by decide, by decide⟩
    · exact proper_call hs (by decide) ⟨by decide, by decide⟩
    · exact proper_call hu (by decide) ⟨by decide, by decide⟩
    · exact proper_call hs (by decide) trivial
    · exact proper_call hs (by decide) trivial
    · exact proper_call hs (by decide) ⟨by decide, by decide⟩
    · exact proper_call hs (by decide) trivial

end QConf.Registry
