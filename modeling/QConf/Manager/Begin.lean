import QConf.Manager.Faults

/-!
# What a begin leaves behind

A begin checks its arguments against the tree and then creates the nodes of its plan.
Nothing undoes the nodes that were created before the one that fails, so a begin
that fails leaves nothing behind only if it was rejected or did not get as far as its
first node.  Which of these happens is read off the tree, the arguments and the faults
(`failed_begin_leaves_nothing_iff`).  Without faults what makes it fail is in the
arguments: a client that is named twice, or a client below another one that is named
before it.
-/

namespace QConf.Manager

/-! ### The checks -/

theorem grayCheckNodes_tree (rawNodes : BytesMap) : ∀ (raws : List Bytes) (zk : Zk) (nodes : BytesMap),
    (grayCheckNodes rawNodes raws zk nodes).2.tree = zk.tree := by
  intro raws
  induction raws with
  | nil => intro zk nodes; rfl
  | cons raw raws ih =>
    intro zk nodes
    rw [grayCheckNodes]
    split
    · rfl
    · split
      · next hz =>
        dsimp only
        split
        · exact (zkExist_spec hz).1
        · exact (ih _ _).trans (zkExist_spec hz).1
      · next hz => exact (zkExist_spec hz).1

theorem zkGrayCheckNodes_tree (zk : Zk) (rawNodes : BytesMap) :
    (zkGrayCheckNodes zk rawNodes).2.tree = zk.tree := by
  unfold zkGrayCheckNodes
  split
  · rfl
  · exact grayCheckNodes_tree _ _ _ _

theorem grayCheckClients_tree : ∀ (clients : List Bytes) (zk : Zk),
    (grayCheckClients clients zk).2.tree = zk.tree := by
  intro clients
  induction clients with
  | nil => intro zk; rfl
  | cons client clients ih =>
    intro zk
    rw [grayCheckClients]
    split
    · next hz => exact (ih _).trans (zkExist_spec hz).1
    · next hz => exact (zkExist_spec hz).1

theorem zkGrayCheckChients_tree (zk : Zk) (clients : List Bytes) :
    (zkGrayCheckChients zk clients).2.tree = zk.tree := by
  unfold zkGrayCheckChients
  split
  · rfl
  · exact grayCheckClients_tree _ _

/-! ### What is left behind -/

/-- A client, content or backlink node. -/
def NotifyNode (q : Bytes) : Prop :=
  ∃ name, name ≠ [] ∧
    (q = notifyClientPrefix ++ slash :: name ∨ q = notifyContentPrefix ++ slash :: name ∨
      q = notifyBacklinkPrefix ++ slash :: name)

/-- No client, content or backlink node is new. -/
def LeavesNothing (t t' : ZkTree) : Prop := ∀ q, NotifyNode q → q ∈ t'.nodes → q ∈ t.nodes

/-- What the checks of a begin let through: the map with its paths normalised, and
the session after the checks. -/
def grayChecked (zk : Zk) (rawNodes : BytesMap) (clients : List Bytes) : Option (BytesMap × Zk) :=
  match zkGrayCheckNodes zk rawNodes with
  | (none, _) => none
  | (some nodes, zk) =>
    match zkGrayCheckChients zk clients with
    | (false, _) => none
    | (true, zk) => some (nodes, zk)

theorem grayChecked_some {zk zk₂ : Zk} {rawNodes nodes : BytesMap} {clients : List Bytes}
    (h : grayChecked zk rawNodes clients = some (nodes, zk₂)) :
    ∃ zk₁, zkGrayCheckNodes zk rawNodes = (some nodes, zk₁) ∧
      zkGrayCheckChients zk₁ clients = (true, zk₂) ∧ zk₂.tree = zk.tree := by
  unfold grayChecked at h
  split at h
  · exact absurd h (by simp)
  · next nodes' zk₁ hn =>
    split at h
    · exact absurd h (by simp)
    · next zk₂' hc =>
      rw [Option.some.injEq, Prod.mk.injEq] at h
      obtain ⟨rfl, rfl⟩ := h
      refine ⟨zk₁, hn, hc, ?_⟩
      have h1 := zkGrayCheckNodes_tree zk rawNodes
      have h2 := zkGrayCheckChients_tree zk₁ clients
      rw [hn] at h1
      rw [hc] at h2
      exact h2.trans h1

/-- What is known once the arguments are accepted. -/
structure Accepted (t : ZkTree) (rawNodes nodes : BytesMap) (clients : List Bytes) : Prop where
  nodes_ne : nodes.keys ≠ ∅
  mem : ∀ p, p ∈ nodes ↔ ∃ raw ∈ rawNodes, pathNormalize raw = some p
  there : ∀ raw ∈ rawNodes, ∃ p, pathNormalize raw = some p ∧ cStr p ∈ t.nodes
  value : ∀ p v, nodes.lookup p = some v → ∃ raw, pathNormalize raw = some p ∧
    rawNodes.lookup raw = some v ∧ v.length ≤ maxValueSize - 100
  clients_ne : clients ≠ []
  client : ∀ c ∈ clients, isValidPath (cStr (clientNode c)) = true ∧ cStr (clientNode c) ∉ t.nodes

/-- The arguments that a begin accepts on the tree `t`, with the map of which it writes the content. -/
structure Admissible (t : ZkTree) (rawNodes : BytesMap) (clients : List Bytes) (nodes : BytesMap) :
    Prop where
  map : normalized rawNodes = some nodes
  there : ∀ p ∈ nodes, cStr p ∈ t.nodes
  clients_ne : clients ≠ []
  client : ∀ c ∈ clients, isValidPath (cStr (clientNode c)) = true ∧ cStr (clientNode c) ∉ t.nodes

/-- **The checks of a begin**: the arguments are admissible, and every look at the tree is answered. -/
theorem grayChecked_met {t : ZkTree} {faults : List (Option Fault)} {zk₂ : Zk} {rawNodes nodes : BytesMap}
    {clients : List Bytes} :
    grayChecked ⟨t, faults⟩ rawNodes clients = some (nodes, zk₂) ↔
      Admissible t rawNodes clients nodes ∧
      ∃ rest, answered (rawNodes.keys.card + clients.length) faults = some rest ∧ zk₂ = ⟨t, rest⟩ := by
  have hnodes : ∀ zk₁, zkGrayCheckNodes ⟨t, faults⟩ rawNodes = (some nodes, zk₁) ↔
      (normalized rawNodes = some nodes ∧ ∀ p ∈ nodes, cStr p ∈ t.nodes) ∧
        ∃ rest, answered rawNodes.keys.card faults = some rest ∧ zk₁ = ⟨t, rest⟩ := by
    intro zk₁
    by_cases hne : rawNodes.keys = ∅
    · simp [zkGrayCheckNodes, normalized, hne]
    · rw [zkGrayCheckNodes, if_neg hne, grayCheckNodes_met, sortBytes_length, ← and_assoc]
      refine and_congr_left fun _ => ?_
      rw [normalized, if_neg hne]
      refine and_congr_right fun hmap => ?_
      have hmem := mem_normalized (show normalized rawNodes = some nodes by rw [normalized, if_neg hne, hmap])
      simp only [mem_sortBytes, Finmap.mem_keys, hmem]
      constructor
      · rintro h p ⟨raw, hr, hp⟩
        exact h raw hr p hp
      · exact fun h raw hr p hp => h p ⟨raw, hr, hp⟩
  have hclients : ∀ rest, zkGrayCheckChients ⟨t, rest⟩ clients = (true, zk₂) ↔
      (clients ≠ [] ∧ ∀ c ∈ clients, isValidPath (cStr (clientNode c)) = true ∧
        cStr (clientNode c) ∉ t.nodes) ∧
        ∃ rest', answered clients.length rest = some rest' ∧ zk₂ = ⟨t, rest'⟩ := by
    intro rest
    by_cases hne : clients = []
    · simp [zkGrayCheckChients, hne]
    · rw [zkGrayCheckChients, if_neg hne, grayCheckClients_met]
      simp only [ne_eq, hne, not_false_eq_true, true_and]
  constructor
  · intro h
    obtain ⟨zk₁, hn, hc, -⟩ := grayChecked_some h
    obtain ⟨⟨hmap, hthere⟩, rest, hr, rfl⟩ := (hnodes zk₁).mp hn
    obtain ⟨⟨hne, hcl⟩, rest', hr', rfl⟩ := (hclients rest).mp hc
    exact ⟨⟨hmap, hthere, hne, hcl⟩, rest', by rw [answered_add, hr, Option.bind_some, hr'], rfl⟩
  · rintro ⟨hadm, rest, hr, rfl⟩
    rw [answered_add] at hr
    obtain ⟨rest₁, h1, h2⟩ := Option.bind_eq_some_iff.mp hr
    have hn := (hnodes _).mpr ⟨⟨hadm.map, hadm.there⟩, rest₁, h1, rfl⟩
    have hc := (hclients rest₁).mpr ⟨⟨hadm.clients_ne, hadm.client⟩, rest, h2, rfl⟩
    rw [grayChecked, hn]
    dsimp only
    rw [hc]

theorem Admissible.accepted {t : ZkTree} {rawNodes nodes : BytesMap} {clients : List Bytes}
    (h : Admissible t rawNodes clients nodes) : Accepted t rawNodes nodes clients where
  nodes_ne := normalized_keys h.map
  mem := mem_normalized h.map
  there raw hr := by
    obtain ⟨p, hp⟩ := normalized_some h.map hr
    exact ⟨p, hp, h.there p ((mem_normalized h.map p).mpr ⟨raw, hr, hp⟩)⟩
  value p v hv := normalized_value h.map hv
  clients_ne := h.clients_ne
  client := h.client

/-- A map with one path that is normalised already stays as it is. -/
theorem Accepted.eq_singleton {t : ZkTree} {nodes : BytesMap} {clients : List Bytes} {p v : Bytes}
    (h : Accepted t (Finmap.singleton p v) nodes clients) (hp : pathNormalize p = some p) :
    nodes = Finmap.singleton p v := by
  have hmem : ∀ q, q ∈ nodes ↔ q = p := by
    intro q
    rw [h.mem q]
    constructor
    · rintro ⟨raw, hr, hn⟩
      rw [(Finmap.mem_singleton _ _ _).mp hr, hp, Option.some.injEq] at hn
      exact hn.symm
    · rintro rfl
      exact ⟨q, (Finmap.mem_singleton _ _ _).mpr rfl, hp⟩
  refine Finmap.ext_lookup fun q => ?_
  by_cases hq : q = p
  · subst hq
    obtain ⟨w, hw⟩ := Option.isSome_iff_exists.mp (Finmap.lookup_isSome.mpr ((hmem q).mpr rfl))
    obtain ⟨raw, -, hl, -⟩ := h.value q w hw
    have hraw := (Finmap.mem_singleton _ _ _).mp (ZkTree.mem_of_lookup hl)
    rw [hw, ← hl, hraw]
  · rw [Finmap.lookup_eq_none.mpr (fun hm => hq ((hmem q).mp hm)), eq_comm, Finmap.lookup_eq_none]
    exact fun hm => hq ((Finmap.mem_singleton _ _ _).mp hm)

theorem grayChecked_accepted {zk zk₂ : Zk} {rawNodes nodes : BytesMap} {clients : List Bytes}
    (h : grayChecked zk rawNodes clients = some (nodes, zk₂)) :
    Accepted zk.tree rawNodes nodes clients := (grayChecked_met.mp h).1.accepted

/-- A begin is the check of its arguments and then the writing. -/
theorem zkGrayBegin_eq {zk zk₂ : Zk} {rawNodes nodes : BytesMap} {clients : List Bytes}
    (h : grayChecked zk rawNodes clients = some (nodes, zk₂)) (sec usec : Nat) :
    ∃ content, graySerializeContent nodes = some content ∧ content ≠ [] ∧
      zkGrayBegin zk rawNodes clients sec usec = grayWrite zk₂ content clients (grayGenerateId sec usec) := by
  obtain ⟨zk₁, hn, hc, -⟩ := grayChecked_some h
  have hs : graySerializeContent nodes = some (graynodevalToTblval (grayRecords nodes)) :=
    if_neg (grayChecked_accepted h).nodes_ne
  refine ⟨_, hs, ?_, ?_⟩
  · rw [graynodevalToTblval]
    exact List.append_ne_nil_of_left_ne_nil (by simp [ByteCodec.leBytes, vectorCountLen]) _
  · rw [zkGrayBegin, hn]
    dsimp only
    rw [hc]
    dsimp only
    rw [hs]

/-- A begin whose arguments are rejected fails and changes nothing. -/
theorem zkGrayBegin_rejected {zk : Zk} {rawNodes : BytesMap} {clients : List Bytes}
    (h : grayChecked zk rawNodes clients = none) (sec usec : Nat) :
    (zkGrayBegin zk rawNodes clients sec usec).1 = .errParam ∧
      (zkGrayBegin zk rawNodes clients sec usec).2.tree = zk.tree := by
  have h1 := zkGrayCheckNodes_tree zk rawNodes
  unfold grayChecked at h
  split at h
  · next hn =>
    rw [hn] at h1
    rw [zkGrayBegin, hn]
    exact ⟨rfl, h1⟩
  · next nodes zk₁ hn =>
    have h2 := zkGrayCheckChients_tree zk₁ clients
    split at h
    · next hc =>
      rw [hn] at h1
      rw [hc] at h2
      rw [zkGrayBegin, hn]
      dsimp only
      rw [hc]
      exact ⟨rfl, h2.trans h1⟩
    · exact absurd h (by simp)

/-! ### A begin without faults -/

/-- The tree and the arguments let the nodes of a release be created, once the
arguments are accepted. -/
structure BeginReady (t : ZkTree) (content : Bytes) (clients : List Bytes) (grayId : Bytes) : Prop where
  fits : ContentFits content
  fresh : ∀ i < pieceCount content, contentNode grayId i ∉ t.nodes
  backlink : backlinkNode grayId ∉ t.nodes
  /-- No client is named twice, and none that is on the way to one named before. -/
  order : clients.Pairwise (fun c d => ¬ Above d c)
  list : (backlinkContent clients).length ≤ zkMaxData
  id : grayId.length ≤ zkMaxData

theorem contentPiece_length (content : Bytes) (index : Nat) :
    (contentPiece content index).length ≤ zkMaxData := by
  have : (contentPiece content index).length ≤ grayContentMaxSize := List.length_take_le _ _
  rw [show grayContentMaxSize = 102400 from rfl] at this
  rw [show zkMaxData = 1048575 from rfl]
  omega

theorem pairwise_contentPlan {grayId : Bytes} (hg : slash ∉ grayId) (content : Bytes) (i k : Nat) :
    (contentPlan grayId content i k).Pairwise (fun a b => ¬ Above b.1 a.1) := by
  rw [contentPlan, List.pairwise_map]
  refine List.Pairwise.imp ?_ (List.pairwise_lt_range' (s := i) (n := k))
  intro a b hlt ha
  exact absurd (not_above_contentNode hg ha) (Nat.ne_of_gt hlt)

section

variable {t : ZkTree} {content : Bytes} {clients : List Bytes} {sec usec : Nat}

theorem grayPlan_ready (hne : clients ≠ [])
    (hclients : ∀ c ∈ clients, isValidPath (clientNode c) = true ∧ clientNode c ∉ t.nodes) :
    (ContentFits content ∧ PlanReady t (grayPlan content clients (grayGenerateId sec usec))) ↔
      BeginReady t content clients (grayGenerateId sec usec) := by
  have hg := (grayGenerateId_plain sec usec).not_mem_slash
  constructor
  · rintro ⟨hfit, h⟩
    have hmem : ∀ pv, _ → pv ∈ grayPlan content clients (grayGenerateId sec usec) :=
      fun _ => mem_grayPlan.mpr
    obtain ⟨c, hc⟩ := List.exists_mem_of_ne_nil _ hne
    refine ⟨hfit, fun i hi => h.absent _ (hmem _ (Or.inl ⟨i, hi, rfl⟩)),
      h.absent _ (hmem _ (Or.inr (Or.inr rfl))), ?_, h.small _ (hmem _ (Or.inr (Or.inr rfl))),
      h.small _ (hmem _ (Or.inr (Or.inl ⟨c, hc, rfl⟩)))⟩
    have hord := h.order
    rw [grayPlan, List.append_assoc] at hord
    have hord := (List.pairwise_append.mp (List.pairwise_append.mp hord).2.1).1
    rw [clientPlan, List.pairwise_map] at hord
    exact hord.imp (fun hn ha => hn (above_clientNode_iff.mpr ha))
  · intro h
    refine ⟨h.fits, ?_, ?_, ?_, ?_⟩
    · intro pv hpv
      rcases mem_grayPlan.mp hpv with ⟨j, -, rfl⟩ | ⟨c, hc, rfl⟩ | rfl
      · exact contentNode_valid sec usec j
      · exact (hclients c hc).1
      · exact backlinkNode_valid sec usec
    · intro pv hpv
      rcases mem_grayPlan.mp hpv with ⟨j, -, rfl⟩ | ⟨c, -, rfl⟩ | rfl
      · exact contentPiece_length _ _
      · exact h.id
      · exact h.list
    · intro pv hpv
      rcases mem_grayPlan.mp hpv with ⟨j, hj, rfl⟩ | ⟨c, hc, rfl⟩ | rfl
      · exact h.fresh j hj
      · exact (hclients c hc).2
      · exact h.backlink
    · rw [grayPlan, List.append_assoc, List.pairwise_append, List.pairwise_append]
      refine ⟨pairwise_contentPlan hg _ _ _, ⟨?_, List.pairwise_singleton _ _, ?_⟩, ?_⟩
      · rw [clientPlan, List.pairwise_map]
        exact h.order.imp (fun hn ha => hn (above_clientNode_iff.mp ha))
      · intro a ha b hb
        obtain ⟨c, -, rfl⟩ := mem_clientPlan.mp ha
        rw [List.mem_singleton] at hb
        subst hb
        exact not_above_backlink_client _ _
      · intro a ha b hb
        obtain ⟨j, -, -, rfl⟩ := mem_contentPlan.mp ha
        rcases List.mem_append.mp hb with hb | hb
        · obtain ⟨c, -, rfl⟩ := mem_clientPlan.mp hb
          exact not_above_client_content _ _ _
        · rw [List.mem_singleton] at hb
          subst hb
          exact not_above_backlink_content _ _ _

theorem clientNode_nulFree {c : Bytes} (h : NulFree c) : NulFree (clientNode c) := by
  intro hm
  rw [clientNode, List.mem_append, List.mem_cons] at hm
  rcases hm with hm | hm | hm
  · exact absurd hm (by decide)
  · exact absurd hm (by decide)
  · exact h hm

theorem grayPlan_nulFree (hnul : ∀ c ∈ clients, NulFree c) :
    ∀ pv ∈ grayPlan content clients (grayGenerateId sec usec), NulFree pv.1 := by
  intro pv hpv
  rcases mem_grayPlan.mp hpv with ⟨j, -, rfl⟩ | ⟨c, hc, rfl⟩ | rfl
  · exact isValidPath_nulFree (contentNode_valid sec usec j)
  · exact clientNode_nulFree (hnul c hc)
  · exact isValidPath_nulFree (backlinkNode_valid sec usec)

end

/-- A node of the three kinds is longer than the directory of the content nodes. -/
theorem NotifyNode.le_length {q : Bytes} (h : NotifyNode q) : 30 ≤ q.length := by
  obtain ⟨name, hne, hq⟩ := h
  have hpos := List.length_pos_iff.mpr hne
  rcases hq with rfl | rfl | rfl <;> rw [List.length_append, List.length_cons]
  · rw [show notifyClientPrefix.length = 28 from rfl]
    omega
  · rw [show notifyContentPrefix.length = 29 from rfl]
    omega
  · rw [show notifyBacklinkPrefix.length = 30 from rfl]
    omega

/-- On the way to a content node there is no other node of the three kinds. -/
theorem NotifyNode.eq_contentNode {q grayId : Bytes} {i : Nat} (h : NotifyNode q) (hg : slash ∉ grayId)
    (ha : Above q (contentNode grayId i)) : q = contentNode grayId i := by
  rcases above_contentNode hg ha with heq | hshort
  · exact heq
  · have hlong := h.le_length
    omega

theorem notifyNode_contentNode (grayId : Bytes) (i : Nat) : NotifyNode (contentNode grayId i) :=
  ⟨grayId ++ underscore :: integerToString i, by simp, Or.inr (Or.inl rfl)⟩

/-- If the begin fails, it leaves nothing behind. -/
def BeginClean (zk : Zk) (rawNodes : BytesMap) (clients : List Bytes) (sec usec : Nat) : Prop :=
  (zkGrayBegin zk rawNodes clients sec usec).1 ≠ .ok →
    LeavesNothing zk.tree (zkGrayBegin zk rawNodes clients sec usec).2.tree

/-- Whatever fails: a begin is clean if it is rejected, if the content node 0 was there
before, if the first `zk_create` does not make that node, or if every node of the plan is
created. -/
theorem beginClean_iff (zk : Zk) (rawNodes : BytesMap) (clients : List Bytes) (sec usec : Nat) :
    BeginClean zk rawNodes clients sec usec ↔
      ∀ nodes zk₂ content, grayChecked zk rawNodes clients = some (nodes, zk₂) →
        graySerializeContent nodes = some content →
        contentNode (grayGenerateId sec usec) 0 ∈ zk.tree.nodes ∨
        contentNode (grayGenerateId sec usec) 0 ∉ (zkCreate zk₂
          (contentNode (grayGenerateId sec usec) 0) (contentPiece content 0)).2.tree.nodes ∨
        (ContentFits content ∧
          (createAll (grayPlan content clients (grayGenerateId sec usec)) zk₂).1 = true) := by
  unfold BeginClean
  cases hchecked : grayChecked zk rawNodes clients with
  | none =>
    obtain ⟨-, htree⟩ := zkGrayBegin_rejected hchecked sec usec
    rw [htree]
    exact ⟨fun _ _ _ _ h => absurd h (by simp), fun _ _ _ _ h => h⟩
  | some nz =>
    obtain ⟨nodes, zk₂⟩ := nz
    obtain ⟨content, hs, hne, hbegin⟩ := zkGrayBegin_eq hchecked sec usec
    obtain ⟨-, -, -, htree⟩ := grayChecked_some hchecked
    obtain ⟨hkeep, hstop⟩ := grayWrite_first zk₂ content clients (grayGenerateId sec usec)
    have hnul := isValidPath_nulFree (contentNode_valid sec usec 0)
    have hgrown := zkCreate_grown (show zkCreate zk₂ (contentNode (grayGenerateId sec usec) 0)
      (contentPiece content 0) = (_, _) from rfl)
    rw [cStr_of_nulFree hnul, htree] at hgrown
    -- without the node 0, only nodes on the way to it are new
    have hclean : contentNode (grayGenerateId sec usec) 0 ∈ zk.tree.nodes ∨
        contentNode (grayGenerateId sec usec) 0 ∉ (zkCreate zk₂
          (contentNode (grayGenerateId sec usec) 0) (contentPiece content 0)).2.tree.nodes →
        LeavesNothing zk.tree (grayWrite zk₂ content clients (grayGenerateId sec usec)).2.tree := by
      intro hor
      have hno : (zkCreate zk₂ (contentNode (grayGenerateId sec usec) 0)
          (contentPiece content 0)).1 ≠ .ok := by
        intro hok
        obtain ⟨hn, hv⟩ := hgrown.2 hok
        exact hor.elim hn (fun h => h (ZkTree.mem_of_lookup hv))
      rw [hstop hno]
      intro q hq hm
      by_contra hold
      have heq := hq.eq_contentNode (grayGenerateId_plain sec usec).not_mem_slash
        (hgrown.1.new q hm hold)
      subst heq
      exact hor.elim hold (fun h => h hm)
    rw [hbegin]
    constructor
    · intro h nodes' zk' content' heq hs'
      rw [Option.some.injEq, Prod.mk.injEq] at heq
      obtain ⟨rfl, rfl⟩ := heq
      rw [hs, Option.some.injEq] at hs'
      subst hs'
      by_cases hok : (grayWrite zk₂ content clients (grayGenerateId sec usec)).1 = .ok
      · exact Or.inr (Or.inr ((grayWrite_ok_iff hne zk₂).mp hok))
      · by_contra hcon
        simp only [not_or, not_not] at hcon
        exact hcon.1 (h hok _ (notifyNode_contentNode _ 0) (hkeep.mem hcon.2.1))
    · intro h hfail
      rcases h nodes zk₂ content rfl hs with h1 | h2 | h3
      · exact hclean (Or.inl h1)
      · exact hclean (Or.inr h2)
      · exact absurd ((grayWrite_ok_iff hne zk₂).mpr h3) hfail

/-- The paths of the nodes that a begin creates, in their order. -/
def grayPaths (content : Bytes) (clients : List Bytes) (grayId : Bytes) : List Bytes :=
  (grayPlan content clients grayId).map Prod.fst

/-- **When a begin that fails leaves nothing behind.**  Let the clients be C strings.  Then it depends
on the tree, the arguments and the faults alone: the arguments are not admissible or a look at the tree
is lost, or the content node 0 was there before, or a fault stops the first `zk_create` before the
node is made, or nothing can stop the begin: the tree is ready for its nodes and every call that
creates them is answered. -/
theorem failed_begin_leaves_nothing_iff (zk : Zk) (rawNodes : BytesMap) (clients : List Bytes)
    (sec usec : Nat) (hnul : ∀ c ∈ clients, NulFree c) :
    BeginClean zk rawNodes clients sec usec ↔
      ∀ nodes faults, Admissible zk.tree rawNodes clients nodes →
        answered (rawNodes.keys.card + clients.length) zk.faults = some faults →
        contentNode (grayGenerateId sec usec) 0 ∈ zk.tree.nodes ∨
        StopsFirst zk.tree (contentNode (grayGenerateId sec usec) 0) faults ∨
        (BeginReady zk.tree (graynodevalToTblval (grayRecords nodes)) clients (grayGenerateId sec usec) ∧
          (answered (createCalls zk.tree (grayPaths (graynodevalToTblval (grayRecords nodes)) clients
            (grayGenerateId sec usec))) faults).isSome = true) := by
  obtain ⟨t, faults₀⟩ := zk
  rw [beginClean_iff]
  have hcase : ∀ nodes content faults, Admissible t rawNodes clients nodes →
      (contentNode (grayGenerateId sec usec) 0 ∈ t.nodes ∨
        contentNode (grayGenerateId sec usec) 0 ∉ (zkCreate ⟨t, faults⟩
          (contentNode (grayGenerateId sec usec) 0) (contentPiece content 0)).2.tree.nodes ∨
        (ContentFits content ∧
          (createAll (grayPlan content clients (grayGenerateId sec usec)) ⟨t, faults⟩).1 = true) ↔
      contentNode (grayGenerateId sec usec) 0 ∈ t.nodes ∨
        StopsFirst t (contentNode (grayGenerateId sec usec) 0) faults ∨
        (BeginReady t content clients (grayGenerateId sec usec) ∧
          (answered (createCalls t (grayPaths content clients (grayGenerateId sec usec))) faults).isSome =
            true)) := by
    intro nodes content faults hadm
    have hclients : ∀ c ∈ clients, isValidPath (clientNode c) = true ∧ clientNode c ∉ t.nodes := by
      intro c hc
      have := hadm.client c hc
      rwa [cStr_of_nulFree (clientNode_nulFree (hnul c hc))] at this
    refine or_congr_right' fun hnew => or_congr ?_ ?_
    · rw [mem_zkCreate_iff (contentNode_valid sec usec 0) (contentPiece_length content 0) hnew, not_not]
    · rw [createAll_met_iff (grayPlan_nulFree hnul), ← and_assoc, grayPlan_ready hadm.clients_ne hclients,
        grayPaths]
  have hserial : ∀ nodes, Admissible t rawNodes clients nodes →
      graySerializeContent nodes = some (graynodevalToTblval (grayRecords nodes)) :=
    fun nodes hadm => if_neg hadm.accepted.nodes_ne
  constructor
  · intro h nodes faults hadm hans
    exact (hcase nodes _ faults hadm).mp
      (h nodes _ _ (grayChecked_met.mpr ⟨hadm, faults, hans, rfl⟩) (hserial nodes hadm))
  · intro h nodes zk₂ content hchecked hs
    obtain ⟨hadm, faults, hans, rfl⟩ := grayChecked_met.mp hchecked
    obtain rfl := Option.some.inj ((hserial nodes hadm).symm.trans hs)
    exact (hcase nodes _ faults hadm).mpr (h nodes faults hadm hans)

/-- A tree with the node `/x`, and a map that gives it the value `1`. -/
def oneNodeTree : ZkTree :=
  match ZkTree.empty.create [slash, 120] [] with
  | .ok t => t
  | .error _ => ZkTree.empty

def oneNodeMap : BytesMap := Finmap.singleton [slash, 120] [49]

theorem normalized_oneNodeMap : normalized oneNodeMap = some oneNodeMap := by
  decide +kernel

theorem contentNode_not_mem_of_short {t : ZkTree} (h : ∀ q ∈ t.nodes.keys, q.length ≤ 30) (g : Bytes) (j : Nat) :
    contentNode g j ∉ t.nodes := by
  intro hm
  have := h _ (Finmap.mem_keys.mpr hm)
  rw [contentNode_length] at this
  omega

theorem contentNode_not_mem_oneNodeTree (g : Bytes) (j : Nat) : contentNode g j ∉ oneNodeTree.nodes :=
  contentNode_not_mem_of_short (by decide +kernel) g j

theorem admissible_oneNode : Admissible oneNodeTree oneNodeMap [[97], [98]] oneNodeMap where
  map := normalized_oneNodeMap
  there p hp := by
    rw [(Finmap.mem_singleton _ _ _).mp hp]
    decide +kernel
  clients_ne := by decide
  client := by decide +kernel

theorem beginReady_oneNode : BeginReady oneNodeTree (graynodevalToTblval (grayRecords oneNodeMap)) [[97], [98]]
    (grayGenerateId 1 2) where
  fits := by decide +kernel
  fresh i _ := contentNode_not_mem_oneNodeTree _ i
  backlink := by decide +kernel
  order := by decide +kernel
  list := by decide +kernel
  id := by decide +kernel

/-- With two clients a begin makes 17 calls, three of them looks at the tree.  Faults that are tried
again do not stop it.  If the connection is lost at the node of the second client, the nodes before it
are left. -/
theorem lost_client_leaves_nodes :
    BeginClean ⟨oneNodeTree, [some .invalidState, none, none, some .marshallingError]⟩ oneNodeMap [[97], [98]]
      1 2 ∧
    ¬ BeginClean ⟨oneNodeTree, List.replicate 13 none ++ [some (.connectionLoss false)]⟩ oneNodeMap
      [[97], [98]] 1 2 := by
  have hnul : ∀ c ∈ ([[97], [98]] : List Bytes), NulFree c := by decide
  constructor
  · refine (failed_begin_leaves_nothing_iff _ _ _ 1 2 hnul).mpr fun nodes faults hadm hans =>
      Or.inr (Or.inr ?_)
    obtain rfl := Option.some.inj (normalized_oneNodeMap.symm.trans hadm.map)
    obtain rfl := Option.some.inj (show some [] = some faults from hans)
    exact ⟨beginReady_oneNode, by rw [answered_nil]; rfl⟩
  · intro h
    have hlost := (failed_begin_leaves_nothing_iff _ _ _ 1 2 hnul).mp h oneNodeMap
      (List.replicate 10 none ++ [some (.connectionLoss false)]) admissible_oneNode (by decide +kernel)
    rcases hlost with hold | hstop | ⟨-, hall⟩
    · exact contentNode_not_mem_oneNodeTree _ 0 hold
    · exact absurd (hstop (List.replicate 4 none ++ [some (.connectionLoss false)]) (by decide +kernel))
        (by decide)
    · exact absurd hall (by decide +kernel)

/-- A client that is named twice stops the begin after the content and the first of the
two have been written. -/
theorem client_named_twice_leaves_nodes : ¬ BeginClean (.quiet oneNodeTree) oneNodeMap [[97], [97]] 1 2 := by
  have hfail : (zkGrayBegin (.quiet oneNodeTree) oneNodeMap [[97], [97]] 1 2).1 = .errGraySetClients := by
    decide +kernel
  have hleft : clientNode [97] ∈
      (zkGrayBegin (.quiet oneNodeTree) oneNodeMap [[97], [97]] 1 2).2.tree.nodes := by decide +kernel
  have hnew : clientNode [97] ∉ oneNodeTree.nodes := by decide +kernel
  intro h
  refine hnew (h (by rw [hfail]; decide) _ ⟨[97], by decide, Or.inl rfl⟩ hleft)

end QConf.Manager
