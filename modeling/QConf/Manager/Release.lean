import QConf.Manager.Begin
import QConf.Manager.Content

/-!
# A release in the tree, and its removal

`Begun` says what a successful begin has put into the tree: the pieces of the
content, one node for each client, the backlink, and nothing below any of them but
clients named like paths.  Without faults `zk_gray_delete_notify` takes out exactly these
nodes, if it reads the clients back from the backlink as they were given and none of
them is above another.
-/

namespace QConf.Manager

/-! ### Leaves -/

/-- Nothing in the tree is below `p`. -/
def Leaf (t : ZkTree) (p : Bytes) : Prop := ∀ q ∈ t.nodes, Above p q → q = p

/-- A node is a leaf just if it has no children. -/
theorem children_eq_empty_iff {t : ZkTree} {p : Bytes} (hne : p ≠ []) (hroot : p ≠ rootPath) :
    t.children p = ∅ ↔ Leaf t p := by
  constructor
  · intro hc q hq ha
    rcases ha with rfl | ⟨c, hqc⟩
    · rfl
    -- the next component on the way to `q` is a child
    have hn : slash ∉ c.takeWhile (· != slash) := fun hm => by simpa using List.mem_takeWhile_imp hm
    have hab : Above (p ++ slash :: c.takeWhile (· != slash)) q := by
      have hsplit := List.takeWhile_append_dropWhile (p := (· != slash)) (l := c)
      cases hd : c.dropWhile (· != slash) with
      | nil =>
        rw [hd, List.append_nil] at hsplit
        exact Or.inl (by rw [hsplit, hqc])
      | cons b rest =>
        have hb : b = slash := by
          have := List.head_dropWhile_not (· != slash) (l := c) (by rw [hd]; simp)
          simpa [hd] using this
        rw [hd, hb] at hsplit
        exact Or.inr ⟨rest, by rw [hqc, List.append_assoc, List.cons_append, hsplit]⟩
    have hmem := above_mem q _ hq hab (by simp)
    have hchild : c.takeWhile (· != slash) ∈ t.children p := by
      refine ZkTree.mem_children.mpr ⟨_, hmem, ?_, zkParent_append hne hn, zkName_append hn⟩
      intro hr
      have := congrArg List.length hr
      simp only [List.length_append, List.length_cons, rootPath, List.length_nil] at this
      exact hne (List.length_eq_zero_iff.mp (by omega))
    rw [hc] at hchild
    exact absurd hchild (Finset.notMem_empty _)
  · intro hleaf
    rw [Finset.eq_empty_iff_forall_notMem]
    intro c hc
    obtain ⟨q, hq, hqr, hpar, hname⟩ := ZkTree.mem_children.mp hc
    obtain ⟨hqc, -, -, -⟩ := ZkTree.eq_childPath (t.valid q hq) hqr
    rw [hpar, childPath, if_neg hroot] at hqc
    have heq := hleaf q hq (Or.inr ⟨_, hqc⟩)
    have := congrArg List.length (heq.symm.trans hqc)
    simp at this

/-! ### Taking nodes out -/

/-- The tree without the nodes of `S`. -/
structure Erased (S : Bytes → Prop) (t t' : ZkTree) : Prop where
  gone : ∀ q, S q → q ∉ t'.nodes
  kept : ∀ q, ¬ S q → t'.nodes.lookup q = t.nodes.lookup q

namespace Erased

variable {S S' : Bytes → Prop} {t t' t'' : ZkTree}

theorem of_none (h : ∀ q, S q → q ∉ t.nodes) : Erased S t t := ⟨h, fun _ _ => rfl⟩

theorem mem_iff (h : Erased S t t') (q : Bytes) : q ∈ t'.nodes ↔ q ∈ t.nodes ∧ ¬ S q := by
  constructor
  · intro hq
    have hS : ¬ S q := fun hs => h.gone q hs hq
    rw [← Finmap.lookup_isSome, h.kept q hS, Finmap.lookup_isSome] at hq
    exact ⟨hq, hS⟩
  · rintro ⟨hq, hS⟩
    rw [← Finmap.lookup_isSome, h.kept q hS, Finmap.lookup_isSome]
    exact hq

theorem trans (h : Erased S t t') (h' : Erased S' t' t'') : Erased (fun q => S q ∨ S' q) t t'' where
  gone q hq hm := by
    have hm' := (h'.mem_iff q).mp hm
    rcases hq with hs | hs
    · exact h.gone q hs hm'.1
    · exact hm'.2 hs
  kept q hq := by
    rw [not_or] at hq
    exact (h'.kept q hq.2).trans (h.kept q hq.1)

theorem leaf (h : Erased S t t') {p : Bytes} (hp : Leaf t p) : Leaf t' p :=
  fun q hq ha => hp q ((h.mem_iff q).mp hq).1 ha

theorem congr (h : Erased S t t') (hS : ∀ q ∈ t.nodes, (S q ↔ S' q)) : Erased S' t t' where
  gone q hq hm := by
    obtain ⟨h1, h2⟩ := (h.mem_iff q).mp hm
    exact h2 ((hS q h1).mpr hq)
  kept q hq := by
    by_cases hm : q ∈ t.nodes
    · exact h.kept q (fun hs => hq ((hS q hm).mp hs))
    · rw [Finmap.lookup_eq_none.mpr hm, Finmap.lookup_eq_none]
      exact fun hm' => hm ((h.mem_iff q).mp hm').1

/-- What is taken out determines what is left. -/
theorem unique (h : Erased S t t') (h' : Erased S t t'') : t' = t'' := by
  refine ZkTree.ext (Finmap.ext_lookup fun q => ?_)
  by_cases hq : S q
  · rw [Finmap.lookup_eq_none.mpr (h.gone q hq), Finmap.lookup_eq_none.mpr (h'.gone q hq)]
  · rw [h.kept q hq, h'.kept q hq]

end Erased

theorem erased_delete {t t' : ZkTree} {p : Bytes} (h : t.delete p = .ok t') : Erased (· = p) t t' := by
  obtain ⟨-, -, -, hnodes⟩ := ZkTree.delete_ok h
  constructor
  · rintro q rfl hm
    rw [hnodes, Finmap.mem_erase] at hm
    exact hm.1 rfl
  · intro q hq
    rw [hnodes, Finmap.lookup_erase_ne hq]

/-- Without faults a leaf that is there is deleted. -/
theorem zkDeleteExist_leaf {t : ZkTree} {p : Bytes} (hm : p ∈ t.nodes) (hroot : p ≠ rootPath)
    (hleaf : Leaf t p) :
    ∃ t', zkDeleteExist (.quiet t) p = (.ok, .quiet t') ∧ Erased (· = p) t t' := by
  have hne : p ≠ [] := by
    rintro rfl
    exact absurd (t.valid _ hm) (by decide)
  have hz := zkDeleteExist_quiet hm hroot ((children_eq_empty_iff hne hroot).mpr hleaf)
  have hd := (zkDeleteExist_spec hz).2.1 rfl
  rw [cStr_of_nulFree (isValidPath_nulFree (t.valid p hm))] at hd
  exact ⟨_, hz, erased_delete hd⟩

/-- `zk_delete` takes a leaf out, or finds it gone. -/
theorem zkDelete_leaf {t : ZkTree} {p : Bytes} (hv : isValidPath p = true) (hroot : p ≠ rootPath)
    (hleaf : Leaf t p) : ∃ t', zkDelete (.quiet t) p = (.ok, .quiet t') ∧ Erased (· = p) t t' := by
  by_cases hm : p ∈ t.nodes
  · obtain ⟨t', hz, he⟩ := zkDeleteExist_leaf hm hroot hleaf
    exact ⟨t', by rw [zkDelete, hz], he⟩
  · refine ⟨t, by rw [zkDelete, zkDeleteExist_quiet_none hv hm], Erased.of_none ?_⟩
    rintro q rfl
    exact hm

/-! ### The nodes of a release -/

theorem clientNode_ne_root (c : Bytes) : clientNode c ≠ rootPath := by
  intro h
  have := congrArg List.length h
  simp [clientNode, notifyClientPrefix, notifyPrefix, rootPath] at this

theorem contentNode_ne_root (g : Bytes) (i : Nat) : contentNode g i ≠ rootPath := by
  intro h
  have := congrArg List.length h
  rw [contentNode_length, rootPath, List.length_singleton] at this
  omega

theorem backlinkNode_ne_root (g : Bytes) : backlinkNode g ≠ rootPath := by
  intro h
  have := congrArg List.length h
  simp [backlinkNode, notifyBacklinkPrefix, notifyPrefix, rootPath] at this

/-- A client node, one of the content nodes, or the backlink. -/
def ReleaseNode (clients : List Bytes) (grayId q : Bytes) : Prop :=
  (∃ c ∈ clients, q = clientNode c) ∨ (∃ i, q = contentNode grayId i) ∨ q = backlinkNode grayId

/-- What a release has put into the tree. -/
structure Begun (t : ZkTree) (content : Bytes) (clients : List Bytes) (grayId : Bytes) : Prop where
  piece : ∀ j < pieceCount content, t.nodes.lookup (contentNode grayId j) =
    some (contentPiece content (j * grayContentMaxSize))
  last : ∀ j, pieceCount content ≤ j → contentNode grayId j ∉ t.nodes
  backlink : t.nodes.lookup (backlinkNode grayId) = some (backlinkContent clients)
  client : ∀ c ∈ clients, t.nodes.lookup (clientNode c) = some grayId
  pieceLeaf : ∀ j, Leaf t (contentNode grayId j)
  backlinkLeaf : Leaf t (backlinkNode grayId)
  below : ∀ c ∈ clients, ∀ q ∈ t.nodes, Above (clientNode c) q → ∃ d ∈ clients, Above q (clientNode d)
  order : clients.Pairwise (fun c d => ¬ Above d c)

section

variable {zk zk' : Zk} {rawNodes : BytesMap} {clients : List Bytes} {sec usec : Nat}

/-- **A begin that answered `QCONF_OK` has put its release into the tree**, when its id
was not in use.  The nodes of the release are new, every new node is on the way to one of
them, and no node that was there has changed. -/
theorem begun_of_begin (h : zkGrayBegin zk rawNodes clients sec usec = (.ok, zk'))
    (hnul : ∀ c ∈ clients, NulFree c)
    (hnew : ∀ j, contentNode (grayGenerateId sec usec) j ∉ zk.tree.nodes) :
    ∃ nodes content, Accepted zk.tree rawNodes nodes clients ∧
      graySerializeContent nodes = some content ∧
      Begun zk'.tree content clients (grayGenerateId sec usec) ∧ Keeps zk.tree zk'.tree ∧
      (∀ q, ReleaseNode clients (grayGenerateId sec usec) q → q ∉ zk.tree.nodes) ∧
      ∀ q ∈ zk'.tree.nodes, q ∉ zk.tree.nodes →
        ∃ r, ReleaseNode clients (grayGenerateId sec usec) r ∧ Above q r := by
  have hg := (grayGenerateId_plain sec usec).not_mem_slash
  cases hchecked : grayChecked zk rawNodes clients with
  | none =>
    have := (zkGrayBegin_rejected hchecked sec usec).1
    rw [h] at this
    exact absurd this (by simp)
  | some nz =>
    obtain ⟨nodes, zk₂⟩ := nz
    obtain ⟨content, hs, hne, hbegin⟩ := zkGrayBegin_eq hchecked sec usec
    obtain ⟨-, -, -, htree⟩ := grayChecked_some hchecked
    have hacc := grayChecked_accepted hchecked
    rw [h] at hbegin
    obtain ⟨hfit, hok⟩ := (grayWrite_ok_iff hne zk₂).mp (congrArg Prod.fst hbegin).symm
    have hzk : (createAll (grayPlan content clients (grayGenerateId sec usec)) zk₂).2 = zk' :=
      (grayWrite_eq hfit hne zk₂).2.symm.trans (congrArg Prod.snd hbegin).symm
    have hall : createAll (grayPlan content clients (grayGenerateId sec usec)) zk₂ = (true, zk') :=
      Prod.ext hok hzk
    have hplan := @grayPlan_nulFree content clients sec usec hnul
    obtain ⟨hmem, hval⟩ := createAll_ok hplan hall
    rw [htree] at hmem
    have hready := createAll_ready hplan hall
    rw [htree] at hready
    have hkeep := keeps_createAll (grayPlan content clients (grayGenerateId sec usec)) zk₂
    rw [hall, htree] at hkeep
    have hclients : ∀ c ∈ clients, isValidPath (clientNode c) = true ∧ clientNode c ∉ zk.tree.nodes := by
      intro c hc
      have := hacc.client c hc
      rwa [cStr_of_nulFree (clientNode_nulFree (hnul c hc))] at this
    have hbr := (grayPlan_ready hacc.clients_ne hclients).mp ⟨hfit, hready⟩
    -- a node below a new node is new, and so on the way to a node of the plan
    have hbelow : ∀ p, p ≠ [] → p ∉ zk.tree.nodes → ∀ q ∈ zk'.tree.nodes, Above p q →
        ∃ pv ∈ grayPlan content clients (grayGenerateId sec usec), Above p pv.1 ∧ Above q pv.1 := by
      intro p hp hpn q hq ha
      rcases (hmem q).mp hq with hold | ⟨pv, hpv, hqa, -⟩
      · exact absurd (above_mem q p hold ha hp) hpn
      · exact ⟨pv, hpv, ha.trans hqa, hqa⟩
    refine ⟨nodes, content, hacc, hs, ⟨?_, ?_, ?_, ?_, ?_, ?_, ?_, hbr.order⟩, hkeep, ?_, ?_⟩
    · intro j hj
      exact hval _ (mem_grayPlan.mpr (Or.inl ⟨j, hj, rfl⟩))
    · intro j hj hm
      rcases (hmem _).mp hm with hold | ⟨pv, hpv, ha, -⟩
      · exact hnew j hold
      · rcases mem_grayPlan.mp hpv with ⟨i, hi, rfl⟩ | ⟨c, -, rfl⟩ | rfl
        · have := not_above_contentNode hg ha
          omega
        · exact not_above_content_client _ _ _ ha
        · exact not_above_content_backlink _ _ _ ha
    · exact hval _ (mem_grayPlan.mpr (Or.inr (Or.inr rfl)))
    · intro c hc
      exact hval _ (mem_grayPlan.mpr (Or.inr (Or.inl ⟨c, hc, rfl⟩)))
    · intro j q hq ha
      obtain ⟨pv, hpv, hpa, hqa⟩ := hbelow _ (by simp [contentNode]) (hnew j) q hq ha
      rcases mem_grayPlan.mp hpv with ⟨i, -, rfl⟩ | ⟨c, -, rfl⟩ | rfl
      · rw [← not_above_contentNode hg hpa] at hqa
        exact hqa.antisymm ha
      · exact absurd hpa (not_above_content_client _ _ _)
      · exact absurd hpa (not_above_content_backlink _ _ _)
    · intro q hq ha
      obtain ⟨pv, hpv, hpa, hqa⟩ := hbelow _ (by simp [backlinkNode]) hbr.backlink q hq ha
      rcases mem_grayPlan.mp hpv with ⟨i, -, rfl⟩ | ⟨c, -, rfl⟩ | rfl
      · exact absurd hpa (not_above_backlink_content _ _ _)
      · exact absurd hpa (not_above_backlink_client _ _)
      · exact hqa.antisymm ha
    · intro c hc q hq ha
      obtain ⟨pv, hpv, hpa, hqa⟩ := hbelow _ (by simp [clientNode]) (hclients c hc).2 q hq ha
      rcases mem_grayPlan.mp hpv with ⟨i, -, rfl⟩ | ⟨d, hd, rfl⟩ | rfl
      · exact absurd hpa (not_above_client_content _ _ _)
      · exact ⟨d, hd, hqa⟩
      · exact absurd hpa (not_above_client_backlink _ _)
    · rintro q (⟨c, hc, rfl⟩ | ⟨i, rfl⟩ | rfl)
      · exact (hclients c hc).2
      · exact hnew i
      · exact hbr.backlink
    · intro q hq hn
      rcases (hmem q).mp hq with hold | ⟨pv, hpv, hqa, -⟩
      · exact absurd hold hn
      · rcases mem_grayPlan.mp hpv with ⟨i, -, rfl⟩ | ⟨c, hc, rfl⟩ | rfl
        · exact ⟨_, Or.inr (Or.inl ⟨i, rfl⟩), hqa⟩
        · exact ⟨_, Or.inl ⟨c, hc, rfl⟩, hqa⟩
        · exact ⟨_, Or.inr (Or.inr rfl), hqa⟩

end

/-! ### The clients in the backlink -/

/-- The clients that come back from the backlink: none has a `;` in its name. -/
def Listed (clients : List Bytes) : Prop := ∀ c ∈ clients, backlinkDelim ∉ c

instance (clients : List Bytes) : Decidable (Listed clients) := inferInstanceAs (Decidable (∀ _ ∈ _, _))

theorem getlines_item : ∀ (c item rest : Bytes), backlinkDelim ∉ c →
    getlines backlinkDelim item (c ++ backlinkDelim :: rest) = (item ++ c) :: getlines backlinkDelim [] rest := by
  intro c
  induction c with
  | nil => intro item rest _; simp [getlines]
  | cons b c ih =>
    intro item rest hc
    rw [List.mem_cons, not_or] at hc
    rw [List.cons_append, getlines, if_neg (Ne.symm hc.1), ih _ _ hc.2, List.append_assoc,
      List.singleton_append]

/-- **The clients are read back** from the backlink. -/
theorem getlines_backlinkContent {clients : List Bytes} (h : Listed clients) :
    getlines backlinkDelim [] (backlinkContent clients) = clients := by
  induction clients with
  | nil => rfl
  | cons c clients ih =>
    have hc := h c List.mem_cons_self
    rw [backlinkContent, List.flatMap_cons, List.append_assoc, List.singleton_append,
      getlines_item c [] _ hc, List.nil_append]
    exact congrArg (c :: ·) (ih fun d hd => h d (List.mem_cons_of_mem _ hd))

/-- No item has a `;` in it. -/
theorem getlines_listed : ∀ (rest item : Bytes), backlinkDelim ∉ item → Listed (getlines backlinkDelim item rest) := by
  intro rest
  induction rest with
  | nil =>
    intro item hi c hc
    rw [getlines] at hc
    split at hc
    · exact absurd hc (by simp)
    · rw [List.mem_singleton] at hc
      exact hc ▸ hi
  | cons b rest ih =>
    intro item hi
    rw [getlines]
    split
    · exact List.forall_mem_cons.mpr ⟨hi, ih [] (by simp)⟩
    · next hb =>
      refine ih _ ?_
      rw [List.mem_append, List.mem_singleton, not_or]
      exact ⟨hi, Ne.symm hb⟩

/-! ### Deleting a release without faults -/

theorem deleteClients_quiet : ∀ {items : List Bytes} {t : ZkTree},
    (∀ c ∈ items, isValidPath (clientNode c) = true ∧ Leaf t (clientNode c)) →
      ∃ t', deleteClients items (.quiet t) = (.ok, .quiet t') ∧
        Erased (fun q => ∃ c ∈ items, q = clientNode c) t t' := by
  intro items
  induction items with
  | nil =>
    intro t _
    exact ⟨t, rfl, Erased.of_none (by simp)⟩
  | cons item items ih =>
    intro t h
    obtain ⟨hv, hleaf⟩ := h item List.mem_cons_self
    obtain ⟨t₁, hz, he⟩ := zkDelete_leaf hv (clientNode_ne_root item) hleaf
    obtain ⟨t₂, hd, he'⟩ := ih (t := t₁) fun c hc =>
      ⟨(h c (List.mem_cons_of_mem _ hc)).1, he.leaf (h c (List.mem_cons_of_mem _ hc)).2⟩
    refine ⟨t₂, by rw [deleteClients, hz]; exact hd, (he.trans he').congr ?_⟩
    intro q _
    simp

theorem deleteContent_quiet {sec usec : Nat} : ∀ (k i fuel : Nat) (t : ZkTree),
    (∀ j, i ≤ j → j < i + k → contentNode (grayGenerateId sec usec) j ∈ t.nodes) →
    contentNode (grayGenerateId sec usec) (i + k) ∉ t.nodes →
    (∀ j, Leaf t (contentNode (grayGenerateId sec usec) j)) → k < fuel →
      ∃ t', deleteContent (grayGenerateId sec usec) fuel (.quiet t) i = (.errZooNotExist, .quiet t') ∧
        Erased (fun q => ∃ j, i ≤ j ∧ j < i + k ∧ q = contentNode (grayGenerateId sec usec) j) t t' := by
  intro k
  induction k with
  | zero =>
    intro i fuel t _ hend _ hfuel
    obtain ⟨fuel, rfl⟩ : ∃ f, fuel = f + 1 := ⟨fuel - 1, by omega⟩
    refine ⟨t, ?_, Erased.of_none ?_⟩
    · rw [deleteContent, zkDeleteExist_quiet_none (contentNode_valid sec usec i) hend]
    · rintro q ⟨j, h1, h2, -⟩
      omega
  | succ k ih =>
    intro i fuel t hmem hend hleaf hfuel
    obtain ⟨fuel, rfl⟩ : ∃ f, fuel = f + 1 := ⟨fuel - 1, by omega⟩
    obtain ⟨t₁, hz, he⟩ := zkDeleteExist_leaf (hmem i (Nat.le_refl _) (by omega))
      (contentNode_ne_root _ i) (hleaf i)
    obtain ⟨t₂, hd, he'⟩ := ih (i + 1) fuel t₁
      (fun j h1 h2 => (he.mem_iff _).mpr ⟨hmem j (by omega) (by omega), fun hj => by
        have := contentNode_inj hj
        omega⟩)
      (fun hm => hend (by
        have := ((he.mem_iff _).mp hm).1
        rwa [show i + 1 + k = i + (k + 1) by omega] at this))
      (fun j => he.leaf (hleaf j)) (by omega)
    refine ⟨t₂, by rw [deleteContent, hz]; exact hd, (he.trans he').congr ?_⟩
    intro q _
    constructor
    · rintro (rfl | ⟨j, h1, h2, rfl⟩)
      · exact ⟨i, Nat.le_refl _, by omega, rfl⟩
      · exact ⟨j, by omega, by omega, rfl⟩
    · rintro ⟨j, h1, h2, rfl⟩
      by_cases hj : j = i
      · exact Or.inl (by rw [hj])
      · exact Or.inr ⟨j, by omega, by omega, rfl⟩

/-- **A release is deleted without faults**: its clients, whether they are still there or
not, the content nodes up to the first that is missing, and the backlink. -/
theorem zkGrayDeleteNotify_quiet {t : ZkTree} {clients : List Bytes} {sec usec n : Nat}
    (hback : t.nodes.lookup (backlinkNode (grayGenerateId sec usec)) = some (backlinkContent clients))
    (hbleaf : Leaf t (backlinkNode (grayGenerateId sec usec))) (hlisted : Listed clients)
    (hclients : ∀ c ∈ clients, isValidPath (clientNode c) = true ∧ Leaf t (clientNode c))
    (hmem : ∀ j < n, contentNode (grayGenerateId sec usec) j ∈ t.nodes)
    (hend : contentNode (grayGenerateId sec usec) n ∉ t.nodes)
    (hleaf : ∀ j, Leaf t (contentNode (grayGenerateId sec usec) j)) :
    ∃ t', zkGrayDeleteNotify (.quiet t) (grayGenerateId sec usec) = (.ok, .quiet t') ∧
      Erased (fun q => (∃ c ∈ clients, q = clientNode c) ∨
        (∃ j < n, q = contentNode (grayGenerateId sec usec) j) ∨
        q = backlinkNode (grayGenerateId sec usec)) t t' := by
  obtain ⟨t₁, hd₁, he₁⟩ := deleteClients_quiet hclients
  have hmem₁ : ∀ j < n, contentNode (grayGenerateId sec usec) j ∈ t₁.nodes := by
    intro j hj
    refine (he₁.mem_iff _).mpr ⟨hmem j hj, ?_⟩
    rintro ⟨c, -, hc⟩
    exact clientNode_ne_contentNode c _ j hc.symm
  obtain ⟨t₂, hd₂, he₂⟩ := @deleteContent_quiet sec usec n 0 (t₁.nodes.keys.card + 1) t₁
    (fun j _ hj => hmem₁ j (by omega))
    (fun hm => hend (by simpa using ((he₁.mem_iff _).mp hm).1))
    (fun j => he₁.leaf (hleaf j)) (Nat.lt_succ_of_le (content_le_card hmem₁))
  obtain ⟨t₃, hd₃, he₃⟩ := zkDelete_leaf (backlinkNode_valid sec usec) (backlinkNode_ne_root _)
    (he₂.leaf (he₁.leaf hbleaf))
  refine ⟨t₃, ?_, ((he₁.trans he₂).trans he₃).congr ?_⟩
  · rw [zkGrayDeleteNotify, zkGet_quiet hback]
    dsimp only
    rw [getlines_backlinkContent hlisted, hd₁]
    dsimp only
    rw [show (Zk.quiet t₁).tree = t₁ from rfl, hd₂]
    dsimp only
    rw [hd₃]
  · intro q _
    simp [or_assoc]

/-! ### What a deletion can do, whatever fails -/

/-- Every node is as it was, or was in `R` and is gone. -/
def Shrunk (R : Bytes → Prop) (t t' : ZkTree) : Prop :=
  ∀ q, t'.nodes.lookup q = t.nodes.lookup q ∨ (R q ∧ q ∉ t'.nodes)

namespace Shrunk

variable {R R' : Bytes → Prop} {t t' t'' : ZkTree}

theorem refl (R : Bytes → Prop) (t : ZkTree) : Shrunk R t t := fun _ => Or.inl rfl

theorem mem (h : Shrunk R t t') {q : Bytes} (hq : q ∈ t'.nodes) : q ∈ t.nodes := by
  rcases h q with hl | ⟨-, hn⟩
  · rwa [← Finmap.lookup_isSome, ← hl, Finmap.lookup_isSome]
  · exact absurd hq hn

theorem lookup (h : Shrunk R t t') {q : Bytes} (hq : ¬ R q) : t'.nodes.lookup q = t.nodes.lookup q :=
  (h q).elim id (fun hr => absurd hr.1 hq)

theorem lookup_mem (h : Shrunk R t t') {q : Bytes} (hq : q ∈ t'.nodes) :
    t'.nodes.lookup q = t.nodes.lookup q := (h q).elim id (fun hr => absurd hq hr.2)

theorem keep (h : Shrunk R t t') {q : Bytes} (hR : ¬ R q) (hq : q ∈ t.nodes) : q ∈ t'.nodes := by
  rwa [← Finmap.lookup_isSome, h.lookup hR, Finmap.lookup_isSome]

theorem trans (h : Shrunk R t t') (h' : Shrunk R t' t'') : Shrunk R t t'' := by
  intro q
  rcases h' q with h2 | h2
  · rcases h q with h1 | ⟨h1, hn⟩
    · exact Or.inl (h2.trans h1)
    · exact Or.inr ⟨h1, by rwa [← Finmap.lookup_eq_none, h2, Finmap.lookup_eq_none]⟩
  · exact Or.inr h2

theorem mono (h : Shrunk R t t') (hR : ∀ q, R q → R' q) : Shrunk R' t t' :=
  fun q => (h q).imp id (fun ⟨h1, h2⟩ => ⟨hR q h1, h2⟩)

theorem leaf (h : Shrunk R t t') {p : Bytes} (hp : Leaf t p) : Leaf t' p :=
  fun q hq ha => hp q (h.mem hq) ha

/-- What is left once the rest of `R` is taken out as well. -/
theorem erased (h : Shrunk R t t') (he : Erased R t' t'') : Erased R t t'' where
  gone := he.gone
  kept q hq := (he.kept q hq).trans (h.lookup hq)

end Shrunk

theorem shrunk_deleteExist {zk zk' : Zk} {path : Bytes} {ret : Ret}
    (h : zkDeleteExist zk path = (ret, zk')) : Shrunk (· = cStr path) zk.tree zk'.tree := by
  rcases (zkDeleteExist_spec h).1 with ht | hd
  · rw [ht]
    exact Shrunk.refl _ _
  · intro q
    by_cases hq : q = cStr path
    · exact Or.inr ⟨hq, (erased_delete hd).gone q hq⟩
    · exact Or.inl ((erased_delete hd).kept q hq)

theorem shrunk_delete {zk zk' : Zk} {path : Bytes} {ret : Ret} (h : zkDelete zk path = (ret, zk')) :
    Shrunk (· = cStr path) zk.tree zk'.tree := by
  unfold zkDelete at h
  split at h
  · next hz =>
    cases h
    exact shrunk_deleteExist hz
  · exact shrunk_deleteExist h

theorem shrunk_deleteClients : ∀ (items : List Bytes) (zk : Zk),
    Shrunk (fun q => ∃ c ∈ items, q = cStr (clientNode c)) zk.tree (deleteClients items zk).2.tree := by
  intro items
  induction items with
  | nil => exact fun zk => Shrunk.refl _ _
  | cons item items ih =>
    intro zk
    rw [deleteClients]
    split
    · next hz =>
      refine ((shrunk_delete hz).mono fun q hq => ⟨item, List.mem_cons_self, hq⟩).trans
        ((ih _).mono ?_)
      rintro q ⟨c, hc, hq⟩
      exact ⟨c, List.mem_cons_of_mem _ hc, hq⟩
    · next hz => exact (shrunk_delete hz).mono fun q hq => ⟨item, List.mem_cons_self, hq⟩

theorem shrunk_deleteContent {sec usec : Nat} : ∀ (fuel index : Nat) (zk : Zk),
    Shrunk (fun q => ∃ i, q = contentNode (grayGenerateId sec usec) i) zk.tree
      (deleteContent (grayGenerateId sec usec) fuel zk index).2.tree := by
  have hcstr : ∀ i, cStr (contentNode (grayGenerateId sec usec) i) =
      contentNode (grayGenerateId sec usec) i :=
    fun i => cStr_of_nulFree (isValidPath_nulFree (contentNode_valid sec usec i))
  intro fuel
  induction fuel with
  | zero => exact fun index zk => Shrunk.refl _ _
  | succ fuel ih =>
    intro index zk
    have hone : ∀ {ret zk'}, zkDeleteExist zk (contentNode (grayGenerateId sec usec) index) = (ret, zk') →
        Shrunk (fun q => ∃ i, q = contentNode (grayGenerateId sec usec) i) zk.tree zk'.tree :=
      fun hz => (shrunk_deleteExist hz).mono fun q hq => ⟨index, hq.trans (hcstr index)⟩
    rw [deleteContent]
    split
    · next hz => exact (hone hz).trans (ih _ _)
    · exact hone rfl

/-- Content nodes are deleted from number 0 on. -/
theorem deleteContent_first {sec usec : Nat} (fuel : Nat) (zk : Zk) :
    (deleteContent (grayGenerateId sec usec) fuel zk 0).2.tree = zk.tree ∨
      contentNode (grayGenerateId sec usec) 0 ∉
        (deleteContent (grayGenerateId sec usec) fuel zk 0).2.tree.nodes := by
  cases fuel with
  | zero => exact Or.inl rfl
  | succ fuel =>
    rw [deleteContent]
    have hgone : ∀ {t' : ZkTree}, zk.tree.delete (cStr (contentNode (grayGenerateId sec usec) 0)) = .ok t' →
        contentNode (grayGenerateId sec usec) 0 ∉ t'.nodes := by
      intro t' hd
      rw [cStr_of_nulFree (isValidPath_nulFree (contentNode_valid sec usec 0))] at hd
      exact (erased_delete hd).gone _ rfl
    split
    · next hz =>
      refine Or.inr fun hm => hgone ((zkDeleteExist_spec hz).2.1 rfl) ?_
      exact (shrunk_deleteContent _ _ _).mem hm
    · exact (zkDeleteExist_spec rfl).1.imp id hgone

/-- How far `zk_gray_delete_notify` gets, whatever fails: it does not read the backlink, it
stops at a client, it stops at a content node, or it comes to the backlink. -/
inductive Stages (zk : Zk) (g : Bytes) : Zk → Prop
  | unread {zk₁ : Zk} (htree : zk₁.tree = zk.tree) : Stages zk g zk₁
  | clients {zk₁ : Zk} {bl : Bytes} (htree : zk₁.tree = zk.tree)
      (hbl : zk.tree.nodes.lookup (cStr (backlinkNode g)) = some bl) :
      Stages zk g (deleteClients (getlines backlinkDelim [] bl) zk₁).2
  | content {zk₁ : Zk} {bl : Bytes} (fuel : Nat) (htree : zk₁.tree = zk.tree)
      (hbl : zk.tree.nodes.lookup (cStr (backlinkNode g)) = some bl)
      (hok : (deleteClients (getlines backlinkDelim [] bl) zk₁).1 = .ok) :
      Stages zk g (deleteContent g fuel (deleteClients (getlines backlinkDelim [] bl) zk₁).2 0).2
  | backlink {zk₁ : Zk} {bl : Bytes} (fuel : Nat) (htree : zk₁.tree = zk.tree)
      (hbl : zk.tree.nodes.lookup (cStr (backlinkNode g)) = some bl)
      (hok : (deleteClients (getlines backlinkDelim [] bl) zk₁).1 = .ok) :
      Stages zk g
        (zkDelete (deleteContent g fuel (deleteClients (getlines backlinkDelim [] bl) zk₁).2 0).2 (backlinkNode g)).2

theorem zkGrayDeleteNotify_stages (zk : Zk) (g : Bytes) : Stages zk g (zkGrayDeleteNotify zk g).2 := by
  rw [zkGrayDeleteNotify]
  split
  · next bl zk₁ hget =>
    obtain ⟨htree, hbl, -⟩ := zkGet_spec hget
    have hclients := Stages.clients htree (hbl rfl)
    have hcontent := fun fuel => Stages.content fuel htree (hbl rfl)
    have hbacklink := fun fuel => Stages.backlink fuel htree (hbl rfl)
    split
    · next zk₂ hd =>
      rw [hd] at hcontent hbacklink
      split
      · next zk₃ hc =>
        have hb := hbacklink (zk₂.tree.nodes.keys.card + 1) rfl
        dsimp only at hb
        rw [hc] at hb
        split <;> next hz =>
          rw [hz] at hb
          exact hb
      · next hc =>
        have hb := hcontent (zk₂.tree.nodes.keys.card + 1) rfl
        dsimp only at hb
        rw [hc] at hb
        exact hb
    · exact hclients
  · next hget => exact .unread (zkGet_spec hget).1

section

variable {zk zk' : Zk} {sec usec : Nat}

theorem cStr_backlinkNode (sec usec : Nat) :
    cStr (backlinkNode (grayGenerateId sec usec)) = backlinkNode (grayGenerateId sec usec) :=
  cStr_of_nulFree (isValidPath_nulFree (backlinkNode_valid sec usec))

/-- Only the clients of the backlink, the content nodes and the backlink are deleted. -/
theorem Stages.shrunk (h : Stages zk (grayGenerateId sec usec) zk') :
    Shrunk (fun q =>
      (∃ c ∈ getlines backlinkDelim [] ((zk.tree.nodes.lookup (backlinkNode (grayGenerateId sec usec))).getD []),
        q = cStr (clientNode c)) ∨
      (∃ i, q = contentNode (grayGenerateId sec usec) i) ∨ q = backlinkNode (grayGenerateId sec usec))
      zk.tree zk'.tree := by
  cases h with
  | unread htree =>
    rw [htree]
    exact Shrunk.refl _ _
  | clients htree hbl =>
    rw [cStr_backlinkNode] at hbl
    rw [hbl, ← htree]
    exact (shrunk_deleteClients _ _).mono fun q hq => Or.inl hq
  | content fuel htree hbl _ =>
    rw [cStr_backlinkNode] at hbl
    rw [hbl, ← htree]
    exact ((shrunk_deleteClients _ _).mono fun q hq => Or.inl hq).trans
      ((shrunk_deleteContent _ _ _).mono fun q hq => Or.inr (Or.inl hq))
  | backlink fuel htree hbl _ =>
    rw [cStr_backlinkNode] at hbl
    rw [hbl, ← htree]
    refine (((shrunk_deleteClients _ _).mono fun q hq => Or.inl hq).trans
      ((shrunk_deleteContent _ _ _).mono fun q hq => Or.inr (Or.inl hq))).trans
      ((shrunk_delete rfl).mono fun q hq => Or.inr (Or.inr ?_))
    rwa [cStr_backlinkNode] at hq

/-- While the content node 0 is there, all the content nodes are. -/
theorem Stages.content_mem (h : Stages zk (grayGenerateId sec usec) zk')
    (h0 : contentNode (grayGenerateId sec usec) 0 ∈ zk'.tree.nodes) {i : Nat}
    (hi : contentNode (grayGenerateId sec usec) i ∈ zk.tree.nodes) :
    contentNode (grayGenerateId sec usec) i ∈ zk'.tree.nodes := by
  have hkept : ∀ items zk₁, zk₁.tree = zk.tree →
      contentNode (grayGenerateId sec usec) i ∈ (deleteClients items zk₁).2.tree.nodes := by
    intro items zk₁ htree
    refine (shrunk_deleteClients items zk₁).keep ?_ (htree ▸ hi)
    rintro ⟨c, -, hc⟩
    rw [clientNode, cStr_append, if_pos (by decide)] at hc
    exact clientNode_ne_contentNode _ _ _ hc.symm
  cases h with
  | unread htree => exact htree ▸ hi
  | clients htree _ => exact hkept _ _ htree
  | content fuel htree _ _ =>
    rcases deleteContent_first fuel _ with ht | hn
    · rw [ht]
      exact hkept _ _ htree
    · exact absurd h0 hn
  | backlink fuel htree _ _ =>
    have hs : ∀ zk₁ : Zk, Shrunk (· = cStr (backlinkNode (grayGenerateId sec usec))) zk₁.tree
        (zkDelete zk₁ (backlinkNode (grayGenerateId sec usec))).2.tree := fun _ => shrunk_delete rfl
    rcases deleteContent_first fuel _ with ht | hn
    · refine (hs _).keep ?_ (by rw [ht]; exact hkept _ _ htree)
      rw [cStr_backlinkNode]
      exact contentNode_ne_backlinkNode _ _ _
    · exact absurd ((hs _).mem h0) hn

/-- A client with a `;` in its name is never deleted: no item of the backlink is that
name. -/
theorem Stages.keep_unlisted (h : Stages zk (grayGenerateId sec usec) zk') {c : Bytes}
    (hc : backlinkDelim ∈ c) (hm : clientNode c ∈ zk.tree.nodes) : clientNode c ∈ zk'.tree.nodes := by
  refine h.shrunk.keep ?_ hm
  rintro (⟨item, hitem, heq⟩ | ⟨i, heq⟩ | heq)
  · rw [clientNode, clientNode, cStr_append, if_pos (by decide)] at heq
    have hc' := clientNode_inj (d := cStr item) heq
    rw [hc'] at hc
    exact getlines_listed _ [] (by simp) item hitem ((List.takeWhile_subset _) hc)
  · exact clientNode_ne_contentNode _ _ _ heq
  · exact clientNode_ne_backlinkNode _ _ heq

/-- A client that stands before one below it cannot be deleted, so the loop does not come
to the other one. -/
theorem deleteClients_blocked {d : Bytes} : ∀ {items : List Bytes} {zk : Zk}, (∀ c ∈ items, NulFree c) →
    items.Pairwise (fun c e => ¬ Above e c) → clientNode d ∈ zk.tree.nodes →
    (∃ c ∈ items, Above c d ∧ c ≠ d) →
      clientNode d ∈ (deleteClients items zk).2.tree.nodes ∧ (deleteClients items zk).1 ≠ .ok := by
  intro items
  induction items with
  | nil =>
    rintro zk _ _ _ ⟨c, hc, -⟩
    exact absurd hc (by simp)
  | cons item items ih =>
    rintro zk hnul hord hm ⟨c, hc, ha, hne⟩
    have hcstr := cStr_of_nulFree (clientNode_nulFree (hnul item List.mem_cons_self))
    have hord' := List.pairwise_cons.mp hord
    rcases List.mem_cons.mp hc with rfl | hc
    · -- the client above: it has a child, so it stays
      have hab : Above (clientNode c) (clientNode d) := above_clientNode_iff.mpr ha
      have hne' : clientNode c ≠ clientNode d := fun h => hne (clientNode_inj h)
      have hno : ∀ t', zk.tree.delete (clientNode c) ≠ .ok t' := by
        intro t' hd
        obtain ⟨hroot, -, hchildren, -⟩ := ZkTree.delete_ok hd
        have hleaf := (children_eq_empty_iff (by simp [clientNode]) hroot).mp hchildren
        exact hne' (hleaf _ hm hab).symm
      have hin := above_mem _ _ hm hab (by simp [clientNode])
      have hspec := zkDelete_spec (show zkDelete zk (clientNode c) = (_, _) from rfl)
      rw [hcstr] at hspec
      have htree : (zkDelete zk (clientNode c)).2.tree = zk.tree :=
        hspec.1.elim id (fun hd => absurd hd (hno _))
      have hret : (zkDelete zk (clientNode c)).1 ≠ .ok := by
        intro hok
        rcases hspec.2 hok with hd | ⟨-, hn⟩
        · exact hno _ hd
        · exact hn hin
      rw [deleteClients]
      split
      · next hz =>
        rw [hz] at hret
        exact absurd rfl hret
      · next hz =>
        rw [hz] at htree
        exact ⟨htree ▸ hm, by simp⟩
    · have hitem : item ≠ d := by
        rintro rfl
        exact hord'.1 c hc ha
      have hkeep : ∀ {ret zk₁}, zkDelete zk (clientNode item) = (ret, zk₁) →
          clientNode d ∈ zk₁.tree.nodes := by
        intro ret zk₁ hz
        refine (shrunk_delete hz).keep ?_ hm
        rw [hcstr]
        exact fun h => hitem (clientNode_inj h).symm
      rw [deleteClients]
      split
      · next hz =>
        exact ih (fun c hc => hnul c (List.mem_cons_of_mem _ hc)) hord'.2 (hkeep hz) ⟨c, hc, ha, hne⟩
      · next hz => exact ⟨hkeep hz, by simp⟩

theorem Stages.keep_blocked (h : Stages zk (grayGenerateId sec usec) zk') {clients : List Bytes}
    (hbl : ∀ bl, zk.tree.nodes.lookup (backlinkNode (grayGenerateId sec usec)) = some bl →
      getlines backlinkDelim [] bl = clients) (hnul : ∀ c ∈ clients, NulFree c)
    (hord : clients.Pairwise (fun c d => ¬ Above d c)) {c d : Bytes} (hc : c ∈ clients)
    (ha : Above c d) (hne : c ≠ d) (hm : clientNode d ∈ zk.tree.nodes) :
    clientNode d ∈ zk'.tree.nodes := by
  have hblocked : ∀ {zk₁ : Zk}, zk₁.tree = zk.tree →
      clientNode d ∈ (deleteClients clients zk₁).2.tree.nodes ∧ (deleteClients clients zk₁).1 ≠ .ok :=
    fun htree => deleteClients_blocked hnul hord (htree ▸ hm) ⟨c, hc, ha, hne⟩
  cases h with
  | unread htree => exact htree ▸ hm
  | clients htree hl =>
    rw [cStr_backlinkNode] at hl
    rw [hbl _ hl]
    exact (hblocked htree).1
  | content fuel htree hl hok =>
    rw [cStr_backlinkNode] at hl
    rw [hbl _ hl] at hok
    exact absurd hok (hblocked htree).2
  | backlink fuel htree hl hok =>
    rw [cStr_backlinkNode] at hl
    rw [hbl _ hl] at hok
    exact absurd hok (hblocked htree).2

end

/-! ### The clients of a release -/

/-- No client is above another one. -/
def Apart (clients : List Bytes) : Prop := ∀ c ∈ clients, ∀ d ∈ clients, Above c d → c = d

section

variable {t t' : ZkTree} {content : Bytes} {clients : List Bytes} {g : Bytes}

theorem Begun.client_mem (h : Begun t content clients g) {c : Bytes} (hc : c ∈ clients) :
    clientNode c ∈ t.nodes := ZkTree.mem_of_lookup (h.client c hc)

/-- Client nodes that are apart are leaves. -/
theorem Begun.clientLeaf (h : Begun t content clients g) (hapart : Apart clients) {c : Bytes}
    (hc : c ∈ clients) : Leaf t (clientNode c) := by
  intro q hq ha
  obtain ⟨d, hd, hqa⟩ := h.below c hc q hq ha
  have hcd := hapart c hc d hd (above_clientNode_iff.mp (ha.trans hqa))
  rw [← hcd] at hqa
  exact hqa.antisymm ha

theorem Begun.content_lt (h : Begun t content clients g) {i : Nat} (hi : contentNode g i ∈ t.nodes) :
    i < pieceCount content := by
  by_contra hn
  exact h.last i (Nat.not_lt.mp hn) hi

end

/-! ### Deleting what is left of a release -/

/-- A release of which a part may be gone, in a state in which the rest can be deleted. -/
structure Resumable (clients : List Bytes) (grayId : Bytes) (t : ZkTree) : Prop where
  listed : Listed clients
  apart : Apart clients
  backlink : backlinkNode grayId ∈ t.nodes
  content : contentNode grayId 0 ∈ t.nodes ∨ ∀ i, contentNode grayId i ∉ t.nodes

section

variable {t₁ t₂ : ZkTree} {content : Bytes} {clients : List Bytes} {sec usec : Nat}

/-- The nodes that a rollback can delete are those of the release. -/
theorem Stages.shrunk_begun {zk zk' : Zk} (hs : Stages zk (grayGenerateId sec usec) zk')
    (h : Begun zk.tree content clients (grayGenerateId sec usec)) (hlisted : Listed clients)
    (hnul : ∀ c ∈ clients, NulFree c) :
    Shrunk (ReleaseNode clients (grayGenerateId sec usec)) zk.tree zk'.tree := by
  refine hs.shrunk.mono fun q hq => ?_
  rw [h.backlink] at hq
  rcases hq with ⟨c, hc, rfl⟩ | hq | hq
  · rw [Option.getD_some, getlines_backlinkContent hlisted] at hc
    exact Or.inl ⟨c, hc, cStr_of_nulFree (clientNode_nulFree (hnul c hc))⟩
  · exact Or.inr (Or.inl hq)
  · exact Or.inr (Or.inr hq)

/-- As long as the backlink is there it names the clients. -/
theorem Begun.backlink_lines (h : Begun t₁ content clients (grayGenerateId sec usec)) (hlisted : Listed clients)
    (hs : Shrunk (ReleaseNode clients (grayGenerateId sec usec)) t₁ t₂) (bl : Bytes)
    (hl : t₂.nodes.lookup (backlinkNode (grayGenerateId sec usec)) = some bl) : getlines backlinkDelim [] bl = clients := by
  have hl' := (hs.lookup_mem (ZkTree.mem_of_lookup hl)).symm.trans hl
  rw [h.backlink, Option.some.injEq] at hl'
  rw [← hl', getlines_backlinkContent hlisted]

/-- **A release of which every client is deleted** has clients that can be deleted. -/
theorem Stages.deletable {zk zk' : Zk} (hs : Stages zk (grayGenerateId sec usec) zk')
    (h : Begun zk.tree content clients (grayGenerateId sec usec)) (hnul : ∀ c ∈ clients, NulFree c)
    (hgone : ∀ c ∈ clients, clientNode c ∉ zk'.tree.nodes) : Listed clients ∧ Apart clients := by
  have hlisted : Listed clients := fun c hc hdelim => hgone c hc (hs.keep_unlisted hdelim (h.client_mem hc))
  refine ⟨hlisted, fun c hc d hd ha => ?_⟩
  by_contra hne
  exact hgone d hd (hs.keep_blocked (h.backlink_lines hlisted (Shrunk.refl _ _)) hnul h.order hc ha hne
    (h.client_mem hd))

/-- Without faults a release is taken out of which some nodes are
already gone, if the content nodes are all there or all gone. -/
theorem Begun.deleteNotify_quiet (h : Begun t₁ content clients (grayGenerateId sec usec))
    (hs : Shrunk (ReleaseNode clients (grayGenerateId sec usec)) t₁ t₂)
    (hr : Resumable clients (grayGenerateId sec usec) t₂)
    (hall : contentNode (grayGenerateId sec usec) 0 ∈ t₂.nodes → ∀ i < pieceCount content,
      contentNode (grayGenerateId sec usec) i ∈ t₂.nodes) :
    ∃ t₃, zkGrayDeleteNotify (.quiet t₂) (grayGenerateId sec usec) = (.ok, .quiet t₃) ∧
      Erased (ReleaseNode clients (grayGenerateId sec usec)) t₁ t₃ := by
  obtain ⟨n, hmem, hend⟩ : ∃ n, (∀ i < n, contentNode (grayGenerateId sec usec) i ∈ t₂.nodes) ∧
      ∀ i, contentNode (grayGenerateId sec usec) i ∈ t₂.nodes → i < n := by
    rcases hr.content with h0 | hno
    · exact ⟨pieceCount content, hall h0, fun i hi => h.content_lt (hs.mem hi)⟩
    · exact ⟨0, fun i hi => absurd hi (Nat.not_lt_zero i), fun i hi => absurd hi (hno i)⟩
  obtain ⟨t₃, hd, he⟩ := zkGrayDeleteNotify_quiet (n := n)
    ((hs.lookup_mem hr.backlink).trans h.backlink) (hs.leaf h.backlinkLeaf) hr.listed
    (fun c hc => ⟨t₁.valid _ (h.client_mem hc), hs.leaf (h.clientLeaf hr.apart hc)⟩) hmem
    (fun hm => absurd (hend n hm) (Nat.lt_irrefl n)) (fun j => hs.leaf (h.pieceLeaf j))
  refine ⟨t₃, hd, hs.erased (he.congr ?_)⟩
  intro q hq
  refine or_congr_right (or_congr_left ⟨fun ⟨j, _, hj⟩ => ⟨j, hj⟩, fun ⟨j, hj⟩ => ⟨j, ?_, hj⟩⟩)
  exact hend j (hj ▸ hq)

/-- **Without faults a release whose clients can be deleted is taken out.** -/
theorem Begun.delete_quiet (hb : Begun t₁ content clients (grayGenerateId sec usec))
    (hlisted : Listed clients) (hapart : Apart clients) :
    ∃ t', zkGrayDeleteNotify (.quiet t₁) (grayGenerateId sec usec) = (.ok, .quiet t') ∧
      Erased (ReleaseNode clients (grayGenerateId sec usec)) t₁ t' := by
  refine hb.deleteNotify_quiet (Shrunk.refl _ _)
    ⟨hlisted, hapart, ZkTree.mem_of_lookup hb.backlink, or_iff_not_imp_left.mpr fun h0 i hi => h0 ?_⟩
    (fun _ i hi => ZkTree.mem_of_lookup (hb.piece i hi))
  exact ZkTree.mem_of_lookup (hb.piece 0 (Nat.lt_of_le_of_lt (Nat.zero_le i) (hb.content_lt hi)))

end

/-! ### A small release -/

/-- A release of `/x` to the client `a`. -/
def oneClientBegin : Ret × Zk := zkGrayBegin (.quiet oneNodeTree) oneNodeMap [[97]] 1 2

theorem oneClientBegin_ok : oneClientBegin.1 = .ok := by
  decide +kernel

theorem oneClientBegin_eq :
    zkGrayBegin (.quiet oneNodeTree) oneNodeMap [[97]] 1 2 = (.ok, oneClientBegin.2) :=
  show oneClientBegin = _ from Prod.ext oneClientBegin_ok rfl

end QConf.Manager
