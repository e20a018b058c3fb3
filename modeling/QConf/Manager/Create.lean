import QConf.Manager.Zk

/-!
# Creating a node with the nodes above it

`zk_create` answers `ZNONODE` by creating the node above, and then calls itself again.  Here it
runs on a server that also has ephemeral nodes, below which ZooKeeper creates nothing
(`ZNOCHILDRENFOREPHEMERALS`).  `zkCreateOn` is the function over any server; on a session of
the other modules it is `zkCreateFuel` (`zkCreateOn_zk`), and where no node on the way is
ephemeral the flags do not matter (`zkCreateOn_eph`).
-/

namespace QConf.Manager

/-! ### A tree with ephemeral nodes -/

/-- A tree, and which of its nodes are ephemeral: leaves, and not the root. -/
structure EphTree where
  tree : ZkTree
  ephemeral : Finset Bytes
  mem : ∀ q ∈ ephemeral, q ∈ tree.nodes
  root : rootPath ∉ ephemeral
  leaf : ∀ q ∈ tree.nodes, q ≠ rootPath → zkParent q ∉ ephemeral

/-- The errors of a create: those of a tree, and `ZNOCHILDRENFOREPHEMERALS`. -/
inductive CreateErr
  | zoo (e : ZooErr)
  | noChildrenForEphemerals
  deriving DecidableEq, Repr

/-- `zoo_create` of a persistent node. -/
def EphTree.create (s : EphTree) (q d : Bytes) : Except CreateErr EphTree :=
  match h : s.tree.create q d with
  | .error e => .error (.zoo e)
  | .ok t =>
    if hp : zkParent q ∈ s.ephemeral then .error .noChildrenForEphemerals
    else .ok
      { tree := t
        ephemeral := s.ephemeral
        mem := fun q' hq' => by
          rw [(ZkTree.create_ok h).2.2.2.2]
          exact Finmap.mem_insert.mpr (Or.inr (s.mem q' hq'))
        root := s.root
        leaf := fun q' hq' hr => by
          rw [(ZkTree.create_ok h).2.2.2.2] at hq'
          rcases Finmap.mem_insert.mp hq' with rfl | hold
          · exact hp
          · exact s.leaf q' hold hr }

theorem EphTree.create_error {s : EphTree} {q d : Bytes} {e : ZooErr} (h : s.tree.create q d = .error e) :
    s.create q d = .error (.zoo e) := by
  rw [EphTree.create]
  split
  · next e' he =>
    rw [h] at he
    cases he
    rfl
  · next t ht =>
    rw [h] at ht
    cases ht

theorem EphTree.create_ok {s : EphTree} {q d : Bytes} {t : ZkTree} (h : s.tree.create q d = .ok t)
    (hp : zkParent q ∉ s.ephemeral) : ∃ s', s.create q d = .ok s' ∧ s'.tree = t ∧ s'.ephemeral = s.ephemeral := by
  rw [EphTree.create]
  split
  · next e he =>
    rw [h] at he
    cases he
  · next t' ht =>
    rw [h] at ht
    cases ht
    rw [dif_neg hp]
    exact ⟨_, rfl, rfl, rfl⟩

/-! ### `zk_create` over any server -/

/-- The answers of `zoo_create` that the switch of `zk_create` tells apart, behind the retries. -/
inductive Created
  | done
  | alreadyThere
  | noNode
  | failed
  deriving DecidableEq, Repr

/-- `QConfZK::zk_create`, on a server that answers by `create`, at most `fuel` calls deep. -/
def zkCreateOn {σ : Type} (create : σ → Bytes → Bytes → Created × σ) : Nat → σ → Bytes → Bytes → Ret × σ
  | 0, s, _, _ => (.errZooFailed, s)
  | fuel + 1, s, path, value =>
    match create s path value with
    | (.done, s) => (.ok, s)
    | (.alreadyThere, s) => (.errZooAlreadyExist, s)
    | (.noNode, s) =>
      match zkCreateOn create fuel s (parentNode path) [] with
      | (.ok, s) => zkCreateOn create fuel s path value
      | (.errZooAlreadyExist, s) => zkCreateOn create fuel s path value
      | (ret, s) => (ret, s)
    | (.failed, s) => (.errZooFailed, s)

/-- The switch on the answer of a session. -/
def createdOf : Except ZooErr Unit → Created
  | .ok _ => .done
  | .error .nodeExists => .alreadyThere
  | .error .noNode => .noNode
  | .error _ => .failed

/-- On a session, with its faults, this is `zkCreateFuel`. -/
theorem zkCreateOn_zk : ∀ (fuel : Nat) (zk : Zk) (path value : Bytes),
    zkCreateOn (fun zk path value => ((createdOf (zk.zooCreate path value).1), (zk.zooCreate path value).2))
      fuel zk path value = zkCreateFuel fuel zk path value := by
  intro fuel
  induction fuel with
  | zero => exact fun _ _ _ => rfl
  | succ fuel ih =>
    intro zk path value
    rw [zkCreateOn, zkCreateFuel]
    simp only [ih]
    obtain ⟨r, zk'⟩ := zk.zooCreate path value
    cases r with
    | ok u => rfl
    | error e =>
      cases e with
      | noNode =>
        dsimp only [createdOf]
        obtain ⟨ret, zk''⟩ := zkCreateFuel fuel zk' (parentNode path) []
        cases ret <;> rfl
      | _ => rfl

/-- `zoo_create` on a tree with ephemeral nodes, without faults. -/
def EphTree.zooCreate (s : EphTree) (path value : Bytes) : Created × EphTree :=
  match s.create (cStr path) value with
  | .ok s' => (.done, s')
  | .error (.zoo .nodeExists) => (.alreadyThere, s)
  | .error (.zoo .noNode) => (.noNode, s)
  | .error _ => (.failed, s)

theorem EphTree.zooCreate_error {s : EphTree} {p d : Bytes} {e : ZooErr} (h : s.tree.create (cStr p) d = .error e) :
    s.zooCreate p d = (createdOf (.error e), s) := by
  rw [EphTree.zooCreate, EphTree.create_error h]
  cases e <;> rfl

/-- A node that is created is below a node that is not ephemeral. -/
theorem parent_not_ephemeral {s : EphTree} {p d : Bytes} {t : ZkTree} (h : s.tree.create p d = .ok t)
    (heph : ∀ q, Above q p → q ≠ p → q ∉ s.ephemeral) : zkParent p ∉ s.ephemeral := by
  obtain ⟨hv, -, -, hnew, -⟩ := ZkTree.create_ok h
  have hroot : p ≠ rootPath := fun hr => hnew (hr ▸ s.tree.root)
  obtain ⟨hp, -, -, -⟩ := ZkTree.eq_childPath hv hroot
  by_cases hpar : zkParent p = rootPath
  · rw [hpar]
    exact s.root
  · rw [childPath, if_neg hpar] at hp
    refine heph _ (Or.inr ⟨zkName p, hp⟩) (fun he => ?_)
    have hlen := congrArg List.length hp
    rw [List.length_append, List.length_cons, he] at hlen
    omega

theorem parentNode_nulFree {p : Bytes} (h : NulFree p) : NulFree (parentNode p) := by
  unfold parentNode
  cases hs : splitLast p with
  | none => exact h
  | some pc =>
    obtain ⟨q, c⟩ := pc
    obtain ⟨rfl, -⟩ := splitLast_some hs
    exact fun hm => h (List.mem_append_left _ hm)

/-- **Where no node on the way is ephemeral, the flags change nothing.** -/
theorem zkCreateOn_eph : ∀ (fuel : Nat) (s : EphTree) (p value : Bytes), NulFree p →
    (∀ q, Above q p → q ≠ p → q ∉ s.ephemeral) →
    ∃ s', zkCreateOn EphTree.zooCreate fuel s p value = ((zkCreateFuel fuel (.quiet s.tree) p value).1, s') ∧
      (zkCreateFuel fuel (.quiet s.tree) p value).2 = .quiet s'.tree ∧ s'.ephemeral = s.ephemeral := by
  intro fuel
  induction fuel with
  | zero => exact fun s p value _ _ => ⟨s, rfl, rfl, rfl⟩
  | succ fuel ih =>
    intro s p value hnul heph
    rw [zkCreateOn, zkCreateFuel, zooCreate_quiet _ hnul]
    cases hc : s.tree.create p value with
    | ok t =>
      obtain ⟨s', hs', htree, heq⟩ := EphTree.create_ok hc (parent_not_ephemeral hc heph)
      have hz : s.zooCreate p value = (.done, s') := by
        rw [EphTree.zooCreate, cStr_of_nulFree hnul, hs']
      rw [hz]
      exact ⟨s', rfl, by rw [htree], heq⟩
    | error e =>
      rw [EphTree.zooCreate_error (by rw [cStr_of_nulFree hnul]; exact hc)]
      cases e with
      | noNode =>
        -- the node above first, then the node again
        have hup := above_parentNode p
        rw [cStr_of_nulFree hnul, cStr_of_nulFree (parentNode_nulFree hnul)] at hup
        have heph' : ∀ q, Above q (parentNode p) → q ≠ parentNode p → q ∉ s.ephemeral := fun q hq hne =>
          heph q (hq.trans hup) (fun he => hne (hq.antisymm (he ▸ hup)))
        obtain ⟨s₁, hrun, hquiet, heq⟩ := ih s (parentNode p) [] (parentNode_nulFree hnul) heph'
        obtain ⟨s₂, hrun₂, hquiet₂, heq₂⟩ := ih s₁ p value hnul (by rw [heq]; exact heph)
        simp only [createdOf, hrun]
        generalize zkCreateFuel fuel (.quiet s.tree) (parentNode p) [] = r at hquiet ⊢
        obtain ⟨ret, zk₁⟩ := r
        dsimp only at hquiet ⊢
        rw [hquiet]
        cases ret
        case ok => exact ⟨s₂, hrun₂, hquiet₂, heq₂.trans heq⟩
        case errZooAlreadyExist => exact ⟨s₂, hrun₂, hquiet₂, heq₂.trans heq⟩
        all_goals exact ⟨s₁, rfl, rfl, heq⟩
      | _ => exact ⟨s, rfl, rfl, rfl⟩

/-- **`zk_create` builds exactly the missing ancestors.**  On any tree, for a path that ZooKeeper
accepts with no ephemeral node above it, every call depth beyond the length of the path is
enough.  A node that is there is reported and nothing changes; otherwise the new tree is the old
one with the node and its value, and with the missing nodes above it, which are empty. -/
theorem zk_create_builds_missing_ancestors (s : EphTree) (p value : Bytes) (hv : isValidPath p = true)
    (hs : value.length ≤ zkMaxData) (heph : ∀ q, Above q p → q ≠ p → q ∉ s.ephemeral) (fuel : Nat)
    (hfuel : p.length < fuel) :
    if p ∈ s.tree.nodes then zkCreateOn EphTree.zooCreate fuel s p value = (.errZooAlreadyExist, s)
    else ∃ s', zkCreateOn EphTree.zooCreate fuel s p value = (.ok, s') ∧ s'.ephemeral = s.ephemeral ∧
      ∀ q, s'.tree.nodes.lookup q =
        if q = p then some value
        else if q ∉ s.tree.nodes ∧ q ≠ [] ∧ Above q p then some []
        else s.tree.nodes.lookup q := by
  have hnul := isValidPath_nulFree hv
  by_cases hp : p ∈ s.tree.nodes
  · rw [if_pos hp]
    have hc : s.tree.create (cStr p) value = .error .nodeExists := by
      rw [cStr_of_nulFree hnul, ZkTree.create, dif_pos hv, dif_pos hs, dif_pos (ZkTree.zkParent_mem hp),
        if_pos hp]
    obtain ⟨fuel, rfl⟩ : ∃ f, fuel = f + 1 := ⟨fuel - 1, by omega⟩
    rw [zkCreateOn, EphTree.zooCreate_error hc]
    rfl
  · rw [if_neg hp]
    obtain ⟨t', hrun, hempty⟩ := zkCreateFuel_quiet fuel s.tree p value hfuel hv hs hp
    obtain ⟨hgrown, hok⟩ := zkCreateFuel_grown _ _ _ _ _ _ hrun
    rw [cStr_of_nulFree hnul] at hgrown hok
    obtain ⟨s', hs', hquiet, heq⟩ := zkCreateOn_eph fuel s p value hnul heph
    rw [hrun] at hs' hquiet
    have htree : t' = s'.tree := congrArg Zk.tree hquiet
    refine ⟨s', hs', heq, fun q => ?_⟩
    rw [← htree]
    by_cases hqp : q = p
    · rw [if_pos hqp, hqp]
      exact (hok rfl).2
    rw [if_neg hqp]
    by_cases hq : q ∈ s.tree.nodes
    · rw [if_neg (fun h => h.1 hq)]
      exact hgrown.keep q hq
    by_cases hon : q ≠ [] ∧ Above q p
    · rw [if_pos ⟨hq, hon⟩]
      exact hempty q (above_mem p q (ZkTree.mem_of_lookup (hok rfl).2) hon.2 hon.1) hq hqp
    · rw [if_neg (fun h => hon h.2), Finmap.lookup_eq_none.mpr hq, Finmap.lookup_eq_none]
      intro hnew
      refine hon ⟨?_, hgrown.new q hnew hq⟩
      rintro rfl
      exact absurd (t'.valid _ hnew) (by decide)

/-- The node `/a/b` in an empty tree: `/a` is created with it. -/
theorem zk_create_builds_parent : ∃ s',
    zkCreateOn EphTree.zooCreate 5 ⟨.empty, ∅, by simp, by simp, by simp⟩ [47, 97, 47, 98] [7] = (.ok, s') ∧
      s'.tree.nodes.lookup [47, 97] = some [] ∧ s'.tree.nodes.lookup [47, 97, 47, 98] = some [7] := by
  have h := zk_create_builds_missing_ancestors ⟨.empty, ∅, by simp, by simp, by simp⟩ [47, 97, 47, 98] [7]
    (by decide) (by decide) (fun _ _ _ => Finset.notMem_empty _) 5 (by decide)
  rw [if_neg (by decide)] at h
  obtain ⟨s', hrun, -, hlookup⟩ := h
  refine ⟨s', hrun, ?_, ?_⟩
  · rw [hlookup, if_neg (by decide), if_pos ⟨by decide, by decide, Or.inr ⟨[98], rfl⟩⟩]
  · rw [hlookup, if_pos rfl]

end QConf.Manager
