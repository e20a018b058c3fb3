import QConf.Zookeeper.Session

/-!
# The ZooKeeper operations of the manager

`QConfZK` wraps the calls of the C client: the answers become return codes, and
`zk_create` makes the nodes above a new node when they are missing.  For every
pattern of faults `zk_create` only adds nodes, all of them on the way to its
path; without faults it adds exactly those, and fails only where the node is there
already, the path is no path or the value is too large.
-/

namespace QConf.Manager

/-- `parent_node`. -/
def parentNode (path : Bytes) : Bytes :=
  match splitLast path with
  | none => path
  | some (parent, _) => parent

/-- `zk_create`, which calls itself at most `fuel` deep. -/
def zkCreateFuel : Nat → Zk → Bytes → Bytes → Ret × Zk
  | 0, zk, _, _ => (.errZooFailed, zk)
  | fuel + 1, zk, path, value =>
    match zk.zooCreate path value with
    | (.ok _, zk) => (.ok, zk)
    | (.error .nodeExists, zk) => (.errZooAlreadyExist, zk)
    | (.error .noNode, zk) =>
      match zkCreateFuel fuel zk (parentNode path) [] with
      | (.ok, zk) => zkCreateFuel fuel zk path value
      | (.errZooAlreadyExist, zk) => zkCreateFuel fuel zk path value
      | (ret, zk) => (ret, zk)
    | (.error _, zk) => (.errZooFailed, zk)

/-- `QConfZK::zk_create`.  Every call it makes of itself is about a shorter path, or
about the same path with the node above it in place. -/
def zkCreate (zk : Zk) (path value : Bytes) : Ret × Zk := zkCreateFuel (path.length + 1) zk path value

/-- `QConfZK::zk_exist`. -/
def zkExist (zk : Zk) (path : Bytes) : Ret × Bool × Zk :=
  match zk.zooExists path with
  | (.ok _, zk) => (.ok, true, zk)
  | (.error .noNode, zk) => (.ok, false, zk)
  | (.error _, zk) => (.errZooFailed, false, zk)

/-- `QConfZK::zk_modify`. -/
def zkModify (zk : Zk) (path value : Bytes) : Ret × Zk :=
  match zk.zooSet path value with
  | (.ok _, zk) => (.ok, zk)
  | (.error .noNode, zk) => (.errZooNotExist, zk)
  | (.error _, zk) => (.errZooFailed, zk)

/-- `QConfZK::zk_get`; the value stays empty where it fails. -/
def zkGet (zk : Zk) (path : Bytes) : Ret × Bytes × Zk :=
  match zk.zooGet path with
  | (.ok d, zk) => (.ok, d, zk)
  | (.error .noNode, zk) => (.errZooNotExist, [], zk)
  | (.error _, zk) => (.errZooFailed, [], zk)

/-- `QConfZK::zk_delete_exist`. -/
def zkDeleteExist (zk : Zk) (path : Bytes) : Ret × Zk :=
  match zk.zooDelete path with
  | (.ok _, zk) => (.ok, zk)
  | (.error .noNode, zk) => (.errZooNotExist, zk)
  | (.error .notEmpty, zk) => (.errZooNotempty, zk)
  | (.error _, zk) => (.errZooFailed, zk)

/-- `QConfZK::zk_delete`. -/
def zkDelete (zk : Zk) (path : Bytes) : Ret × Zk :=
  match zkDeleteExist zk path with
  | (.errZooNotExist, zk) => (.ok, zk)
  | r => r

/-! ### `zk_create` -/

/-- The node above, as C strings. -/
theorem above_parentNode (path : Bytes) : Above (cStr (parentNode path)) (cStr path) := by
  unfold parentNode
  cases hs : splitLast path with
  | none => exact Above.refl _
  | some pc =>
    obtain ⟨p, c⟩ := pc
    obtain ⟨rfl, -⟩ := splitLast_some hs
    show Above (cStr p) (cStr (p ++ slash :: c))
    rw [cStr_append]
    split
    · next hn =>
      rw [cStr_of_nulFree hn]
      exact Or.inr ⟨cStr c, rfl⟩
    · -- the NUL byte comes before the last slash
      exact Above.refl _

/-- The outcomes of `zoo_create`, with whatever goes wrong. -/
theorem zooCreate_cases {zk zk' : Zk} {path value : Bytes} {r : Except ZooErr Unit}
    (h : zk.zooCreate path value = (r, zk')) :
    (r = .ok () ∧ zk.tree.create (cStr path) value = .ok zk'.tree) ∨
      ∃ e, r = .error e ∧ (zk'.tree = zk.tree ∨ zk.tree.create (cStr path) value = .ok zk'.tree) := by
  have hop : ∀ {a : Unit} {t : ZkTree},
      (zk.tree.create (cStr path) value).map (fun t' => ((), t')) = .ok (a, t) →
      zk.tree.create (cStr path) value = .ok t := by
    intro a t hm
    cases hc : zk.tree.create (cStr path) value with
    | error e =>
      rw [hc] at hm
      exact absurd hm (by simp [Except.map])
    | ok t' =>
      rw [hc] at hm
      simp only [Except.map, Except.ok.injEq, Prod.mk.injEq] at hm
      rw [hm.2]
  cases calls_called h with
  | answered ha => exact Or.inl ⟨rfl, hop ha⟩
  | refused _ ht => exact Or.inr ⟨_, rfl, Or.inl ht⟩
  | lost _ ht => exact Or.inr ⟨_, rfl, ht.imp id (fun ⟨_, ha⟩ => hop ha)⟩

/-- The tree grew, and only by nodes on the way to `p`. -/
structure Grown (p : Bytes) (t t' : ZkTree) : Prop where
  keep : ∀ q ∈ t.nodes, t'.nodes.lookup q = t.nodes.lookup q
  new : ∀ q ∈ t'.nodes, q ∉ t.nodes → Above q p

theorem Grown.refl (p : Bytes) (t : ZkTree) : Grown p t t :=
  ⟨fun _ _ => rfl, fun _ h hn => absurd h hn⟩

theorem Grown.mem {p : Bytes} {t t' : ZkTree} (h : Grown p t t') {q : Bytes} (hq : q ∈ t.nodes) :
    q ∈ t'.nodes := by
  rw [← Finmap.lookup_isSome, h.keep q hq, Finmap.lookup_isSome]
  exact hq

theorem Grown.trans {p : Bytes} {t t' t'' : ZkTree} (h : Grown p t t') (h' : Grown p t' t'') :
    Grown p t t'' where
  keep q hq := (h'.keep q (h.mem hq)).trans (h.keep q hq)
  new q hq hn := by
    by_cases hm : q ∈ t'.nodes
    · exact h.new q hm hn
    · exact h'.new q hq hm

theorem Grown.weaken {p p' : Bytes} {t t' : ZkTree} (h : Grown p t t') (hp : Above p p') : Grown p' t t' :=
  ⟨h.keep, fun q hq hn => (h.new q hq hn).trans hp⟩

theorem grown_create {t t' : ZkTree} {p d : Bytes} (h : t.create p d = .ok t') : Grown p t t' := by
  obtain ⟨-, -, -, hp, hnodes⟩ := ZkTree.create_ok h
  constructor
  · intro q hq
    have hne : q ≠ p := fun he => hp (he ▸ hq)
    rw [hnodes, Finmap.lookup_insert_of_ne _ hne]
  · intro q hq hn
    rw [hnodes, Finmap.mem_insert] at hq
    exact Or.inl (hq.resolve_right hn)

/-- **`zk_create`, whatever fails**: it adds nodes on the way to its path, and where
it answers `QCONF_OK` the node was not there and now holds the value. -/
theorem zkCreateFuel_grown : ∀ (fuel : Nat) (zk zk' : Zk) (path value : Bytes) (ret : Ret),
    zkCreateFuel fuel zk path value = (ret, zk') →
      Grown (cStr path) zk.tree zk'.tree ∧
      (ret = .ok → cStr path ∉ zk.tree.nodes ∧ zk'.tree.nodes.lookup (cStr path) = some value) := by
  intro fuel
  induction fuel with
  | zero =>
    intro zk zk' path value ret h
    cases h
    exact ⟨Grown.refl _ _, fun hr => absurd hr (by simp)⟩
  | succ fuel ih =>
    intro zk zk' path value ret h
    rw [zkCreateFuel] at h
    have hgrown : ∀ {r zk₁}, zk.zooCreate path value = (r, zk₁) → Grown (cStr path) zk.tree zk₁.tree := by
      intro r zk₁ hz
      rcases zooCreate_cases hz with ⟨-, hc⟩ | ⟨e, -, ht | hc⟩
      · exact grown_create hc
      · rw [ht]
        exact Grown.refl _ _
      · exact grown_create hc
    -- the second try, with the node above in place
    have hagain : ∀ {zk₁ zk₂ : Zk} {ret₁ : Ret}, Grown (cStr path) zk.tree zk₁.tree →
        zkCreateFuel fuel zk₁ (parentNode path) [] = (ret₁, zk₂) →
        zkCreateFuel fuel zk₂ path value = (ret, zk') →
        Grown (cStr path) zk.tree zk'.tree ∧
        (ret = .ok → cStr path ∉ zk.tree.nodes ∧ zk'.tree.nodes.lookup (cStr path) = some value) := by
      intro zk₁ zk₂ ret₁ h1 h2 h3
      have hg2 := h1.trans ((ih _ _ _ _ _ h2).1.weaken (above_parentNode path))
      obtain ⟨hg3, hok⟩ := ih _ _ _ _ _ h3
      refine ⟨hg2.trans hg3, fun hr => ?_⟩
      obtain ⟨hn, hv⟩ := hok hr
      exact ⟨fun hm => hn (hg2.mem hm), hv⟩
    split at h
    · next hz =>
      cases h
      refine ⟨hgrown hz, fun _ => ?_⟩
      rcases zooCreate_cases hz with ⟨-, hc⟩ | ⟨e, he, -⟩
      · obtain ⟨-, -, -, hp, hnodes⟩ := ZkTree.create_ok hc
        exact ⟨hp, by rw [hnodes, Finmap.lookup_insert]⟩
      · exact absurd he (by simp)
    · next hz =>
      cases h
      exact ⟨hgrown hz, fun hr => absurd hr (by simp)⟩
    · next hz =>
      split at h
      · next hp => exact hagain (hgrown hz) hp h
      · next hp => exact hagain (hgrown hz) hp h
      · next ret₁ zk₂ hne _ hp =>
        cases h
        exact ⟨(hgrown hz).trans ((ih _ _ _ _ _ hp).1.weaken (above_parentNode path)),
          fun hr => absurd hr hne⟩
    · next hz =>
      cases h
      exact ⟨hgrown hz, fun hr => absurd hr (by simp)⟩

theorem zkCreate_grown {zk zk' : Zk} {path value : Bytes} {ret : Ret}
    (h : zkCreate zk path value = (ret, zk')) :
    Grown (cStr path) zk.tree zk'.tree ∧
      (ret = .ok → cStr path ∉ zk.tree.nodes ∧ zk'.tree.nodes.lookup (cStr path) = some value) :=
  zkCreateFuel_grown _ _ _ _ _ _ h

/-! ### `zk_create` without faults -/

/-- Every node on the way to a node is there. -/
theorem above_mem {t : ZkTree} : ∀ (p q : Bytes), p ∈ t.nodes → Above q p → q ≠ [] → q ∈ t.nodes := by
  intro p
  induction hlen : p.length using Nat.strong_induction_on generalizing p with
  | _ len ih =>
    intro q hp hq hne
    rcases hq with rfl | ⟨c, hc⟩
    · exact hp
    have hroot : p ≠ rootPath := by
      intro hr
      have h1 := congrArg List.length (hc.symm.trans hr)
      rw [List.length_append, List.length_cons, rootPath, List.length_singleton] at h1
      exact hne (List.length_eq_zero_iff.mp (by omega))
    cases hs : splitLast p with
    | none => exact absurd (by rw [hc]; simp) (splitLast_none.mp hs)
    | some pn =>
      obtain ⟨p', n⟩ := pn
      obtain ⟨hp', hn⟩ := splitLast_some hs
      have hab : Above q p' := above_of_append (hc.symm.trans hp') hn
      have hne' : p' ≠ [] := by
        rintro rfl
        rcases hab with h | ⟨_, h⟩
        · exact hne h
        · exact absurd h.symm (by simp)
      have hpar : zkParent p = p' := by rw [hp', zkParent_append hne' hn]
      have hmem : p' ∈ t.nodes := hpar ▸ t.closed p hp hroot
      refine ih p'.length ?_ p' rfl q hmem hab hne
      rw [← hlen, hp', List.length_append, List.length_cons]
      omega

theorem zooCreate_quiet (t : ZkTree) {p : Bytes} (hp : NulFree p) (value : Bytes) :
    (Zk.quiet t).zooCreate p value =
      match t.create p value with
      | .ok t' => (.ok (), .quiet t')
      | .error e => (.error e, .quiet t) := by
  rw [Zk.zooCreate, calls_quiet, ZkTree.serve, cStr_of_nulFree hp]
  cases t.create p value <;> rfl

/-- A path whose node above is missing has a name behind a path that is not the root. -/
theorem exists_parent {t : ZkTree} {p : Bytes} (hv : isValidPath p = true) (hpar : zkParent p ∉ t.nodes) :
    ∃ p' n, p = p' ++ slash :: n ∧ slash ∉ n ∧ p' ≠ [] := by
  have hroot : p ≠ rootPath := by
    rintro rfl
    exact hpar (ZkTree.zkParent_root.symm ▸ t.root)
  cases hsplit : splitLast p with
  | none =>
    obtain ⟨hq, -⟩ := ZkTree.eq_childPath hv hroot
    refine absurd ?_ (splitLast_none.mp hsplit)
    rw [hq, childPath]
    split <;> simp
  | some pn =>
    obtain ⟨p', n⟩ := pn
    obtain ⟨hp', hn⟩ := splitLast_some hsplit
    refine ⟨p', n, hp', hn, ?_⟩
    rintro rfl
    exact hpar (by rw [zkParent, hsplit]; exact t.root)

/-- Without faults a new node with a valid path and a value that fits is created, and the nodes
that were missing above it are empty. -/
theorem zkCreateFuel_quiet : ∀ (fuel : Nat) (t : ZkTree) (p value : Bytes), p.length < fuel →
    isValidPath p = true → value.length ≤ zkMaxData → p ∉ t.nodes →
      ∃ t', zkCreateFuel fuel (.quiet t) p value = (.ok, .quiet t') ∧
        ∀ q ∈ t'.nodes, q ∉ t.nodes → q ≠ p → t'.nodes.lookup q = some [] := by
  intro fuel
  induction fuel with
  | zero => intro t p value h; exact absurd h (by omega)
  | succ fuel ih =>
    intro t p value hlen hv hs hp
    have hnul := isValidPath_nulFree hv
    rw [zkCreateFuel, zooCreate_quiet t hnul]
    by_cases hpar : zkParent p ∈ t.nodes
    · rw [ZkTree.create_eq_ok hv hs hpar hp]
      exact ⟨_, rfl, fun q hq hnew hne => absurd ((Finmap.mem_insert.mp hq).resolve_left hne) hnew⟩
    · have hno : t.create p value = .error .noNode := by
        rw [ZkTree.create, dif_pos hv, dif_pos hs, dif_neg hpar]
      rw [hno]
      obtain ⟨p', n, rfl, hn, hne'⟩ := exists_parent hv hpar
      have hpeq : zkParent (p' ++ slash :: n) = p' := zkParent_append hne' hn
      rw [hpeq] at hpar
      have hlt : p'.length < (p' ++ slash :: n).length := by
        rw [List.length_append, List.length_cons]
        omega
      have hv' : isValidPath p' = true := isValidPath_of_append hne' hv
      obtain ⟨t₁, h₁, hempty⟩ := ih t p' [] (by omega) hv' (Nat.zero_le _) hpar
      obtain ⟨hg, hok⟩ := zkCreateFuel_grown _ _ _ _ _ _ h₁
      rw [cStr_of_nulFree (isValidPath_nulFree hv')] at hg hok
      have hmem : p' ∈ t₁.nodes := ZkTree.mem_of_lookup (hok rfl).2
      have hp₁ : p' ++ slash :: n ∉ t₁.nodes := fun hm => by
        have := (hg.new _ hm hp).length_le
        omega
      have hparent : parentNode (p' ++ slash :: n) = p' := by rw [parentNode, splitLast_append hn]
      dsimp only
      rw [hparent, h₁]
      obtain ⟨fuel', rfl⟩ : ∃ fuel', fuel = fuel' + 1 := ⟨fuel - 1, by omega⟩
      dsimp only
      rw [zkCreateFuel, zooCreate_quiet t₁ hnul,
        ZkTree.create_eq_ok hv hs (hpeq.symm ▸ hmem) hp₁]
      refine ⟨_, rfl, fun q hq hnew hne => ?_⟩
      refine (Finmap.lookup_insert_of_ne _ hne).trans ?_
      by_cases hqp : q = p'
      · rw [hqp]
        exact (hok rfl).2
      · exact hempty q ((Finmap.mem_insert.mp hq).resolve_left hne) hnew hqp

/-- **`zk_create` without faults** creates exactly what can be created. -/
theorem zkCreate_quiet {t : ZkTree} {p value : Bytes} (hp : NulFree p) :
    (∃ t', zkCreate (.quiet t) p value = (.ok, .quiet t')) ↔
      isValidPath p = true ∧ value.length ≤ zkMaxData ∧ p ∉ t.nodes := by
  constructor
  · rintro ⟨t', h⟩
    obtain ⟨hn, hv⟩ := (zkCreate_grown h).2 rfl
    rw [cStr_of_nulFree hp] at hn hv
    exact ⟨t'.valid p (ZkTree.mem_of_lookup hv), t'.small p value hv, hn⟩
  · rintro ⟨hv, hs, hn⟩
    obtain ⟨t', h, -⟩ := zkCreateFuel_quiet _ t p value (Nat.lt_succ_self _) hv hs hn
    exact ⟨t', h⟩

/-- The nodes that are there after a node was created. -/
theorem mem_of_created {zk zk' : Zk} {p value : Bytes} (hp : NulFree p)
    (h : zkCreate zk p value = (.ok, zk')) (q : Bytes) :
    q ∈ zk'.tree.nodes ↔ q ∈ zk.tree.nodes ∨ (Above q p ∧ q ≠ []) := by
  obtain ⟨hg, hok⟩ := zkCreate_grown h
  rw [cStr_of_nulFree hp] at hg hok
  constructor
  · intro hq
    by_cases hm : q ∈ zk.tree.nodes
    · exact Or.inl hm
    · refine Or.inr ⟨hg.new q hq hm, ?_⟩
      rintro rfl
      exact absurd (zk'.tree.valid _ hq) (by decide)
  · rintro (hm | ⟨ha, hne⟩)
    · exact hg.mem hm
    · exact above_mem p q (ZkTree.mem_of_lookup (hok rfl).2) ha hne

/-! ### The other operations -/

/-- A request that only reads, with whatever goes wrong: the tree stays, and an
answer is the server's. -/
theorem calls_read {α β : Type} {f : ZkTree → Except ZooErr α} {g : α → β} {zk zk' : Zk}
    {r : Except ZooErr β} (h : zk.calls (fun t => (f t).map (fun a => (g a, t))) = (r, zk')) :
    zk'.tree = zk.tree ∧ (∀ b, r = .ok b → ∃ a, f zk.tree = .ok a ∧ b = g a) ∧
      (r = .error .noNode → f zk.tree = .error .noNode) := by
  have hop : ∀ {b : β} {t : ZkTree}, (f zk.tree).map (fun a => (g a, zk.tree)) = .ok (b, t) →
      t = zk.tree ∧ ∃ a, f zk.tree = .ok a ∧ b = g a := by
    intro b t hm
    cases hf : f zk.tree with
    | error e =>
      rw [hf] at hm
      exact absurd hm (by simp [Except.map])
    | ok a =>
      rw [hf] at hm
      simp only [Except.map, Except.ok.injEq, Prod.mk.injEq] at hm
      exact ⟨hm.2.symm, a, rfl, hm.1.symm⟩
  cases calls_called h with
  | answered ha =>
    obtain ⟨ht, ha⟩ := hop ha
    refine ⟨ht, fun b hb => ?_, fun hb => absurd hb (by simp)⟩
    cases hb
    exact ha
  | refused hr ht =>
    refine ⟨ht, fun b hb => absurd hb (by simp), fun he => ?_⟩
    cases he
    cases hf : f zk.tree with
    | error e =>
      rw [hf] at hr
      simp only [Except.map, Except.error.injEq] at hr
      rw [hr]
    | ok a =>
      rw [hf] at hr
      exact absurd hr (by simp [Except.map])
  | lost he ht =>
    refine ⟨ht.elim id (fun ⟨_, ha⟩ => (hop ha).1), fun b hb => absurd hb (by simp), fun hn => ?_⟩
    cases hn
    exact absurd he (by simp [ZooErr.again])

theorem zkExist_spec {zk zk' : Zk} {path : Bytes} {ret : Ret} {exist : Bool}
    (h : zkExist zk path = (ret, exist, zk')) :
    zk'.tree = zk.tree ∧ (ret = .ok → isValidPath (cStr path) = true ∧
      (exist = true ↔ cStr path ∈ zk.tree.nodes)) := by
  unfold zkExist at h
  split at h
  · next hz =>
    cases h
    obtain ⟨ht, hok, -⟩ := calls_read hz
    obtain ⟨_, hf, -⟩ := hok _ rfl
    have hmem : cStr path ∈ zk.tree.nodes := by
      unfold ZkTree.existsNode at hf
      split at hf
      · split at hf
        · assumption
        · exact absurd hf (by simp)
      · exact absurd hf (by simp)
    exact ⟨ht, fun _ => ⟨zk.tree.valid _ hmem, by simp [hmem]⟩⟩
  · next hz =>
    cases h
    obtain ⟨ht, -, hno⟩ := calls_read hz
    have hf := hno rfl
    unfold ZkTree.existsNode at hf
    split at hf
    · next hv =>
      split at hf
      · exact absurd hf (by simp)
      · next hn => exact ⟨ht, fun _ => ⟨hv, by simp [hn]⟩⟩
    · exact absurd hf (by simp)
  · next hz =>
    cases h
    exact ⟨(calls_read hz).1, fun hr => absurd hr (by simp)⟩

theorem zkExist_quiet (t : ZkTree) {p : Bytes} (hv : isValidPath p = true) :
    zkExist (.quiet t) p = (.ok, decide (p ∈ t.nodes), .quiet t) := by
  rw [zkExist, Zk.zooExists, calls_quiet, ZkTree.serve, cStr_of_nulFree (isValidPath_nulFree hv),
    ZkTree.existsNode, if_pos hv]
  by_cases hm : p ∈ t.nodes
  · simp [hm, Except.map, Zk.quiet]
  · simp [hm, Except.map, Zk.quiet]

/-- `zoo_get`, with whatever goes wrong: the tree stays, and an answer is the server's. -/
theorem zooGet_spec {zk zk' : Zk} {path : Bytes} {r : Except ZooErr Bytes}
    (h : zk.zooGet path = (r, zk')) :
    zk'.tree = zk.tree ∧ (∀ d, r = .ok d → zk.tree.nodes.lookup (cStr path) = some d) ∧
      (r = .error .noNode → cStr path ∉ zk.tree.nodes) := by
  obtain ⟨ht, hok, hno⟩ := calls_read h
  refine ⟨ht, fun d hd => ?_, fun hr => ?_⟩
  · obtain ⟨d', hf, rfl⟩ := hok d hd
    have hl := ZkTree.get_eq_ok.mp hf
    rw [hl, ZkTree.take_maxValueSize hl]
  · rcases ZkTree.get_error (hno hr) with ⟨-, hn⟩ | ⟨he, -⟩
    · exact hn
    · exact absurd he (by simp)

theorem zkGet_spec {zk zk' : Zk} {path d : Bytes} {ret : Ret} (h : zkGet zk path = (ret, d, zk')) :
    zk'.tree = zk.tree ∧ (ret = .ok → zk.tree.nodes.lookup (cStr path) = some d) ∧
      (ret = .errZooNotExist → cStr path ∉ zk.tree.nodes) := by
  unfold zkGet at h
  split at h
  · next hz =>
    cases h
    obtain ⟨ht, hok, -⟩ := zooGet_spec hz
    exact ⟨ht, fun _ => hok _ rfl, fun hr => absurd hr (by simp)⟩
  · next hz =>
    cases h
    obtain ⟨ht, -, hno⟩ := zooGet_spec hz
    exact ⟨ht, fun hr => absurd hr (by simp), fun _ => hno rfl⟩
  · next hz =>
    cases h
    exact ⟨(zooGet_spec hz).1, fun hr => absurd hr (by simp), fun hr => absurd hr (by simp)⟩

theorem zooGet_quiet (t : ZkTree) {p : Bytes} (hp : NulFree p) :
    (Zk.quiet t).zooGet p = ((t.get p).map (List.take maxValueSize), .quiet t) := by
  rw [Zk.zooGet, calls_quiet, ZkTree.serve, cStr_of_nulFree hp]
  cases t.get p <;> rfl

theorem zkGet_quiet {t : ZkTree} {p d : Bytes} (h : t.nodes.lookup p = some d) :
    zkGet (.quiet t) p = (.ok, d, .quiet t) := by
  have hv := t.valid p (ZkTree.mem_of_lookup h)
  rw [zkGet, zooGet_quiet t (isValidPath_nulFree hv), ZkTree.get_eq_ok.mpr h]
  simp only [Except.map, ZkTree.take_maxValueSize h]

theorem zkGet_quiet_none {t : ZkTree} {p : Bytes} (hv : isValidPath p = true) (h : p ∉ t.nodes) :
    zkGet (.quiet t) p = (.errZooNotExist, [], .quiet t) := by
  have hget : t.get p = .error .noNode := by
    rw [ZkTree.get, if_pos hv, Finmap.lookup_eq_none.mpr h]
  rw [zkGet, zooGet_quiet t (isValidPath_nulFree hv), hget]
  rfl

theorem zkModify_quiet {t : ZkTree} {p value : Bytes} (hp : p ∈ t.nodes)
    (hs : value.length ≤ zkMaxData) :
    ∃ t', zkModify (.quiet t) p value = (.ok, .quiet t') ∧ t'.nodes = t.nodes.insert p value := by
  have hv := t.valid p hp
  have hset : t.set p value = .ok (t.put p value hv hs (ZkTree.zkParent_mem hp)) := by
    rw [ZkTree.set, if_pos hv, dif_pos hs, dif_pos hp]
  refine ⟨t.put p value hv hs (ZkTree.zkParent_mem hp), ?_, rfl⟩
  rw [zkModify, Zk.zooSet, calls_quiet, ZkTree.serve, cStr_of_nulFree (isValidPath_nulFree hv), hset]
  rfl

/-- The outcomes of `zk_delete_exist`, with whatever goes wrong. -/
theorem zkDeleteExist_spec {zk zk' : Zk} {path : Bytes} {ret : Ret}
    (h : zkDeleteExist zk path = (ret, zk')) :
    (zk'.tree = zk.tree ∨ zk.tree.delete (cStr path) = .ok zk'.tree) ∧
      (ret = .ok → zk.tree.delete (cStr path) = .ok zk'.tree) ∧
      (ret = .errZooNotExist → zk'.tree = zk.tree ∧ cStr path ∉ zk.tree.nodes) := by
  have hop : ∀ {a : Unit} {t : ZkTree},
      (zk.tree.delete (cStr path)).map (fun t' => ((), t')) = .ok (a, t) →
      zk.tree.delete (cStr path) = .ok t := by
    intro a t hm
    cases hc : zk.tree.delete (cStr path) with
    | error e =>
      rw [hc] at hm
      exact absurd hm (by simp [Except.map])
    | ok t' =>
      rw [hc] at hm
      simp only [Except.map, Except.ok.injEq, Prod.mk.injEq] at hm
      rw [hm.2]
  -- an error leaves the tree alone, or was lost on the way back
  have herr : ∀ {e zk₁}, zk.zooDelete path = (.error e, zk₁) →
      zk₁.tree = zk.tree ∨ zk.tree.delete (cStr path) = .ok zk₁.tree := by
    intro e zk₁ hz
    cases calls_called hz with
    | refused _ ht => exact Or.inl ht
    | lost _ ht => exact ht.imp id (fun ⟨_, ha⟩ => hop ha)
  unfold zkDeleteExist at h
  split at h
  · next hz =>
    cases h
    have hd : zk.tree.delete (cStr path) = .ok zk'.tree := by
      cases calls_called hz with
      | answered ha => exact hop ha
    exact ⟨Or.inr hd, fun _ => hd, fun hr => absurd hr (by simp)⟩
  · next hz =>
    cases h
    refine ⟨herr hz, fun hr => absurd hr (by simp), fun _ => ?_⟩
    cases calls_called hz with
    | refused hr ht =>
      refine ⟨ht, fun hm => ?_⟩
      unfold ZkTree.delete at hr
      rw [if_pos (zk.tree.valid _ hm)] at hr
      by_cases hroot : cStr path = rootPath
      · rw [dif_pos hroot] at hr
        exact absurd hr (by simp [Except.map])
      · rw [dif_neg hroot, if_pos hm] at hr
        split at hr <;> exact absurd hr (by simp [Except.map])
    | lost he _ => exact absurd he (by simp [ZooErr.again])
  · next hz =>
    cases h
    exact ⟨herr hz, fun hr => absurd hr (by simp), fun hr => absurd hr (by simp)⟩
  · next hz =>
    cases h
    exact ⟨herr hz, fun hr => absurd hr (by simp), fun hr => absurd hr (by simp)⟩

theorem zkDelete_spec {zk zk' : Zk} {path : Bytes} {ret : Ret} (h : zkDelete zk path = (ret, zk')) :
    (zk'.tree = zk.tree ∨ zk.tree.delete (cStr path) = .ok zk'.tree) ∧
      (ret = .ok → zk.tree.delete (cStr path) = .ok zk'.tree ∨
        (zk'.tree = zk.tree ∧ cStr path ∉ zk.tree.nodes)) := by
  unfold zkDelete at h
  split at h
  · next hz =>
    cases h
    obtain ⟨hor, -, hno⟩ := zkDeleteExist_spec hz
    exact ⟨hor, fun _ => Or.inr (hno rfl)⟩
  · obtain ⟨hor, hok, -⟩ := zkDeleteExist_spec h
    exact ⟨hor, fun hr => Or.inl (hok hr)⟩

theorem zooDelete_quiet (t : ZkTree) {p : Bytes} (hp : NulFree p) :
    (Zk.quiet t).zooDelete p =
      match t.delete p with
      | .ok t' => (.ok (), .quiet t')
      | .error e => (.error e, .quiet t) := by
  rw [Zk.zooDelete, calls_quiet, ZkTree.serve, cStr_of_nulFree hp]
  cases t.delete p <;> rfl

/-- Without faults a leaf is deleted. -/
theorem zkDeleteExist_quiet {t : ZkTree} {p : Bytes} (hp : p ∈ t.nodes) (hroot : p ≠ rootPath)
    (hc : t.children p = ∅) :
    zkDeleteExist (.quiet t) p = (.ok, .quiet (t.erase p hroot hc)) := by
  have hv := t.valid p hp
  rw [zkDeleteExist, zooDelete_quiet t (isValidPath_nulFree hv), ZkTree.delete, if_pos hv,
    dif_neg hroot, if_pos hp, dif_pos hc]

theorem zkDeleteExist_quiet_none {t : ZkTree} {p : Bytes} (hv : isValidPath p = true)
    (hp : p ∉ t.nodes) : zkDeleteExist (.quiet t) p = (.errZooNotExist, .quiet t) := by
  have hroot : p ≠ rootPath := fun h => hp (h ▸ t.root)
  rw [zkDeleteExist, zooDelete_quiet t (isValidPath_nulFree hv), ZkTree.delete, if_pos hv,
    dif_neg hroot, if_neg hp]

end QConf.Manager
