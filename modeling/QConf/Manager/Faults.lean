import QConf.Manager.Plan

/-!
# The faults that stop a begin

Which calls a begin makes is known before it starts: one look for each path and each
client, and for every node of the plan two calls for each directory that is missing on
the way and one for the node.  So whether it gets through is a question about the faults
alone.

* `zkCreateFuel_met`: one `zk_create` needs `2 * d + 1` calls to be answered, where `d`
  directories are missing; it can leave its node behind and fail only if the last of
  them is lost.
* `createAll_met`: a plan that can be created is created exactly when its calls are all
  answered (`createCalls`).
* `grayCheckNodes_met`, `grayCheckClients_met`: the checks.
-/

namespace QConf.Manager

/-! ### The directories on the way -/

/-- The paths on the way to a path, the path itself not. -/
def dirsOf (p : Bytes) : Finset Bytes := (p.inits.filter (fun q => q ≠ [] ∧ q ≠ p ∧ Above q p)).toFinset

theorem mem_dirsOf {q p : Bytes} : q ∈ dirsOf p ↔ q ≠ [] ∧ q ≠ p ∧ Above q p := by
  simp only [dirsOf, List.mem_toFinset, List.mem_filter, decide_eq_true_eq, List.mem_inits,
    and_iff_right_iff_imp]
  rintro ⟨-, -, rfl | ⟨c, rfl⟩⟩
  · exact List.prefix_rfl
  · exact List.prefix_append _ _

/-- The directories that have to be made for some paths. -/
def newDirs (t : ZkTree) (paths : List Bytes) : Finset Bytes :=
  (paths.toFinset.biUnion dirsOf).filter (fun q => q ∉ t.nodes ∧ q ∉ paths)

theorem mem_newDirs {t : ZkTree} {paths : List Bytes} {q : Bytes} :
    q ∈ newDirs t paths ↔ (∃ p ∈ paths, q ≠ [] ∧ q ≠ p ∧ Above q p) ∧ q ∉ t.nodes ∧ q ∉ paths := by
  simp only [newDirs, Finset.mem_filter, Finset.mem_biUnion, List.mem_toFinset, mem_dirsOf]

/-- How many calls of `zoo_create` it takes to make nodes at some paths. -/
def createCalls (t : ZkTree) (paths : List Bytes) : Nat := 2 * (newDirs t paths).card + paths.length

section

variable {t t' : ZkTree} {p p' n value : Bytes} {paths : List Bytes}

theorem mem_newDirs_singleton {q : Bytes} :
    q ∈ newDirs t [p] ↔ q ≠ [] ∧ q ≠ p ∧ Above q p ∧ q ∉ t.nodes := by
  rw [mem_newDirs]
  simp only [List.mem_singleton, exists_eq_left]
  tauto

/-- Nothing is missing where the node above is there. -/
theorem newDirs_eq_empty (hv : isValidPath p = true) (hpar : zkParent p ∈ t.nodes) : newDirs t [p] = ∅ := by
  refine Finset.eq_empty_iff_forall_notMem.mpr fun q hq => ?_
  obtain ⟨hne, hqp, hab, hnot⟩ := mem_newDirs_singleton.mp hq
  cases hs : splitLast p with
  | none =>
    rcases hab with rfl | ⟨c, hc⟩
    · exact hqp rfl
    · exact splitLast_none.mp hs (by rw [hc]; simp)
  | some pn =>
    obtain ⟨p', n⟩ := pn
    obtain ⟨rfl, hn⟩ := splitLast_some hs
    have hq' := (hab.eq_or_above hn).resolve_left hqp
    have hne' : p' ≠ [] := by
      rintro rfl
      exact hne (List.length_eq_zero_iff.mp (Nat.le_zero.mp hq'.length_le))
    rw [zkParent_append hne' hn] at hpar
    exact hnot (above_mem p' q hpar hq' hne)

/-- One more directory is missing than on the way to the node above. -/
theorem card_newDirs_append (hn : slash ∉ n) (hne : p' ≠ []) (hp' : p' ∉ t.nodes) :
    (newDirs t [p' ++ slash :: n]).card = (newDirs t [p']).card + 1 := by
  have hself : p' ∉ newDirs t [p'] := fun h => (mem_newDirs_singleton.mp h).2.1 rfl
  rw [← Finset.card_insert_of_notMem hself]
  congr 1
  ext q
  rw [Finset.mem_insert, mem_newDirs_singleton, mem_newDirs_singleton]
  constructor
  · rintro ⟨h0, hqp, hab, hnot⟩
    have hq' := (hab.eq_or_above hn).resolve_left hqp
    exact or_iff_not_imp_left.mpr fun hq => ⟨h0, hq, hq', hnot⟩
  · have hlong : ∀ q, Above q p' → q ≠ p' ++ slash :: n := by
      rintro q hq rfl
      have := hq.length_le
      rw [List.length_append, List.length_cons] at this
      omega
    rintro (rfl | ⟨h0, -, hab, hnot⟩)
    · exact ⟨hne, hlong _ (Above.refl _), Or.inr ⟨n, rfl⟩, hp'⟩
    · exact ⟨h0, hlong q hab, hab.trans (Or.inr ⟨n, rfl⟩), hnot⟩

/-- The directories of a first path and of those behind it. -/
theorem createCalls_cons (ht' : ∀ q, q ∈ t'.nodes ↔ q ∈ t.nodes ∨ (Above q p ∧ q ≠ []))
    (hord : ∀ q ∈ paths, ¬ Above q p) :
    createCalls t (p :: paths) = createCalls t [p] + createCalls t' paths := by
  have hdisj : Disjoint (newDirs t [p]) (newDirs t' paths) := by
    refine Finset.disjoint_left.mpr fun q hq hq' => ?_
    obtain ⟨hne, -, hab, -⟩ := mem_newDirs_singleton.mp hq
    exact (mem_newDirs.mp hq').2.1 ((ht' q).mpr (Or.inr ⟨hab, hne⟩))
  have hunion : newDirs t (p :: paths) = newDirs t [p] ∪ newDirs t' paths := by
    ext q
    rw [Finset.mem_union, mem_newDirs_singleton, mem_newDirs, mem_newDirs, ht' q]
    simp only [List.mem_cons, exists_eq_or_imp, not_or]
    constructor
    · rintro ⟨⟨h0, hqp, hab⟩ | ⟨r, hr, h0, hqr, hab⟩, hnot, hqp, hmem⟩
      · exact Or.inl ⟨h0, hqp, hab, hnot⟩
      · by_cases habp : Above q p
        · exact Or.inl ⟨h0, hqp, habp, hnot⟩
        · exact Or.inr ⟨⟨r, hr, h0, hqr, hab⟩, ⟨hnot, fun h => habp h.1⟩, hmem⟩
    · rintro (⟨h0, hqp, hab, hnot⟩ | ⟨⟨r, hr, h0, hqr, hab⟩, ⟨hnot, hnew⟩, hmem⟩)
      · exact ⟨Or.inl ⟨h0, hqp, hab⟩, hnot, hqp, fun hm => hord q hm hab⟩
      · exact ⟨Or.inr ⟨r, hr, h0, hqr, hab⟩, hnot, fun hq => hnew ⟨Or.inl hq, h0⟩, hmem⟩
  rw [createCalls, createCalls, createCalls, hunion, Finset.card_union_of_disjoint hdisj, List.length_cons,
    List.length_singleton]
  omega

end

/-! ### One `zk_create` -/

section

variable {t : ZkTree} {faults : List (Option Fault)} {p value : Bytes} {fuel : Nat}

theorem create_not_again (q d : Bytes) {e : ZooErr}
    (h : (t.create q d).map (fun t' => ((), t')) = .error e) : e.again = false := by
  unfold ZkTree.create at h
  split at h
  · split at h
    · split at h
      · split at h
        · obtain rfl := Except.error.inj h
          rfl
        · exact absurd h (by simp [Except.map])
      · obtain rfl := Except.error.inj h
        rfl
    · obtain rfl := Except.error.inj h
      rfl
  · obtain rfl := Except.error.inj h
    rfl

/-- `zk_create` takes an error of the library for a failure. -/
theorem zkCreateFuel_local {zk zk' : Zk} {e : ZooErr} (he : e.Local)
    (h : zk.zooCreate p value = (.error e, zk')) : zkCreateFuel (fuel + 1) zk p value = (.errZooFailed, zk') := by
  rw [zkCreateFuel, h]
  rcases he with rfl | he
  · rfl
  · cases e <;> first | rfl | exact absurd he (by decide)

/-- How `zk_create` ends that makes `k` calls before the last one. -/
structure CreateMet (faults : List (Option Fault)) (p : Bytes) (k : Nat) (r : Ret × Zk) : Prop where
  made : ∀ rest, answered (k + 1) faults = some rest → ∃ t', r = (.ok, ⟨t', rest⟩)
  failed : answered (k + 1) faults = none → r.1 = .errZooFailed ∧
    (p ∈ r.2.tree.nodes ↔ ∃ rest, answered k faults = some rest ∧ (met 2 rest).1 = .lost true)

theorem answered_succ_of_met {k : Nat} {rest : List (Option Fault)} (h : met 2 faults = (.answered, rest)) :
    answered (k + 1) faults = answered k rest := by
  rw [answered, h]

theorem answered_succ_of_lost {k : Nat} {applied : Bool} {rest : List (Option Fault)}
    (h : met 2 faults = (.lost applied, rest)) : answered (k + 1) faults = none := by
  rw [answered, h]

/-- What `zoo_create` of a path without a NUL byte meets. -/
theorem zooCreate_met (t : ZkTree) (faults : List (Option Fault)) (hnul : NulFree p) (value : Bytes) :
    ∃ e : ZooErr, e.Local ∧ (⟨t, faults⟩ : Zk).zooCreate p value =
      t.outcome (fun t => (t.create p value).map (fun t' => ((), t'))) e (met 2 faults) := by
  rw [Zk.zooCreate, cStr_of_nulFree hnul]
  exact calls_met _ (fun _ => create_not_again p value) faults

/-- The node above is there, so one call decides. -/
theorem zkCreateFuel_met_last (faults : List (Option Fault)) (fuel : Nat) (hv : isValidPath p = true) (hs : value.length ≤ zkMaxData)
    (hpar : zkParent p ∈ t.nodes) (hp : p ∉ t.nodes) :
    CreateMet faults p 0 (zkCreateFuel (fuel + 1) ⟨t, faults⟩ p value) := by
  obtain ⟨e, he, hcall⟩ := zooCreate_met t faults (isValidPath_nulFree hv) value
  have hcreate := ZkTree.create_eq_ok hv hs hpar hp
  obtain ⟨m, rest, hm⟩ : ∃ m rest, met 2 faults = (m, rest) := ⟨_, _, rfl⟩
  rw [hm] at hcall
  cases m with
  | answered =>
    have hz : zkCreateFuel (fuel + 1) ⟨t, faults⟩ p value = (.ok, ⟨t.put p value hv hs hpar, rest⟩) := by
      rw [zkCreateFuel, hcall]
      simp only [ZkTree.outcome, ZkTree.serve, hcreate, Except.map]
    refine ⟨fun rest' hrest => ⟨t.put p value hv hs hpar, ?_⟩, fun hnone => ?_⟩
    · rw [answered_succ_of_met hm] at hrest
      rw [hz, Option.some.inj hrest]
    · rw [answered_succ_of_met hm] at hnone
      exact absurd hnone (by simp [answered])
  | lost applied =>
    refine ⟨fun rest' hrest => absurd (hrest.symm.trans (answered_succ_of_lost hm)) (by simp), fun _ => ?_⟩
    have hzero : (∃ rest, answered 0 faults = some rest ∧ (met 2 rest).1 = .lost true) ↔ applied = true := by
      simp [answered, hm]
    rw [hzero]
    cases applied with
    | false =>
      rw [zkCreateFuel_local he hcall]
      exact ⟨rfl, by simp [hp]⟩
    | true =>
      have htree : (t.serve (fun t => (t.create p value).map (fun t' => ((), t'))) rest).2 =
          ⟨t.put p value hv hs hpar, rest⟩ := by
        simp only [ZkTree.serve, hcreate, Except.map]
      rw [ZkTree.outcome, htree] at hcall
      rw [zkCreateFuel_local he hcall]
      exact ⟨rfl, iff_of_true (Finmap.mem_insert.mpr (Or.inl rfl)) rfl⟩

section

variable {p' n : Bytes}

/-- The node above is missing and the first call is lost. -/
theorem zkCreateFuel_met_lost {applied : Bool} {rest : List (Option Fault)} (fuel k : Nat)
    (hm : met 2 faults = (.lost applied, rest)) (hv : isValidPath p = true) (hno : t.create p value = .error .noNode)
    (hp : p ∉ t.nodes) : CreateMet faults p (k + 1) (zkCreateFuel (fuel + 1) ⟨t, faults⟩ p value) := by
  obtain ⟨e, he, hcall⟩ := zooCreate_met t faults (isValidPath_nulFree hv) value
  have hstop : (⟨t, faults⟩ : Zk).zooCreate p value = (.error e, ⟨t, rest⟩) := by
    rw [hcall, hm]
    cases applied <;> simp only [ZkTree.outcome, ZkTree.serve, hno, Except.map]
  rw [zkCreateFuel_local he hstop]
  refine ⟨fun _ h => absurd (h.symm.trans (answered_succ_of_lost hm)) (by simp), fun _ => ⟨rfl, ?_⟩⟩
  rw [answered_succ_of_lost hm]
  simp [hp]

/-- The answer is that the node above is missing, so that is made first, and then the node. -/
theorem CreateMet.child {k : Nat} {rest : List (Option Fault)} (hm : met 2 faults = (.answered, rest))
    (hv : isValidPath (p' ++ slash :: n) = true) (hn : slash ∉ n) (hne' : p' ≠ []) (hs : value.length ≤ zkMaxData)
    (hno : t.create (p' ++ slash :: n) value = .error .noNode) (hp : p' ++ slash :: n ∉ t.nodes)
    (h : CreateMet rest p' k (zkCreateFuel (fuel + 1) ⟨t, rest⟩ p' [])) :
    CreateMet faults (p' ++ slash :: n) (k + 2) (zkCreateFuel (fuel + 2) ⟨t, faults⟩ (p' ++ slash :: n) value) := by
  obtain ⟨e, -, hcall⟩ := zooCreate_met t faults (isValidPath_nulFree hv) value
  have hmiss : (⟨t, faults⟩ : Zk).zooCreate (p' ++ slash :: n) value = (.error .noNode, ⟨t, rest⟩) := by
    rw [hcall, hm]
    simp only [ZkTree.outcome, ZkTree.serve, hno, Except.map]
  have hparent : parentNode (p' ++ slash :: n) = p' := by
    rw [parentNode, splitLast_append hn]
  have hnul' : NulFree p' := isValidPath_nulFree (isValidPath_of_append hne' hv)
  have hgrown := (zkCreateFuel_grown (fuel + 1) ⟨t, rest⟩ _ p' [] _ rfl).1
  rw [cStr_of_nulFree hnul'] at hgrown
  have hp₁ : p' ++ slash :: n ∉ (zkCreateFuel (fuel + 1) ⟨t, rest⟩ p' []).2.tree.nodes := fun hin => by
    have hle := (hgrown.new _ hin hp).length_le
    rw [List.length_append, List.length_cons] at hle
    omega
  have hnext : ∀ j, answered (k + 2 + j) faults = (answered (k + 1) rest).bind (answered j) := by
    intro j
    rw [show k + 2 + j = (k + 1 + j) + 1 by omega, answered_succ_of_met hm, answered_add]
  rw [zkCreateFuel, hmiss]
  dsimp only
  rw [hparent]
  cases hq : answered (k + 1) rest with
  | none =>
    obtain ⟨hret, -⟩ := h.failed hq
    generalize zkCreateFuel (fuel + 1) ⟨t, rest⟩ p' [] = r at hret hp₁
    obtain ⟨ret, zk₁⟩ := r
    dsimp only at hret
    subst hret
    refine ⟨fun _ h => ?_, fun _ => ⟨rfl, ?_⟩⟩
    · rw [hnext 1, hq] at h
      exact absurd h (by simp)
    · rw [answered_succ_of_met hm, hq]
      simp [hp₁]
  | some rest₂ =>
    obtain ⟨t₁, hz⟩ := h.made rest₂ hq
    rw [hz] at hp₁
    have hmem : p' ∈ t₁.nodes := by
      have hnew := ((zkCreateFuel_grown _ _ _ _ _ _ hz).2 rfl).2
      rw [cStr_of_nulFree hnul'] at hnew
      exact ZkTree.mem_of_lookup hnew
    rw [hz]
    dsimp only
    have hlast := zkCreateFuel_met_last rest₂ fuel hv hs ((zkParent_append hne' hn).symm ▸ hmem) hp₁
    have hnext : ∀ j, answered (k + 2 + j) faults = answered j rest₂ := fun j => by
      rw [hnext j, hq, Option.bind_some]
    refine ⟨fun rest' h => hlast.made rest' ((hnext 1).symm.trans h), fun h => ?_⟩
    rw [← Nat.add_zero (k + 2), hnext 0]
    exact hlast.failed ((hnext 1).symm.trans h)

end

/-- **One `zk_create` of a node that can be made**, with whatever faults: two calls for each directory
that is missing on the way and one for the node. -/
theorem zkCreateFuel_met : ∀ (fuel : Nat) (t : ZkTree) (faults : List (Option Fault)) (p value : Bytes),
    p.length < fuel → isValidPath p = true → value.length ≤ zkMaxData → p ∉ t.nodes →
      CreateMet faults p (2 * (newDirs t [p]).card) (zkCreateFuel fuel ⟨t, faults⟩ p value) := by
  intro fuel
  induction fuel with
  | zero => intro t faults p value h; exact absurd h (by omega)
  | succ fuel ih =>
    intro t faults p value hlen hv hs hp
    by_cases hpar : zkParent p ∈ t.nodes
    · rw [newDirs_eq_empty hv hpar]
      exact zkCreateFuel_met_last _ _ hv hs hpar hp
    have hno : t.create p value = .error .noNode := by
      rw [ZkTree.create, dif_pos hv, dif_pos hs, dif_neg hpar]
    obtain ⟨p', n, rfl, hn, hne'⟩ := exists_parent hv hpar
    rw [zkParent_append hne' hn] at hpar
    rw [card_newDirs_append hn hne' hpar, Nat.mul_succ]
    rw [List.length_append, List.length_cons] at hlen
    obtain ⟨fuel, rfl⟩ : ∃ fuel', fuel = fuel' + 1 := ⟨fuel - 1, by omega⟩
    obtain ⟨m, rest, hm⟩ : ∃ m rest, met 2 faults = (m, rest) := ⟨_, _, rfl⟩
    cases m with
    | lost applied => exact zkCreateFuel_met_lost _ _ hm hv hno hp
    | answered =>
      have hv' : isValidPath p' = true := isValidPath_of_append hne' hv
      exact .child hm hv hn hne' hs hno hp (ih t rest p' [] (by omega) hv' (Nat.zero_le _) hpar)

/-- The faults stop `zk_create` before it has made its node: a call for a directory on the way is lost,
or the last call before the server has seen it. -/
def StopsFirst (t : ZkTree) (p : Bytes) (faults : List (Option Fault)) : Prop :=
  ∀ rest, answered (2 * (newDirs t [p]).card) faults = some rest → (met 2 rest).1 = .lost false

/-- **Whether a node is there after `zk_create`**, whatever it answers. -/
theorem mem_zkCreate_iff (hv : isValidPath p = true) (hs : value.length ≤ zkMaxData) (hp : p ∉ t.nodes) :
    p ∈ (zkCreate ⟨t, faults⟩ p value).2.tree.nodes ↔ ¬ StopsFirst t p faults := by
  obtain ⟨hmade, hfailed⟩ := zkCreateFuel_met (p.length + 1) t faults p value (Nat.lt_succ_self _) hv hs hp
  change (∀ rest, _ → ∃ t', zkCreate ⟨t, faults⟩ p value = (.ok, ⟨t', rest⟩)) at hmade
  have hlast := answered_add (2 * (newDirs t [p]).card) 1 faults
  cases hq : answered (2 * (newDirs t [p]).card + 1) faults with
  | some rest =>
    obtain ⟨t', hz⟩ := hmade rest hq
    have hnew := ((zkCreate_grown hz).2 rfl).2
    rw [cStr_of_nulFree (isValidPath_nulFree hv)] at hnew
    rw [hz]
    refine iff_of_true (ZkTree.mem_of_lookup hnew) fun hstop => ?_
    rw [hq] at hlast
    obtain ⟨rest', hr, hm⟩ := Option.bind_eq_some_iff.mp hlast.symm
    obtain ⟨m, rest'', hmet⟩ : ∃ m rest'', met 2 rest' = (m, rest'') := ⟨_, _, rfl⟩
    have hlost := hstop rest' hr
    rw [hmet] at hlost
    dsimp only at hlost
    subst hlost
    exact absurd (hm.symm.trans (answered_succ_of_lost hmet)) (by simp)
  | none =>
    refine (hfailed hq).2.trans ?_
    simp only [StopsFirst, not_forall, exists_prop]
    refine exists_congr fun rest => and_congr_right fun hr => ?_
    rw [hq, hr, Option.bind_some] at hlast
    obtain ⟨m, rest', hmet⟩ : ∃ m rest', met 2 rest = (m, rest') := ⟨_, _, rfl⟩
    rw [hmet]
    cases m with
    | answered => exact absurd (hlast.trans (answered_succ_of_met hmet)) (by simp [answered])
    | lost applied => cases applied <;> simp

end

/-! ### A list of nodes -/

/-- **A plan that can be created is created exactly when its calls are all answered.** -/
theorem createAll_met : ∀ {plan : List (Bytes × Bytes)} {t : ZkTree} (faults : List (Option Fault)),
    (∀ pv ∈ plan, NulFree pv.1) → PlanReady t plan →
      ((createAll plan ⟨t, faults⟩).1 = true ↔
        (answered (createCalls t (plan.map Prod.fst)) faults).isSome = true) := by
  intro plan
  induction plan with
  | nil => intro t faults _ _; exact iff_of_true rfl rfl
  | cons pv plan ih =>
    intro t faults hnul h
    obtain ⟨path, value⟩ := pv
    have hpath : NulFree path := hnul _ List.mem_cons_self
    have hv := h.valid _ List.mem_cons_self
    have hs := h.small _ List.mem_cons_self
    have hp := h.absent _ List.mem_cons_self
    have hord : ∀ q ∈ plan.map Prod.fst, ¬ Above q path := by
      intro q hq
      obtain ⟨pv, hpv, rfl⟩ := List.mem_map.mp hq
      exact (List.pairwise_cons.mp h.order).1 pv hpv
    obtain ⟨hmade, hfailed⟩ := zkCreateFuel_met (path.length + 1) t faults path value (Nat.lt_succ_self _) hv hs hp
    change answered (createCalls t [path]) faults = none → (zkCreate ⟨t, faults⟩ path value).1 = _ ∧ _ at hfailed
    change ∀ rest, answered (createCalls t [path]) faults = some rest →
      ∃ t', zkCreate ⟨t, faults⟩ path value = _ at hmade
    rw [createAll_cons, List.map_cons]
    cases hq : answered (createCalls t [path]) faults with
    | none =>
      -- the tree that the call would have made counts the calls behind it
      obtain ⟨t', hz⟩ := (zkCreate_quiet (t := t) hpath).mpr ⟨hv, hs, hp⟩
      have hmem : ∀ q, q ∈ t'.nodes ↔ q ∈ t.nodes ∨ (Above q path ∧ q ≠ []) := mem_of_created hpath hz
      rw [(hfailed hq).1, if_neg (by decide), createCalls_cons hmem hord, answered_add, hq]
      simp
    | some rest =>
      obtain ⟨t', hz⟩ := hmade rest hq
      have hmem := mem_of_created hpath hz
      rw [hz, if_pos rfl, createCalls_cons hmem hord, answered_add, hq, Option.bind_some]
      exact ih rest (fun pv hpv => hnul pv (List.mem_cons_of_mem _ hpv)) ((planReady_cons hmem).mp h).2

theorem createAll_met_iff {plan : List (Bytes × Bytes)} {t : ZkTree} {faults : List (Option Fault)}
    (hnul : ∀ pv ∈ plan, NulFree pv.1) :
    (createAll plan ⟨t, faults⟩).1 = true ↔
      PlanReady t plan ∧ (answered (createCalls t (plan.map Prod.fst)) faults).isSome = true := by
  constructor
  · intro h
    have hready : PlanReady t plan := createAll_ready hnul (Prod.ext h rfl)
    exact ⟨hready, (createAll_met faults hnul hready).mp h⟩
  · rintro ⟨hready, hans⟩
    exact (createAll_met faults hnul hready).mpr hans

/-! ### The checks -/

/-- The map of a begin once its paths are normalised, if they can be and no value is too long. -/
def normalizeNodes (nodes : BytesMap) : List Bytes → BytesMap → Option BytesMap
  | [], newNodes => some newNodes
  | raw :: raws, newNodes =>
    match pathNormalize raw with
    | none => none
    | some zpath =>
      if maxValueSize - 100 < ((nodes.lookup raw).getD []).length then none
      else normalizeNodes nodes raws
        (if zpath ∈ newNodes then newNodes else newNodes.insert zpath ((nodes.lookup raw).getD []))

/-- The map of which a begin writes the content. -/
def normalized (rawNodes : BytesMap) : Option BytesMap :=
  if rawNodes.keys = ∅ then none else normalizeNodes rawNodes (sortBytes rawNodes.keys) ∅

section

variable {t : ZkTree} {faults : List (Option Fault)} {rawNodes nodes : BytesMap} {zk' : Zk}

/-- **A look at a node**, with whatever faults. -/
theorem zkExist_met (path : Bytes) (exist : Bool) :
    zkExist ⟨t, faults⟩ path = (.ok, exist, zk') ↔
      (isValidPath (cStr path) = true ∧ (exist = true ↔ cStr path ∈ t.nodes)) ∧
        ∃ rest, met 2 faults = (.answered, rest) ∧ zk' = ⟨t, rest⟩ := by
  have hop : ∀ e, (t.existsNode (cStr path)).map (fun u => (u, t)) = .error e → e.again = false := by
    intro e he
    unfold ZkTree.existsNode at he
    split at he
    · split at he
      · exact absurd he (by simp [Except.map])
      · obtain rfl := Except.error.inj he
        rfl
    · obtain rfl := Except.error.inj he
      rfl
  obtain ⟨e, he, hcall⟩ := calls_met (fun t => (t.existsNode (cStr path)).map (fun u => (u, t))) hop faults
  change (⟨t, faults⟩ : Zk).zooExists path = _ at hcall
  obtain ⟨m, rest, hm⟩ : ∃ m rest, met 2 faults = (m, rest) := ⟨_, _, rfl⟩
  rw [hm] at hcall
  cases m with
  | answered =>
    by_cases hv : isValidPath (cStr path) = true
    · by_cases hin : cStr path ∈ t.nodes
      · simp only [ZkTree.outcome, ZkTree.serve, ZkTree.existsNode, if_pos hv, if_pos hin, Except.map] at hcall
        rw [zkExist, hcall]
        simp only [Prod.mk.injEq, true_and, hv, hin, iff_true, hm, exists_eq_left']
        exact and_congr eq_comm eq_comm
      · simp only [ZkTree.outcome, ZkTree.serve, ZkTree.existsNode, if_pos hv, if_neg hin, Except.map] at hcall
        rw [zkExist, hcall]
        simp only [Prod.mk.injEq, true_and, hv, hin, iff_false, hm, exists_eq_left', Bool.not_eq_true]
        exact and_congr eq_comm eq_comm
    · simp only [ZkTree.outcome, ZkTree.serve, ZkTree.existsNode, if_neg hv, Except.map] at hcall
      rw [zkExist, hcall]
      simp [hv]
  | lost applied =>
    have hstop : ∃ zk'', (⟨t, faults⟩ : Zk).zooExists path = (.error e, zk'') := by
      cases applied <;> exact ⟨_, hcall⟩
    obtain ⟨zk'', hstop⟩ := hstop
    have hfail : zkExist ⟨t, faults⟩ path = (.errZooFailed, false, zk'') := by
      rw [zkExist, hstop]
      rcases he with rfl | he
      · rfl
      · cases e <;> first | rfl | exact absurd he (by decide)
    rw [hfail, hm]
    simp

/-- One round of the check of the paths. -/
theorem grayCheckNodes_cons {raw zpath : Bytes} (hn : pathNormalize raw = some zpath) (raws : List Bytes)
    (zk : Zk) (newNodes : BytesMap) :
    grayCheckNodes rawNodes (raw :: raws) zk newNodes =
      if (zkExist zk zpath).1 = .ok ∧ (zkExist zk zpath).2.1 = true ∧
          ((rawNodes.lookup raw).getD []).length ≤ maxValueSize - 100 then
        grayCheckNodes rawNodes raws (zkExist zk zpath).2.2
          (if zpath ∈ newNodes then newNodes else newNodes.insert zpath ((rawNodes.lookup raw).getD []))
      else (none, (zkExist zk zpath).2.2) := by
  rw [grayCheckNodes, hn]
  dsimp only
  generalize zkExist zk zpath = r
  obtain ⟨ret, exist, zk₁⟩ := r
  cases ret with
  | ok =>
    cases exist with
    | true =>
      dsimp only
      by_cases hlong : maxValueSize - 100 < ((rawNodes.lookup raw).getD []).length
      · rw [if_pos hlong, if_neg (fun h => absurd h.2.2 (Nat.not_le.mpr hlong))]
      · rw [if_neg hlong]
        exact (if_pos ⟨rfl, rfl, Nat.not_lt.mp hlong⟩).symm
    | false => rfl
  | _ => cases exist <;> rfl

/-- One round of the check of the clients. -/
theorem grayCheckClients_cons (client : Bytes) (clients : List Bytes) (zk : Zk) :
    grayCheckClients (client :: clients) zk =
      if (zkExist zk (clientNode client)).1 = .ok ∧ (zkExist zk (clientNode client)).2.1 = false then
        grayCheckClients clients (zkExist zk (clientNode client)).2.2
      else (false, (zkExist zk (clientNode client)).2.2) := by
  rw [grayCheckClients]
  generalize zkExist zk (clientNode client) = r
  obtain ⟨ret, exist, zk₁⟩ := r
  cases ret with
  | ok => cases exist <;> rfl
  | _ => cases exist <;> rfl

/-- **The check of the paths**, with whatever faults: they are there, and every look is answered. -/
theorem grayCheckNodes_met : ∀ (raws : List Bytes) (faults : List (Option Fault)) (newNodes : BytesMap),
    grayCheckNodes rawNodes raws ⟨t, faults⟩ newNodes = (some nodes, zk') ↔
      normalizeNodes rawNodes raws newNodes = some nodes ∧
      (∀ raw ∈ raws, ∀ p, pathNormalize raw = some p → cStr p ∈ t.nodes) ∧
      ∃ rest, answered raws.length faults = some rest ∧ zk' = ⟨t, rest⟩ := by
  intro raws
  induction raws with
  | nil =>
    intro faults newNodes
    simp only [grayCheckNodes, normalizeNodes, Prod.mk.injEq, List.not_mem_nil, false_implies, implies_true,
      true_and, List.length_nil, answered, Option.some.injEq, exists_eq_left']
    exact and_congr Iff.rfl eq_comm
  | cons raw raws ih =>
    intro faults newNodes
    cases hn : pathNormalize raw with
    | none => simp [grayCheckNodes, normalizeNodes, hn]
    | some zpath =>
      rw [grayCheckNodes_cons hn, normalizeNodes, hn, List.forall_mem_cons, hn, List.length_cons]
      simp only [Option.some.injEq, forall_eq']
      cases hlook : zkExist ⟨t, faults⟩ zpath with
      | mk ret r =>
        obtain ⟨exist, zk₁⟩ := r
        dsimp only
        split
        · next hpass =>
          obtain ⟨rfl, rfl, hshort⟩ := hpass
          obtain ⟨⟨-, hin⟩, rest, hm, rfl⟩ := (zkExist_met zpath true).mp hlook
          rw [ih rest, if_neg (Nat.not_lt.mpr hshort), answered_succ_of_met hm]
          simp only [hin.mp rfl, true_and]
        · next hpass =>
          refine iff_of_false (by simp) ?_
          rintro ⟨hnorm, ⟨hin, -⟩, rest, hans, -⟩
          rw [answered] at hans
          split at hans
          · next hm =>
            have hyes := (zkExist_met zpath true).mpr ⟨⟨t.valid _ hin, iff_of_true rfl hin⟩, _, hm, rfl⟩
            obtain ⟨rfl, h⟩ := Prod.mk.inj (hlook.symm.trans hyes)
            obtain ⟨rfl, -⟩ := Prod.mk.inj h
            refine hpass ⟨rfl, rfl, ?_⟩
            split at hnorm
            · exact absurd hnorm (by simp)
            · omega
          · exact absurd hans (by simp)

/-- **The check of the clients**: none is there, and every look is answered. -/
theorem grayCheckClients_met : ∀ (clients : List Bytes) (faults : List (Option Fault)),
    grayCheckClients clients ⟨t, faults⟩ = (true, zk') ↔
      (∀ c ∈ clients, isValidPath (cStr (clientNode c)) = true ∧ cStr (clientNode c) ∉ t.nodes) ∧
      ∃ rest, answered clients.length faults = some rest ∧ zk' = ⟨t, rest⟩ := by
  intro clients
  induction clients with
  | nil =>
    intro faults
    simp only [grayCheckClients, Prod.mk.injEq, List.not_mem_nil, false_implies, implies_true, true_and,
      List.length_nil, answered, Option.some.injEq, exists_eq_left']
    exact eq_comm
  | cons client clients ih =>
    intro faults
    rw [grayCheckClients_cons, List.forall_mem_cons, List.length_cons]
    cases hlook : zkExist ⟨t, faults⟩ (clientNode client) with
    | mk ret r =>
      obtain ⟨exist, zk₁⟩ := r
      dsimp only
      split
      · next hpass =>
        obtain ⟨rfl, rfl⟩ := hpass
        obtain ⟨⟨hv, hin⟩, rest, hm, rfl⟩ := (zkExist_met _ false).mp hlook
        have hnot : cStr (clientNode client) ∉ t.nodes := fun h => absurd (hin.mpr h) Bool.false_ne_true
        rw [ih rest, answered_succ_of_met hm]
        simp only [hv, hnot, not_false_eq_true, and_self, true_and]
      · next hpass =>
        refine iff_of_false (by simp) ?_
        rintro ⟨⟨⟨hv, hnot⟩, -⟩, rest, hans, -⟩
        rw [answered] at hans
        split at hans
        · next hm =>
          have hno := (zkExist_met _ false).mpr
            ⟨⟨hv, iff_of_false Bool.false_ne_true hnot⟩, _, hm, rfl⟩
          obtain ⟨rfl, h⟩ := Prod.mk.inj (hlook.symm.trans hno)
          exact hpass ⟨rfl, (Prod.mk.inj h).1⟩
        · exact absurd hans (by simp)

end

/-! ### The map with its paths normalised -/

section

variable {rawNodes nodes : BytesMap}

/-- It has the normalised path of every path. -/
theorem mem_normalizeNodes : ∀ {raws : List Bytes} {newNodes : BytesMap},
    normalizeNodes rawNodes raws newNodes = some nodes →
      ∀ p, p ∈ nodes ↔ p ∈ newNodes ∨ ∃ raw ∈ raws, pathNormalize raw = some p := by
  intro raws
  induction raws with
  | nil =>
    intro newNodes h p
    obtain rfl := Option.some.inj h
    simp
  | cons raw raws ih =>
    intro newNodes h p
    rw [normalizeNodes] at h
    split at h
    · exact absurd h (by simp)
    · next zpath hn =>
      split at h
      · exact absurd h (by simp)
      · rw [ih h p]
        have hins : p ∈ (if zpath ∈ newNodes then newNodes
            else newNodes.insert zpath ((rawNodes.lookup raw).getD [])) ↔ p = zpath ∨ p ∈ newNodes := by
          split
          · next hm => exact ⟨Or.inr, fun h => h.elim (fun he => he ▸ hm) id⟩
          · exact Finmap.mem_insert
        rw [hins]
        simp only [List.mem_cons, exists_eq_or_imp, hn, Option.some.injEq]
        rw [eq_comm (a := p), or_comm (a := zpath = p), or_assoc]

/-- A path of it has the value of one of the paths that it came from. -/
theorem normalizeNodes_value : ∀ {raws : List Bytes} {newNodes : BytesMap},
    normalizeNodes rawNodes raws newNodes = some nodes → ∀ p v, nodes.lookup p = some v →
      newNodes.lookup p = some v ∨ ∃ raw ∈ raws, pathNormalize raw = some p ∧
        (rawNodes.lookup raw).getD [] = v ∧ v.length ≤ maxValueSize - 100 := by
  intro raws
  induction raws with
  | nil =>
    intro newNodes h p v hv
    obtain rfl := Option.some.inj h
    exact Or.inl hv
  | cons raw raws ih =>
    intro newNodes h p v hv
    rw [normalizeNodes] at h
    split at h
    · exact absurd h (by simp)
    · next zpath hn =>
      split at h
      · exact absurd h (by simp)
      · next hsize =>
        rcases ih h p v hv with hold | ⟨raw', hr, hp⟩
        · split at hold
          · exact Or.inl hold
          · by_cases hp : p = zpath
            · rw [hp, Finmap.lookup_insert, Option.some.injEq] at hold
              exact Or.inr ⟨raw, List.mem_cons_self, hp ▸ hn, hold, hold ▸ Nat.not_lt.mp hsize⟩
            · rw [Finmap.lookup_insert_of_ne _ hp] at hold
              exact Or.inl hold
        · exact Or.inr ⟨raw', List.mem_cons_of_mem _ hr, hp⟩

theorem normalizeNodes_some : ∀ {raws : List Bytes} {newNodes : BytesMap},
    normalizeNodes rawNodes raws newNodes = some nodes → ∀ raw ∈ raws, ∃ p, pathNormalize raw = some p := by
  intro raws
  induction raws with
  | nil => intro newNodes _ raw hr; exact absurd hr (by simp)
  | cons raw raws ih =>
    intro newNodes h
    rw [normalizeNodes] at h
    split at h
    · exact absurd h (by simp)
    · next zpath hn =>
      split at h
      · exact absurd h (by simp)
      · exact List.forall_mem_cons.mpr ⟨⟨zpath, hn⟩, ih h⟩

variable (h : normalized rawNodes = some nodes)

include h

theorem normalized_eq : rawNodes.keys ≠ ∅ ∧ normalizeNodes rawNodes (sortBytes rawNodes.keys) ∅ = some nodes := by
  unfold normalized at h
  split at h
  · exact absurd h (by simp)
  · next hne => exact ⟨hne, h⟩

theorem mem_normalized (p : Bytes) : p ∈ nodes ↔ ∃ raw ∈ rawNodes, pathNormalize raw = some p := by
  rw [mem_normalizeNodes (normalized_eq h).2 p]
  simp [Finmap.notMem_empty, Finmap.mem_keys]

theorem normalized_some {raw : Bytes} (hr : raw ∈ rawNodes) : ∃ p, pathNormalize raw = some p :=
  normalizeNodes_some (normalized_eq h).2 raw (mem_sortBytes.mpr (Finmap.mem_keys.mpr hr))

theorem normalized_value {p v : Bytes} (hv : nodes.lookup p = some v) :
    ∃ raw, pathNormalize raw = some p ∧ rawNodes.lookup raw = some v ∧ v.length ≤ maxValueSize - 100 := by
  rcases normalizeNodes_value (normalized_eq h).2 p v hv with h0 | ⟨raw, hr, hp, hval, hlen⟩
  · exact absurd h0 (by simp)
  · rw [mem_sortBytes, Finmap.mem_keys] at hr
    obtain ⟨w, hw⟩ := Option.isSome_iff_exists.mp (Finmap.lookup_isSome.mpr hr)
    rw [hw] at hval
    exact ⟨raw, hp, hw.trans (congrArg some hval), hlen⟩

theorem normalized_keys : nodes.keys ≠ ∅ := by
  obtain ⟨raw, hr⟩ := Finset.nonempty_iff_ne_empty.mpr (normalized_eq h).1
  obtain ⟨p, hp⟩ := normalized_some h (Finmap.mem_keys.mp hr)
  have hmem := (mem_normalized h p).mpr ⟨raw, Finmap.mem_keys.mp hr, hp⟩
  exact Finset.nonempty_iff_ne_empty.mp ⟨p, Finmap.mem_keys.mpr hmem⟩

end

end QConf.Manager
