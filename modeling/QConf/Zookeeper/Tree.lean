import QConf.Zookeeper.Path

/-!
# The tree that ZooKeeper keeps

A `ZkTree` maps paths to data.  The root is always there, the node above a node
is always there, every path passed the client's check, and no data is larger
than a request may be; the operations of the server keep all of this, so no other
tree can be built.  The answers are the error codes of the C client.
-/

namespace QConf

/-- The largest data a request may carry: `jute.maxbuffer` of the server. -/
def zkMaxData : Nat := 1048575

/-- The codes a ZooKeeper call answers with, apart from `ZOK`. -/
inductive ZooErr
  | noNode
  | nodeExists
  | notEmpty
  | badArguments
  | connectionLoss
  | invalidState
  | marshallingError
  deriving DecidableEq, Repr

/-- The nodes of a ZooKeeper server. -/
@[ext]
structure ZkTree where
  nodes : BytesMap
  root : rootPath ∈ nodes
  closed : ∀ q ∈ nodes, q ≠ rootPath → zkParent q ∈ nodes
  valid : ∀ q ∈ nodes, isValidPath q = true
  small : ∀ q d, nodes.lookup q = some d → d.length ≤ zkMaxData

namespace ZkTree

/-- The tree with nothing but the root. -/
def empty : ZkTree where
  nodes := Finmap.singleton rootPath []
  root := (Finmap.mem_singleton _ _ _).mpr rfl
  closed q hq hne := absurd ((Finmap.mem_singleton _ _ _).mp hq) hne
  valid q hq := by
    rw [(Finmap.mem_singleton _ _ _).mp hq]
    decide
  small q d h := by
    have hq : q = rootPath :=
      (Finmap.mem_singleton _ _ _).mp (Finmap.lookup_isSome.mp (by rw [h]; rfl))
    subst hq
    rw [Finmap.lookup_singleton_eq, Option.some.injEq] at h
    simp [← h]

/-- The names of the children of `p`. -/
def children (t : ZkTree) (p : Bytes) : Finset Bytes :=
  (t.nodes.keys.filter (fun q => q ≠ rootPath ∧ zkParent q = p)).image zkName

theorem mem_children {t : ZkTree} {p c : Bytes} :
    c ∈ t.children p ↔ ∃ q ∈ t.nodes, q ≠ rootPath ∧ zkParent q = p ∧ zkName q = c := by
  simp only [children, Finset.mem_image, Finset.mem_filter, Finmap.mem_keys, and_assoc]

theorem mem_of_lookup {m : BytesMap} {q d : Bytes} (h : m.lookup q = some d) : q ∈ m :=
  Finmap.lookup_isSome.mp (by rw [h]; rfl)

/-- A path other than the root is a parent, a slash and a name. -/
theorem eq_childPath {q : Bytes} (h : isValidPath q = true) (hr : q ≠ rootPath) :
    q = childPath (zkParent q) (zkName q) ∧ zkParent q ≠ [] ∧ zkName q ≠ [] ∧ slash ∉ zkName q := by
  rcases isValidPath_iff.mp h with h0 | ⟨hlen, hhead, hlast, -⟩
  · exact absurd h0 hr
  cases hs : splitLast q with
  | none =>
    refine absurd ?_ (splitLast_none.mp hs)
    exact List.mem_of_mem_head? (by rw [hhead]; rfl)
  | some pc =>
    obtain ⟨p, c⟩ := pc
    obtain ⟨hq, hc⟩ := splitLast_some hs
    have hname : zkName q = c := by simp only [zkName, hs]
    have hcne : c ≠ [] := by
      rintro rfl
      exact hlast (by rw [hq]; simp)
    by_cases hp : p = []
    · have hpar : zkParent q = rootPath := by simp only [zkParent, hs, if_pos hp]
      rw [hpar, hname]
      exact ⟨by rw [hq, hp]; rfl, by simp [rootPath], hcne, hc⟩
    · have hpar : zkParent q = p := by simp only [zkParent, hs, if_neg hp]
      have hproot : p ≠ rootPath := by
        rintro rfl
        have hv := isValidPath_of_append hp (hq ▸ h)
        -- two slashes in a row are rejected
        rw [hq] at h
        rcases isValidPath_iff.mp h with h0 | ⟨-, -, -, hbad⟩
        · simp [rootPath] at h0
        · have := hbad 1 (by omega) (by simp [rootPath])
          simp [badAt, rootPath] at this
      rw [hpar, hname, childPath, if_neg hproot]
      exact ⟨hq, hp, hcne, hc⟩

theorem zkParent_length_lt {q : Bytes} (h : isValidPath q = true) (hr : q ≠ rootPath) :
    (zkParent q).length < q.length := by
  obtain ⟨hq, -, hc, -⟩ := eq_childPath h hr
  have hpos := List.length_pos_iff.mpr hc
  have hlen := congrArg List.length hq
  rw [childPath] at hlen
  split at hlen
  · next hroot =>
    rw [hlen, hroot, List.length_cons]
    simpa [rootPath] using hpos
  · rw [hlen, List.length_append, List.length_cons]
    omega

theorem isValidPath_zkParent {q : Bytes} (h : isValidPath q = true) (hr : q ≠ rootPath) :
    isValidPath (zkParent q) = true := by
  obtain ⟨hq, hp, -, -⟩ := eq_childPath h hr
  by_cases hroot : zkParent q = rootPath
  · rw [hroot]
    decide
  · rw [hq, childPath, if_neg hroot] at h
    exact isValidPath_of_append hp h

/-! ### The operations of the server -/

/-- The data of a node, as `zoo_get` reads it. -/
def get (t : ZkTree) (q : Bytes) : Except ZooErr Bytes :=
  if isValidPath q then
    match t.nodes.lookup q with
    | none => .error .noNode
    | some d => .ok d
  else .error .badArguments

/-- `zoo_exists`. -/
def existsNode (t : ZkTree) (q : Bytes) : Except ZooErr Unit :=
  if isValidPath q then if q ∈ t.nodes then .ok () else .error .noNode else .error .badArguments

/-- `zoo_get_children`. -/
def getChildren (t : ZkTree) (q : Bytes) : Except ZooErr (Finset Bytes) :=
  if isValidPath q then if q ∈ t.nodes then .ok (t.children q) else .error .noNode
  else .error .badArguments

/-- The tree with the data `d` at `q`. -/
def put (t : ZkTree) (q d : Bytes) (hv : isValidPath q = true) (hs : d.length ≤ zkMaxData)
    (hp : zkParent q ∈ t.nodes) : ZkTree where
  nodes := t.nodes.insert q d
  root := Finmap.mem_insert.mpr (Or.inr t.root)
  closed q' hq' hne := by
    rcases Finmap.mem_insert.mp hq' with rfl | h
    · exact Finmap.mem_insert.mpr (Or.inr hp)
    · exact Finmap.mem_insert.mpr (Or.inr (t.closed q' h hne))
  valid q' hq' := by
    rcases Finmap.mem_insert.mp hq' with rfl | h
    · exact hv
    · exact t.valid q' h
  small q' d' h := by
    by_cases hq : q' = q
    · subst hq
      rw [Finmap.lookup_insert, Option.some.injEq] at h
      exact h ▸ hs
    · rw [Finmap.lookup_insert_of_ne _ hq] at h
      exact t.small q' d' h

/-- `zoo_create` of a persistent node. -/
def create (t : ZkTree) (q d : Bytes) : Except ZooErr ZkTree :=
  if hv : isValidPath q = true then
    if hs : d.length ≤ zkMaxData then
      if hp : zkParent q ∈ t.nodes then
        if q ∈ t.nodes then .error .nodeExists else .ok (t.put q d hv hs hp)
      else .error .noNode
    else .error .connectionLoss
  else .error .badArguments

theorem zkParent_root : zkParent rootPath = rootPath := by decide

theorem zkParent_mem {t : ZkTree} {q : Bytes} (h : q ∈ t.nodes) : zkParent q ∈ t.nodes := by
  by_cases hr : q = rootPath
  · rw [hr, zkParent_root]
    exact t.root
  · exact t.closed q h hr

/-- `zoo_set`, for any version. -/
def set (t : ZkTree) (q d : Bytes) : Except ZooErr ZkTree :=
  if isValidPath q then
    if hs : d.length ≤ zkMaxData then
      if hq : q ∈ t.nodes then .ok (t.put q d (t.valid q hq) hs (zkParent_mem hq))
      else .error .noNode
    else .error .connectionLoss
  else .error .badArguments

/-- The tree without the leaf `q`. -/
def erase (t : ZkTree) (q : Bytes) (hr : q ≠ rootPath) (hc : t.children q = ∅) : ZkTree where
  nodes := t.nodes.erase q
  root := Finmap.mem_erase.mpr ⟨hr.symm, t.root⟩
  closed q' hq' hne := by
    have hm := (Finmap.mem_erase.mp hq').2
    refine Finmap.mem_erase.mpr ⟨fun hpar => ?_, t.closed q' hm hne⟩
    have : zkName q' ∈ t.children q := mem_children.mpr ⟨q', hm, hne, hpar, rfl⟩
    rw [hc] at this
    exact absurd this (Finset.notMem_empty _)
  valid q' hq' := t.valid q' (Finmap.mem_erase.mp hq').2
  small q' d h := by
    by_cases hq : q' = q
    · rw [hq, Finmap.lookup_erase] at h
      exact absurd h (by simp)
    · rw [Finmap.lookup_erase_ne hq] at h
      exact t.small q' d h

/-- `zoo_delete`, for any version.  The root cannot be deleted. -/
def delete (t : ZkTree) (q : Bytes) : Except ZooErr ZkTree :=
  if isValidPath q then
    if hr : q = rootPath then .error .badArguments
    else if q ∈ t.nodes then
      if hc : t.children q = ∅ then .ok (t.erase q hr hc) else .error .notEmpty
    else .error .noNode
  else .error .badArguments

/-! ### What the operations do -/

theorem get_eq_ok {t : ZkTree} {q d : Bytes} : t.get q = .ok d ↔ t.nodes.lookup q = some d := by
  unfold get
  constructor
  · intro h
    split at h
    · split at h
      · exact absurd h (by simp)
      · next hl => rw [hl, Except.ok.inj h]
    · exact absurd h (by simp)
  · intro h
    rw [if_pos (t.valid q (mem_of_lookup h)), h]

theorem get_error {t : ZkTree} {q : Bytes} {e : ZooErr} (h : t.get q = .error e) :
    (e = .noNode ∧ q ∉ t.nodes) ∨ (e = .badArguments ∧ isValidPath q = false) := by
  unfold get at h
  split at h
  · split at h
    · next hl => exact Or.inl ⟨(Except.error.inj h).symm, Finmap.lookup_eq_none.mp hl⟩
    · exact absurd h (by simp)
  · next hv => exact Or.inr ⟨(Except.error.inj h).symm, by simpa using hv⟩

theorem getChildren_ok {t : ZkTree} {q : Bytes} {names : Finset Bytes}
    (h : t.getChildren q = .ok names) : q ∈ t.nodes ∧ names = t.children q := by
  unfold getChildren at h
  split at h
  · split at h
    · next hq => exact ⟨hq, (Except.ok.inj h).symm⟩
    · exact absurd h (by simp)
  · exact absurd h (by simp)

theorem getChildren_error {t : ZkTree} {q : Bytes} {e : ZooErr} (h : t.getChildren q = .error e) :
    (e = .noNode ∧ q ∉ t.nodes) ∨ (e = .badArguments ∧ isValidPath q = false) := by
  unfold getChildren at h
  split at h
  · split at h
    · exact absurd h (by simp)
    · next hq => exact Or.inl ⟨(Except.error.inj h).symm, hq⟩
  · next hv => exact Or.inr ⟨(Except.error.inj h).symm, by simpa using hv⟩

theorem create_ok {t t' : ZkTree} {q d : Bytes} (h : t.create q d = .ok t') :
    isValidPath q = true ∧ d.length ≤ zkMaxData ∧ zkParent q ∈ t.nodes ∧ q ∉ t.nodes ∧
      t'.nodes = t.nodes.insert q d := by
  unfold create at h
  split at h
  · split at h
    · split at h
      · split at h
        · exact absurd h (by simp)
        · next hv hs hp hq =>
          rw [Except.ok.injEq] at h
          exact ⟨hv, hs, hp, hq, by rw [← h]; rfl⟩
      · exact absurd h (by simp)
    · exact absurd h (by simp)
  · exact absurd h (by simp)

theorem create_eq_ok {t : ZkTree} {q d : Bytes} (hv : isValidPath q = true)
    (hs : d.length ≤ zkMaxData) (hp : zkParent q ∈ t.nodes) (hq : q ∉ t.nodes) :
    t.create q d = .ok (t.put q d hv hs hp) := by
  rw [create, dif_pos hv, dif_pos hs, dif_pos hp, if_neg hq]

theorem set_ok {t t' : ZkTree} {q d : Bytes} (h : t.set q d = .ok t') :
    q ∈ t.nodes ∧ d.length ≤ zkMaxData ∧ t'.nodes = t.nodes.insert q d := by
  unfold set at h
  split at h
  · split at h
    · split at h
      · next hv hs hq =>
        rw [Except.ok.injEq] at h
        exact ⟨hq, hs, by rw [← h]; rfl⟩
      · exact absurd h (by simp)
    · exact absurd h (by simp)
  · exact absurd h (by simp)

theorem delete_ok {t t' : ZkTree} {q : Bytes} (h : t.delete q = .ok t') :
    q ≠ rootPath ∧ q ∈ t.nodes ∧ t.children q = ∅ ∧ t'.nodes = t.nodes.erase q := by
  unfold delete at h
  split at h
  · split at h
    · exact absurd h (by simp)
    · split at h
      · split at h
        · next hv hr hq hc =>
          rw [Except.ok.injEq] at h
          exact ⟨hr, hq, hc, by rw [← h]; rfl⟩
        · exact absurd h (by simp)
      · exact absurd h (by simp)
  · exact absurd h (by simp)

end ZkTree

end QConf
