import QConf.Manager.Gray

/-!
# The nodes that a begin creates

Once its arguments are accepted, a begin is a list of nodes to create (`grayPlan`):
the pieces of the content, the clients, the backlink.  It answers `QCONF_OK` if
every one of them is created (`grayWrite_ok_iff`), and where one is not it stops and
leaves the earlier ones where they are.  A list of nodes is created only where the tree
is ready for it (`createAll_ready`).
-/

namespace QConf.Manager

/-! ### Creating a list of nodes -/

/-- Creates nodes one after the other, and stops at the first that is not created. -/
def createAll : List (Bytes × Bytes) → Zk → Bool × Zk
  | [], zk => (true, zk)
  | (path, value) :: plan, zk =>
    match zkCreate zk path value with
    | (.ok, zk) => createAll plan zk
    | (_, zk) => (false, zk)

theorem createAll_cons (path value : Bytes) (plan : List (Bytes × Bytes)) (zk : Zk) :
    createAll ((path, value) :: plan) zk =
      if (zkCreate zk path value).1 = .ok then createAll plan (zkCreate zk path value).2
      else (false, (zkCreate zk path value).2) := by
  rw [createAll]
  split
  · next h => simp [h]
  · next h hne =>
    rw [if_neg]
    · rw [hne]
    · rw [hne]
      exact h

theorem createAll_append (plan plan' : List (Bytes × Bytes)) : ∀ zk : Zk,
    createAll (plan ++ plan') zk =
      if (createAll plan zk).1 = true then createAll plan' (createAll plan zk).2
      else createAll plan zk := by
  induction plan with
  | nil => intro zk; rfl
  | cons pv plan ih =>
    intro zk
    obtain ⟨path, value⟩ := pv
    rw [List.cons_append, createAll_cons, createAll_cons]
    split
    · exact ih _
    · rfl

/-- No node that was there is changed. -/
def Keeps (t t' : ZkTree) : Prop := ∀ q ∈ t.nodes, t'.nodes.lookup q = t.nodes.lookup q

theorem Keeps.mem {t t' : ZkTree} (h : Keeps t t') {q : Bytes} (hq : q ∈ t.nodes) : q ∈ t'.nodes := by
  rw [← Finmap.lookup_isSome, h q hq, Finmap.lookup_isSome]
  exact hq

theorem Keeps.trans {t t' t'' : ZkTree} (h : Keeps t t') (h' : Keeps t' t'') : Keeps t t'' :=
  fun q hq => (h' q (h.mem hq)).trans (h q hq)

theorem keeps_zkCreate (zk : Zk) (path value : Bytes) : Keeps zk.tree (zkCreate zk path value).2.tree :=
  (zkCreate_grown (show zkCreate zk path value = (_, _) from rfl)).1.keep

theorem keeps_createAll : ∀ (plan : List (Bytes × Bytes)) (zk : Zk),
    Keeps zk.tree (createAll plan zk).2.tree := by
  intro plan
  induction plan with
  | nil => intro zk q _; rfl
  | cons pv plan ih =>
    intro zk
    obtain ⟨path, value⟩ := pv
    rw [createAll_cons]
    split
    · exact (keeps_zkCreate zk path value).trans (ih _)
    · exact keeps_zkCreate zk path value

/-- The nodes after a list of nodes was created, whatever failed on the way. -/
theorem createAll_ok : ∀ {plan : List (Bytes × Bytes)} {zk zk' : Zk}, (∀ pv ∈ plan, NulFree pv.1) →
    createAll plan zk = (true, zk') →
      (∀ q, q ∈ zk'.tree.nodes ↔ q ∈ zk.tree.nodes ∨ ∃ pv ∈ plan, Above q pv.1 ∧ q ≠ []) ∧
      (∀ pv ∈ plan, zk'.tree.nodes.lookup pv.1 = some pv.2) := by
  intro plan
  induction plan with
  | nil =>
    intro zk zk' _ h
    cases h
    simp
  | cons pv plan ih =>
    intro zk zk' hnul h
    obtain ⟨path, value⟩ := pv
    have hkeep := keeps_createAll plan (zkCreate zk path value).2
    have hpath : NulFree path := hnul _ List.mem_cons_self
    rw [createAll_cons] at h
    split at h
    · next hok =>
      have hz : zkCreate zk path value = (.ok, (zkCreate zk path value).2) := Prod.ext hok rfl
      obtain ⟨hmem, hval⟩ := ih (fun pv hpv => hnul pv (List.mem_cons_of_mem _ hpv)) h
      have hnew := ((zkCreate_grown hz).2 rfl).2
      rw [cStr_of_nulFree hpath] at hnew
      rw [h] at hkeep
      constructor
      · intro q
        rw [hmem q, mem_of_created hpath hz q, or_assoc]
        simp
      · rintro pv hpv
        rcases List.mem_cons.mp hpv with rfl | hpv
        · exact (hkeep path (ZkTree.mem_of_lookup hnew)).trans hnew
        · exact hval pv hpv
    · exact absurd h (by simp)

/-- A list of nodes that can be created one after the other. -/
structure PlanReady (t : ZkTree) (plan : List (Bytes × Bytes)) : Prop where
  valid : ∀ pv ∈ plan, isValidPath pv.1 = true
  small : ∀ pv ∈ plan, pv.2.length ≤ zkMaxData
  absent : ∀ pv ∈ plan, pv.1 ∉ t.nodes
  order : plan.Pairwise (fun a b => ¬ Above b.1 a.1)

theorem PlanReady.sublist {t : ZkTree} {plan plan' : List (Bytes × Bytes)} (h : PlanReady t plan')
    (hsub : plan.Sublist plan') : PlanReady t plan where
  valid pv hpv := h.valid pv (hsub.subset hpv)
  small pv hpv := h.small pv (hsub.subset hpv)
  absent pv hpv := h.absent pv (hsub.subset hpv)
  order := h.order.sublist hsub

theorem planReady_cons {t t' : ZkTree} {path value : Bytes} {plan : List (Bytes × Bytes)}
    (ht' : ∀ q, q ∈ t'.nodes ↔ q ∈ t.nodes ∨ (Above q path ∧ q ≠ [])) :
    PlanReady t ((path, value) :: plan) ↔
      (isValidPath path = true ∧ value.length ≤ zkMaxData ∧ path ∉ t.nodes) ∧ PlanReady t' plan := by
  constructor
  · intro h
    have hord := List.pairwise_cons.mp h.order
    refine ⟨⟨h.valid _ List.mem_cons_self, h.small _ List.mem_cons_self, h.absent _ List.mem_cons_self⟩,
      fun pv hpv => h.valid pv (List.mem_cons_of_mem _ hpv),
      fun pv hpv => h.small pv (List.mem_cons_of_mem _ hpv), fun pv hpv hm => ?_, hord.2⟩
    rcases (ht' _).mp hm with hm | ⟨ha, -⟩
    · exact h.absent pv (List.mem_cons_of_mem _ hpv) hm
    · exact hord.1 pv hpv ha
  · rintro ⟨⟨h1, h2, h3⟩, h⟩
    refine ⟨List.forall_mem_cons.mpr ⟨h1, h.valid⟩, List.forall_mem_cons.mpr ⟨h2, h.small⟩,
      List.forall_mem_cons.mpr ⟨h3, fun pv hpv hm => h.absent pv hpv ((ht' _).mpr (Or.inl hm))⟩,
      List.pairwise_cons.mpr ⟨fun pv hpv ha => ?_, h.order⟩⟩
    refine h.absent pv hpv ((ht' _).mpr (Or.inr ⟨ha, ?_⟩))
    intro h0
    have := h.valid pv hpv
    rw [h0] at this
    exact absurd this (by decide)

/-- A list of nodes that was created could be, whatever failed on the way. -/
theorem createAll_ready : ∀ {plan : List (Bytes × Bytes)} {zk zk' : Zk}, (∀ pv ∈ plan, NulFree pv.1) →
    createAll plan zk = (true, zk') → PlanReady zk.tree plan := by
  intro plan
  induction plan with
  | nil => exact fun _ _ => ⟨by simp, by simp, by simp, List.Pairwise.nil⟩
  | cons pv plan ih =>
    intro zk zk' hnul h
    obtain ⟨path, value⟩ := pv
    have hpath : NulFree path := hnul _ List.mem_cons_self
    rw [createAll_cons] at h
    split at h
    · next hok =>
      have hz : zkCreate zk path value = (.ok, (zkCreate zk path value).2) := Prod.ext hok rfl
      obtain ⟨hn, hv⟩ := (zkCreate_grown hz).2 rfl
      rw [cStr_of_nulFree hpath] at hn hv
      refine (planReady_cons (mem_of_created hpath hz)).mpr ⟨⟨?_, ?_, hn⟩, ?_⟩
      · exact ZkTree.valid _ path (ZkTree.mem_of_lookup hv)
      · exact ZkTree.small _ path value hv
      · exact ih (fun pv hpv => hnul pv (List.mem_cons_of_mem _ hpv)) h
    · exact absurd h (by simp)

/-! ### The plan of a begin -/

/-- How many pieces a content has. -/
def pieceCount (content : Bytes) : Nat := (content.length + (grayContentMaxSize - 1)) / grayContentMaxSize

theorem length_le_pieces (content : Bytes) :
    content.length ≤ pieceCount content * grayContentMaxSize := by
  rw [pieceCount, show grayContentMaxSize = 102400 from rfl]
  omega

theorem pieces_lt_length {content : Bytes} {i : Nat} (h : i < pieceCount content) :
    i * grayContentMaxSize < content.length := by
  rw [pieceCount, show grayContentMaxSize = 102400 from rfl] at h
  rw [show grayContentMaxSize = 102400 from rfl]
  omega

/-- The pieces from number `i` on, `k` of them. -/
def contentPlan (grayId content : Bytes) (i k : Nat) : List (Bytes × Bytes) :=
  (List.range' i k).map (fun j => (contentNode grayId j, contentPiece content (j * grayContentMaxSize)))

def clientPlan (grayId : Bytes) (clients : List Bytes) : List (Bytes × Bytes) :=
  clients.map (fun c => (clientNode c, grayId))

/-- All the nodes of a release, in the order in which a begin creates them. -/
def grayPlan (content : Bytes) (clients : List Bytes) (grayId : Bytes) : List (Bytes × Bytes) :=
  contentPlan grayId content 0 (pieceCount content) ++ clientPlan grayId clients ++
    [(backlinkNode grayId, backlinkContent clients)]

theorem mem_contentPlan {grayId content : Bytes} {i k : Nat} {pv : Bytes × Bytes} :
    pv ∈ contentPlan grayId content i k ↔ ∃ j, i ≤ j ∧ j < i + k ∧
      pv = (contentNode grayId j, contentPiece content (j * grayContentMaxSize)) := by
  simp only [contentPlan, List.mem_map, List.mem_range'_1, and_assoc, eq_comm]

theorem mem_clientPlan {grayId : Bytes} {clients : List Bytes} {pv : Bytes × Bytes} :
    pv ∈ clientPlan grayId clients ↔ ∃ c ∈ clients, pv = (clientNode c, grayId) := by
  simp only [clientPlan, List.mem_map, eq_comm]

theorem mem_grayPlan {grayId content : Bytes} {clients : List Bytes} {pv : Bytes × Bytes} :
    pv ∈ grayPlan content clients grayId ↔
      (∃ j < pieceCount content,
        pv = (contentNode grayId j, contentPiece content (j * grayContentMaxSize))) ∨
      (∃ c ∈ clients, pv = (clientNode c, grayId)) ∨ pv = (backlinkNode grayId, backlinkContent clients) := by
  simp only [grayPlan, List.mem_append, mem_contentPlan, mem_clientPlan, List.mem_singleton, Nat.zero_le,
    Nat.zero_add, true_and, or_assoc]

/-- The content is short enough for the unsigned index of the loop: a multiple of the
piece size below `2 ^ 32` reaches its end. -/
def ContentFits (content : Bytes) : Prop := content.length ≤ 41943 * grayContentMaxSize

instance (content : Bytes) : Decidable (ContentFits content) := inferInstanceAs (Decidable (_ ≤ _))

/-- The index of a content that fits does not wrap around. -/
theorem ContentFits.index {content : Bytes} (h : ContentFits content) {i : Nat}
    (hi : i < pieceCount content) :
    (i * grayContentMaxSize + grayContentMaxSize) % 2 ^ 32 = (i + 1) * grayContentMaxSize := by
  rw [pieceCount, show grayContentMaxSize = 102400 from rfl] at hi
  rw [ContentFits, show grayContentMaxSize = 102400 from rfl] at h
  rw [show grayContentMaxSize = 102400 from rfl]
  omega

section

variable {grayId content : Bytes} {clients : List Bytes}

theorem createClients_eq (grayId : Bytes) : ∀ (clients : List Bytes) (zk : Zk),
    createClients grayId clients zk =
      (if (createAll (clientPlan grayId clients) zk).1 = true then .ok else .errGraySetClients,
        (createAll (clientPlan grayId clients) zk).2) := by
  intro clients
  induction clients with
  | nil => intro zk; rfl
  | cons client clients ih =>
    intro zk
    rw [createClients, clientPlan, List.map_cons, createAll_cons]
    split
    · next h =>
      rw [h, if_pos rfl]
      exact ih _
    · next h hne =>
      rw [hne, if_neg h]
      rfl

/-- One round of the loop over the pieces. -/
theorem createContent_succ (grayId content : Bytes) (left : Nat) (zk : Zk) (nodeNum index : Nat) :
    createContent grayId content (left + 1) zk nodeNum index =
      if (zkCreate zk (contentNode grayId nodeNum) (contentPiece content index)).1 = .ok then
        if (index + grayContentMaxSize) % 2 ^ 32 < content.length then
          createContent grayId content left (zkCreate zk (contentNode grayId nodeNum) (contentPiece content index)).2
            (nodeNum + 1) ((index + grayContentMaxSize) % 2 ^ 32)
        else (.ok, (zkCreate zk (contentNode grayId nodeNum) (contentPiece content index)).2)
      else (.errGraySetContent, (zkCreate zk (contentNode grayId nodeNum) (contentPiece content index)).2) := by
  rw [createContent]
  generalize zkCreate zk (contentNode grayId nodeNum) (contentPiece content index) = r
  obtain ⟨ret, zk'⟩ := r
  by_cases hok : ret = .ok
  · rw [if_pos hok, hok]
  · rw [if_neg hok]
    cases ret <;> first | rfl | exact absurd rfl hok

/-- The three parts of a begin, each of which has to succeed for the next. -/
theorem grayWrite_parts (zk : Zk) (content : Bytes) (clients : List Bytes) (grayId : Bytes) :
    grayWrite zk content clients grayId =
      let r := createContent grayId content (2 ^ 32) zk 0 0
      let c := createClients grayId clients r.2
      let b := zkCreate c.2 (backlinkNode grayId) (backlinkContent clients)
      if r.1 = .ok then if c.1 = .ok then (if b.1 = .ok then .ok else .errGraySetBacklink, b.2) else c
      else r := by
  rw [grayWrite]
  obtain ⟨ret, zk₁⟩ := createContent grayId content (2 ^ 32) zk 0 0
  cases ret <;> try rfl
  dsimp only
  obtain ⟨ret, zk₂⟩ := createClients grayId clients zk₁
  cases ret <;> try rfl
  dsimp only
  obtain ⟨ret, zk₃⟩ := zkCreate zk₂ (backlinkNode grayId) (backlinkContent clients)
  cases ret <;> rfl

/-- The loop over the pieces, for a content that fits: the `k` pieces from `i` on. -/
theorem createContent_eq (grayId content : Bytes) (hfit : ContentFits content) :
    ∀ (k left i : Nat) (zk : Zk), i + (k + 1) = pieceCount content → k < left →
      createContent grayId content left zk i (i * grayContentMaxSize) =
        (if (createAll (contentPlan grayId content i (k + 1)) zk).1 = true then .ok
          else .errGraySetContent, (createAll (contentPlan grayId content i (k + 1)) zk).2) := by
  intro k
  induction k with
  | zero =>
    intro left i zk hi hleft
    obtain ⟨left, rfl⟩ : ∃ l, left = l + 1 := ⟨left - 1, by omega⟩
    have hlast : ¬ (i + 1) * grayContentMaxSize < content.length := by
      have := length_le_pieces content
      rw [← hi] at this
      exact Nat.not_lt.mpr this
    rw [createContent_succ, hfit.index (by omega), if_neg hlast, contentPlan, List.range'_succ, List.map_cons,
      createAll_cons]
    split <;> rfl
  | succ k ih =>
    intro left i zk hi hleft
    obtain ⟨left, rfl⟩ : ∃ l, left = l + 1 := ⟨left - 1, by omega⟩
    have hmore : (i + 1) * grayContentMaxSize < content.length := pieces_lt_length (by omega)
    rw [createContent_succ, hfit.index (by omega), if_pos hmore, contentPlan, List.range'_succ, List.map_cons,
      createAll_cons]
    split
    · exact ih left (i + 1) _ (by omega) (by omega)
    · rfl

/-- A content that does not fit is never written to its end: the index stays a
multiple of 4096 below `2 ^ 32`. -/
theorem createContent_not_ok (grayId content : Bytes) (hfit : ¬ ContentFits content) :
    ∀ (left nodeNum index : Nat) (zk : Zk), index % 4096 = 0 → index < 2 ^ 32 →
      (createContent grayId content left zk nodeNum index).1 ≠ .ok := by
  rw [ContentFits, show grayContentMaxSize = 102400 from rfl] at hfit
  intro left
  induction left with
  | zero => intro nodeNum index zk _ _ h; exact absurd h (by simp [createContent])
  | succ left ih =>
    intro nodeNum index zk hmod hlt
    rw [createContent_succ]
    split
    · have hnext : (index + grayContentMaxSize) % 2 ^ 32 % 4096 = 0 ∧
          (index + grayContentMaxSize) % 2 ^ 32 < 2 ^ 32 := by
        rw [show grayContentMaxSize = 102400 from rfl]
        omega
      rw [if_pos (by omega)]
      exact ih _ _ _ hnext.1 hnext.2
    · simp

theorem pieceCount_pos (hne : content ≠ []) : 0 < pieceCount content := by
  have := List.length_pos_iff.mpr hne
  have hle := length_le_pieces content
  rcases Nat.eq_zero_or_pos (pieceCount content) with h0 | h0
  · rw [h0, Nat.zero_mul] at hle
    omega
  · exact h0

/-- The loop over the pieces, from the first one on. -/
theorem createContent_eq_plan (hfit : ContentFits content) (hne : content ≠ []) (zk : Zk) :
    createContent grayId content (2 ^ 32) zk 0 0 =
      (if (createAll (contentPlan grayId content 0 (pieceCount content)) zk).1 = true then .ok
        else .errGraySetContent, (createAll (contentPlan grayId content 0 (pieceCount content)) zk).2) := by
  obtain ⟨k, hk⟩ : ∃ k, pieceCount content = k + 1 :=
    ⟨pieceCount content - 1, by have := pieceCount_pos hne; omega⟩
  have hcontent := createContent_eq grayId content hfit k (2 ^ 32) 0 zk (by omega) (by
    have h1 := length_le_pieces content
    have h2 : (pieceCount content - 1) * grayContentMaxSize < content.length :=
      pieces_lt_length (by omega)
    rw [ContentFits] at hfit
    rw [show grayContentMaxSize = 102400 from rfl] at h2 hfit
    omega)
  rw [Nat.zero_mul, ← hk] at hcontent
  exact hcontent

/-- A content that was written has all its nodes. -/
theorem createContent_ok (hne : content ≠ []) {zk zk' : Zk}
    (h : createContent grayId content (2 ^ 32) zk 0 0 = (.ok, zk')) :
    (createAll (contentPlan grayId content 0 (pieceCount content)) zk).1 = true ∧
      (createAll (contentPlan grayId content 0 (pieceCount content)) zk).2 = zk' := by
  by_cases hfit : ContentFits content
  · rw [createContent_eq_plan hfit hne, Prod.mk.injEq] at h
    refine ⟨?_, h.2⟩
    by_contra hno
    rw [if_neg hno] at h
    exact absurd h.1 (by simp)
  · have hno := createContent_not_ok grayId content hfit (2 ^ 32) 0 0 zk (by decide) (by decide)
    rw [h] at hno
    exact absurd rfl hno

/-- A begin whose pieces are created like `r` goes on with the clients and the backlink. -/
theorem grayWrite_after_content {r : Bool × Zk} {zk : Zk}
    (h : createContent grayId content (2 ^ 32) zk 0 0 = (if r.1 = true then .ok else .errGraySetContent, r.2)) :
    let rest := createAll (clientPlan grayId clients ++ [(backlinkNode grayId, backlinkContent clients)]) r.2
    ((grayWrite zk content clients grayId).1 = .ok ↔ (if r.1 = true then rest else r).1 = true) ∧
      (grayWrite zk content clients grayId).2 = (if r.1 = true then rest else r).2 := by
  rw [grayWrite_parts, h, createAll_append]
  dsimp only
  rw [createClients_eq]
  generalize createAll (clientPlan grayId clients) r.2 = c
  rw [createAll_cons]
  by_cases h1 : r.1 = true
  · by_cases h2 : c.1 = true
    · by_cases h3 : (zkCreate c.2 (backlinkNode grayId) (backlinkContent clients)).1 = .ok
      · simp [h1, h2, h3, createAll]
      · simp [h1, h2, h3]
    · simp [h1, h2]
  · simp [h1]

/-- **A begin creates its plan**, when the content fits. -/
theorem grayWrite_eq (hfit : ContentFits content) (hne : content ≠ []) (zk : Zk) :
    ((grayWrite zk content clients grayId).1 = .ok ↔
      (createAll (grayPlan content clients grayId) zk).1 = true) ∧
      (grayWrite zk content clients grayId).2 = (createAll (grayPlan content clients grayId) zk).2 := by
  rw [grayPlan, List.append_assoc, createAll_append]
  exact grayWrite_after_content (createContent_eq_plan hfit hne zk)

theorem grayWrite_ok_iff (hne : content ≠ []) (zk : Zk) :
    (grayWrite zk content clients grayId).1 = .ok ↔
      ContentFits content ∧ (createAll (grayPlan content clients grayId) zk).1 = true := by
  by_cases hfit : ContentFits content
  · exact (grayWrite_eq hfit hne zk).1.trans (by simp [hfit])
  · have hno := createContent_not_ok grayId content hfit (2 ^ 32) 0 0 zk (by decide) (by decide)
    simp only [hfit, false_and, iff_false]
    intro h
    rw [grayWrite] at h
    split at h
    · next hc =>
      rw [hc] at hno
      exact hno rfl
    · exact hno h

/-! ### The first node -/

theorem keeps_createClients (grayId : Bytes) (clients : List Bytes) (zk : Zk) :
    Keeps zk.tree (createClients grayId clients zk).2.tree := by
  rw [createClients_eq]
  exact keeps_createAll _ zk

/-- The loop over the pieces starts with the piece it is at, and ends there when
that is not created. -/
theorem createContent_first (grayId content : Bytes) : ∀ (left nodeNum index : Nat) (zk : Zk),
    Keeps (zkCreate zk (contentNode grayId nodeNum) (contentPiece content index)).2.tree
        (createContent grayId content (left + 1) zk nodeNum index).2.tree ∧
      ((zkCreate zk (contentNode grayId nodeNum) (contentPiece content index)).1 ≠ .ok →
        createContent grayId content (left + 1) zk nodeNum index = (.errGraySetContent,
          (zkCreate zk (contentNode grayId nodeNum) (contentPiece content index)).2)) := by
  intro left
  induction left with
  | zero =>
    intro nodeNum index zk
    rw [createContent_succ]
    split
    · next hok =>
      refine ⟨?_, fun hno => absurd hok hno⟩
      dsimp only [createContent]
      split <;> exact fun q _ => rfl
    · exact ⟨fun q _ => rfl, fun _ => rfl⟩
  | succ left ih =>
    intro nodeNum index zk
    rw [createContent_succ]
    split
    · next hok =>
      refine ⟨?_, fun hno => absurd hok hno⟩
      split
      · exact (keeps_zkCreate _ _ _).trans (ih _ _ _).1
      · exact fun q _ => rfl
    · exact ⟨fun q _ => rfl, fun _ => rfl⟩

/-- What is written stays, and without the first node nothing else is written. -/
theorem grayWrite_first (zk : Zk) (content : Bytes) (clients : List Bytes) (grayId : Bytes) :
    Keeps (zkCreate zk (contentNode grayId 0) (contentPiece content 0)).2.tree
        (grayWrite zk content clients grayId).2.tree ∧
      ((zkCreate zk (contentNode grayId 0) (contentPiece content 0)).1 ≠ .ok →
        grayWrite zk content clients grayId =
          (.errGraySetContent, (zkCreate zk (contentNode grayId 0) (contentPiece content 0)).2)) := by
  obtain ⟨left, hleft⟩ : ∃ left, 2 ^ 32 = left + 1 := ⟨2 ^ 32 - 1, by norm_num⟩
  obtain ⟨hkeep, hstop⟩ := createContent_first grayId content left 0 0 zk
  rw [grayWrite, hleft]
  constructor
  · refine hkeep.trans ?_
    split
    · next zk₁ hc =>
      rw [hc]
      have h1 := keeps_createClients grayId clients zk₁
      split
      · next zk₂ hcl =>
        rw [hcl] at h1
        have h2 := keeps_zkCreate zk₂ (backlinkNode grayId) (backlinkContent clients)
        split <;> next hz => exact h1.trans (by rw [hz] at h2; exact h2)
      · exact h1
    · exact fun q _ => rfl
  · intro hno
    rw [hstop hno]

end

end QConf.Manager
