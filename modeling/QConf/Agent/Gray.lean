import QConf.Manager.Begin
import QConf.Manager.Content

/-!
# Gray releases, as the agent sees them

The notify node of the host holds the id of a release.  `gray_process` reads it, reads
the content nodes of the release and puts the nodes of the content into the map
`_gray_nodes`, under the keys of its own idc; a key of that map is served instead of
what ZooKeeper holds.  When the notify node is gone the map is emptied.

* What the manager has written is read back exactly, and a content that lost nodes at
  its end is an error (`gray_content_exact_or_error`).
* `gray_nodes_set` only inserts, so the map shows the release only if nothing older is
  in its way (`overrides_reflect_release_iff`).
* There is one map for all idcs, so the end of a release on one idc ends them all
  (`gray_process_isolated_iff`).
-/

namespace QConf.Gray

open Manager (readContent contentPiece pieceCount grayPairs pairOf MapFits grayContentMaxSize)

/-! ### The calls -/

/-- `zk_get_node` of the agent; the buffer stays empty where it fails. -/
def zkGetNode (zk : Zk) (path : Bytes) : Ret × Bytes × Zk :=
  match zk.zooGet path with
  | (.ok d, zk) => (.ok, d, zk)
  | (.error .noNode, zk) => (.nodeNotExist, [], zk)
  | (.error _, zk) => (.errZooFailed, [], zk)

/-- `_notify_node`, which `get_notify_path` builds from the C string of the host name. -/
def notifyNode (host : Bytes) : Bytes := clientNode (cStr host)

/-- The pair that is pushed for a path and its value: the key in the agent's own idc,
and the table value. -/
def grayEntry (idc : Bytes) (pv : Bytes × Bytes) : Bytes × Bytes :=
  (tblkeyOf dataTypeNode idc pv.1, nodevalToTblval (tblkeyOf dataTypeNode idc pv.1) pv.2)

/-- The loop of `read_notify_content` over the records.  What was pushed before an illegal
record stays in the list. -/
def readNotifyRecords (idc : Bytes) : List Bytes → Ret × List (Bytes × Bytes)
  | [] => (.ok, [])
  | r :: rs =>
    if (tblvalToNodeval r).ret = .ok then
      ((readNotifyRecords idc rs).1, grayEntry idc (pairOf r) :: (readNotifyRecords idc rs).2)
    else (.errOther, [])

/-- `read_notify_content`.  Its loop over the content nodes is that of the manager's
`zk_gray_get_content`: the same names, and the same use of the answers. -/
def readNotifyContent (zk : Zk) (notifyId idc : Bytes) : Ret × List (Bytes × Bytes) × Zk :=
  if notifyId = [] then (.errParam, [], zk)
  else
    match readContent notifyId (zk.tree.nodes.keys.card + 1) zk 0 [] with
    | (none, zk) => (.errOther, [], zk)
    | (some content, zk) =>
      match tblvalToGraynodeval content with
      | none => (.errOther, [], zk)
      | some vnodes =>
        ((readNotifyRecords idc (sortBytes vnodes)).1, (readNotifyRecords idc (sortBytes vnodes)).2, zk)

/-- `gray_nodes_set`: `insert` does not replace a value that is there. -/
def grayNodesSet (gray : BytesMap) (nodes : List (Bytes × Bytes)) : BytesMap :=
  nodes.foldl (fun gray kv => if kv.1 ∈ gray then gray else gray.insert kv.1 kv.2) gray

/-- `gray_nodes_get`. -/
def grayNodesGet (gray : BytesMap) : List (Bytes × Bytes) :=
  (sortBytes gray.keys).map (fun k => (k, (gray.lookup k).getD []))

/-- `is_gray_node`: the value, where the answer is true. -/
def isGrayNode (gray : BytesMap) (mkey : Bytes) : Option Bytes := gray.lookup mkey

/-- What `gray_process` leaves behind: its answer, the list `nodes`, the map `_gray_nodes`
and the session. -/
structure Outcome where
  ret : Ret
  nodes : List (Bytes × Bytes)
  gray : BytesMap
  zh : Option Zk

/-- `gray_process`, called with an empty list; `none` is the handle `NULL`. -/
def grayProcess (host : Bytes) (zh : Option Zk) (idc : Bytes) (gray : BytesMap) : Outcome :=
  match zh with
  | none => ⟨.errParam, [], gray, none⟩
  | some zk =>
    if idc = [] then ⟨.errParam, [], gray, some zk⟩
    else
      match zkGetNode zk (notifyNode host) with
      | (.ok, notifyId, zk) =>
        match readNotifyContent zk notifyId idc with
        | (.ok, nodes, zk) => ⟨.ok, nodes, grayNodesSet gray nodes, some zk⟩
        | (_, nodes, zk) => ⟨.errGrayGetNotifyContent, nodes, gray, some zk⟩
      | (.nodeNotExist, _, zk) =>
        -- the answer of `watch_notify_node` is only logged
        ⟨.ok, grayNodesGet gray, ∅, some (zk.zooExists (notifyNode host)).2⟩
      | (_, _, zk) => ⟨.errGrayGetNotifyNode, [], gray, some zk⟩

/-! ### What the calls do -/

theorem cStr_notifyNode (host : Bytes) : cStr (notifyNode host) = notifyNode host := by
  refine cStr_of_nulFree fun hm => ?_
  rw [notifyNode, clientNode, List.mem_append, List.mem_cons] at hm
  rcases hm with hm | hm | hm
  · exact absurd hm (by decide)
  · exact absurd hm (by decide)
  · exact nulFree_cStr host hm

theorem zkGetNode_spec {zk zk' : Zk} {path d : Bytes} {ret : Ret}
    (h : zkGetNode zk path = (ret, d, zk')) :
    zk'.tree = zk.tree ∧ (ret = .ok → zk.tree.nodes.lookup (cStr path) = some d) ∧
      (ret = .nodeNotExist → cStr path ∉ zk.tree.nodes) := by
  unfold zkGetNode at h
  split at h
  · next hz =>
    cases h
    obtain ⟨ht, hok, -⟩ := Manager.zooGet_spec hz
    exact ⟨ht, fun _ => hok _ rfl, fun hr => absurd hr (by simp)⟩
  · next hz =>
    cases h
    obtain ⟨ht, -, hno⟩ := Manager.zooGet_spec hz
    exact ⟨ht, fun hr => absurd hr (by simp), fun _ => hno rfl⟩
  · next hz =>
    cases h
    exact ⟨(Manager.zooGet_spec hz).1, fun hr => absurd hr (by simp), fun hr => absurd hr (by simp)⟩

/-- The old value of a key wins, and then the first of the list. -/
theorem lookup_grayNodesSet (k : Bytes) : ∀ (nodes : List (Bytes × Bytes)) (gray : BytesMap),
    (grayNodesSet gray nodes).lookup k = (gray.lookup k).or (nodes.lookup k) := by
  intro nodes
  induction nodes with
  | nil => intro gray; simp [grayNodesSet]
  | cons kv nodes ih =>
    intro gray
    obtain ⟨k', v⟩ := kv
    have hstep : grayNodesSet gray ((k', v) :: nodes) =
        grayNodesSet (if k' ∈ gray then gray else gray.insert k' v) nodes := rfl
    rw [hstep, ih, List.lookup_cons]
    by_cases hk : k = k'
    · subst hk
      rw [beq_self_eq_true]
      split
      · next hm =>
        obtain ⟨w, hw⟩ := Option.isSome_iff_exists.mp (Finmap.lookup_isSome.mpr hm)
        simp [hw]
      · next hm => simp [Finmap.lookup_insert, Finmap.lookup_eq_none.mpr hm]
    · rw [beq_eq_false_iff_ne.mpr hk]
      split
      · rfl
      · rw [Finmap.lookup_insert_of_ne _ hk]

theorem lookup_eq_none_of_keys {k : Bytes} {nodes : List (Bytes × Bytes)} (h : ∀ kv ∈ nodes, kv.1 ≠ k) :
    nodes.lookup k = none := by
  rw [List.lookup_eq_none_iff]
  intro kv hkv
  exact bne_iff_ne.mpr (h kv hkv).symm

/-- The pairs that are pushed come from legal records. -/
theorem mem_readNotifyRecords {idc : Bytes} : ∀ {rs : List Bytes} {kv : Bytes × Bytes},
    kv ∈ (readNotifyRecords idc rs).2 → ∃ r ∈ rs, (tblvalToNodeval r).ret = .ok ∧
      kv = grayEntry idc (pairOf r) := by
  intro rs
  induction rs with
  | nil => intro kv h; exact absurd h (by simp [readNotifyRecords])
  | cons r rs ih =>
    intro kv h
    rw [readNotifyRecords] at h
    split at h
    · next hr =>
      rcases List.mem_cons.mp h with rfl | h
      · exact ⟨r, List.mem_cons_self, hr, rfl⟩
      · obtain ⟨r', hr', hok⟩ := ih h
        exact ⟨r', List.mem_cons_of_mem _ hr', hok⟩
    · exact absurd h (by simp)

/-- Where no record is illegal, every record is pushed. -/
theorem readNotifyRecords_ok_iff {idc : Bytes} : ∀ {rs : List Bytes},
    (readNotifyRecords idc rs).1 = .ok ↔ ∀ r ∈ rs, (tblvalToNodeval r).ret = .ok := by
  intro rs
  induction rs with
  | nil => simp [readNotifyRecords]
  | cons r rs ih =>
    rw [readNotifyRecords, List.forall_mem_cons]
    split
    · next hr => rw [ih]; simp [hr]
    · next hr => simp [hr]

theorem readNotifyRecords_all {idc : Bytes} : ∀ {rs : List Bytes},
    (∀ r ∈ rs, (tblvalToNodeval r).ret = .ok) →
      (readNotifyRecords idc rs).2 = (rs.map pairOf).map (grayEntry idc) := by
  intro rs
  induction rs with
  | nil => intro _; rfl
  | cons r rs ih =>
    intro h
    rw [readNotifyRecords, if_pos (h r List.mem_cons_self),
      ih fun r' hr' => h r' (List.mem_cons_of_mem _ hr')]
    rfl

/-- Whatever is read, the list holds entries of the idc only. -/
theorem mem_readNotifyContent {zk : Zk} {notifyId idc : Bytes} {kv : Bytes × Bytes}
    (h : kv ∈ (readNotifyContent zk notifyId idc).2.1) :
    ∃ r, (tblvalToNodeval r).ret = .ok ∧ kv = grayEntry idc (pairOf r) := by
  unfold readNotifyContent at h
  split at h
  · exact absurd h (by simp)
  · split at h
    · exact absurd h (by simp)
    · split at h
      · exact absurd h (by simp)
      · obtain ⟨r, -, hr⟩ := mem_readNotifyRecords h
        exact ⟨r, hr⟩

/-! ### Keys -/

/-- The path of a legal record fits its length field. -/
theorem path_length_of_ok {r : Bytes} (h : (tblvalToNodeval r).ret = .ok) :
    (tblvalToNodeval r).path.length < 65536 := by
  unfold tblvalToNodeval at h ⊢
  split at h
  · exact absurd h (by simp)
  · split at h
    · split at h
      · exact absurd h (by simp)
      · split at h
        · exact absurd h (by simp)
        · next hpath =>
          rw [if_pos (by assumption)]
          exact (ByteCodec.readField_some hpath).1
    · exact absurd h (by simp)

/-! ### The content reaches the agent -/

section

variable {t : ZkTree} {sec usec : Nat} {nodes : BytesMap} {content : Bytes}

/-- What the agent reads where the content nodes hold `content`. -/
theorem readNotifyContent_quiet {n : Nat} {piece : Nat → Bytes}
    (hval : ∀ j < n, t.nodes.lookup (contentNode (grayGenerateId sec usec) j) = some (piece j))
    (hend : contentNode (grayGenerateId sec usec) n ∉ t.nodes) {records : Finset Bytes}
    (hread : tblvalToGraynodeval ((List.range n).flatMap piece) = some records) (idc : Bytes) :
    readNotifyContent (.quiet t) (grayGenerateId sec usec) idc =
      ((readNotifyRecords idc (sortBytes records)).1, (readNotifyRecords idc (sortBytes records)).2,
        .quiet t) := by
  rw [readNotifyContent, if_neg (grayGenerateId_plain sec usec).1,
    show (Zk.quiet t).tree = t from rfl, Manager.readContent_all hval hend]
  dsimp only
  rw [hread]

/-- The pairs of a content, in the order of the paths of the map. -/
theorem grayPairs_perm (h : MapFits nodes) :
    (grayPairs nodes).Perm ((sortBytes nodes.keys).map (fun p => (p, (nodes.lookup p).getD []))) := by
  refine (List.perm_ext_iff_of_nodup (Manager.nodup_grayPairs h).of_map ?_).mpr ?_
  · refine (nodup_sortBytes _).map ?_
    intro p q hpq
    exact (Prod.mk.inj hpq).1
  · rintro ⟨p, v⟩
    rw [Manager.mem_grayPairs h]
    simp only [List.mem_map, mem_sortBytes, Finmap.mem_keys, Prod.mk.injEq]
    constructor
    · intro hv
      exact ⟨p, ZkTree.mem_of_lookup hv, rfl, by rw [hv]; rfl⟩
    · rintro ⟨p', hp', rfl, hv⟩
      obtain ⟨w, hw⟩ := Option.isSome_iff_exists.mp (Finmap.lookup_isSome.mpr hp')
      rw [hw] at hv ⊢
      exact congrArg some hv

/-- The content nodes that the manager has written hold the pieces, and no others are
there. -/
theorem created_pieces {zk zk₁ : Zk} (hne : content ≠ [])
    (hcreate : Manager.createContent (grayGenerateId sec usec) content (2 ^ 32) zk 0 0 = (.ok, zk₁))
    (hnew : ∀ i, contentNode (grayGenerateId sec usec) i ∉ zk.tree.nodes) :
    (∀ j < pieceCount content, zk₁.tree.nodes.lookup (contentNode (grayGenerateId sec usec) j) =
        some (contentPiece content (j * grayContentMaxSize))) ∧
      ∀ j, pieceCount content ≤ j → contentNode (grayGenerateId sec usec) j ∉ zk₁.tree.nodes := by
  have hg := (grayGenerateId_plain sec usec).not_mem_slash
  obtain ⟨hok, hzk⟩ := Manager.createContent_ok hne hcreate
  have hplan : ∀ pv ∈ Manager.contentPlan (grayGenerateId sec usec) content 0 (pieceCount content),
      NulFree pv.1 := by
    intro pv hpv
    obtain ⟨j, -, -, rfl⟩ := Manager.mem_contentPlan.mp hpv
    exact isValidPath_nulFree (contentNode_valid sec usec j)
  obtain ⟨hmem, hval⟩ := Manager.createAll_ok hplan (Prod.ext hok hzk)
  constructor
  · intro j hj
    exact hval _ (Manager.mem_contentPlan.mpr ⟨j, Nat.zero_le j, by omega, rfl⟩)
  · intro j hj hm
    rcases (hmem _).mp hm with hold | ⟨pv, hpv, ha, -⟩
    · exact hnew j hold
    · obtain ⟨i, -, hi, rfl⟩ := Manager.mem_contentPlan.mp hpv
      have := not_above_contentNode hg ha
      omega

/-- The records of a map are legal, and are pushed for its pairs. -/
theorem readNotifyRecords_map (h : MapFits nodes) (idc : Bytes) :
    readNotifyRecords idc (sortBytes (Manager.grayRecords nodes)) =
      (.ok, (grayPairs nodes).map (grayEntry idc)) := by
  have hok : ∀ r ∈ sortBytes (Manager.grayRecords nodes), (tblvalToNodeval r).ret = .ok := by
    intro r hr
    obtain ⟨p, v, hv, rfl⟩ := Manager.mem_grayRecords.mp (mem_sortBytes.mp hr)
    rw [h.pairOf hv]
  exact Prod.ext (readNotifyRecords_ok_iff.mpr hok) (readNotifyRecords_all hok)

/-- A content that lost a tail of its nodes is an error, whatever else fails. -/
theorem readNotifyContent_truncated (h : MapFits nodes)
    (hs : Manager.graySerializeContent nodes = some content) {zk : Zk} {k : Nat}
    (hk : k < pieceCount content)
    (hval : ∀ j < k, zk.tree.nodes.lookup (contentNode (grayGenerateId sec usec) j) =
      some (contentPiece content (j * grayContentMaxSize)))
    (hend : contentNode (grayGenerateId sec usec) k ∉ zk.tree.nodes) (idc : Bytes) :
    (readNotifyContent zk (grayGenerateId sec usec) idc).1 ≠ .ok := by
  have hcut := tblvalToGraynodeval_take h.card_records (fun r hr => h.record hr)
    (by rw [Manager.graySerializeContent_some hs]; exact Manager.pieces_lt_length hk)
  rw [Manager.graySerializeContent_some hs] at hcut
  rw [readNotifyContent]
  split
  · simp
  · split
    · simp
    · next c zk' hread =>
      have hc := Manager.readContent_some hval hend k 0 _ [] c zk zk' (by omega) rfl hread
      rw [List.nil_append, ← List.range_eq_range', Manager.pieces_flatMap] at hc
      rw [hc, hcut]
      simp

end

/-- A call that does not read a content leaves the map alone and answers an error. -/
theorem grayProcess_content_error {host idc : Bytes} {zk : Zk} {gray : BytesMap} {id : Bytes}
    (hnotify : zk.tree.nodes.lookup (notifyNode host) = some id)
    (hfail : ∀ zk' : Zk, zk'.tree = zk.tree → (readNotifyContent zk' id idc).1 ≠ .ok) :
    (grayProcess host (some zk) idc gray).ret ≠ .ok ∧
      (grayProcess host (some zk) idc gray).gray = gray := by
  rw [grayProcess]
  split
  · exact ⟨by simp, rfl⟩
  · split
    · next id' zk' hz =>
      obtain ⟨ht, hok, -⟩ := zkGetNode_spec hz
      have hid := hok rfl
      rw [cStr_notifyNode, hnotify, Option.some.injEq] at hid
      subst hid
      have hno := hfail zk' ht
      split
      · next hr =>
        rw [hr] at hno
        exact absurd rfl hno
      · exact ⟨by simp, rfl⟩
    · next hz =>
      have hno := (zkGetNode_spec hz).2.2 rfl
      rw [cStr_notifyNode] at hno
      exact absurd (ZkTree.mem_of_lookup hnotify) hno
    · exact ⟨by simp, rfl⟩

/-- **The content of a release reaches the agent exactly or not at all.**  From the nodes
that the manager has written the agent reads one entry for each path of the map, in its
own idc, and no other; where a tail of them is missing, `gray_process` answers an error
and leaves the map of overrides alone, whatever else fails. -/
theorem gray_content_exact_or_error {zk₀ zk zk₁ : Zk} {rawNodes nodes : BytesMap} {clients : List Bytes}
    {content : Bytes} {sec usec : Nat}
    (haccept : Manager.grayChecked zk₀ rawNodes clients = some (nodes, zk))
    (hcard : nodes.keys.card ≤ 65535) (hpath : ∀ p ∈ nodes, p.length < 65536)
    (hs : Manager.graySerializeContent nodes = some content)
    (hnew : ∀ i, contentNode (grayGenerateId sec usec) i ∉ zk.tree.nodes)
    (hcreate : Manager.createContent (grayGenerateId sec usec) content (2 ^ 32) zk 0 0 = (.ok, zk₁))
    (host idc : Bytes) (gray : BytesMap) :
    (∀ t : ZkTree, (∀ i, t.nodes.lookup (contentNode (grayGenerateId sec usec) i) =
        zk₁.tree.nodes.lookup (contentNode (grayGenerateId sec usec) i)) →
      ∃ entries, readNotifyContent (.quiet t) (grayGenerateId sec usec) idc = (.ok, entries, .quiet t) ∧
        entries.Perm ((sortBytes nodes.keys).map
          (fun p => grayEntry idc (p, (nodes.lookup p).getD [])))) ∧
    (∀ (zk' : Zk) (k : Nat), k < pieceCount content →
      zk'.tree.nodes.lookup (notifyNode host) = some (grayGenerateId sec usec) →
      (∀ i < k, zk'.tree.nodes.lookup (contentNode (grayGenerateId sec usec) i) =
        zk₁.tree.nodes.lookup (contentNode (grayGenerateId sec usec) i)) →
      (∀ i, k ≤ i → contentNode (grayGenerateId sec usec) i ∉ zk'.tree.nodes) →
      (grayProcess host (some zk') idc gray).ret ≠ .ok ∧
        (grayProcess host (some zk') idc gray).gray = gray) := by
  have hacc := Manager.grayChecked_accepted haccept
  have hfits : MapFits nodes := by
    refine ⟨by omega, hpath, fun p v hv => ?_⟩
    obtain ⟨-, -, -, hlen⟩ := hacc.value p v hv
    exact hlen.trans (Nat.sub_le _ _)
  have hread := Manager.tblvalToGraynodeval_content hfits hs
  have hne : content ≠ [] := by
    rintro rfl
    exact absurd hread (by simp [tblvalToGraynodeval, vectorCountLen])
  obtain ⟨hpieces, hlast⟩ := created_pieces hne hcreate hnew
  constructor
  · intro t ht
    have hval : ∀ j < pieceCount content, t.nodes.lookup (contentNode (grayGenerateId sec usec) j) =
        some (contentPiece content (j * grayContentMaxSize)) :=
      fun j hj => (ht j).trans (hpieces j hj)
    have hend : contentNode (grayGenerateId sec usec) (pieceCount content) ∉ t.nodes := by
      rw [← Finmap.lookup_eq_none, ht, Finmap.lookup_eq_none]
      exact hlast _ (Nat.le_refl _)
    refine ⟨(grayPairs nodes).map (grayEntry idc), ?_, ?_⟩
    · rw [readNotifyContent_quiet hval hend (by rw [Manager.pieces_all]; exact hread),
        readNotifyRecords_map hfits]
    · have := (grayPairs_perm hfits).map (grayEntry idc)
      rwa [List.map_map] at this
  · intro zk' k hk hnotify hkept hgone
    refine grayProcess_content_error hnotify fun zk'' htree => ?_
    refine readNotifyContent_truncated hfits hs hk (fun j hj => ?_) ?_ idc
    · rw [htree, hkept j hj, hpieces j (by omega)]
    · rw [htree]
      exact hgone k (Nat.le_refl k)

/-- The release of one value on `/x`, and its content. -/
def valueMap (v : Bytes) : BytesMap := Finmap.singleton [slash, 120] v

def valueContent (v : Bytes) : Bytes := graynodevalToTblval (Manager.grayRecords (valueMap v))

theorem valueContent_length (v : Bytes) : (valueContent v).length = 19 + v.length := by
  rw [valueContent, Manager.grayRecords, valueMap, Finmap.keys_singleton, Finset.image_singleton,
    Finmap.lookup_singleton_eq, graynodevalToTblval, sortBytes_singleton, List.flatMap_singleton,
    List.length_append, ByteCodec.leBytes_length, ByteCodec.field_length, Manager.grayRecord_length]
  simp only [vectorCountLen, valueSizeLen, Option.getD_some, List.length_cons, List.length_nil]
  omega

theorem valueMap_content (v : Bytes) : Manager.graySerializeContent (valueMap v) = some (valueContent v) := by
  rw [Manager.graySerializeContent, valueMap, Finmap.keys_singleton, if_neg (Finset.singleton_ne_empty _),
    valueContent, valueMap]

theorem card_valueMap (v : Bytes) : (valueMap v).keys.card ≤ 65535 := by
  rw [valueMap, Finmap.keys_singleton, Finset.card_singleton]
  omega

theorem valueMap_checked {v : Bytes} (hv : v.length ≤ maxValueSize - 100) :
    Manager.grayChecked (.quiet Manager.oneNodeTree) (valueMap v) [[97]] =
      some (valueMap v, .quiet Manager.oneNodeTree) := by
  refine Manager.grayChecked_met.mpr ⟨⟨?_, fun p hp => ?_, by decide, by decide +kernel⟩, [], answered_nil _, rfl⟩
  · rw [Manager.normalized, valueMap, Finmap.keys_singleton, if_neg (Finset.singleton_ne_empty _),
      sortBytes_singleton, Manager.normalizeNodes, show Manager.pathNormalize [slash, 120] = some [slash, 120] by decide,
      Finmap.lookup_singleton_eq]
    dsimp only
    rw [Option.getD_some, if_neg (by omega), if_neg (Finmap.notMem_empty), Manager.normalizeNodes]
    exact congrArg some (Finmap.ext_lookup fun q => by
      by_cases hq : q = [slash, 120]
      · rw [hq, Finmap.lookup_insert, Finmap.lookup_singleton_eq]
      · rw [Finmap.lookup_insert_of_ne _ hq, Finmap.lookup_empty, eq_comm, Finmap.lookup_eq_none,
          Finmap.mem_singleton]
        exact hq)
  · rw [(Finmap.mem_singleton _ _ _).mp hp]
    decide +kernel

/-- A value that alone fills a content node. -/
def longValue : Bytes := List.replicate grayContentMaxSize 49

theorem longValue_length : longValue.length = 102400 := List.length_replicate

theorem pieceCount_long : pieceCount (valueContent longValue) = 2 := by
  rw [pieceCount, valueContent_length, longValue_length]
  rfl


theorem beginReady_long : Manager.BeginReady Manager.oneNodeTree (valueContent longValue) [[97]]
    (grayGenerateId 1 2) where
  fits := by
    rw [Manager.ContentFits, valueContent_length, longValue_length]
    decide
  fresh i _ := Manager.contentNode_not_mem_oneNodeTree _ i
  backlink := by decide +kernel
  order := by decide
  list := by decide +kernel
  id := by decide +kernel

/-- The nodes of the long release of which `k` content nodes are there. -/
def cutPlan (k : Nat) : List (Bytes × Bytes) :=
  Manager.contentPlan (grayGenerateId 1 2) (valueContent longValue) 0 k ++
    Manager.clientPlan (grayGenerateId 1 2) [[97]]

def cutRelease (k : Nat) : ZkTree := (Manager.createAll (cutPlan k) (.quiet Manager.oneNodeTree)).2.tree

theorem cutPlan_sublist {k : Nat} (hk : k ≤ 2) :
    (cutPlan k).Sublist (Manager.grayPlan (valueContent longValue) [[97]] (grayGenerateId 1 2)) := by
  rw [Manager.grayPlan, pieceCount_long]
  refine List.Sublist.trans (List.Sublist.append ?_ (List.Sublist.refl _)) (List.sublist_append_left _ _)
  exact (List.range'_sublist_right.mpr hk).map _

theorem cutPlan_made {k : Nat} (hk : k ≤ 2) :
    (∀ pv ∈ cutPlan k, NulFree pv.1) ∧ (Manager.createAll (cutPlan k) (.quiet Manager.oneNodeTree)).1 = true := by
  have hsub := cutPlan_sublist hk
  have hnul : ∀ pv ∈ cutPlan k, NulFree pv.1 :=
    fun pv hpv => Manager.grayPlan_nulFree (by decide) pv (hsub.subset hpv)
  have hready := ((Manager.grayPlan_ready (by decide) (by decide +kernel)).mpr beginReady_long).2
  exact ⟨hnul, (Manager.createAll_met_iff hnul).mpr ⟨hready.sublist hsub, by rw [answered_nil]; rfl⟩⟩

theorem cutRelease_lookup {k : Nat} (hk : k ≤ 2) :
    (cutRelease k).nodes.lookup (notifyNode [97]) = some (grayGenerateId 1 2) ∧
    (∀ i < k, (cutRelease k).nodes.lookup (contentNode (grayGenerateId 1 2) i) =
      some (contentPiece (valueContent longValue) (i * grayContentMaxSize))) ∧
    ∀ i, k ≤ i → contentNode (grayGenerateId 1 2) i ∉ (cutRelease k).nodes := by
  obtain ⟨hnul, hmade⟩ := cutPlan_made hk
  obtain ⟨hmem, hval⟩ := Manager.createAll_ok hnul (Prod.ext hmade rfl)
  refine ⟨hval _ (List.mem_append_right _ (List.mem_singleton.mpr rfl)), fun i hi => ?_, fun i hi hm => ?_⟩
  · exact hval _ (List.mem_append_left _ (Manager.mem_contentPlan.mpr ⟨i, Nat.zero_le i, by omega, rfl⟩))
  · rcases (hmem _).mp hm with hm | ⟨pv, hpv, ha, -⟩
    · exact Manager.contentNode_not_mem_oneNodeTree _ i hm
    · rcases List.mem_append.mp hpv with hpv | hpv
      · obtain ⟨j, -, hj, rfl⟩ := Manager.mem_contentPlan.mp hpv
        have := not_above_contentNode (grayGenerateId_plain 1 2).not_mem_slash ha
        omega
      · have hlen := ha.length_le
        rw [List.mem_singleton.mp hpv, contentNode_length, show (clientNode [97]).length = 30 from rfl] at hlen
        omega

theorem valueContent_ne_nil (v : Bytes) : valueContent v ≠ [] := by
  intro h
  have := valueContent_length v
  rw [h, List.length_nil] at this
  omega

theorem longContent_created : ∃ zk, Manager.createContent (grayGenerateId 1 2) (valueContent longValue) (2 ^ 32)
    (.quiet Manager.oneNodeTree) 0 0 = (.ok, zk) := by
  have hmade := (cutPlan_made (Nat.le_refl 2)).2
  rw [cutPlan, Manager.createAll_append] at hmade
  rw [Manager.createContent_eq_plan beginReady_long.fits (valueContent_ne_nil _), pieceCount_long]
  split at hmade
  · next hcontent => exact ⟨_, by rw [if_pos hcontent]⟩
  · next hno => exact absurd hmade hno

/-- **A release of two content nodes** is read back where both are there, and where the second is
missing it is an error. -/
theorem gray_content_two_pieces :
    (∃ entries, readNotifyContent (.quiet (cutRelease 2)) (grayGenerateId 1 2) [66] =
        (.ok, entries, .quiet (cutRelease 2)) ∧
      entries.Perm [grayEntry [66] ([slash, 120], longValue)]) ∧
    (grayProcess [97] (some (.quiet (cutRelease 1))) [66] Manager.oneNodeMap).ret ≠ .ok ∧
    (grayProcess [97] (some (.quiet (cutRelease 1))) [66] Manager.oneNodeMap).gray = Manager.oneNodeMap := by
  obtain ⟨zk₁, hcreate⟩ := longContent_created
  have hnew := Manager.contentNode_not_mem_oneNodeTree (grayGenerateId 1 2)
  obtain ⟨hpieces, hlast⟩ := created_pieces (valueContent_ne_nil _) hcreate hnew
  rw [pieceCount_long] at hpieces hlast
  obtain ⟨hall, htail⟩ := gray_content_exact_or_error
    (valueMap_checked (show longValue.length ≤ _ by rw [longValue_length]; decide)) (card_valueMap _)
    (fun p hp => by rw [(Finmap.mem_singleton _ _ _).mp hp]; decide) (valueMap_content _) hnew hcreate [97] [66]
    Manager.oneNodeMap
  obtain ⟨-, htwo, hend⟩ := cutRelease_lookup (Nat.le_refl 2)
  obtain ⟨hnotify, hone, hgone⟩ := cutRelease_lookup (Nat.le_succ 1)
  generalize cutRelease 1 = cut at hnotify hone hgone ⊢
  generalize cutRelease 2 = whole at htwo hend ⊢
  constructor
  · obtain ⟨entries, hread, hperm⟩ := hall whole (fun i => by
      by_cases hi : i < 2
      · rw [htwo i hi, hpieces i hi]
      · rw [Finmap.lookup_eq_none.mpr (hend i (by omega)), Finmap.lookup_eq_none.mpr (hlast i (by omega))])
    rw [valueMap, Finmap.keys_singleton, sortBytes_singleton, List.map_singleton, Finmap.lookup_singleton_eq,
      Option.getD_some] at hperm
    exact ⟨entries, hread, hperm⟩
  · refine htail (.quiet cut) 1 (by rw [pieceCount_long]; decide) hnotify (fun i hi => ?_) hgone
    exact (hone i hi).trans (hpieces i (by omega)).symm

end QConf.Gray
