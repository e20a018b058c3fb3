import QConf.Agent.Gray
import QConf.Manager.Release

/-!
# What the map of overrides shows

A call of `gray_process` that reads a release puts its entries into the map with
`insert`, which replaces nothing, and takes nothing out.  So the map shows the release
exactly if what it held for the idc before belongs to the release already
(`overrides_reflect_release_iff`); a release that follows another one without a call in
between is not shown.  Over a whole history of calls the map shows for each path the first
release since the last end that has it (`History.showsFirst`).

The map is one for all idcs.  A call that finds the notify node gone hands out all its
keys and empties it, so it leaves the other idcs alone only if there is nothing of
theirs in it (`gray_process_isolated_iff`).
-/

namespace QConf.Gray

open Manager (pairOf contentPiece pieceCount MapFits grayContentMaxSize)

/-! ### One release -/

/-- The notify node of the host holds the id of a release whose content is `nodes`: the
content nodes up to the first that is missing give the records of its pairs. -/
structure PointsAt (t : ZkTree) (host : Bytes) (sec usec : Nat) (nodes : BytesMap) : Prop where
  notify : t.nodes.lookup (notifyNode host) = some (grayGenerateId sec usec)
  content : ∃ (n : Nat) (piece : Nat → Bytes) (records : Finset Bytes),
    (∀ j < n, t.nodes.lookup (contentNode (grayGenerateId sec usec) j) = some (piece j)) ∧
    contentNode (grayGenerateId sec usec) n ∉ t.nodes ∧
    tblvalToGraynodeval ((List.range n).flatMap piece) = some records ∧
    ∀ p v, nodes.lookup p = some v ↔ ∃ r ∈ records, pairOf r = (p, v)

/-- A successful begin makes the notify node of each of its clients point at its map. -/
theorem pointsAt_begun {t : ZkTree} {host : Bytes} {sec usec : Nat} {nodes : BytesMap} {content : Bytes}
    {clients : List Bytes} (hb : Manager.Begun t content clients (grayGenerateId sec usec))
    (hfits : MapFits nodes) (hs : Manager.graySerializeContent nodes = some content)
    (hhost : cStr host ∈ clients) : PointsAt t host sec usec nodes where
  notify := hb.client _ hhost
  content := by
    refine ⟨_, _, Manager.grayRecords nodes, hb.piece, hb.last _ (Nat.le_refl _), ?_, fun p v => ?_⟩
    · rw [Manager.pieces_all]
      exact Manager.tblvalToGraynodeval_content hfits hs
    · rw [← Manager.mem_grayPairs hfits]
      simp only [Manager.grayPairs, List.mem_map, mem_sortBytes]

/-- The map shows the release: every path with its value, and no other key of the idc. -/
structure Reflects (gray : BytesMap) (idc : Bytes) (nodes : BytesMap) : Prop where
  shown : ∀ p v, nodes.lookup p = some v → isGrayNode gray (tblkeyOf dataTypeNode idc p) =
    some (nodevalToTblval (tblkeyOf dataTypeNode idc p) v)
  hidden : ∀ ty, HasPath ty → ∀ p, p ∉ nodes → isGrayNode gray (tblkeyOf ty idc p) = none

/-- What the map holds for the idc belongs to the release. -/
structure Compatible (gray : BytesMap) (idc : Bytes) (nodes : BytesMap) : Prop where
  same : ∀ p v w, nodes.lookup p = some v → gray.lookup (tblkeyOf dataTypeNode idc p) = some w →
    w = nodevalToTblval (tblkeyOf dataTypeNode idc p) v
  own : ∀ ty, HasPath ty → ∀ p, p ∉ nodes → gray.lookup (tblkeyOf ty idc p) = none

section

variable {nodes : BytesMap} {pairs : List (Bytes × Bytes)} {idc : Bytes}

theorem lookup_entries (hpairs : ∀ p v, nodes.lookup p = some v ↔ (p, v) ∈ pairs) {p v : Bytes}
    (hv : nodes.lookup p = some v) :
    (pairs.map (grayEntry idc)).lookup (tblkeyOf dataTypeNode idc p) =
      some (nodevalToTblval (tblkeyOf dataTypeNode idc p) v) := by
  have hmem : grayEntry idc (p, v) ∈ pairs.map (grayEntry idc) :=
    List.mem_map_of_mem ((hpairs p v).mp hv)
  cases hl : (pairs.map (grayEntry idc)).lookup (tblkeyOf dataTypeNode idc p) with
  | none =>
    have := List.lookup_eq_none_iff.mp hl _ hmem
    simp [grayEntry] at this
  | some w =>
    -- an entry for the same key has the same path, and so the same value
    obtain ⟨l₁, l₂, heq, -⟩ := List.lookup_eq_some_iff.mp hl
    have hin : (tblkeyOf dataTypeNode idc p, w) ∈ pairs.map (grayEntry idc) := by
      rw [heq]
      simp
    obtain ⟨⟨q, u⟩, hq, he⟩ := List.mem_map.mp hin
    obtain ⟨hkey, hw⟩ := Prod.mk.inj he
    obtain ⟨-, hqp⟩ := tblkeyOf_path_inj (Or.inl rfl) (Or.inl rfl) hkey
    dsimp only at hqp hw
    subst hqp
    rw [(hpairs q u).mpr hq, Option.some.injEq] at hv
    rw [← hw, hv]

theorem lookup_entries_none (hpairs : ∀ p v, nodes.lookup p = some v ↔ (p, v) ∈ pairs) {ty : UInt8}
    (ht : HasPath ty) {p : Bytes} (hp : p ∉ nodes) :
    (pairs.map (grayEntry idc)).lookup (tblkeyOf ty idc p) = none := by
  refine lookup_eq_none_of_keys fun kv hkv heq => ?_
  obtain ⟨⟨q, u⟩, hq, rfl⟩ := List.mem_map.mp hkv
  obtain ⟨-, hqp⟩ := tblkeyOf_path_inj (Or.inl rfl) ht heq
  dsimp only at hqp
  subst hqp
  exact hp (ZkTree.mem_of_lookup ((hpairs q u).mpr hq))

end

/-- A call that reads a release inserts the entries of its pairs. -/
theorem grayProcess_reads {zk : Zk} {host idc : Bytes} {sec usec : Nat} {nodes gray : BytesMap}
    (hpoint : PointsAt zk.tree host sec usec nodes)
    (hok : (grayProcess host (some zk) idc gray).ret = .ok) :
    ∃ pairs : List (Bytes × Bytes), (∀ p v, nodes.lookup p = some v ↔ (p, v) ∈ pairs) ∧
      (grayProcess host (some zk) idc gray).gray = grayNodesSet gray (pairs.map (grayEntry idc)) := by
  obtain ⟨n, piece, records, hval, hend, hread, hpairs⟩ := hpoint.content
  rw [grayProcess] at hok ⊢
  split at hok
  · exact absurd hok (by simp)
  · next hidc =>
    rw [if_neg hidc]
    split at hok
    · next id zk' hz =>
      obtain ⟨ht, hid, -⟩ := zkGetNode_spec hz
      have hid := hid rfl
      rw [cStr_notifyNode, hpoint.notify, Option.some.injEq] at hid
      subst hid
      split at hok
      · next entries zk'' hr =>
        refine ⟨(sortBytes records).map pairOf, fun p v => ?_, ?_⟩
        · rw [hpairs p v]
          simp only [List.mem_map, mem_sortBytes]
        · -- the content was read to its end, and every record is legal
          rw [readNotifyContent, if_neg (grayGenerateId_plain sec usec).1] at hr
          split at hr
          · exact absurd hr (by simp)
          · next c zk₁ hc =>
            have hceq := Manager.readContent_some hval hend n 0 _ [] c zk' zk₁ (by omega) ht hc
            rw [List.nil_append, ← List.range_eq_range'] at hceq
            rw [hceq, hread] at hr
            dsimp only at hr
            rw [Prod.mk.injEq, Prod.mk.injEq] at hr
            obtain ⟨h1, h2, -⟩ := hr
            rw [readNotifyRecords_all (readNotifyRecords_ok_iff.mp h1)] at h2
            rw [h2]
      · exact absurd hok (by simp)
    · next hz =>
      have hno := (zkGetNode_spec hz).2.2 rfl
      rw [cStr_notifyNode] at hno
      exact absurd (ZkTree.mem_of_lookup hpoint.notify) hno
    · exact absurd hok (by simp)

section

variable {nodes gray : BytesMap} {pairs : List (Bytes × Bytes)} {idc : Bytes}

theorem compatible_of_reflects (h : Reflects (grayNodesSet gray (pairs.map (grayEntry idc))) idc nodes) :
    Compatible gray idc nodes := by
  constructor
  · intro p v w hv hw
    have := h.shown p v hv
    rw [isGrayNode, lookup_grayNodesSet, hw, Option.some_or, Option.some.injEq] at this
    exact this
  · intro ty hty p hp
    have := h.hidden ty hty p hp
    rw [isGrayNode, lookup_grayNodesSet, Option.or_eq_none_iff] at this
    exact this.1

theorem reflects_of_compatible (hpairs : ∀ p v, nodes.lookup p = some v ↔ (p, v) ∈ pairs)
    (h : Compatible gray idc nodes) : Reflects (grayNodesSet gray (pairs.map (grayEntry idc))) idc nodes := by
  constructor
  · intro p v hv
    rw [isGrayNode, lookup_grayNodesSet, lookup_entries hpairs hv]
    cases hw : gray.lookup (tblkeyOf dataTypeNode idc p) with
    | none => rfl
    | some w => rw [h.same p v w hv hw]; rfl
  · intro ty hty p hp
    rw [isGrayNode, lookup_grayNodesSet, h.own ty hty p hp, lookup_entries_none hpairs hty hp]
    rfl

end

/-- An empty map is in nobody's way. -/
theorem compatible_empty (idc : Bytes) (nodes : BytesMap) : Compatible ∅ idc nodes :=
  ⟨fun _ _ _ _ h => absurd h (by simp), fun _ _ _ _ => rfl⟩

/-- **The map shows the release after a call** exactly where what it held for the idc
before belongs to the release. -/
theorem overrides_reflect_release_iff {zk : Zk} {host idc : Bytes} {sec usec : Nat}
    {nodes gray : BytesMap} (hpoint : PointsAt zk.tree host sec usec nodes)
    (hok : (grayProcess host (some zk) idc gray).ret = .ok) :
    Reflects (grayProcess host (some zk) idc gray).gray idc nodes ↔ Compatible gray idc nodes := by
  obtain ⟨pairs, hpairs, hgray⟩ := grayProcess_reads hpoint hok
  rw [hgray]
  exact ⟨compatible_of_reflects, reflects_of_compatible hpairs⟩

/-! #### A release after another -/

/-- The release of `/x` is rolled back and `/x` is released again with the value `2`. -/
def rolledBack : Ret × Zk := Manager.zkGrayRollback Manager.oneClientBegin.2 (grayGenerateId 1 2)

def secondMap : BytesMap := Finmap.singleton [slash, 120] [50]

def secondBegin : Ret × Zk := Manager.zkGrayBegin rolledBack.2 secondMap [[97]] 3 4

/-- The map after the agent of the idc `B` on the host `a` has seen the first release. -/
def firstGray : BytesMap := (grayProcess [97] (some Manager.oneClientBegin.2) [66] ∅).gray

theorem mapFits_singleton {p v : Bytes} (hp : p.length < 65536) (hv : v.length ≤ maxValueSize) :
    MapFits (Finmap.singleton p v) := by
  refine ⟨?_, fun q hq => ?_, fun q w hw => ?_⟩
  · rw [Finmap.keys_singleton]
    simp
  · rw [(Finmap.mem_singleton _ _ _).mp hq]
    exact hp
  · have hq := (Finmap.mem_singleton _ _ _).mp (ZkTree.mem_of_lookup hw)
    subst hq
    rw [Finmap.lookup_singleton_eq, Option.some.injEq] at hw
    rw [← hw]
    exact hv

/-- A begin of one path in normal form makes its clients point at it. -/
theorem pointsAt_begin_singleton {zk zk₁ : Zk} {p v host : Bytes} {clients : List Bytes} {sec usec : Nat}
    (hbegin : Manager.zkGrayBegin zk (Finmap.singleton p v) clients sec usec = (.ok, zk₁))
    (hnul : ∀ c ∈ clients, NulFree c)
    (hnew : ∀ j, contentNode (grayGenerateId sec usec) j ∉ zk.tree.nodes)
    (hnorm : Manager.pathNormalize p = some p) (hp : p.length < 65536) (hv : v.length ≤ maxValueSize)
    (hhost : cStr host ∈ clients) : PointsAt zk₁.tree host sec usec (Finmap.singleton p v) := by
  obtain ⟨nodes, content, hacc, hs, hb, -⟩ := Manager.begun_of_begin hbegin hnul hnew
  rw [hacc.eq_singleton hnorm] at hs
  exact pointsAt_begun hb (mapFits_singleton hp hv) hs hhost

theorem oneClientBegin_pointsAt :
    PointsAt Manager.oneClientBegin.2.tree [97] 1 2 Manager.oneNodeMap :=
  pointsAt_begin_singleton Manager.oneClientBegin_eq (by decide)
    (Manager.contentNode_not_mem_oneNodeTree _) (by decide) (by decide) (by decide) (by decide)

/-- The map after the agent has seen the first release for the idc `C` too. -/
def bothGray : BytesMap := (grayProcess [97] (some Manager.oneClientBegin.2) [67] firstGray).gray

/-- What `C` has put into the map is not in the way of `B`, and what `B` has itself is of the release. -/
theorem compatible_bothGray : Compatible bothGray [66] Manager.oneNodeMap where
  same p v w hv hw := by
    obtain rfl := (Finmap.mem_singleton _ _ _).mp (ZkTree.mem_of_lookup hv)
    have hx : ∀ v ∈ Manager.oneNodeMap.lookup [slash, 120], bothGray.lookup (tblkeyOf dataTypeNode [66] [slash, 120]) =
        some (nodevalToTblval (tblkeyOf dataTypeNode [66] [slash, 120]) v) := by decide +kernel
    exact Option.some.inj (hw.symm.trans (hx v hv))
  own ty hty p hp := by
    have hkeys : ∀ k ∈ bothGray.keys, k = tblkeyOf dataTypeNode [66] [slash, 120] ∨
        k = tblkeyOf dataTypeNode [67] [slash, 120] := by decide +kernel
    refine Finmap.lookup_eq_none.mpr fun hm => ?_
    rcases hkeys _ (Finmap.mem_keys.mpr hm) with hkey | hkey
    · obtain ⟨-, rfl⟩ := tblkeyOf_path_inj hty (Or.inl rfl) hkey
      exact hp ((Finmap.mem_singleton _ _ _).mpr rfl)
    · rw [tblkeyOf_hasPath hty, tblkeyOf_hasPath (Or.inl rfl), List.cons.injEq] at hkey
      exact absurd (congrArg (·[1]?) hkey.2) (by simp [ByteCodec.field, ByteCodec.leBytes, idcSizeLen])

/-- The release is shown after another call for `B`, with a map that has overrides of both idcs. -/
theorem overrides_reflect_again : bothGray.keys.card = 2 ∧
    Reflects (grayProcess [97] (some Manager.oneClientBegin.2) [66] bothGray).gray [66] Manager.oneNodeMap :=
  ⟨by decide +kernel, (overrides_reflect_release_iff oneClientBegin_pointsAt (by decide +kernel)).mpr compatible_bothGray⟩

theorem contentNode_not_mem_rolledBack (j : Nat) :
    contentNode (grayGenerateId 3 4) j ∉ rolledBack.2.tree.nodes :=
  Manager.contentNode_not_mem_of_short (by decide +kernel) _ j

theorem secondBegin_ok : secondBegin.1 = .ok := by
  decide +kernel

theorem secondBegin_pointsAt : PointsAt secondBegin.2.tree [97] 3 4 secondMap := by
  have hbegin : secondBegin = (.ok, secondBegin.2) := Prod.ext secondBegin_ok rfl
  exact pointsAt_begin_singleton hbegin (by decide) contentNode_not_mem_rolledBack (by decide)
    (by decide) (by decide) (by decide)

/-- **An older release stays in the way**: the value `1` is still served after the agent
has read the release of `2`. -/
theorem second_release_not_shown :
    Manager.oneClientBegin.1 = .ok ∧ rolledBack.1 = .ok ∧ secondBegin.1 = .ok ∧
      PointsAt secondBegin.2.tree [97] 3 4 secondMap ∧
      (grayProcess [97] (some secondBegin.2) [66] firstGray).ret = .ok ∧
      ¬ Reflects (grayProcess [97] (some secondBegin.2) [66] firstGray).gray [66] secondMap := by
  refine ⟨Manager.oneClientBegin_ok, by decide +kernel, secondBegin_ok, secondBegin_pointsAt,
    by decide +kernel, fun h => ?_⟩
  exact absurd (h.shown [slash, 120] [50] (by decide)) (by decide +kernel)

/-! #### Whole histories -/

/-- The map after a history of calls for one idc, with the releases that were read since the last call
that found no notify node. -/
inductive History (host idc : Bytes) : List BytesMap → BytesMap → Prop
  | start : History host idc [] ∅
  | read {releases : List BytesMap} {gray nodes : BytesMap} {zk : Zk} {sec usec : Nat}
      (before : History host idc releases gray) (hpoint : PointsAt zk.tree host sec usec nodes)
      (hok : (grayProcess host (some zk) idc gray).ret = .ok) :
      History host idc (releases ++ [nodes]) (grayProcess host (some zk) idc gray).gray
  | ended {releases : List BytesMap} {gray : BytesMap} {zk : Zk} (before : History host idc releases gray)
      (hgone : notifyNode host ∉ zk.tree.nodes) (hok : (grayProcess host (some zk) idc gray).ret = .ok) :
      History host idc [] (grayProcess host (some zk) idc gray).gray
  | failed {releases : List BytesMap} {gray : BytesMap} {zk : Zk} (before : History host idc releases gray)
      (hno : (grayProcess host (some zk) idc gray).ret ≠ .ok) :
      History host idc releases (grayProcess host (some zk) idc gray).gray

/-- The value of the first release that has the path. -/
def firstValue (releases : List BytesMap) (p : Bytes) : Option Bytes := releases.findSome? (·.lookup p)

/-- The map shows for each path the first of the releases that has it. -/
structure ShowsFirst (idc : Bytes) (releases : List BytesMap) (gray : BytesMap) : Prop where
  shown : ∀ p v, firstValue releases p = some v → gray.lookup (tblkeyOf dataTypeNode idc p) =
    some (nodevalToTblval (tblkeyOf dataTypeNode idc p) v)
  hidden : ∀ ty, HasPath ty → ∀ p, firstValue releases p = none → gray.lookup (tblkeyOf ty idc p) = none

section

variable {host idc : Bytes} {releases : List BytesMap} {gray nodes : BytesMap} {zk : Zk}

theorem firstValue_append (p : Bytes) :
    firstValue (releases ++ [nodes]) p = (firstValue releases p).or (nodes.lookup p) := by
  rw [firstValue, List.findSome?_append, List.findSome?_singleton]
  rfl

/-- The three ways of a call: it inserts what it has read, it finds no notify node and empties the map,
or it fails and leaves the map. -/
theorem grayProcess_gray (host idc : Bytes) (gray : BytesMap) (zk : Zk) :
    ((grayProcess host (some zk) idc gray).ret = .ok ∧ (notifyNode host ∈ zk.tree.nodes ∨
      (notifyNode host ∉ zk.tree.nodes ∧ (grayProcess host (some zk) idc gray).gray = ∅))) ∨
    ((grayProcess host (some zk) idc gray).ret ≠ .ok ∧ (grayProcess host (some zk) idc gray).gray = gray) := by
  rw [grayProcess]
  split
  · exact Or.inr ⟨by simp, rfl⟩
  · split
    · next hz =>
      have hin := (zkGetNode_spec hz).2.1 rfl
      rw [cStr_notifyNode] at hin
      split
      · exact Or.inl ⟨rfl, Or.inl (ZkTree.mem_of_lookup hin)⟩
      · exact Or.inr ⟨by simp, rfl⟩
    · next hz =>
      have hout := (zkGetNode_spec hz).2.2 rfl
      rw [cStr_notifyNode] at hout
      exact Or.inl ⟨rfl, Or.inr ⟨hout, rfl⟩⟩
    · exact Or.inr ⟨by simp, rfl⟩

theorem showsFirst_nil (idc : Bytes) : ShowsFirst idc [] ∅ :=
  ⟨fun _ _ h => absurd h (by simp [firstValue]), fun _ _ _ _ => rfl⟩

theorem ShowsFirst.read (h : ShowsFirst idc releases gray) {pairs : List (Bytes × Bytes)}
    (hpairs : ∀ p v, nodes.lookup p = some v ↔ (p, v) ∈ pairs) :
    ShowsFirst idc (releases ++ [nodes]) (grayNodesSet gray (pairs.map (grayEntry idc))) := by
  constructor
  · intro p v hv
    rw [firstValue_append] at hv
    rw [lookup_grayNodesSet]
    cases hfirst : firstValue releases p with
    | some w =>
      rw [hfirst, Option.some_or, Option.some.injEq] at hv
      rw [h.shown p w hfirst, hv]
      rfl
    | none =>
      rw [hfirst, Option.none_or] at hv
      rw [h.hidden dataTypeNode (Or.inl rfl) p hfirst, Option.none_or]
      exact lookup_entries hpairs hv
  · intro ty hty p hp
    rw [firstValue_append, Option.or_eq_none_iff] at hp
    rw [lookup_grayNodesSet, h.hidden ty hty p hp.1, Option.none_or]
    exact lookup_entries_none hpairs hty (Finmap.lookup_eq_none.mp hp.2)

/-- **The map of every history** shows for each path the first release since the last end that has it. -/
theorem History.showsFirst (h : History host idc releases gray) : ShowsFirst idc releases gray := by
  induction h with
  | start => exact showsFirst_nil idc
  | read _ hpoint hok ih =>
    obtain ⟨pairs, hpairs, hgray⟩ := grayProcess_reads hpoint hok
    rw [hgray]
    exact ih.read hpairs
  | @ended _ gray zk _ hgone hok _ =>
    rcases grayProcess_gray host idc gray zk with ⟨-, hin | ⟨-, hgray⟩⟩ | ⟨hno, -⟩
    · exact absurd hin hgone
    · rw [hgray]
      exact showsFirst_nil idc
    · exact absurd hok hno
  | @failed _ gray zk _ hno ih =>
    rcases grayProcess_gray host idc gray zk with ⟨hok, -⟩ | ⟨-, hgray⟩
    · exact absurd hok hno
    · rw [hgray]
      exact ih

/-- **After a whole history the map shows the last release that was read** exactly where every value
that an older release since the last end put into the map is a value of the last one too. -/
theorem History.reflects_iff (h : History host idc (releases ++ [nodes]) gray) :
    Reflects gray idc nodes ↔ ∀ p v, firstValue releases p = some v → nodes.lookup p = some v := by
  have hshows := h.showsFirst
  constructor
  · intro hr p v hv
    have hkey := hshows.shown p v (by rw [firstValue_append, hv]; rfl)
    cases hp : nodes.lookup p with
    | none =>
      have hnone := hr.hidden dataTypeNode (Or.inl rfl) p (Finmap.lookup_eq_none.mp hp)
      rw [isGrayNode, hkey] at hnone
      cases hnone
    | some w =>
      have hw := hr.shown p w hp
      rw [isGrayNode, hkey, Option.some.injEq] at hw
      rw [nodevalToTblval_inj hw]
  · intro hold
    constructor
    · intro p v hv
      refine hshows.shown p v ?_
      rw [firstValue_append]
      cases hfirst : firstValue releases p with
      | none => exact hv
      | some w => rw [← hv, hold p w hfirst]; rfl
    · intro ty hty p hp
      refine hshows.hidden ty hty p ?_
      rw [firstValue_append, Option.or_eq_none_iff]
      refine ⟨Option.eq_none_iff_forall_ne_some.mpr fun w hw => hp ?_, Finmap.lookup_eq_none.mpr hp⟩
      exact ZkTree.mem_of_lookup (hold p w hw)

end

/-! ### Several idcs -/

/-- A call for the idc `idc` leaves the others alone. -/
structure Isolated (idc : Bytes) (gray : BytesMap) (out : Outcome) : Prop where
  kept : ∀ k, (deserializeFromTblkey k).idc ≠ idc → isGrayNode out.gray k = isGrayNode gray k
  own : ∀ kv ∈ out.nodes, (deserializeFromTblkey kv.1).idc = idc

section

variable {idc : Bytes}

/-- The key of a legal record is a key of the idc. -/
theorem idc_grayEntry (hidc : idc.length < 256) {r : Bytes} (hr : (tblvalToNodeval r).ret = .ok) :
    (deserializeFromTblkey (grayEntry idc (pairOf r)).1).idc = idc := by
  have h := deserialize_tblkeyOf (Or.inl rfl : HasPath dataTypeNode) hidc (path_length_of_ok hr) []
  rw [List.append_nil] at h
  exact congrArg TblkeyParts.idc h

theorem idc_readNotifyContent (hidc : idc.length < 256) {zk : Zk} {notifyId : Bytes}
    {kv : Bytes × Bytes} (h : kv ∈ (readNotifyContent zk notifyId idc).2.1) :
    (deserializeFromTblkey kv.1).idc = idc := by
  obtain ⟨r, hr, rfl⟩ := mem_readNotifyContent h
  exact idc_grayEntry hidc hr

theorem mem_grayNodesGet {gray : BytesMap} {k : Bytes} :
    (∃ kv ∈ grayNodesGet gray, kv.1 = k) ↔ k ∈ gray := by
  simp [grayNodesGet, Finmap.mem_keys]

/-- **A call leaves the other idcs alone** exactly where it does not come to empty the map,
or there is nothing of theirs in it. -/
theorem gray_process_isolated_iff (hidc : idc.length < 256) (host : Bytes) (zh : Option Zk)
    (gray : BytesMap) :
    Isolated idc gray (grayProcess host zh idc gray) ↔
      ∀ zk, zh = some zk → idc ≠ [] → (zkGetNode zk (notifyNode host)).1 = .nodeNotExist →
        ∀ k ∈ gray, (deserializeFromTblkey k).idc = idc := by
  have htrivial : ∀ ret zh', Isolated idc gray ⟨ret, [], gray, zh'⟩ :=
    fun _ _ => ⟨fun _ _ => rfl, fun _ h => absurd h (by simp)⟩
  cases zh with
  | none => exact ⟨fun _ _ h => absurd h (by simp), fun _ => htrivial _ _⟩
  | some zk =>
  rw [grayProcess]
  by_cases he : idc = []
  · rw [if_pos he]
    exact ⟨fun _ _ _ hne => absurd he hne, fun _ => htrivial _ _⟩
  rw [if_neg he]
  split
  · next id zk' hz =>
    -- a release was found: what is inserted has keys of the idc
    have hkeys := fun kv => @idc_readNotifyContent idc hidc zk' id kv
    refine ⟨fun _ zk₁ heq _ hno => ?_, fun _ => ?_⟩
    · rw [Option.some.injEq] at heq
      rw [← heq, hz] at hno
      exact absurd hno (by simp)
    · split
      · next nodes zk'' hr =>
        rw [hr] at hkeys
        refine ⟨fun k hk => ?_, hkeys⟩
        have hnone : nodes.lookup k = none := lookup_eq_none_of_keys fun kv hkv heq =>
          hk (heq ▸ hkeys kv hkv)
        rw [isGrayNode, lookup_grayNodesSet, hnone, Option.or_none]
        rfl
      · next hr =>
        rw [hr] at hkeys
        exact ⟨fun _ _ => rfl, hkeys⟩
  · next zk' hz =>
    -- the notify node is gone: everything is handed out and the map is emptied
    constructor
    · intro h zk₁ _ _ _ k hk
      exact (mem_grayNodesGet.mpr hk).elim fun kv hkv => hkv.2 ▸ h.own kv hkv.1
    · intro h
      have hall := h zk rfl he (by rw [hz])
      refine ⟨fun k hk => ?_, fun kv hkv => hall _ (mem_grayNodesGet.mp ⟨kv, hkv, rfl⟩)⟩
      rw [isGrayNode, isGrayNode, Finmap.lookup_empty, eq_comm, Finmap.lookup_eq_none]
      exact fun hm => hk (hall k hm)
  · next hne1 hne2 hz =>
    refine ⟨fun _ zk₁ heq _ hno => ?_, fun _ => htrivial _ _⟩
    rw [Option.some.injEq] at heq
    rw [← heq, hz] at hno
    exact absurd hno hne2

end

/-- A map with an override of `/x` for the idc `B`. -/
def otherGray : BytesMap :=
  Finmap.singleton (tblkeyOf dataTypeNode [66] [slash, 120])
    (nodevalToTblval (tblkeyOf dataTypeNode [66] [slash, 120]) [49])

/-- A call for `A` on a session that cannot be read leaves all the idcs alone. -/
theorem gray_process_isolated_unread :
    Isolated [65] otherGray (grayProcess [97] (some ⟨ZkTree.empty, [some (.connectionLoss false)]⟩) [65]
      otherGray) :=
  (gray_process_isolated_iff (by decide) [97] _ otherGray).mpr fun zk hz _ hno => by
    rw [Option.some.injEq] at hz
    rw [← hz] at hno
    exact absurd hno (by decide +kernel)

/-- **The idc `A` without a release ends the release of `B`.** -/
theorem absent_notify_clears_other_idc :
    ¬ Isolated [65] otherGray (grayProcess [97] (some (.quiet ZkTree.empty)) [65] otherGray) := by
  intro h
  exact absurd (h.kept (tblkeyOf dataTypeNode [66] [slash, 120]) (by decide +kernel)) (by decide +kernel)

end QConf.Gray
