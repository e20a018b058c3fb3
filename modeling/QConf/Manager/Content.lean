import QConf.Manager.Plan

/-!
# The content of a release, written and read back

The manager writes the map of a release as one string and cuts it into pieces.  The
pieces that are there, from number 0 up to the first that is missing, are joined
again (`readContent_quiet`), and the string gives back the pairs of the map
(`mem_grayPairs`), each path once.
-/

namespace QConf.Manager

/-! ### The pieces -/

/-- The first pieces are the front of the content. -/
theorem pieces_flatMap (content : Bytes) : ∀ k,
    (List.range k).flatMap (fun j => contentPiece content (j * grayContentMaxSize)) =
      content.take (k * grayContentMaxSize) := by
  intro k
  induction k with
  | zero => simp
  | succ k ih =>
    rw [List.range_succ, List.flatMap_append, ih, List.flatMap_singleton, Nat.succ_mul, List.take_add]
    rfl

/-- All the pieces are the content. -/
theorem pieces_all (content : Bytes) :
    (List.range (pieceCount content)).flatMap (fun j => contentPiece content (j * grayContentMaxSize)) =
      content := by
  rw [pieces_flatMap, List.take_of_length_le (length_le_pieces content)]

/-! ### Reading the nodes -/

section

variable {t : ZkTree} {sec usec n : Nat} {piece : Nat → Bytes}

/-- There are at least as many nodes as there are content nodes. -/
theorem content_le_card {g : Bytes} (hval : ∀ j < n, contentNode g j ∈ t.nodes) :
    n ≤ t.nodes.keys.card := by
  have hinj : Set.InjOn (contentNode g) (Finset.range n) := fun _ _ _ _ h => contentNode_inj h
  rw [← Finset.card_range n, ← Finset.card_image_of_injOn hinj]
  refine Finset.card_le_card (fun q hq => ?_)
  obtain ⟨j, hj, rfl⟩ := Finset.mem_image.mp hq
  exact Finmap.mem_keys.mpr (hval j (Finset.mem_range.mp hj))

/-- The loop reads the nodes from `i` on up to the first that is missing. -/
theorem readContent_quiet (hval : ∀ j < n, t.nodes.lookup (contentNode (grayGenerateId sec usec) j) =
      some (piece j)) (hend : contentNode (grayGenerateId sec usec) n ∉ t.nodes) :
    ∀ (k i fuel : Nat) (content : Bytes), i + k = n → k < fuel →
      readContent (grayGenerateId sec usec) fuel (.quiet t) i content =
        (some (content ++ (List.range' i k).flatMap piece), .quiet t) := by
  have hget : ∀ j, (Zk.quiet t).zooGet (contentNode (grayGenerateId sec usec) j) =
      ((t.get (contentNode (grayGenerateId sec usec) j)).map (List.take maxValueSize), .quiet t) :=
    fun j => zooGet_quiet t (isValidPath_nulFree (contentNode_valid sec usec j))
  intro k
  induction k with
  | zero =>
    intro i fuel content hi hfuel
    obtain ⟨fuel, rfl⟩ : ∃ f, fuel = f + 1 := ⟨fuel - 1, by omega⟩
    have hno : t.get (contentNode (grayGenerateId sec usec) i) = .error .noNode := by
      rw [ZkTree.get, if_pos (contentNode_valid sec usec i), Finmap.lookup_eq_none.mpr]
      rw [show i = n by omega]
      exact hend
    rw [readContent, hget, hno]
    simp [Except.map]
  | succ k ih =>
    intro i fuel content hi hfuel
    obtain ⟨fuel, rfl⟩ : ∃ f, fuel = f + 1 := ⟨fuel - 1, by omega⟩
    have hl := hval i (by omega)
    rw [readContent, hget, ZkTree.get_eq_ok.mpr hl]
    simp only [Except.map, ZkTree.take_maxValueSize hl]
    rw [ih (i + 1) fuel (content ++ piece i) (by omega) (by omega), List.range'_succ,
      List.flatMap_cons, List.append_assoc]

/-- Whatever fails, a content that was read is what the nodes hold. -/
theorem readContent_some (hval : ∀ j < n, t.nodes.lookup (contentNode (grayGenerateId sec usec) j) =
      some (piece j)) (hend : contentNode (grayGenerateId sec usec) n ∉ t.nodes) :
    ∀ (k i fuel : Nat) (content content' : Bytes) (zk zk' : Zk), i + k = n → zk.tree = t →
      readContent (grayGenerateId sec usec) fuel zk i content = (some content', zk') →
      content' = content ++ (List.range' i k).flatMap piece := by
  have hcstr : ∀ j, cStr (contentNode (grayGenerateId sec usec) j) =
      contentNode (grayGenerateId sec usec) j :=
    fun j => cStr_of_nulFree (isValidPath_nulFree (contentNode_valid sec usec j))
  intro k
  induction k with
  | zero =>
    intro i fuel content content' zk zk' hi ht h
    rw [← hi, Nat.add_zero] at hend
    cases fuel with
    | zero => exact absurd h (by simp [readContent])
    | succ fuel =>
      rw [readContent] at h
      split at h
      · next hz =>
        have hl := (zooGet_spec hz).2.1 _ rfl
        rw [hcstr, ht] at hl
        exact absurd (ZkTree.mem_of_lookup hl) hend
      · rw [Prod.mk.injEq, Option.some.injEq] at h
        simp [← h.1]
      · exact absurd h (by simp)
  | succ k ih =>
    intro i fuel content content' zk zk' hi ht h
    have hl := hval i (by omega)
    cases fuel with
    | zero => exact absurd h (by simp [readContent])
    | succ fuel =>
      rw [readContent] at h
      split at h
      · next hz =>
        obtain ⟨ht', hok, -⟩ := zooGet_spec hz
        have hd := hok _ rfl
        rw [hcstr, ht, hl, Option.some.injEq] at hd
        rw [ih (i + 1) fuel _ content' _ zk' (by omega) (ht'.trans ht) h, ← hd, List.range'_succ,
          List.flatMap_cons, List.append_assoc]
      · next hz =>
        have hno := (zooGet_spec hz).2.2 rfl
        rw [hcstr, ht] at hno
        exact absurd (ZkTree.mem_of_lookup hl) hno
      · exact absurd h (by simp)

/-- **The content nodes give back what they hold**, joined. -/
theorem readContent_all (hval : ∀ j < n, t.nodes.lookup (contentNode (grayGenerateId sec usec) j) =
      some (piece j)) (hend : contentNode (grayGenerateId sec usec) n ∉ t.nodes) :
    readContent (grayGenerateId sec usec) (t.nodes.keys.card + 1) (.quiet t) 0 [] =
      (some ((List.range n).flatMap piece), .quiet t) := by
  have hcard := content_le_card (fun j hj => ZkTree.mem_of_lookup (hval j hj))
  rw [readContent_quiet hval hend n 0 _ [] (by omega) (by omega), List.nil_append, List.range_eq_range']

end

/-! ### The pairs -/

/-- What a record is read as. -/
def pairOf (r : Bytes) : Bytes × Bytes := ((tblvalToNodeval r).path, (tblvalToNodeval r).nodeval)

/-- The pairs of the content of a map, in the order of their records. -/
def grayPairs (nodes : BytesMap) : List (Bytes × Bytes) := (sortBytes (grayRecords nodes)).map pairOf

/-- A map whose content can be read back: at most 65535 paths, all of them shorter than
65536 bytes, and values that fit. -/
structure MapFits (nodes : BytesMap) : Prop where
  card : nodes.keys.card < 65536
  path : ∀ p ∈ nodes, p.length < 65536
  value : ∀ p v, nodes.lookup p = some v → v.length ≤ maxValueSize

section

variable {nodes : BytesMap}

theorem mem_grayRecords {r : Bytes} :
    r ∈ grayRecords nodes ↔ ∃ p v, nodes.lookup p = some v ∧ r = grayRecord p v := by
  simp only [grayRecords, Finset.mem_image, Finmap.mem_keys]
  constructor
  · rintro ⟨p, hp, rfl⟩
    obtain ⟨v, hv⟩ := Option.isSome_iff_exists.mp (Finmap.lookup_isSome.mpr hp)
    exact ⟨p, v, hv, by rw [hv]; rfl⟩
  · rintro ⟨p, v, hv, rfl⟩
    exact ⟨p, ZkTree.mem_of_lookup hv, by rw [hv]; rfl⟩

theorem grayRecord_length (p v : Bytes) : (grayRecord p v).length = 11 + v.length + p.length := by
  simp only [grayRecord, nodevalToTblval, qconfAppendNodeval, tblkeyOf_hasPath (Or.inl rfl),
    List.nil_append, List.length_append, List.length_cons, ByteCodec.field_length, valueSizeLen,
    idcSizeLen, hostPathSizeLen, contentIdc, List.length_nil]
  omega

theorem graySerializeContent_some {content : Bytes} (h : graySerializeContent nodes = some content) :
    graynodevalToTblval (grayRecords nodes) = content := by
  unfold graySerializeContent at h
  split at h
  · exact absurd h (by simp)
  · exact Option.some.inj h

variable (h : MapFits nodes)
include h

theorem MapFits.pairOf {p v : Bytes} (hv : nodes.lookup p = some v) :
    tblvalToNodeval (grayRecord p v) = { ret := .ok, nodeval := v, idc := contentIdc, path := p } := by
  refine tblvalToNodeval_nodevalToTblval ?_ (by decide) (h.path p (ZkTree.mem_of_lookup hv))
  have := h.value p v hv
  rw [show maxValueSize = 1048577 from rfl] at this
  omega

theorem MapFits.record {r : Bytes} (hr : r ∈ grayRecords nodes) : r.length < 256 ^ valueSizeLen := by
  obtain ⟨p, v, hv, rfl⟩ := mem_grayRecords.mp hr
  have h1 := h.value p v hv
  have h2 := h.path p (ZkTree.mem_of_lookup hv)
  rw [show maxValueSize = 1048577 from rfl] at h1
  rw [grayRecord_length, show valueSizeLen = 4 from rfl]
  omega

theorem MapFits.card_records : (grayRecords nodes).card < 65536 :=
  Nat.lt_of_le_of_lt Finset.card_image_le h.card

/-- The pairs are those of the map. -/
theorem mem_grayPairs {p v : Bytes} : (p, v) ∈ grayPairs nodes ↔ nodes.lookup p = some v := by
  simp only [grayPairs, List.mem_map, mem_sortBytes, mem_grayRecords]
  constructor
  · rintro ⟨r, ⟨p', v', hv, rfl⟩, hpair⟩
    rw [Manager.pairOf, h.pairOf hv, Prod.mk.injEq] at hpair
    obtain ⟨rfl, rfl⟩ := hpair
    exact hv
  · intro hv
    exact ⟨_, ⟨p, v, hv, rfl⟩, by rw [Manager.pairOf, h.pairOf hv]⟩

/-- Each path has one pair. -/
theorem nodup_grayPairs : ((grayPairs nodes).map Prod.fst).Nodup := by
  rw [grayPairs, List.map_map]
  refine List.Nodup.map_on ?_ (nodup_sortBytes _)
  intro r hr r' hr' heq
  obtain ⟨p, v, hv, rfl⟩ := mem_grayRecords.mp (mem_sortBytes.mp hr)
  obtain ⟨p', v', hv', rfl⟩ := mem_grayRecords.mp (mem_sortBytes.mp hr')
  simp only [Function.comp_apply, Manager.pairOf, h.pairOf hv, h.pairOf hv'] at heq
  subst heq
  rw [hv, Option.some.injEq] at hv'
  rw [hv']

theorem tblvalToGraynodeval_content {content : Bytes}
    (hc : graySerializeContent nodes = some content) :
    tblvalToGraynodeval content = some (grayRecords nodes) := by
  have hread := tblvalToGraynodeval_graynodevalToTblval h.card_records (fun r hr => h.record hr) []
  rwa [List.append_nil, graySerializeContent_some hc] at hread

/-- **The content of a map is read back as its pairs.** -/
theorem grayDeserializeContent_serialize {content : Bytes}
    (hc : graySerializeContent nodes = some content) :
    grayDeserializeContent content = some (grayPairs nodes) := by
  have hread := tblvalToGraynodeval_content h hc
  have hne : content ≠ [] := by
    rintro rfl
    exact absurd hread (by simp [tblvalToGraynodeval, vectorCountLen])
  rw [grayDeserializeContent, if_neg hne, hread]
  rfl

end

end QConf.Manager
