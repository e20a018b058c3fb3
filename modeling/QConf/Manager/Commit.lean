import QConf.Manager.Path
import QConf.Manager.Release

/-!
# Committing what was begun

A begin accepts a path if it exists once the slashes around it are normalised; a
commit sets a node by `zk_node_set`, which takes only paths of the characters that
the pattern of `zk_path` names.  So a release can be begun that cannot be
committed.  What else stands in the way of a commit is in the arguments as well: two
paths of the map that are one path with different values, and clients that cannot be
deleted again.
-/

namespace QConf.Manager

/-! ### Setting the nodes -/

/-- The loop of a commit without faults, for paths that are there. -/
theorem commitNodes_quiet : ∀ {pairs : List (Bytes × Bytes)} {t : ZkTree},
    (∀ pv ∈ pairs, zkPath pv.1 = some pv.1 ∧ pv.1 ∈ t.nodes ∧ pv.2.length ≤ zkMaxData) →
    (pairs.map Prod.fst).Nodup →
      ∃ t', commitNodes pairs (.quiet t) = (.ok, .quiet t') ∧
        (∀ q, q ∈ t'.nodes ↔ q ∈ t.nodes) ∧
        (∀ pv ∈ pairs, t'.nodes.lookup pv.1 = some pv.2) ∧
        (∀ q, q ∉ pairs.map Prod.fst → t'.nodes.lookup q = t.nodes.lookup q) := by
  intro pairs
  induction pairs with
  | nil =>
    intro t _ _
    exact ⟨t, rfl, fun _ => Iff.rfl, by simp, fun _ _ => rfl⟩
  | cons pv pairs ih =>
    intro t h hnd
    obtain ⟨p, v⟩ := pv
    obtain ⟨hpath, hm, hs⟩ := h _ List.mem_cons_self
    dsimp only at hpath hm hs
    obtain ⟨t₁, hz, hnodes⟩ := zkModify_quiet hm hs
    rw [List.map_cons, List.nodup_cons] at hnd
    have hmem₁ : ∀ q, q ∈ t₁.nodes ↔ q ∈ t.nodes := by
      intro q
      rw [hnodes, Finmap.mem_insert]
      exact ⟨fun hq => hq.elim (fun he => he ▸ hm) id, Or.inr⟩
    obtain ⟨t', hc, hmem, hval, hother⟩ := ih (t := t₁) (fun pv hpv => by
      obtain ⟨h1, h2, h3⟩ := h pv (List.mem_cons_of_mem _ hpv)
      exact ⟨h1, (hmem₁ _).mpr h2, h3⟩) hnd.2
    refine ⟨t', ?_, fun q => (hmem q).trans (hmem₁ q), List.forall_mem_cons.mpr ⟨?_, hval⟩, fun q hq => ?_⟩
    · rw [commitNodes, zkNodeSet, hpath]
      dsimp only
      rw [hz]
      exact hc
    · rw [hother p hnd.1, hnodes, Finmap.lookup_insert]
    · rw [List.map_cons, List.mem_cons, not_or] at hq
      rw [hother q hq.2, hnodes, Finmap.lookup_insert_of_ne _ hq.1]

/-- A path that `zk_path` rejects stops the loop. -/
theorem zkPath_of_commitNodes : ∀ {pairs : List (Bytes × Bytes)} {zk : Zk},
    (commitNodes pairs zk).1 = .ok → ∀ pv ∈ pairs, zkPath pv.1 ≠ none := by
  intro pairs
  induction pairs with
  | nil => intro zk _; simp
  | cons pv pairs ih =>
    intro zk h
    obtain ⟨p, v⟩ := pv
    rw [commitNodes] at h
    split at h
    · next hz =>
      refine List.forall_mem_cons.mpr ⟨fun hno => ?_, ih h⟩
      rw [zkNodeSet, hno] at hz
      exact absurd hz (by simp)
    · exact absurd h (by simp)

/-! ### Which releases can be committed -/

/-- What a commit has to do: the nodes of the map hold their new values, everything else
is as before the begin and as before the commit, and the release is gone. -/
structure Committed (t₀ t₁ : ZkTree) (rawNodes : BytesMap) (clients : List Bytes) (grayId : Bytes)
    (r : Ret × Zk) : Prop where
  ok : r.1 = .ok
  value : ∀ raw v p, rawNodes.lookup raw = some v → pathNormalize raw = some p →
    r.2.tree.nodes.lookup p = some v
  config : ∀ q ∈ t₀.nodes, (∀ raw ∈ rawNodes, pathNormalize raw ≠ some q) →
    r.2.tree.nodes.lookup q = t₀.nodes.lookup q
  other : ∀ q, (∀ raw ∈ rawNodes, pathNormalize raw ≠ some q) → ¬ ReleaseNode clients grayId q →
    r.2.tree.nodes.lookup q = t₁.nodes.lookup q
  gone : ∀ q, ReleaseNode clients grayId q → q ∉ r.2.tree.nodes

/-- The arguments of a release that can be committed. -/
structure Committable (rawNodes : BytesMap) (clients : List Bytes) : Prop where
  chars : ∀ raw ∈ rawNodes, ∀ p, pathNormalize raw = some p → p.all pathChar = true
  agree : ∀ raw ∈ rawNodes, ∀ raw' ∈ rawNodes, pathNormalize raw = pathNormalize raw' →
    rawNodes.lookup raw = rawNodes.lookup raw'
  listed : Listed clients
  apart : Apart clients

/-- A map whose content can be read back. -/
structure RawFits (rawNodes : BytesMap) : Prop where
  card : rawNodes.keys.card < 65536
  path : ∀ raw ∈ rawNodes, ∀ p, pathNormalize raw = some p → p.length < 65536
  nul : ∀ raw ∈ rawNodes, NulFree raw

section

variable {t₀ t₁ : ZkTree} {rawNodes nodes : BytesMap} {content : Bytes} {clients : List Bytes}
  {sec usec : Nat}

theorem Accepted.mapFits (h : Accepted t₀ rawNodes nodes clients) (hfits : RawFits rawNodes) :
    MapFits nodes := by
  refine ⟨?_, fun p hp => ?_, fun p v hv => ?_⟩
  · -- every path of the map is the normal form of a path given
    refine Nat.lt_of_le_of_lt ?_ hfits.card
    have hsub : nodes.keys ⊆ rawNodes.keys.image (fun raw => (pathNormalize raw).getD []) := by
      intro p hp
      obtain ⟨raw, hr, hn⟩ := (h.mem p).mp (Finmap.mem_keys.mp hp)
      exact Finset.mem_image.mpr ⟨raw, Finmap.mem_keys.mpr hr, by rw [hn]; rfl⟩
    exact (Finset.card_le_card hsub).trans Finset.card_image_le
  · obtain ⟨raw, hr, hn⟩ := (h.mem p).mp hp
    exact hfits.path raw hr p hn
  · obtain ⟨-, -, -, hlen⟩ := h.value p v hv
    exact hlen.trans (Nat.sub_le _ _)

/-- A commit reads the pairs of the map. -/
theorem zkGrayGetContent_quiet (hb : Begun t₁ content clients (grayGenerateId sec usec))
    (hs : graySerializeContent nodes = some content) (hfits : MapFits nodes) :
    zkGrayGetContent (.quiet t₁) (grayGenerateId sec usec) = (some (grayPairs nodes), .quiet t₁) := by
  rw [zkGrayGetContent, show (Zk.quiet t₁).tree = t₁ from rfl,
    readContent_all hb.piece (hb.last _ (Nat.le_refl _)), pieces_all]
  dsimp only
  rw [grayDeserializeContent_serialize hfits hs]

theorem commit_eq (hb : Begun t₁ content clients (grayGenerateId sec usec))
    (hs : graySerializeContent nodes = some content) (hfits : MapFits nodes) :
    zkGrayCommit (.quiet t₁) (grayGenerateId sec usec) =
      match commitNodes (grayPairs nodes) (.quiet t₁) with
      | (.ok, zk) => zkGrayDeleteNotify zk (grayGenerateId sec usec)
      | r => r := by
  rewrite [zkGrayCommit, zkGrayGetContent_quiet hb hs hfits]
  rfl

/-- The loop of a commit, once the paths are known to pass. -/
theorem Accepted.commitNodes_quiet (hacc : Accepted t₀ rawNodes nodes clients) (hkeep : Keeps t₀ t₁)
    (hfits : RawFits rawNodes)
    (hchars : ∀ raw ∈ rawNodes, ∀ p, pathNormalize raw = some p → p.all pathChar = true) :
    ∃ t', commitNodes (grayPairs nodes) (.quiet t₁) = (.ok, .quiet t') ∧
      (∀ q, q ∈ t'.nodes ↔ q ∈ t₁.nodes) ∧
      (∀ p v, nodes.lookup p = some v → t'.nodes.lookup p = some v) ∧
      (∀ q, q ∉ nodes → t'.nodes.lookup q = t₁.nodes.lookup q) := by
  have hmap := hacc.mapFits hfits
  obtain ⟨t', hc, hmem, hval, hother⟩ := @Manager.commitNodes_quiet (grayPairs nodes) t₁ (by
    rintro ⟨p, v⟩ hpv
    have hl := (mem_grayPairs hmap).mp hpv
    obtain ⟨raw, hr, hn⟩ := (hacc.mem p).mp (ZkTree.mem_of_lookup hl)
    have hnul := pathNormalize_nulFree hn (hfits.nul raw hr)
    obtain ⟨p', hn', hthere⟩ := hacc.there raw hr
    rw [hn, Option.some.injEq] at hn'
    rw [← hn', cStr_of_nulFree hnul] at hthere
    obtain ⟨-, -, -, hlen⟩ := hacc.value p v hl
    refine ⟨by rw [zkPath_normal hn hnul, if_pos (hchars raw hr p hn)], hkeep.mem hthere, ?_⟩
    rw [show maxValueSize = 1048577 from rfl] at hlen
    rw [show zkMaxData = 1048575 from rfl]
    dsimp only
    omega) (nodup_grayPairs hmap)
  refine ⟨t', hc, hmem, fun p v hl => hval _ ((mem_grayPairs hmap).mpr hl), fun q hq => hother q ?_⟩
  intro hq'
  obtain ⟨⟨p, v⟩, hpv, rfl⟩ := List.mem_map.mp hq'
  exact hq (ZkTree.mem_of_lookup ((mem_grayPairs hmap).mp hpv))

/-- A release stays as it is while nodes outside it are set. -/
theorem Begun.congr {t' : ZkTree} (hb : Begun t₁ content clients (grayGenerateId sec usec))
    (hmem : ∀ q, q ∈ t'.nodes ↔ q ∈ t₁.nodes)
    (hsame : ∀ q, ReleaseNode clients (grayGenerateId sec usec) q →
      t'.nodes.lookup q = t₁.nodes.lookup q) :
    Begun t' content clients (grayGenerateId sec usec) where
  piece j hj := (hsame _ (Or.inr (Or.inl ⟨j, rfl⟩))).trans (hb.piece j hj)
  last j hj hm := hb.last j hj ((hmem _).mp hm)
  backlink := (hsame _ (Or.inr (Or.inr rfl))).trans hb.backlink
  client c hc := (hsame _ (Or.inl ⟨c, hc, rfl⟩)).trans (hb.client c hc)
  pieceLeaf j q hq := hb.pieceLeaf j q ((hmem q).mp hq)
  backlinkLeaf q hq := hb.backlinkLeaf q ((hmem q).mp hq)
  below c hc q hq := hb.below c hc q ((hmem q).mp hq)
  order := hb.order

end

/-- **A release that was begun can be committed** exactly where every path is made of the
characters that `zk_path` knows, paths that are the same once normalised have the same
value, and the clients can be deleted again. -/
theorem begun_commits_iff {zk zk₁ : Zk} {rawNodes : BytesMap} {clients : List Bytes} {sec usec : Nat}
    (hbegin : zkGrayBegin zk rawNodes clients sec usec = (.ok, zk₁))
    (hnul : ∀ c ∈ clients, NulFree c) (hfits : RawFits rawNodes)
    (hnew : ∀ j, contentNode (grayGenerateId sec usec) j ∉ zk.tree.nodes) :
    Committed zk.tree zk₁.tree rawNodes clients (grayGenerateId sec usec)
        (zkGrayCommit (.quiet zk₁.tree) (grayGenerateId sec usec)) ↔
      Committable rawNodes clients := by
  obtain ⟨nodes, content, hacc, hs, hb, hkeep, hfresh, -⟩ := begun_of_begin hbegin hnul hnew
  have hmap := hacc.mapFits hfits
  rw [commit_eq hb hs hmap]
  -- the paths of the map were there, so they are no nodes of the release
  have hapart_map : ∀ q, ReleaseNode clients (grayGenerateId sec usec) q → q ∉ nodes := by
    intro q hq hm
    obtain ⟨raw, hr, hn⟩ := (hacc.mem q).mp hm
    obtain ⟨p, hn', hthere⟩ := hacc.there raw hr
    rw [hn, Option.some.injEq] at hn'
    rw [← hn', cStr_of_nulFree (pathNormalize_nulFree hn (hfits.nul raw hr))] at hthere
    exact hfresh q hq hthere
  constructor
  · intro hcom
    have hchars : ∀ raw ∈ rawNodes, ∀ p, pathNormalize raw = some p → p.all pathChar = true := by
      intro raw hr p hn
      have hok := hcom.ok
      split at hok
      · next hc =>
        have hm : p ∈ nodes := (hacc.mem p).mpr ⟨raw, hr, hn⟩
        obtain ⟨v, hv⟩ := Option.isSome_iff_exists.mp (Finmap.lookup_isSome.mpr hm)
        have hpath := zkPath_of_commitNodes (congrArg Prod.fst hc) _ ((mem_grayPairs hmap).mpr hv)
        rw [zkPath_normal hn (pathNormalize_nulFree hn (hfits.nul raw hr))] at hpath
        by_contra hno
        exact hpath (if_neg hno)
      · next hne => exact (hne _ (Prod.ext hok rfl)).elim
    obtain ⟨t', hc, hmem, -, hother⟩ := hacc.commitNodes_quiet hkeep hfits hchars
    have hb' := hb.congr hmem (fun q hq => hother q (hapart_map q hq))
    have hst := zkGrayDeleteNotify_stages (.quiet t') (grayGenerateId sec usec)
    rw [hc] at hcom
    dsimp only at hcom
    generalize zkGrayDeleteNotify (.quiet t') (grayGenerateId sec usec) = r at hcom hst
    obtain ⟨hlisted, hapart⟩ := hst.deletable hb' hnul
      (fun c hcl => hcom.gone _ (Or.inl ⟨c, hcl, rfl⟩))
    refine ⟨hchars, fun raw hr raw' hr' heq => ?_, hlisted, hapart⟩
    obtain ⟨p, hn, -⟩ := hacc.there raw hr
    obtain ⟨v, hv⟩ := Option.isSome_iff_exists.mp (Finmap.lookup_isSome.mpr hr)
    obtain ⟨v', hv'⟩ := Option.isSome_iff_exists.mp (Finmap.lookup_isSome.mpr hr')
    rw [hv, hv', ← hcom.value raw v p hv hn, ← hcom.value raw' v' p hv' (heq ▸ hn)]
  · intro hcan
    obtain ⟨t', hc, hmem, hval, hother⟩ := hacc.commitNodes_quiet hkeep hfits hcan.chars
    have hb' := hb.congr hmem (fun q hq => hother q (hapart_map q hq))
    obtain ⟨t₂, hd, he⟩ := hb'.delete_quiet hcan.listed hcan.apart
    rw [hc]
    dsimp only
    rw [hd]
    have hnot : ∀ q, (∀ raw ∈ rawNodes, pathNormalize raw ≠ some q) → q ∉ nodes := by
      intro q hq hm
      obtain ⟨raw, hr, hn⟩ := (hacc.mem q).mp hm
      exact hq raw hr hn
    have hrest : ∀ q, (∀ raw ∈ rawNodes, pathNormalize raw ≠ some q) →
        ¬ ReleaseNode clients (grayGenerateId sec usec) q →
        t₂.nodes.lookup q = zk₁.tree.nodes.lookup q :=
      fun q hq hr => (he.kept q hr).trans (hother q (hnot q hq))
    refine ⟨rfl, ?_, fun q hq hno => ?_, hrest, he.gone⟩
    · intro raw v p hv hn
      have hm : p ∈ nodes := (hacc.mem p).mpr ⟨raw, ZkTree.mem_of_lookup hv, hn⟩
      obtain ⟨w, hw⟩ := Option.isSome_iff_exists.mp (Finmap.lookup_isSome.mpr hm)
      obtain ⟨raw', hn', hv', -⟩ := hacc.value p w hw
      have hagree := hcan.agree raw (ZkTree.mem_of_lookup hv) raw' (ZkTree.mem_of_lookup hv')
        (hn.trans hn'.symm)
      rw [hv, hv', Option.some.injEq] at hagree
      rw [hagree]
      exact (he.kept p (fun hr => hapart_map p hr hm)).trans (hval p w hw)
    · exact (hrest q hno (fun hr => hfresh q hr hq)).trans (hkeep q hq)

/-- A tree with the nodes `/x` and `/y`, and a map that names `/x` twice. -/
def twoNodeTree : ZkTree :=
  match oneNodeTree.create [slash, 121] [55] with
  | .ok t => t
  | .error _ => oneNodeTree

def spellings : BytesMap :=
  ((Finmap.singleton [slash, 120] [49]).insert [slash, 120, slash] [49]).insert [slash, 121] [50]

def spellingsBegin : Ret × Zk := zkGrayBegin (.quiet twoNodeTree) spellings [[97], [98]] 1 2

theorem spellingsBegin_eq : zkGrayBegin (.quiet twoNodeTree) spellings [[97], [98]] 1 2 = (.ok, spellingsBegin.2) :=
  show spellingsBegin = _ from Prod.ext (by decide +kernel) rfl

/-- The release to two clients is committed. -/
theorem spellings_commit : Committed twoNodeTree spellingsBegin.2.tree spellings [[97], [98]]
    (grayGenerateId 1 2) (zkGrayCommit (.quiet spellingsBegin.2.tree) (grayGenerateId 1 2)) := by
  have hkeys : ∀ raw ∈ spellings.keys, NulFree raw ∧
      ∀ p ∈ pathNormalize raw, p.length < 65536 ∧ p.all pathChar = true := by decide +kernel
  have hraw := fun raw (hr : raw ∈ spellings) => hkeys raw (Finmap.mem_keys.mpr hr)
  have hagree : ∀ raw ∈ spellings.keys, ∀ raw' ∈ spellings.keys, pathNormalize raw = pathNormalize raw' →
      spellings.lookup raw = spellings.lookup raw' := by decide +kernel
  refine (@begun_commits_iff (.quiet twoNodeTree) spellingsBegin.2 spellings [[97], [98]] 1 2 spellingsBegin_eq
    (by decide) ⟨by decide +kernel, fun raw hr p hp => ((hraw raw hr).2 p hp).1, fun raw hr => (hraw raw hr).1⟩
    (contentNode_not_mem_of_short (by decide +kernel) _)).mpr
    ⟨fun raw hr p hp => ((hraw raw hr).2 p hp).2,
      fun raw hr raw' hr' => hagree raw (Finmap.mem_keys.mpr hr) raw' (Finmap.mem_keys.mpr hr'), by decide, ?_⟩
  show ∀ c ∈ [[97], [98]], ∀ d ∈ [[97], [98]], Above c d → c = d
  decide

/-- A tree with the node `/x y`, and a map that gives it the value `1`. -/
def spaceTree : ZkTree :=
  match ZkTree.empty.create [slash, 120, 32, 121] [] with
  | .ok t => t
  | .error _ => ZkTree.empty

def spaceMap : BytesMap := Finmap.singleton [slash, 120, 32, 121] [49]

def spaceBegin : Ret × Zk := zkGrayBegin (.quiet spaceTree) spaceMap [[97]] 1 2

/-- A begin accepts a path with a blank, and the commit rejects it. -/
theorem blank_in_path_stops_commit : spaceBegin.1 = .ok ∧
    ¬ Committed spaceTree spaceBegin.2.tree spaceMap [[97]] (grayGenerateId 1 2)
      (zkGrayCommit (.quiet spaceBegin.2.tree) (grayGenerateId 1 2)) := by
  refine ⟨by decide +kernel, fun h => absurd h.ok ?_⟩
  decide +kernel

end QConf.Manager
