import QConf.Base.Shm.Evict

/-!
# The restart of the agent

A new agent attaches to the table and fills a fresh recency list from it
(`LRU::initLruMem`).  The iteration finds every entry by its first slot
(`getnextLoop_eq`).  A slot has only the first 32 bytes of a key, so the key is
read from the end of the value; where the values were written by the encoders
this is the key they were stored under, and afterwards every stored key except
`a` is in the list (`initLruMem_holds`).
-/

namespace QConf.Shm

open Qhasharr

/-! ### The iteration over the table -/

section

variable {md5 : Bytes → Bytes} {hashFn : Bytes → Nat} {t : Tbl} {es : List Entry}

/-- The slots that `qhasharr_getnext` stops at are the first slots. -/
theorem skip_iff (h : Rep md5 hashFn t es) (i : Nat) :
    ((t.slots i).count = 0 ∨ (t.slots i).count = -2) ↔ ∀ e ∈ es, e.head ≠ i := by
  constructor
  · rintro hc e he rfl
    have := h.first e he
    omega
  · intro hno
    by_contra hc
    obtain ⟨e, he, hie⟩ := mem_used.mp (h.mem_used_iff.mpr (fun h0 => hc (Or.inl h0)))
    rcases List.mem_cons.mp hie with rfl | hit
    · exact hno e he rfl
    · exact hc (Or.inr ((h.entry e he).ext i hit))

theorem name_eq (h : Rep md5 hashFn t es) {e : Entry} (he : e ∈ es) (hk : e.key.length < 65536) :
    (t.slots e.head).key.take (min (t.slots e.head).keylen keysize) = e.key.take keysize := by
  rw [(h.entry e he).key.keylen, Nat.mod_eq_of_lt hk, (h.entry e he).key.bytes]

/-- **`qhasharr_getnext` finds the next first slot**, or the end of the table. -/
theorem getnextLoop_eq (h : Rep md5 hashFn t es) (hk : ∀ e ∈ es, e.key.length < 65536) :
    ∀ (fuel idx : Nat), idx + fuel = t.maxslots →
    ((∀ e ∈ es, e.head < idx) ∧ getnextLoop t fuel idx = (.error .enoent, t.maxslots)) ∨
    (∃ e ∈ es, idx ≤ e.head ∧ (∀ f ∈ es, f.head < e.head → f.head < idx) ∧
      getnextLoop t fuel idx = (.ok (e.key.take keysize, e.value), e.head + 1)) := by
  intro fuel
  induction fuel with
  | zero =>
    rintro idx rfl
    exact Or.inl ⟨fun e he => h.lt e.head (mem_used.mpr ⟨e, he, e.head_mem⟩), rfl⟩
  | succ fuel ih =>
    intro idx hidx
    rw [getnextLoop]
    by_cases hskip : (t.slots idx).count = 0 ∨ (t.slots idx).count = -2
    · rw [if_pos hskip]
      have hne := (skip_iff h idx).mp hskip
      rcases ih (idx + 1) (by omega) with ⟨hall, heq⟩ | ⟨e, he, hle, hleast, heq⟩
      · refine Or.inl ⟨fun e he => ?_, heq⟩
        have := hall e he
        have := hne e he
        omega
      · refine Or.inr ⟨e, he, by omega, fun f hf hlt => ?_, heq⟩
        have := hleast f hf hlt
        have := hne f hf
        omega
    · rw [if_neg hskip]
      simp only [skip_iff h, not_forall, not_not] at hskip
      obtain ⟨e, he, rfl⟩ := hskip
      refine Or.inr ⟨e, he, Nat.le_refl _, fun f _ hlt => hlt, ?_⟩
      rw [h.getData_eq he, name_eq h he (hk e he)]

end

/-! ### Values that end with their key -/

/-- A value that one of the five encoders builds from the key it is stored under. -/
inductive Built : Bytes → Bytes → Prop
  | node {idc path nodeval : Bytes} (hidc : idc.length < 256) (hpath : path.length < 65536)
      (hval : nodeval.length < 2 ^ 32) :
      Built (tblkeyOf dataTypeNode idc path) (nodevalToTblval (tblkeyOf dataTypeNode idc path) nodeval)
  | service {idc path : Bytes} {nodes : List Bytes} {validFlg : List Status} (hidc : idc.length < 256)
      (hpath : path.length < 65536)
      (hnodes : ((nodes.zip validFlg).filter (fun p => p.2 = Status.up)).length < 65536) :
      Built (tblkeyOf dataTypeService idc path)
        (chdnodevalToTblval (tblkeyOf dataTypeService idc path) nodes validFlg)
  | batchNode {idc path : Bytes} {nodes : List Bytes} (hidc : idc.length < 256)
      (hpath : path.length < 65536) (hnodes : nodes.length < 65536) :
      Built (tblkeyOf dataTypeBatchNode idc path)
        (batchnodevalToTblval (tblkeyOf dataTypeBatchNode idc path) nodes)
  | zkHost {idc host : Bytes} (hidc : idc.length < 256) (hhost : host.length < 65536) :
      Built (tblkeyOf dataTypeZkHost idc []) (idcvalToTblval (tblkeyOf dataTypeZkHost idc []) host)
  | localIdc (localIdc : Bytes) : Built localIdcKey (localidcToTblval localIdcKey localIdc)

/-- The key fits a slot and the value was built from it. -/
def BuiltWithin (key val : Bytes) : Prop := Built key val ∧ key.length < 65536 ∧ val.length < 2 ^ 31

/-- A value the agent stores under a key: the encoders put the key at its end. -/
inductive Encoded : Bytes → Bytes → Prop
  | localIdc (val : Bytes) : Encoded localIdcKey val
  | node {idc path nodeval : Bytes} (hidc : idc.length < 256) (hpath : path.length < 65536)
      (hne : path ≠ []) (hval : nodeval.length < 2 ^ 32) :
      Encoded (tblkeyOf dataTypeNode idc path)
        (nodevalToTblval (tblkeyOf dataTypeNode idc path) nodeval)
  | service {idc path : Bytes} {nodes : List Bytes} {validFlg : List Status} (hidc : idc.length < 256)
      (hpath : path.length < 65536) (hne : path ≠ [])
      (hnodes : ((nodes.zip validFlg).filter (fun p => p.2 = Status.up)).length < 65536) :
      Encoded (tblkeyOf dataTypeService idc path)
        (chdnodevalToTblval (tblkeyOf dataTypeService idc path) nodes validFlg)
  | batchNode {idc path : Bytes} {nodes : List Bytes} (hidc : idc.length < 256)
      (hpath : path.length < 65536) (hne : path ≠ []) (hnodes : nodes.length < 65536) :
      Encoded (tblkeyOf dataTypeBatchNode idc path)
        (batchnodevalToTblval (tblkeyOf dataTypeBatchNode idc path) nodes)

/-- Every entry of the table was written by the encoders, under a key that looks
like the one it is found by. -/
def AllEncoded (md5 : Bytes → Bytes) (hashFn : Bytes → Nat) (t : Tbl) : Prop :=
  ∀ key w, key.length < 65536 → qhasharrGet md5 hashFn t key = some w →
    ∃ key' val, digest md5 hashFn t.maxslots key' = digest md5 hashFn t.maxslots key ∧
      Encoded key' val ∧ val.length < 2 ^ 32 ∧ w = frameValue md5 val

theorem hashTblGetnext_ok {md5 : Bytes → Bytes} {t : Tbl} {idx idx' : Nat} {name data val idc path : Bytes}
    (hget : qhasharrGetnext t idx = (.ok (name, data), idx'))
    (hverify : qconfVerify md5 data = (.ok, val))
    (hparts : keyParts (getDataType name) val = (.ok, idc, path)) :
    hashTblGetnext md5 t idx = (.ok, some (tblkeyOf (getDataType name) idc path, val), idx') := by
  rw [hashTblGetnext, hget]
  dsimp only
  rw [hverify]
  dsimp only
  rw [hparts, if_pos rfl]

theorem getDataType_take {t : UInt8} {key rest : Bytes} (h : key = t :: rest) :
    getDataType (key.take keysize) = t := by
  rw [h]
  rfl

/-- What `hash_tbl_getnext` reads from the value is the key. -/
def Rebuilds (key val : Bytes) : Prop :=
  ∃ idc path, keyParts (getDataType (key.take keysize)) val = (.ok, idc, path) ∧
    tblkeyOf (getDataType (key.take keysize)) idc path = key

theorem Rebuilds.ne_nil {key val : Bytes} (h : Rebuilds key val) : key ≠ [] := by
  obtain ⟨idc, path, -, hkey⟩ := h
  rw [← hkey]
  exact tblkeyOf_ne_nil _ idc path

section

variable {idc path : Bytes}

theorem rebuilds_localIdc (val : Bytes) : Rebuilds localIdcKey val := ⟨[], [], rfl, rfl⟩

theorem rebuilds_node {nodeval : Bytes} (hidc : idc.length < 256) (hpath : path.length < 65536)
    (hval : nodeval.length < 2 ^ 32) :
    Rebuilds (tblkeyOf dataTypeNode idc path) (nodevalToTblval (tblkeyOf dataTypeNode idc path) nodeval) := by
  unfold Rebuilds
  rw [getDataType_take (tblkeyOf_hasPath (Or.inl rfl) idc path), keyParts, if_pos rfl,
    tblvalToNodeval_nodevalToTblval hval hidc hpath]
  exact ⟨idc, path, rfl, rfl⟩

theorem rebuilds_service {nodes : List Bytes} {validFlg : List Status} (hidc : idc.length < 256)
    (hpath : path.length < 65536)
    (hnodes : ((nodes.zip validFlg).filter (fun p => p.2 = Status.up)).length < 65536) :
    Rebuilds (tblkeyOf dataTypeService idc path)
      (chdnodevalToTblval (tblkeyOf dataTypeService idc path) nodes validFlg) := by
  have ht : HasPath dataTypeService := Or.inr (Or.inl rfl)
  obtain ⟨names, hdec⟩ : ∃ names, tblvalToVectorval
      (chdnodevalToTblval (tblkeyOf dataTypeService idc path) nodes validFlg) dataTypeService =
        { ret := .ok, nodes := names, idc := idc, path := path } := by
    have hlen : (((nodes.zip validFlg).filter (fun p => p.2 = Status.up)).map Prod.fst).length < 65536 := by
      rw [List.length_map]
      exact hnodes
    have := tblvalToVectorval_eq ht hidc hpath hlen
    rwa [List.length_map, List.flatMap_map] at this
  unfold Rebuilds
  rw [getDataType_take (tblkeyOf_hasPath ht idc path), keyParts, if_neg (by decide), if_pos rfl,
    tblvalToChdnodeval, hdec]
  exact ⟨idc, path, rfl, rfl⟩

theorem rebuilds_batchNode {nodes : List Bytes} (hidc : idc.length < 256) (hpath : path.length < 65536)
    (hnodes : nodes.length < 65536) :
    Rebuilds (tblkeyOf dataTypeBatchNode idc path)
      (batchnodevalToTblval (tblkeyOf dataTypeBatchNode idc path) nodes) := by
  have ht : HasPath dataTypeBatchNode := Or.inr (Or.inr rfl)
  obtain ⟨names, hdec⟩ := tblvalToVectorval_eq ht hidc hpath hnodes
  unfold Rebuilds
  rw [getDataType_take (tblkeyOf_hasPath ht idc path), keyParts, if_neg (by decide),
    if_neg (by decide), if_pos rfl, tblvalToBatchnodeval, batchnodevalToTblval, hdec]
  exact ⟨idc, path, rfl, rfl⟩

theorem rebuilds_zkHost {host : Bytes} (hidc : idc.length < 256) (hhost : host.length < 65536) :
    Rebuilds (tblkeyOf dataTypeZkHost idc []) (idcvalToTblval (tblkeyOf dataTypeZkHost idc []) host) := by
  unfold Rebuilds
  rw [getDataType_take (tblkeyOf_zkHost idc []), keyParts, if_neg (by decide), if_neg (by decide),
    if_neg (by decide), if_pos rfl, tblvalToIdcval_idcvalToTblval hidc hhost]
  exact ⟨idc, [], rfl, rfl⟩

/-- **The key is rebuilt from the value** of each of the encoders. -/
theorem Built.rebuilds {key val : Bytes} (h : Built key val) : Rebuilds key val := by
  cases h with
  | node hidc hpath hval => exact rebuilds_node hidc hpath hval
  | service hidc hpath hnodes => exact rebuilds_service hidc hpath hnodes
  | batchNode hidc hpath hnodes => exact rebuilds_batchNode hidc hpath hnodes
  | zkHost hidc hhost => exact rebuilds_zkHost hidc hhost
  | localIdc localIdc => exact rebuilds_localIdc _

theorem Encoded.rebuilds {key val : Bytes} (h : Encoded key val) : Rebuilds key val := by
  cases h with
  | localIdc => exact rebuilds_localIdc _
  | node hidc hpath hne hval => exact rebuilds_node hidc hpath hval
  | service hidc hpath hne hnodes => exact rebuilds_service hidc hpath hnodes
  | batchNode hidc hpath hne hnodes => exact rebuilds_batchNode hidc hpath hnodes

theorem path_ne_nil {t : UInt8} (ht : HasPath t) (hidc : idc.length < 256) (hpath : path.length < 65536)
    (hne : path ≠ []) : (deserializeFromTblkey (tblkeyOf t idc path)).path ≠ [] := by
  have hround := deserialize_tblkeyOf ht hidc hpath []
  rw [List.append_nil] at hround
  rw [hround]
  exact hne

theorem Encoded.key_path {key val : Bytes} (h : Encoded key val) :
    key = localIdcKey ∨ (deserializeFromTblkey key).path ≠ [] := by
  cases h with
  | localIdc => exact Or.inl rfl
  | node hidc hpath hne hval => exact Or.inr (path_ne_nil (Or.inl rfl) hidc hpath hne)
  | service hidc hpath hne hnodes => exact Or.inr (path_ne_nil (Or.inr (Or.inl rfl)) hidc hpath hne)
  | batchNode hidc hpath hne hnodes => exact Or.inr (path_ne_nil (Or.inr (Or.inr rfl)) hidc hpath hne)

end

/-! ### Filling the list -/

section

variable {md5 : Bytes → Bytes} {hashFn : Bytes → Nat} {n : Nat} {t : Tbl} {m : BytesMap}

/-- **One call of `hash_tbl_getnext`** on a table whose values rebuild their keys: the end, or
the next entry with the key it was stored under. -/
theorem getnext_rebuilt {P : Bytes → Bytes → Prop} (hP : ∀ {key val}, P key val → Rebuilds key val)
    (hmd5 : ∀ b, (md5 b).length = md5IntLen) (hsees : Sees md5 hashFn n t m)
    (hstored : ∀ k w, m.lookup k = some w → ∃ key val, seenAs md5 hashFn n key = k ∧ P key val ∧
      val.length < 2 ^ 32 ∧ w = frameValue md5 val) {es : List Entry}
    (hrep : Rep md5 hashFn t es) (hmem : ∀ k v, (k, v) ∈ contents es ↔ m.lookup k = some v) {idx : Nat}
    (hidx : idx < t.maxslots) :
    ((∀ e ∈ es, e.head < idx) ∧ hashTblGetnext md5 t idx = (.errTblEnd, none, t.maxslots + 1)) ∨
    (∃ e ∈ es, idx ≤ e.head ∧ (∀ f ∈ es, f.head < e.head → f.head < idx) ∧
      ∃ key val, seenAs md5 hashFn n key = e.key ∧ P key val ∧ val.length < 2 ^ 32 ∧
        e.value = frameValue md5 val ∧ hashTblGetnext md5 t idx = (.ok, some (key, val), e.head + 1)) := by
  have hkeys := entry_key_mem hmem hsees.keys
  rcases getnextLoop_eq hrep (fun e he => (hkeys e he).1) (t.maxslots - idx) idx (by omega) with
    ⟨hall, heq⟩ | ⟨e, he, hle, hleast, heq⟩
  · refine Or.inl ⟨hall, ?_⟩
    rw [hashTblGetnext, qhasharrGetnext, heq]
    simp
  · refine Or.inr ⟨e, he, hle, hleast, ?_⟩
    obtain ⟨key, val, hseen, hkv, hval, hw⟩ := hstored e.key e.value
      ((hmem _ _).mp (mem_contents.mpr ⟨e, he, rfl, rfl⟩))
    refine ⟨key, val, hseen, hkv, hval, hw, ?_⟩
    obtain ⟨idc, path, hparts, hkey⟩ := hP hkv
    have htake : e.key.take keysize = key.take keysize := by
      have hdig := seenAs_eq_iff.mp (hseen.trans (hkeys e he).2.symm)
      exact (congrArg (fun d => d.2.1) hdig).symm
    rw [htake, hw] at heq
    rw [hashTblGetnext_ok heq (verify_frameValue hmd5 hval) hparts, hkey]

theorem AllEncoded.stored (hn : 0 < n) (hsees : Sees md5 hashFn n t m) (henc : AllEncoded md5 hashFn t)
    (k w : Bytes) (hk : m.lookup k = some w) : ∃ key val, seenAs md5 hashFn n key = k ∧
      (Encoded key val ∧ key.length < 65536) ∧ val.length < 2 ^ 32 ∧ w = frameValue md5 val := by
  obtain ⟨hlen, hseen⟩ := hsees.keys k (Finmap.lookup_isSome.mp (by rw [hk]; rfl))
  obtain ⟨key, val, hdig, hkv, hval, hw⟩ := henc k w hlen (by rw [hsees.get hn hlen, hseen, hk])
  rw [hsees.maxslots] at hdig
  refine ⟨key, val, ?_, ⟨hkv, ?_⟩, hval, hw⟩
  · rw [seenAs_eq_iff.mpr hdig, hseen]
  · rw [show key.length = k.length from congrArg Prod.fst hdig]
    exact hlen

/-- **`LRU::initLruMem` lists every stored key except `a`.** -/
theorem initLruMem_holds (hmd5 : ∀ b, (md5 b).length = md5IntLen) (hn : 0 < n)
    (hsees : Sees md5 hashFn n t m) (henc : AllEncoded md5 hashFn t) (errno : Option Errno) :
    ∃ l, initLruMem md5 t = some (true, l) ∧ Holds md5 hashFn n ⟨t, l, errno⟩ m := by
  obtain ⟨es, hrep, -, hmem⟩ := hsees.entries
  -- the list covers the entries in front of the index
  have hloop : ∀ (fuel idx : Nat) (l : Lru), t.maxslots ≤ idx + fuel → l.Ok →
      (∀ x ∈ l.keys, x ≠ [] ∧ x.length < 65536 ∧ x ≠ localIdcKey) →
      (∀ e ∈ es, e.head < idx → e.key = localIdcKey ∨ ∃ x ∈ l.keys, seenAs md5 hashFn n x = e.key) →
      ∃ l', initLruLoop md5 t fuel idx l = some (true, l') ∧ l'.Ok ∧
        (∀ x ∈ l'.keys, x ≠ [] ∧ x.length < 65536 ∧ x ≠ localIdcKey) ∧
        ∀ e ∈ es, e.key = localIdcKey ∨ ∃ x ∈ l'.keys, seenAs md5 hashFn n x = e.key := by
    intro fuel
    induction fuel with
    | zero =>
      intro idx l hfuel hok hlisted hcov
      rw [initLruLoop, if_neg (by omega)]
      refine ⟨l, rfl, hok, hlisted, fun e he => hcov e he ?_⟩
      have := hrep.lt e.head (mem_used.mpr ⟨e, he, e.head_mem⟩)
      omega
    | succ fuel ih =>
      intro idx l hfuel hok hlisted hcov
      rw [initLruLoop]
      by_cases hidx : idx < t.maxslots
      · rw [if_pos hidx]
        rcases getnext_rebuilt (fun h => Encoded.rebuilds h.1) hmd5 hsees (henc.stored hn hsees) hrep hmem
          hidx with ⟨hall, heq⟩ | ⟨e, he, hle, hleast, key, val, hseen, ⟨hkv, hlen⟩, -, -, heq⟩
        · rw [heq]
          exact ih (t.maxslots + 1) l (by omega) hok hlisted (fun e he _ => hcov e he (hall e he))
        · rw [heq]
          dsimp only
          -- `a` has no path and is not listed
          have hvisit : (if (deserializeFromTblkey key).path ≠ [] then l.visitKey key else l) =
              l.visitKey key := by
            rcases hkv.key_path with rfl | hp
            · rw [Lru.keys_visitKey_localIdc, ite_self]
            · rw [if_pos hp]
          rw [hvisit]
          refine ih (e.head + 1) _ (by omega) (hok.visitKey key) (fun x hx => ?_) (fun f hf hlt => ?_)
          · rcases (mem_keys_visitKey hok key x).mp hx with ⟨rfl, hloc⟩ | hx
            · exact ⟨hkv.rebuilds.ne_nil, hlen, hloc⟩
            · exact hlisted x hx
          · rcases Nat.lt_succ_iff_lt_or_eq.mp hlt with hlt | heq
            · rcases hcov f hf (hleast f hf hlt) with hf | ⟨x, hx, hxf⟩
              · exact Or.inl hf
              · exact Or.inr ⟨x, (mem_keys_visitKey hok key x).mpr (Or.inr hx), hxf⟩
            · -- the entry just visited
              obtain rfl := hrep.eq_of_mem hf he f.head_mem (heq ▸ e.head_mem)
              by_cases hloc : key = localIdcKey
              · rw [hloc, seenAs_localIdcKey] at hseen
                exact Or.inl hseen.symm
              · exact Or.inr ⟨key, (mem_keys_visitKey hok key key).mpr (Or.inl ⟨rfl, hloc⟩), hseen⟩
      · rw [if_neg hidx]
        refine ⟨l, rfl, hok, hlisted, fun e he => hcov e he ?_⟩
        have := hrep.lt e.head (mem_used.mpr ⟨e, he, e.head_mem⟩)
        omega
  obtain ⟨l, hl, hok, hlisted, hcov⟩ := hloop t.maxslots 0 .empty (by omega) Lru.ok_empty
    (by simp [Lru.keys, Lru.empty]) (fun e _ h => absurd h (Nat.not_lt_zero _))
  refine ⟨l, hl, hsees, hok, hlisted, fun k hk => ?_⟩
  obtain ⟨v, hv⟩ := Option.isSome_iff_exists.mp (Finmap.lookup_isSome.mpr hk)
  obtain ⟨e, he, rfl, -⟩ := mem_contents.mp ((hmem k v).mpr hv)
  exact hcov e he

end

end QConf.Shm
