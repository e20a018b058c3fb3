import QConf.Base.Common

/-!
# The record formats of `qconf_format.cc`

Table keys are a data type followed by the idc and the path; table values are a
payload followed by the key they belong to.  Every string inside stands behind
its length: one byte for an idc, two for a path, a host or a child name, four
for a node value.  The writers store `size()` in a fixed-width variable, so a
longer string gets its length reduced modulo `256 ^ w`; the readers check every
length against the end of the buffer.

The manager carries a copy of this file with the same functions.
-/

namespace QConf

open ByteCodec

/-! ### The string fields -/

/-- `sizeof(QCONF_IDC_SIZE_TYPE)`. -/
def idcSizeLen : Nat := 1
/-- `sizeof(QCONF_HOST_PATH_SIZE_TYPE)`. -/
def hostPathSizeLen : Nat := 2
/-- `sizeof(QCONF_VALUE_SIZE_TYPE)`. -/
def valueSizeLen : Nat := 4
/-- `sizeof(QCONF_VECTOR_COUNT_TYPE)`. -/
def vectorCountLen : Nat := 2

def qconfAppendIdc (s idc : Bytes) : Bytes := s ++ field idcSizeLen idc
def qconfAppendPath (s path : Bytes) : Bytes := s ++ field hostPathSizeLen path
def qconfAppendHost (s host : Bytes) : Bytes := s ++ field hostPathSizeLen host
def qconfAppendNodeval (s nodeval : Bytes) : Bytes := s ++ field valueSizeLen nodeval

def qconfSubIdc (s : Bytes) (pos : Nat) : Option (Bytes × Nat) := readField idcSizeLen s pos
def qconfSubPath (s : Bytes) (pos : Nat) : Option (Bytes × Nat) := readField hostPathSizeLen s pos
def qconfSubHost (s : Bytes) (pos : Nat) : Option (Bytes × Nat) := readField hostPathSizeLen s pos
def qconfSubNodeval (s : Bytes) (pos : Nat) : Option (Bytes × Nat) := readField valueSizeLen s pos

/-! ### Table keys -/

/-- The data types whose keys carry a path. -/
def HasPath (dataType : UInt8) : Prop :=
  dataType = dataTypeNode ∨ dataType = dataTypeService ∨ dataType = dataTypeBatchNode

instance (dataType : UInt8) : Decidable (HasPath dataType) :=
  inferInstanceAs (Decidable (_ ∨ _ ∨ _))

/-- `serialize_to_tblkey`: the return code and the key. -/
def serializeToTblkey (dataType : UInt8) (idc path : Bytes) : Ret × Bytes :=
  if HasPath dataType then
    (.ok, qconfAppendPath (qconfAppendIdc [dataType] idc) path)
  else if dataType = dataTypeZkHost then (.ok, qconfAppendIdc [dataType] idc)
  else if dataType = dataTypeLocalIdc then (.ok, [dataType])
  else (.errDataType, [dataType])

/-- `get_data_type`. -/
def getDataType (value : Bytes) : UInt8 := value.headD dataTypeUnknown

/-- The key alone, which is what the callers use. -/
def tblkeyOf (dataType : UInt8) (idc path : Bytes) : Bytes := (serializeToTblkey dataType idc path).2

/-- What `deserialize_from_tblkey` leaves in its arguments, which start empty.
The data type is left alone only when the key is empty. -/
structure TblkeyParts where
  ret : Ret
  dataType : Option UInt8 := none
  idc : Bytes := []
  path : Bytes := []
  deriving DecidableEq, Repr

/-- `deserialize_from_tblkey`. -/
def deserializeFromTblkey (tblkey : Bytes) : TblkeyParts :=
  match tblkey with
  | [] => { ret := .errDataFormat }
  | dataType :: _ =>
    if HasPath dataType then
      match qconfSubIdc tblkey 1 with
      | none => { ret := .errDataFormat, dataType := some dataType }
      | some (idc, pos) =>
        match qconfSubPath tblkey pos with
        | none => { ret := .errDataFormat, dataType := some dataType, idc := idc }
        | some (path, _) => { ret := .ok, dataType := some dataType, idc := idc, path := path }
    else if dataType = dataTypeZkHost then
      match qconfSubIdc tblkey 1 with
      | none => { ret := .errDataFormat, dataType := some dataType }
      | some (idc, _) => { ret := .ok, dataType := some dataType, idc := idc }
    else if dataType = dataTypeLocalIdc then { ret := .ok, dataType := some dataType }
    else { ret := .errDataType, dataType := some dataType }

theorem tblkeyOf_hasPath {t : UInt8} (h : HasPath t) (idc path : Bytes) :
    tblkeyOf t idc path = t :: (field idcSizeLen idc ++ field hostPathSizeLen path) := by
  rw [tblkeyOf, serializeToTblkey, if_pos h]
  rfl

theorem tblkeyOf_ne_nil (t : UInt8) (idc path : Bytes) : tblkeyOf t idc path ≠ [] := by
  unfold tblkeyOf serializeToTblkey
  split
  · simp [qconfAppendPath, qconfAppendIdc]
  split
  · simp [qconfAppendIdc]
  split <;> simp

theorem tblkeyOf_zkHost (idc path : Bytes) :
    tblkeyOf dataTypeZkHost idc path = dataTypeZkHost :: field idcSizeLen idc := by
  rw [tblkeyOf, serializeToTblkey, if_neg (by decide), if_pos rfl]
  rfl

/-- **The key codec round trip**, for an idc of at most 255 bytes and a path of
at most 65535. -/
theorem deserialize_tblkeyOf {t : UInt8} (h : HasPath t) {idc path : Bytes}
    (hidc : idc.length < 256) (hpath : path.length < 65536) (suf : Bytes) :
    deserializeFromTblkey (tblkeyOf t idc path ++ suf)
      = { ret := .ok, dataType := some t, idc := idc, path := path } := by
  have hkey : tblkeyOf t idc path ++ suf
      = [t] ++ field idcSizeLen idc ++ (field hostPathSizeLen path ++ suf) := by
    rw [tblkeyOf_hasPath h]; simp
  have h1 : qconfSubIdc (tblkeyOf t idc path ++ suf) 1 = some (idc, 2 + idc.length) := by
    rw [hkey]
    exact readField_append (w := idcSizeLen) hidc [t] _
  have h2 : qconfSubPath (tblkeyOf t idc path ++ suf) (2 + idc.length)
      = some (path, 2 + idc.length + 2 + path.length) := by
    have hlen : ([t] ++ field idcSizeLen idc).length = 2 + idc.length := by
      rw [List.length_append, field_length, List.length_singleton, idcSizeLen]; omega
    have := readField_append (w := hostPathSizeLen) hpath ([t] ++ field idcSizeLen idc) suf
    rw [hlen] at this
    rw [hkey, ← List.append_assoc]
    exact this
  have hcons : ∃ rest, tblkeyOf t idc path ++ suf = t :: rest := ⟨_, by rw [hkey]; rfl⟩
  obtain ⟨rest, hrest⟩ := hcons
  rw [hrest] at h1 h2 ⊢
  simp only [deserializeFromTblkey]
  rw [if_pos h, h1]
  simp only
  rw [h2]

/-- Two keys of one idc that are the same have the same path, whatever its length. -/
theorem tblkeyOf_path_inj {t t' : UInt8} (ht : HasPath t) (ht' : HasPath t') {idc p q : Bytes}
    (h : tblkeyOf t idc p = tblkeyOf t' idc q) : t = t' ∧ p = q := by
  rw [tblkeyOf_hasPath ht, tblkeyOf_hasPath ht', List.cons.injEq] at h
  refine ⟨h.1, ?_⟩
  have h2 := List.append_cancel_left h.2
  exact (List.append_inj h2 (by simp)).2

/-! ### Table values -/

/-- `nodeval_to_tblval`. -/
def nodevalToTblval (key nodeval : Bytes) : Bytes := qconfAppendNodeval [] nodeval ++ key

theorem nodevalToTblval_inj {key v w : Bytes} (h : nodevalToTblval key v = nodevalToTblval key w) : v = w := by
  rw [nodevalToTblval, nodevalToTblval, List.append_left_inj, qconfAppendNodeval, qconfAppendNodeval,
    List.nil_append, List.nil_append, field, field] at h
  exact (List.append_inj h (by simp)).2

/-- One child name as the list encoders write it: `strlen` is stored in a
two-byte variable, and that many bytes of the name follow. -/
def appendChild (name : Bytes) : Bytes :=
  let size := (cStr name).length % 65536
  leBytes hostPathSizeLen size ++ name.take size

/-- `chdnodeval_to_tblval`: only the children that are up are written. -/
def chdnodevalToTblval (key : Bytes) (nodes : List Bytes) (validFlg : List Status) : Bytes :=
  let valid := (nodes.zip validFlg).filter (fun p => p.2 = Status.up)
  leBytes vectorCountLen valid.length ++ valid.flatMap (fun p => appendChild p.1) ++ key

/-- `batchnodeval_to_tblval`. -/
def batchnodevalToTblval (key : Bytes) (nodes : List Bytes) : Bytes :=
  leBytes vectorCountLen nodes.length ++ nodes.flatMap appendChild ++ key

/-- What the four-argument `tblval_to_nodeval` leaves in its arguments, which
start empty at every call. -/
structure NodevalParts where
  ret : Ret
  nodeval : Bytes := []
  idc : Bytes := []
  path : Bytes := []
  deriving DecidableEq, Repr

/-- The four-argument `tblval_to_nodeval`. -/
def tblvalToNodeval (tblval : Bytes) : NodevalParts :=
  match qconfSubNodeval tblval 0 with
  | none => { ret := .errDataFormat }
  | some (nodeval, pos) =>
    if tblval[pos]? = some dataTypeNode then
      match qconfSubIdc tblval (pos + 1) with
      | none => { ret := .errDataFormat, nodeval := nodeval }
      | some (idc, pos) =>
        match qconfSubPath tblval pos with
        | none => { ret := .errDataFormat, nodeval := nodeval, idc := idc }
        | some (path, _) => { ret := .ok, nodeval := nodeval, idc := idc, path := path }
    else { ret := .errDataFormat, nodeval := nodeval }

/-- The key behind a payload, part by part. -/
theorem key_parts {t : UInt8} (ht : HasPath t) {idc path : Bytes} (hidc : idc.length < 256)
    (hpath : path.length < 65536) (pre suf : Bytes) :
    (pre ++ (tblkeyOf t idc path ++ suf))[pre.length]? = some t ∧
    qconfSubIdc (pre ++ (tblkeyOf t idc path ++ suf)) (pre.length + 1) =
      some (idc, pre.length + 2 + idc.length) ∧
    qconfSubPath (pre ++ (tblkeyOf t idc path ++ suf)) (pre.length + 2 + idc.length) =
      some (path, pre.length + 2 + idc.length + 2 + path.length) := by
  have hval : pre ++ (tblkeyOf t idc path ++ suf) =
      pre ++ [t] ++ field idcSizeLen idc ++ (field hostPathSizeLen path ++ suf) := by
    rw [tblkeyOf_hasPath ht]
    simp
  refine ⟨?_, ?_, ?_⟩
  · rw [tblkeyOf_hasPath ht, List.getElem?_append_right (Nat.le_refl _), Nat.sub_self]
    rfl
  · have := readField_append (w := idcSizeLen) hidc (pre ++ [t]) (field hostPathSizeLen path ++ suf)
    rw [List.length_append, List.length_singleton] at this
    rw [hval]
    exact this
  · have := readField_append (w := hostPathSizeLen) hpath (pre ++ [t] ++ field idcSizeLen idc) suf
    rw [List.length_append, List.length_append, field_length, List.length_singleton, idcSizeLen,
      ← Nat.add_assoc, List.append_assoc _ (field _ path)] at this
    rw [hval]
    exact this

/-- A node value is read up to the path, whatever follows it. -/
theorem tblvalToNodeval_append {v idc path : Bytes} (hv : v.length < 256 ^ 4)
    (hidc : idc.length < 256) (hpath : path.length < 65536) (suf : Bytes) :
    tblvalToNodeval (nodevalToTblval (tblkeyOf dataTypeNode idc path ++ suf) v)
      = { ret := .ok, nodeval := v, idc := idc, path := path } := by
  obtain ⟨hpos, h2, h3⟩ := key_parts (Or.inl rfl : HasPath dataTypeNode) hidc hpath
    (field valueSizeLen v) suf
  rw [field_length] at hpos h2 h3
  have h1 := readField_append (w := valueSizeLen) hv [] (tblkeyOf dataTypeNode idc path ++ suf)
  rw [List.nil_append, List.length_nil, Nat.zero_add] at h1
  change tblvalToNodeval (field valueSizeLen v ++ (tblkeyOf dataTypeNode idc path ++ suf)) = _
  rw [tblvalToNodeval, qconfSubNodeval, h1]
  simp only [hpos, h2, h3, if_true]

/-- **The node value round trip.** -/
theorem tblvalToNodeval_nodevalToTblval {v idc path : Bytes} (hv : v.length < 256 ^ 4)
    (hidc : idc.length < 256) (hpath : path.length < 65536) :
    tblvalToNodeval (nodevalToTblval (tblkeyOf dataTypeNode idc path) v)
      = { ret := .ok, nodeval := v, idc := idc, path := path } := by
  have := tblvalToNodeval_append hv hidc hpath []
  rwa [List.append_nil] at this

/-! ### Lists of names -/

/-- The loop of `qconf_sub_vectorval`. -/
def subNames (s : Bytes) : Nat → Nat → Option (List Bytes × Nat)
  | 0, pos => some ([], pos)
  | count + 1, pos =>
    match readField hostPathSizeLen s pos with
    | none => none
    | some (name, pos) => (subNames s count pos).map (fun r => (name :: r.1, r.2))

/-- `qconf_sub_vectorval`. -/
def qconfSubVectorval (s : Bytes) (pos : Nat) : Option (List Bytes × Nat) :=
  if s.length < pos + vectorCountLen then none
  else subNames s (leNat ((s.drop pos).take vectorCountLen)) (pos + vectorCountLen)

/-- What `tblval_to_vectorval` leaves in its arguments, which start empty. -/
structure VectorvalParts where
  ret : Ret
  nodes : List Bytes := []
  idc : Bytes := []
  path : Bytes := []
  deriving DecidableEq, Repr

/-- `tblval_to_vectorval`.  The names read before an error are freed by the
callers unseen. -/
def tblvalToVectorval (tblval : Bytes) (dataType : UInt8) : VectorvalParts :=
  match qconfSubVectorval tblval 0 with
  | none => { ret := .errDataFormat }
  | some (nodes, pos) =>
    if tblval[pos]? = some dataType then
      match qconfSubIdc tblval (pos + 1) with
      | none => { ret := .errDataFormat, nodes := nodes }
      | some (idc, pos) =>
        match qconfSubPath tblval pos with
        | none => { ret := .errDataFormat, nodes := nodes, idc := idc }
        | some (path, _) => { ret := .ok, nodes := nodes, idc := idc, path := path }
    else { ret := .errDataFormat, nodes := nodes }

/-- The four-argument `tblval_to_chdnodeval`. -/
def tblvalToChdnodeval (tblval : Bytes) : VectorvalParts := tblvalToVectorval tblval dataTypeService

/-- The four-argument `tblval_to_batchnodeval`. -/
def tblvalToBatchnodeval (tblval : Bytes) : VectorvalParts :=
  tblvalToVectorval tblval dataTypeBatchNode

theorem subNames_fields (suf : Bytes) : ∀ (names : List Bytes) (pre : Bytes),
    (∀ b ∈ names, b.length < 65536) →
    subNames (pre ++ names.flatMap (field hostPathSizeLen) ++ suf) names.length pre.length =
      some (names, (pre ++ names.flatMap (field hostPathSizeLen)).length) := by
  intro names
  induction names with
  | nil => intro pre _; simp [subNames]
  | cons b names ih =>
    intro pre hnames
    have hb := readField_append (w := hostPathSizeLen) (hnames b (List.mem_cons_self ..)) pre
      (names.flatMap (field hostPathSizeLen) ++ suf)
    have hrest := ih (pre ++ field hostPathSizeLen b) (fun c hc => hnames c (List.mem_cons_of_mem _ hc))
    rw [List.length_append, field_length, ← Nat.add_assoc] at hrest
    have hs : pre ++ (b :: names).flatMap (field hostPathSizeLen) ++ suf =
        pre ++ field hostPathSizeLen b ++ (names.flatMap (field hostPathSizeLen) ++ suf) := by
      simp
    rw [List.append_assoc] at hrest
    rw [hs, List.length_cons, subNames, hb]
    dsimp only
    rw [hrest]
    simp

/-- A child name stands in the list as a field. -/
theorem appendChild_eq (name : Bytes) : ∃ b : Bytes, b.length < 65536 ∧
    appendChild name = field hostPathSizeLen b := by
  have hle : (cStr name).length % 65536 ≤ name.length :=
    Nat.le_trans (Nat.mod_le _ _) (List.takeWhile_sublist _).length_le
  have hlen : (name.take ((cStr name).length % 65536)).length = (cStr name).length % 65536 := by
    rw [List.length_take, Nat.min_eq_left hle]
  refine ⟨name.take ((cStr name).length % 65536), ?_, ?_⟩
  · rw [hlen]
    exact Nat.mod_lt _ (by decide)
  · rw [field, hlen]
    rfl

theorem flatMap_appendChild (names : List Bytes) : ∃ bs : List Bytes, bs.length = names.length ∧
    (∀ b ∈ bs, b.length < 65536) ∧ names.flatMap appendChild = bs.flatMap (field hostPathSizeLen) := by
  induction names with
  | nil => exact ⟨[], rfl, by simp, rfl⟩
  | cons name names ih =>
    obtain ⟨b, hb, heq⟩ := appendChild_eq name
    obtain ⟨bs, hlen, hbs, heqs⟩ := ih
    refine ⟨b :: bs, by rw [List.length_cons, List.length_cons, hlen], ?_, ?_⟩
    · rintro c (_ | ⟨_, hc⟩)
      · exact hb
      · exact hbs c hc
    · rw [List.flatMap_cons, List.flatMap_cons, heq, heqs]

/-- **A list of fields is read back**, with the idc and the path behind it, whatever
follows them. -/
theorem tblvalToVectorval_fields {t : UInt8} (ht : HasPath t) {idc path : Bytes}
    (hidc : idc.length < 256) (hpath : path.length < 65536) {names : List Bytes}
    (hcount : names.length < 65536) (hnames : ∀ b ∈ names, b.length < 65536) (suf : Bytes) :
    tblvalToVectorval (leBytes vectorCountLen names.length ++ names.flatMap (field hostPathSizeLen) ++
      (tblkeyOf t idc path ++ suf)) t = { ret := .ok, nodes := names, idc := idc, path := path } := by
  have hread := subNames_fields (tblkeyOf t idc path ++ suf) names (leBytes vectorCountLen names.length)
    hnames
  obtain ⟨hpos, h2, h3⟩ := key_parts ht hidc hpath
    (leBytes vectorCountLen names.length ++ names.flatMap (field hostPathSizeLen)) suf
  have hsize : leNat ((leBytes vectorCountLen names.length ++ names.flatMap (field hostPathSizeLen) ++
      (tblkeyOf t idc path ++ suf)).take vectorCountLen) = names.length := by
    rw [List.append_assoc, List.take_left' (leBytes_length _ _), leNat_leBytes]
    exact Nat.mod_eq_of_lt hcount
  rw [leBytes_length] at hread
  rw [tblvalToVectorval, qconfSubVectorval, if_neg (by simp), List.drop_zero, hsize, Nat.zero_add,
    hread]
  simp only [hpos, h2, h3, if_true]

/-- A list of children is read up to its key. -/
theorem tblvalToVectorval_append {t : UInt8} (ht : HasPath t) {idc path : Bytes}
    (hidc : idc.length < 256) (hpath : path.length < 65536) {names : List Bytes}
    (hnames : names.length < 65536) (suf : Bytes) :
    ∃ nodes, tblvalToVectorval (leBytes vectorCountLen names.length ++ names.flatMap appendChild ++
        (tblkeyOf t idc path ++ suf)) t = { ret := .ok, nodes := nodes, idc := idc, path := path } := by
  obtain ⟨bs, hlen, hbs, heq⟩ := flatMap_appendChild names
  refine ⟨bs, ?_⟩
  rw [heq, ← hlen]
  exact tblvalToVectorval_fields ht hidc hpath (hlen ▸ hnames) hbs suf

theorem tblvalToVectorval_eq {t : UInt8} (ht : HasPath t) {idc path : Bytes} (hidc : idc.length < 256)
    (hpath : path.length < 65536) {names : List Bytes} (hnames : names.length < 65536) :
    ∃ nodes, tblvalToVectorval (leBytes vectorCountLen names.length ++ names.flatMap appendChild ++
        tblkeyOf t idc path) t = { ret := .ok, nodes := nodes, idc := idc, path := path } := by
  have := tblvalToVectorval_append ht hidc hpath hnames []
  rwa [List.append_nil] at this

/-! ### The short forms that the drivers use -/

/-- The two-argument `tblval_to_nodeval`: the return code and the value. -/
def tblvalToNodeval₂ (tblval : Bytes) : Ret × Bytes :=
  match qconfSubNodeval tblval 0 with
  | none => (.errDataFormat, [])
  | some (nodeval, pos) => (if tblval[pos]? = some dataTypeNode then .ok else .errDataFormat, nodeval)

/-- The body of the two-argument `tblval_to_chdnodeval` and `tblval_to_batchnodeval`: the
return code and the names. -/
def tblvalToNames (tblval : Bytes) (dataType : UInt8) : Ret × List Bytes :=
  match qconfSubVectorval tblval 0 with
  | none => (.errDataFormat, [])
  | some (nodes, pos) => (if tblval[pos]? = some dataType then .ok else .errDataFormat, nodes)

/-- The two-argument `tblval_to_chdnodeval`. -/
def tblvalToChdnodeval₂ (tblval : Bytes) : Ret × List Bytes := tblvalToNames tblval dataTypeService

/-- The two-argument `tblval_to_batchnodeval`. -/
def tblvalToBatchnodeval₂ (tblval : Bytes) : Ret × List Bytes := tblvalToNames tblval dataTypeBatchNode

/-! ### The idc and the host of a handle -/

/-- `serialize_to_idc_host`. -/
def serializeToIdcHost (idc host : Bytes) : Bytes := qconfAppendHost (qconfAppendIdc [] idc) host

/-- `deserialize_from_idc_host`: the return code, the idc and the host. -/
def deserializeFromIdcHost (idcHost : Bytes) : Ret × Bytes × Bytes :=
  match qconfSubIdc idcHost 0 with
  | none => (.errDataFormat, [], [])
  | some (idc, pos) =>
    match qconfSubHost idcHost pos with
    | none => (.errDataFormat, idc, [])
    | some (host, _) => (.ok, idc, host)

/-! ### The idc of the host and the hosts of an idc -/

/-- `localidc_to_tblval`. -/
def localidcToTblval (key localIdc : Bytes) : Bytes := qconfAppendIdc [] localIdc ++ key

/-- `tblval_to_localidc`: the return code and the idc. -/
def tblvalToLocalidc (tblval : Bytes) : Ret × Bytes :=
  match qconfSubIdc tblval 0 with
  | none => (.errDataFormat, [])
  | some (idc, pos) => (if tblval[pos]? = some dataTypeLocalIdc then .ok else .errDataFormat, idc)

/-- `idcval_to_tblval`. -/
def idcvalToTblval (key host : Bytes) : Bytes := qconfAppendHost [] host ++ key

/-- The three-argument `tblval_to_idcval`: the return code, the host and the idc. -/
def tblvalToIdcval (tblval : Bytes) : Ret × Bytes × Bytes :=
  match qconfSubHost tblval 0 with
  | none => (.errDataFormat, [], [])
  | some (host, pos) =>
    if tblval[pos]? = some dataTypeZkHost then
      match qconfSubIdc tblval (pos + 1) with
      | none => (.errDataFormat, host, [])
      | some (idc, _) => (.ok, host, idc)
    else (.errDataFormat, host, [])

/-- **The hosts of an idc round trip.** -/
theorem tblvalToIdcval_idcvalToTblval {idc host : Bytes} (hidc : idc.length < 256)
    (hhost : host.length < 65536) (path : Bytes) :
    tblvalToIdcval (idcvalToTblval (tblkeyOf dataTypeZkHost idc path) host) = (.ok, host, idc) := by
  have hval : idcvalToTblval (tblkeyOf dataTypeZkHost idc path) host =
      field hostPathSizeLen host ++ dataTypeZkHost :: field idcSizeLen idc := by
    rw [tblkeyOf_zkHost]
    rfl
  have h1 := readField_append (w := hostPathSizeLen) hhost [] (dataTypeZkHost :: field idcSizeLen idc)
  rw [List.nil_append, List.length_nil, Nat.zero_add] at h1
  have h2 := readField_append (w := idcSizeLen) hidc (field hostPathSizeLen host ++ [dataTypeZkHost]) []
  rw [List.append_nil, List.append_assoc, List.length_append, field_length, List.length_singleton,
    List.singleton_append] at h2
  have hpos : (field hostPathSizeLen host ++ dataTypeZkHost :: field idcSizeLen idc)[hostPathSizeLen +
      host.length]? = some dataTypeZkHost := by
    rw [List.getElem?_append_right (by rw [field_length]), field_length, Nat.sub_self]
    rfl
  rw [hval, tblvalToIdcval, qconfSubHost, h1]
  dsimp only
  rw [if_pos hpos, qconfSubIdc, h2]

end QConf
