import QConf.Base.Format

/-!
# What the decoders accept

`Format.lean` says that what was encoded is decoded again.  Here is the other
direction.  A decoder takes every length from the bytes it reads and checks it against the
end of the string, so whatever it accepts is a layout of strings behind their
lengths, followed by anything; and since a length has a fixed number of bytes, a
decoded string fits it.  So the round trips hold exactly as far as the lengths go.

The decoders of `Format.lean` cut pieces out of a list, which cannot go wrong.
The ones at the end of this file ask for every byte where the source does, and a
byte behind the end of the string is a failure; they never fail.
-/

namespace QConf

open ByteCodec

/-! ### Keys -/

section

variable {t : UInt8} {idc path s : Bytes} {pos : Nat}

/-- A key at a position is a written one. -/
theorem key_of_parts (ht : HasPath t) {pos₁ pos₂ : Nat} (htype : s[pos]? = some t)
    (hidc : qconfSubIdc s (pos + 1) = some (idc, pos₁)) (hpath : qconfSubPath s pos₁ = some (path, pos₂)) :
    idc.length < 256 ∧ path.length < 65536 ∧ s.drop pos = tblkeyOf t idc path ++ s.drop pos₂ := by
  refine ⟨(readField_some hidc).1, (readField_some hpath).1, ?_⟩
  obtain ⟨hlt, hget⟩ := List.getElem?_eq_some_iff.mp htype
  rw [List.drop_eq_getElem_cons hlt, hget, readField_drop hidc, readField_drop hpath, tblkeyOf_hasPath ht]
  simp

theorem deserialize_zkHost (hidc : idc.length < 256) :
    deserializeFromTblkey (tblkeyOf dataTypeZkHost idc path) =
      { ret := .ok, dataType := some dataTypeZkHost, idc := idc } := by
  have hread := readField_append (w := idcSizeLen) hidc [dataTypeZkHost] []
  rw [List.append_nil] at hread
  have hsub : qconfSubIdc (dataTypeZkHost :: field idcSizeLen idc) 1 =
      some (idc, 1 + idcSizeLen + idc.length) := hread
  rw [tblkeyOf_zkHost]
  simp only [deserializeFromTblkey]
  rw [if_neg (by decide), if_pos trivial, hsub]

/-- A decoded idc and a decoded path fit their lengths. -/
theorem deserializeFromTblkey_fits (key : Bytes) : (deserializeFromTblkey key).idc.length < 256 ∧
    (deserializeFromTblkey key).path.length < 65536 := by
  cases key with
  | nil => exact ⟨by decide, by decide⟩
  | cons b rest =>
    simp only [deserializeFromTblkey]
    split
    · split
      · exact ⟨by simp, by simp⟩
      · next hidc =>
        split
        · exact ⟨(readField_some hidc).1, by simp⟩
        · next hpath => exact ⟨(readField_some hidc).1, (readField_some hpath).1⟩
    · split
      · split
        · exact ⟨by simp, by simp⟩
        · next hidc => exact ⟨(readField_some hidc).1, by simp⟩
      · split <;> exact ⟨by simp, by simp⟩

theorem deserialize_idcHost {host : Bytes} (hidc : idc.length < 256) (hhost : host.length < 65536) :
    deserializeFromIdcHost (serializeToIdcHost idc host) = (.ok, idc, host) := by
  have h1 := readField_append (w := idcSizeLen) hidc [] (field hostPathSizeLen host)
  have h2 := readField_append (w := hostPathSizeLen) hhost (field idcSizeLen idc) []
  rw [List.append_nil, field_length] at h2
  rw [List.nil_append, List.length_nil, Nat.zero_add] at h1
  have hbuf : serializeToIdcHost idc host = field idcSizeLen idc ++ field hostPathSizeLen host := rfl
  rw [hbuf, deserializeFromIdcHost, qconfSubIdc, h1]
  dsimp only
  rw [qconfSubHost, h2]

theorem deserializeFromIdcHost_fits (idcHost : Bytes) :
    (deserializeFromIdcHost idcHost).2.1.length < 256 ∧
      (deserializeFromIdcHost idcHost).2.2.length < 65536 := by
  unfold deserializeFromIdcHost
  split
  · exact ⟨by simp, by simp⟩
  · next hidc =>
    split
    · exact ⟨(readField_some hidc).1, by simp⟩
    · next hhost => exact ⟨(readField_some hidc).1, (readField_some hhost).1⟩

end

/-- **The key codecs round trip exactly where the lengths fit.** -/
theorem key_codec_round_trip_iff (idc path host : Bytes) :
    (∀ t, HasPath t →
      (deserializeFromTblkey (tblkeyOf t idc path) =
          { ret := .ok, dataType := some t, idc := idc, path := path } ↔
        idc.length ≤ 255 ∧ path.length ≤ 65535)) ∧
    (deserializeFromTblkey (tblkeyOf dataTypeZkHost idc path) =
        { ret := .ok, dataType := some dataTypeZkHost, idc := idc } ↔ idc.length ≤ 255) ∧
    (deserializeFromIdcHost (serializeToIdcHost idc host) = (.ok, idc, host) ↔
      idc.length ≤ 255 ∧ host.length ≤ 65535) := by
  refine ⟨fun t ht => ⟨fun h => ?_, fun h => ?_⟩, ⟨fun h => ?_, fun h => ?_⟩, ⟨fun h => ?_, fun h => ?_⟩⟩
  · have hfits := deserializeFromTblkey_fits (tblkeyOf t idc path)
    rw [h] at hfits
    exact ⟨Nat.le_of_lt_succ hfits.1, Nat.le_of_lt_succ hfits.2⟩
  · have hround := deserialize_tblkeyOf ht (Nat.lt_succ_of_le h.1) (Nat.lt_succ_of_le h.2) []
    rwa [List.append_nil] at hround
  · have hfits := deserializeFromTblkey_fits (tblkeyOf dataTypeZkHost idc path)
    rw [h] at hfits
    exact Nat.le_of_lt_succ hfits.1
  · exact deserialize_zkHost (Nat.lt_succ_of_le h)
  · have hfits := deserializeFromIdcHost_fits (serializeToIdcHost idc host)
    rw [h] at hfits
    exact ⟨Nat.le_of_lt_succ hfits.1, Nat.le_of_lt_succ hfits.2⟩
  · exact deserialize_idcHost (Nat.lt_succ_of_le h.1) (Nat.lt_succ_of_le h.2)

/-- An idc of 256 bytes does not come back. -/
theorem key_codec_long_idc : HasPath dataTypeNode ∧
    deserializeFromTblkey (tblkeyOf dataTypeNode (List.replicate 256 105) [47]) ≠
      { ret := .ok, dataType := some dataTypeNode, idc := List.replicate 256 105, path := [47] } := by
  refine ⟨by decide, fun h => ?_⟩
  have hlen := (((key_codec_round_trip_iff (List.replicate 256 105) [47] []).1 dataTypeNode
    (by decide)).mp h).1
  rw [List.length_replicate] at hlen
  exact absurd hlen (by decide)

/-! ### Lists of names -/

section

variable {s : Bytes}

/-- The names that are read are the fields between the two positions. -/
theorem subNames_some : ∀ {count pos pos' : Nat} {names : List Bytes},
    subNames s count pos = some (names, pos') →
      names.length = count ∧ (∀ b ∈ names, b.length < 65536) ∧
        s.drop pos = names.flatMap (field hostPathSizeLen) ++ s.drop pos' ∧
        (pos ≤ s.length → pos' ≤ s.length) := by
  intro count
  induction count with
  | zero =>
    intro pos pos' names h
    obtain ⟨rfl, rfl⟩ := Prod.mk.inj (Option.some.inj h)
    exact ⟨rfl, by simp, rfl, id⟩
  | succ count ih =>
    intro pos pos' names h
    rw [subNames] at h
    split at h
    · exact absurd h (by simp)
    · next name pos₁ hread =>
      obtain ⟨⟨rest, pos₂⟩, hrest, heq⟩ := Option.map_eq_some_iff.mp h
      obtain ⟨rfl, rfl⟩ := Prod.mk.inj heq
      obtain ⟨hlen, hall, hdrop, hle⟩ := ih hrest
      obtain ⟨hname, -, hpos₁, -⟩ := readField_some hread
      refine ⟨by rw [List.length_cons, hlen], ?_, ?_, fun _ => hle hpos₁⟩
      · rintro b (_ | ⟨_, hb⟩)
        · exact hname
        · exact hall b hb
      · rw [readField_drop hread, hdrop, List.flatMap_cons, List.append_assoc]

/-- **A list that is read is a written one**: its number in two bytes and the names
behind their lengths. -/
theorem qconfSubVectorval_some {names : List Bytes} {pos : Nat}
    (h : qconfSubVectorval s 0 = some (names, pos)) :
    names.length < 65536 ∧ (∀ b ∈ names, b.length < 65536) ∧ pos ≤ s.length ∧
      s = leBytes vectorCountLen names.length ++ names.flatMap (field hostPathSizeLen) ++ s.drop pos := by
  unfold qconfSubVectorval at h
  split at h
  · exact absurd h (by simp)
  · next hlen =>
    rw [List.drop_zero, Nat.zero_add] at h
    obtain ⟨hcount, hall, hdrop, hle⟩ := subNames_some h
    have htake : (s.take vectorCountLen).length = vectorCountLen := by
      rw [List.length_take]
      omega
    have hlt := leNat_lt (s.take vectorCountLen)
    rw [htake] at hlt
    have hhead := leBytes_leNat (s.take vectorCountLen)
    rw [htake, ← hcount] at hhead
    refine ⟨by rw [hcount]; exact hlt, hall, hle (by omega), ?_⟩
    rw [hhead, List.append_assoc, ← hdrop, List.take_append_drop]

/-! ### Values -/

variable {v idc path : Bytes} {names : List Bytes} {t : UInt8}

/-- **A node value that is accepted is a written one.** -/
theorem tblvalToNodeval_some
    (h : tblvalToNodeval s = { ret := .ok, nodeval := v, idc := idc, path := path }) :
    v.length < 2 ^ 32 ∧ idc.length < 256 ∧ path.length < 65536 ∧
      ∃ tail, s = nodevalToTblval (tblkeyOf dataTypeNode idc path) v ++ tail := by
  unfold tblvalToNodeval at h
  split at h
  · exact absurd h (by simp)
  · next hval =>
    split at h
    · next htype =>
      split at h
      · exact absurd h (by simp)
      · next hidc =>
        split at h
        · exact absurd h (by simp)
        · next pos hpath =>
          simp only [NodevalParts.mk.injEq, true_and] at h
          obtain ⟨rfl, rfl, rfl⟩ := h
          obtain ⟨hidcLen, hpathLen, hdrop⟩ := key_of_parts (Or.inl rfl) htype hidc hpath
          refine ⟨(readField_some hval).1, hidcLen, hpathLen, s.drop pos, ?_⟩
          have hstart := readField_drop hval
          rw [List.drop_zero, hdrop, ← List.append_assoc] at hstart
          exact hstart
    · exact absurd h (by simp)

/-- **A list value that is accepted is a written one.** -/
theorem tblvalToVectorval_some (ht : HasPath t)
    (h : tblvalToVectorval s t = { ret := .ok, nodes := names, idc := idc, path := path }) :
    names.length < 65536 ∧ (∀ b ∈ names, b.length < 65536) ∧ idc.length < 256 ∧ path.length < 65536 ∧
      ∃ tail, s = leBytes vectorCountLen names.length ++ names.flatMap (field hostPathSizeLen) ++
        tblkeyOf t idc path ++ tail := by
  unfold tblvalToVectorval at h
  split at h
  · exact absurd h (by simp)
  · next hnames =>
    split at h
    · next htype =>
      split at h
      · exact absurd h (by simp)
      · next hidc =>
        split at h
        · exact absurd h (by simp)
        · next pos hpath =>
          simp only [VectorvalParts.mk.injEq, true_and] at h
          obtain ⟨rfl, rfl, rfl⟩ := h
          obtain ⟨hidcLen, hpathLen, hdrop⟩ := key_of_parts ht htype hidc hpath
          obtain ⟨hcount, hall, -, hstart⟩ := qconfSubVectorval_some hnames
          refine ⟨hcount, hall, hidcLen, hpathLen, s.drop pos, ?_⟩
          rw [hdrop, ← List.append_assoc] at hstart
          exact hstart
    · exact absurd h (by simp)

/-- A name without a NUL that fits its length is written as a field. -/
theorem appendChild_nulFree {name : Bytes} (hnul : NulFree name) (hlen : name.length < 65536) :
    appendChild name = field hostPathSizeLen name := by
  rw [appendChild, cStr_of_nulFree hnul, Nat.mod_eq_of_lt hlen, List.take_length]
  rfl

theorem flatMap_appendChild_nulFree (hnul : ∀ b ∈ names, NulFree b) (hlen : ∀ b ∈ names, b.length < 65536) :
    names.flatMap appendChild = names.flatMap (field hostPathSizeLen) := by
  rw [List.flatMap_def, List.flatMap_def, List.map_congr_left fun b hb =>
    appendChild_nulFree (hnul b hb) (hlen b hb)]

/-- **The list codec round trips exactly where the lengths fit.** -/
theorem vectorval_round_trip_iff (ht : HasPath t) (hidc : idc.length < 256) (hpath : path.length < 65536)
    (hnul : ∀ b ∈ names, NulFree b) :
    tblvalToVectorval (leBytes vectorCountLen names.length ++ names.flatMap appendChild ++
        tblkeyOf t idc path) t = { ret := .ok, nodes := names, idc := idc, path := path } ↔
      names.length ≤ 65535 ∧ ∀ b ∈ names, b.length ≤ 65535 := by
  constructor
  · intro h
    obtain ⟨hcount, hall, -⟩ := tblvalToVectorval_some ht h
    exact ⟨Nat.le_of_lt_succ hcount, fun b hb => Nat.le_of_lt_succ (hall b hb)⟩
  · rintro ⟨hcount, hall⟩
    have hall' : ∀ b ∈ names, b.length < 65536 := fun b hb => Nat.lt_succ_of_le (hall b hb)
    have hround := tblvalToVectorval_fields ht hidc hpath (Nat.lt_succ_of_le hcount) hall' []
    rw [List.append_nil] at hround
    rw [flatMap_appendChild_nulFree hnul hall']
    exact hround

end

/-- The names that are up, in their order. -/
def upNames (children : List (Bytes × Status)) : List Bytes :=
  (children.filter (fun c => c.2 = Status.up)).map Prod.fst

theorem chdnodevalToTblval_eq (key : Bytes) (children : List (Bytes × Status)) :
    chdnodevalToTblval key (children.map Prod.fst) (children.map Prod.snd) =
      leBytes vectorCountLen (upNames children).length ++ (upNames children).flatMap appendChild ++ key := by
  rw [chdnodevalToTblval, List.zip_map', upNames, List.length_map, List.flatMap_map]
  simp

/-- **The value codecs round trip exactly where the lengths fit**, for a key with an idc
of at most 255 bytes and a path of at most 65535. -/
theorem value_codec_round_trip_iff (idc path : Bytes) (hidc : idc.length ≤ 255) (hpath : path.length ≤ 65535) :
    (∀ v : Bytes, v.length < 2 ^ 32 →
      tblvalToNodeval (nodevalToTblval (tblkeyOf dataTypeNode idc path) v) =
        { ret := .ok, nodeval := v, idc := idc, path := path }) ∧
    (∀ children : List (Bytes × Status), (∀ c ∈ children, NulFree c.1) →
      (tblvalToChdnodeval (chdnodevalToTblval (tblkeyOf dataTypeService idc path)
          (children.map Prod.fst) (children.map Prod.snd)) =
          { ret := .ok, nodes := upNames children, idc := idc, path := path } ↔
        (upNames children).length ≤ 65535 ∧ ∀ b ∈ upNames children, b.length ≤ 65535)) ∧
    (∀ nodes : List Bytes, (∀ b ∈ nodes, NulFree b) →
      (tblvalToBatchnodeval (batchnodevalToTblval (tblkeyOf dataTypeBatchNode idc path) nodes) =
          { ret := .ok, nodes := nodes, idc := idc, path := path } ↔
        nodes.length ≤ 65535 ∧ ∀ b ∈ nodes, b.length ≤ 65535)) := by
  have hidc' := Nat.lt_succ_of_le hidc
  have hpath' := Nat.lt_succ_of_le hpath
  refine ⟨fun v hv => tblvalToNodeval_nodevalToTblval hv hidc' hpath', fun children hnul => ?_,
    fun nodes hnul => ?_⟩
  · rw [chdnodevalToTblval_eq, tblvalToChdnodeval]
    refine vectorval_round_trip_iff (Or.inr (Or.inl rfl)) hidc' hpath' (fun b hb => ?_)
    obtain ⟨c, hc, rfl⟩ := List.mem_map.mp hb
    exact hnul c (List.mem_of_mem_filter hc)
  · exact vectorval_round_trip_iff (Or.inr (Or.inr rfl)) hidc' hpath' hnul

/-- Of two children one is up. -/
theorem value_codec_two_children :
    tblvalToChdnodeval (chdnodevalToTblval (tblkeyOf dataTypeService [105] [47, 97])
        [[120], [121]] [Status.down, Status.up]) =
      { ret := .ok, nodes := [[121]], idc := [105], path := [47, 97] } :=
  ((value_codec_round_trip_iff [105] [47, 97] (by decide) (by decide)).2.1
    [([120], Status.down), ([121], Status.up)] (by decide)).mpr (by decide)

/-! ### Every byte that is read -/

/-- The `n` bytes at `pos`; `none` where one of them is behind the end of the string. -/
def bytesAt (s : Bytes) (pos n : Nat) : Option Bytes :=
  if pos + n ≤ s.length then some ((s.drop pos).take n) else none

/-- `qconf_string_sub`, with its reads: the return code, the string and the position. -/
def stringSub (w : Nat) (s : Bytes) (pos : Nat) : Option (Ret × Bytes × Nat) :=
  if pos + w ≤ s.length then do
    let size ← bytesAt s pos w
    let pos := pos + w
    if pos + leNat size ≤ s.length then do
      let sub ← bytesAt s pos (leNat size)
      some (.ok, sub, pos + leNat size)
    else some (.errDataFormat, [], pos)
  else some (.errDataFormat, [], pos)

/-- The loop of `qconf_sub_vectorval`, with its reads. -/
def namesSub (s : Bytes) : Nat → Nat → Option (Ret × List Bytes × Nat)
  | 0, pos => some (.ok, [], pos)
  | count + 1, pos => do
    let (ret, name, pos) ← stringSub hostPathSizeLen s pos
    if ret = .ok then do
      let (ret, names, pos) ← namesSub s count pos
      some (ret, name :: names, pos)
    else some (ret, [], pos)

/-- `qconf_sub_vectorval`, with its reads. -/
def vectorvalSub (s : Bytes) (pos : Nat) : Option (Ret × List Bytes × Nat) :=
  if s.length < pos + vectorCountLen then some (.errDataFormat, [], pos)
  else do
    let size ← bytesAt s pos vectorCountLen
    namesSub s (leNat size) (pos + vectorCountLen)

/-- The data type, the idc and the path behind a payload, with the reads: the return
code, the two strings and the position. -/
def keySub (s : Bytes) (dataType : UInt8) (pos : Nat) : Option (Ret × Bytes × Bytes × Nat) :=
  if s.length < pos + 1 then some (.errDataFormat, [], [], pos)
  else do
    let type ← bytesAt s pos 1
    if type = [dataType] then do
      let (ret, idc, pos) ← stringSub idcSizeLen s (pos + 1)
      if ret = .ok then do
        let (ret, path, pos) ← stringSub hostPathSizeLen s pos
        some (ret, idc, path, pos)
      else some (.errDataFormat, [], [], pos)
    else some (.errDataFormat, [], [], pos)

/-- The same without the reads. -/
def keyBehind (s : Bytes) (dataType : UInt8) (pos : Nat) : Ret × Bytes × Bytes :=
  if s[pos]? = some dataType then
    match qconfSubIdc s (pos + 1) with
    | none => (.errDataFormat, [], [])
    | some (idc, pos) =>
      match qconfSubPath s pos with
      | none => (.errDataFormat, idc, [])
      | some (path, _) => (.ok, idc, path)
  else (.errDataFormat, [], [])

/-- The four-argument `tblval_to_nodeval`, with its reads: the result and the position
it stops at. -/
def tblvalToNodevalReads (s : Bytes) : Option (NodevalParts × Nat) := do
  let (ret, nodeval, pos) ← stringSub valueSizeLen s 0
  if ret = .ok then do
    let (ret, idc, path, pos) ← keySub s dataTypeNode pos
    some ({ ret := ret, nodeval := nodeval, idc := idc, path := path }, pos)
  else some ({ ret := ret }, pos)

/-- `tblval_to_vectorval`, with its reads. -/
def tblvalToVectorvalReads (s : Bytes) (dataType : UInt8) : Option (VectorvalParts × Nat) := do
  let (ret, nodes, pos) ← vectorvalSub s 0
  if ret = .ok then do
    let (ret, idc, path, pos) ← keySub s dataType pos
    some ({ ret := ret, nodes := nodes, idc := idc, path := path }, pos)
  else some ({ ret := ret }, pos)

section

variable {s : Bytes} {pos w : Nat} {t : UInt8}

/-- `qconf_string_sub` reads inside the string, and it is the reader of a field. -/
theorem stringSub_eq (hpos : pos ≤ s.length) :
    (∃ b pos', readField w s pos = some (b, pos') ∧ stringSub w s pos = some (.ok, b, pos') ∧
      pos' ≤ s.length) ∨
    (∃ pos', readField w s pos = none ∧ stringSub w s pos = some (.errDataFormat, [], pos') ∧
      pos' ≤ s.length) := by
  unfold stringSub readField bytesAt
  by_cases hw : pos + w ≤ s.length
  · simp only [if_pos hw, Option.bind_eq_bind, Option.bind_some]
    by_cases hsize : pos + w + leNat ((s.drop pos).take w) ≤ s.length
    · simp only [if_pos hsize, Option.bind_some]
      exact Or.inl ⟨_, _, rfl, rfl, hsize⟩
    · rw [if_neg hsize, if_neg hsize]
      exact Or.inr ⟨_, rfl, rfl, hw⟩
  · rw [if_neg hw, if_neg hw]
    exact Or.inr ⟨_, rfl, rfl, hpos⟩

theorem namesSub_eq : ∀ (count : Nat) {pos : Nat}, pos ≤ s.length →
    (∃ names pos', subNames s count pos = some (names, pos') ∧
      namesSub s count pos = some (.ok, names, pos') ∧ pos' ≤ s.length) ∨
    (∃ names pos', subNames s count pos = none ∧
      namesSub s count pos = some (.errDataFormat, names, pos') ∧ pos' ≤ s.length) := by
  intro count
  induction count with
  | zero => intro pos hpos; exact Or.inl ⟨_, _, rfl, rfl, hpos⟩
  | succ count ih =>
    intro pos hpos
    rcases stringSub_eq (w := hostPathSizeLen) hpos with ⟨b, pos₁, hr, hs, h₁⟩ | ⟨pos₁, hr, hs, h₁⟩
    · rcases ih h₁ with ⟨names, pos₂, hr', hs', h₂⟩ | ⟨names, pos₂, hr', hs', h₂⟩
      · exact Or.inl ⟨b :: names, pos₂, by simp [subNames, hr, hr'], by simp [namesSub, hs, hs'], h₂⟩
      · exact Or.inr ⟨b :: names, pos₂, by simp [subNames, hr, hr'], by simp [namesSub, hs, hs'], h₂⟩
    · exact Or.inr ⟨[], pos₁, by simp [subNames, hr], by simp [namesSub, hs], h₁⟩

theorem vectorvalSub_eq :
    (∃ names pos', qconfSubVectorval s 0 = some (names, pos') ∧
      vectorvalSub s 0 = some (.ok, names, pos') ∧ pos' ≤ s.length) ∨
    (∃ names pos', qconfSubVectorval s 0 = none ∧
      vectorvalSub s 0 = some (.errDataFormat, names, pos') ∧ pos' ≤ s.length) := by
  unfold qconfSubVectorval vectorvalSub bytesAt
  by_cases hlen : s.length < 0 + vectorCountLen
  · rw [if_pos hlen, if_pos hlen]
    exact Or.inr ⟨_, _, rfl, rfl, Nat.zero_le _⟩
  · have hle : 0 + vectorCountLen ≤ s.length := Nat.not_lt.mp hlen
    simp only [if_neg hlen, if_pos hle, Option.bind_eq_bind, Option.bind_some]
    exact namesSub_eq _ hle

/-- The type byte is tested inside the string. -/
theorem typeAt_eq (hpos : pos + 1 ≤ s.length) (t : UInt8) :
    (s.drop pos).take 1 = [t] ↔ s[pos]? = some t := by
  rw [List.drop_eq_getElem_cons hpos, List.take_succ_cons, List.take_zero,
    List.getElem?_eq_getElem hpos]
  simp

theorem keySub_eq (hpos : pos ≤ s.length) (t : UInt8) : ∃ pos' ≤ s.length,
    keySub s t pos = some ((keyBehind s t pos).1, (keyBehind s t pos).2.1, (keyBehind s t pos).2.2, pos') := by
  unfold keySub keyBehind bytesAt
  by_cases hlen : s.length < pos + 1
  · refine ⟨pos, hpos, ?_⟩
    rw [if_pos hlen, List.getElem?_eq_none (by omega), if_neg (by simp)]
  · have hle : pos + 1 ≤ s.length := Nat.not_lt.mp hlen
    simp only [if_neg hlen, if_pos hle, Option.bind_eq_bind, Option.bind_some]
    by_cases htype : s[pos]? = some t
    · simp only [if_pos htype, if_pos ((typeAt_eq hle t).mpr htype)]
      rcases stringSub_eq (w := idcSizeLen) hle with ⟨idc, pos₁, hr, hs, h₁⟩ | ⟨pos₁, hr, hs, h₁⟩
      · rcases stringSub_eq (w := hostPathSizeLen) h₁ with ⟨path, pos₂, hr', hs', h₂⟩ | ⟨pos₂, hr', hs', h₂⟩
        · exact ⟨pos₂, h₂, by simp [hs, hs', qconfSubIdc, hr, qconfSubPath, hr']⟩
        · exact ⟨pos₂, h₂, by simp [hs, hs', qconfSubIdc, hr, qconfSubPath, hr']⟩
      · exact ⟨pos₁, h₁, by simp [hs, qconfSubIdc, hr]⟩
    · refine ⟨pos, hpos, ?_⟩
      rw [if_neg htype, if_neg fun h => htype ((typeAt_eq hle t).mp h)]

theorem tblvalToNodeval_eq {v : Bytes} (h : qconfSubNodeval s 0 = some (v, pos)) :
    tblvalToNodeval s = ⟨(keyBehind s dataTypeNode pos).1, v, (keyBehind s dataTypeNode pos).2.1,
      (keyBehind s dataTypeNode pos).2.2⟩ := by
  unfold tblvalToNodeval keyBehind
  rw [h]
  dsimp only
  by_cases htype : s[pos]? = some dataTypeNode
  · rw [if_pos htype, if_pos htype]
    cases qconfSubIdc s (pos + 1) with
    | none => rfl
    | some r => dsimp only; cases qconfSubPath s r.2 <;> rfl
  · rw [if_neg htype, if_neg htype]

theorem tblvalToVectorval_eq_parts {names : List Bytes} (h : qconfSubVectorval s 0 = some (names, pos)) :
    tblvalToVectorval s t = ⟨(keyBehind s t pos).1, names, (keyBehind s t pos).2.1,
      (keyBehind s t pos).2.2⟩ := by
  unfold tblvalToVectorval keyBehind
  rw [h]
  dsimp only
  by_cases htype : s[pos]? = some t
  · rw [if_pos htype, if_pos htype]
    cases qconfSubIdc s (pos + 1) with
    | none => rfl
    | some r => dsimp only; cases qconfSubPath s r.2 <;> rfl
  · rw [if_neg htype, if_neg htype]

/-- **`tblval_to_nodeval` reads inside the string.** -/
theorem tblvalToNodevalReads_eq (s : Bytes) :
    ∃ pos ≤ s.length, tblvalToNodevalReads s = some (tblvalToNodeval s, pos) := by
  unfold tblvalToNodevalReads
  rcases stringSub_eq (w := valueSizeLen) (Nat.zero_le s.length) with
    ⟨v, pos, hr, hs, hpos⟩ | ⟨pos, hr, hs, hpos⟩
  · obtain ⟨pos', hpos', hk⟩ := keySub_eq hpos dataTypeNode
    refine ⟨pos', hpos', ?_⟩
    rw [tblvalToNodeval_eq hr, hs]
    simp only [Option.bind_eq_bind, Option.bind_some, if_true, hk]
  · refine ⟨pos, hpos, ?_⟩
    rw [tblvalToNodeval, qconfSubNodeval, hr, hs]
    rfl

/-- **`tblval_to_vectorval` reads inside the string.** -/
theorem tblvalToVectorvalReads_eq (s : Bytes) (t : UInt8) :
    ∃ pos ≤ s.length, tblvalToVectorvalReads s t = some (tblvalToVectorval s t, pos) := by
  unfold tblvalToVectorvalReads
  rcases vectorvalSub_eq (s := s) with ⟨names, pos, hr, hs, hpos⟩ | ⟨names, pos, hr, hs, hpos⟩
  · obtain ⟨pos', hpos', hk⟩ := keySub_eq hpos t
    refine ⟨pos', hpos', ?_⟩
    rw [tblvalToVectorval_eq_parts hr, hs]
    simp only [Option.bind_eq_bind, Option.bind_some, if_true, hk]
  · refine ⟨pos, hpos, ?_⟩
    rw [tblvalToVectorval, hr, hs]
    rfl

/-! ### The short forms -/

/-- What the long form accepts, the short form accepts. -/
theorem tblvalToNodeval₂_of_ok (h : (tblvalToNodeval s).ret = .ok) :
    tblvalToNodeval₂ s = (.ok, (tblvalToNodeval s).nodeval) := by
  unfold tblvalToNodeval at h ⊢
  unfold tblvalToNodeval₂
  split at h
  · exact absurd h (by simp)
  · split at h
    · next htype =>
      simp only [if_pos htype]
      split at h
      · exact absurd h (by simp)
      · split at h
        · exact absurd h (by simp)
        · rfl
    · exact absurd h (by simp)

theorem tblvalToNames_of_ok (h : (tblvalToVectorval s t).ret = .ok) :
    tblvalToNames s t = (.ok, (tblvalToVectorval s t).nodes) := by
  unfold tblvalToVectorval at h ⊢
  unfold tblvalToNames
  split at h
  · exact absurd h (by simp)
  · split at h
    · next htype =>
      simp only [if_pos htype]
      split at h
      · exact absurd h (by simp)
      · split at h
        · exact absurd h (by simp)
        · rfl
    · exact absurd h (by simp)

/-- A list value is accepted exactly where it is a written one. -/
theorem tblvalToVectorval_ok_iff (ht : HasPath t) (names : List Bytes) (idc path : Bytes) :
    tblvalToVectorval s t = { ret := .ok, nodes := names, idc := idc, path := path } ↔
      names.length < 65536 ∧ (∀ b ∈ names, b.length < 65536) ∧ idc.length < 256 ∧
        path.length < 65536 ∧
        ∃ tail, s = leBytes vectorCountLen names.length ++ names.flatMap (field hostPathSizeLen) ++
          tblkeyOf t idc path ++ tail := by
  refine ⟨tblvalToVectorval_some ht, ?_⟩
  rintro ⟨hcount, hall, hidc, hpath, tail, rfl⟩
  rw [List.append_assoc _ (tblkeyOf t idc path)]
  exact tblvalToVectorval_fields ht hidc hpath hcount hall tail

end

/-- **The value decoders accept exactly the encodings.**  For any string at all: a result is
accepted exactly where the string is the payload behind its full lengths, the key, and
anything; no byte behind the end of the string is read and the position stays inside it;
and the short form accepts what the long one accepts, with the same payload. -/
theorem value_decoders_accept_exactly_encodings (s : Bytes) :
    (∀ v idc path, tblvalToNodeval s = { ret := .ok, nodeval := v, idc := idc, path := path } ↔
      v.length < 2 ^ 32 ∧ idc.length < 256 ∧ path.length < 65536 ∧
        ∃ tail, s = nodevalToTblval (tblkeyOf dataTypeNode idc path) v ++ tail) ∧
    (∀ names idc path,
      tblvalToChdnodeval s = { ret := .ok, nodes := names, idc := idc, path := path } ↔
        names.length < 65536 ∧ (∀ b ∈ names, b.length < 65536) ∧ idc.length < 256 ∧
          path.length < 65536 ∧
          ∃ tail, s = leBytes vectorCountLen names.length ++ names.flatMap (field hostPathSizeLen) ++
            tblkeyOf dataTypeService idc path ++ tail) ∧
    (∀ names idc path,
      tblvalToBatchnodeval s = { ret := .ok, nodes := names, idc := idc, path := path } ↔
        names.length < 65536 ∧ (∀ b ∈ names, b.length < 65536) ∧ idc.length < 256 ∧
          path.length < 65536 ∧
          ∃ tail, s = leBytes vectorCountLen names.length ++ names.flatMap (field hostPathSizeLen) ++
            tblkeyOf dataTypeBatchNode idc path ++ tail) ∧
    (∃ pos ≤ s.length, tblvalToNodevalReads s = some (tblvalToNodeval s, pos)) ∧
    (∃ pos ≤ s.length,
      tblvalToVectorvalReads s dataTypeService = some (tblvalToChdnodeval s, pos)) ∧
    (∃ pos ≤ s.length,
      tblvalToVectorvalReads s dataTypeBatchNode = some (tblvalToBatchnodeval s, pos)) ∧
    ((tblvalToNodeval s).ret = .ok → tblvalToNodeval₂ s = (.ok, (tblvalToNodeval s).nodeval)) ∧
    ((tblvalToChdnodeval s).ret = .ok → tblvalToChdnodeval₂ s = (.ok, (tblvalToChdnodeval s).nodes)) ∧
    ((tblvalToBatchnodeval s).ret = .ok →
      tblvalToBatchnodeval₂ s = (.ok, (tblvalToBatchnodeval s).nodes)) := by
  refine ⟨fun v idc path => ⟨tblvalToNodeval_some, ?_⟩,
    tblvalToVectorval_ok_iff (Or.inr (Or.inl rfl)), tblvalToVectorval_ok_iff (Or.inr (Or.inr rfl)),
    tblvalToNodevalReads_eq s, tblvalToVectorvalReads_eq s _, tblvalToVectorvalReads_eq s _,
    tblvalToNodeval₂_of_ok, tblvalToNames_of_ok, tblvalToNames_of_ok⟩
  rintro ⟨hv, hidc, hpath, tail, rfl⟩
  rw [nodevalToTblval, List.append_assoc]
  exact tblvalToNodeval_append hv hidc hpath tail

/-- A value with a byte behind its key is accepted by both forms. -/
theorem value_decoders_accept_tail :
    tblvalToNodeval₂ (nodevalToTblval (tblkeyOf dataTypeNode [105] [47]) [118] ++ [0]) = (.ok, [118]) := by
  obtain ⟨hnode, -, -, -, -, -, hshort, -⟩ := value_decoders_accept_exactly_encodings
    (nodevalToTblval (tblkeyOf dataTypeNode [105] [47]) [118] ++ [0])
  have hlong := (hnode [118] [105] [47]).mpr ⟨by decide, by decide, by decide, [0], rfl⟩
  rw [hlong] at hshort
  exact hshort rfl

end QConf
