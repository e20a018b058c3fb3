import QConf.Base.Shm.Set

/-!
# The lookups of a client

A client computes the table key of a request, reads the table, and where there is
no value sends the key to the agent and polls (`qconf_get_` of `driver_api.cc`).
The key is all that identifies the request, so two requests with one key get each
other's values.

The key writes the length of the idc in one byte, and nothing bounds the idc.  Two
different requests share a key exactly when the idc of one is that of the other
with more bytes behind it, 256 or a multiple, and these bytes are how the path of
the other begins (`Wraps`).  So keys tell all requests apart whose idcs have at most 255
bytes, and no longer ones (`lookups_share_key_only_if_equal_iff`).
-/

namespace QConf.Driver

open Shm Qhasharr ByteCodec

/-! ### `qconf_get_` -/

/-- `QCONF_MAX_MSG_LEN`. -/
def maxMsgLen : Nat := 2048
/-- `QCONF_MAX_SEND_MSG_TIMES`. -/
def maxSendMsgTimes : Nat := 3
/-- `QCONF_MAX_GET_TIMES`. -/
def maxGetTimes : Nat := 100

/-- What `msgsnd` may answer. -/
inductive SendAnswer
  | sent
  | again
  | failed
  deriving DecidableEq, Repr

/-- The loop of `send_msg`, with the answers of the calls and the tries that are left. -/
def sendLoop (answer : Nat → SendAnswer) : Nat → Nat → Ret
  | 0, _ => .errMsgfull
  | tries + 1, i =>
    match answer i with
    | .sent => .ok
    | .again => sendLoop answer tries (i + 1)
    | .failed => .errMsgsnd

/-- `send_msg`. -/
def sendMsg (answer : Nat → SendAnswer) (msg : Bytes) : Ret :=
  if msg = [] then .errParam
  else if msg.length ≥ maxMsgLen then .errE2big
  else sendLoop answer maxSendMsgTimes 0

/-- What the other processes do while a lookup runs: the table at each read, and the
answers of `msgsnd`. -/
structure Env where
  tbl : Nat → Tbl
  answer : Nat → SendAnswer

section

variable (md5 : Bytes → Bytes) (hashFn : Bytes → Nat)

/-- The polling loop of `qconf_get_`, with the reads that are left. -/
def pollLoop (env : Env) (tblkey : Bytes) : Nat → Nat → Ret × Bytes → Ret × Bytes
  | 0, _, last => last
  | left + 1, i, _ =>
    match hashTblGet md5 hashFn (env.tbl i) tblkey with
    | (.ok, tblval) => (.ok, tblval)
    | r => pollLoop env tblkey left (i + 1) r

/-- The idc that `qconf_get_` uses. -/
def resolveIdc (env : Env) (idc : Bytes) : Ret × Bytes :=
  if idc = [] then qconfGetLocalidc md5 hashFn (env.tbl 0) else (.ok, idc)

/-- `qconf_get_` behind the resolution of the idc: the return code and the value. -/
def qconfGetResolved (env : Env) (dtype : UInt8) (idc path : Bytes) (nowait : Bool) : Ret × Bytes :=
  match serializeToTblkey dtype idc path with
  | (.ok, tblkey) =>
    match hashTblGet md5 hashFn (env.tbl 1) tblkey with
    | (.ok, tblval) => (.ok, tblval)
    | r =>
      match sendMsg env.answer tblkey with
      | .ok => if nowait then r else pollLoop md5 hashFn env tblkey maxGetTimes 2 r
      | ret => (ret, r.2)
  | (ret, _) => (ret, [])

/-- `qconf_get_`. -/
def qconfGet_ (env : Env) (dtype : UInt8) (idc path : Bytes) (nowait : Bool) : Ret × Bytes :=
  match resolveIdc md5 hashFn env idc with
  | (.ok, idc) => qconfGetResolved md5 hashFn env dtype idc path nowait
  | (ret, _) => (ret, [])

end

/-! ### Requests and their keys -/

/-- A request, with its idc resolved. -/
structure Request where
  dataType : UInt8
  idc : Bytes
  path : Bytes
  deriving DecidableEq, Repr

def Request.key (r : Request) : Bytes := tblkeyOf r.dataType r.idc r.path

/-- A request of one of the three lookups whose key `send_msg` accepts. -/
structure Request.Admitted (r : Request) : Prop where
  dataType : HasPath r.dataType
  short : r.key.length < maxMsgLen

instance (r : Request) : Decidable r.Admitted :=
  decidable_of_iff (HasPath r.dataType ∧ r.key.length < maxMsgLen)
    ⟨fun h => ⟨h.1, h.2⟩, fun h => ⟨h.1, h.2⟩⟩

/-- The idc of `r'` is that of `r` and a nonzero multiple of 256 bytes more, and the
path of `r` with its length is these bytes and the path of `r'` with its length. -/
def Wraps (r r' : Request) : Prop :=
  r.dataType = r'.dataType ∧ r.idc.length < r'.idc.length ∧
  256 ∣ r'.idc.length - r.idc.length ∧ r.idc = r'.idc.take r.idc.length ∧
  field hostPathSizeLen r.path = r'.idc.drop r.idc.length ++ field hostPathSizeLen r'.path

instance (r r' : Request) : Decidable (Wraps r r') := inferInstanceAs (Decidable (_ ∧ _ ∧ _ ∧ _ ∧ _))

section

variable {md5 : Bytes → Bytes} {hashFn : Bytes → Nat} {r r' : Request}

/-- A lookup depends on its request through the key alone. -/
theorem qconfGetResolved_congr (hr : HasPath r.dataType) (hr' : HasPath r'.dataType)
    (hkey : r.key = r'.key) (env : Env) (nowait : Bool) :
    qconfGetResolved md5 hashFn env r.dataType r.idc r.path nowait =
      qconfGetResolved md5 hashFn env r'.dataType r'.idc r'.path nowait := by
  have hser : ∀ q : Request, HasPath q.dataType →
      serializeToTblkey q.dataType q.idc q.path = (.ok, q.key) := by
    intro q hq
    rw [Request.key, tblkeyOf, serializeToTblkey, if_pos hq]
  rw [qconfGetResolved, qconfGetResolved, hser r hr, hser r' hr', hkey]

theorem Request.Admitted.key_eq (h : r.Admitted) :
    r.key = r.dataType :: (leBytes idcSizeLen r.idc.length ++
      (r.idc ++ field hostPathSizeLen r.path)) := by
  rw [Request.key, tblkeyOf_hasPath h.dataType, field, List.append_assoc]

theorem Request.Admitted.path_lt (h : r.Admitted) : r.path.length < 256 ^ hostPathSizeLen := by
  have hlen := congrArg List.length h.key_eq
  simp only [List.length_cons, List.length_append, leBytes_length, field_length] at hlen
  have hshort := h.short
  rw [maxMsgLen] at hshort
  change r.path.length < 65536
  omega

/-- The length bytes of two idcs agree when their lengths do modulo 256. -/
theorem leBytes_idc_eq_iff {a b : Nat} :
    leBytes idcSizeLen a = leBytes idcSizeLen b ↔ a % 256 = b % 256 := by
  constructor
  · intro h
    have hnat := congrArg leNat h
    rwa [leNat_leBytes, leNat_leBytes] at hnat
  · intro h
    change [UInt8.ofNat a] = [UInt8.ofNat b]
    congr 1
    apply UInt8.toNat_inj.mp
    rw [UInt8.toNat_ofNat', UInt8.toNat_ofNat']
    exact h

/-- What two equal keys say of their requests. -/
theorem key_eq_iff (h : r.Admitted) (h' : r'.Admitted) :
    r.key = r'.key ↔ r.dataType = r'.dataType ∧ r.idc.length % 256 = r'.idc.length % 256 ∧
      r.idc ++ field hostPathSizeLen r.path = r'.idc ++ field hostPathSizeLen r'.path := by
  rw [h.key_eq, h'.key_eq, List.cons.injEq, ← leBytes_idc_eq_iff]
  refine and_congr_right (fun _ => ?_)
  constructor
  · intro heq
    exact List.append_inj heq (by rw [leBytes_length, leBytes_length])
  · rintro ⟨hlen, hrest⟩
    rw [hlen, hrest]

/-- A request and one whose idc is longer share a key exactly when the longer wraps. -/
theorem key_eq_iff_wraps (h : r.Admitted) (h' : r'.Admitted) (hlt : r.idc.length < r'.idc.length) :
    r.key = r'.key ↔ Wraps r r' := by
  rw [key_eq_iff h h', Wraps]
  refine and_congr_right (fun _ => ?_)
  constructor
  · rintro ⟨hmod, happ⟩
    have htake := congrArg (List.take r.idc.length) happ
    have hdrop := congrArg (List.drop r.idc.length) happ
    rw [List.take_left, List.take_append_of_le_length (Nat.le_of_lt hlt)] at htake
    rw [List.drop_left, List.drop_append_of_le_length (Nat.le_of_lt hlt)] at hdrop
    exact ⟨hlt, by omega, htake, hdrop⟩
  · rintro ⟨-, hdvd, htake, hfield⟩
    refine ⟨by omega, ?_⟩
    rw [hfield, ← List.append_assoc]
    congr 1
    rw [htake, List.length_take, Nat.min_eq_left (Nat.le_of_lt hlt), List.take_append_drop]

/-- Two requests with idcs of one length and one key are the same. -/
theorem eq_of_key_eq (h : r.Admitted) (h' : r'.Admitted) (hlen : r.idc.length = r'.idc.length)
    (hkey : r.key = r'.key) : r = r' := by
  obtain ⟨htype, -, happ⟩ := (key_eq_iff h h').mp hkey
  obtain ⟨hidc, hfield⟩ := List.append_inj happ hlen
  have hpath := field_append_inj (x := []) (y := []) h.path_lt h'.path_lt
    (by rw [List.append_nil, List.append_nil, hfield])
  obtain ⟨t, idc, path⟩ := r
  obtain ⟨t', idc', path'⟩ := r'
  simp only [Request.mk.injEq]
  exact ⟨htype, hidc, hpath.1⟩

/-- **When two lookups share a table key**: where the idc of one wraps into the path of the other. -/
theorem eq_of_key_eq_iff (h : r.Admitted) (h' : r'.Admitted) :
    (r.key = r'.key → r = r') ↔ ¬ Wraps r r' ∧ ¬ Wraps r' r := by
  rcases Nat.lt_trichotomy r.idc.length r'.idc.length with hlt | heq | hgt
  · have hother : ¬ Wraps r' r := fun hw => absurd hw.2.1 (by omega)
    have hne : r ≠ r' := by
      rintro rfl
      exact Nat.lt_irrefl _ hlt
    rw [key_eq_iff_wraps h h' hlt]
    exact ⟨fun himp => ⟨fun hw => hne (himp hw), hother⟩, fun hno hw => absurd hw hno.1⟩
  · refine ⟨fun _ => ⟨fun hw => absurd hw.2.1 (by omega), fun hw => absurd hw.2.1 (by omega)⟩,
      fun _ => eq_of_key_eq h h' heq⟩
  · have hother : ¬ Wraps r r' := fun hw => absurd hw.2.1 (by omega)
    have hne : r ≠ r' := by
      rintro rfl
      exact Nat.lt_irrefl _ hgt
    rw [eq_comm (a := r.key), key_eq_iff_wraps h' h hgt]
    exact ⟨fun himp => ⟨hother, fun hw => hne (himp hw)⟩, fun hno hw => absurd hw hno.2⟩

/-- An idc that wraps has 256 bytes at least. -/
theorem Wraps.le_length (h : Wraps r r') : 256 ≤ r'.idc.length := by
  obtain ⟨-, hlt, hdvd, -⟩ := h
  have hle := Nat.le_of_dvd (Nat.sub_pos_of_lt hlt) hdvd
  omega

end

/-- A request with the empty idc and a path of 257 bytes. -/
def emptyIdc : Request := ⟨dataTypeNode, [], List.replicate 254 97 ++ [1, 0, 47]⟩

/-- A request with an idc of 256 bytes and the path `/`. -/
def idcOf256 : Request := ⟨dataTypeNode, [1, 1] ++ List.replicate 254 97, [47]⟩

/-- **Which lookups never share a table key.**  The keys that `send_msg` accepts tell all requests
apart whose idcs have at most `n` bytes, exactly if `n` is at most 255; and requests with one key get
the same answers, whatever the table holds. -/
theorem lookups_share_key_only_if_equal_iff (n : Nat) :
    ((∀ r r' : Request, r.Admitted → r'.Admitted → r.idc.length ≤ n → r'.idc.length ≤ n →
      r.key = r'.key → r = r') ↔ n ≤ 255) ∧
    ∀ r r' : Request, r.Admitted → r'.Admitted → r.key = r'.key → ∀ md5 hashFn env nowait,
      qconfGetResolved md5 hashFn env r.dataType r.idc r.path nowait =
        qconfGetResolved md5 hashFn env r'.dataType r'.idc r'.path nowait := by
  refine ⟨⟨fun hall => ?_, fun hn r r' h h' hidc hidc' => ?_⟩, fun r r' h h' hkey md5 hashFn env nowait =>
    qconfGetResolved_congr h.dataType h'.dataType hkey env nowait⟩
  · by_contra hn
    have hlong : idcOf256.idc.length ≤ n := by
      rw [show idcOf256.idc.length = 256 by decide +kernel]
      omega
    exact absurd (hall emptyIdc idcOf256 (by decide +kernel) (by decide +kernel) (Nat.zero_le n) hlong
      (by decide +kernel)) (by decide +kernel)
  · refine (eq_of_key_eq_iff h h').mpr ⟨fun hw => ?_, fun hw => ?_⟩
    · exact absurd hw.le_length (by omega)
    · exact absurd hw.le_length (by omega)

/-! ### A shared key -/

/-- A request with the idc `i` and a path of 257 bytes. -/
def shortIdc : Request := ⟨dataTypeNode, [105], List.replicate 254 97 ++ [1, 0, 47]⟩

/-- A request with an idc of 257 bytes and the path `/`. -/
def longIdc : Request := ⟨dataTypeNode, [105, 1, 1] ++ List.replicate 254 97, [47]⟩

/-- **A value cached for one request is returned for another.**  The two requests are
different and accepted, they have one key, and a client that asks for one gets what
was stored for the other. -/
theorem wrapped_idc_shares_key :
    shortIdc ≠ longIdc ∧ shortIdc.Admitted ∧ longIdc.Admitted ∧ shortIdc.key = longIdc.key ∧
    (hashTblSet zeroMd5 firstByte (Store.init 9) longIdc.key [7]).map (fun s =>
      qconfGet_ zeroMd5 firstByte ⟨fun _ => s.2.tbl, fun _ => .sent⟩ shortIdc.dataType shortIdc.idc
        shortIdc.path true) = some (.ok, [7]) := by
  decide +kernel

end QConf.Driver
