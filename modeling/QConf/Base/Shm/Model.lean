import QConf.Base.Format
import QConf.Base.Qhasharr.Model

/-!
# The shared-memory store of `qconf_shm.cc`

The agent keeps its values in one `qhasharr` table.  `hash_tbl_set` wraps a value
into a frame with its length and a check, and makes room by evicting the keys
that were set least recently; `LRU` is the list of them.  A reader takes the
frame apart again (`qconf_verify`).

The list of `LRU` is a `std::list` and its map holds iterators into it; here a
node of the list carries its address, and an iterator is such an address.
`errno` is part of the state since the loop of `hash_tbl_set_` is steered by it.
What a read leaves in `errno` is not kept: a put or a remove that fails sets it
anew unless the table has no slots, and then a read does not set it either.
-/

namespace QConf.Shm

open Qhasharr ByteCodec

/-! ### Frames -/

/-- `NEED_MD5_TBLLEN`. -/
def needMd5Tbllen : Nat := 1024
/-- `QCONF_MD5_INT_LEN`. -/
def md5IntLen : Nat := 16

/-- The bytes `hash_tbl_set` stores: the length in four bytes, the value, and the
value again or its MD5. -/
def frameValue (md5 : Bytes → Bytes) (val : Bytes) : Bytes :=
  let valSize := val.length % 2 ^ 32
  leBytes valueSizeLen valSize ++ val ++
    if valSize > needMd5Tbllen then md5 (val.take valSize) else val

/-- `qconf_verify` of a string that stands in memory in front of `beyond`: the return code and
what its argument holds afterwards.  Of a string shorter than four bytes the length is read past
its end. -/
def qconfVerifyIn (md5 : Bytes → Bytes) (beyond tblval : Bytes) : Ret × Bytes :=
  let valSize := leNat ((tblval ++ beyond).take valueSizeLen)
  let val := (tblval.drop valueSizeLen).take valSize
  let veri := tblval.drop (valueSizeLen + valSize)
  if valSize > needMd5Tbllen then
    if tblval.length < valueSizeLen + valSize + md5IntLen then (.errTblDataMess, tblval)
    else if md5 val = veri.take md5IntLen then (.ok, val)
    else (.errTblDataMess, tblval)
  else if tblval.length < valueSizeLen + valSize * 2 then (.errTblDataMess, tblval)
  else if val = veri.take valSize then (.ok, val)
  else (.errTblDataMess, tblval)

/-- `qconf_verify`.  What stands behind the string makes no difference (`qconfVerifyIn_eq`). -/
def qconfVerify (md5 : Bytes → Bytes) (tblval : Bytes) : Ret × Bytes := qconfVerifyIn md5 [] tblval

/-! ### The recency list -/

/-- `QCONF_KEY_TYPE_LOCAL_IDC`, the key `a`. -/
def localIdcKey : Bytes := [dataTypeLocalIdc]

/-- `class LRU`. -/
structure Lru where
  /-- the nodes, most recent first, each with its address -/
  lruMem : List (Nat × Bytes)
  keyToIterator : Finmap (fun _ : Bytes => Nat)
  /-- an address that was never used -/
  fresh : Nat

def Lru.empty : Lru := ⟨[], ∅, 0⟩

def Lru.keys (l : Lru) : List Bytes := l.lruMem.map Prod.snd

/-- `LRU::getRemoveKey`. -/
def Lru.getRemoveKey (l : Lru) : Bytes := (l.lruMem.getLast?.map Prod.snd).getD []

/-- `LRU::removeKey`, which is never called on an empty list. -/
def Lru.removeKey (l : Lru) : Lru :=
  match l.lruMem.getLast? with
  | none => l
  | some (_, key) =>
    { l with lruMem := l.lruMem.dropLast, keyToIterator := l.keyToIterator.erase key }

def Lru.pushFront (l : Lru) (key : Bytes) : Lru where
  lruMem := (l.fresh, key) :: l.lruMem
  keyToIterator := l.keyToIterator.insert key l.fresh
  fresh := l.fresh + 1

/-- `LRU::visitKey`. -/
def Lru.visitKey (l : Lru) (key : Bytes) : Lru :=
  if key = localIdcKey then l
  else
    match l.keyToIterator.lookup key with
    | none => l.pushFront key
    | some it => { l with lruMem := l.lruMem.filter (fun p => p.1 ≠ it) }.pushFront key

/-! ### The operations -/

/-- The table, the recency list of the process and its `errno`. -/
structure Store where
  tbl : Tbl
  lru : Lru
  errno : Option Errno

/-- A table and a list that were just created. -/
def Store.init (maxslots : Nat) : Store := ⟨qhasharr maxslots, .empty, none⟩

/-- The store after a call that changed the table. -/
def Store.called (s : Store) (r : Reply × Tbl) : Store :=
  { s with
    tbl := r.2
    errno := match r.1 with
      | .error (some e) => some e
      | _ => s.errno }

section

variable (md5 : Bytes → Bytes) (hashFn : Bytes → Nat)

/-- `hash_tbl_get`: the return code and the value. -/
def hashTblGet (t : Tbl) (key : Bytes) : Ret × Bytes :=
  if key = [] then (.errParam, [])
  else
    match qhasharrGet md5 hashFn t key with
    | none => (.errNotFound, [])
    | some val => qconfVerify md5 val

/-- `hash_tbl_remove`. -/
def hashTblRemove (s : Store) (key : Bytes) : Ret × Store :=
  if key = [] then (.errParam, s)
  else
    let r := qhasharrRemove md5 hashFn s.tbl key
    let s := s.called r
    match r.1 with
    | .ok _ => (.ok, s)
    | .error _ => (if s.errno = some .enoent then .ok else .errOther, s)

/-- The condition of the loop of `hash_tbl_set_`. -/
def again (r : Reply) (s : Store) : Bool :=
  match r with
  | .ok _ => false
  | .error _ => s.errno = some .enobufs

/-- The loop of `hash_tbl_set_`, which evicts one key a round; `none` where it is
not done after the given number of rounds. -/
def setLoop (key val : Bytes) : Nat → Reply → Store → Option (Reply × Store)
  | 0, r, s => if again r s then none else some (r, s)
  | fuel + 1, r, s =>
    if again r s then
      match hashTblRemove md5 hashFn { s with errno := none } s.lru.getRemoveKey with
      | (.ok, s) =>
        let s := { s with lru := s.lru.removeKey }
        let r := qhasharrPut md5 hashFn s.tbl key val
        setLoop key val fuel r.1 (s.called r)
      | (_, s) => some (r, s)
    else some (r, s)

/-- `hash_tbl_set_`.  Every round but the last takes a key off the list, so one
round more than there are keys is enough. -/
def hashTblSet_ (s : Store) (key val : Bytes) : Option (Ret × Store) :=
  if key = [] then some (.errParam, s)
  else
    let r := qhasharrPut md5 hashFn s.tbl key val
    match setLoop md5 hashFn key val (s.lru.lruMem.length + 1) r.1 (s.called r) with
    | none => none
    | some (.ok _, s) => some (.ok, { s with lru := s.lru.visitKey key })
    | some (.error _, s) => some (.errTblSet, s)

/-- `hash_tbl_set`; `none` where it does not return. -/
def hashTblSet (s : Store) (key val : Bytes) : Option (Ret × Store) :=
  if key = [] then some (.errParam, s)
  else if hashTblGet md5 hashFn s.tbl key = (.ok, val) then some (.errSameValue, s)
  else hashTblSet_ md5 hashFn s key (frameValue md5 val)

/-- `hash_tbl_clear`, which leaves the recency list alone. -/
def hashTblClear (s : Store) : Ret × Store := (.ok, { s with tbl := qhasharrClear s.tbl })

/-- What `hash_tbl_getnext` makes of the first bytes of a key and the unframed
value: the return code and the parts of the key. -/
def keyParts (dataType : UInt8) (tblval : Bytes) : Ret × Bytes × Bytes :=
  if dataType = dataTypeNode then
    ((tblvalToNodeval tblval).ret, (tblvalToNodeval tblval).idc, (tblvalToNodeval tblval).path)
  else if dataType = dataTypeService then
    ((tblvalToChdnodeval tblval).ret, (tblvalToChdnodeval tblval).idc, (tblvalToChdnodeval tblval).path)
  else if dataType = dataTypeBatchNode then
    ((tblvalToBatchnodeval tblval).ret, (tblvalToBatchnodeval tblval).idc,
      (tblvalToBatchnodeval tblval).path)
  else if dataType = dataTypeZkHost then
    ((tblvalToIdcval tblval).1, (tblvalToIdcval tblval).2.2, [])
  else if dataType = dataTypeLocalIdc then (.ok, [], [])
  else (.errDataType, [], [])

/-- `hash_tbl_getnext`: the return code, on success the key and the value, and
the index to go on from.  The key is built from what the value says, since the
slot has only its first bytes. -/
def hashTblGetnext (t : Tbl) (idx : Nat) : Ret × Option (Bytes × Bytes) × Nat :=
  match qhasharrGetnext t idx with
  | (.error e, idx) =>
    (if e = .enoent ∧ idx + 1 = t.maxslots + 1 then .errTblEnd else .errNotFound, none, idx + 1)
  | (.ok (name, data), idx) =>
    match qconfVerify md5 data with
    | (.ok, tblval) =>
      let dataType := getDataType name
      let parts := keyParts dataType tblval
      if parts.1 = .ok then (.ok, some (tblkeyOf dataType parts.2.1 parts.2.2, tblval), idx)
      else (parts.1, none, idx)
    | (ret, _) => (ret, none, idx)

/-- The loop of `LRU::initLruMem`; `none` where it is not done after the given
number of calls. -/
def initLruLoop (t : Tbl) : Nat → Nat → Lru → Option (Bool × Lru)
  | 0, idx, l => if idx < t.maxslots then none else some (true, l)
  | fuel + 1, idx, l =>
    if idx < t.maxslots then
      match hashTblGetnext md5 t idx with
      | (.ok, some (tblkey, _), idx) =>
        initLruLoop t fuel idx
          (if (deserializeFromTblkey tblkey).path ≠ [] then l.visitKey tblkey else l)
      | (.errTblEnd, _, idx) => initLruLoop t fuel idx l
      | _ => some (false, l)
    else some (true, l)

/-- `LRU::initLruMem` on a fresh list.  Every call moves on by a slot at least. -/
def initLruMem (t : Tbl) : Option (Bool × Lru) := initLruLoop md5 t t.maxslots 0 .empty

/-! ### The local idc -/

/-- `qconf_get_localidc`: the return code and the idc. -/
def qconfGetLocalidc (t : Tbl) : Ret × Bytes :=
  match hashTblGet md5 hashFn t (tblkeyOf dataTypeLocalIdc [] []) with
  | (.ok, tblval) => tblvalToLocalidc tblval
  | (ret, _) => (ret, [])

/-- `qconf_update_localidc`. -/
def qconfUpdateLocalidc (s : Store) (localIdc : Bytes) : Option (Ret × Store) :=
  if localIdc = [] then some (.errParam, s)
  else
    let tblkey := tblkeyOf dataTypeLocalIdc [] []
    match hashTblSet md5 hashFn s tblkey (localidcToTblval tblkey localIdc) with
    | none => none
    | some (ret, s) => some (if ret = .errSameValue then .ok else ret, s)

end

end QConf.Shm
