import QConf.Base.Common

/-!
# The shared-memory table of `qhasharr.c`

A fixed array of slots holds three kinds of entries' parts: a **leading** slot
(`count > 0`) stands at the index its key hashes to and counts the keys of its
bucket, a **collision** slot (`count = -1`) holds a further key of a bucket
somewhere else, and an **extension** slot (`count = -2`) holds the next piece of
a long value.  The slots of one value are chained through `link`; the `hash` of
an extension slot is the index of the slot before it.

The two hash functions are parameters: `hashFn` stands for `qhashmurmur3_32`
and `md5` for `qhashmd5`.  A slot's `data` is a union in C; here its two members
are separate buffers, and which of them is read is decided by `count` as in the
source.
-/

namespace QConf.Qhasharr

/-- `_Q_HASHARR_KEYSIZE`. -/
def keysize : Nat := 32
/-- `_Q_HASHARR_VALUESIZE`. -/
def valuesize : Nat := 96
/-- `sizeof(union _slot_data)`. -/
def slotDataSize : Nat := 146

/-- `struct qhasharr_slot_s`. -/
structure Slot where
  count : Int
  hash : Nat
  size : Nat
  link : Int
  /-- `data.pair.value` -/
  value : Bytes
  /-- `data.pair.key` -/
  key : Bytes
  /-- `data.pair.keylen`, a `uint16_t` -/
  keylen : Nat
  /-- `data.pair.keymd5` -/
  keymd5 : Bytes
  /-- `data.ext.value` -/
  ext : Bytes
  deriving DecidableEq, Repr

/-- A slot after `memset` to zero. -/
def Slot.zero : Slot where
  count := 0
  hash := 0
  size := 0
  link := 0
  value := List.replicate valuesize 0
  key := List.replicate keysize 0
  keylen := 0
  keymd5 := List.replicate 16 0
  ext := List.replicate slotDataSize 0

/-- `struct qhasharr_s` together with the slots behind it. -/
@[ext]
structure Tbl where
  maxslots : Nat
  usedslots : Int
  num : Int
  slots : Nat → Slot

/-- The values `errno` is set to; `none` where a function fails without
touching it. -/
inductive Errno
  | enobufs
  | efault
  | enoent
  | enomem
  deriving DecidableEq, Repr

/-- The `bool` of the operations, with `errno` on `false`. -/
abbrev Reply := Except (Option Errno) Unit

/-- `memcpy` to the front of a buffer. -/
def memcpy (dst src : Bytes) : Bytes := src ++ dst.drop src.length

def Tbl.setSlot (t : Tbl) (i : Nat) (s : Slot) : Tbl := { t with slots := Function.update t.slots i s }

/-- `qhasharr`: an initialised table. -/
def qhasharr (maxslots : Nat) : Tbl := ⟨maxslots, 0, 0, fun _ => Slot.zero⟩

/-- The index after `idx`, wrapping at the end of the table. -/
def Tbl.next (t : Tbl) (idx : Nat) : Nat := if t.maxslots ≤ idx + 1 then 0 else idx + 1

/-! ### Searching -/

def findEmptyLoop (t : Tbl) (startidx : Nat) : Nat → Nat → Option Nat
  | 0, _ => none
  | fuel + 1, idx =>
    if (t.slots idx).count = 0 then some idx
    else if t.next idx = startidx then none
    else findEmptyLoop t startidx fuel (t.next idx)

/-- `_find_empty`: an empty slot at or after `startidx`, going round once. -/
def findEmpty (t : Tbl) (startidx : Nat) : Option Nat :=
  if t.maxslots = 0 then none
  else
    let startidx := if t.maxslots ≤ startidx then 0 else startidx
    findEmptyLoop t startidx t.maxslots startidx

/-- The key comparison of `_get_idx`: a key longer than the slot's buffer is
compared by its first bytes and its MD5. -/
def keyMatches (md5 : Bytes → Bytes) (s : Slot) (key : Bytes) : Bool :=
  key.length == s.keylen &&
    if key.length ≤ keysize then s.key.take key.length == key
    else s.key.take keysize == key.take keysize && md5 key == s.keymd5

/-- The slots `_get_idx` counts: those that hold a key of the bucket. -/
def Slot.inBucket (s : Slot) (hash : Nat) : Bool :=
  s.hash == hash && (decide (s.count > 0) || s.count == -1)

def getIdxLoop (md5 : Bytes → Bytes) (t : Tbl) (key : Bytes) (hash : Nat) :
    Nat → Nat → Int → Option Nat
  | 0, _, _ => none
  | fuel + 1, idx, count =>
    if count < (t.slots hash).count then
      if (t.slots idx).inBucket hash then
        if keyMatches md5 (t.slots idx) key then some idx
        else if t.next idx = hash then none
        else getIdxLoop md5 t key hash fuel (t.next idx) (count + 1)
      else if t.next idx = hash then none
      else getIdxLoop md5 t key hash fuel (t.next idx) count
    else none

/-- `_get_idx`: the slot that holds `key`, looked for from its bucket on until
as many keys of the bucket were seen as the leading slot counts. -/
def getIdx (md5 : Bytes → Bytes) (t : Tbl) (key : Bytes) (hash : Nat) : Option Nat :=
  if (t.slots hash).count > 0 then getIdxLoop md5 t key hash t.maxslots hash 0 else none

/-! ### Reading a value -/

/-- The first loop of `_get_data`, which adds up the sizes.  `fuel` is what the
`loop_count` guard still allows. -/
def valsizeLoop (t : Tbl) : Nat → Nat → Nat → Option Nat
  | 0, idx, valsize =>
    if (t.slots idx).link = -1 then some (valsize + (t.slots idx).size) else none
  | fuel + 1, idx, valsize =>
    if (t.slots idx).link = -1 then some (valsize + (t.slots idx).size)
    else valsizeLoop t fuel (t.slots idx).link.toNat (valsize + (t.slots idx).size)

/-- The bytes `_get_data` takes from one slot. -/
def Slot.bytes (s : Slot) : Bytes := if s.count = -2 then s.ext.take s.size else s.value.take s.size

/-- The second loop of `_get_data`, which copies. -/
def copyLoop (t : Tbl) (valsize : Nat) : Nat → Nat → Bytes → Option Bytes
  | 0, idx, acc =>
    if acc.length < valsize then
      if valsize < acc.length + (t.slots idx).size then none
      else if (t.slots idx).link = -1 then some (acc ++ (t.slots idx).bytes)
      else none
    else some acc
  | fuel + 1, idx, acc =>
    if acc.length < valsize then
      if valsize < acc.length + (t.slots idx).size then none
      else if (t.slots idx).link = -1 then some (acc ++ (t.slots idx).bytes)
      else copyLoop t valsize fuel (t.slots idx).link.toNat (acc ++ (t.slots idx).bytes)
    else some acc

/-- `_get_data`: the buffer is zeroed before the copy. -/
def getData (t : Tbl) (idx : Nat) : Option Bytes :=
  match valsizeLoop t t.maxslots idx 0 with
  | none => none
  | some valsize =>
    (copyLoop t valsize t.maxslots idx []).map
      (fun v => v ++ List.replicate (valsize - v.length) 0)

/-! ### Slots -/

/-- `_copy_slot`, from `idx2` to `idx1`; its result is not looked at. -/
def copySlot (t : Tbl) (idx1 idx2 : Nat) : Tbl :=
  if (t.slots idx1).count ≠ 0 ∨ (t.slots idx2).count = 0 then t
  else { t.setSlot idx1 (t.slots idx2) with usedslots := t.usedslots + 1 }

/-- `_remove_slot`; its result is not looked at. -/
def removeSlot (t : Tbl) (idx : Nat) : Tbl :=
  if (t.slots idx).count = 0 then t
  else { t.setSlot idx { t.slots idx with count := 0 } with usedslots := t.usedslots - 1 }

def removeLoop : Nat → Tbl → Nat → Tbl
  | 0, t, idx => removeSlot t idx
  | fuel + 1, t, idx =>
    let link := (t.slots idx).link
    let t := removeSlot t idx
    if link = -1 then t else removeLoop fuel t link.toNat

/-- `_remove_data`: frees the whole chain that starts at `idx`. -/
def removeData (t : Tbl) (idx : Nat) : Tbl :=
  if (t.slots idx).count = 0 then t
  else
    let t := removeLoop t.maxslots t idx
    { t with num := t.num - 1 }

/-! ### Storing a value -/

/-- The first part of `_put_data`: the key and the fields of the first slot. -/
def storeKey (md5 : Bytes → Bytes) (t : Tbl) (idx hash : Nat) (key : Bytes) (count : Int) : Tbl :=
  t.setSlot idx { t.slots idx with
    count := count
    hash := hash
    key := memcpy (t.slots idx).key (key.take keysize)
    keymd5 := md5 key
    keylen := key.length % 65536
    link := -1 }

/-- A cleared extension slot behind `newidx`. -/
def linkSlot (t : Tbl) (newidx tmpidx : Nat) : Tbl :=
  let t := t.setSlot tmpidx { Slot.zero with count := -2, hash := newidx, link := -1 }
  t.setSlot newidx { t.slots newidx with link := (tmpidx : Int) }

/-- How many of the remaining bytes go into the slot. -/
def copysize (s : Slot) (rest : Bytes) : Nat :=
  if s.count = -2 then min rest.length slotDataSize else min rest.length valuesize

/-- The copy of one piece; a first slot counts as a stored key. -/
def copyChunk (t : Tbl) (newidx : Nat) (rest : Bytes) : Tbl :=
  let s := t.slots newidx
  let n := copysize s rest
  if s.count = -2 then
    { t.setSlot newidx { s with ext := memcpy s.ext (rest.take n), size := n } with
      usedslots := t.usedslots + 1 }
  else
    { t.setSlot newidx { s with value := memcpy s.value (rest.take n), size := n } with
      usedslots := t.usedslots + 1
      num := t.num + 1 }

/-- The loop of `_put_data`.  Each round copies at least one byte, so
`val_size` rounds are enough. -/
def putLoop (value : Bytes) (idx : Nat) : Nat → Tbl → Nat → Nat → Reply × Tbl
  | 0, t, _, _ => (.ok (), t)
  | fuel + 1, t, newidx, savesize =>
    if savesize < value.length then
      if savesize > 0 then
        match findEmpty t (newidx + 1) with
        | none => (.error (some .enobufs), removeData t idx)
        | some tmpidx =>
          let t := linkSlot t newidx tmpidx
          let rest := value.drop savesize
          putLoop value idx fuel (copyChunk t tmpidx rest) tmpidx
            (savesize + copysize (t.slots tmpidx) rest)
      else
        putLoop value idx fuel (copyChunk t newidx value) newidx (copysize (t.slots newidx) value)
    else (.ok (), t)

/-- `_put_data`. -/
def putData (md5 : Bytes → Bytes) (t : Tbl) (idx hash : Nat) (key value : Bytes) (count : Int) :
    Reply × Tbl :=
  if (t.slots idx).count ≠ 0 then (.error (some .efault), t)
  else putLoop value idx (value.length + 1) (storeKey md5 t idx hash key count) idx 0

/-! ### The operations -/

/-- `qhasharr_exist`. -/
def qhasharrExist (md5 : Bytes → Bytes) (hashFn : Bytes → Nat) (t : Tbl) (key : Bytes) : Bool :=
  if t.maxslots = 0 then false
  else (getIdx md5 t key (hashFn key % t.maxslots)).isSome

/-- `qhasharr_get`. -/
def qhasharrGet (md5 : Bytes → Bytes) (hashFn : Bytes → Nat) (t : Tbl) (key : Bytes) :
    Option Bytes :=
  if t.maxslots = 0 then none
  else
    match getIdx md5 t key (hashFn key % t.maxslots) with
    | none => none
    | some idx => getData t idx

def findDupLoop (t : Tbl) (hash idx : Nat) : Nat → Nat → Option Nat
  | 0, _ => none
  | fuel + 1, idx2 =>
    if idx2 = idx then none
    else if (t.slots idx2).count = -1 ∧ (t.slots idx2).hash = hash then some idx2
    else findDupLoop t hash idx fuel (t.next idx2)

/-- The search of `qhasharr_remove` for a colliding key to promote. -/
def findDup (t : Tbl) (hash idx : Nat) : Option Nat :=
  findDupLoop t hash idx t.maxslots (t.next idx)

/-- `_tbl_slots[_tbl_slots[idx].link].hash = idx`, where there is a next slot. -/
def fixNext (t : Tbl) (idx : Nat) : Tbl :=
  if (t.slots idx).link ≠ -1 then
    let nxt := (t.slots idx).link.toNat
    t.setSlot nxt { t.slots nxt with hash := idx }
  else t

/-- `qhasharr_remove`. -/
def qhasharrRemove (md5 : Bytes → Bytes) (hashFn : Bytes → Nat) (t : Tbl) (key : Bytes) :
    Reply × Tbl :=
  if t.maxslots = 0 then (.error none, t)
  else
    let hash := hashFn key % t.maxslots
    match getIdx md5 t key hash with
    | none => (.error (some .enoent), t)
    | some idx =>
      if (t.slots idx).count = 1 then (.ok (), removeData t idx)
      else if (t.slots idx).count > 1 then
        match findDup t hash idx with
        | none => (.error (some .efault), t)
        | some idx2 =>
          let backupcount := (t.slots idx).count
          let t := removeData t idx
          let t := copySlot t idx idx2
          let t := removeSlot t idx2
          let t := t.setSlot idx { t.slots idx with count := backupcount - 1 }
          (.ok (), fixNext t idx)
      else if (t.slots idx).count = -1 then
        let lead := (t.slots idx).hash
        if (t.slots lead).count ≤ 1 then (.error (some .efault), t)
        else
          let t := t.setSlot lead { t.slots lead with count := (t.slots lead).count - 1 }
          (.ok (), removeData t idx)
      else (.error (some .enoent), t)

/-- The links of a collision or extension slot that was moved to `idx`. -/
def relink (t : Tbl) (idx : Nat) : Tbl :=
  if (t.slots idx).count = -2 then
    let prev := (t.slots idx).hash
    fixNext (t.setSlot prev { t.slots prev with link := (idx : Int) }) idx
  else if (t.slots idx).count = -1 then fixNext t idx
  else t

/-- `qhasharr_put`, which calls itself after removing a stored key that matches;
`fuel` bounds that recursion. -/
def putAux (md5 : Bytes → Bytes) (hashFn : Bytes → Nat) :
    Nat → Tbl → Bytes → Bytes → Reply × Tbl
  | 0, t, _, _ => (.error none, t)
  | fuel + 1, t, key, value =>
    if t.maxslots = 0 then (.error none, t)
    else if t.usedslots ≥ t.maxslots then (.error (some .enobufs), t)
    else
      let hash := hashFn key % t.maxslots
      if (t.slots hash).count = 0 then putData md5 t hash hash key value 1
      else if (t.slots hash).count > 0 then
        match getIdx md5 t key hash with
        | some _ =>
          match qhasharrRemove md5 hashFn t key with
          | (.error e, t) => (.error e, t)
          | (.ok (), t) => putAux md5 hashFn fuel t key value
        | none =>
          match findEmpty t hash with
          | none => (.error (some .enobufs), t)
          | some idx =>
            match putData md5 t idx hash key value (-1) with
            | (.error e, t) => (.error e, t)
            | (.ok (), t) =>
              -- the counter is a `short`
              (.ok (), t.setSlot hash
                { t.slots hash with count := Int.bmod ((t.slots hash).count + 1) 65536 })
      else
        match findEmpty t (hash + 1) with
        | none => (.error (some .enobufs), t)
        | some idx =>
          let t := copySlot t idx hash
          let t := removeSlot t hash
          putData md5 (relink t idx) hash hash key value 1

/-- `qhasharr_put`.  Each call of itself removes an entry, so the number of slots
bounds their number. -/
def qhasharrPut (md5 : Bytes → Bytes) (hashFn : Bytes → Nat) (t : Tbl) (key value : Bytes) :
    Reply × Tbl := putAux md5 hashFn (t.maxslots + 1) t key value

/-- The loop of `qhasharr_getnext` over the slots that are left. -/
def getnextLoop (t : Tbl) : Nat → Nat → Except Errno (Bytes × Bytes) × Nat
  | 0, idx => (.error .enoent, idx)
  | fuel + 1, idx =>
    if (t.slots idx).count = 0 ∨ (t.slots idx).count = -2 then getnextLoop t fuel (idx + 1)
    else
      match getData t idx with
      | none => (.error .enomem, idx)
      | some data => (.ok ((t.slots idx).key.take (min (t.slots idx).keylen keysize), data), idx + 1)

/-- `qhasharr_getnext`: the cut key and the value of the first entry at or behind
`idx`, and the index to go on from. -/
def qhasharrGetnext (t : Tbl) (idx : Nat) : Except Errno (Bytes × Bytes) × Nat :=
  getnextLoop t (t.maxslots - idx) idx

/-- `qhasharr_clear`. -/
def qhasharrClear (t : Tbl) : Tbl :=
  if t.usedslots = 0 then t else { t with usedslots := 0, num := 0, slots := fun _ => Slot.zero }

end QConf.Qhasharr
