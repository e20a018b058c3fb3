import QConf.Lib.CheckedBuffer
import QConf.Base.GrayFormat

/-!
# The length buffer of the list encoders

The encoders of lists write every number into a local array `buf` and append it from there.
The array is declared for the number of elements, with two bytes, and the loops use it again for
the length of each element.  The names of children have lengths of two bytes, the records of a
gray release have lengths of four.

Here `buf` has its declared size and every access is checked; `none` is an access outside.  The
encoders of names never make one and write what the plain encoders write.  The encoder of
records makes one at its first record (`length_buffer_inside_iff`): only the empty set is
encoded inside `buf`.  An array for the widest of the numbers would do for every set
(`graynodevalWith_eq`).
-/

namespace QConf.LengthBuffer

open ByteCodec CheckedBuffer

variable {n : Nat} (le : Bool)

/-! ### The encoders -/

/-- The loop of `qconf_encode_num`, for the bytes of `num` from the index `i` on. -/
def encodeLoop (num : Nat) : Nat → Nat → Vector UInt8 n → Option (Vector UInt8 n)
  | 0, _, buf => some buf
  | w + 1, i, buf => (store buf i (UInt8.ofNat ((num >>> (i * 8)) &&& 0xff))).bind (encodeLoop num w (i + 1))

/-- `qconf_encode_num` for a type of `w` bytes, where `le` is `QCONF_IS_LITTLE_ENDIAN`: `memcpy`
from the number, or the loop. -/
def qconfEncodeNum (buf : Vector UInt8 n) (num w : Nat) : Option (Vector UInt8 n) :=
  if le then copyTo buf 0 (leBytes w num) else encodeLoop num w 0 buf

/-- A number is encoded into `buf`, and as many bytes as its type has are appended from there. -/
def appendNum (tblval : Bytes) (buf : Vector UInt8 n) (num w : Nat) : Option (Bytes × Vector UInt8 n) := do
  let buf ← qconfEncodeNum le buf num w
  let bytes ← load buf w
  return (tblval ++ bytes, buf)

/-- `char buf[QCONF_VECTOR_COUNT_LEN] = {0}`. -/
def countBuf : Vector UInt8 vectorCountLen := Vector.replicate vectorCountLen 0

/-- The first loop of `chdnodeval_to_tblval`; `valid_cnt` has two bytes. -/
def countValid : List Bytes → List Status → Nat → Option Nat
  | [], _, validCnt => some validCnt
  | _ :: _, [], _ => none
  | _ :: nodes, flg :: validFlg, validCnt =>
    countValid nodes validFlg (if flg = .up then (validCnt + 1) % 65536 else validCnt)

/-- A name behind its `strlen`, which is kept in two bytes. -/
def appendNode (tblval : Bytes) (buf : Vector UInt8 n) (node : Bytes) : Option (Bytes × Vector UInt8 n) := do
  let nodeSize := (cStr node).length % 65536
  let (tblval, buf) ← appendNum le tblval buf nodeSize hostPathSizeLen
  return (tblval ++ node.take nodeSize, buf)

/-- The second loop of `chdnodeval_to_tblval`. -/
def appendValid : List Bytes → List Status → Bytes → Vector UInt8 n → Option Bytes
  | [], _, tblval, _ => some tblval
  | _ :: _, [], _, _ => none
  | node :: nodes, flg :: validFlg, tblval, buf =>
    if flg = .up then do
      let (tblval, buf) ← appendNode le tblval buf node
      appendValid nodes validFlg tblval buf
    else appendValid nodes validFlg tblval buf

/-- `chdnodeval_to_tblval`. -/
def chdnodevalToTblval (key : Bytes) (nodes : List Bytes) (validFlg : List Status) : Option Bytes := do
  let validCnt ← countValid nodes validFlg 0
  let (tblval, buf) ← appendNum le [] countBuf validCnt vectorCountLen
  let tblval ← appendValid le nodes validFlg tblval buf
  return tblval ++ key

/-- The loop of `batchnodeval_to_tblval`. -/
def appendNodes : List Bytes → Bytes → Vector UInt8 n → Option Bytes
  | [], tblval, _ => some tblval
  | node :: nodes, tblval, buf => do
    let (tblval, buf) ← appendNode le tblval buf node
    appendNodes nodes tblval buf

/-- `batchnodeval_to_tblval`. -/
def batchnodevalToTblval (key : Bytes) (nodes : List Bytes) : Option Bytes := do
  let (tblval, buf) ← appendNum le [] countBuf (nodes.length % 65536) vectorCountLen
  let tblval ← appendNodes le nodes tblval buf
  return tblval ++ key

/-- The loop of `graynodeval_to_tblval`; `len` has four bytes. -/
def appendRecords : List Bytes → Bytes → Vector UInt8 n → Option Bytes
  | [], tblval, _ => some tblval
  | record :: records, tblval, buf => do
    let (tblval, buf) ← appendNum le tblval buf (record.length % 256 ^ valueSizeLen) valueSizeLen
    appendRecords records (tblval ++ record) buf

/-- `graynodeval_to_tblval` with the array `buf`. -/
def graynodevalWith (buf : Vector UInt8 n) (nodes : Finset Bytes) : Option Bytes := do
  let (tblval, buf) ← appendNum le [] buf (nodes.card % 65536) vectorCountLen
  appendRecords le (sortBytes nodes) tblval buf

/-- `graynodeval_to_tblval`. -/
def graynodevalToTblval (nodes : Finset Bytes) : Option Bytes := graynodevalWith le countBuf nodes

/-! ### One number -/

/-- The loop stores the bytes that `memcpy` copies on a little-endian machine. -/
theorem encodeLoop_eq (num w : Nat) : ∀ (i : Nat) (buf : Vector UInt8 n),
    encodeLoop num w i buf = copyTo buf i (leBytes w (num / 256 ^ i)) := by
  induction w with
  | zero =>
    intro i buf
    rfl
  | succ w ih =>
    intro i buf
    have hbyte : UInt8.ofNat ((num >>> (i * 8)) &&& 0xff) = UInt8.ofNat (num / 256 ^ i) := by
      have hpow : 2 ^ (i * 8) = 256 ^ i := by rw [Nat.mul_comm, pow_mul, show 2 ^ 8 = 256 from rfl]
      apply UInt8.toNat_inj.mp
      rw [Nat.shiftRight_eq_div_pow, hpow, show 0xff = 2 ^ 8 - 1 from rfl, Nat.and_two_pow_sub_one_eq_mod,
        UInt8.toNat_ofNat', UInt8.toNat_ofNat', Nat.mod_mod]
    have hnext : num / 256 ^ i / 256 = num / 256 ^ (i + 1) := by rw [Nat.div_div_eq_div_mul, pow_succ]
    rw [encodeLoop, leBytes, copyTo, hbyte, hnext]
    exact congrArg _ (funext (fun buf' => ih (i + 1) buf'))

theorem qconfEncodeNum_eq (buf : Vector UInt8 n) (num w : Nat) :
    qconfEncodeNum le buf num w = copyTo buf 0 (leBytes w num) := by
  unfold qconfEncodeNum
  split
  · rfl
  · rw [encodeLoop_eq, pow_zero, Nat.div_one]

/-- **A number of a type that fits into the array is appended.** -/
theorem appendNum_fits {w : Nat} (hw : w ≤ n) (tblval : Bytes) (buf : Vector UInt8 n) (num : Nat) :
    ∃ buf', appendNum le tblval buf num w = some (tblval ++ leBytes w num, buf') := by
  have hlen := leBytes_length w num
  obtain ⟨buf', hcopy, hload⟩ := copyTo_room (hlen.trans_le hw) buf
  rw [hlen] at hload
  refine ⟨buf', ?_⟩
  rw [appendNum, qconfEncodeNum_eq, hcopy, Option.bind_eq_bind, Option.bind_some, hload]
  rfl

/-- **A wider one is stored outside.** -/
theorem appendNum_wide {w : Nat} (hw : n < w) (tblval : Bytes) (buf : Vector UInt8 n) (num : Nat) :
    appendNum le tblval buf num w = none := by
  rw [appendNum, qconfEncodeNum_eq, copyTo_no_room (hw.trans_eq (leBytes_length w num).symm)]
  rfl

/-- The number of elements, which is kept in two bytes. -/
theorem appendCount_fits (hn : vectorCountLen ≤ n) (buf : Vector UInt8 n) (count : Nat) :
    ∃ buf', appendNum le [] buf (count % 65536) vectorCountLen = some (leBytes vectorCountLen count, buf') := by
  have hbytes : leBytes vectorCountLen (count % 65536) = leBytes vectorCountLen count := leBytes_mod vectorCountLen count
  rw [← hbytes]
  exact appendNum_fits le hn [] buf (count % 65536)

/-! ### Lists of names -/

theorem appendNode_fits (hn : hostPathSizeLen ≤ n) (tblval : Bytes) (buf : Vector UInt8 n) (node : Bytes) :
    ∃ buf', appendNode le tblval buf node = some (tblval ++ appendChild node, buf') := by
  obtain ⟨buf', h⟩ := appendNum_fits le hn tblval buf ((cStr node).length % 65536)
  refine ⟨buf', ?_⟩
  rw [appendNode, h, appendChild, ← List.append_assoc]
  rfl

/-- The children that are up are counted in two bytes. -/
theorem countValid_eq {nodes : List Bytes} : ∀ {validFlg : List Status} {validCnt : Nat},
    validFlg.length = nodes.length → validCnt < 65536 →
    countValid nodes validFlg validCnt =
      some ((validCnt + ((nodes.zip validFlg).filter (fun p => p.2 = Status.up)).length) % 65536) := by
  induction nodes with
  | nil =>
    intro validFlg validCnt _ hcnt
    rw [countValid, List.zip_nil_left, List.filter_nil, List.length_nil, Nat.add_zero, Nat.mod_eq_of_lt hcnt]
  | cons node nodes ih =>
    intro validFlg validCnt hlen hcnt
    cases validFlg with
    | nil => cases hlen
    | cons flg validFlg =>
      have hrest : validFlg.length = nodes.length := Nat.succ.inj hlen
      rw [countValid, List.zip_cons_cons, List.filter_cons]
      by_cases hup : flg = .up
      · rw [if_pos hup, if_pos (decide_eq_true hup), ih hrest (Nat.mod_lt _ (by decide)), List.length_cons,
          Nat.mod_add_mod, Nat.add_assoc, Nat.add_comm 1]
      · rw [if_neg hup, if_neg (by simpa using hup), ih hrest hcnt]

theorem appendValid_fits (hn : hostPathSizeLen ≤ n) {nodes : List Bytes} :
    ∀ {validFlg : List Status}, validFlg.length = nodes.length → ∀ (tblval : Bytes) (buf : Vector UInt8 n),
    appendValid le nodes validFlg tblval buf =
      some (tblval ++
        ((nodes.zip validFlg).filter (fun p => p.2 = Status.up)).flatMap (fun p => appendChild p.1)) := by
  induction nodes with
  | nil =>
    intro validFlg _ tblval buf
    rw [appendValid, List.zip_nil_left, List.filter_nil, List.flatMap_nil, List.append_nil]
  | cons node nodes ih =>
    intro validFlg hlen tblval buf
    cases validFlg with
    | nil => cases hlen
    | cons flg validFlg =>
      have hrest : validFlg.length = nodes.length := Nat.succ.inj hlen
      rw [appendValid, List.zip_cons_cons, List.filter_cons]
      by_cases hup : flg = .up
      · obtain ⟨buf', hnode⟩ := appendNode_fits le hn tblval buf node
        rw [if_pos hup, if_pos (decide_eq_true hup), hnode, List.flatMap_cons, ← List.append_assoc]
        exact ih hrest _ buf'
      · rw [if_neg hup, if_neg (by simpa using hup)]
        exact ih hrest tblval buf

/-- **The children that are up are encoded inside `buf`**, as the plain encoder writes them. -/
theorem chdnodevalToTblval_eq (key : Bytes) {nodes : List Bytes} {validFlg : List Status}
    (hlen : validFlg.length = nodes.length) :
    chdnodevalToTblval le key nodes validFlg = some (QConf.chdnodevalToTblval key nodes validFlg) := by
  have hcount := countValid_eq hlen (by decide : 0 < 65536)
  rw [Nat.zero_add] at hcount
  generalize hvalid : (nodes.zip validFlg).filter (fun p => p.2 = Status.up) = valid at hcount
  obtain ⟨buf, hnum⟩ := appendCount_fits le (Nat.le_refl vectorCountLen) countBuf valid.length
  have hnodes := appendValid_fits le (Nat.le_refl vectorCountLen) hlen (leBytes vectorCountLen valid.length) buf
  rw [hvalid] at hnodes
  simp only [chdnodevalToTblval, QConf.chdnodevalToTblval, hcount, hnum, hnodes, hvalid, Option.bind_eq_bind,
    Option.bind_some, Option.pure_def]

theorem appendNodes_fits (hn : hostPathSizeLen ≤ n) (nodes : List Bytes) :
    ∀ (tblval : Bytes) (buf : Vector UInt8 n),
    appendNodes le nodes tblval buf = some (tblval ++ nodes.flatMap appendChild) := by
  induction nodes with
  | nil =>
    intro tblval buf
    rw [appendNodes, List.flatMap_nil, List.append_nil]
  | cons node nodes ih =>
    intro tblval buf
    obtain ⟨buf', hnode⟩ := appendNode_fits le hn tblval buf node
    rw [appendNodes, hnode, List.flatMap_cons, ← List.append_assoc]
    exact ih _ buf'

/-- **So are the nodes of a batch.** -/
theorem batchnodevalToTblval_eq (key : Bytes) (nodes : List Bytes) :
    batchnodevalToTblval le key nodes = some (QConf.batchnodevalToTblval key nodes) := by
  obtain ⟨buf, hnum⟩ := appendCount_fits le (Nat.le_refl vectorCountLen) countBuf nodes.length
  have hnodes := appendNodes_fits le (Nat.le_refl vectorCountLen) nodes (leBytes vectorCountLen nodes.length) buf
  simp only [batchnodevalToTblval, QConf.batchnodevalToTblval, hnum, hnodes, Option.bind_eq_bind, Option.bind_some,
    Option.pure_def]

/-! ### Sets of records -/

theorem appendRecords_fits (hn : valueSizeLen ≤ n) (records : List Bytes) :
    ∀ (tblval : Bytes) (buf : Vector UInt8 n),
    appendRecords le records tblval buf = some (tblval ++ records.flatMap (field valueSizeLen)) := by
  induction records with
  | nil =>
    intro tblval buf
    rw [appendRecords, List.flatMap_nil, List.append_nil]
  | cons record records ih =>
    intro tblval buf
    obtain ⟨buf', hnum⟩ := appendNum_fits le hn tblval buf (record.length % 256 ^ valueSizeLen)
    rw [leBytes_mod] at hnum
    rw [appendRecords, hnum, List.flatMap_cons, field, ← List.append_assoc, ← List.append_assoc]
    exact ih _ buf'

/-- The length of the first record is stored outside of a smaller array. -/
theorem appendRecords_wide (hn : n < valueSizeLen) {records : List Bytes} (hne : records ≠ []) (tblval : Bytes)
    (buf : Vector UInt8 n) : appendRecords le records tblval buf = none := by
  obtain ⟨record, records, rfl⟩ := List.exists_cons_of_ne_nil hne
  rw [appendRecords, appendNum_wide le hn]
  rfl

/-- **What array the records need**: one for the number of records, and one for the length of
a record if there is any. -/
theorem graynodevalWith_eq (buf : Vector UInt8 n) (nodes : Finset Bytes) :
    graynodevalWith le buf nodes =
      if vectorCountLen ≤ n ∧ (nodes = ∅ ∨ valueSizeLen ≤ n) then some (QConf.graynodevalToTblval nodes)
      else none := by
  have hsorted : sortBytes nodes = [] ↔ nodes = ∅ := by
    rw [← List.length_eq_zero_iff, sortBytes_length, Finset.card_eq_zero]
  by_cases hcount : vectorCountLen ≤ n
  · obtain ⟨buf', hnum⟩ := appendCount_fits le hcount buf nodes.card
    rw [graynodevalWith, hnum]
    change appendRecords le (sortBytes nodes) (leBytes vectorCountLen nodes.card) buf' = _
    by_cases hvalue : valueSizeLen ≤ n
    · rw [if_pos ⟨hcount, Or.inr hvalue⟩, appendRecords_fits le hvalue]
      rfl
    · by_cases hnodes : nodes = ∅
      · rw [if_pos ⟨hcount, Or.inl hnodes⟩, QConf.graynodevalToTblval, hsorted.mpr hnodes]
        simp [appendRecords]
      · rw [if_neg (fun h => h.2.elim hnodes hvalue)]
        exact appendRecords_wide le (Nat.lt_of_not_le hvalue) (fun h => hnodes (hsorted.mp h)) _ _
  · rw [if_neg (fun h => hcount h.1), graynodevalWith, appendNum_wide le (Nat.lt_of_not_le hcount)]
    rfl

/-- Two bytes are enough for the empty set only. -/
theorem graynodevalToTblval_eq (nodes : Finset Bytes) :
    graynodevalToTblval le nodes = if nodes = ∅ then some (QConf.graynodevalToTblval nodes) else none := by
  have hwide : ¬ valueSizeLen ≤ vectorCountLen := by decide
  rw [graynodevalToTblval, graynodevalWith_eq]
  simp [hwide]

/-- **The list encoders stay inside their length buffer exactly without gray records.**  On either
kind of machine the encoders of names do for all lists; the encoder of records does for the empty set. -/
theorem length_buffer_inside_iff (nodes : List Bytes) (validFlg : List Status)
    (hlen : validFlg.length = nodes.length) (key batchKey : Bytes) (batch : List Bytes) (records : Finset Bytes) :
    (chdnodevalToTblval le key nodes validFlg ≠ none ∧ batchnodevalToTblval le batchKey batch ≠ none ∧
      graynodevalToTblval le records ≠ none) ↔ records = ∅ := by
  rw [chdnodevalToTblval_eq le key hlen, batchnodevalToTblval_eq, graynodevalToTblval_eq]
  simp

/-- Two children, one of them up, a batch of two nodes and no record. -/
theorem length_buffer_inside_children :
    chdnodevalToTblval true [] [[97], [98]] [.up, .down] ≠ none ∧
    batchnodevalToTblval true [] [[97], [98]] ≠ none ∧ graynodevalToTblval true ∅ ≠ none :=
  (length_buffer_inside_iff true [[97], [98]] [.up, .down] rfl [] [] [[97], [98]] ∅).mpr rfl

/-- One empty record: its length takes four bytes of an array of two. -/
theorem gray_record_outside : graynodevalToTblval true {[]} = none := by
  rw [graynodevalToTblval_eq, if_neg (Finset.singleton_ne_empty _)]

end QConf.LengthBuffer
