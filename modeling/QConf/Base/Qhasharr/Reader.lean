import QConf.Base.Qhasharr.Stores
import QConf.Base.Format
import QConf.Lib.RacyRead

/-!
# A client reads the table while the agent writes it

`qhasharr_get` in a client, access by access.  Each read of a field of a slot, or of the header, is a
look at the memory of its own, and the agent may have gone on in between; where the source reads a
field twice, so does the model.  What the union of a slot holds is any bytes, so that a copy may be
torn in any way.

What must not happen is a fault: a slot outside the table, a copy from behind the union of a slot or
to behind the buffer, a division by zero, or no end.

* `client_get_safe`: none of them happens, whatever the agent does meanwhile.
* `client_get_undisturbed`: while the agent does nothing, the client gets what `qhasharrGet` says.
-/

namespace QConf.Qhasharr

open RacyRead ByteCodec

/-- The memory as a client sees it at one instant: the fields, and what the unions hold. -/
structure Mem where
  tbl : Tbl
  data : Nat → Bytes

inductive Fault
  /-- a slot that the segment does not have -/
  | outside
  /-- bytes from behind the union -/
  | overread
  /-- bytes to behind the buffer -/
  | overrun
  | divisionByZero
  /-- a loop that goes on longer than it may -/
  | endless

abbrev Client := Reads Mem Fault

/-! ### Accesses -/

/-- `tbl->maxslots`. -/
def maxslotsNow : Client Nat := look (fun m => m.tbl.maxslots)

/-- A field of `_tbl_slots[idx]`; the segment has `M` slots. -/
def fieldNow {α : Type} (M : Nat) (idx : Int) (f : Slot → α) : Client α :=
  if 0 ≤ idx ∧ idx < M then look (fun m => f (m.tbl.slots idx.toNat)) else fault .outside

/-- `len` bytes of the union of `_tbl_slots[idx]`, from `off` on. -/
def dataNow (M : Nat) (idx : Int) (off len : Nat) : Client Bytes :=
  if 0 ≤ idx ∧ idx < M then
    if off + len ≤ slotDataSize then look (fun m => ((m.data idx.toNat).drop off).take len) else fault .overread
  else fault .outside

/-- The places of `key`, `keylen` and `keymd5` in the union. -/
def keyOff : Nat := valuesize
def keylenOff : Nat := keyOff + keysize
def keymd5Off : Nat := keylenOff + 2

/-! ### `_get_idx` -/

/-- The comparison of the key. -/
def keyMatchesNow (M : Nat) (md5 : Bytes → Bytes) (key : Bytes) (idx : Int) : Client Bool := do
  let keylen ← dataNow M idx keylenOff 2
  if key.length = leNat keylen then
    if key.length ≤ keysize then do
      let k ← dataNow M idx keyOff key.length
      pure (k == key)
    else do
      let k ← dataNow M idx keyOff keysize
      if k == key.take keysize then do
        let m ← dataNow M idx keymd5Off 16
        pure (md5 key == m)
      else pure false
  else pure false

/-- `_tbl_slots[idx].hash == hash && (_tbl_slots[idx].count > 0 || _tbl_slots[idx].count == -1)`. -/
def inBucketNow (M : Nat) (hash : Nat) (idx : Int) : Client Bool := do
  let h ← fieldNow M idx (·.hash)
  if h = hash then do
    let c ← fieldNow M idx (·.count)
    if c > 0 then pure true
    else do
      let c ← fieldNow M idx (·.count)
      pure (c == -1)
  else pure false

/-- The key is compared in the slots of the bucket. -/
def keyHitNow (M : Nat) (md5 : Bytes → Bytes) (key : Bytes) (idx : Int) (same : Bool) : Client Bool :=
  if same then keyMatchesNow M md5 key idx else pure false

def getIdxLoopNow (M : Nat) (md5 : Bytes → Bytes) (key : Bytes) (hash : Nat) :
    Nat → Nat → Int → Client (Option Nat)
  | 0, _, _ => fault .endless
  | fuel + 1, idx, count => do
    let lead ← fieldNow M hash (·.count)
    if count < lead then do
      let same ← inBucketNow M hash idx
      let hit ← keyHitNow M md5 key idx same
      if hit then pure (some idx)
      else do
        let n ← maxslotsNow
        let next := if n ≤ idx + 1 then 0 else idx + 1
        if next = hash then pure none
        else getIdxLoopNow M md5 key hash fuel next (if same then count + 1 else count)
    else pure none

/-- `_get_idx`. -/
def getIdxNow (M : Nat) (md5 : Bytes → Bytes) (key : Bytes) (hash : Nat) : Client (Option Nat) := do
  let lead ← fieldNow M hash (·.count)
  if lead > 0 then getIdxLoopNow M md5 key hash M hash 0 else pure none

/-! ### `_get_data` -/

/-- The first loop.  The link is read for the test, and again for the next slot. -/
def valsizeLoopNow (M : Nat) : Nat → Nat → Int → Nat → Client (Option Nat)
  | 0, _, _, _ => fault .endless
  | fuel + 1, loopCount, newidx, valsize => do
    let size ← fieldNow M newidx (·.size)
    let link ← fieldNow M newidx (·.link)
    if link = -1 then pure (some (valsize + size))
    else do
      let n ← maxslotsNow
      if loopCount + 1 > n then pure none
      else do
        let link ← fieldNow M newidx (·.link)
        if link = -1 then pure (some (valsize + size))
        else valsizeLoopNow M fuel (loopCount + 1) link (valsize + size)

/-- `memcpy(vp, ..., vsize)` into the buffer of `valsize` bytes that is filled up to `acc`; both
members of the union begin at its front. -/
def copyNow (M : Nat) (newidx : Int) (vsize valsize : Nat) (acc : Bytes) : Client Bytes := do
  let bytes ← dataNow M newidx 0 vsize
  if acc.length + bytes.length ≤ valsize then pure (acc ++ bytes) else fault .overrun

/-- The second loop. -/
def copyLoopNow (M valsize : Nat) : Nat → Nat → Int → Bytes → Client (Option Bytes)
  | 0, _, _, _ => fault .endless
  | fuel + 1, loopCount, newidx, acc =>
    if acc.length < valsize ∧ newidx ≠ -1 then do
      let vsize ← fieldNow M newidx (·.size)
      if acc.length + vsize > valsize then pure none
      else do
        -- the count chooses the member of the union
        let _count ← fieldNow M newidx (·.count)
        let acc ← copyNow M newidx vsize valsize acc
        let link ← fieldNow M newidx (·.link)
        if link = -1 then pure (some acc)
        else do
          let n ← maxslotsNow
          if loopCount + 1 > n then pure none
          else do
            let link ← fieldNow M newidx (·.link)
            copyLoopNow M valsize fuel (loopCount + 1) link acc
    else pure (some acc)

/-- `_get_data`. -/
def getDataNow (M : Nat) (idx : Nat) : Client (Option Bytes) := do
  match ← valsizeLoopNow M (M + 1) 0 idx 0 with
  | none => pure none
  | some valsize =>
    match ← copyLoopNow M valsize (M + 1) 0 idx [] with
    | none => pure none
    | some v => pure (some (v ++ List.replicate (valsize - v.length) 0))

/-- `qhasharr_get`. -/
def qhasharrGetNow (M : Nat) (md5 : Bytes → Bytes) (hashFn : Bytes → Nat) (key : Bytes) :
    Client (Option Bytes) := do
  let n ← maxslotsNow
  if n = 0 then pure none
  else do
    let n ← maxslotsNow
    if n = 0 then fault .divisionByZero
    else
      match ← getIdxNow M md5 key (hashFn key % n) with
      | none => pure none
      | some idx => getDataNow M idx

/-! ### No faults -/

/-- The fields are in range, and every union has its bytes. -/
structure Mem.Sound (M : Nat) (m : Mem) : Prop where
  tbl : Qhasharr.Sound M m.tbl
  data : ∀ i, (m.data i).length = slotDataSize

section

variable {M : Nat} {md5 : Bytes → Bytes} {hashFn : Bytes → Nat}

theorem maxslotsNow_safe : Safe (Mem.Sound M) maxslotsNow (· = M) := Safe.look fun _ h => h.tbl.maxslots

theorem fieldNow_safe {α : Type} {idx : Int} (hidx : 0 ≤ idx ∧ idx < M) {f : Slot → α} {Q : α → Prop}
    (h : ∀ s : Slot, s.InRange M → Q (f s)) : Safe (Mem.Sound M) (fieldNow M idx f) Q := by
  rw [fieldNow, if_pos hidx]
  exact Safe.look fun m hm => h _ (hm.tbl.slot _ (by omega))

theorem dataNow_safe {idx : Int} (hidx : 0 ≤ idx ∧ idx < M) {off len : Nat} (hlen : off + len ≤ slotDataSize) :
    Safe (Mem.Sound M) (dataNow M idx off len) (·.length = len) := by
  rw [dataNow, if_pos hidx, if_pos hlen]
  refine Safe.look fun m hm => ?_
  rw [List.length_take, List.length_drop, hm.data]
  omega

theorem keyMatchesNow_safe (key : Bytes) {idx : Int} (hidx : 0 ≤ idx ∧ idx < M) :
    Safe (Mem.Sound M) (keyMatchesNow M md5 key idx) (fun _ => True) := by
  refine (dataNow_safe hidx (by decide)).bind fun keylen _ => Safe.ite (fun _ => Safe.ite (fun hshort => ?_)
    fun _ => ?_) fun _ => Safe.pure trivial
  · have hfits : keyOff + key.length ≤ slotDataSize :=
      Nat.le_trans (Nat.add_le_add_left hshort _) (by decide)
    exact (dataNow_safe hidx hfits).bind fun _ _ => Safe.pure trivial
  · refine (dataNow_safe hidx (by decide)).bind fun k _ => Safe.ite (fun _ => ?_) fun _ => Safe.pure trivial
    exact (dataNow_safe hidx (by decide)).bind fun _ _ => Safe.pure trivial

theorem inBucketNow_safe (hash : Nat) {idx : Int} (hidx : 0 ≤ idx ∧ idx < M) :
    Safe (Mem.Sound M) (inBucketNow M hash idx) (fun _ => True) := by
  have hcount : Safe (Mem.Sound M) (fieldNow M idx (·.count)) (fun _ => True) :=
    fieldNow_safe hidx fun _ _ => trivial
  refine (fieldNow_safe (Q := fun _ => True) hidx fun _ _ => trivial).bind fun h _ =>
    Safe.ite (fun _ => ?_) fun _ => Safe.pure trivial
  refine hcount.bind fun c _ => Safe.ite (fun _ => Safe.pure trivial) fun _ => ?_
  exact hcount.bind fun _ _ => Safe.pure trivial

/-- How many slots are left on the way round from `hash`. -/
def leftOf (M hash idx : Nat) : Nat := if hash ≤ idx then M - idx + hash else hash - idx

theorem leftOf_pos {hash idx : Nat} (hidx : idx < M) : 0 < leftOf M hash idx := by
  unfold leftOf
  split <;> omega

/-- One slot less is left behind the next one, unless the way round is over. -/
theorem leftOf_next {hash idx : Nat} (hhash : hash < M) (hidx : idx < M) (hne : (if M ≤ idx + 1 then 0 else idx + 1) ≠ hash) :
    (if M ≤ idx + 1 then 0 else idx + 1) < M ∧
      leftOf M hash (if M ≤ idx + 1 then 0 else idx + 1) + 1 = leftOf M hash idx := by
  unfold leftOf
  split at hne <;> rename_i hwrap
  · rw [if_pos hwrap]
    split <;> split <;> omega
  · rw [if_neg hwrap]
    split <;> split <;> omega

/-- **The search goes round at most once.** -/
theorem getIdxLoopNow_safe (key : Bytes) {hash : Nat} (hhash : hash < M) : ∀ (fuel : Nat) {idx : Nat} (count : Int),
    idx < M → leftOf M hash idx ≤ fuel →
      Safe (Mem.Sound M) (getIdxLoopNow M md5 key hash fuel idx count) (fun r => ∀ i, r = some i → i < M) := by
  intro fuel
  induction fuel with
  | zero =>
    intro idx count hidx hleft
    exact absurd hleft (Nat.not_le.mpr (leftOf_pos hidx))
  | succ fuel ih =>
    intro idx count hidx hleft
    have hnone : Safe (Mem.Sound M) (pure none : Client (Option Nat)) (fun r => ∀ i, r = some i → i < M) :=
      Safe.pure fun i h => absurd h (by simp)
    have hsome : Safe (Mem.Sound M) (pure (some idx) : Client (Option Nat)) (fun r => ∀ i, r = some i → i < M) :=
      Safe.pure fun i h => Option.some.inj h ▸ hidx
    have hin : (0 : Int) ≤ idx ∧ (idx : Int) < M := by omega
    unfold getIdxLoopNow
    refine (fieldNow_safe (Q := fun _ => True) (by omega) fun _ _ => trivial).bind fun lead _ => ?_
    refine Safe.ite (fun _ => ?_) fun _ => hnone
    refine (inBucketNow_safe hash hin).bind fun same _ => ?_
    refine Safe.bind (Q := fun _ => True) ?_ fun hit _ => ?_
    · exact Safe.ite (fun _ => keyMatchesNow_safe key hin) fun _ => Safe.pure trivial
    refine Safe.ite (fun _ => hsome) fun _ => maxslotsNow_safe.bind fun n hn => ?_
    subst hn
    refine Safe.ite (fun _ => hnone) fun hne => ?_
    obtain ⟨hlt, hless⟩ := leftOf_next hhash hidx hne
    exact ih _ hlt (by omega)

theorem getIdxNow_safe (key : Bytes) {hash : Nat} (hhash : hash < M) :
    Safe (Mem.Sound M) (getIdxNow M md5 key hash) (fun r => ∀ i, r = some i → i < M) := by
  refine (fieldNow_safe (Q := fun _ => True) (by omega) fun _ _ => trivial).bind fun lead _ =>
    Safe.ite (fun _ => ?_) fun _ => Safe.pure fun i h => absurd h (by simp)
  refine getIdxLoopNow_safe key hhash M 0 hhash ?_
  unfold leftOf
  rw [if_pos (Nat.le_refl _)]
  omega

/-- A link that is not the end leads to a slot. -/
theorem linkNow_safe {idx : Int} (hidx : 0 ≤ idx ∧ idx < M) :
    Safe (Mem.Sound M) (fieldNow M idx (·.link)) (fun l => l = -1 ∨ 0 ≤ l ∧ l < M) :=
  fieldNow_safe hidx fun s hs => by
    have := hs.link
    omega

/-- **The first loop ends**, since the rounds are counted. -/
theorem valsizeLoopNow_safe : ∀ (fuel loopCount : Nat) {newidx : Int} (valsize : Nat), 0 ≤ newidx ∧ newidx < M →
    loopCount ≤ M → M < fuel + loopCount →
      Safe (Mem.Sound M) (valsizeLoopNow M fuel loopCount newidx valsize) (fun _ => True) := by
  intro fuel
  induction fuel with
  | zero => intro loopCount newidx valsize _ hle hlt; omega
  | succ fuel ih =>
    intro loopCount newidx valsize hidx hle hlt
    refine (fieldNow_safe (Q := fun _ => True) hidx fun _ _ => trivial).bind fun size _ => ?_
    refine (linkNow_safe hidx).bind fun _ _ => Safe.ite (fun _ => Safe.pure trivial) fun _ => ?_
    refine maxslotsNow_safe.bind fun n hn => Safe.ite (fun _ => Safe.pure trivial) fun hmore => ?_
    refine (linkNow_safe hidx).bind fun link hlink => Safe.ite (fun _ => Safe.pure trivial) fun hne => ?_
    exact ih (loopCount + 1) _ (hlink.resolve_left hne) (by omega) (by omega)

theorem copyNow_safe {newidx : Int} (hidx : 0 ≤ newidx ∧ newidx < M) {vsize valsize : Nat} {acc : Bytes}
    (hsize : vsize ≤ slotDataSize) (hroom : acc.length + vsize ≤ valsize) :
    Safe (Mem.Sound M) (copyNow M newidx vsize valsize acc) (·.length ≤ valsize) := by
  refine (dataNow_safe hidx (by omega)).bind fun bytes hlen => ?_
  rw [if_pos (by omega)]
  refine Safe.pure ?_
  rw [List.length_append]
  omega

/-- **The second loop ends, and stays in the buffer.** -/
theorem copyLoopNow_safe {valsize : Nat} : ∀ (fuel loopCount : Nat) {newidx : Int} {acc : Bytes},
    newidx = -1 ∨ 0 ≤ newidx ∧ newidx < M → acc.length ≤ valsize → loopCount ≤ M → M < fuel + loopCount →
      Safe (Mem.Sound M) (copyLoopNow M valsize fuel loopCount newidx acc)
        (fun r => ∀ v, r = some v → v.length ≤ valsize) := by
  intro fuel
  induction fuel with
  | zero => intro loopCount newidx acc _ _ hle hlt; omega
  | succ fuel ih =>
    intro loopCount newidx acc hidx hacc hle hlt
    have hnone : Safe (Mem.Sound M) (pure none : Client (Option Bytes)) (fun r => ∀ v, r = some v → v.length ≤ valsize) :=
      Safe.pure fun v h => absurd h (by simp)
    have hsome : ∀ {acc : Bytes}, acc.length ≤ valsize → Safe (Mem.Sound M) (pure (some acc) : Client (Option Bytes))
        (fun r => ∀ v, r = some v → v.length ≤ valsize) :=
      fun h => Safe.pure fun v hv => Option.some.inj hv ▸ h
    refine Safe.ite (fun hc => ?_) fun _ => hsome hacc
    have hidx := hidx.resolve_left hc.2
    refine (fieldNow_safe hidx (Q := (· ≤ slotDataSize)) fun _ hs => hs.size).bind fun vsize hsize =>
      Safe.ite (fun _ => hnone) fun hroom => ?_
    refine (fieldNow_safe (Q := fun _ => True) hidx fun _ _ => trivial).bind fun _ _ => ?_
    refine (copyNow_safe hidx hsize (by omega)).bind fun acc' hacc' => ?_
    refine (linkNow_safe hidx).bind fun _ _ => Safe.ite (fun _ => hsome hacc') fun _ => ?_
    refine maxslotsNow_safe.bind fun n hn => Safe.ite (fun _ => hnone) fun hmore => ?_
    exact (linkNow_safe hidx).bind fun link hlink => ih (loopCount + 1) hlink hacc' (by omega) (by omega)

theorem getDataNow_safe {idx : Nat} (hidx : idx < M) : Safe (Mem.Sound M) (getDataNow M idx) (fun _ => True) := by
  refine (valsizeLoopNow_safe (M + 1) 0 0 (by omega) (Nat.zero_le _) (by omega)).bind fun r _ => ?_
  cases r with
  | none => exact Safe.pure trivial
  | some valsize =>
    refine (copyLoopNow_safe (M + 1) 0 (Or.inr (by omega)) (Nat.zero_le _) (Nat.zero_le _) (by omega)).bind
      fun r _ => ?_
    cases r with
    | none => exact Safe.pure trivial
    | some v => exact Safe.pure trivial

/-- **A look-up in a table that exists.** -/
theorem qhasharrGetNow_safe (md5 : Bytes → Bytes) (hashFn : Bytes → Nat) (hM : 0 < M) (key : Bytes) :
    Safe (Mem.Sound M) (qhasharrGetNow M md5 hashFn key) (fun _ => True) := by
  refine maxslotsNow_safe.bind fun n hn => Safe.ite (fun _ => Safe.pure trivial) fun _ => ?_
  refine maxslotsNow_safe.bind fun n hn => ?_
  rw [if_neg (by omega)]
  refine (getIdxNow_safe key (by subst hn; exact Nat.mod_lt _ hM)).bind fun r hr => ?_
  cases r with
  | none => exact Safe.pure trivial
  | some idx => exact getDataNow_safe (hr idx rfl)

/-! ### Undisturbed -/

/-- The unions hold what the buffers of the slots say: the value or its piece, and the key where
there is one. -/
structure Mem.Agrees (M : Nat) (m : Mem) : Prop where
  bytes : ∀ i, i < M → (m.data i).take (m.tbl.slots i).size = (m.tbl.slots i).bytes
  key : ∀ i, i < M → 0 < (m.tbl.slots i).count ∨ (m.tbl.slots i).count = -1 →
    ((m.data i).drop keyOff).take keysize = (m.tbl.slots i).key ∧
    leNat (((m.data i).drop keylenOff).take 2) = (m.tbl.slots i).keylen ∧
    ((m.data i).drop keymd5Off).take 16 = (m.tbl.slots i).keymd5

variable {m : Mem}

theorem fieldNow_yields {α : Type} {i : Nat} (hi : i < M) (f : Slot → α) :
    Yields (fieldNow M i f) m (f (m.tbl.slots i)) := by
  rw [fieldNow, if_pos (by omega)]
  exact Yields.look _ m

theorem dataNow_yields {i off len : Nat} (hi : i < M) (hlen : off + len ≤ slotDataSize) :
    Yields (dataNow M i off len) m (((m.data i).drop off).take len) := by
  rw [dataNow, if_pos (by omega), if_pos hlen]
  exact Yields.look _ m

theorem keyMatchesNow_yields (h : m.Agrees M) {i : Nat} (hi : i < M)
    (hc : 0 < (m.tbl.slots i).count ∨ (m.tbl.slots i).count = -1) (key : Bytes) :
    Yields (keyMatchesNow M md5 key i) m (keyMatches md5 (m.tbl.slots i) key) := by
  obtain ⟨hkey, hkeylen, hmd5⟩ := h.key i hi hc
  refine (dataNow_yields hi (by decide)).bind ?_
  rw [keyMatches, hkeylen]
  by_cases hlen : key.length = (m.tbl.slots i).keylen
  · rw [if_pos hlen, beq_iff_eq.mpr hlen, Bool.true_and]
    by_cases hshort : key.length ≤ keysize
    · rw [if_pos hshort, if_pos hshort]
      have htake : ((m.data i).drop keyOff).take key.length = (m.tbl.slots i).key.take key.length := by
        rw [← hkey, List.take_take, Nat.min_eq_left hshort]
      refine (dataNow_yields hi (Nat.le_trans (Nat.add_le_add_left hshort _) (by decide))).bind ?_
      rw [htake]
      exact Yields.pure _ m
    · rw [if_neg hshort, if_neg hshort]
      have htake : ((m.data i).drop keyOff).take keysize = (m.tbl.slots i).key.take keysize := by
        rw [← hkey, List.take_take, Nat.min_self]
      refine (dataNow_yields hi (by decide)).bind ?_
      rw [htake]
      cases (m.tbl.slots i).key.take keysize == key.take keysize with
      | false => exact Yields.pure _ m
      | true =>
        refine (dataNow_yields hi (by decide)).bind ?_
        rw [hmd5]
        exact Yields.pure _ m
  · rw [if_neg hlen, beq_eq_false_iff_ne.mpr hlen, Bool.false_and]
    exact Yields.pure _ m

theorem inBucketNow_yields {i : Nat} (hi : i < M) (hash : Nat) :
    Yields (inBucketNow M hash i) m ((m.tbl.slots i).inBucket hash) := by
  refine (fieldNow_yields hi _).bind ?_
  rw [Slot.inBucket]
  by_cases hh : (m.tbl.slots i).hash = hash
  · rw [if_pos hh, beq_iff_eq.mpr hh, Bool.true_and]
    refine (fieldNow_yields hi _).bind ?_
    by_cases hc : (m.tbl.slots i).count > 0
    · rw [if_pos hc, decide_eq_true hc, Bool.true_or]
      exact Yields.pure _ m
    · rw [if_neg hc, decide_eq_false hc, Bool.false_or]
      exact (fieldNow_yields hi _).bind (Yields.pure _ m)
  · rw [if_neg hh, beq_eq_false_iff_ne.mpr hh, Bool.false_and]
    exact Yields.pure _ m

theorem getIdxLoopNow_yields (hs : m.Sound M) (h : m.Agrees M) (key : Bytes) {hash : Nat} (hhash : hash < M) :
    ∀ (fuel : Nat) {idx : Nat} (count : Int), idx < M → leftOf M hash idx ≤ fuel →
      Yields (getIdxLoopNow M md5 key hash fuel idx count) m (getIdxLoop md5 m.tbl key hash fuel idx count) := by
  intro fuel
  induction fuel with
  | zero =>
    intro idx count hidx hleft
    exact absurd hleft (Nat.not_le.mpr (leftOf_pos hidx))
  | succ fuel ih =>
    intro idx count hidx hleft
    have hnext : m.tbl.next idx = if M ≤ idx + 1 then 0 else idx + 1 := by rw [Tbl.next, hs.tbl.maxslots]
    -- the end of a round, with the count that it leaves
    have hround : ∀ c : Int, Yields (do
        let n ← maxslotsNow
        if (if n ≤ idx + 1 then 0 else idx + 1) = hash then pure none
        else getIdxLoopNow M md5 key hash fuel (if n ≤ idx + 1 then 0 else idx + 1) c) m
        (if m.tbl.next idx = hash then none else getIdxLoop md5 m.tbl key hash fuel (m.tbl.next idx) c) := by
      intro c
      refine (Yields.look _ m).bind ?_
      rw [hs.tbl.maxslots, hnext]
      by_cases hback : (if M ≤ idx + 1 then 0 else idx + 1) = hash
      · rw [if_pos hback, if_pos hback]
        exact Yields.pure _ m
      · rw [if_neg hback, if_neg hback]
        obtain ⟨hlt, hless⟩ := leftOf_next hhash hidx hback
        exact ih c hlt (by omega)
    unfold getIdxLoopNow getIdxLoop
    refine (fieldNow_yields hhash _).bind ?_
    split
    · refine (inBucketNow_yields hidx hash).bind ?_
      cases hb : (m.tbl.slots idx).inBucket hash with
      | false => exact (Yields.pure false m).bind (hround count)
      | true =>
        have hc : 0 < (m.tbl.slots idx).count ∨ (m.tbl.slots idx).count = -1 := by
          rw [Slot.inBucket, Bool.and_eq_true, Bool.or_eq_true, decide_eq_true_iff, beq_iff_eq, beq_iff_eq] at hb
          exact hb.2
        refine (keyMatchesNow_yields h hidx hc key).bind ?_
        cases keyMatches md5 (m.tbl.slots idx) key with
        | false => exact hround (count + 1)
        | true => exact Yields.pure _ m
    · exact Yields.pure _ m

theorem getIdxNow_yields (hs : m.Sound M) (h : m.Agrees M) (key : Bytes) {hash : Nat} (hhash : hash < M) :
    Yields (getIdxNow M md5 key hash) m (getIdx md5 m.tbl key hash) := by
  refine (fieldNow_yields hhash _).bind ?_
  unfold getIdx
  split
  · rw [hs.tbl.maxslots]
    refine getIdxLoopNow_yields hs h key hhash M 0 hhash ?_
    unfold leftOf
    rw [if_pos (Nat.le_refl _)]
    omega
  · exact Yields.pure _ m

theorem valsizeLoopNow_yields (hs : m.Sound M) : ∀ (fuel loopCount rounds : Nat) {i : Nat} (valsize : Nat), i < M →
    rounds + loopCount = M → M < fuel + loopCount →
      Yields (valsizeLoopNow M fuel loopCount i valsize) m (valsizeLoop m.tbl rounds i valsize) := by
  intro fuel
  induction fuel with
  | zero => intro loopCount rounds i valsize _ hr hlt; omega
  | succ fuel ih =>
    intro loopCount rounds i valsize hi hr hlt
    unfold valsizeLoopNow
    refine (fieldNow_yields hi _).bind ((fieldNow_yields hi _).bind ?_)
    by_cases hend : (m.tbl.slots i).link = -1
    · rw [if_pos hend]
      cases rounds with
      | zero => rw [valsizeLoop, if_pos hend]; exact Yields.pure _ m
      | succ rounds => rw [valsizeLoop, if_pos hend]; exact Yields.pure _ m
    · rw [if_neg hend]
      refine (Yields.look _ m).bind ?_
      rw [hs.tbl.maxslots]
      cases rounds with
      | zero =>
        rw [if_pos (by omega), valsizeLoop, if_neg hend]
        exact Yields.pure _ m
      | succ rounds =>
        rw [if_neg (by omega), valsizeLoop, if_neg hend]
        refine (fieldNow_yields hi _).bind ?_
        have hto : (((m.tbl.slots i).link.toNat : Nat) : Int) = (m.tbl.slots i).link := by
          have := (hs.tbl.slot i hi).link
          omega
        rw [if_neg hend, ← hto]
        exact ih (loopCount + 1) rounds _ (hs.tbl.link_lt hi hend) (by omega) (by omega)

theorem copyNow_yields (h : m.Agrees M) {i valsize : Nat} (hi : i < M) (hs : m.Sound M) {acc : Bytes}
    (hroom : acc.length + (m.tbl.slots i).size ≤ valsize) :
    Yields (copyNow M i (m.tbl.slots i).size valsize acc) m (acc ++ (m.tbl.slots i).bytes) := by
  refine (dataNow_yields hi (by have := (hs.tbl.slot i hi).size; omega)).bind ?_
  rw [List.drop_zero, h.bytes i hi]
  have hlen : (m.tbl.slots i).bytes.length ≤ (m.tbl.slots i).size := by
    rw [← h.bytes i hi]
    exact List.length_take_le _ _
  rw [if_pos (by omega)]
  exact Yields.pure _ m

theorem copyLoopNow_yields (hs : m.Sound M) (h : m.Agrees M) {valsize : Nat} :
    ∀ (fuel loopCount rounds : Nat) {i : Nat} (acc : Bytes), i < M → rounds + loopCount = M → M < fuel + loopCount →
      Yields (copyLoopNow M valsize fuel loopCount i acc) m (copyLoop m.tbl valsize rounds i acc) := by
  intro fuel
  induction fuel with
  | zero => intro loopCount rounds i acc _ hr hlt; omega
  | succ fuel ih =>
    intro loopCount rounds i acc hi hr hlt
    have hne : (i : Int) ≠ -1 := by omega
    unfold copyLoopNow
    by_cases hless : acc.length < valsize
    · rw [if_pos ⟨hless, hne⟩]
      refine (fieldNow_yields hi _).bind ?_
      by_cases hroom : valsize < acc.length + (m.tbl.slots i).size
      · rw [if_pos hroom]
        cases rounds with
        | zero => rw [copyLoop, if_pos hless, if_pos hroom]; exact Yields.pure _ m
        | succ rounds => rw [copyLoop, if_pos hless, if_pos hroom]; exact Yields.pure _ m
      · rw [if_neg hroom]
        refine (fieldNow_yields hi _).bind ((copyNow_yields h hi hs (Nat.not_lt.mp hroom)).bind ?_)
        refine (fieldNow_yields hi _).bind ?_
        by_cases hend : (m.tbl.slots i).link = -1
        · rw [if_pos hend]
          cases rounds with
          | zero => rw [copyLoop, if_pos hless, if_neg hroom, if_pos hend]; exact Yields.pure _ m
          | succ rounds => rw [copyLoop, if_pos hless, if_neg hroom, if_pos hend]; exact Yields.pure _ m
        · rw [if_neg hend]
          refine (Yields.look _ m).bind ?_
          rw [hs.tbl.maxslots]
          cases rounds with
          | zero =>
            rw [if_pos (by omega), copyLoop, if_pos hless, if_neg hroom, if_neg hend]
            exact Yields.pure _ m
          | succ rounds =>
            rw [if_neg (by omega), copyLoop, if_pos hless, if_neg hroom, if_neg hend]
            refine (fieldNow_yields hi _).bind ?_
            have hto : (((m.tbl.slots i).link.toNat : Nat) : Int) = (m.tbl.slots i).link := by
              have := (hs.tbl.slot i hi).link
              omega
            rw [← hto]
            exact ih (loopCount + 1) rounds _ (hs.tbl.link_lt hi hend) (by omega) (by omega)
    · rw [if_neg (fun hc => hless hc.1)]
      cases rounds with
      | zero => rw [copyLoop, if_neg hless]; exact Yields.pure _ m
      | succ rounds => rw [copyLoop, if_neg hless]; exact Yields.pure _ m

theorem getDataNow_yields (hs : m.Sound M) (h : m.Agrees M) {i : Nat} (hi : i < M) :
    Yields (getDataNow M i) m (getData m.tbl i) := by
  refine (valsizeLoopNow_yields hs (M + 1) 0 M 0 hi rfl (by omega)).bind ?_
  rw [getData, hs.tbl.maxslots]
  cases valsizeLoop m.tbl M i 0 with
  | none => exact Yields.pure _ m
  | some valsize =>
    dsimp only
    refine (copyLoopNow_yields hs h (M + 1) 0 M [] hi rfl (by omega)).bind ?_
    cases copyLoop m.tbl valsize M i [] with
    | none => exact Yields.pure _ m
    | some v => exact Yields.pure _ m

/-- **Undisturbed, a client gets what the table has.** -/
theorem client_get_undisturbed (hM : 0 < M) (hs : m.Sound M) (h : m.Agrees M) (key : Bytes) :
    Yields (qhasharrGetNow M md5 hashFn key) m (qhasharrGet md5 hashFn m.tbl key) := by
  refine (Yields.look _ m).bind ?_
  rw [qhasharrGet, hs.tbl.maxslots, if_neg (by omega), if_neg (by omega)]
  refine (Yields.look _ m).bind ?_
  rw [hs.tbl.maxslots, if_neg (by omega)]
  have hhash : hashFn key % M < M := Nat.mod_lt _ hM
  refine (getIdxNow_yields hs h key hhash).bind ?_
  cases hget : getIdx md5 m.tbl key (hashFn key % M) with
  | none => exact Yields.pure _ m
  | some idx => exact getDataNow_yields hs h (hs.tbl.maxslots ▸ getIdx_lt (hs.tbl.maxslots.symm ▸ hhash) hget)

/-! ### Every interleaving -/

/-- **No fault, whenever the client comes.**  The segment may be new, with its header not yet
written; once the header is there, it stays. -/
theorem client_get_safe {mem : Nat → Mem} (hM : 0 < M)
    (hseen : ∀ n, (mem n).tbl.maxslots = 0 ∨ (mem n).Sound M)
    (hstays : ∀ j k, j ≤ k → (mem k).tbl.maxslots = 0 → (mem j).tbl.maxslots = 0) (key : Bytes) (n : Nat) :
    ∃ r n', qhasharrGetNow M md5 hashFn key mem n = .ok (r, n') := by
  by_cases hnew : (mem n).tbl.maxslots = 0
  · refine ⟨none, n + 1, ?_⟩
    rw [qhasharrGetNow, bind_apply]
    change (if (mem n).tbl.maxslots = 0 then _ else _ : Client (Option Bytes)) mem (n + 1) = _
    rw [if_pos hnew]
    rfl
  · have hlater : ∀ k, n ≤ k → (mem k).Sound M := fun k hk =>
      (hseen k).resolve_left fun h0 => hnew (hstays n k hk h0)
    obtain ⟨r, n', hr, -⟩ := qhasharrGetNow_safe md5 hashFn hM key mem n hlater
    exact ⟨r, n', hr⟩

end

/-- What a client sees at its instants: at the instant `n` the agent has done `pos n` of its stores,
and the unions hold `data n`. -/
def seen (w : List FieldStore) (pos : Nat → Nat) (data : Nat → Nat → Bytes) (n : Nat) : Mem :=
  ⟨applyAll freshTbl (w.take (pos n)), data n⟩

/-- **Clients may read at any time.**  The agent makes the table and then runs any operations on it;
a client looks a key up, with its accesses at any instants in between the single stores of the agent,
and with whatever bytes in the unions at these instants.  It stays in the table and in its buffer, and
it comes to an end. -/
theorem clients_read_safely (md5 : Bytes → Bytes) (hashFn : Bytes → Nat) (hmd5 : ∀ key, (md5 key).length = 16)
    (M : Nat) (hM : 0 < M) (ops : List Op) (pos : Nat → Nat) (hpos : Monotone pos) (data : Nat → Nat → Bytes)
    (hdata : ∀ n i, (data n i).length = slotDataSize) (key : Bytes) :
    ∃ r n', qhasharrGetNow M md5 hashFn key (seen (agentStores md5 hashFn M ops) pos data) 0 = .ok (r, n') := by
  refine client_get_safe hM (fun n => ?_) (fun j k hjk h0 => ?_) key 0
  · rcases Nat.eq_zero_or_pos (pos n) with h0 | hp
    · refine Or.inl ?_
      rw [seen, h0]
      rfl
    · exact Or.inr ⟨sound_agent hashFn hmd5 hM ops hp, hdata n⟩
  · rcases Nat.eq_zero_or_pos (pos k) with hk | hk
    · have hj : pos j = 0 := Nat.le_zero.mp (hk ▸ hpos hjk)
      rw [seen, hj]
      rfl
    · have := (sound_agent hashFn hmd5 hM ops hk).maxslots
      rw [seen, this] at h0
      omega

/-- A client that goes on with each store of the agent. -/
theorem crowdedRun_read_safely :
    ∃ r n', qhasharrGetNow 4 (fun _ => List.replicate 16 0) (fun k => (k.headD 0).toNat) [1]
      (seen (agentStores (fun _ => List.replicate 16 0) (fun k => (k.headD 0).toNat) 4 crowdedRun) id
        (fun _ _ => List.replicate slotDataSize 0)) 0 = .ok (r, n') :=
  clients_read_safely _ _ (fun _ => rfl) 4 (by decide) crowdedRun id monotone_id _
    (fun _ _ => List.length_replicate) [1]

end QConf.Qhasharr
