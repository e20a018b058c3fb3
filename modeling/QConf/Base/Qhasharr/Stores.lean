import QConf.Base.Qhasharr.FiniteMap

/-!
# The stores of the agent

The mutex around the table is one of the agent's process.  A client maps the same memory and reads it
while the agent is in the middle of an operation, so that it may see the table after any of the single
stores of which `_put_data` and its like consist.

Here every operation is a list of stores, in the order of the source.  The fields of a slot are
written one at a time; a `memset` or `memcpy` of a slot is one store for each field.

* Done to the end, the stores of an operation give what the operation gives (`Writes.applied`).
* Every store is one into a slot of the table, and it leaves no index and no size in a slot that
  would lead out of the table (`Writes.inRange`), so no state in between has one (`Sound`).
-/

namespace QConf.Qhasharr

/-- A field of a slot, with what is written there.  For a buffer it is what the buffer has
afterwards. -/
inductive Field
  | count (v : Int)
  | hash (v : Nat)
  | size (v : Nat)
  | link (v : Int)
  | value (b : Bytes)
  | key (b : Bytes)
  | keylen (v : Nat)
  | keymd5 (b : Bytes)
  | ext (b : Bytes)

def Field.apply (s : Slot) : Field → Slot
  | .count v => { s with count := v }
  | .hash v => { s with hash := v }
  | .size v => { s with size := v }
  | .link v => { s with link := v }
  | .value b => { s with value := b }
  | .key b => { s with key := b }
  | .keylen v => { s with keylen := v }
  | .keymd5 b => { s with keymd5 := b }
  | .ext b => { s with ext := b }

/-- A store into the shared memory. -/
inductive FieldStore
  | maxslots (n : Nat)
  | usedslots (v : Int)
  | num (v : Int)
  | slot (idx : Nat) (f : Field)

def FieldStore.apply (t : Tbl) : FieldStore → Tbl
  | .maxslots n => { t with maxslots := n }
  | .usedslots v => { t with usedslots := v }
  | .num v => { t with num := v }
  | .slot idx f => t.setSlot idx (f.apply (t.slots idx))

/-- Some stores one after the other. -/
def applyAll (t : Tbl) (w : List FieldStore) : Tbl := w.foldl FieldStore.apply t

/-! ### The operations as lists of stores -/

/-- `memcpy` and `memset` of a slot. -/
def slotStores (idx : Nat) (s : Slot) : List FieldStore :=
  [.slot idx (.count s.count), .slot idx (.hash s.hash), .slot idx (.size s.size), .slot idx (.link s.link),
    .slot idx (.value s.value), .slot idx (.key s.key), .slot idx (.keylen s.keylen),
    .slot idx (.keymd5 s.keymd5), .slot idx (.ext s.ext)]

/-- The memory of a new segment is zero. -/
def freshTbl : Tbl := ⟨0, 0, 0, fun _ => Slot.zero⟩

/-- `qhasharr`. -/
def qhasharrStores (maxslots : Nat) : List FieldStore := [.maxslots maxslots, .usedslots 0, .num 0]

/-- `_copy_slot`. -/
def copySlotStores (t : Tbl) (idx1 idx2 : Nat) : List FieldStore :=
  if (t.slots idx1).count ≠ 0 ∨ (t.slots idx2).count = 0 then []
  else slotStores idx1 (t.slots idx2) ++ [.usedslots (t.usedslots + 1)]

/-- `_remove_slot`. -/
def removeSlotStores (t : Tbl) (idx : Nat) : List FieldStore :=
  if (t.slots idx).count = 0 then [] else [.slot idx (.count 0), .usedslots (t.usedslots - 1)]

def removeLoopStores : Nat → Tbl → Nat → List FieldStore
  | 0, t, idx => removeSlotStores t idx
  | fuel + 1, t, idx =>
    let link := (t.slots idx).link
    removeSlotStores t idx ++ if link = -1 then [] else removeLoopStores fuel (removeSlot t idx) link.toNat

/-- `_remove_data`. -/
def removeDataStores (t : Tbl) (idx : Nat) : List FieldStore :=
  if (t.slots idx).count = 0 then []
  else removeLoopStores t.maxslots t idx ++ [.num ((removeLoop t.maxslots t idx).num - 1)]

/-- The first part of `_put_data`. -/
def storeKeyStores (md5 : Bytes → Bytes) (t : Tbl) (idx hash : Nat) (key : Bytes) (count : Int) : List FieldStore :=
  [.slot idx (.count count), .slot idx (.hash hash), .slot idx (.key (memcpy (t.slots idx).key (key.take keysize))),
    .slot idx (.keymd5 (md5 key)), .slot idx (.keylen (key.length % 65536)), .slot idx (.link (-1))]

def linkSlotStores (newidx tmpidx : Nat) : List FieldStore :=
  slotStores tmpidx Slot.zero ++
    [.slot tmpidx (.count (-2)), .slot tmpidx (.hash newidx), .slot tmpidx (.link (-1)), .slot tmpidx (.size 0),
      .slot newidx (.link (tmpidx : Int))]

def copyChunkStores (t : Tbl) (newidx : Nat) (rest : Bytes) : List FieldStore :=
  let s := t.slots newidx
  let n := copysize s rest
  if s.count = -2 then
    [.slot newidx (.ext (memcpy s.ext (rest.take n))), .slot newidx (.size n), .usedslots (t.usedslots + 1)]
  else
    [.slot newidx (.value (memcpy s.value (rest.take n))), .num (t.num + 1), .slot newidx (.size n),
      .usedslots (t.usedslots + 1)]

def putLoopStores (value : Bytes) (idx : Nat) : Nat → Tbl → Nat → Nat → List FieldStore
  | 0, _, _, _ => []
  | fuel + 1, t, newidx, savesize =>
    if savesize < value.length then
      if savesize > 0 then
        match findEmpty t (newidx + 1) with
        | none => removeDataStores t idx
        | some tmpidx =>
          let t₁ := linkSlot t newidx tmpidx
          let rest := value.drop savesize
          linkSlotStores newidx tmpidx ++ copyChunkStores t₁ tmpidx rest ++
            putLoopStores value idx fuel (copyChunk t₁ tmpidx rest) tmpidx
              (savesize + copysize (t₁.slots tmpidx) rest)
      else
        copyChunkStores t newidx value ++
          putLoopStores value idx fuel (copyChunk t newidx value) newidx (copysize (t.slots newidx) value)
    else []

/-- `_put_data`. -/
def putDataStores (md5 : Bytes → Bytes) (t : Tbl) (idx hash : Nat) (key value : Bytes) (count : Int) :
    List FieldStore :=
  if (t.slots idx).count ≠ 0 then []
  else storeKeyStores md5 t idx hash key count ++
    putLoopStores value idx (value.length + 1) (storeKey md5 t idx hash key count) idx 0

def fixNextStores (t : Tbl) (idx : Nat) : List FieldStore :=
  if (t.slots idx).link ≠ -1 then [.slot (t.slots idx).link.toNat (.hash idx)] else []

/-- `qhasharr_remove`. -/
def removeStores (md5 : Bytes → Bytes) (hashFn : Bytes → Nat) (t : Tbl) (key : Bytes) : List FieldStore :=
  if t.maxslots = 0 then []
  else
    let hash := hashFn key % t.maxslots
    match getIdx md5 t key hash with
    | none => []
    | some idx =>
      if (t.slots idx).count = 1 then removeDataStores t idx
      else if (t.slots idx).count > 1 then
        match findDup t hash idx with
        | none => []
        | some idx2 =>
          let backupcount := (t.slots idx).count
          let t₁ := removeData t idx
          let t₂ := copySlot t₁ idx idx2
          let t₃ := removeSlot t₂ idx2
          let t₄ := t₃.setSlot idx { t₃.slots idx with count := backupcount - 1 }
          removeDataStores t idx ++ copySlotStores t₁ idx idx2 ++ removeSlotStores t₂ idx2 ++
            [.slot idx (.count (backupcount - 1))] ++ fixNextStores t₄ idx
      else if (t.slots idx).count = -1 then
        let lead := (t.slots idx).hash
        if (t.slots lead).count ≤ 1 then []
        else
          let t₁ := t.setSlot lead { t.slots lead with count := (t.slots lead).count - 1 }
          [.slot lead (.count ((t.slots lead).count - 1))] ++ removeDataStores t₁ idx
      else []

def relinkStores (t : Tbl) (idx : Nat) : List FieldStore :=
  if (t.slots idx).count = -2 then
    let prev := (t.slots idx).hash
    [.slot prev (.link (idx : Int))] ++ fixNextStores (t.setSlot prev { t.slots prev with link := (idx : Int) }) idx
  else if (t.slots idx).count = -1 then fixNextStores t idx
  else []

def putAuxStores (md5 : Bytes → Bytes) (hashFn : Bytes → Nat) : Nat → Tbl → Bytes → Bytes → List FieldStore
  | 0, _, _, _ => []
  | fuel + 1, t, key, value =>
    if t.maxslots = 0 then []
    else if t.usedslots ≥ t.maxslots then []
    else
      let hash := hashFn key % t.maxslots
      if (t.slots hash).count = 0 then putDataStores md5 t hash hash key value 1
      else if (t.slots hash).count > 0 then
        match getIdx md5 t key hash with
        | some _ =>
          removeStores md5 hashFn t key ++
            match qhasharrRemove md5 hashFn t key with
            | (.error _, _) => []
            | (.ok (), t) => putAuxStores md5 hashFn fuel t key value
        | none =>
          match findEmpty t hash with
          | none => []
          | some idx =>
            putDataStores md5 t idx hash key value (-1) ++
              match putData md5 t idx hash key value (-1) with
              | (.error _, _) => []
              | (.ok (), t) => [.slot hash (.count (Int.bmod ((t.slots hash).count + 1) 65536))]
      else
        match findEmpty t (hash + 1) with
        | none => []
        | some idx =>
          let t₁ := copySlot t idx hash
          let t₂ := removeSlot t₁ hash
          copySlotStores t idx hash ++ removeSlotStores t₁ hash ++ relinkStores t₂ idx ++
            putDataStores md5 (relink t₂ idx) hash hash key value 1

/-- `qhasharr_put`. -/
def putStores (md5 : Bytes → Bytes) (hashFn : Bytes → Nat) (t : Tbl) (key value : Bytes) : List FieldStore :=
  putAuxStores md5 hashFn (t.maxslots + 1) t key value

/-- `qhasharr_clear`. -/
def clearStores (t : Tbl) : List FieldStore :=
  if t.usedslots = 0 then []
  else [.usedslots 0, .num 0] ++ (List.range t.maxslots).flatMap (fun i => slotStores i Slot.zero)

/-- The stores of an operation. -/
def Op.stores (md5 : Bytes → Bytes) (hashFn : Bytes → Nat) (t : Tbl) : Op → List FieldStore
  | .put key value => putStores md5 hashFn t key value
  | .remove key => removeStores md5 hashFn t key
  | .clear => clearStores t

/-- The stores of some operations, one after the other. -/
def runStores (md5 : Bytes → Bytes) (hashFn : Bytes → Nat) : Tbl → List Op → List FieldStore
  | _, [] => []
  | t, op :: ops => op.stores md5 hashFn t ++ runStores md5 hashFn (op.exec md5 hashFn t).2 ops

/-- The table after some operations. -/
def execAll (md5 : Bytes → Bytes) (hashFn : Bytes → Nat) (t : Tbl) (ops : List Op) : Tbl :=
  ops.foldl (fun t op => (op.exec md5 hashFn t).2) t

/-- All stores of an agent: it makes a table of `M` slots, and works on it. -/
def agentStores (md5 : Bytes → Bytes) (hashFn : Bytes → Nat) (M : Nat) (ops : List Op) : List FieldStore :=
  qhasharrStores M ++ runStores md5 hashFn (qhasharr M) ops

/-! ### What is in range -/

/-- Nothing in the slot leads out of a table of `M` slots, or out of a slot. -/
structure Slot.InRange (M : Nat) (s : Slot) : Prop where
  link : -1 ≤ s.link ∧ s.link < M
  hash : s.hash < M
  size : s.size ≤ slotDataSize
  value : s.value.length ≤ valuesize
  key : s.key.length ≤ keysize
  keylen : s.keylen < 65536
  keymd5 : s.keymd5.length ≤ 16
  ext : s.ext.length ≤ slotDataSize

def Field.InRange (M : Nat) : Field → Prop
  | .count _ => True
  | .hash v => v < M
  | .size v => v ≤ slotDataSize
  | .link v => -1 ≤ v ∧ v < M
  | .value b => b.length ≤ valuesize
  | .key b => b.length ≤ keysize
  | .keylen v => v < 65536
  | .keymd5 b => b.length ≤ 16
  | .ext b => b.length ≤ slotDataSize

def FieldStore.InRange (M : Nat) : FieldStore → Prop
  | .maxslots n => n = M
  | .usedslots _ => True
  | .num _ => True
  | .slot idx f => idx < M ∧ f.InRange M

/-- A table of `M` slots with everything in range, and nothing behind it. -/
structure Sound (M : Nat) (t : Tbl) : Prop where
  maxslots : t.maxslots = M
  slot : ∀ i, i < M → (t.slots i).InRange M
  beyond : ∀ i, M ≤ i → t.slots i = Slot.zero

section

variable {M : Nat} {md5 : Bytes → Bytes} {hashFn : Bytes → Nat} {t t' t'' : Tbl} {w w' : List FieldStore}

theorem Field.InRange.apply {s : Slot} {f : Field} (hf : f.InRange M) (hs : s.InRange M) :
    (f.apply s).InRange M := by
  cases f with
  | count v => exact { hs with }
  | hash v => exact { hs with hash := hf }
  | size v => exact { hs with size := hf }
  | link v => exact { hs with link := hf }
  | value b => exact { hs with value := hf }
  | key b => exact { hs with key := hf }
  | keylen v => exact { hs with keylen := hf }
  | keymd5 b => exact { hs with keymd5 := hf }
  | ext b => exact { hs with ext := hf }

theorem Sound.setSlot (h : Sound M t) {idx : Nat} (hidx : idx < M) {s : Slot} (hs : s.InRange M) :
    Sound M (t.setSlot idx s) where
  maxslots := h.maxslots
  slot i hi := by
    by_cases hne : i = idx
    · subst hne
      rwa [setSlot_slots_self]
    · rw [setSlot_slots_of_ne t s hne]
      exact h.slot i hi
  beyond i hi := by
    rw [setSlot_slots_of_ne t s (by omega)]
    exact h.beyond i hi

/-- **One store in range keeps the table sound.** -/
theorem Sound.apply (h : Sound M t) {st : FieldStore} (hst : st.InRange M) : Sound M (st.apply t) := by
  cases st with
  | maxslots n => exact ⟨hst, h.slot, h.beyond⟩
  | usedslots v => exact ⟨h.maxslots, h.slot, h.beyond⟩
  | num v => exact ⟨h.maxslots, h.slot, h.beyond⟩
  | slot idx f => exact h.setSlot hst.1 (hst.2.apply (h.slot idx hst.1))

theorem Sound.applyAll : ∀ {w : List FieldStore} {t : Tbl}, Sound M t → (∀ st ∈ w, st.InRange M) →
    Sound M (applyAll t w) := by
  intro w
  induction w with
  | nil => intro t h _; exact h
  | cons st w ih =>
    intro t h hw
    exact ih (h.apply (hw st List.mem_cons_self)) (fun st' hst' => hw st' (List.mem_cons_of_mem _ hst'))

/-! ### Operations -/

/-- The stores `w` lead from `t` to `t'`, and all of them are in range. -/
structure Writes (M : Nat) (t : Tbl) (w : List FieldStore) (t' : Tbl) : Prop where
  applied : applyAll t w = t'
  inRange : ∀ st ∈ w, st.InRange M

theorem Writes.nil (M : Nat) (t : Tbl) : Writes M t [] t := ⟨rfl, by simp⟩

theorem Writes.append (h : Writes M t w t') (h' : Writes M t' w' t'') : Writes M t (w ++ w') t'' where
  applied := by
    rw [← h'.applied, ← h.applied]
    exact List.foldl_append
  inRange st hst := (List.mem_append.mp hst).elim (h.inRange st) (h'.inRange st)

theorem Writes.sound (h : Writes M t w t') (hs : Sound M t) : Sound M t' := h.applied ▸ hs.applyAll h.inRange

theorem setSlot_setSlot (t : Tbl) (i : Nat) (s s' : Slot) : (t.setSlot i s).setSlot i s' = t.setSlot i s' := by
  simp [Tbl.setSlot]

theorem writes_slot (t : Tbl) {idx : Nat} (hidx : idx < M) {f : Field} (hf : f.InRange M) :
    Writes M t [.slot idx f] (t.setSlot idx (f.apply (t.slots idx))) :=
  ⟨rfl, by simpa [FieldStore.InRange] using ⟨hidx, hf⟩⟩

theorem writes_slotStores (t : Tbl) {idx : Nat} (hidx : idx < M) {s : Slot} (hs : s.InRange M) :
    Writes M t (slotStores idx s) (t.setSlot idx s) := by
  refine ⟨?_, ?_⟩
  · simp only [slotStores, applyAll, List.foldl_cons, List.foldl_nil, FieldStore.apply, Field.apply, setSlot_slots_self,
      setSlot_setSlot]
  · simp only [slotStores, List.forall_mem_cons, FieldStore.InRange, Field.InRange]
    exact ⟨⟨hidx, trivial⟩, ⟨hidx, hs.hash⟩, ⟨hidx, hs.size⟩, ⟨hidx, hs.link⟩, ⟨hidx, hs.value⟩, ⟨hidx, hs.key⟩,
      ⟨hidx, hs.keylen⟩, ⟨hidx, hs.keymd5⟩, ⟨hidx, hs.ext⟩, by simp⟩

/-- The index to which a link leads. -/
theorem Sound.link_lt (h : Sound M t) {i : Nat} (hi : i < M) (hne : (t.slots i).link ≠ -1) :
    (t.slots i).link.toNat < M := by
  obtain ⟨hlow, hhigh⟩ := (h.slot i hi).link
  have hnonneg : 0 ≤ (t.slots i).link := by
    have := lt_of_le_of_ne hlow (Ne.symm hne)
    omega
  exact (Int.toNat_lt hnonneg).mpr hhigh

theorem Slot.inRange_zero (hM : 0 < M) : Slot.zero.InRange M where
  link := ⟨by decide, by simpa [Slot.zero] using hM⟩
  hash := hM
  size := by decide
  value := by decide
  key := by decide
  keylen := by decide
  keymd5 := by decide
  ext := by decide

theorem writes_copySlot (h : Sound M t) {idx1 idx2 : Nat} (h1 : idx1 < M) (h2 : idx2 < M) :
    Writes M t (copySlotStores t idx1 idx2) (copySlot t idx1 idx2) := by
  unfold copySlotStores copySlot
  split
  · exact Writes.nil M t
  · exact (writes_slotStores t h1 (h.slot idx2 h2)).append ⟨rfl, by simp [FieldStore.InRange]⟩

theorem writes_removeSlot (t : Tbl) {idx : Nat} (hidx : idx < M) :
    Writes M t (removeSlotStores t idx) (removeSlot t idx) := by
  unfold removeSlotStores removeSlot
  split
  · exact Writes.nil M t
  · exact (writes_slot t hidx (f := .count 0) trivial).append ⟨rfl, by simp [FieldStore.InRange]⟩

theorem writes_removeLoop : ∀ (fuel : Nat) {t : Tbl} {idx : Nat}, Sound M t → idx < M →
    Writes M t (removeLoopStores fuel t idx) (removeLoop fuel t idx) := by
  intro fuel
  induction fuel with
  | zero => intro t idx _ hidx; exact writes_removeSlot t hidx
  | succ fuel ih =>
    intro t idx h hidx
    have hslot := writes_removeSlot t hidx
    unfold removeLoopStores removeLoop
    dsimp only
    refine hslot.append ?_
    split
    · exact Writes.nil M _
    · next hne => exact ih (hslot.sound h) (h.link_lt hidx hne)

theorem writes_removeData (h : Sound M t) {idx : Nat} (hidx : idx < M) :
    Writes M t (removeDataStores t idx) (removeData t idx) := by
  unfold removeDataStores removeData
  split
  · exact Writes.nil M t
  · exact (writes_removeLoop _ h hidx).append ⟨rfl, by simp [FieldStore.InRange]⟩

theorem memcpy_length_le {dst src : Bytes} {n : Nat} (hd : dst.length ≤ n) (hs : src.length ≤ n) :
    (memcpy dst src).length ≤ n := by
  rw [memcpy, List.length_append, List.length_drop]
  omega

theorem writes_storeKey (hmd5 : ∀ key, (md5 key).length = 16) (h : Sound M t) {idx hash : Nat} (hidx : idx < M)
    (hhash : hash < M) (key : Bytes) (count : Int) :
    Writes M t (storeKeyStores md5 t idx hash key count) (storeKey md5 t idx hash key count) := by
  refine ⟨?_, ?_⟩
  · simp only [storeKeyStores, applyAll, List.foldl_cons, List.foldl_nil, FieldStore.apply, Field.apply,
      setSlot_slots_self, setSlot_setSlot]
    rfl
  · have hkey : (memcpy (t.slots idx).key (key.take keysize)).length ≤ keysize :=
      memcpy_length_le (h.slot idx hidx).key (List.length_take_le _ _)
    simp only [storeKeyStores, List.forall_mem_cons, FieldStore.InRange, Field.InRange]
    exact ⟨⟨hidx, trivial⟩, ⟨hidx, hhash⟩, ⟨hidx, hkey⟩, ⟨hidx, (hmd5 key).le⟩,
      ⟨hidx, Nat.mod_lt _ (by decide)⟩, ⟨hidx, by omega, by omega⟩, by simp⟩

theorem writes_linkSlot (t : Tbl) {newidx tmpidx : Nat} (hnew : newidx < M) (htmp : tmpidx < M) :
    Writes M t (linkSlotStores newidx tmpidx) (linkSlot t newidx tmpidx) := by
  have hzero := writes_slotStores t htmp (Slot.inRange_zero (Nat.lt_of_le_of_lt (Nat.zero_le _) htmp))
  refine hzero.append ⟨?_, ?_⟩
  · simp only [applyAll, List.foldl_cons, List.foldl_nil, FieldStore.apply, Field.apply, setSlot_slots_self,
      setSlot_setSlot]
    rfl
  · simp only [List.forall_mem_cons, FieldStore.InRange, Field.InRange]
    exact ⟨⟨htmp, trivial⟩, ⟨htmp, hnew⟩, ⟨htmp, by omega, by omega⟩, ⟨htmp, by decide⟩,
      ⟨hnew, by omega, by omega⟩, by simp⟩

theorem writes_copyChunk (h : Sound M t) {newidx : Nat} (hnew : newidx < M) (rest : Bytes) :
    Writes M t (copyChunkStores t newidx rest) (copyChunk t newidx rest) := by
  have hslot := h.slot newidx hnew
  unfold copyChunkStores copyChunk copysize
  dsimp only
  split
  · refine ⟨?_, ?_⟩
    · simp only [applyAll, List.foldl_cons, List.foldl_nil, FieldStore.apply, Field.apply, setSlot_slots_self,
        setSlot_setSlot]
    · have hext : (memcpy (t.slots newidx).ext (rest.take (min rest.length slotDataSize))).length ≤ slotDataSize :=
        memcpy_length_le hslot.ext (by rw [List.length_take]; omega)
      simp only [List.forall_mem_cons, FieldStore.InRange, Field.InRange]
      exact ⟨⟨hnew, hext⟩, ⟨hnew, Nat.min_le_right _ _⟩, trivial, by simp⟩
  · refine ⟨?_, ?_⟩
    · simp only [applyAll, List.foldl_cons, List.foldl_nil, FieldStore.apply, Field.apply, setSlot_slots_self]
      simp [Tbl.setSlot]
    · have hvalue : (memcpy (t.slots newidx).value (rest.take (min rest.length valuesize))).length ≤ valuesize :=
        memcpy_length_le hslot.value (by rw [List.length_take]; omega)
      have hsize : min rest.length valuesize ≤ slotDataSize :=
        Nat.le_trans (Nat.min_le_right _ _) (by decide)
      simp only [List.forall_mem_cons, FieldStore.InRange, Field.InRange]
      exact ⟨⟨hnew, hvalue⟩, trivial, ⟨hnew, hsize⟩, trivial, by simp⟩

theorem writes_putLoop (value : Bytes) {idx : Nat} (hidx : idx < M) : ∀ (fuel : Nat) {t : Tbl} {newidx : Nat}
    (savesize : Nat), Sound M t → newidx < M →
      Writes M t (putLoopStores value idx fuel t newidx savesize) (putLoop value idx fuel t newidx savesize).2 := by
  intro fuel
  induction fuel with
  | zero => intro t newidx savesize _ _; exact Writes.nil M t
  | succ fuel ih =>
    intro t newidx savesize h hnew
    unfold putLoopStores putLoop
    split
    · split
      · cases hempty : findEmpty t (newidx + 1) with
        | none => exact writes_removeData h hidx
        | some tmpidx =>
          have htmp : tmpidx < M :=
            h.maxslots ▸ (findEmpty_some (h.maxslots ▸ Nat.lt_of_le_of_lt (Nat.zero_le _) hidx) hempty).1
          have hlink := writes_linkSlot t hnew htmp
          have hchunk := writes_copyChunk (hlink.sound h) htmp (value.drop savesize)
          exact (hlink.append hchunk).append (ih _ (hchunk.sound (hlink.sound h)) htmp)
      · have hchunk := writes_copyChunk h hnew value
        exact hchunk.append (ih _ (hchunk.sound h) hnew)
    · exact Writes.nil M t

theorem writes_putData (hmd5 : ∀ key, (md5 key).length = 16) (h : Sound M t) {idx hash : Nat} (hidx : idx < M)
    (hhash : hash < M) (key value : Bytes) (count : Int) :
    Writes M t (putDataStores md5 t idx hash key value count) (putData md5 t idx hash key value count).2 := by
  unfold putDataStores putData
  split
  · exact Writes.nil M t
  · have hkey := writes_storeKey hmd5 h hidx hhash key count
    exact hkey.append (writes_putLoop value hidx _ _ (hkey.sound h) hidx)

theorem writes_fixNext (h : Sound M t) {idx : Nat} (hidx : idx < M) :
    Writes M t (fixNextStores t idx) (fixNext t idx) := by
  unfold fixNextStores fixNext
  split
  · next hne => exact writes_slot t (h.link_lt hidx hne) hidx
  · exact Writes.nil M t

theorem writes_relink (h : Sound M t) {idx : Nat} (hidx : idx < M) :
    Writes M t (relinkStores t idx) (relink t idx) := by
  unfold relinkStores relink
  split
  · have hprev : Writes M t [.slot (t.slots idx).hash (.link (idx : Int))] _ :=
      writes_slot t (h.slot idx hidx).hash ⟨by omega, by omega⟩
    exact hprev.append (writes_fixNext (hprev.sound h) hidx)
  split
  · exact writes_fixNext h hidx
  · exact Writes.nil M t

/-! ### The searches stay in the table -/

theorem Tbl.next_lt {i : Nat} (hn : 0 < t.maxslots) : t.next i < t.maxslots := by
  unfold Tbl.next
  split <;> omega

theorem getIdxLoop_lt (key : Bytes) {hash : Nat} : ∀ (fuel : Nat) {idx i : Nat} {count : Int}, idx < t.maxslots →
    getIdxLoop md5 t key hash fuel idx count = some i → i < t.maxslots := by
  intro fuel
  induction fuel with
  | zero => intro idx i count _ h; exact absurd h (by simp [getIdxLoop])
  | succ fuel ih =>
    intro idx i count hidx h
    have hnext : t.next idx < t.maxslots := Tbl.next_lt (by omega)
    unfold getIdxLoop at h
    split at h
    · split at h
      · split at h
        · exact Option.some.inj h ▸ hidx
        split at h
        · exact absurd h (by simp)
        · exact ih hnext h
      · split at h
        · exact absurd h (by simp)
        · exact ih hnext h
    · exact absurd h (by simp)

theorem getIdx_lt {key : Bytes} {hash i : Nat} (hhash : hash < t.maxslots) (h : getIdx md5 t key hash = some i) :
    i < t.maxslots := by
  unfold getIdx at h
  split at h
  · exact getIdxLoop_lt key _ hhash h
  · exact absurd h (by simp)

theorem findDup_lt {hash idx i : Nat} (hidx : idx < t.maxslots) (h : findDup t hash idx = some i) :
    i < t.maxslots := by
  obtain ⟨suf, hr, heq⟩ := findDup_eq hash hidx
  rw [heq] at h
  have hmem : i ∈ Ring.rotation t.maxslots idx := by
    rw [hr]
    exact List.mem_cons_of_mem _ (List.mem_of_find?_eq_some h)
  exact (Ring.mem_rotation (Nat.le_of_lt hidx)).mp hmem

/-! ### The operations -/

theorem writes_remove (h : Sound M t) (key : Bytes) :
    Writes M t (removeStores md5 hashFn t key) (qhasharrRemove md5 hashFn t key).2 := by
  have hmax := h.maxslots
  unfold removeStores qhasharrRemove
  split
  · exact Writes.nil M t
  · next hne =>
    have hhash : hashFn key % t.maxslots < t.maxslots := Nat.mod_lt _ (by omega)
    dsimp only
    cases hget : getIdx md5 t key (hashFn key % t.maxslots) with
    | none => exact Writes.nil M t
    | some idx =>
      have hidx : idx < M := hmax ▸ getIdx_lt hhash hget
      dsimp only
      split
      · exact writes_removeData h hidx
      split
      · cases hdup : findDup t (hashFn key % t.maxslots) idx with
        | none => exact Writes.nil M t
        | some idx2 =>
          have hidx2 : idx2 < M := hmax ▸ findDup_lt (hmax ▸ hidx) hdup
          have h1 := writes_removeData h hidx
          have h2 := writes_copySlot (h1.sound h) hidx hidx2
          have h3 := writes_removeSlot (copySlot (removeData t idx) idx idx2) hidx2
          have hsound := h3.sound (h2.sound (h1.sound h))
          have h4 := writes_slot (removeSlot (copySlot (removeData t idx) idx idx2) idx2) hidx
            (f := .count ((t.slots idx).count - 1)) trivial
          exact (((h1.append h2).append h3).append h4).append (writes_fixNext (h4.sound hsound) hidx)
      split
      · split
        · exact Writes.nil M t
        · have h1 := writes_slot t (h.slot idx hidx).hash
            (f := .count ((t.slots (t.slots idx).hash).count - 1)) trivial
          exact h1.append (writes_removeData (h1.sound h) hidx)
      · exact Writes.nil M t

theorem writes_putAux (hmd5 : ∀ key, (md5 key).length = 16) (key value : Bytes) : ∀ (fuel : Nat) {t : Tbl},
    Sound M t → Writes M t (putAuxStores md5 hashFn fuel t key value) (putAux md5 hashFn fuel t key value).2 := by
  intro fuel
  induction fuel with
  | zero => intro t _; exact Writes.nil M t
  | succ fuel ih =>
    intro t h
    have hmax := h.maxslots
    unfold putAuxStores putAux
    split
    · exact Writes.nil M t
    split
    · exact Writes.nil M t
    next hne _ =>
    have hpos : 0 < t.maxslots := by omega
    have hhash : hashFn key % t.maxslots < M := hmax ▸ Nat.mod_lt _ hpos
    dsimp only
    split
    · exact writes_putData hmd5 h hhash hhash key value 1
    split
    · cases hget : getIdx md5 t key (hashFn key % t.maxslots) with
      | some i =>
        have hrem := @writes_remove M md5 hashFn t h key
        cases hr : qhasharrRemove md5 hashFn t key with
        | mk r t₁ =>
          rw [hr] at hrem
          cases r with
          | error e => exact hrem.append (Writes.nil M _)
          | ok u => exact hrem.append (ih (hrem.sound h))
      | none =>
        cases hempty : findEmpty t (hashFn key % t.maxslots) with
        | none => exact Writes.nil M t
        | some idx =>
          have hidx : idx < M := hmax ▸ (findEmpty_some hpos hempty).1
          have hput := writes_putData hmd5 h hidx hhash key value (-1)
          dsimp only
          cases hr : putData md5 t idx (hashFn key % t.maxslots) key value (-1) with
          | mk r t₁ =>
            rw [hr] at hput
            cases r with
            | error e => exact hput.append (Writes.nil M _)
            | ok u => exact hput.append (writes_slot t₁ hhash (f := .count _) trivial)
    · cases hempty : findEmpty t (hashFn key % t.maxslots + 1) with
      | none => exact Writes.nil M t
      | some idx =>
        have hidx : idx < M := hmax ▸ (findEmpty_some hpos hempty).1
        have h1 := writes_copySlot h hidx hhash
        have h2 := writes_removeSlot (copySlot t idx (hashFn key % t.maxslots)) hhash
        have h3 := writes_relink (h2.sound (h1.sound h)) hidx
        have hsound := h3.sound (h2.sound (h1.sound h))
        exact ((h1.append h2).append h3).append (writes_putData hmd5 hsound hhash hhash key value 1)

/-- The slots that are cleared so far. -/
theorem writes_clearLoop (hM : 0 < M) (t : Tbl) : ∀ {n : Nat}, n ≤ M →
    Writes M t ((List.range n).flatMap (fun i => slotStores i Slot.zero))
      { t with slots := fun i => if i < n then Slot.zero else t.slots i } := by
  intro n
  induction n with
  | zero => intro _; exact ⟨rfl, by simp⟩
  | succ n ih =>
    intro hn
    rw [List.range_succ, List.flatMap_append, List.flatMap_singleton]
    have hslot := writes_slotStores { t with slots := fun i => if i < n then Slot.zero else t.slots i }
      (show n < M by omega) (Slot.inRange_zero hM)
    have hall := (ih (by omega)).append hslot
    refine ⟨hall.applied.trans ?_, hall.inRange⟩
    ext1
    · rfl
    · rfl
    · rfl
    · funext i
      by_cases hi : i = n
      · subst hi
        rw [setSlot_slots_self]
        simp
      · rw [setSlot_slots_of_ne _ _ hi]
        have : i < n ↔ i < n + 1 := by omega
        simp only [this]

theorem writes_clear (h : Sound M t) : Writes M t (clearStores t) (qhasharrClear t) := by
  unfold clearStores qhasharrClear
  split
  · exact Writes.nil M t
  · by_cases hM : 0 < M
    · have hhead : Writes M t [.usedslots 0, .num 0] { t with usedslots := 0, num := 0 } :=
        ⟨rfl, by simp [FieldStore.InRange]⟩
      have hall := hhead.append (writes_clearLoop hM _ (Nat.le_of_eq h.maxslots))
      refine ⟨hall.applied.trans ?_, hall.inRange⟩
      have hslots : (fun i => if i < t.maxslots then Slot.zero else t.slots i) = fun _ => Slot.zero := by
        funext i
        split
        · rfl
        · exact h.beyond i (by have := h.maxslots; omega)
      rw [hslots]
    · have hzero : t.maxslots = 0 := by have := h.maxslots; omega
      have hslots : t.slots = fun _ => Slot.zero := funext fun i => h.beyond i (by omega)
      rw [hzero]
      refine ⟨?_, by simp [FieldStore.InRange]⟩
      simp [applyAll, FieldStore.apply, ← hslots, hzero]

/-- **The stores of an operation are its steps**: they are in range, and the last one leaves what
the operation leaves. -/
theorem writes_exec (hashFn : Bytes → Nat) (hmd5 : ∀ key, (md5 key).length = 16) (h : Sound M t) (op : Op) :
    Writes M t (op.stores md5 hashFn t) (op.exec md5 hashFn t).2 := by
  cases op with
  | put key value => exact writes_putAux hmd5 key value _ h
  | remove key => exact writes_remove h key
  | clear => exact writes_clear h

/-! ### Whole runs -/

theorem sound_qhasharr (hM : 0 < M) : Sound M (qhasharr M) where
  maxslots := rfl
  slot _ _ := Slot.inRange_zero hM
  beyond _ _ := rfl

theorem writes_runStores (hashFn : Bytes → Nat) (hmd5 : ∀ key, (md5 key).length = 16) : ∀ (ops : List Op) {t : Tbl}, Sound M t →
    Writes M t (runStores md5 hashFn t ops) (execAll md5 hashFn t ops) := by
  intro ops
  induction ops with
  | nil => intro t _; exact Writes.nil M t
  | cons op ops ih =>
    intro t h
    have hop := writes_exec hashFn hmd5 h op
    exact hop.append (ih (hop.sound h))

/-- **Every state that the stores of an agent pass is sound**, from the first store on. -/
theorem sound_agent (hashFn : Bytes → Nat) (hmd5 : ∀ key, (md5 key).length = 16) (hM : 0 < M) (ops : List Op)
    {n : Nat} (hn : 0 < n) :
    Sound M (applyAll freshTbl ((agentStores md5 hashFn M ops).take n)) := by
  obtain ⟨n, rfl⟩ := Nat.exists_eq_succ_of_ne_zero (Nat.ne_of_gt hn)
  have hrun := writes_runStores hashFn hmd5 ops (sound_qhasharr hM)
  have hrange : ∀ st ∈ [.usedslots 0, .num 0] ++ runStores md5 hashFn (qhasharr M) ops, st.InRange M := by
    intro st hst
    rcases List.mem_append.mp hst with hst | hst
    · simp only [List.mem_cons, List.not_mem_nil, or_false] at hst
      rcases hst with rfl | rfl <;> trivial
    · exact hrun.inRange st hst
  change Sound M (applyAll (FieldStore.apply freshTbl (.maxslots M)) (List.take n _))
  exact (show Sound M _ from sound_qhasharr hM).applyAll fun st hst => hrange st (List.mem_of_mem_take hst)

/-- **The agent writes only into the table, and leaves nothing there that leads out of it.**  Over any
run of operations on a new table: each store is one into a slot of the table and within its buffer,
each index that it stores is one of a slot, and each size one that a slot can have; and all stores
together leave what the operations leave. -/
theorem agent_stores_in_range (md5 : Bytes → Bytes) (hashFn : Bytes → Nat) (hmd5 : ∀ key, (md5 key).length = 16)
    (M : Nat) (hM : 0 < M) (ops : List Op) :
    (∀ st ∈ agentStores md5 hashFn M ops, st.InRange M) ∧
      applyAll freshTbl (agentStores md5 hashFn M ops) = execAll md5 hashFn (qhasharr M) ops := by
  have hnew : Writes M freshTbl (qhasharrStores M) (qhasharr M) := ⟨rfl, by simp [qhasharrStores, FieldStore.InRange]⟩
  have hall := hnew.append (writes_runStores hashFn hmd5 ops (sound_qhasharr hM))
  exact ⟨hall.inRange, hall.applied⟩

end

theorem crowdedRun_stores_in_range :
    (∀ st ∈ agentStores (fun _ => List.replicate 16 0) (fun k => (k.headD 0).toNat) 4 crowdedRun, st.InRange 4) ∧
      applyAll freshTbl (agentStores (fun _ => List.replicate 16 0) (fun k => (k.headD 0).toNat) 4 crowdedRun) =
        execAll (fun _ => List.replicate 16 0) (fun k => (k.headD 0).toNat) (qhasharr 4) crowdedRun :=
  agent_stores_in_range _ _ (fun _ => rfl) 4 (by decide) crowdedRun

end QConf.Qhasharr
