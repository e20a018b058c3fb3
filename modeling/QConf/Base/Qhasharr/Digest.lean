import QConf.Base.Qhasharr.FiniteMap

/-!
# What the table sees of a key

The table reads of a key its length, its first bytes, its MD5 and the index it
hashes to; two keys that agree in these are one key to it.  `seenAs` picks one
key for all that look alike.  The calls do the same for a key and for the key it
is seen as, and the picked keys are told apart (`separated_seenKeys`), so a run
with any keys refines a finite map on the picked ones, without an assumption on
MD5.
-/

namespace QConf.Qhasharr

/-- What the calls read of a key. -/
def digest (md5 : Bytes → Bytes) (hashFn : Bytes → Nat) (n : Nat) (key : Bytes) :
    Nat × Bytes × Bytes × Nat :=
  (key.length, key.take keysize, md5 key, hashFn key % n)

/-- The key picked for all that look like `key`. -/
noncomputable def seenAs (md5 : Bytes → Bytes) (hashFn : Bytes → Nat) (n : Nat) (key : Bytes) :
    Bytes := Function.invFun (digest md5 hashFn n) (digest md5 hashFn n key)

/-- The picked keys, of at most 65535 bytes. -/
def seenKeys (md5 : Bytes → Bytes) (hashFn : Bytes → Nat) (n : Nat) : Set Bytes :=
  {key | key.length < 65536 ∧ seenAs md5 hashFn n key = key}

section

variable {md5 : Bytes → Bytes} {hashFn : Bytes → Nat} {n : Nat} {t : Tbl} {k k' : Bytes}

theorem digest_seenAs (k : Bytes) :
    digest md5 hashFn n (seenAs md5 hashFn n k) = digest md5 hashFn n k :=
  Function.invFun_eq ⟨k, rfl⟩

theorem seenAs_eq_iff :
    seenAs md5 hashFn n k = seenAs md5 hashFn n k' ↔ digest md5 hashFn n k = digest md5 hashFn n k' := by
  constructor
  · intro h
    rw [← digest_seenAs, h, digest_seenAs]
  · intro h
    rw [seenAs, h, seenAs]

/-- A key that fits the slot is seen as itself. -/
theorem eq_of_digest (h : digest md5 hashFn n k = digest md5 hashFn n k') (hk : k.length ≤ keysize) :
    k = k' := by
  simp only [digest, Prod.mk.injEq] at h
  have htake := h.2.1
  rwa [List.take_of_length_le hk, List.take_of_length_le (h.1 ▸ hk)] at htake

theorem length_seenAs (k : Bytes) : (seenAs md5 hashFn n k).length = k.length :=
  congrArg Prod.fst (digest_seenAs k)

theorem seenAs_of_length_le (hk : k.length ≤ keysize) : seenAs md5 hashFn n k = k :=
  (eq_of_digest (digest_seenAs k).symm hk).symm

theorem seenAs_mem (hk : k.length < 65536) : seenAs md5 hashFn n k ∈ seenKeys md5 hashFn n :=
  ⟨by rw [length_seenAs]; exact hk, seenAs_eq_iff.mpr (digest_seenAs k)⟩

/-- Only itself is seen as a key that fits the slot. -/
theorem seenAs_eq_short (hk' : k'.length ≤ keysize) : seenAs md5 hashFn n k = k' ↔ k = k' := by
  have hself : seenAs md5 hashFn n k' = k' := seenAs_of_length_le hk'
  rw [← hself, seenAs_eq_iff, hself]
  exact ⟨fun h => (eq_of_digest h.symm hk').symm, fun h => h ▸ rfl⟩

/-- The comparison of `_get_idx` compares digests. -/
theorem hits_iff_digest (hk : k.length < 65536) :
    hits md5 hashFn n k' k = true ↔ digest md5 hashFn n k = digest md5 hashFn n k' := by
  simp only [hits, keyHit, digest, Prod.mk.injEq, Nat.mod_eq_of_lt hk, Bool.and_eq_true, beq_iff_eq]
  constructor
  · rintro ⟨hhash, hlen, hbytes⟩
    by_cases hs : k'.length ≤ keysize
    · rw [if_pos hs, beq_iff_eq, hlen, List.take_length] at hbytes
      subst hbytes
      exact ⟨rfl, rfl, rfl, rfl⟩
    · rw [if_neg hs, Bool.and_eq_true, beq_iff_eq, beq_iff_eq] at hbytes
      exact ⟨hlen.symm, hbytes.1, hbytes.2.symm, hhash⟩
  · rintro ⟨hlen, htake, hmd5, hhash⟩
    refine ⟨hhash, hlen.symm, ?_⟩
    split
    · next hs =>
      rw [List.take_of_length_le (hlen ▸ hs), List.take_of_length_le hs] at htake
      simp [htake]
    · simp [htake, hmd5]

theorem hits_iff_seenAs (hk : k.length < 65536) :
    hits md5 hashFn n k' k = true ↔ seenAs md5 hashFn n k = seenAs md5 hashFn n k' :=
  (hits_iff_digest hk).trans seenAs_eq_iff.symm

theorem separated_seenKeys (md5 : Bytes → Bytes) (hashFn : Bytes → Nat) (n : Nat) :
    Separated md5 hashFn n (seenKeys md5 hashFn n) := by
  intro key k hkey hk
  rw [hits_iff_seenAs hk.1, hk.2, hkey.2]

/-! ### The calls read the digest -/

theorem keyMatches_congr (h : digest md5 hashFn n k = digest md5 hashFn n k') (s : Slot) :
    keyMatches md5 s k = keyMatches md5 s k' := by
  by_cases hs : k.length ≤ keysize
  · rw [eq_of_digest h hs]
  · simp only [digest, Prod.mk.injEq] at h
    rw [keyMatches, keyMatches, if_neg hs, if_neg (h.1 ▸ hs), h.1, h.2.1, h.2.2.1]

theorem getIdxLoop_congr (h : digest md5 hashFn n k = digest md5 hashFn n k') (t : Tbl) (hash : Nat) :
    ∀ (fuel idx : Nat) (count : Int),
      getIdxLoop md5 t k hash fuel idx count = getIdxLoop md5 t k' hash fuel idx count := by
  intro fuel
  induction fuel with
  | zero => intro idx count; rfl
  | succ fuel ih =>
    intro idx count
    rw [getIdxLoop, getIdxLoop, keyMatches_congr h, ih, ih]

theorem getIdx_congr (h : digest md5 hashFn n k = digest md5 hashFn n k') (t : Tbl) (hash : Nat) :
    getIdx md5 t k hash = getIdx md5 t k' hash := by
  rw [getIdx, getIdx, getIdxLoop_congr h]

theorem putData_congr (h : digest md5 hashFn n k = digest md5 hashFn n k') (t : Tbl)
    (idx hash : Nat) (value : Bytes) (count : Int) :
    putData md5 t idx hash k value count = putData md5 t idx hash k' value count := by
  simp only [digest, Prod.mk.injEq] at h
  rw [putData, putData, storeKey, storeKey, h.1, h.2.1, h.2.2.1]

section

variable (h : digest md5 hashFn t.maxslots k = digest md5 hashFn t.maxslots k')

include h

theorem hash_congr : hashFn k % t.maxslots = hashFn k' % t.maxslots :=
  congrArg (fun d => d.2.2.2) h

theorem get_congr : qhasharrGet md5 hashFn t k = qhasharrGet md5 hashFn t k' := by
  rw [qhasharrGet, qhasharrGet, hash_congr h, getIdx_congr h]

theorem exist_congr : qhasharrExist md5 hashFn t k = qhasharrExist md5 hashFn t k' := by
  rw [qhasharrExist, qhasharrExist, hash_congr h, getIdx_congr h]

theorem remove_congr : qhasharrRemove md5 hashFn t k = qhasharrRemove md5 hashFn t k' := by
  rw [qhasharrRemove, qhasharrRemove, hash_congr h]
  simp only [getIdx_congr h]

end

theorem fixNext_maxslots (t : Tbl) (i : Nat) : (fixNext t i).maxslots = t.maxslots := by
  unfold fixNext
  split <;> rfl

theorem removeSlot_maxslots (t : Tbl) (i : Nat) : (removeSlot t i).maxslots = t.maxslots := by
  unfold removeSlot
  split <;> rfl

theorem copySlot_maxslots (t : Tbl) (i j : Nat) : (copySlot t i j).maxslots = t.maxslots := by
  unfold copySlot
  split <;> rfl

theorem qhasharrRemove_maxslots (t : Tbl) (k : Bytes) :
    (qhasharrRemove md5 hashFn t k).2.maxslots = t.maxslots := by
  unfold qhasharrRemove
  split
  · rfl
  dsimp only
  split
  · rfl
  split
  · exact removeData_maxslots t _
  split
  · split
    · rfl
    · simp only [fixNext_maxslots, setSlot_maxslots, removeSlot_maxslots, copySlot_maxslots,
        removeData_maxslots]
  split
  · split
    · rfl
    · simp only [removeData_maxslots, setSlot_maxslots]
  · rfl

theorem putAux_congr (value : Bytes) : ∀ (fuel : Nat) {t : Tbl},
    digest md5 hashFn t.maxslots k = digest md5 hashFn t.maxslots k' →
    putAux md5 hashFn fuel t k value = putAux md5 hashFn fuel t k' value := by
  intro fuel
  induction fuel with
  | zero => intro t _; rfl
  | succ fuel ih =>
    intro t h
    -- the table of the inner call has as many slots
    have hrec : ∀ t', (qhasharrRemove md5 hashFn t k').2 = t' →
        putAux md5 hashFn fuel t' k value = putAux md5 hashFn fuel t' k' value := by
      rintro t' rfl
      exact ih (by rw [qhasharrRemove_maxslots]; exact h)
    rw [putAux, putAux, hash_congr h, remove_congr h]
    simp only [getIdx_congr h, putData_congr h]
    cases hr : qhasharrRemove md5 hashFn t k' with
    | mk r t' =>
      cases r with
      | error e => rfl
      | ok u => simp only [hrec t' (by rw [hr])]

theorem put_congr (h : digest md5 hashFn t.maxslots k = digest md5 hashFn t.maxslots k')
    (value : Bytes) : qhasharrPut md5 hashFn t k value = qhasharrPut md5 hashFn t k' value :=
  putAux_congr value _ h

end

end QConf.Qhasharr
