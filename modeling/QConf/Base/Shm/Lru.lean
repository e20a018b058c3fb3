import QConf.Base.Shm.Model

/-!
# Frames and the recency list

What `hash_tbl_set` frames, `qconf_verify` takes apart again (`verify_frameValue`).

`Lru.Ok` says that the map of an `LRU` is the index of its list: every key of the
list is mapped to its own node and nothing else is mapped.  The calls keep it, and
under it they are what they are for: `visitKey` moves its key to the front, and
`removeKey` drops the last one.
-/

namespace QConf.Shm

open Qhasharr ByteCodec

/-! ### Frames -/

section

variable {md5 : Bytes → Bytes} {v : Bytes}

theorem frameValue_ne_nil (md5 : Bytes → Bytes) (v : Bytes) : frameValue md5 v ≠ [] := by
  intro h
  have := congrArg List.length h
  simp [frameValue, valueSizeLen] at this

/-- A framed value is read back, whatever follows it. -/
theorem verify_frameValue_append (hmd5 : ∀ b, (md5 b).length = md5IntLen) (hv : v.length < 2 ^ 32)
    (tail : Bytes) : qconfVerify md5 (frameValue md5 v ++ tail) = (.ok, v) := by
  have hmod : v.length % 2 ^ 32 = v.length := Nat.mod_eq_of_lt hv
  have hw : (leBytes valueSizeLen v.length).length = valueSizeLen := leBytes_length _ _
  obtain ⟨check, hcheck⟩ : ∃ check, check = if v.length > needMd5Tbllen then md5 v else v := ⟨_, rfl⟩
  have hframe : frameValue md5 v ++ tail = leBytes valueSizeLen v.length ++ (v ++ (check ++ tail)) := by
    rw [frameValue, hmod, List.take_length, hcheck, List.append_assoc, List.append_assoc]
  have hsize : leNat ((frameValue md5 v ++ tail).take valueSizeLen) = v.length := by
    rw [hframe, List.take_left' hw, leNat_leBytes]
    exact Nat.mod_eq_of_lt hv
  have hdrop : (frameValue md5 v ++ tail).drop valueSizeLen = v ++ (check ++ tail) := by
    rw [hframe, List.drop_left' hw]
  have hveri : (frameValue md5 v ++ tail).drop (valueSizeLen + v.length) = check ++ tail := by
    rw [← List.drop_drop, hdrop, List.drop_left]
  have hlen : (frameValue md5 v ++ tail).length =
      valueSizeLen + v.length + check.length + tail.length := by
    rw [hframe, List.length_append, List.length_append, List.length_append, hw]
    omega
  rw [qconfVerify, qconfVerifyIn, List.append_nil, hsize, hdrop, hveri, hlen, List.take_left]
  by_cases hbig : v.length > needMd5Tbllen
  · rw [if_pos hbig] at hcheck
    have hcl : check.length = md5IntLen := hcheck ▸ hmd5 v
    simp only [if_pos hbig]
    rw [if_neg (by omega), List.take_left' hcl, hcheck, if_pos rfl]
  · rw [if_neg hbig] at hcheck
    simp only [if_neg hbig]
    rw [hcheck, if_neg (by omega), List.take_left, if_pos rfl]

/-- **A framed value is read back**, provided its length fits the four bytes. -/
theorem verify_frameValue (hmd5 : ∀ b, (md5 b).length = md5IntLen) (hv : v.length < 2 ^ 32) :
    qconfVerify md5 (frameValue md5 v) = (.ok, v) := by
  have := verify_frameValue_append hmd5 hv []
  rwa [List.append_nil] at this

end

/-! ### The index of the recency list -/

/-- The map of the list is its index. -/
structure Lru.Ok (l : Lru) : Prop where
  /-- no key stands in the list twice -/
  nodup : l.keys.Nodup
  /-- the iterators are those of the nodes with the key -/
  index : ∀ key it, l.keyToIterator.lookup key = some it ↔ (it, key) ∈ l.lruMem
  /-- the next node gets an address of its own -/
  fresh : ∀ p ∈ l.lruMem, p.1 < l.fresh
  /-- no two nodes have one address -/
  distinct : (l.lruMem.map Prod.fst).Nodup

section

variable {l : Lru} {key : Bytes}

theorem Lru.ok_empty : Lru.empty.Ok where
  nodup := List.nodup_nil
  index key it := by simp [Lru.empty, Finmap.lookup_empty]
  fresh := by simp [Lru.empty]
  distinct := List.nodup_nil

theorem Lru.Ok.key_inj (h : l.Ok) {it it' : Nat} (hit : (it, key) ∈ l.lruMem)
    (hit' : (it', key) ∈ l.lruMem) : it = it' := by
  have h1 := (h.index key it).mpr hit
  rw [(h.index key it').mpr hit'] at h1
  exact (Option.some.inj h1).symm

theorem Lru.Ok.address_inj (h : l.Ok) {it : Nat} {k k' : Bytes} (hk : (it, k) ∈ l.lruMem)
    (hk' : (it, k') ∈ l.lruMem) : k = k' :=
  (Prod.mk.inj (List.inj_on_of_nodup_map h.distinct hk hk' rfl)).2

/-- A key that is not in the list goes to its front. -/
theorem Lru.Ok.pushFront (h : l.Ok) {keep : List (Nat × Bytes)} (hsub : keep.Sublist l.lruMem)
    (hkeep : ∀ p, p ∈ keep ↔ p ∈ l.lruMem ∧ p.2 ≠ key) :
    ({ l with lruMem := keep }.pushFront key).Ok where
  nodup := by
    refine List.nodup_cons.mpr ⟨fun hin => ?_, h.nodup.sublist (hsub.map _)⟩
    obtain ⟨p, hp, rfl⟩ := List.mem_map.mp hin
    exact ((hkeep p).mp hp).2 rfl
  index k it := by
    simp only [Lru.pushFront, List.mem_cons, Prod.mk.injEq, hkeep]
    by_cases hk : k = key
    · subst hk
      simp [Finmap.lookup_insert, eq_comm]
    · rw [Finmap.lookup_insert_of_ne _ hk, h.index]
      simp [hk]
  fresh := by
    rintro p (_ | ⟨_, hp⟩)
    · exact Nat.lt_succ_self _
    · exact Nat.lt_succ_of_lt (h.fresh p (hsub.subset hp))
  distinct := by
    refine List.nodup_cons.mpr ⟨fun hin => ?_, h.distinct.sublist (hsub.map _)⟩
    obtain ⟨p, hp, heq⟩ := List.mem_map.mp hin
    exact absurd heq (Nat.ne_of_lt (h.fresh p (hsub.subset hp)))

/-- The nodes that stay when the node of a key is unlinked. -/
theorem Lru.Ok.mem_filter (h : l.Ok) {it : Nat} (hit : (it, key) ∈ l.lruMem) (p : Nat × Bytes) :
    p ∈ l.lruMem.filter (fun p => p.1 ≠ it) ↔ p ∈ l.lruMem ∧ p.2 ≠ key := by
  rw [List.mem_filter]
  refine and_congr_right (fun hp => ?_)
  rw [decide_eq_true_eq]
  obtain ⟨i, k⟩ := p
  constructor
  · rintro hne rfl
    exact hne (h.key_inj hp hit)
  · rintro hne rfl
    exact hne (h.address_inj hp hit)

theorem Lru.Ok.visitKey (h : l.Ok) (key : Bytes) : (l.visitKey key).Ok := by
  unfold Lru.visitKey
  split
  · exact h
  split
  · next hnone =>
    refine h.pushFront (List.Sublist.refl _) (fun p => ?_)
    rw [iff_self_and]
    rintro hp rfl
    rw [(h.index p.2 p.1).mpr hp] at hnone
    exact absurd hnone (by simp)
  · next it hit => exact h.pushFront List.filter_sublist (h.mem_filter ((h.index key it).mp hit))

/-- **Visiting a key moves it to the front.** -/
theorem Lru.Ok.keys_visitKey (h : l.Ok) (hkey : key ≠ localIdcKey) :
    (l.visitKey key).keys = key :: l.keys.erase key := by
  rw [Lru.visitKey, if_neg hkey]
  cases hit : l.keyToIterator.lookup key with
  | none =>
    have hnot : key ∉ l.keys := by
      rintro hin
      obtain ⟨⟨it, k⟩, hp, rfl⟩ := List.mem_map.mp hin
      rw [(h.index _ it).mpr hp] at hit
      exact absurd hit (by simp)
    rw [List.erase_of_not_mem hnot]
    rfl
  | some it =>
    have hmem := h.mem_filter ((h.index key it).mp hit)
    have hfilter : l.lruMem.filter (fun p => p.1 ≠ it) = l.lruMem.filter (fun p => p.2 != key) := by
      refine List.filter_congr (fun p hp => ?_)
      have := hmem p
      rw [List.mem_filter] at this
      simp only [hp, true_and, decide_eq_true_eq] at this
      rw [Bool.eq_iff_iff, decide_eq_true_eq, this, bne_iff_ne]
    change key :: (l.lruMem.filter (fun p => p.1 ≠ it)).map Prod.snd = _
    rw [h.nodup.erase_eq_filter, hfilter, Lru.keys, List.filter_map]
    rfl

theorem Lru.keys_visitKey_localIdc (l : Lru) : l.visitKey localIdcKey = l := if_pos rfl

theorem Lru.getRemoveKey_eq (l : Lru) : l.getRemoveKey = (l.keys.getLast?).getD [] := by
  rw [Lru.getRemoveKey, Lru.keys, List.getLast?_map]

/-- **Removing a key drops the last one.** -/
theorem Lru.keys_removeKey (l : Lru) : l.removeKey.keys = l.keys.dropLast := by
  unfold Lru.removeKey
  split
  · next hnone =>
    rw [List.getLast?_eq_none_iff] at hnone
    simp [Lru.keys, hnone]
  · simp [Lru.keys, List.map_dropLast]

theorem Lru.Ok.removeKey (h : l.Ok) : l.removeKey.Ok := by
  unfold Lru.removeKey
  split
  · exact h
  · next it key hlast =>
    have hsub : l.lruMem.dropLast.Sublist l.lruMem := List.dropLast_sublist _
    have hsplit : l.lruMem = l.lruMem.dropLast ++ [(it, key)] :=
      (List.dropLast_append_getLast? _ hlast).symm
    have hnd := h.nodup
    rw [Lru.keys, hsplit, List.map_append, List.nodup_append] at hnd
    have hin : (it, key) ∈ l.lruMem := hsplit ▸ List.mem_append_right _ (List.mem_singleton_self _)
    refine ⟨h.nodup.sublist (hsub.map _), fun k i => ?_, fun p hp => h.fresh p (hsub.subset hp),
      h.distinct.sublist (hsub.map _)⟩
    dsimp only
    by_cases hk : k = key
    · subst hk
      rw [Finmap.lookup_erase]
      refine ⟨by simp, fun hp => ?_⟩
      exact absurd rfl (hnd.2.2 k (List.mem_map_of_mem hp) k (List.mem_singleton_self _))
    · rw [Finmap.lookup_erase_ne hk, h.index, hsplit, List.mem_append]
      simp [hk]

end

end QConf.Shm
