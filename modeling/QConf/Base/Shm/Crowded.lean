import QConf.Base.Qhasharr.Counter
import QConf.Base.Shm.Set

/-!
# A store with a crowded bucket

What the wrapping counter of `qhasharr_put` means for the store.  With a hash that sends all
keys to one bucket, 32768 sets of different keys succeed and leave the counter negative.  The
next set of the key in the leading slot finds nothing to replace, so it stores the key again:
`exists_doubled_store` has a table with two slots for one key, with different values.
-/

namespace QConf.Shm

open Qhasharr Transition

/-- A set that replaces nothing and evicts nothing. -/
theorem callStep_set_ok {md5 : Bytes → Bytes} {hashFn : Bytes → Nat} {s : Store} {key val : Bytes} {t' : Tbl}
    (hne : key ≠ []) (hget : qhasharrGet md5 hashFn s.tbl key = none)
    (hput : qhasharrPut md5 hashFn s.tbl key (frameValue md5 val) = (.ok (), t')) :
    ∃ s', callStep md5 hashFn s (.set key val, none) = some s' ∧ s'.tbl = t' := by
  have hdiff : hashTblGet md5 hashFn s.tbl key ≠ (.ok, val) := by
    rw [hashTblGet, if_neg hne, hget]
    simp
  refine ⟨{ tbl := t', lru := s.lru.visitKey key, errno := none }, ?_, rfl⟩
  rw [callStep]
  dsimp only
  rw [hashTblSet, if_neg hne, if_neg hdiff, hashTblSet_, if_neg hne, hput]
  dsimp only
  rw [setLoop, if_neg (by simp [again])]
  rfl

/-! ### Slots that show a key -/

/-- The slot holds the key and the whole value, so that the iteration reports them. -/
structure ShowsAt (md5 : Bytes → Bytes) (t : Tbl) (i : Nat) (key val : Bytes) : Prop where
  used : (t.slots i).count ≠ 0 ∧ (t.slots i).count ≠ -2
  key : (t.slots i).HoldsKey md5 key
  link : (t.slots i).link = -1
  bytes : (t.slots i).bytes = frameValue md5 val
  size : (t.slots i).bytes.length = (t.slots i).size

theorem ShowsAt.getnext {md5 : Bytes → Bytes} {t : Tbl} {i : Nat} {key val : Bytes} (h : ShowsAt md5 t i key val)
    (hmd5 : ∀ b, (md5 b).length = md5IntLen) (hi : i < t.maxslots) (hkv : BuiltWithin key val) :
    hashTblGetnext md5 t i = (.ok, some (key, val), i + 1) := by
  obtain ⟨hbuilt, hkey, hval⟩ := hkv
  have hname : (t.slots i).key.take (min (t.slots i).keylen keysize) = key.take keysize := by
    rw [h.key.keylen, Nat.mod_eq_of_lt hkey]
    exact h.key.bytes
  have hget : qhasharrGetnext t i = (.ok (key.take keysize, frameValue md5 val), i + 1) := by
    obtain ⟨fuel, hfuel⟩ : ∃ fuel, t.maxslots - i = fuel + 1 := ⟨t.maxslots - i - 1, by omega⟩
    rw [qhasharrGetnext, hfuel, getnextLoop, if_neg (by simpa using h.used), getData_single h.link h.size,
      h.bytes]
    dsimp only
    rw [hname]
  obtain ⟨idc, path, hparts, hback⟩ := hbuilt.rebuilds
  rw [hashTblGetnext_ok hget (verify_frameValue hmd5 (Nat.lt_trans hval (by decide))) hparts, hback]

/-- A slot that was just written. -/
theorem ShowsAt.of_firstSlot {md5 : Bytes → Bytes} {t : Tbl} {i hash : Nat} {key val : Bytes} {s : Slot}
    (h : t.slots i = firstSlot md5 s hash key (frameValue md5 val) 1)
    (hlen : (frameValue md5 val).length ≤ valuesize) : ShowsAt md5 t i key val := by
  have hbytes : (firstSlot md5 s hash key (frameValue md5 val) 1).bytes = frameValue md5 val := by
    rw [firstSlot_bytes (by decide), List.take_of_length_le hlen]
  refine ⟨?_, ?_, ?_, ?_, ?_⟩ <;> rw [h]
  · exact (by decide : (1 : Int) ≠ 0 ∧ (1 : Int) ≠ -2)
  · exact firstSlot_holdsKey s hash key _ 1
  · rfl
  · exact hbytes
  · rw [hbytes, firstSlot_size, Nat.min_eq_left hlen]

/-- A copy of the slot with another counter. -/
theorem ShowsAt.of_count {md5 : Bytes → Bytes} {t t' : Tbl} {i j : Nat} {key val : Bytes} {c : Int}
    (h : ShowsAt md5 t i key val) (hslot : t'.slots j = { t.slots i with count := c }) (hc : c ≠ 0 ∧ c ≠ -2) :
    ShowsAt md5 t' j key val := by
  have hbytes : Slot.bytes { t.slots i with count := c } = (t.slots i).bytes :=
    Slot.Same.bytes_eq ⟨rfl, iff_of_false hc.2 h.used.2⟩
  refine ⟨?_, ?_, ?_, ?_, ?_⟩ <;> rw [hslot]
  · exact hc
  · exact ⟨h.key.keylen, h.key.bytes, h.key.keymd5⟩
  · exact h.link
  · exact hbytes.trans h.bytes
  · rw [hbytes]
    exact h.size

/-! ### The crowd -/

/-- The hash that sends every key to one bucket. -/
def oneBucket (_ : Bytes) : Nat := 0

/-- The key of the hosts of the idc with two given bytes. -/
def crowdKey (i : Nat) : Bytes := tblkeyOf dataTypeZkHost [UInt8.ofNat (i / 256), UInt8.ofNat i] []

def crowdVal (i : Nat) (host : Bytes) : Bytes := idcvalToTblval (crowdKey i) host

theorem crowdKey_inj {i j : Nat} (hi : i < 65536) (hj : j < 65536) (h : crowdKey i = crowdKey j) : i = j := by
  have hbytes : [UInt8.ofNat (i / 256), UInt8.ofNat i] = [UInt8.ofNat (j / 256), UInt8.ofNat j] :=
    (List.cons.inj (List.cons.inj h).2).2
  have hhigh := congrArg UInt8.toNat (List.cons.inj hbytes).1
  have hlow := congrArg UInt8.toNat (List.cons.inj (List.cons.inj hbytes).2).1
  simp only [UInt8.toNat_ofNat'] at hhigh hlow
  omega

theorem length_crowdKey (i : Nat) : (crowdKey i).length = 4 := rfl

theorem crowdKey_ne_nil (i : Nat) : crowdKey i ≠ [] := List.cons_ne_nil _ _

theorem crowdVal_built (i : Nat) {host : Bytes} (hhost : host.length < 65536) (hval : (crowdVal i host).length < 2 ^ 31) :
    BuiltWithin (crowdKey i) (crowdVal i host) :=
  ⟨.zkHost (Nat.lt_of_le_of_lt (Nat.le_refl 2) (by decide)) hhost,
    by rw [length_crowdKey]; decide, hval⟩

/-- The first value of a key, and one that is different. -/
theorem crowdVal_first (i : Nat) : BuiltWithin (crowdKey i) (crowdVal i []) ∧
    (frameValue zeroMd5 (crowdVal i [])).length = 16 :=
  ⟨crowdVal_built i (by decide) (Nat.lt_of_le_of_lt (Nat.le_refl 6) (by decide)), rfl⟩

theorem crowdVal_second (i : Nat) : BuiltWithin (crowdKey i) (crowdVal i [1]) ∧
    (frameValue zeroMd5 (crowdVal i [1])).length = 18 :=
  ⟨crowdVal_built i (by decide) (Nat.lt_of_le_of_lt (Nat.le_refl 7) (by decide)), rfl⟩

theorem zeroMd5_length (b : Bytes) : (zeroMd5 b).length = md5IntLen := List.length_replicate

/-- What the store holds after the first `i` keys. -/
def crowd : Nat → BytesMap
  | 0 => ∅
  | i + 1 => (crowd i).insert (crowdKey i) (frameValue zeroMd5 (crowdVal i []))

theorem lookup_crowd {i : Nat} {k w : Bytes} (h : (crowd i).lookup k = some w) :
    ∃ j < i, k = crowdKey j ∧ w = frameValue zeroMd5 (crowdVal j []) := by
  induction i with
  | zero => cases h
  | succ i ih =>
    by_cases hk : k = crowdKey i
    · rw [crowd, hk, Finmap.lookup_insert] at h
      exact ⟨i, Nat.lt_succ_self i, hk, (Option.some.inj h).symm⟩
    · rw [crowd, Finmap.lookup_insert_of_ne _ hk] at h
      obtain ⟨j, hj, hkj, hw⟩ := ih h
      exact ⟨j, Nat.lt_succ_of_lt hj, hkj, hw⟩

theorem crowd_lookup_none {i : Nat} (hi : i < 65536) : (crowd i).lookup (crowdKey i) = none := by
  cases h : (crowd i).lookup (crowdKey i) with
  | none => rfl
  | some w =>
    obtain ⟨j, hj, hkey, -⟩ := lookup_crowd h
    exact absurd (crowdKey_inj hi (by omega) hkey) (by omega)

theorem card_crowd {i : Nat} (hi : i ≤ 65536) : (crowd i).keys.card = i := by
  induction i with
  | zero => rfl
  | succ i ih =>
    have hnot : crowdKey i ∉ (crowd i).keys := by
      rw [Finmap.mem_keys, ← Finmap.lookup_eq_none]
      exact crowd_lookup_none (by omega)
    have hkeys : (crowd (i + 1)).keys = insert (crowdKey i) (crowd i).keys := by
      ext k
      rw [crowd, Finmap.mem_keys, Finmap.mem_insert, Finset.mem_insert, Finmap.mem_keys]
    rw [hkeys, Finset.card_insert_of_notMem hnot, ih (by omega)]

theorem usedSlots_crowd {i : Nat} (hi : i ≤ 65536) : usedSlots (crowd i) = i := by
  have hone : ∀ k ∈ (crowd i).keys, slotsFor (((crowd i).lookup k).getD []).length = 1 := by
    intro k hk
    obtain ⟨w, hw⟩ := Option.isSome_iff_exists.mp (Finmap.lookup_isSome.mpr (Finmap.mem_keys.mp hk))
    obtain ⟨j, -, -, rfl⟩ := lookup_crowd hw
    rw [hw, Option.getD_some, (crowdVal_first j).2]
    rfl
  rw [usedSlots, Finset.sum_congr rfl hone, Finset.sum_const, smul_eq_mul, Nat.mul_one, card_crowd hi]

/-- Sets of built values, in a bucket as full as it may be. -/
def BuiltSet (_ : Store) (a : Call × Option Errno) : Prop :=
  ∃ key val, a.1 = .set key val ∧ BuiltWithin key val

theorem seenAs_crowdKey (i : Nat) : seenAs zeroMd5 oneBucket 40000 (crowdKey i) = crowdKey i :=
  seenAs_of_length_le (by rw [length_crowdKey]; decide)

theorem crowd_get_none {t : Tbl} {i : Nat} (hi : i < 65536) (h : Sees zeroMd5 oneBucket 40000 t (crowd i)) :
    qhasharrGet zeroMd5 oneBucket t (crowdKey i) = none := by
  rw [h.get (by decide) (crowdVal_first i).1.2.1, seenAs_crowdKey, crowd_lookup_none hi]

/-- The next key of the crowd is stored. -/
theorem crowd_put {t : Tbl} {i : Nat} (hi : i < 32767) (h : Sees zeroMd5 oneBucket 40000 t (crowd i)) :
    ∃ t', qhasharrPut zeroMd5 oneBucket t (crowdKey i) (frameValue zeroMd5 (crowdVal i [])) = (.ok (), t') ∧
      Sees zeroMd5 oneBucket 40000 t' (crowd (i + 1)) := by
  have hcard := card_crowd (i := i) (by omega)
  have hslots := usedSlots_crowd (i := i) (by omega)
  have hmates : (bucketMates oneBucket 40000 (crowd i) (seenAs zeroMd5 oneBucket 40000 (crowdKey i))).card
      < 32767 := by
    refine Nat.lt_of_le_of_lt (Finset.card_filter_le _ _) ?_
    rw [keys_erase]
    exact Nat.lt_of_le_of_lt (Finset.card_erase_le) (by omega)
  have hfits : Fits 40000 (crowd i) (seenAs zeroMd5 oneBucket 40000 (crowdKey i))
      (frameValue zeroMd5 (crowdVal i [])).length := by
    have hle := usedSlots_erase_le (crowd i) (seenAs zeroMd5 oneBucket 40000 (crowdKey i))
    have hone : slotsFor (frameValue zeroMd5 (crowdVal i [])).length = 1 := by
      rw [(crowdVal_first i).2]
      rfl
    exact ⟨by omega, by omega⟩
  obtain ⟨hok, hsees⟩ :=
    (h.put (by decide) (crowdVal_first i).1.2.1 (frameValue_ne_nil _ _) hmates).1 hfits
  refine ⟨_, Prod.ext hok rfl, ?_⟩
  rw [crowd]
  rwa [seenAs_crowdKey] at hsees

/-- The first 32767 keys are stored one after the other. -/
theorem crowd_reached {i : Nat} (hi : i ≤ 32767) : ∃ s,
    Reaches (callStep zeroMd5 oneBucket) BuiltSet (Store.init 40000) s ∧
    Sees zeroMd5 oneBucket 40000 s.tbl (crowd i) := by
  induction i with
  | zero => exact ⟨_, .start, (holds_init 40000).sees⟩
  | succ i ih =>
    obtain ⟨s, hs, hsees⟩ := ih (by omega)
    obtain ⟨t', hput, hsees'⟩ := crowd_put (by omega) hsees
    obtain ⟨s', hstep, rfl⟩ := callStep_set_ok (crowdKey_ne_nil i) (crowd_get_none (by omega) hsees) hput
    exact ⟨s', .tail hs ⟨crowdKey i, crowdVal i [], rfl, (crowdVal_first i).1⟩ hstep, hsees'⟩

theorem crowdKey_mem (i : Nat) : crowdKey i ∈ seenKeys zeroMd5 oneBucket 40000 := by
  have hmem : seenAs zeroMd5 oneBucket 40000 (crowdKey i) ∈ seenKeys zeroMd5 oneBucket 40000 :=
    seenAs_mem (crowdVal_first i).1.2.1
  rwa [seenAs_crowdKey] at hmem

/-- A store of 32767 keys that all are in one bucket. -/
structure Crowd (t : Tbl) (es : List Entry) : Prop where
  rep : Rep zeroMd5 oneBucket t es
  maxslots : t.maxslots = 40000
  used : (used es).length = 32767
  members : members oneBucket 40000 0 es = 32767
  entry : ∀ e ∈ es, ∃ i < 32767, e.key = crowdKey i ∧ e.value = frameValue zeroMd5 (crowdVal i [])

theorem crowd_of_sees {t : Tbl} (h : Sees zeroMd5 oneBucket 40000 t (crowd 32767)) : ∃ es, Crowd t es := by
  obtain ⟨es, hrep, hnodup, hmem⟩ := h.entries
  have hkeys : ((contents es).map Prod.fst).toFinset = (crowd 32767).keys := by
    ext k
    simp only [List.mem_toFinset, List.mem_map, Finmap.mem_keys, Finmap.mem_iff, ← hmem, Prod.exists,
      exists_and_right, exists_eq_right]
  have hlen : es.length = 32767 := by
    rw [← card_crowd (i := 32767) (by decide), ← hkeys, List.toFinset_card_of_nodup hnodup, List.length_map,
      contents, List.length_map]
  refine ⟨es, hrep, h.maxslots, ?_, ?_, fun e he => ?_⟩
  · rw [hrep.used_length, slotsOf_eq_usedSlots hnodup hmem, usedSlots_crowd (by decide)]
  · rw [Qhasharr.members, List.countP_eq_length.mpr (fun e _ => by simp [Entry.bucket, oneBucket]), hlen]
  · exact lookup_crowd ((hmem e.key e.value).mp (mem_contents.mpr ⟨e, he, rfl, rfl⟩))

/-- The leading slot shows one of the keys. -/
theorem Crowd.lead {t : Tbl} {es : List Entry} (h : Crowd t es) : ∃ i, (t.slots 0).count = 32767 ∧
    ShowsAt zeroMd5 t 0 (crowdKey i) (crowdVal i []) := by
  have hbucket : ∀ e : Entry, e.bucket oneBucket t.maxslots = 0 := fun e => Nat.zero_mod _
  have hne : es ≠ [] := by
    rintro rfl
    exact absurd h.used (by decide)
  obtain ⟨e, he⟩ := List.exists_mem_of_ne_nil es hne
  obtain ⟨l, hl, hhead, -⟩ := h.rep.lead e he
  rw [hbucket] at hhead
  have hcount : (t.slots 0).count = 32767 := by
    rw [h.rep.count_eq_members ⟨e, he, hbucket e⟩, h.maxslots, h.members]
    rfl
  obtain ⟨i, -, hkey, hvalue⟩ := h.entry l hl
  have hok := h.rep.entry l hl
  obtain ⟨hlink, hbytes, hsize⟩ := hok.single (by rw [hvalue, (crowdVal_first i).2]; decide)
  have hholds := hok.key
  rw [hhead] at hlink hbytes hsize hholds
  refine ⟨i, hcount, ⟨by omega, by omega⟩, hkey ▸ hholds, hlink, hbytes.trans hvalue, hsize⟩

/-- One key more is stored, and the counter of the crowd wraps. -/
theorem Crowd.put_wraps {t : Tbl} {es : List Entry} (h : Crowd t es) : ∃ t',
    qhasharrPut zeroMd5 oneBucket t (crowdKey 32767) (frameValue zeroMd5 (crowdVal 32767 [])) = (.ok (), t') ∧
    t'.maxslots = 40000 ∧ t'.usedslots = 32768 ∧ t'.slots 0 = { t.slots 0 with count := -32768 } ∧
    ∀ i, findEmpty t' i ≠ none := by
  have hmax := h.maxslots
  have hzero : ∀ key n, oneBucket key % n = 0 := fun _ n => Nat.zero_mod n
  have hno : ∀ e ∈ es, hits zeroMd5 oneBucket t.maxslots (crowdKey 32767) e.key = false := by
    intro e he
    obtain ⟨j, hj, hkey, -⟩ := h.entry e he
    rw [hmax, hkey, ← Bool.not_eq_true, separated_seenKeys zeroMd5 oneBucket 40000 (crowdKey_mem 32767)
      (crowdKey_mem j)]
    exact fun h => absurd (crowdKey_inj (by omega) (by omega) h) (by omega)
  have hone : slotsFor (frameValue zeroMd5 (crowdVal 32767 [])).length = 1 := rfl
  obtain ⟨t', hput, hmax', hused, hslot, hempty⟩ := h.rep.put_wraps (by omega)
    (frameValue_ne_nil zeroMd5 (crowdVal 32767 [])) hno (by rw [hone, h.used]; omega)
    (by rw [hzero, hmax]; exact h.members)
  rw [hone, h.used] at hused hempty
  rw [hzero] at hslot
  exact ⟨t', hput, hmax'.trans hmax, hused, hslot, hempty (by omega)⟩

/-- **A table with one key in two slots.** -/
theorem exists_doubled_store : ∃ s i j, Reaches (callStep zeroMd5 oneBucket) BuiltSet (Store.init 40000) s ∧
    s.tbl.maxslots = 40000 ∧ j < 40000 ∧
    ShowsAt zeroMd5 s.tbl 0 (crowdKey i) (crowdVal i [1]) ∧ ShowsAt zeroMd5 s.tbl j (crowdKey i) (crowdVal i []) := by
  obtain ⟨s, hs, hsees⟩ := crowd_reached (Nat.le_refl 32767)
  obtain ⟨es, hcrowd⟩ := crowd_of_sees hsees
  obtain ⟨i, hcount, hshows⟩ := hcrowd.lead
  have hmax := hcrowd.maxslots
  have hzero : ∀ key n, oneBucket key % n = 0 := fun _ n => Nat.zero_mod n
  -- One key more: the counter wraps.
  obtain ⟨t₁, hput₁, hmax₁, hused₁, hslot₁, hempty₁⟩ := hcrowd.put_wraps
  obtain ⟨s₁, hstep₁, htbl₁⟩ := callStep_set_ok (crowdKey_ne_nil 32767)
    (crowd_get_none (by decide) hsees) hput₁
  have hs₁ := hs.tail (C := BuiltSet) ⟨crowdKey 32767, crowdVal 32767 [], rfl, (crowdVal_first 32767).1⟩ hstep₁
  have hcount₁ : (t₁.slots 0).count = -32768 := by rw [hslot₁]
  -- The key of the leading slot again: it is not found, and it is stored a second time.
  have hget : qhasharrGet zeroMd5 oneBucket s₁.tbl (crowdKey i) = none := by
    rw [htbl₁, qhasharrGet, if_neg (by omega), hzero, getIdx_of_neg (by omega)]
  cases hfe : findEmpty t₁ (oneBucket (crowdKey i) % t₁.maxslots + 1) with
  | none => exact absurd hfe (hempty₁ _)
  | some j =>
    obtain ⟨t₂, hput₂, hmax₂, hj, hj0, hmoved, slot, hfront⟩ := put_over_negative zeroMd5 (by omega)
      (by rw [hused₁]; omega) (by rw [hzero, hcount₁]; decide) hfe
      (frameValue_ne_nil zeroMd5 (crowdVal i [1])) (by rw [(crowdVal_second i).2]; decide)
    rw [hzero] at hmoved hfront
    obtain ⟨s₂, hstep₂, htbl₂⟩ := callStep_set_ok (crowdKey_ne_nil i) hget (htbl₁ ▸ hput₂)
    refine ⟨s₂, i, j, hs₁.tail ⟨crowdKey i, crowdVal i [1], rfl, (crowdVal_second i).1⟩ hstep₂, ?_, ?_, ?_, ?_⟩
    · rw [htbl₂, hmax₂, hmax₁]
    · omega
    · rw [htbl₂]
      exact .of_firstSlot hfront (by rw [(crowdVal_second i).2]; decide)
    · rw [htbl₂]
      exact hshows.of_count (hmoved.trans hslot₁) (by decide)

end QConf.Shm
