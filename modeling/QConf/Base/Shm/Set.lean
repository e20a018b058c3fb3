import QConf.Base.Shm.Iterate

/-!
# `hash_tbl_set` over whole runs

In every state that sets, removes, clears and restarts lead to, the store holds a
map and the recency list covers it (`holds_of_reaches`).  So a set succeeds exactly
when its value fits beside the local idc, which is never evicted.  It evicts just
enough keys, except in a full table: there the put fails before it looks for the old
value of its key, and a key is evicted although the new value fits the old slots.
When a set fails, the evicted keys are lost, and with them the old value of its own
key.
-/

namespace QConf.Shm

open Qhasharr Transition

/-! ### Runs -/

/-- A call of the agent on its store, or a new agent on the old table. -/
inductive Call
  | set (key val : Bytes)
  | remove (key : Bytes)
  | clear
  | restart

/-- One call, started with some `errno`. -/
def callStep (md5 : Bytes → Bytes) (hashFn : Bytes → Nat) (s : Store) (a : Call × Option Errno) :
    Option Store :=
  let s := { s with errno := a.2 }
  match a.1 with
  | .set key val => (hashTblSet md5 hashFn s key val).map Prod.snd
  | .remove key => some (hashTblRemove md5 hashFn s key).2
  | .clear => some (hashTblClear s).2
  | .restart =>
    match initLruMem md5 s.tbl with
    | some (true, lru) => some { s with lru := lru }
    | _ => none

/-- At most 32767 keys in the bucket of `key`, this one included. -/
def BucketRoom (md5 : Bytes → Bytes) (hashFn : Bytes → Nat) (t : Tbl) (key : Bytes) : Prop :=
  bucketKeys t (hashFn key % t.maxslots) + (if qhasharrExist md5 hashFn t key then 0 else 1) ≤ 32767

instance (md5 : Bytes → Bytes) (hashFn : Bytes → Nat) (t : Tbl) (key : Bytes) :
    Decidable (BucketRoom md5 hashFn t key) := inferInstanceAs (Decidable (_ ≤ _))

/-- What the callers guarantee of a call: keys of at most 65535 bytes, at most 32767
of them in one bucket, and on a restart values that the encoders wrote. -/
def Admitted (md5 : Bytes → Bytes) (hashFn : Bytes → Nat) (s : Store) (a : Call × Option Errno) : Prop :=
  match a.1 with
  | .set key _ => key.length < 65536 ∧ BucketRoom md5 hashFn s.tbl key
  | .remove key => key.length < 65536
  | .clear => True
  | .restart => AllEncoded md5 hashFn s.tbl

section

variable {md5 : Bytes → Bytes} {hashFn : Bytes → Nat} {n : Nat} {s s' : Store} {m : BytesMap}
  {key val : Bytes}

theorem Holds.bucket (h : Holds md5 hashFn n s m) (hn : 0 < n) (hkey : key.length < 65536)
    (hb : BucketRoom md5 hashFn s.tbl key) :
    (bucketMates hashFn n m (seenAs md5 hashFn n key)).card < 32767 := by
  rw [BucketRoom, h.sees.maxslots] at hb
  exact h.sees.mates_lt hn hkey hb

theorem Holds.setErrno (h : Holds md5 hashFn n s m) (e : Option Errno) :
    Holds md5 hashFn n { s with errno := e } m := ⟨h.sees, h.lru, h.listed, h.covered⟩

theorem holds_init (n : Nat) : Holds md5 hashFn n (Store.init n) ∅ where
  sees := Refines.empty rfl (rep_qhasharr n)
  lru := Lru.ok_empty
  listed := by simp [Store.init, Lru.keys, Lru.empty]
  covered k hk := absurd hk Finmap.notMem_empty

/-- A set that gets past the comparison. -/
theorem hashTblSet_end (h : Holds md5 hashFn n s m) (hn : 0 < n) (hne : key ≠ [])
    (hkey : key.length < 65536) (hb : BucketRoom md5 hashFn s.tbl key)
    (hdiff : hashTblGet md5 hashFn s.tbl key ≠ (.ok, val)) :
    ∃ r, hashTblSet md5 hashFn s key val = some r ∧
      SetEnd md5 hashFn n s m key (frameValue md5 val) r := by
  rw [hashTblSet, if_neg hne, if_neg hdiff]
  exact setEnd_of_holds h hn hne hkey (frameValue_ne_nil md5 val) (h.bucket hn hkey hb)

theorem lookup_evict {L : List Bytes} {i : Nat} {k w : Bytes}
    (h : (evict md5 hashFn n m L i).lookup k = some w) : m.lookup k = some w := by
  rw [evict, lookup_eraseAll] at h
  split at h
  · exact absurd h (by simp)
  · exact h

/-- What the table has after a call was there before, or it is what the call set. -/
def ComesFrom (md5 : Bytes → Bytes) (hashFn : Bytes → Nat) (n : Nat) (m : BytesMap) (call : Call)
    (k w : Bytes) : Prop :=
  m.lookup k = some w ∨
    ∃ key val, call = .set key val ∧ k = seenAs md5 hashFn n key ∧ w = frameValue md5 val

/-- **One call keeps the store in order**, and it brings no value but the one it sets. -/
theorem Holds.step_from (hmd5 : ∀ b, (md5 b).length = md5IntLen) (hn : 0 < n)
    (h : Holds md5 hashFn n s m) {a : Call × Option Errno} (ha : Admitted md5 hashFn s a)
    (hstep : callStep md5 hashFn s a = some s') :
    ∃ m', Holds md5 hashFn n s' m' ∧ ∀ k w, m'.lookup k = some w → ComesFrom md5 hashFn n m a.1 k w := by
  obtain ⟨call, e⟩ := a
  have h := h.setErrno e
  cases call with
  | set key val =>
    change (hashTblSet md5 hashFn { s with errno := e } key val).map Prod.snd = some s' at hstep
    by_cases hne : key = []
    · rw [hashTblSet, if_pos hne] at hstep
      exact ⟨m, Option.some.inj hstep ▸ h, fun k w hk => Or.inl hk⟩
    by_cases hsame : hashTblGet md5 hashFn s.tbl key = (.ok, val)
    · rw [hashTblSet, if_neg hne, if_pos hsame] at hstep
      exact ⟨m, Option.some.inj hstep ▸ h, fun k w hk => Or.inl hk⟩
    obtain ⟨r, hr, hend⟩ := hashTblSet_end h hn hne ha.1 ha.2 hsame
    rw [hr] at hstep
    obtain rfl := Option.some.inj hstep
    cases hend with
    | stored i le fits least holds =>
      refine ⟨_, holds, fun k w hk => ?_⟩
      by_cases hkey : k = seenAs md5 hashFn n key
      · rw [hkey, Finmap.lookup_insert, Option.some.injEq] at hk
        exact Or.inr ⟨key, val, rfl, hkey, hk.symm⟩
      · rw [Finmap.lookup_insert_of_ne _ hkey] at hk
        exact Or.inl (lookup_evict hk)
    | failed never holds =>
      refine ⟨_, holds, fun k w hk => Or.inl ?_⟩
      unfold afterFail at hk
      split at hk
      · exact lookup_evict (lookup_erase_iff.mp hk).2
      · exact lookup_evict hk
  | remove key =>
    obtain rfl := Option.some.inj hstep
    by_cases hne : key = []
    · rw [hashTblRemove, if_pos hne]
      exact ⟨m, h, fun k w hk => Or.inl hk⟩
    · obtain ⟨s', hr, hlru, hsees⟩ := hashTblRemove_spec h.sees hn hne ha
      rw [hr]
      refine ⟨_, ⟨hsees, hlru ▸ h.lru, hlru ▸ h.listed, fun k hk => ?_⟩,
        fun k w hk => Or.inl (lookup_erase_iff.mp hk).2⟩
      rw [hlru]
      exact h.covered k (Finmap.mem_erase.mp hk).2
  | clear =>
    obtain rfl := Option.some.inj hstep
    exact ⟨∅, ⟨h.sees.clear, h.lru, h.listed, fun k hk => absurd hk Finmap.notMem_empty⟩,
      fun k w hk => absurd hk (by simp)⟩
  | restart =>
    obtain ⟨l, hl, hholds⟩ := initLruMem_holds hmd5 hn h.sees ha e
    simp only [callStep, hl] at hstep
    obtain rfl := Option.some.inj hstep
    exact ⟨m, hholds, fun k w hk => Or.inl hk⟩

theorem Holds.step (hmd5 : ∀ b, (md5 b).length = md5IntLen) (hn : 0 < n)
    (h : Holds md5 hashFn n s m) {a : Call × Option Errno} (ha : Admitted md5 hashFn s a)
    (hstep : callStep md5 hashFn s a = some s') : ∃ m', Holds md5 hashFn n s' m' := by
  obtain ⟨m', hholds, -⟩ := h.step_from hmd5 hn ha hstep
  exact ⟨m', hholds⟩

/-- **Every reached store is in order.** -/
theorem holds_of_reaches (hmd5 : ∀ b, (md5 b).length = md5IntLen) (hn : 0 < n)
    (h : Reaches (callStep md5 hashFn) (Admitted md5 hashFn) (Store.init n) s) :
    ∃ m, Holds md5 hashFn n s m :=
  h.invariant (fun s => ∃ m, Holds md5 hashFn n s m) ⟨∅, holds_init n⟩
    (fun ⟨_, hm⟩ ha hstep => hm.step hmd5 hn ha hstep)

end

/-! ### What the table shows -/

/-- The slots of the value stored under a key. -/
def keySlots (md5 : Bytes → Bytes) (hashFn : Bytes → Nat) (t : Tbl) (key : Bytes) : Nat :=
  match qhasharrGet md5 hashFn t key with
  | none => 0
  | some w => slotsFor w.length

/-- The slots of the local idc. -/
def localIdcSlots (md5 : Bytes → Bytes) (hashFn : Bytes → Nat) (t : Tbl) : Nat :=
  keySlots md5 hashFn t localIdcKey

/-- There are slots for a value of `len` bytes under `key`, those of the old value counted as free. -/
def SlotRoom (md5 : Bytes → Bytes) (hashFn : Bytes → Nat) (t : Tbl) (key : Bytes) (len : Nat) : Prop :=
  t.usedslots - keySlots md5 hashFn t key + slotsFor len ≤ t.maxslots

instance (md5 : Bytes → Bytes) (hashFn : Bytes → Nat) (t : Tbl) (key : Bytes) (len : Nat) :
    Decidable (SlotRoom md5 hashFn t key len) := inferInstanceAs (Decidable (_ ≤ _))

/-- The value fits when everything but the local idc is evicted. -/
def CanFit (md5 : Bytes → Bytes) (hashFn : Bytes → Nat) (t : Tbl) (key : Bytes) (len : Nat) : Prop :=
  if key = localIdcKey then localIdcSlots md5 hashFn t < t.maxslots ∧ slotsFor len ≤ t.maxslots
  else slotsFor len + localIdcSlots md5 hashFn t ≤ t.maxslots

/-- The table without some keys. -/
def without (md5 : Bytes → Bytes) (hashFn : Bytes → Nat) (t : Tbl) (keys : List Bytes) : Tbl :=
  keys.foldl (fun t key => (qhasharrRemove md5 hashFn t key).2) t

section

variable {md5 : Bytes → Bytes} {hashFn : Bytes → Nat} {n : Nat} {t : Tbl} {s s' : Store} {m : BytesMap}
  {key val : Bytes}

theorem Sees.remove (h : Sees md5 hashFn n t m) (hn : 0 < n) (hkey : key.length < 65536) :
    Sees md5 hashFn n (qhasharrRemove md5 hashFn t key).2 (m.erase (seenAs md5 hashFn n key)) := by
  rw [remove_congr (digest_key h key)]
  exact (Refines.remove h hn (separated_seenKeys md5 hashFn n) (seenAs_mem hkey)).2

theorem Sees.exist (h : Sees md5 hashFn n t m) (hn : 0 < n) (hkey : key.length < 65536) :
    qhasharrExist md5 hashFn t key = true ↔ seenAs md5 hashFn n key ∈ m := by
  rw [exist_congr (digest_key h key)]
  exact (Refines.answers h hn (separated_seenKeys md5 hashFn n) (seenAs_mem hkey)).2.1

theorem Sees.keySlots_eq (h : Sees md5 hashFn n t m) (hn : 0 < n) (hkey : key.length < 65536) :
    keySlots md5 hashFn t key = match m.lookup (seenAs md5 hashFn n key) with
      | none => 0
      | some w => slotsFor w.length := by
  rw [keySlots, h.get hn hkey]

/-- The slots of a key and those of the other keys. -/
theorem Sees.usedSlots_erase (h : Sees md5 hashFn n t m) (hn : 0 < n) (hkey : key.length < 65536) :
    usedSlots (m.erase (seenAs md5 hashFn n key)) + keySlots md5 hashFn t key = usedSlots m := by
  rw [h.keySlots_eq hn hkey]
  cases hl : m.lookup (seenAs md5 hashFn n key) with
  | none => rw [erase_of_notMem (Finmap.lookup_eq_none.mp hl), Nat.add_zero]
  | some w => exact usedSlots_erase_add hl

theorem Sees.slotRoom_iff (h : Sees md5 hashFn n t m) (hn : 0 < n) (hkey : key.length < 65536)
    (len : Nat) :
    SlotRoom md5 hashFn t key len ↔ usedSlots (m.erase (seenAs md5 hashFn n key)) + slotsFor len ≤ n := by
  have hsum := h.usedSlots_erase hn hkey
  rw [SlotRoom, h.maxslots, Refines.usedslots h]
  omega

theorem Sees.without (hn : 0 < n) : ∀ (keys : List Bytes) {t : Tbl} {m : BytesMap},
    Sees md5 hashFn n t m → (∀ x ∈ keys, x.length < 65536) →
    Sees md5 hashFn n (without md5 hashFn t keys) (eraseAll m (keys.map (seenAs md5 hashFn n))) := by
  intro keys
  induction keys with
  | nil => intro t m h _; exact h
  | cons x keys ih =>
    intro t m h hlen
    exact ih (h.remove hn (hlen x (List.mem_cons_self ..)))
      (fun y hy => hlen y (List.mem_cons_of_mem _ hy))

/-- Room after `i` evictions. -/
theorem Holds.slotRoom_without_iff (h : Holds md5 hashFn n s m) (hn : 0 < n) (hkey : key.length < 65536)
    (len i : Nat) :
    SlotRoom md5 hashFn (without md5 hashFn s.tbl (s.lru.keys.reverse.take i)) key len ↔
      usedSlots ((evict md5 hashFn n m s.lru.keys.reverse i).erase (seenAs md5 hashFn n key)) +
        slotsFor len ≤ n :=
  (Sees.without hn _ h.sees (fun x hx =>
    (h.listed x (List.mem_reverse.mp (List.mem_of_mem_take hx))).2.1)).slotRoom_iff hn hkey len

theorem Sees.localIdcSlots_eq (h : Sees md5 hashFn n t m) (hn : 0 < n) :
    localIdcSlots md5 hashFn t = match m.lookup localIdcKey with
      | none => 0
      | some w => slotsFor w.length := by
  rw [localIdcSlots, h.keySlots_eq hn (by decide), seenAs_localIdcKey]

/-- The slots of another key and of the local idc. -/
theorem Sees.keySlots_add_localIdcSlots_le (h : Sees md5 hashFn n t m) (hn : 0 < n)
    (hkey : key.length < 65536) (hloc : key ≠ localIdcKey) :
    keySlots md5 hashFn t key + localIdcSlots md5 hashFn t ≤ n := by
  have hle : usedSlots m ≤ n := Refines.usedSlots_le h
  have hsum := h.usedSlots_erase hn hkey
  have hne : localIdcKey ≠ seenAs md5 hashFn n key := by
    intro heq
    rw [eq_comm, seenAs_eq_short (by decide)] at heq
    exact hloc heq
  have hidc : localIdcSlots md5 hashFn t ≤ usedSlots (m.erase (seenAs md5 hashFn n key)) := by
    rw [h.localIdcSlots_eq hn]
    cases hl : m.lookup localIdcKey with
    | none => exact Nat.zero_le _
    | some w =>
      rw [← Finmap.lookup_erase_ne hne] at hl
      have hrest := usedSlots_erase_add hl
      dsimp only
      omega
  omega

/-- A map that has at most the local idc. -/
theorem usedSlots_localIdc (honly : ∀ k ∈ m, k = localIdcKey) :
    usedSlots m = match m.lookup localIdcKey with
      | none => 0
      | some w => slotsFor w.length := by
  have hempty : usedSlots (m.erase localIdcKey) = 0 := by
    rw [usedSlots, Finset.sum_eq_zero]
    intro k hk
    have hk := Finmap.mem_erase.mp (Finmap.mem_keys.mp hk)
    exact absurd (honly k hk.2) hk.1
  cases hl : m.lookup localIdcKey with
  | none =>
    rw [erase_of_notMem (Finmap.lookup_eq_none.mp hl)] at hempty
    exact hempty
  | some w => rw [← usedSlots_erase_add hl, hempty, Nat.zero_add]

/-- The local idc is not evicted. -/
theorem Holds.lookup_evict_localIdc (h : Holds md5 hashFn n s m) (i : Nat) :
    (evict md5 hashFn n m s.lru.keys.reverse i).lookup localIdcKey = m.lookup localIdcKey := by
  rw [evict, lookup_eraseAll, if_neg]
  intro hin
  obtain ⟨x, hx, hxk⟩ := List.mem_map.mp hin
  rw [seenAs_eq_short (by decide)] at hxk
  exact (h.listed x (List.mem_reverse.mp (List.mem_of_mem_take hx))).2.2 hxk

/-- When all is evicted, the slots of the local idc are in use. -/
theorem Holds.usedSlots_evict_all (h : Holds md5 hashFn n s m) (hn : 0 < n) :
    usedSlots (evict md5 hashFn n m s.lru.keys.reverse s.lru.keys.length) =
      localIdcSlots md5 hashFn s.tbl := by
  rw [usedSlots_localIdc (fun k hk => h.evict_all hk), h.lookup_evict_localIdc,
    h.sees.localIdcSlots_eq hn]

/-- What fits after some evictions fits after all of them. -/
theorem fits_evict_all {L : List Bytes} {i len : Nat}
    (h : Fits n (evict md5 hashFn n m L i) key len) : Fits n (evict md5 hashFn n m L L.length) key len := by
  have hsplit : evict md5 hashFn n m L L.length =
      eraseAll (evict md5 hashFn n m L i) ((L.drop i).map (seenAs md5 hashFn n)) := by
    rw [evict, evict, eraseAll, eraseAll, eraseAll, ← List.foldl_append, ← List.map_append,
      List.take_append_drop, List.take_length]
  rw [hsplit]
  exact fits_eraseAll h _

theorem usedSlots_eq_zero_iff : usedSlots m = 0 ↔ ∀ k, k ∉ m := by
  rw [usedSlots, Finset.sum_eq_zero_iff]
  constructor
  · intro h k hk
    exact absurd (h k (Finmap.mem_keys.mpr hk)) (Nat.pos_iff_ne_zero.mp (slotsFor_pos _))
  · intro h k hk
    exact absurd (Finmap.mem_keys.mp hk) (h k)

/-- **There is room after all evictions** exactly when the value can fit. -/
theorem Holds.fits_evict_all_iff (h : Holds md5 hashFn n s m) (hn : 0 < n) (key : Bytes) (len : Nat) :
    Fits n (evict md5 hashFn n m s.lru.keys.reverse s.lru.keys.length) (seenAs md5 hashFn n key) len ↔
      CanFit md5 hashFn s.tbl key len := by
  rw [Fits, CanFit, h.usedSlots_evict_all hn, h.sees.maxslots]
  by_cases hloc : key = localIdcKey
  · have hnone : usedSlots ((evict md5 hashFn n m s.lru.keys.reverse s.lru.keys.length).erase
        (seenAs md5 hashFn n key)) = 0 := by
      rw [usedSlots_eq_zero_iff, hloc, seenAs_localIdcKey]
      intro k hk
      have hk := Finmap.mem_erase.mp hk
      exact hk.1 (h.evict_all hk.2)
    rw [if_pos hloc, hnone, Nat.zero_add]
  · have hnot : seenAs md5 hashFn n key ∉
        evict md5 hashFn n m s.lru.keys.reverse s.lru.keys.length := by
      intro hin
      have heq := h.evict_all hin
      rw [seenAs_eq_short (by decide)] at heq
      exact hloc heq
    have hpos := slotsFor_pos len
    rw [if_neg hloc, erase_of_notMem hnot, h.usedSlots_evict_all hn]
    omega

theorem verify_ne_notFound (w : Bytes) : (qconfVerify md5 w).1 ≠ .errNotFound := by
  unfold qconfVerify qconfVerifyIn
  dsimp only
  repeat' split
  all_goals simp

/-- What `hash_tbl_get` answers, read off the map. -/
theorem Sees.hashTblGet_eq (h : Sees md5 hashFn n t m) (hn : 0 < n) {x : Bytes} (hx : x ≠ [])
    (hlen : x.length < 65536) :
    hashTblGet md5 hashFn t x = match m.lookup (seenAs md5 hashFn n x) with
      | none => (.errNotFound, [])
      | some w => qconfVerify md5 w := by
  rewrite [hashTblGet, if_neg hx, h.get hn hlen]
  cases m.lookup (seenAs md5 hashFn n x) <;> rfl

end

/-! ### Just enough -/

/-- What the store `s'` answers is what `s` answered, without the last `i` keys of its recency list
and with the value under the key. -/
def SetBehind (md5 : Bytes → Bytes) (hashFn : Bytes → Nat) (n : Nat) (s s' : Store) (key val : Bytes)
    (i : Nat) : Prop :=
  ∀ x, x ≠ [] → x.length < 65536 →
    hashTblGet md5 hashFn s'.tbl x =
      if hits md5 hashFn n key x then (.ok, val)
      else if (s.lru.keys.reverse.take i).any (fun y => hits md5 hashFn n y x) then (.errNotFound, [])
      else hashTblGet md5 hashFn s.tbl x

/-- The set has evicted the last keys of the recency list, as few as make room in slots. -/
def EvictsJustEnough (md5 : Bytes → Bytes) (hashFn : Bytes → Nat) (n : Nat) (s s' : Store)
    (key val : Bytes) : Prop :=
  ∃ i ≤ s.lru.keys.length,
    SlotRoom md5 hashFn (without md5 hashFn s.tbl (s.lru.keys.reverse.take i)) key
      (frameValue md5 val).length ∧
    (∀ j < i, ¬ SlotRoom md5 hashFn (without md5 hashFn s.tbl (s.lru.keys.reverse.take j)) key
      (frameValue md5 val).length) ∧
    SetBehind md5 hashFn n s s' key val i

/-- The stored key that was set least recently. -/
def oldestStored (md5 : Bytes → Bytes) (hashFn : Bytes → Nat) (s : Store) : Option Bytes :=
  s.lru.keys.reverse.find? (qhasharrExist md5 hashFn s.tbl)

/-- The set has no need of a free slot that the table does not have: the value is stored already, a
slot is free, the value needs more slots than the old one, or the key itself is the one set least
recently. -/
def JustEnoughWhen (md5 : Bytes → Bytes) (hashFn : Bytes → Nat) (s : Store) (key val : Bytes) : Prop :=
  hashTblGet md5 hashFn s.tbl key = (.ok, val) ∨ s.tbl.usedslots < s.tbl.maxslots ∨
  keySlots md5 hashFn s.tbl key < slotsFor (frameValue md5 val).length ∨
  ∃ x, oldestStored md5 hashFn s = some x ∧ hits md5 hashFn s.tbl.maxslots key x = true

section

variable {md5 : Bytes → Bytes} {hashFn : Bytes → Nat} {n : Nat} {s s' : Store} {m : BytesMap}
  {key val : Bytes}

/-- An eviction of a stored key frees a slot. -/
theorem usedSlots_evict_lt {L : List Bytes} {i : Nat} {x : Bytes} (hx : x ∈ L.take i)
    (hm : seenAs md5 hashFn n x ∈ m) : usedSlots (evict md5 hashFn n m L i) < usedSlots m := by
  obtain ⟨w, hw⟩ := Option.isSome_iff_exists.mp (Finmap.lookup_isSome.mpr hm)
  have hgone : seenAs md5 hashFn n x ∉ evict md5 hashFn n m L i := fun hin => (mem_evict.mp hin).2 x hx rfl
  have hle := usedSlots_eraseAll_le ((L.take i).map (seenAs md5 hashFn n)) (m.erase (seenAs md5 hashFn n x))
  rw [← eraseAll_erase] at hle
  change usedSlots ((evict md5 hashFn n m L i).erase _) ≤ _ at hle
  rw [erase_of_notMem hgone] at hle
  have hsum := usedSlots_erase_add hw
  have hpos := slotsFor_pos w.length
  omega

/-- Evictions of keys that are not stored change nothing. -/
theorem evict_eq_self {L : List Bytes} {i : Nat} (h : ∀ x ∈ L.take i, seenAs md5 hashFn n x ∉ m) :
    evict md5 hashFn n m L i = m := by
  refine Finmap.ext_lookup (fun k => ?_)
  rw [evict, lookup_eraseAll]
  split
  · next hin =>
    obtain ⟨x, hx, rfl⟩ := List.mem_map.mp hin
    exact (Finmap.lookup_eq_none.mpr (h x hx)).symm
  · rfl

/-- **Where slots are all that counts**: a slot is free, or the slots do not suffice at first. -/
theorem fits_evict_iff_of_short {L : List Bytes} {k : Bytes} {len : Nat} (hle : usedSlots m ≤ n)
    (h : usedSlots m < n ∨ n < usedSlots (m.erase k) + slotsFor len) (i : Nat) :
    Fits n (evict md5 hashFn n m L i) k len ↔
      usedSlots ((evict md5 hashFn n m L i).erase k) + slotsFor len ≤ n := by
  refine ⟨fun hfits => hfits.2, fun hslots => ⟨?_, hslots⟩⟩
  by_cases hstored : ∃ x ∈ L.take i, seenAs md5 hashFn n x ∈ m
  · obtain ⟨x, hx, hm⟩ := hstored
    exact Nat.lt_of_lt_of_le (usedSlots_evict_lt hx hm) hle
  · push Not at hstored
    rw [evict_eq_self hstored] at hslots ⊢
    omega

/-- A full table: nothing stored was evicted before the last eviction. -/
theorem notMem_of_least_full {L : List Bytes} {k : Bytes} {len i : Nat} (hle : usedSlots m ≤ n)
    (hslots : usedSlots (m.erase k) + slotsFor len ≤ n)
    (least : ∀ j < i, ¬ Fits n (evict md5 hashFn n m L j) k len) {j : Nat} (hj : j < i) {x : Bytes}
    (hx : x ∈ L.take j) : seenAs md5 hashFn n x ∉ m := by
  intro hm
  refine least j hj ⟨Nat.lt_of_lt_of_le (usedSlots_evict_lt hx hm) hle, ?_⟩
  rw [evict, eraseAll_erase]
  exact Nat.le_trans (Nat.add_le_add_right (usedSlots_eraseAll_le _ _) _) hslots

/-- A full table: at most one stored key is evicted. -/
theorem evicted_unique {L : List Bytes} {k : Bytes} {len i : Nat} (hle : usedSlots m ≤ n)
    (hslots : usedSlots (m.erase k) + slotsFor len ≤ n)
    (least : ∀ j < i, ¬ Fits n (evict md5 hashFn n m L j) k len) {x y : Bytes} (hx : x ∈ L.take i)
    (hy : y ∈ L.take i) (hxm : seenAs md5 hashFn n x ∈ m) (hym : seenAs md5 hashFn n y ∈ m) : x = y := by
  cases i with
  | zero => exact absurd hx (by simp)
  | succ j =>
    have hlast : ∀ z ∈ L.take (j + 1), seenAs md5 hashFn n z ∈ m → L[j]? = some z := by
      intro z hz hzm
      rw [List.take_add_one, List.mem_append] at hz
      rcases hz with hz | hz
      · exact absurd hzm (notMem_of_least_full hle hslots least (Nat.lt_succ_self j) hz)
      · exact Option.mem_toList.mp hz
    exact Option.some.inj ((hlast x hx hxm).symm.trans (hlast y hy hym))

/-- The first stored key of the list is among those evicted, if one is. -/
theorem find?_mem_take {L : List Bytes} {p : Bytes → Bool} {i : Nat} {x : Bytes} (hx : x ∈ L.take i)
    (hp : p x = true) : ∃ y ∈ L.take i, L.find? p = some y ∧ p y = true := by
  obtain ⟨y, hy⟩ := Option.isSome_iff_exists.mp (List.find?_isSome.mpr ⟨x, hx, hp⟩)
  refine ⟨y, List.mem_of_find?_eq_some hy, ?_, List.find?_some hy⟩
  rw [← List.take_append_drop i L, List.find?_append, hy, Option.some_or]

/-- What a set that stored its value leaves behind. -/
theorem setBehind_of_holds (hmd5 : ∀ b, (md5 b).length = md5IntLen) (hn : 0 < n)
    (hval : val.length < 2 ^ 32) (h : Holds md5 hashFn n s m) {i : Nat}
    (holds : Holds md5 hashFn n s' ((evict md5 hashFn n m s.lru.keys.reverse i).insert
      (seenAs md5 hashFn n key) (frameValue md5 val))) :
    SetBehind md5 hashFn n s s' key val i := by
  intro x hx hxlen
  have hhit : ∀ y, hits md5 hashFn n y x = true ↔
      seenAs md5 hashFn n x = seenAs md5 hashFn n y := fun y => hits_iff_seenAs hxlen
  rw [holds.sees.hashTblGet_eq hn hx hxlen, h.sees.hashTblGet_eq hn hx hxlen]
  by_cases hk : seenAs md5 hashFn n x = seenAs md5 hashFn n key
  · rw [if_pos ((hhit key).mpr hk), hk, Finmap.lookup_insert]
    exact verify_frameValue hmd5 hval
  · rw [if_neg (fun hh => hk ((hhit key).mp hh)), Finmap.lookup_insert_of_ne _ hk, evict,
      lookup_eraseAll]
    by_cases hev : seenAs md5 hashFn n x ∈
        (s.lru.keys.reverse.take i).map (seenAs md5 hashFn n)
    · obtain ⟨y, hy, hxy⟩ := List.mem_map.mp hev
      rw [if_pos hev, if_pos (List.any_eq_true.mpr ⟨y, hy, (hhit y).mpr hxy.symm⟩)]
    · rw [if_neg hev, if_neg]
      intro hany
      obtain ⟨y, hy, hxy⟩ := List.any_eq_true.mp hany
      exact hev (List.mem_map.mpr ⟨y, hy, ((hhit y).mp hxy).symm⟩)

/-- **A set in a full table whose value fits the old slots** has evicted no key too many exactly
when the key it evicted is its own. -/
theorem setBehind_zero_iff (hmd5 : ∀ b, (md5 b).length = md5IntLen) (hn : 0 < n)
    (hval : val.length < 2 ^ 32) (h : Holds md5 hashFn n s m) (hfull : usedSlots m = n)
    (hslots : usedSlots (m.erase (seenAs md5 hashFn n key)) + slotsFor (frameValue md5 val).length ≤ n)
    {i : Nat}
    (fits : Fits n (evict md5 hashFn n m s.lru.keys.reverse i) (seenAs md5 hashFn n key)
      (frameValue md5 val).length)
    (least : ∀ j < i, ¬ Fits n (evict md5 hashFn n m s.lru.keys.reverse j) (seenAs md5 hashFn n key)
      (frameValue md5 val).length)
    (holds : Holds md5 hashFn n s' ((evict md5 hashFn n m s.lru.keys.reverse i).insert
      (seenAs md5 hashFn n key) (frameValue md5 val))) :
    SetBehind md5 hashFn n s s' key val 0 ↔
      ∃ x, oldestStored md5 hashFn s = some x ∧ hits md5 hashFn n key x = true := by
  have hbehind := setBehind_of_holds hmd5 hn hval h holds
  have hlisted : ∀ x ∈ s.lru.keys.reverse.take i, x ≠ [] ∧ x.length < 65536 := fun x hx =>
    have hx := h.listed x (List.mem_reverse.mp (List.mem_of_mem_take hx))
    ⟨hx.1, hx.2.1⟩
  -- a stored key was evicted, for a slot is free now
  obtain ⟨y, hy, hym⟩ : ∃ y ∈ s.lru.keys.reverse.take i, seenAs md5 hashFn n y ∈ m := by
    by_contra hno
    push Not at hno
    rw [evict_eq_self hno] at fits
    exact absurd fits.1 (by omega)
  obtain ⟨x, hx, hold, hstored⟩ := find?_mem_take hy
    ((h.sees.exist hn (hlisted y hy).2).mpr hym)
  have hxm := (h.sees.exist hn (hlisted x hx).2).mp hstored
  constructor
  · intro hzero
    refine ⟨x, hold, ?_⟩
    by_contra hmiss
    have hafter := hbehind x (hlisted x hx).1 (hlisted x hx).2
    have hany : (s.lru.keys.reverse.take i).any (fun y => hits md5 hashFn n y x) = true :=
      List.any_eq_true.mpr ⟨x, hx, (hits_iff_seenAs (hlisted x hx).2).mpr rfl⟩
    rw [hzero x (hlisted x hx).1 (hlisted x hx).2, if_neg hmiss, if_neg hmiss, List.take_zero,
      List.any_nil, if_neg Bool.false_ne_true, if_pos hany,
      h.sees.hashTblGet_eq hn (hlisted x hx).1 (hlisted x hx).2] at hafter
    obtain ⟨w, hw⟩ := Option.isSome_iff_exists.mp (Finmap.lookup_isSome.mpr hxm)
    rw [hw] at hafter
    exact verify_ne_notFound w (congrArg Prod.fst hafter)
  · rintro ⟨x', hx', hhit⟩ z hz hzlen
    obtain rfl : x = x' := Option.some.inj (hold.symm.trans hx')
    rw [hbehind z hz hzlen, List.take_zero, List.any_nil, if_neg Bool.false_ne_true]
    by_cases hzk : hits md5 hashFn n key z = true
    · rw [if_pos hzk, if_pos hzk]
    rw [if_neg hzk, if_neg hzk]
    by_cases hany : (s.lru.keys.reverse.take i).any (fun y => hits md5 hashFn n y z) = true
    · -- the only stored key that was evicted is the key itself
      obtain ⟨u, hu, huz⟩ := List.any_eq_true.mp hany
      have huz := (hits_iff_seenAs hzlen).mp huz
      have hnot : seenAs md5 hashFn n z ∉ m := by
        intro hzm
        rw [huz] at hzm
        obtain rfl := evicted_unique (Nat.le_of_eq hfull) hslots least hx hu hxm hzm
        exact hzk ((hits_iff_seenAs hzlen).mpr
          (huz.trans ((hits_iff_seenAs (hlisted x hx).2).mp hhit)))
      rw [if_pos hany, h.sees.hashTblGet_eq hn hz hzlen, Finmap.lookup_eq_none.mpr hnot]
    · rw [if_neg hany]

/-- What a set that stored its value has evicted, in slots. -/
theorem evictsJustEnough_iff (hmd5 : ∀ b, (md5 b).length = md5IntLen) (hn : 0 < n)
    (hkey : key.length < 65536) (hval : val.length < 2 ^ 32) (h : Holds md5 hashFn n s m)
    (hsame : hashTblGet md5 hashFn s.tbl key ≠ (.ok, val)) {i : Nat} (le : i ≤ s.lru.keys.length)
    (fits : Fits n (evict md5 hashFn n m s.lru.keys.reverse i) (seenAs md5 hashFn n key)
      (frameValue md5 val).length)
    (least : ∀ j < i, ¬ Fits n (evict md5 hashFn n m s.lru.keys.reverse j) (seenAs md5 hashFn n key)
      (frameValue md5 val).length)
    (holds : Holds md5 hashFn n s' ((evict md5 hashFn n m s.lru.keys.reverse i).insert
      (seenAs md5 hashFn n key) (frameValue md5 val))) :
    EvictsJustEnough md5 hashFn n s s' key val ↔ JustEnoughWhen md5 hashFn s key val := by
  have hle : usedSlots m ≤ n := Refines.usedSlots_le h.sees
  have hsum := h.sees.usedSlots_erase hn hkey
  have hused : s.tbl.usedslots = (usedSlots m : Int) := Refines.usedslots h.sees
  by_cases hshort : usedSlots m < n ∨
      n < usedSlots (m.erase (seenAs md5 hashFn n key)) + slotsFor (frameValue md5 val).length
  · have hiff := fun j => (h.slotRoom_without_iff hn hkey (frameValue md5 val).length j).trans
      (fits_evict_iff_of_short hle hshort j).symm
    refine ⟨fun _ => Or.inr ?_, fun _ => ⟨i, le, (hiff i).mpr fits, fun j hj => ?_,
      setBehind_of_holds hmd5 hn hval h holds⟩⟩
    · rw [h.sees.maxslots, hused]
      omega
    · rw [hiff j]
      exact least j hj
  · push Not at hshort
    obtain ⟨hfull, hslots⟩ := hshort
    have hzero : SlotRoom md5 hashFn (without md5 hashFn s.tbl (s.lru.keys.reverse.take 0)) key
        (frameValue md5 val).length := (h.slotRoom_without_iff hn hkey _ 0).mpr hslots
    have hbehind := setBehind_zero_iff hmd5 hn hval h (Nat.le_antisymm hle hfull) hslots fits least holds
    rw [JustEnoughWhen, h.sees.maxslots, ← hbehind]
    constructor
    · rintro ⟨j, -, -, hleast, hj⟩
      cases j with
      | zero => exact Or.inr (Or.inr (Or.inr hj))
      | succ j => exact absurd hzero (hleast 0 (Nat.succ_pos j))
    · rintro (hstored | hfree | hmore | hj)
      · exact absurd hstored hsame
      · omega
      · omega
      · exact ⟨0, Nat.zero_le _, hzero, fun j hj => absurd hj (Nat.not_lt_zero j), hj⟩

end

/-- **When `hash_tbl_set` evicts just enough.**  In every reached state a set returns: with
`QCONF_ERR_SAME_VALUE` and nothing changed exactly when the value is stored already;
otherwise with `QCONF_OK` exactly when the framed value fits beside the local idc.
Then the last `i` keys of the recency list were evicted, and of the others only the key
itself reads differently; `i` is the least number that makes room exactly under
`JustEnoughWhen`. -/
theorem hash_tbl_set_evicts_just_enough_iff (md5 : Bytes → Bytes)
    (hmd5 : ∀ b, (md5 b).length = md5IntLen) (hashFn : Bytes → Nat) (n : Nat) (hn : 1 ≤ n) (s : Store)
    (hs : Reaches (callStep md5 hashFn) (Admitted md5 hashFn) (Store.init n) s) (key val : Bytes)
    (hne : key ≠ []) (hkey : key.length < 65536) (hloc : key ≠ localIdcKey)
    (hval : val.length < 2 ^ 32) (hb : BucketRoom md5 hashFn s.tbl key) :
    ∃ ret s', hashTblSet md5 hashFn s key val = some (ret, s') ∧
      (ret = .errSameValue ↔ hashTblGet md5 hashFn s.tbl key = (.ok, val)) ∧
      (ret = .errSameValue → s' = s) ∧
      (ret ≠ .errSameValue →
        (ret = .ok ↔
          slotsFor (frameValue md5 val).length + localIdcSlots md5 hashFn s.tbl ≤ n)) ∧
      (ret = .ok → ∃ i ≤ s.lru.keys.length, SetBehind md5 hashFn n s s' key val i) ∧
      ((ret = .ok → EvictsJustEnough md5 hashFn n s s' key val) ↔ JustEnoughWhen md5 hashFn s key val) := by
  obtain ⟨m, h⟩ := holds_of_reaches hmd5 hn hs
  by_cases hsame : hashTblGet md5 hashFn s.tbl key = (.ok, val)
  · refine ⟨.errSameValue, s, ?_, by simp [hsame], fun _ => rfl, fun hno => absurd rfl hno, by simp,
      fun _ => Or.inl hsame, by simp⟩
    rw [hashTblSet, if_neg hne, if_pos hsame]
  obtain ⟨⟨ret, s'⟩, hr, hend⟩ := hashTblSet_end h hn hne hkey hb hsame
  have hiff := h.fits_evict_all_iff hn key (frameValue md5 val).length
  rw [CanFit, if_neg hloc, h.sees.maxslots] at hiff
  cases hend with
  | stored i le fits least holds =>
    refine ⟨.ok, s', hr, by simp [hsame], by simp, fun _ => ?_,
      fun _ => ⟨i, le, setBehind_of_holds hmd5 hn hval h holds⟩, ?_⟩
    · have hall := fits_evict_all fits
      rw [List.length_reverse] at hall
      simp [hiff.mp hall]
    · rw [← evictsJustEnough_iff hmd5 hn hkey hval h hsame le fits least holds]
      simp
  | failed never holds =>
    have hno := never _ (Nat.le_refl _)
    rw [hiff] at hno
    refine ⟨.errTblSet, s', hr, by simp [hsame], by simp, fun _ => by simp [hno], by simp,
      fun _ => ?_, by simp⟩
    -- what fits the old slots of the key fits beside the local idc
    by_contra hnot
    simp only [JustEnoughWhen, not_or] at hnot
    have hsum := h.sees.keySlots_add_localIdcSlots_le hn hkey hloc
    omega

/-- A stand-in for MD5 to run the model with. -/
def zeroMd5 (_ : Bytes) : Bytes := List.replicate md5IntLen 0

/-- A stand-in for the key hash. -/
def firstByte (key : Bytes) : Nat := (key.headD 0).toNat

/-- The test of a call for `Admitted`. -/
def admits (md5 : Bytes → Bytes) (hashFn : Bytes → Nat) (s : Store) (a : Call × Option Errno) : Bool :=
  match a.1 with
  | .set key _ => decide (key.length < 65536 ∧ BucketRoom md5 hashFn s.tbl key)
  | .remove key => decide (key.length < 65536)
  | .clear => true
  | .restart => false

theorem admits_sound {md5 : Bytes → Bytes} {hashFn : Bytes → Nat} (s : Store)
    (a : Call × Option Errno) (h : admits md5 hashFn s a = true) : Admitted md5 hashFn s a := by
  obtain ⟨call, e⟩ := a
  cases call with
  | set key val => exact of_decide_eq_true (p := key.length < 65536 ∧ BucketRoom md5 hashFn s.tbl key) h
  | remove key => exact of_decide_eq_true (p := key.length < 65536) h
  | clear => trivial
  | restart => exact absurd h Bool.false_ne_true

/-- Two keys, the second one set later. -/
def twoKeys : List (Call × Option Errno) := [(.set [1] [7], none), (.set [2] [8], none)]

/-- The store after a run of admitted calls. -/
def storeAfter (n : Nat) (calls : List (Call × Option Errno)) : Store :=
  (run (guarded (admits zeroMd5 firstByte) (callStep zeroMd5 firstByte)) (Store.init n) calls).getD
    (Store.init n)

theorem reaches_storeAfter {n : Nat} {calls : List (Call × Option Errno)}
    (h : (run (guarded (admits zeroMd5 firstByte) (callStep zeroMd5 firstByte)) (Store.init n)
      calls).isSome) :
    Reaches (callStep zeroMd5 firstByte) (Admitted zeroMd5 firstByte) (Store.init n)
      (storeAfter n calls) := by
  obtain ⟨s, hs⟩ := Option.isSome_iff_exists.mp h
  rw [storeAfter, hs, Option.getD_some]
  exact Reaches.guardedRun _ admits_sound .start hs

/-- A value of 60 bytes takes two slots, so one of the two keys has to go, and only one does. -/
theorem twoKeys_evicts :
    ∃ s', hashTblSet zeroMd5 firstByte (storeAfter 3 twoKeys) [3] (List.replicate 60 9) =
        some (.ok, s') ∧
      EvictsJustEnough zeroMd5 firstByte 3 (storeAfter 3 twoKeys) s' [3] (List.replicate 60 9) := by
  obtain ⟨ret, s', hr, hsame, -, hok, -, henough⟩ := hash_tbl_set_evicts_just_enough_iff zeroMd5
    (fun _ => rfl) firstByte 3 (by decide) (storeAfter 3 twoKeys) (reaches_storeAfter (by decide +kernel))
    [3] (List.replicate 60 9) (by decide) (by decide) (by decide) (by decide) (by decide +kernel)
  have hne : ret ≠ .errSameValue := fun h => absurd (hsame.mp h) (by decide +kernel)
  have hret : ret = .ok := (hok hne).mpr (by decide +kernel)
  refine ⟨s', by rw [hr, hret], henough.mpr (Or.inr (Or.inl ?_)) hret⟩
  decide +kernel

/-- **A new value of the old size costs another key.**  The table has two slots and two keys of one
slot each.  There is room for the new value in the old slot, but no slot is free, and the other key
is gone. -/
theorem replacing_in_full_table_evicts :
    SlotRoom zeroMd5 firstByte (storeAfter 2 twoKeys).tbl [2] (frameValue zeroMd5 [9]).length ∧
    hashTblGet zeroMd5 firstByte (storeAfter 2 twoKeys).tbl [1] = (.ok, [7]) ∧
    ((hashTblSet zeroMd5 firstByte (storeAfter 2 twoKeys) [2] [9]).map (fun r =>
      (r.1, hashTblGet zeroMd5 firstByte r.2.tbl [1], hashTblGet zeroMd5 firstByte r.2.tbl [2]))) =
      some (.ok, (.errNotFound, []), (.ok, [9])) := by
  decide +kernel

/-! ### What a failed set loses -/

section

variable {md5 : Bytes → Bytes} {hashFn : Bytes → Nat} {n : Nat} {t t' : Tbl} {s s' : Store}
  {m m' : BytesMap} {key val : Bytes}

theorem Holds.ne_nil (h : Holds md5 hashFn n s m) {k : Bytes} (hk : k ∈ m) : k ≠ [] := by
  rcases h.covered k hk with rfl | ⟨x, hx, rfl⟩
  · decide
  · intro hnil
    have hlen : (seenAs md5 hashFn n x).length = x.length := length_seenAs x
    rw [hnil] at hlen
    exact (h.listed x hx).1 (List.length_eq_zero_iff.mp hlen.symm)

/-- A key longer than the length field is never found. -/
theorem Sees.get_long (h : Sees md5 hashFn n t m) (hn : 0 < n) {x : Bytes} (hx : 65536 ≤ x.length) :
    qhasharrGet md5 hashFn t x = none := by
  obtain ⟨es, hrep, -⟩ := h.entries
  have hn' : 0 < t.maxslots := h.maxslots ▸ hn
  rw [qhasharrGet, if_neg (by omega)]
  cases hi : getIdx md5 t x (hashFn x % t.maxslots) with
  | none => rfl
  | some i =>
    obtain ⟨e, -, -, hhit⟩ := hrep.getIdx_some hn' hi
    simp only [hits, keyHit, Bool.and_eq_true, beq_iff_eq] at hhit
    have := Nat.mod_lt e.key.length (show 0 < 65536 by decide)
    omega

/-- **Two tables read alike** exactly when the smaller map misses nothing. -/
theorem reads_alike_iff (h : Holds md5 hashFn n s m) (h' : Holds md5 hashFn n s' m') (hn : 0 < n)
    (hsub : ∀ k v, m'.lookup k = some v → m.lookup k = some v) :
    (∀ x, hashTblGet md5 hashFn s'.tbl x = hashTblGet md5 hashFn s.tbl x) ↔ ∀ k ∈ m, k ∈ m' := by
  constructor
  · intro hall k hk
    by_contra hnot
    obtain ⟨hlen, hseen⟩ := h.sees.keys k hk
    obtain ⟨v, hv⟩ := Option.isSome_iff_exists.mp (Finmap.lookup_isSome.mpr hk)
    have hget := hall k
    rw [h'.sees.hashTblGet_eq hn (h.ne_nil hk) hlen, h.sees.hashTblGet_eq hn (h.ne_nil hk) hlen,
      hseen, hv, Finmap.lookup_eq_none.mpr hnot] at hget
    exact verify_ne_notFound v (congrArg Prod.fst hget).symm
  · intro hall x
    by_cases hx : x = []
    · rw [hashTblGet, hashTblGet, if_pos hx, if_pos hx]
    by_cases hlen : x.length < 65536
    · rw [h'.sees.hashTblGet_eq hn hx hlen, h.sees.hashTblGet_eq hn hx hlen]
      have hlook : m'.lookup (seenAs md5 hashFn n x) = m.lookup (seenAs md5 hashFn n x) := by
        cases hv : m'.lookup (seenAs md5 hashFn n x) with
        | some v => exact (hsub _ v hv).symm
        | none =>
          rw [Finmap.lookup_eq_none] at hv
          exact (Finmap.lookup_eq_none.mpr (fun hin => hv (hall _ hin))).symm
      rw [hlook]
    · rw [hashTblGet, hashTblGet, if_neg hx, if_neg hx, h'.sees.get_long hn (by omega),
        h.sees.get_long hn (by omega)]

theorem lookup_afterFail_evict {L : List Bytes} {i : Nat} {k v : Bytes}
    (h : (afterFail n (evict md5 hashFn n m L i) key).lookup k = some v) : m.lookup k = some v := by
  have hev : (evict md5 hashFn n m L i).lookup k = some v := by
    unfold afterFail at h
    split at h
    · exact (lookup_erase_iff.mp h).2
    · exact h
  rw [evict, lookup_eraseAll] at hev
  split at hev
  · exact absurd hev (by simp)
  · exact hev

end

/-- A set of this key and value in this table does not fail, or has nothing to lose:
only the local idc is stored, and it is neither the key nor removed for it. -/
def KeepsOnFailure (md5 : Bytes → Bytes) (hashFn : Bytes → Nat) (t : Tbl) (key val : Bytes) : Prop :=
  key = [] ∨ hashTblGet md5 hashFn t key = (.ok, val) ∨
  CanFit md5 hashFn t key (frameValue md5 val).length ∨
  (t.usedslots = localIdcSlots md5 hashFn t ∧
    (key ≠ localIdcKey ∨ t.usedslots = 0 ∨ t.usedslots = t.maxslots))

/-- A set or a remove. -/
def Call.IsSetOrRemove : Call → Prop
  | .set _ _ => True
  | .remove _ => True
  | .clear => False
  | .restart => False

section

variable {md5 : Bytes → Bytes} {hashFn : Bytes → Nat} {n : Nat} {s : Store} {m : BytesMap} {key : Bytes}

/-- The map has at most the local idc exactly when no other slots are in use. -/
theorem Holds.only_localIdc_iff (h : Holds md5 hashFn n s m) (hn : 0 < n) :
    s.tbl.usedslots = localIdcSlots md5 hashFn s.tbl ↔ ∀ k ∈ m, k = localIdcKey := by
  rw [Refines.usedslots h.sees, h.sees.localIdcSlots_eq hn]
  constructor
  · intro heq k hk
    by_contra hne
    have hrest : usedSlots (m.erase localIdcKey) = 0 := by
      cases hl : m.lookup localIdcKey with
      | none =>
        rw [hl] at heq
        rw [erase_of_notMem (Finmap.lookup_eq_none.mp hl)]
        exact Int.natCast_inj.mp heq
      | some w =>
        rw [hl] at heq
        have hsum := usedSlots_erase_add hl
        have heq := Int.natCast_inj.mp heq
        dsimp only at heq
        omega
    exact usedSlots_eq_zero_iff.mp hrest k (Finmap.mem_erase.mpr ⟨hne, hk⟩)
  · intro honly
    rw [usedSlots_localIdc honly]

/-- **What is left after a set that failed**: everything, exactly when only the local
idc was stored and the first put did not remove it. -/
theorem Holds.keeps_iff (h : Holds md5 hashFn n s m) (hn : 0 < n) :
    (∀ k ∈ m, k ∈ afterFail n (evict md5 hashFn n m s.lru.keys.reverse s.lru.keys.length)
      (seenAs md5 hashFn n key)) ↔
    s.tbl.usedslots = localIdcSlots md5 hashFn s.tbl ∧
      (key ≠ localIdcKey ∨ s.tbl.usedslots = 0 ∨ s.tbl.usedslots = s.tbl.maxslots) := by
  have hall : ∀ k, k ∈ m → k = localIdcKey →
      k ∈ evict md5 hashFn n m s.lru.keys.reverse s.lru.keys.length := by
    rintro k hk rfl
    rw [← Finmap.lookup_isSome, h.lookup_evict_localIdc, Finmap.lookup_isSome]
    exact hk
  rw [h.only_localIdc_iff hn, h.sees.maxslots]
  constructor
  · intro hkeep
    have honly : ∀ k ∈ m, k = localIdcKey := fun k hk => h.evict_all (mem_afterFail (hkeep k hk))
    refine ⟨honly, ?_⟩
    by_contra hno
    push Not at hno
    obtain ⟨hloc, hpos, hlt⟩ := hno
    rw [Refines.usedslots h.sees] at hpos hlt
    -- a slot is free, so the first put has removed the local idc
    have hle := Refines.usedSlots_le h.sees
    have hne : ¬ ∀ k, k ∉ m := fun hnone => hpos (by rw [usedSlots_eq_zero_iff.mpr hnone]; rfl)
    push Not at hne
    obtain ⟨k, hk⟩ := hne
    have hin := hkeep k hk
    have hfree : usedSlots (evict md5 hashFn n m s.lru.keys.reverse s.lru.keys.length) < n := by
      have := usedSlots_eraseAll_le
        ((s.lru.keys.reverse.take s.lru.keys.length).map (seenAs md5 hashFn n)) m
      change usedSlots (evict md5 hashFn n m s.lru.keys.reverse s.lru.keys.length) ≤ _ at this
      omega
    rw [afterFail, if_pos hfree, hloc, seenAs_localIdcKey, Finmap.mem_erase] at hin
    exact hin.1 (honly k hk)
  · rintro ⟨honly, hcases⟩ k hk
    have hin := hall k hk (honly k hk)
    unfold afterFail
    split
    · next hfree =>
      rw [Finmap.mem_erase]
      refine ⟨fun heq => ?_, hin⟩
      rw [honly k hk, eq_comm, seenAs_eq_short (by decide)] at heq
      rcases hcases with hloc | h0 | hfull
      · exact hloc heq
      · rw [Refines.usedslots h.sees] at h0
        exact usedSlots_eq_zero_iff.mp (Int.natCast_inj.mp h0) k hk
      · rw [Refines.usedslots h.sees, usedSlots_localIdc honly] at hfull
        rw [h.usedSlots_evict_all hn, h.sees.localIdcSlots_eq hn] at hfree
        omega
    · exact hin

end

/-- **What a failed `hash_tbl_set` loses.**  In every state that sets and removes lead
to, a set that fails leaves every key as it was exactly under `KeepsOnFailure`. -/
theorem failed_hash_tbl_set_loses_nothing_iff (md5 : Bytes → Bytes)
    (hmd5 : ∀ b, (md5 b).length = md5IntLen) (hashFn : Bytes → Nat) (n : Nat) (hn : 1 ≤ n) (s : Store)
    (hs : Reaches (callStep md5 hashFn) (fun s a => a.1.IsSetOrRemove ∧ Admitted md5 hashFn s a)
      (Store.init n) s) (key val : Bytes) (hkey : key.length < 65536)
    (hb : BucketRoom md5 hashFn s.tbl key) :
    (∀ ret s', hashTblSet md5 hashFn s key val = some (ret, s') → ret ≠ .ok → ret ≠ .errSameValue →
      ∀ x, hashTblGet md5 hashFn s'.tbl x = hashTblGet md5 hashFn s.tbl x) ↔
    KeepsOnFailure md5 hashFn s.tbl key val := by
  obtain ⟨m, h⟩ := holds_of_reaches hmd5 hn (hs.mono (fun _ _ ha => ha.2))
  by_cases hne : key = []
  · refine ⟨fun _ => Or.inl hne, fun _ ret s' hr _ _ x => ?_⟩
    rw [hashTblSet, if_pos hne] at hr
    obtain ⟨-, rfl⟩ := Prod.mk.inj (Option.some.inj hr)
    rfl
  by_cases hsame : hashTblGet md5 hashFn s.tbl key = (.ok, val)
  · refine ⟨fun _ => Or.inr (Or.inl hsame), fun _ ret s' hr _ hno => ?_⟩
    rw [hashTblSet, if_neg hne, if_pos hsame] at hr
    exact absurd (Prod.mk.inj (Option.some.inj hr)).1.symm hno
  obtain ⟨r, hr, hend⟩ := hashTblSet_end h hn hne hkey hb hsame
  have hiff := h.fits_evict_all_iff hn key (frameValue md5 val).length
  cases hend with
  | stored i le fits least holds =>
    have hall := fits_evict_all fits
    rw [List.length_reverse] at hall
    refine ⟨fun _ => Or.inr (Or.inr (Or.inl (hiff.mp hall))), fun _ ret s' hr' hno => ?_⟩
    rw [hr] at hr'
    exact absurd (Prod.mk.inj (Option.some.inj hr')).1.symm hno
  | @failed s' never holds =>
    have hno := never _ (Nat.le_refl _)
    rw [hiff] at hno
    have hread := reads_alike_iff h holds hn (fun k v => lookup_afterFail_evict)
    rw [h.keeps_iff hn] at hread
    rw [KeepsOnFailure, ← hread]
    simp only [hne, hsame, hno, false_or]
    constructor
    · exact fun hall => hall .errTblSet s' hr (by decide) (by decide)
    · intro hall ret s'' hr' _ _
      rw [hr] at hr'
      obtain ⟨-, rfl⟩ := Prod.mk.inj (Option.some.inj hr')
      exact hall

/-- **A value that cannot fit costs every other key.**  The table has two slots; a value
of 150 bytes takes three, and the key that was stored is gone when the set has failed. -/
theorem failed_set_loses_other_key :
    hashTblGet zeroMd5 firstByte (storeAfter 2 [(.set [1] [7], none)]).tbl [1] = (.ok, [7]) ∧
    ((hashTblSet zeroMd5 firstByte (storeAfter 2 [(.set [1] [7], none)]) [2]
      (List.replicate 150 9)).map (fun r => (r.1, hashTblGet zeroMd5 firstByte r.2.tbl [1]))) =
      some (.errTblSet, (.errNotFound, [])) := by
  decide +kernel

/-- A table with the local idc and nothing else. -/
def onlyLocalIdc : Store :=
  (callStep zeroMd5 firstByte (Store.init 3) (.set localIdcKey [120], none)).getD (Store.init 3)

theorem reaches_onlyLocalIdc :
    Reaches (callStep zeroMd5 firstByte)
      (fun s a => a.1.IsSetOrRemove ∧ Admitted zeroMd5 firstByte s a) (Store.init 3) onlyLocalIdc := by
  obtain ⟨s, hs⟩ : ∃ s, callStep zeroMd5 firstByte (Store.init 3) (.set localIdcKey [120], none) = some s :=
    Option.isSome_iff_exists.mp (by decide +kernel)
  rw [onlyLocalIdc, hs, Option.getD_some]
  exact .tail (a := (.set localIdcKey [120], none)) .start ⟨trivial, by decide, by decide +kernel⟩ hs

/-- A set that fails beside the local idc leaves it readable. -/
theorem failed_set_keeps_local_idc :
    ∃ s', hashTblSet zeroMd5 firstByte onlyLocalIdc [2] (List.replicate 150 9) = some (.errTblSet, s') ∧
      hashTblGet zeroMd5 firstByte s'.tbl localIdcKey = (.ok, [120]) := by
  have hret : (hashTblSet zeroMd5 firstByte onlyLocalIdc [2] (List.replicate 150 9)).map Prod.fst =
      some .errTblSet := by decide +kernel
  obtain ⟨⟨ret, s'⟩, hset, rfl⟩ := Option.map_eq_some_iff.mp hret
  have hkept := (failed_hash_tbl_set_loses_nothing_iff zeroMd5 (fun _ => rfl) firstByte 3 (by decide)
    onlyLocalIdc reaches_onlyLocalIdc [2] (List.replicate 150 9) (by decide) (by decide +kernel)).mpr
    (Or.inr (Or.inr (Or.inr ⟨by decide +kernel, Or.inl (by decide)⟩)))
  exact ⟨s', hset, (hkept _ s' hset (by decide) (by decide) localIdcKey).trans (by decide +kernel)⟩

end QConf.Shm
