import QConf.Base.Qhasharr.Move

/-!
# Buckets

The entries whose keys hash to one index form a bucket.  `Buckets t es` says that
the entry that stands at this index leads the bucket and counts its members, and
that all the others are collision slots.  Together with the layout of the slots
this is the representation invariant `Rep` of a table.

`_get_idx` stops as soon as it has seen as many members as the leading slot
counts; because the count is right, it finds an entry exactly when the bucket
holds one that matches the key (`Rep.getIdx_eq`).
-/

namespace QConf.Qhasharr

/-- The index the key of an entry hashes to. -/
def Entry.bucket (hashFn : Bytes → Nat) (n : Nat) (e : Entry) : Nat := hashFn e.key % n

/-- How many entries hash to `b`. -/
def members (hashFn : Bytes → Nat) (n b : Nat) (es : List Entry) : Nat :=
  es.countP (fun e => e.bucket hashFn n == b)

/-- **The bucket structure of a table.** -/
structure Buckets (hashFn : Bytes → Nat) (t : Tbl) (es : List Entry) : Prop where
  home : ∀ e ∈ es, (t.slots e.head).hash = e.bucket hashFn t.maxslots
  count : ∀ e ∈ es, (t.slots e.head).count =
    if e.head = e.bucket hashFn t.maxslots
    then (members hashFn t.maxslots (e.bucket hashFn t.maxslots) es : Int) else -1
  lead : ∀ e ∈ es, ∃ l ∈ es, l.head = e.bucket hashFn t.maxslots ∧
    l.bucket hashFn t.maxslots = e.bucket hashFn t.maxslots

/-- **The representation invariant of a table.** -/
structure Rep (md5 : Bytes → Bytes) (hashFn : Bytes → Nat) (t : Tbl) (es : List Entry) : Prop
    extends Layout md5 t es, Buckets hashFn t es

section

variable {md5 : Bytes → Bytes} {hashFn : Bytes → Nat} {t t' : Tbl} {es es' : List Entry}

theorem members_perm {n b : Nat} (h : es.Perm es') :
    members hashFn n b es = members hashFn n b es' := h.countP_eq _

theorem members_cons {n b : Nat} (e : Entry) (es : List Entry) :
    members hashFn n b (e :: es) =
      members hashFn n b es + if e.bucket hashFn n = b then 1 else 0 := by
  simp [members, List.countP_cons]

theorem members_pos {n b : Nat} {e : Entry} (he : e ∈ es) (hb : e.bucket hashFn n = b) :
    0 < members hashFn n b es :=
  List.countP_pos_iff.mpr ⟨e, he, by simpa using hb⟩

theorem members_eq_zero {n b : Nat} (h : ∀ e ∈ es, e.bucket hashFn n ≠ b) :
    members hashFn n b es = 0 :=
  List.countP_eq_zero.mpr (fun e he => by simpa using h e he)

theorem Buckets.perm (h : Buckets hashFn t es) (hp : es.Perm es') : Buckets hashFn t es' where
  home e he := h.home e (hp.mem_iff.mpr he)
  count e he := by rw [h.count e (hp.mem_iff.mpr he), members_perm hp]
  lead e he := by
    obtain ⟨l, hl, h1, h2⟩ := h.lead e (hp.mem_iff.mpr he)
    exact ⟨l, hp.mem_iff.mp hl, h1, h2⟩

theorem Rep.perm (h : Rep md5 hashFn t es) (hp : es.Perm es') : Rep md5 hashFn t es' :=
  ⟨h.toLayout.perm hp, h.toBuckets.perm hp⟩

/-- Buckets are kept where the first slots are. -/
theorem Buckets.congr (h : Buckets hashFn t es) (hmax : t'.maxslots = t.maxslots)
    (hs : ∀ e ∈ es, t'.slots e.head = t.slots e.head) : Buckets hashFn t' es where
  home e he := by rw [hs e he, hmax]; exact h.home e he
  count e he := by rw [hs e he, hmax]; exact h.count e he
  lead e he := by rw [hmax]; exact h.lead e he

/-- An entry at the index it hashes to counts its bucket; the others do not. -/
theorem Rep.head_eq_bucket_iff (h : Rep md5 hashFn t es) {e : Entry} (he : e ∈ es) :
    e.head = e.bucket hashFn t.maxslots ↔ 0 < (t.slots e.head).count := by
  have hc := h.count e he
  split at hc
  · next hb =>
    refine ⟨fun _ => ?_, fun _ => hb⟩
    have := members_pos he (rfl : e.bucket hashFn t.maxslots = _)
    omega
  · next hb => exact ⟨fun h' => absurd h' hb, fun h' => by omega⟩

/-- The leading slot of a bucket that has members. -/
theorem Rep.count_eq_members (h : Rep md5 hashFn t es) {b : Nat}
    (hb : ∃ e ∈ es, e.bucket hashFn t.maxslots = b) :
    (t.slots b).count = members hashFn t.maxslots b es := by
  obtain ⟨e, he, rfl⟩ := hb
  obtain ⟨l, hl, hh, hlb⟩ := h.lead e he
  have hc := h.count l hl
  rw [if_pos (hh.trans hlb.symm), hlb, hh] at hc
  exact hc

/-- A bucket has members exactly when its index holds a positive counter. -/
theorem Rep.bucket_nonempty_iff (h : Rep md5 hashFn t es) {b : Nat} :
    (∃ e ∈ es, e.bucket hashFn t.maxslots = b) ↔ 0 < (t.slots b).count := by
  constructor
  · intro hb
    rw [h.count_eq_members hb]
    obtain ⟨e, he, heb⟩ := hb
    exact_mod_cast members_pos he heb
  · intro hpos
    obtain ⟨e, he, rfl⟩ := h.exists_head (Or.inl hpos)
    exact ⟨e, he, ((h.head_eq_bucket_iff he).mpr hpos).symm⟩

theorem Rep.inBucket_iff (h : Rep md5 hashFn t es) {i b : Nat} :
    (t.slots i).inBucket b = true ↔ ∃ e ∈ es, e.head = i ∧ e.bucket hashFn t.maxslots = b := by
  constructor
  · intro hi
    simp only [Slot.inBucket, Bool.and_eq_true, beq_iff_eq, Bool.or_eq_true,
      decide_eq_true_eq] at hi
    obtain ⟨e, he, rfl⟩ := h.exists_head hi.2
    exact ⟨e, he, rfl, (h.home e he).symm.trans hi.1⟩
  · rintro ⟨e, he, rfl, rfl⟩
    simp only [Slot.inBucket, Bool.and_eq_true, beq_iff_eq, Bool.or_eq_true, decide_eq_true_eq]
    exact ⟨h.home e he, h.first e he⟩

/-- The first slots are distinct. -/
theorem Layout.heads_nodup (h : Layout md5 t es) : (es.map Entry.head).Nodup := by
  have hsub : (es.map Entry.head).Sublist (used es) := by
    clear h
    induction es with
    | nil => exact List.Sublist.refl _
    | cons e es ih =>
      rw [List.map_cons, used_cons, Entry.slots, List.cons_append]
      exact (ih.trans (List.sublist_append_right _ _)).cons_cons _
  exact h.nodup.sublist hsub

/-- The slots `_get_idx` counts are as many as the bucket has members. -/
theorem Rep.countP_inBucket (h : Rep md5 hashFn t es) {s b : Nat} (hs : s ≤ t.maxslots) :
    (Ring.rotation t.maxslots s).countP (fun i => (t.slots i).inBucket b) =
      members hashFn t.maxslots b es := by
  rw [members, List.countP_eq_length_filter, List.countP_eq_length_filter,
    ← List.length_map Entry.head]
  refine List.Perm.length_eq ((List.perm_ext_iff_of_nodup ?_ ?_).mpr ?_)
  · exact (Ring.rotation_nodup hs).filter _
  · exact h.heads_nodup.sublist (List.filter_sublist.map _)
  · intro i
    simp only [List.mem_filter, Ring.mem_rotation hs, h.inBucket_iff, List.mem_map, beq_iff_eq]
    constructor
    · rintro ⟨_, e, he, hi, hb⟩
      exact ⟨e, ⟨he, hb⟩, hi⟩
    · rintro ⟨e, ⟨he, hb⟩, hi⟩
      exact ⟨hi ▸ h.lt _ (mem_used.mpr ⟨e, he, e.head_mem⟩), e, he, hi, hb⟩

/-! ### Finding a key -/

/-- The slots at which `_get_idx` stops. -/
def keyAt (md5 : Bytes → Bytes) (t : Tbl) (key : Bytes) (hash i : Nat) : Bool :=
  (t.slots i).inBucket hash && keyMatches md5 (t.slots i) key

/-- The loop of `_get_idx` against the list of slots it can meet.  The counter is
the number of members passed; when it reaches the leading slot's count, no member
is left in the rest of the list. -/
theorem getIdxLoop_eq (md5 : Bytes → Bytes) (key : Bytes) {hash : Nat} (hh : hash < t.maxslots)
    (hcount : (t.slots hash).count =
      ((Ring.rotation t.maxslots hash).countP (fun i => (t.slots i).inBucket hash) : Nat)) :
    ∀ (suf pre : List Nat) (i : Nat), Ring.rotation t.maxslots hash = pre ++ i :: suf →
      getIdxLoop md5 t key hash (suf.length + 1) i
          (pre.countP (fun i => (t.slots i).inBucket hash) : Nat) =
        (i :: suf).find? (keyAt md5 t key hash) := by
  intro suf
  induction suf with
  | nil =>
    intro pre i hr
    have hback : t.next i = hash := Ring.rotation_last hh hr
    rw [hr, List.countP_append, List.countP_singleton] at hcount
    rw [getIdxLoop]
    by_cases hb : (t.slots i).inBucket hash = true
    · rw [if_pos hb] at hcount
      rw [if_pos (by omega), if_pos hb]
      by_cases hk : keyMatches md5 (t.slots i) key = true <;> simp [keyAt, hb, hk, hback]
    · rw [if_neg hb] at hcount
      rw [if_neg (by omega)]
      simp [keyAt, hb]
  | cons j suf ih =>
    intro pre i hr
    obtain ⟨hj, hne⟩ : j = t.next i ∧ t.next i ≠ hash := Ring.rotation_next hh hr
    have hrec := ih (pre ++ [i]) j (by rw [hr]; simp)
    rw [List.countP_append, List.countP_singleton] at hrec
    rw [hr, List.countP_append] at hcount
    rw [List.length_cons, getIdxLoop]
    by_cases hlt : 0 < (i :: j :: suf).countP (fun i => (t.slots i).inBucket hash)
    · rw [if_pos (by omega), if_neg hne, ← hj]
      by_cases hb : (t.slots i).inBucket hash = true
      · rw [if_pos hb] at hrec ⊢
        by_cases hk : keyMatches md5 (t.slots i) key = true
        · rw [if_pos hk, List.find?_cons_of_pos (by simp [keyAt, hb, hk])]
        · rw [if_neg hk, List.find?_cons_of_neg (by simp [keyAt, hk])]
          exact_mod_cast hrec
      · rw [if_neg hb] at hrec ⊢
        rw [List.find?_cons_of_neg (by simp [keyAt, hb])]
        rw [if_neg (hj ▸ hne)]
        exact hrec
    · rw [if_neg (by omega)]
      symm
      rw [List.find?_eq_none]
      intro k hk hat
      have hnot := List.countP_eq_zero.mp (Nat.eq_zero_of_not_pos hlt) k hk
      simp [keyAt] at hat
      exact hnot hat.1

/-- **`_get_idx` finds what is there**: it stops at the first slot on its way that
holds a matching key of the bucket, wherever that slot is. -/
theorem Rep.getIdx_eq (h : Rep md5 hashFn t es) {key : Bytes} {hash : Nat}
    (hh : hash < t.maxslots) :
    getIdx md5 t key hash = (Ring.rotation t.maxslots hash).find? (keyAt md5 t key hash) := by
  unfold getIdx
  by_cases hpos : (t.slots hash).count > 0
  · rw [if_pos hpos]
    have hcount := h.count_eq_members (h.bucket_nonempty_iff.mpr hpos)
    rw [← h.countP_inBucket (Nat.le_of_lt hh)] at hcount
    obtain ⟨suf, hr⟩ := Ring.rotation_eq_cons hh
    have hlen := Ring.rotation_length (Nat.le_of_lt hh)
    rw [hr, List.length_cons] at hlen
    have hloop := getIdxLoop_eq md5 key hh hcount suf [] hash (by rw [hr]; rfl)
    rw [hlen] at hloop
    rw [hr]
    exact hloop
  · rw [if_neg hpos]
    symm
    rw [List.find?_eq_none]
    intro i _ hat
    simp only [keyAt, Bool.and_eq_true] at hat
    obtain ⟨e, he, _, hb⟩ := h.inBucket_iff.mp hat.1
    exact hpos (h.bucket_nonempty_iff.mp ⟨e, he, hb⟩)

/-- When a stored key `k` counts as the key looked for. -/
def keyHit (md5 : Bytes → Bytes) (k key : Bytes) : Bool :=
  key.length == k.length % 65536 &&
    if key.length ≤ keysize then k.take key.length == key
    else k.take keysize == key.take keysize && md5 key == md5 k

/-- The comparison of `_get_idx` depends on the stored key only. -/
theorem Slot.HoldsKey.keyMatches_eq {s : Slot} {k : Bytes} (h : s.HoldsKey md5 k) (key : Bytes) :
    keyMatches md5 s key = keyHit md5 k key := by
  unfold keyMatches keyHit
  rw [h.keylen, h.keymd5]
  by_cases hl : key.length = k.length % 65536
  · have hle : key.length ≤ k.length := hl ▸ Nat.mod_le _ _
    have htake : ∀ m, m ≤ key.length → m ≤ keysize → s.key.take m = k.take m := by
      intro m hm hk
      have := congrArg (List.take m) h.bytes
      rwa [List.take_take, List.take_take, Nat.min_eq_left (by omega), Nat.min_eq_left hk] at this
    by_cases hs : key.length ≤ keysize
    · rw [if_pos hs, if_pos hs, htake _ (Nat.le_refl _) hs]
    · rw [if_neg hs, if_neg hs, htake _ (by omega) (Nat.le_refl _)]
  · rw [beq_eq_false_iff_ne.mpr hl, Bool.false_and, Bool.false_and]

theorem keyHit_self {k : Bytes} (hk : k.length < 65536) : keyHit md5 k k = true := by
  simp [keyHit, Nat.mod_eq_of_lt hk]

/-- A stored key `_get_idx` can stop at. -/
def hits (md5 : Bytes → Bytes) (hashFn : Bytes → Nat) (n : Nat) (key k : Bytes) : Bool :=
  hashFn k % n == hashFn key % n && keyHit md5 k key

theorem Rep.keyAt_head (h : Rep md5 hashFn t es) {e : Entry} (he : e ∈ es) (key : Bytes) :
    keyAt md5 t key (hashFn key % t.maxslots) e.head = hits md5 hashFn t.maxslots key e.key := by
  have hin : (t.slots e.head).inBucket (hashFn key % t.maxslots) =
      (e.bucket hashFn t.maxslots == hashFn key % t.maxslots) := by
    rw [Bool.eq_iff_iff, h.inBucket_iff, beq_iff_eq]
    constructor
    · rintro ⟨f, hf, hfe, hb⟩
      rw [← h.eq_of_mem hf he f.head_mem (hfe ▸ e.head_mem)]
      exact hb
    · exact fun hb => ⟨e, he, rfl, hb⟩
  rw [keyAt, hits, hin, (h.entry e he).key.keyMatches_eq]
  rfl

theorem Rep.getIdx_some (h : Rep md5 hashFn t es) {key : Bytes} {i : Nat} (hn : 0 < t.maxslots)
    (hi : getIdx md5 t key (hashFn key % t.maxslots) = some i) :
    ∃ e ∈ es, e.head = i ∧ hits md5 hashFn t.maxslots key e.key = true := by
  rw [h.getIdx_eq (Nat.mod_lt _ hn)] at hi
  have hat := List.find?_some hi
  have hin : (t.slots i).inBucket (hashFn key % t.maxslots) = true := by
    simp only [keyAt, Bool.and_eq_true] at hat
    exact hat.1
  obtain ⟨e, he, rfl, _⟩ := h.inBucket_iff.mp hin
  exact ⟨e, he, rfl, h.keyAt_head he key ▸ hat⟩

theorem Rep.getIdx_none (h : Rep md5 hashFn t es) {key : Bytes} (hn : 0 < t.maxslots)
    (hi : getIdx md5 t key (hashFn key % t.maxslots) = none) :
    ∀ e ∈ es, hits md5 hashFn t.maxslots key e.key = false := by
  intro e he
  rw [h.getIdx_eq (Nat.mod_lt _ hn), List.find?_eq_none] at hi
  have hlt := h.lt e.head (mem_used.mpr ⟨e, he, e.head_mem⟩)
  have hnot := hi e.head ((Ring.mem_rotation (Nat.le_of_lt (Nat.mod_lt _ hn))).mpr hlt)
  rw [h.keyAt_head he key] at hnot
  exact Bool.eq_false_iff.mpr hnot

/-! ### Finding a key to promote -/

theorem findDupLoop_eq {hash idx : Nat} (hidx : idx < t.maxslots) :
    ∀ (suf pre : List Nat) (i : Nat), Ring.rotation t.maxslots idx = pre ++ i :: suf →
      findDupLoop t hash idx (suf.length + 1) (t.next i) =
        suf.find? (fun j => decide ((t.slots j).count = -1 ∧ (t.slots j).hash = hash)) := by
  intro suf
  induction suf with
  | nil =>
    intro pre i hr
    have hback : t.next i = idx := Ring.rotation_last hidx hr
    rw [findDupLoop, if_pos hback]
    rfl
  | cons j suf ih =>
    intro pre i hr
    obtain ⟨hj, hne⟩ : j = t.next i ∧ t.next i ≠ idx := Ring.rotation_next hidx hr
    have hrec := ih (pre ++ [i]) j (by rw [hr]; simp)
    rw [findDupLoop, if_neg hne, ← hj, List.length_cons, hrec]
    by_cases hc : (t.slots j).count = -1 ∧ (t.slots j).hash = hash
    · rw [if_pos hc, List.find?_cons_of_pos (by simpa using hc)]
    · rw [if_neg hc, List.find?_cons_of_neg (by simpa using hc)]

/-- The search of `qhasharr_remove` meets every other slot. -/
theorem findDup_eq (hash : Nat) {idx : Nat} (hidx : idx < t.maxslots) :
    ∃ suf, Ring.rotation t.maxslots idx = idx :: suf ∧ findDup t hash idx =
      suf.find? (fun j => decide ((t.slots j).count = -1 ∧ (t.slots j).hash = hash)) := by
  obtain ⟨suf, hr⟩ := Ring.rotation_eq_cons hidx
  have hlen := Ring.rotation_length (Nat.le_of_lt hidx)
  rw [hr, List.length_cons] at hlen
  refine ⟨suf, hr, ?_⟩
  rw [findDup, ← hlen]
  exact findDupLoop_eq hidx suf [] idx (by rw [hr]; rfl)

end

end QConf.Qhasharr
