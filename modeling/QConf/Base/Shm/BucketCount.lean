import QConf.Base.Shm.Crowded

/-!
# What the counter of a bucket can count

`create_hash_tbl` makes tables of hundreds of thousands of slots, and nothing limits how many
of their keys hash to one bucket.  The leading slot of the bucket counts them in a `short`.

A put is *counted* if its bucket holds fewer than 32767 other keys, or if the value finds no
room, so that nothing is stored.  In a run of counted puts and of removes every counter is the
number of keys of its bucket and every stored key is found.  The first put that is not counted
ends that (`bucket_count_exact_iff`): the counter becomes −32768, and no key of the bucket is
found any more (`crowded_bucket_unreachable`).
-/

namespace QConf.Qhasharr

open Shm Transition

/-! ### The table beside the map of its keys -/

/-- One call, with the map that follows it. -/
def mapStep (md5 : Bytes → Bytes) (hashFn : Bytes → Nat) (s : Tbl × BytesMap) (op : Op) :
    Option (Tbl × BytesMap) :=
  some ((op.exec md5 hashFn s.1).2, op.onMap md5 hashFn s.2 (op.exec md5 hashFn s.1))

/-- The stored keys of a bucket. -/
def bucketOf (hashFn : Bytes → Nat) (n : Nat) (m : BytesMap) (b : Nat) : Finset Bytes :=
  m.keys.filter (fun k => hashFn k % n = b)

/-- The leading slot of every bucket counts its keys.  A slot is a leading slot if its counter
is positive, or if it is the slot at the index of a bucket that has keys. -/
def CountsKeys (hashFn : Bytes → Nat) (t : Tbl) (m : BytesMap) : Prop :=
  ∀ b, 0 < (t.slots b).count ∨ (bucketOf hashFn t.maxslots m b).Nonempty →
    (t.slots b).count = ((bucketOf hashFn t.maxslots m b).card : Int)

/-- Every stored key is found, with its value. -/
def FindsKeys (md5 : Bytes → Bytes) (hashFn : Bytes → Nat) (t : Tbl) (m : BytesMap) : Prop :=
  ∀ k ∈ m, qhasharrGet md5 hashFn t k = m.lookup k

/-- The calls of a run: keys of `K` and values that are not empty, and puts that leave at most
32767 keys in their bucket or that find no room. -/
def Counted (hashFn : Bytes → Nat) (n : Nat) (K : Set Bytes) (s : Tbl × BytesMap) : Op → Prop
  | .put key value => key ∈ K ∧ value ≠ [] ∧
      ((bucketMates hashFn n s.2 key).card < 32767 ∨ ¬ Fits n s.2 key value.length)
  | .remove key => key ∈ K
  | .clear => True

section

variable {md5 : Bytes → Bytes} {hashFn : Bytes → Nat} {n : Nat} {K : Set Bytes} {t : Tbl}
  {m : BytesMap} {key value : Bytes} {b : Nat}

/-! ### The keys of a bucket -/

theorem mem_bucketOf {k : Bytes} : k ∈ bucketOf hashFn n m b ↔ k ∈ m ∧ hashFn k % n = b := by
  rw [bucketOf, Finset.mem_filter, Finmap.mem_keys]

theorem mem_bucketMates {k : Bytes} :
    k ∈ bucketMates hashFn n m key ↔ (k ≠ key ∧ k ∈ m) ∧ hashFn k % n = hashFn key % n := by
  rw [bucketMates, Finset.mem_filter, Finmap.mem_keys, Finmap.mem_erase]

theorem bucketOf_empty_card_le (b : Nat) : (bucketOf hashFn n ∅ b).card ≤ 32767 := by
  rw [bucketOf, Finmap.keys_empty, Finset.filter_empty, Finset.card_empty]
  exact Nat.zero_le _

theorem bucketOf_erase_card_le (m : BytesMap) (key : Bytes) (b : Nat) :
    (bucketOf hashFn n (m.erase key) b).card ≤ (bucketOf hashFn n m b).card := by
  refine Finset.card_le_card (fun k hk => ?_)
  rw [mem_bucketOf, Finmap.mem_erase] at hk
  exact mem_bucketOf.mpr ⟨hk.1.2, hk.2⟩

/-- A put adds its key to the bucket it hashes to, and to no other. -/
theorem bucketOf_insert_card_le (m : BytesMap) (key value : Bytes) (b : Nat) :
    (bucketOf hashFn n (m.insert key value) b).card ≤
      max (bucketOf hashFn n m b).card ((bucketMates hashFn n m key).card + 1) := by
  by_cases hb : hashFn key % n = b
  · refine le_max_of_le_right (le_trans (Finset.card_le_card fun k hk => ?_) (Finset.card_insert_le key _))
    rw [mem_bucketOf, Finmap.mem_insert] at hk
    by_cases hkey : k = key
    · exact Finset.mem_insert.mpr (Or.inl hkey)
    · exact Finset.mem_insert_of_mem
        (mem_bucketMates.mpr ⟨⟨hkey, hk.1.resolve_left hkey⟩, hk.2.trans hb.symm⟩)
  · refine le_max_of_le_left (Finset.card_le_card fun k hk => ?_)
    rw [mem_bucketOf, Finmap.mem_insert] at hk
    refine mem_bucketOf.mpr ⟨hk.1.resolve_left ?_, hk.2⟩
    rintro rfl
    exact hb hk.2

theorem bucketMates_subset (m : BytesMap) (key : Bytes) :
    bucketMates hashFn n m key ⊆ bucketOf hashFn n m (hashFn key % n) := by
  intro k hk
  rw [mem_bucketMates] at hk
  exact mem_bucketOf.mpr ⟨hk.1.2, hk.2⟩

/-- A key with as many others in its bucket as the bucket may hold is not stored. -/
theorem notMem_of_mates (hbound : (bucketOf hashFn n m (hashFn key % n)).card ≤ 32767)
    (hmates : ¬ (bucketMates hashFn n m key).card < 32767) :
    key ∉ m ∧ (bucketOf hashFn n m (hashFn key % n)).card = 32767 := by
  have hsub : bucketMates hashFn n m key ⊆ bucketOf hashFn n m (hashFn key % n) := bucketMates_subset m key
  have hle := Finset.card_le_card hsub
  refine ⟨fun hkey => ?_, by omega⟩
  have heq := Finset.eq_of_subset_of_card_le hsub (by omega)
  have hin : key ∈ bucketMates hashFn n m key := heq ▸ mem_bucketOf.mpr ⟨hkey, rfl⟩
  exact (mem_bucketMates.mp hin).1.1 rfl

/-- The entries of a bucket, counted in the map. -/
theorem members_eq_card {es : List Entry} (hnd : ((contents es).map Prod.fst).Nodup)
    (hmem : ∀ k v, (k, v) ∈ contents es ↔ m.lookup k = some v) (b : Nat) :
    members hashFn n b es = (bucketOf hashFn n m b).card := by
  have hcount : members hashFn n b es =
      ((contents es).map Prod.fst).countP (fun k => hashFn k % n == b) := by
    rw [members, contents, List.map_map, List.countP_map]
    rfl
  rw [hcount, List.countP_eq_length_filter, ← List.toFinset_card_of_nodup (hnd.filter _)]
  refine congrArg Finset.card (Finset.ext fun k => ?_)
  simp only [List.mem_toFinset, List.mem_filter, List.mem_map, Prod.exists, exists_and_right, exists_eq_right,
    hmem, beq_iff_eq, mem_bucketOf, Finmap.mem_iff]

/-- **A table that holds a map counts its keys.** -/
theorem Refines.countsKeys (h : Refines md5 hashFn n K t m) : CountsKeys hashFn t m := by
  obtain ⟨es, hrep, hnd, hmem⟩ := h.entries
  have hcard : ∀ b, members hashFn t.maxslots b es = (bucketOf hashFn t.maxslots m b).card :=
    members_eq_card hnd hmem
  rintro b (hpos | ⟨k, hk⟩)
  · rw [hrep.count_eq_members (hrep.bucket_nonempty_iff.mpr hpos), hcard]
  · obtain ⟨hkm, hkb⟩ := mem_bucketOf.mp hk
    obtain ⟨v, hv⟩ := Finmap.mem_iff.mp hkm
    obtain ⟨e, he, rfl, -⟩ := mem_contents.mp ((hmem k v).mpr hv)
    rw [hrep.count_eq_members ⟨e, he, hkb⟩, hcard]

theorem Refines.findsKeys (h : Refines md5 hashFn n K t m) (hn : 0 < n) (hK : Separated md5 hashFn n K) :
    FindsKeys md5 hashFn t m := fun k hk => (h.answers hn hK (h.keys k hk)).1

/-! ### A put into a full bucket -/

/-- What is known of a bucket of 32767 keys when a further key comes. -/
theorem Refines.full_bucket (h : Refines md5 hashFn n K t m) (hK : Separated md5 hashFn n K) (hkey : key ∈ K)
    (hnot : key ∉ m) (hcard : (bucketOf hashFn n m (hashFn key % n)).card = 32767) :
    ∃ es, Rep md5 hashFn t es ∧ ((contents es).map Prod.fst).Nodup ∧
      (∀ k v, (k, v) ∈ contents es ↔ m.lookup k = some v) ∧
      (∀ e ∈ es, hits md5 hashFn t.maxslots key e.key = false) ∧ (used es).length = usedSlots m ∧
      members hashFn t.maxslots (hashFn key % t.maxslots) es = 32767 := by
  obtain ⟨es, hrep, hnd, hmem⟩ := h.entries
  obtain rfl := h.maxslots
  refine ⟨es, hrep, hnd, hmem, fun e he => ?_, ?_, ?_⟩
  · rw [← Bool.not_eq_true, hK hkey (entry_key_mem hmem h.keys e he)]
    rintro rfl
    exact hnot (Finmap.mem_iff.mpr ⟨e.value, (hmem _ _).mp (mem_contents.mpr ⟨e, he, rfl, rfl⟩)⟩)
  · rw [hrep.used_length, slotsOf_eq_usedSlots hnd hmem]
  · rw [members_eq_card hnd hmem, hcard]

/-- A key that is not stored finds room if its value does beside all others. -/
theorem fits_of_notMem (hnot : key ∉ m) {len : Nat} : Fits n m key len ↔ usedSlots m + slotsFor len ≤ n := by
  have hpos := slotsFor_pos len
  rw [Fits, erase_of_notMem hnot]
  omega

/-- Without room a full bucket stays as it is. -/
theorem Refines.put_no_room (h : Refines md5 hashFn n K t m) (hn : 0 < n) (hK : Separated md5 hashFn n K)
    (hkey : key ∈ K) (hv : value ≠ []) (hnot : key ∉ m)
    (hcard : (bucketOf hashFn n m (hashFn key % n)).card = 32767) (hfits : ¬ Fits n m key value.length) :
    ∃ er t', qhasharrPut md5 hashFn t key value = (.error er, t') ∧ Refines md5 hashFn n K t' m := by
  obtain ⟨es, hrep, hnd, hmem, hno, hused, hfull⟩ := h.full_bucket hK hkey hnot hcard
  have hmax := h.maxslots
  rw [fits_of_notMem hnot] at hfits
  have hpos : 0 < (t.slots (hashFn key % t.maxslots)).count := by
    refine hrep.bucket_nonempty_iff.mp ?_
    have hlt : 0 < members hashFn t.maxslots (hashFn key % t.maxslots) es := by omega
    obtain ⟨e, he, heb⟩ := List.countP_pos_iff.mp hlt
    exact ⟨e, he, beq_iff_eq.mp heb⟩
  obtain ⟨er, t', hput, hmax', hrep'⟩ := hrep.put_no_room (by omega) hv hno hpos (by omega)
  exact ⟨er, t', hput, hmax'.trans hmax, h.keys, es, hrep', hnd, hmem⟩

/-- With room the counter of the bucket wraps. -/
theorem Refines.put_wraps (h : Refines md5 hashFn n K t m) (hn : 0 < n) (hK : Separated md5 hashFn n K)
    (hkey : key ∈ K) (hv : value ≠ []) (hnot : key ∉ m)
    (hcard : (bucketOf hashFn n m (hashFn key % n)).card = 32767) (hfits : Fits n m key value.length) :
    ∃ t', qhasharrPut md5 hashFn t key value = (.ok (), t') ∧ t'.maxslots = n ∧
      (t'.slots (hashFn key % n)).count = -32768 := by
  obtain ⟨es, hrep, -, -, hno, hused, hfull⟩ := h.full_bucket hK hkey hnot hcard
  have hmax := h.maxslots
  rw [fits_of_notMem hnot] at hfits
  obtain ⟨t', hput, hmax', -, hslot, -⟩ := hrep.put_wraps (by omega) hv hno (by omega) hfull
  rw [hmax] at hslot
  exact ⟨t', hput, hmax'.trans hmax, by rw [hslot]⟩

/-! ### Runs -/

/-- The invariant of a run: the table holds the map, and no bucket has more keys than its counter
can count. -/
structure Counting (md5 : Bytes → Bytes) (hashFn : Bytes → Nat) (n : Nat) (K : Set Bytes)
    (s : Tbl × BytesMap) : Prop where
  refines : Refines md5 hashFn n K s.1 s.2
  bound : ∀ b, (bucketOf hashFn n s.2 b).card ≤ 32767

theorem Counting.init (n : Nat) : Counting md5 hashFn n K (qhasharr n, ∅) :=
  ⟨Refines.empty rfl (rep_qhasharr n), bucketOf_empty_card_le⟩

/-- **A put that is counted keeps the invariant.** -/
theorem Counting.put {s : Tbl × BytesMap} (h : Counting md5 hashFn n K s) (hn : 0 < n)
    (hK : Separated md5 hashFn n K) (ha : Counted hashFn n K s (.put key value)) {s' : Tbl × BytesMap}
    (hstep : mapStep md5 hashFn s (.put key value) = some s') : Counting md5 hashFn n K s' := by
  obtain ⟨t, m⟩ := s
  obtain ⟨hkey, hv, hcond⟩ := ha
  obtain rfl := Option.some.inj hstep
  by_cases hmates : (bucketMates hashFn n m key).card < 32767
  · have hallowed : Op.Allowed hashFn n K m (.put key value) := ⟨hkey, hv, hmates⟩
    refine ⟨h.refines.step hn hK hallowed, fun b => ?_⟩
    have hb := h.bound b
    have hins : (bucketOf hashFn n (m.insert key value) b).card ≤
        max (bucketOf hashFn n m b).card ((bucketMates hashFn n m key).card + 1) :=
      bucketOf_insert_card_le m key value b
    have hera : (bucketOf hashFn n (m.erase key) b).card ≤ (bucketOf hashFn n m b).card :=
      bucketOf_erase_card_le m key b
    dsimp only [Op.exec] at hb ⊢
    obtain ⟨rep, t'⟩ := qhasharrPut md5 hashFn t key value
    cases rep with
    | ok u =>
      dsimp only [Op.onMap]
      omega
    | error er =>
      dsimp only [Op.onMap]
      split <;> omega
  · -- the bucket is full, and the value finds no room
    obtain ⟨hnot, hcard⟩ := notMem_of_mates (h.bound _) hmates
    obtain ⟨er, t', hput, href⟩ :=
      h.refines.put_no_room hn hK hkey hv hnot hcard (hcond.resolve_left hmates)
    have hexist : ¬ qhasharrExist md5 hashFn t' key = true := fun he =>
      hnot ((href.answers hn hK hkey).2.1.mp he)
    have honmap : Op.onMap md5 hashFn m (.put key value) (.error er, t') = m := by
      rw [Op.onMap, if_neg hexist, erase_of_notMem hnot]
    dsimp only [Op.exec]
    rw [hput, honmap]
    exact ⟨href, h.bound⟩

theorem Counting.step {s s' : Tbl × BytesMap} {op : Op} (h : Counting md5 hashFn n K s) (hn : 0 < n)
    (hK : Separated md5 hashFn n K) (ha : Counted hashFn n K s op) (hstep : mapStep md5 hashFn s op = some s') :
    Counting md5 hashFn n K s' := by
  cases op with
  | put key value => exact h.put hn hK ha hstep
  | remove key =>
    obtain rfl := Option.some.inj hstep
    have hallowed : Op.Allowed hashFn n K s.2 (.remove key) := ha
    refine ⟨h.refines.step hn hK hallowed, fun b => ?_⟩
    dsimp only [Op.exec]
    obtain ⟨rep, t'⟩ := qhasharrRemove md5 hashFn s.1 key
    cases rep with
    | ok u => exact le_trans (bucketOf_erase_card_le s.2 key b) (h.bound b)
    | error er => exact h.bound b
  | clear =>
    obtain rfl := Option.some.inj hstep
    have hallowed : Op.Allowed hashFn n K s.2 .clear := trivial
    exact ⟨h.refines.step hn hK hallowed, bucketOf_empty_card_le⟩

/-- A put that is not counted leaves a negative counter. -/
theorem Counting.not_counts {s s' : Tbl × BytesMap} (h : Counting md5 hashFn n K s) (hn : 0 < n)
    (hK : Separated md5 hashFn n K) (hkey : key ∈ K) (hv : value ≠ [])
    (hstep : mapStep md5 hashFn s (.put key value) = some s')
    (hnot : ¬ ((bucketMates hashFn n s.2 key).card < 32767 ∨ ¬ Fits n s.2 key value.length)) :
    ¬ CountsKeys hashFn s'.1 s'.2 := by
  obtain ⟨t, m⟩ := s
  obtain rfl := Option.some.inj hstep
  obtain ⟨hmates, hfits⟩ := not_or.mp hnot
  obtain ⟨hnotin, hcard⟩ := notMem_of_mates (h.bound _) hmates
  obtain ⟨t', hput, hmax, hneg⟩ :=
    h.refines.put_wraps hn hK hkey hv hnotin hcard (not_not.mp hfits)
  intro hcounts
  dsimp only [Op.exec] at hcounts
  rw [hput] at hcounts
  have hcount := hcounts (hashFn key % n) (Or.inr ⟨key, mem_bucketOf.mpr
    ⟨Finmap.mem_insert.mpr (Or.inl rfl), by rw [hmax]⟩⟩)
  dsimp only at hcount
  omega

end

/-- **When the collision counter is exact.**  In every run of counted calls, each counter is the
number of stored keys of its bucket and all stored keys are found.  From every state of such a
run, a further put keeps that exactly when it is counted: when it finds fewer than 32767 other
keys in its bucket, or no room. -/
theorem bucket_count_exact_iff (md5 : Bytes → Bytes) (hashFn : Bytes → Nat) (n : Nat) (hn : 1 ≤ n)
    (K : Set Bytes) (hK : KeySet md5 K) (t : Tbl) (m : BytesMap)
    (h : Reaches (mapStep md5 hashFn) (Counted hashFn n K) (qhasharr n, ∅) (t, m)) :
    (CountsKeys hashFn t m ∧ FindsKeys md5 hashFn t m) ∧
    ∀ key ∈ K, ∀ value, value ≠ [] → ∀ t' m', mapStep md5 hashFn (t, m) (.put key value) = some (t', m') →
      (CountsKeys hashFn t' m' ∧ FindsKeys md5 hashFn t' m' ↔
        (bucketMates hashFn n m key).card < 32767 ∨ ¬ Fits n m key value.length) := by
  have hsep : Separated md5 hashFn n K := hK.separated hashFn n
  have hinv : Counting md5 hashFn n K (t, m) :=
    h.invariant (Counting md5 hashFn n K) (Counting.init n) (fun hs ha hstep => hs.step hn hsep ha hstep)
  refine ⟨⟨hinv.refines.countsKeys, hinv.refines.findsKeys hn hsep⟩, fun key hkey value hv t' m' hstep => ?_⟩
  constructor
  · rintro ⟨hcounts, -⟩
    by_contra hnot
    exact hinv.not_counts hn hsep hkey hv hstep hnot hcounts
  · intro hcond
    have hnext := hinv.put hn hsep ⟨hkey, hv, hcond⟩ hstep
    exact ⟨hnext.refines.countsKeys, hnext.refines.findsKeys hn hsep⟩

/-- Two keys of one bucket are counted, and a third may come. -/
theorem bucket_counts_two : ∃ t m, m.keys.card = 2 ∧
    Reaches (mapStep (fun k => k) (fun k => (k.headD 0).toNat))
      (Counted (fun k => (k.headD 0).toNat) 4 {k | k.length ≤ keysize}) (qhasharr 4, ∅) (t, m) ∧
    CountsKeys (fun k => (k.headD 0).toNat) t m ∧
    ∀ t' m', mapStep (fun k => k) (fun k => (k.headD 0).toNat) (t, m) (.put [9] [3]) = some (t', m') →
      CountsKeys (fun k => (k.headD 0).toNat) t' m' := by
  have hrun : Reaches (mapStep (fun k => k) (fun k => (k.headD 0).toNat))
      (Counted (fun k => (k.headD 0).toNat) 4 {k | k.length ≤ keysize}) (qhasharr 4, ∅)
      (runOps (fun k => k) (fun k => (k.headD 0).toNat) (qhasharr 4, ∅) [.put [1] [7], .put [5] [8]]) := by
    refine .tail (a := .put [5] [8]) (.tail (a := .put [1] [7]) .start ?_ rfl) ?_ rfl
    · exact ⟨by decide, by decide, Or.inl (by decide)⟩
    · exact ⟨by decide, by decide, Or.inl (by decide)⟩
  obtain ⟨⟨hcounts, -⟩, hnext⟩ := bucket_count_exact_iff (fun k => k) (fun k => (k.headD 0).toNat) 4
    (by decide) {k | k.length ≤ keysize} (keySet_shortKeys _) _ _ hrun
  exact ⟨_, _, by decide, hrun, hcounts, fun t' m' hstep =>
    ((hnext [9] (by decide) [3] (by decide) t' m' hstep).mpr (Or.inl (by decide))).1⟩

/-- Puts of keys of four bytes. -/
def PutsFour (_ : Tbl × BytesMap) (op : Op) : Prop :=
  ∃ key value, op = .put key value ∧ key.length = 4 ∧ value ≠ []

theorem reaches_crowd_succ {t t' : Tbl} {i : Nat}
    (h : Reaches (mapStep zeroMd5 oneBucket) PutsFour (qhasharr 40000, ∅) (t, crowd i))
    (hput : qhasharrPut zeroMd5 oneBucket t (crowdKey i) (frameValue zeroMd5 (crowdVal i [])) = (.ok (), t')) :
    Reaches (mapStep zeroMd5 oneBucket) PutsFour (qhasharr 40000, ∅) (t', crowd (i + 1)) := by
  refine h.tail (a := .put (crowdKey i) (frameValue zeroMd5 (crowdVal i [])))
    ⟨_, _, rfl, length_crowdKey i, frameValue_ne_nil _ _⟩ ?_
  rw [mapStep, Op.exec, hput]
  rfl

/-- The first keys of the crowd, put one after the other. -/
theorem crowd_run {i : Nat} (hi : i ≤ 32767) : ∃ t,
    Reaches (mapStep zeroMd5 oneBucket) PutsFour (qhasharr 40000, ∅) (t, crowd i) ∧
      Sees zeroMd5 oneBucket 40000 t (crowd i) := by
  induction i with
  | zero => exact ⟨_, .start, (holds_init 40000).sees⟩
  | succ i ih =>
    obtain ⟨t, ht, hsees⟩ := ih (by omega)
    obtain ⟨t', hput, hsees'⟩ := crowd_put (by omega) hsees
    exact ⟨t', reaches_crowd_succ ht hput, hsees'⟩

/-- **A crowded bucket is lost.**  In a table of 40000 slots 32768 puts of different keys of four
bytes that hash to one bucket all succeed; then the counter is −32768 and none of the keys is found. -/
theorem crowded_bucket_unreachable : ∃ t m,
    Reaches (mapStep zeroMd5 oneBucket) PutsFour (qhasharr 40000, ∅) (t, m) ∧
    (bucketOf oneBucket 40000 m 0).card = 32768 ∧ (t.slots 0).count = -32768 ∧
    ∀ key ∈ m, qhasharrGet zeroMd5 oneBucket t key = none := by
  obtain ⟨t, ht, hsees⟩ := crowd_run (Nat.le_refl 32767)
  obtain ⟨es, hcrowd⟩ := crowd_of_sees hsees
  obtain ⟨t', hput, hmax, -, hslot, -⟩ := hcrowd.put_wraps
  have hcount : (t'.slots 0).count = -32768 := by rw [hslot]
  have hbucket : bucketOf oneBucket 40000 (crowd 32768) 0 = (crowd 32768).keys :=
    Finset.filter_true_of_mem (fun _ _ => Nat.zero_mod _)
  refine ⟨t', crowd 32768, reaches_crowd_succ ht hput, ?_, hcount, fun key _ => ?_⟩
  · rw [hbucket, card_crowd (by decide)]
  · rw [qhasharrGet, if_neg (by omega), show oneBucket key % t'.maxslots = 0 from Nat.zero_mod _,
      getIdx_of_neg (by omega)]

end QConf.Qhasharr
