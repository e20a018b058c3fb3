import QConf.Base.Qhasharr.Ops

/-!
# The table is a finite map

A run of puts, removes and clears is followed by a finite map: a put that
succeeds binds its key, a put that fails leaves the key as it was or unbound, a
remove unbinds and a clear unbinds everything.  Whatever the sizes, the hash
function and the displacements, the table answers every question about a key as
this map does.

The keys of a run come from a set `K` on which the comparison of `_get_idx`,
which reads the first bytes and the MD5 of a long key, is the equality.
-/

namespace QConf.Qhasharr

/-- A call that changes the table. -/
inductive Op
  | put (key value : Bytes)
  | remove (key : Bytes)
  | clear

def Op.exec (md5 : Bytes → Bytes) (hashFn : Bytes → Nat) (t : Tbl) : Op → Reply × Tbl
  | .put key value => qhasharrPut md5 hashFn t key value
  | .remove key => qhasharrRemove md5 hashFn t key
  | .clear => (.ok (), qhasharrClear t)

/-- What a call does to the map.  Whether a put that failed lost the old value of
its key is read off the table. -/
def Op.onMap (md5 : Bytes → Bytes) (hashFn : Bytes → Nat) (m : BytesMap) : Op → Reply × Tbl → BytesMap
  | .put key value, (.ok _, _) => m.insert key value
  | .put key _, (.error _, t) => if qhasharrExist md5 hashFn t key then m else m.erase key
  | .remove key, (.ok _, _) => m.erase key
  | .remove _, (.error _, _) => m
  | .clear, _ => ∅

/-- A run from an initialised table, with the map that follows it. -/
def runOps (md5 : Bytes → Bytes) (hashFn : Bytes → Nat) : Tbl × BytesMap → List Op → Tbl × BytesMap
  | s, [] => s
  | (t, m), op :: ops =>
    runOps md5 hashFn ((op.exec md5 hashFn t).2, op.onMap md5 hashFn m (op.exec md5 hashFn t)) ops

/-- The keys of the map, other than `key`, that hash where `key` does. -/
def bucketMates (hashFn : Bytes → Nat) (n : Nat) (m : BytesMap) (key : Bytes) : Finset Bytes :=
  (m.erase key).keys.filter (fun k => hashFn k % n = hashFn key % n)

/-- What the callers guarantee of a call: keys of `K`, a value that is not empty,
and at most 32767 keys of one bucket, the new one included. -/
def Op.Allowed (hashFn : Bytes → Nat) (n : Nat) (K : Set Bytes) (m : BytesMap) : Op → Prop
  | .put key value => key ∈ K ∧ value ≠ [] ∧ (bucketMates hashFn n m key).card < 32767
  | .remove key => key ∈ K
  | .clear => True

instance (hashFn : Bytes → Nat) (n : Nat) (K : Set Bytes) [DecidablePred (· ∈ K)] (m : BytesMap)
    (op : Op) : Decidable (op.Allowed hashFn n K m) :=
  match op with
  | .put key value => inferInstanceAs
      (Decidable (key ∈ K ∧ value ≠ [] ∧ (bucketMates hashFn n m key).card < 32767))
  | .remove key => inferInstanceAs (Decidable (key ∈ K))
  | .clear => inferInstanceAs (Decidable True)

/-- Every call of a run is allowed when it is made. -/
def AllAllowed (md5 : Bytes → Bytes) (hashFn : Bytes → Nat) (n : Nat) (K : Set Bytes) :
    Tbl × BytesMap → List Op → Prop
  | _, [] => True
  | (t, m), op :: ops => op.Allowed hashFn n K m ∧
    AllAllowed md5 hashFn n K
      ((op.exec md5 hashFn t).2, op.onMap md5 hashFn m (op.exec md5 hashFn t)) ops

instance AllAllowed.decidable (md5 : Bytes → Bytes) (hashFn : Bytes → Nat) (n : Nat)
    (K : Set Bytes) [DecidablePred (· ∈ K)] : ∀ (s : Tbl × BytesMap) (ops : List Op),
    Decidable (AllAllowed md5 hashFn n K s ops)
  | _, [] => inferInstanceAs (Decidable True)
  | (t, m), op :: ops =>
    have := AllAllowed.decidable md5 hashFn n K
      ((op.exec md5 hashFn t).2, op.onMap md5 hashFn m (op.exec md5 hashFn t)) ops
    inferInstanceAs (Decidable (op.Allowed hashFn n K m ∧ _))

/-- Keys of at most 65535 bytes among which no two long ones of the same length
and the same first 32 bytes have the same MD5. -/
structure KeySet (md5 : Bytes → Bytes) (K : Set Bytes) : Prop where
  short : ∀ k ∈ K, k.length < 65536
  inj : ∀ k ∈ K, ∀ k' ∈ K, keysize < k.length → k.length = k'.length →
    k.take keysize = k'.take keysize → md5 k = md5 k' → k = k'

/-- The keys that a slot stores whole. -/
def shortKeys : Set Bytes := {k | k.length ≤ keysize}

theorem keySet_shortKeys (md5 : Bytes → Bytes) : KeySet md5 shortKeys where
  short k hk := Nat.lt_of_le_of_lt hk (by decide)
  inj k hk k' hk' hlong := absurd hk (Nat.not_le.mpr hlong)

/-- In a table of `n` slots the comparison of `_get_idx` is the equality on `K`. -/
def Separated (md5 : Bytes → Bytes) (hashFn : Bytes → Nat) (n : Nat) (K : Set Bytes) : Prop :=
  ∀ {key k : Bytes}, key ∈ K → k ∈ K → (hits md5 hashFn n key k = true ↔ k = key)

/-- The table `t` of `n` slots holds the map `m`. -/
structure Refines (md5 : Bytes → Bytes) (hashFn : Bytes → Nat) (n : Nat) (K : Set Bytes) (t : Tbl)
    (m : BytesMap) : Prop where
  maxslots : t.maxslots = n
  keys : ∀ k ∈ m, k ∈ K
  entries : ∃ es, Rep md5 hashFn t es ∧ ((contents es).map Prod.fst).Nodup ∧
    ∀ k v, (k, v) ∈ contents es ↔ m.lookup k = some v

section

variable {md5 : Bytes → Bytes} {hashFn : Bytes → Nat} {n : Nat} {K : Set Bytes} {t : Tbl}
  {m : BytesMap} {es : List Entry}

theorem KeySet.separated (hK : KeySet md5 K) (hashFn : Bytes → Nat) (n : Nat) :
    Separated md5 hashFn n K := by
  intro key k hkey hk
  constructor
  · intro h
    simp only [hits, keyHit, Nat.mod_eq_of_lt (hK.short k hk), Bool.and_eq_true, beq_iff_eq] at h
    obtain ⟨_, hlen, hbytes⟩ := h
    by_cases hs : key.length ≤ keysize
    · rw [if_pos hs, beq_iff_eq, hlen, List.take_length] at hbytes
      exact hbytes
    · rw [if_neg hs, Bool.and_eq_true, beq_iff_eq, beq_iff_eq] at hbytes
      exact hK.inj k hk key hkey (by omega) hlen.symm hbytes.1 hbytes.2.symm
  · rintro rfl
    simp [hits, keyHit_self (hK.short k hk)]

/-- A key of `K` is found exactly when an entry has it. -/
theorem Rep.getIdx_iff (h : Rep md5 hashFn t es) (hn : 0 < t.maxslots)
    (hK : Separated md5 hashFn t.maxslots K) (hes : ∀ e ∈ es, e.key ∈ K) {key : Bytes} (hkey : key ∈ K) :
    (∃ e ∈ es, e.key = key ∧ getIdx md5 t key (hashFn key % t.maxslots) = some e.head) ∨
    ((∀ e ∈ es, e.key ≠ key) ∧ getIdx md5 t key (hashFn key % t.maxslots) = none) := by
  cases hi : getIdx md5 t key (hashFn key % t.maxslots) with
  | some i =>
    obtain ⟨e, he, rfl, hhit⟩ := h.getIdx_some hn hi
    exact Or.inl ⟨e, he, (hK hkey (hes e he)).mp hhit, rfl⟩
  | none =>
    refine Or.inr ⟨fun e he hek => ?_, rfl⟩
    have := h.getIdx_none hn hi e he
    rw [(hK hkey (hes e he)).mpr hek] at this
    exact absurd this (by simp)

theorem Rep.exist_iff (h : Rep md5 hashFn t es) (hn : 0 < t.maxslots)
    (hK : Separated md5 hashFn t.maxslots K) (hes : ∀ e ∈ es, e.key ∈ K) {key : Bytes} (hkey : key ∈ K) :
    qhasharrExist md5 hashFn t key = true ↔ ∃ e ∈ es, e.key = key := by
  rw [qhasharrExist, if_neg (by omega)]
  rcases h.getIdx_iff hn hK hes hkey with ⟨e, he, hek, hi⟩ | ⟨hno, hi⟩
  · simp only [hi, Option.isSome_some, true_iff]
    exact ⟨e, he, hek⟩
  · simp only [hi, Option.isSome_none, Bool.false_eq_true, false_iff]
    rintro ⟨e, he, hek⟩
    exact hno e he hek

theorem mem_contents {es : List Entry} {k v : Bytes} :
    (k, v) ∈ contents es ↔ ∃ e ∈ es, e.key = k ∧ e.value = v := by
  simp [contents]

/-- The keys of the entries are those of the map. -/
theorem entry_key_mem (hmem : ∀ k v, (k, v) ∈ contents es ↔ m.lookup k = some v)
    (hkeys : ∀ k ∈ m, k ∈ K) : ∀ e ∈ es, e.key ∈ K := by
  intro e he
  refine hkeys _ (Finmap.lookup_isSome.mp ?_)
  rw [(hmem e.key e.value).mp (mem_contents.mpr ⟨e, he, rfl, rfl⟩)]
  rfl

/-- **The answers of the table are those of the map.** -/
theorem Refines.answers (h : Refines md5 hashFn n K t m) (hn : 0 < n) (hK : Separated md5 hashFn n K)
    {key : Bytes} (hkey : key ∈ K) :
    qhasharrGet md5 hashFn t key = m.lookup key ∧
    (qhasharrExist md5 hashFn t key = true ↔ key ∈ m) ∧
    ((qhasharrRemove md5 hashFn t key).1 = .ok () ↔ key ∈ m) := by
  obtain ⟨es, hrep, -, hmem⟩ := h.entries
  have hes := entry_key_mem hmem h.keys
  obtain rfl := h.maxslots
  have hbound : (∃ e ∈ es, e.key = key) ↔ key ∈ m := by
    rw [← Finmap.lookup_isSome, Option.isSome_iff_exists]
    constructor
    · rintro ⟨e, he, rfl⟩
      exact ⟨e.value, (hmem _ _).mp (mem_contents.mpr ⟨e, he, rfl, rfl⟩)⟩
    · rintro ⟨v, hv⟩
      obtain ⟨e, he, hek, _⟩ := mem_contents.mp ((hmem key v).mpr hv)
      exact ⟨e, he, hek⟩
  refine ⟨?_, (hrep.exist_iff hn hK hes hkey).trans hbound, ?_⟩
  · rw [qhasharrGet, if_neg (by omega)]
    rcases hrep.getIdx_iff hn hK hes hkey with ⟨e, he, hek, hi⟩ | ⟨hno, hi⟩
    · simp only [hi, hrep.getData_eq he]
      rw [(hmem key e.value).mp (mem_contents.mpr ⟨e, he, hek, rfl⟩)]
    · simp only [hi]
      symm
      rw [Finmap.lookup_eq_none, ← hbound]
      rintro ⟨e, he, hek⟩
      exact hno e he hek
  · rw [← hbound]
    rcases hrep.remove hn key with ⟨hno, hr⟩ | ⟨e, he, hhit, t', es', hr, -⟩
    · rw [hr]
      refine ⟨by simp, ?_⟩
      rintro ⟨e, he, hek⟩
      have := hno e he
      rw [(hK hkey (hes e he)).mpr hek] at this
      exact absurd this (by simp)
    · rw [hr]
      exact ⟨fun _ => ⟨e, he, (hK hkey (hes e he)).mp hhit⟩, fun _ => rfl⟩

/-! ### The step lemmas -/

/-- The keys of the bucket that a put does not replace, counted in the map. -/
theorem others_eq (hK : Separated md5 hashFn n K) (hkeys : ∀ k ∈ m, k ∈ K)
    (hnd : ((contents es).map Prod.fst).Nodup)
    (hmem : ∀ k v, (k, v) ∈ contents es ↔ m.lookup k = some v) {key : Bytes} (hkey : key ∈ K) :
    others md5 hashFn n key (contents es) = (bucketMates hashFn n m key).card := by
  rw [others, List.countP_eq_length_filter, ← List.length_map (f := Prod.fst),
    ← List.toFinset_card_of_nodup (hnd.sublist (List.filter_sublist.map _))]
  congr 1
  ext k
  simp only [List.mem_toFinset, List.mem_map, List.mem_filter, Bool.and_eq_true, beq_iff_eq,
    Bool.not_eq_true', bucketMates, Finset.mem_filter, Finmap.mem_keys, Finmap.mem_erase]
  constructor
  · rintro ⟨⟨k, v⟩, ⟨hin, hb, hno⟩, rfl⟩
    have hm : k ∈ m := Finmap.lookup_isSome.mp (by rw [(hmem k v).mp hin]; rfl)
    refine ⟨⟨fun he => ?_, hm⟩, hb⟩
    rw [(hK hkey (hkeys k hm)).mpr he] at hno
    exact absurd hno (by simp)
  · rintro ⟨⟨hne, hm⟩, hb⟩
    obtain ⟨v, hv⟩ := Option.isSome_iff_exists.mp (Finmap.lookup_isSome.mpr hm)
    refine ⟨(k, v), ⟨(hmem k v).mpr hv, hb, ?_⟩, rfl⟩
    rw [← Bool.not_eq_true, hK hkey (hkeys k hm)]
    exact hne

theorem erase_of_notMem {key : Bytes} (h : key ∉ m) : m.erase key = m := by
  refine Finmap.ext_lookup (fun k => ?_)
  by_cases hk : k = key
  · subst hk
    rw [Finmap.lookup_erase, Finmap.lookup_eq_none.mpr h]
  · rw [Finmap.lookup_erase_ne hk]

/-- On `K` a put replaces its own key and keeps the others. -/
theorem mem_kept_iff (hK : Separated md5 hashFn n K) {key : Bytes} (hkey : key ∈ K)
    (hes : ∀ e ∈ es, e.key ∈ K) (kv : Bytes × Bytes) :
    kv ∈ kept md5 hashFn n key (contents es) ↔ kv ∈ contents es ∧ kv.1 ≠ key := by
  rw [kept, List.mem_filter]
  refine and_congr_right (fun hkv => ?_)
  obtain ⟨e, he, rfl⟩ := List.mem_map.mp hkv
  rw [Bool.not_eq_true', ← Bool.not_eq_true, hK hkey (hes e he)]

theorem kept_sublist {key : Bytes} {c : List (Bytes × Bytes)} :
    (kept md5 hashFn n key c).Sublist c := List.filter_sublist

theorem Refines.put_ok (h : Refines md5 hashFn n K t m) (hK : Separated md5 hashFn n K) {key value : Bytes}
    (hkey : key ∈ K) (hnd : ((contents es).map Prod.fst).Nodup)
    (hmem : ∀ k v, (k, v) ∈ contents es ↔ m.lookup k = some v) {r : Reply × Tbl}
    (hp : PutResult md5 hashFn t es key value r) (hok : r.1 = .ok ()) :
    Refines md5 hashFn n K r.2 (m.insert key value) := by
  obtain rfl := h.maxslots
  obtain ⟨-, es', hrep, hc⟩ := hp.ok hok
  have hkept := mem_kept_iff hK hkey (entry_key_mem hmem h.keys)
  refine ⟨hp.maxslots.trans h.maxslots, ?_, es', hrep, ?_, ?_⟩
  · intro k hk
    rcases Finmap.mem_insert.mp hk with rfl | hk
    · exact hkey
    · exact h.keys k hk
  · rw [(hc.map Prod.fst).nodup_iff, List.map_cons, List.nodup_cons]
    refine ⟨?_, hnd.sublist (kept_sublist.map _)⟩
    rintro hin
    obtain ⟨kv, hkv, hfst⟩ := List.mem_map.mp hin
    exact ((hkept kv).mp hkv).2 hfst
  · intro k v
    rw [hc.mem_iff, List.mem_cons, hkept, hmem]
    by_cases hk : k = key
    · subst hk
      simp [Finmap.lookup_insert, eq_comm]
    · rw [Finmap.lookup_insert_of_ne _ hk]
      simp [hk]

/-- A table with the same contents refines the same map. -/
theorem Refines.same (h : Refines md5 hashFn n K t m) (hnd : ((contents es).map Prod.fst).Nodup)
    (hmem : ∀ k v, (k, v) ∈ contents es ↔ m.lookup k = some v) {t' : Tbl} {es' : List Entry}
    (hmax : t'.maxslots = t.maxslots) (hrep : Rep md5 hashFn t' es') (hc : (contents es').Perm (contents es)) :
    Refines md5 hashFn n K t' m :=
  ⟨hmax.trans h.maxslots, h.keys, es', hrep, (hc.map Prod.fst).nodup_iff.mpr hnd, fun k v => by
    rw [hc.mem_iff, hmem]⟩

/-- A table without the entries that match a key refines the map without it. -/
theorem Refines.gone (h : Refines md5 hashFn n K t m) (hK : Separated md5 hashFn n K) {key : Bytes} (hkey : key ∈ K)
    (hnd : ((contents es).map Prod.fst).Nodup) (hmem : ∀ k v, (k, v) ∈ contents es ↔ m.lookup k = some v) {t' : Tbl}
    {es' : List Entry} (hmax : t'.maxslots = t.maxslots) (hrep : Rep md5 hashFn t' es')
    (hc : (contents es').Perm (kept md5 hashFn n key (contents es))) : Refines md5 hashFn n K t' (m.erase key) := by
  have hkept := mem_kept_iff hK hkey (entry_key_mem hmem h.keys)
  exact ⟨hmax.trans h.maxslots, fun k hk => h.keys k (Finmap.mem_erase.mp hk).2, es', hrep,
    (hc.map Prod.fst).nodup_iff.mpr (hnd.sublist (kept_sublist.map _)), fun k v => by
      rw [hc.mem_iff, hkept, lookup_erase_iff, hmem, and_comm]⟩

theorem Refines.put_error (h : Refines md5 hashFn n K t m) (hn : 0 < n) (hK : Separated md5 hashFn n K)
    {key value : Bytes} (hkey : key ∈ K) (hnd : ((contents es).map Prod.fst).Nodup)
    (hmem : ∀ k v, (k, v) ∈ contents es ↔ m.lookup k = some v) {r : Reply × Tbl}
    (hp : PutResult md5 hashFn t es key value r) {er : Option Errno} (her : r.1 = .error er) :
    Refines md5 hashFn n K r.2
      (if qhasharrExist md5 hashFn r.2 key then m else m.erase key) := by
  obtain rfl := h.maxslots
  obtain ⟨-, es', hrep, ⟨-, hc⟩ | ⟨-, -, hc⟩⟩ := hp.error er her
  · -- the table is as it was
    have hsame := h.same hnd hmem hp.maxslots hrep hc
    split
    · exact hsame
    · next hex =>
      have hnot : key ∉ m := fun hin => hex ((hsame.answers hn hK hkey).2.1.mpr hin)
      rw [erase_of_notMem hnot]
      exact hsame
  · -- the key's own entry is gone
    have hgone := h.gone hK hkey hnd hmem hp.maxslots hrep hc
    rw [if_neg]
    · exact hgone
    · rw [(hgone.answers hn hK hkey).2.1, Finmap.mem_erase]
      exact fun hin => hin.1 rfl

theorem Refines.remove_ok (h : Refines md5 hashFn n K t m) (hK : Separated md5 hashFn n K) {key : Bytes}
    (hkey : key ∈ K) (hnd : ((contents es).map Prod.fst).Nodup)
    (hmem : ∀ k v, (k, v) ∈ contents es ↔ m.lookup k = some v) {e : Entry} (he : e ∈ es)
    (hhit : hits md5 hashFn t.maxslots key e.key = true) {t' : Tbl} {es' : List Entry}
    (hmax : t'.maxslots = t.maxslots) (hrep : Rep md5 hashFn t' es')
    (hc : (contents es).Perm ((e.key, e.value) :: contents es')) :
    Refines md5 hashFn n K t' (m.erase key) := by
  obtain rfl := h.maxslots
  have hek : e.key = key := (hK hkey (entry_key_mem hmem h.keys e he)).mp hhit
  rw [(hc.map Prod.fst).nodup_iff, List.map_cons, List.nodup_cons] at hnd
  refine ⟨hmax.trans h.maxslots, fun k hk => h.keys k (Finmap.mem_erase.mp hk).2, es', hrep,
    hnd.2, fun k v => ?_⟩
  rw [lookup_erase_iff, ← hmem, hc.mem_iff, List.mem_cons]
  constructor
  · intro hkv
    refine ⟨fun hk => hnd.1 ?_, Or.inr hkv⟩
    exact List.mem_map.mpr ⟨(k, v), hkv, hk.trans hek.symm⟩
  · rintro ⟨hk, hkv | hkv⟩
    · exact absurd ((Prod.mk.inj hkv).1.trans hek) hk
    · exact hkv

theorem Refines.empty (hmax : t.maxslots = n) (h : Rep md5 hashFn t []) :
    Refines md5 hashFn n K t ∅ :=
  ⟨hmax, fun _ hk => absurd hk Finmap.notMem_empty, [], h, List.nodup_nil, fun k v => by
    simp [contents, Finmap.lookup_empty]⟩

theorem Refines.clear (h : Refines md5 hashFn n K t m) : Refines md5 hashFn n K (qhasharrClear t) ∅ := by
  obtain ⟨es, hrep, -⟩ := h.entries
  refine Refines.empty ?_ hrep.clear
  rw [← h.maxslots, qhasharrClear]
  split <;> rfl

/-- **One call**: the table keeps refining the map that follows it. -/
theorem Refines.step (h : Refines md5 hashFn n K t m) (hn : 0 < n) (hK : Separated md5 hashFn n K) {op : Op}
    (ha : op.Allowed hashFn n K m) :
    Refines md5 hashFn n K (op.exec md5 hashFn t).2 (op.onMap md5 hashFn m (op.exec md5 hashFn t)) := by
  obtain ⟨es, hrep, hnd, hmem⟩ := h.entries
  have hn' : 0 < t.maxslots := h.maxslots ▸ hn
  cases op with
  | put key value =>
    obtain ⟨hkey, hv, hcard⟩ := ha
    have hbound : others md5 hashFn t.maxslots key (contents es) < 32767 := by
      rw [h.maxslots, others_eq hK h.keys hnd hmem hkey]
      exact hcard
    have hp := hrep.put hn' hv hbound
    change Refines md5 hashFn n K (qhasharrPut md5 hashFn t key value).2
      (Op.onMap md5 hashFn m (.put key value) (qhasharrPut md5 hashFn t key value))
    cases hr : qhasharrPut md5 hashFn t key value with
    | mk rep t' =>
      rw [hr] at hp
      cases rep with
      | ok u => exact h.put_ok hK hkey hnd hmem hp rfl
      | error er => exact h.put_error hn hK hkey hnd hmem hp rfl
  | remove key =>
    change Refines md5 hashFn n K (qhasharrRemove md5 hashFn t key).2
      (Op.onMap md5 hashFn m (.remove key) (qhasharrRemove md5 hashFn t key))
    rcases hrep.remove hn' key with ⟨hno, hr⟩ | ⟨e, he, hhit, t', es', hr, hmax, hrep', hc⟩
    · rw [hr]
      exact h
    · rw [hr]
      exact h.remove_ok hK ha hnd hmem he hhit hmax hrep' hc
  | clear => exact h.clear

theorem Refines.runOps (hn : 0 < n) (hK : Separated md5 hashFn n K) : ∀ (ops : List Op) (t : Tbl) (m : BytesMap),
    Refines md5 hashFn n K t m → AllAllowed md5 hashFn n K (t, m) ops →
    Refines md5 hashFn n K (runOps md5 hashFn (t, m) ops).1 (runOps md5 hashFn (t, m) ops).2 := by
  intro ops
  induction ops with
  | nil => intro t m h _; exact h
  | cons op ops ih => intro t m h ha; exact ih _ _ (h.step hn hK ha.1) ha.2

end

/-- **The shared-memory table is a finite map.**  After any run of allowed calls
from an initialised table, every key of `K` is answered as the map that follows
the run says, and can be removed exactly when the map binds it. -/
theorem qhasharr_run_answers_as_map (md5 : Bytes → Bytes) (hashFn : Bytes → Nat) (n : Nat)
    (hn : 1 ≤ n) (K : Set Bytes) (hK : KeySet md5 K) (ops : List Op)
    (hops : AllAllowed md5 hashFn n K (qhasharr n, ∅) ops) (key : Bytes) (hkey : key ∈ K) :
    qhasharrGet md5 hashFn (runOps md5 hashFn (qhasharr n, ∅) ops).1 key =
      (runOps md5 hashFn (qhasharr n, ∅) ops).2.lookup key ∧
    (qhasharrExist md5 hashFn (runOps md5 hashFn (qhasharr n, ∅) ops).1 key = true ↔
      key ∈ (runOps md5 hashFn (qhasharr n, ∅) ops).2) ∧
    ((qhasharrRemove md5 hashFn (runOps md5 hashFn (qhasharr n, ∅) ops).1 key).1 = .ok () ↔
      key ∈ (runOps md5 hashFn (qhasharr n, ∅) ops).2) := by
  have hinit : Refines md5 hashFn n K (qhasharr n) ∅ := Refines.empty rfl (rep_qhasharr n)
  exact (Refines.runOps hn (hK.separated hashFn n) ops _ _ hinit hops).answers hn
    (hK.separated hashFn n) hkey

/-- Four slots: the second key collides with the first, whose value takes two
slots; the third key displaces the extension slot, and removing the first key
promotes the second. -/
def crowdedRun : List Op :=
  [.put [1] (List.replicate 100 7), .put [5] [8], .put [2] [9], .remove [1]]

theorem crowdedRun_answers :
    qhasharrGet (fun k => k) (fun k => (k.headD 0).toNat)
      (runOps (fun k => k) (fun k => (k.headD 0).toNat) (qhasharr 4, ∅) crowdedRun).1 [5] =
      some [8] := by
  have h := (qhasharr_run_answers_as_map (fun k => k) (fun k => (k.headD 0).toNat) 4 (by decide)
    {k | k.length ≤ keysize} ⟨fun k hk => ?_, fun k hk k' _ hlt => ?_⟩ crowdedRun
    (by decide) [5] (by decide)).1
  · exact h.trans (by decide)
  · exact Nat.lt_of_le_of_lt hk (by decide)
  · exact absurd hk (Nat.not_le.mpr hlt)

end QConf.Qhasharr
