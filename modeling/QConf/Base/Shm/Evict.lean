import QConf.Base.Qhasharr.Digest
import QConf.Base.Qhasharr.Space
import QConf.Base.Shm.Lru

/-!
# The eviction loop of `hash_tbl_set_`

The loop takes keys off the recency list, the least recent first, until a put
succeeds or none is left.  A put that fails behind its first test has already
removed the old value of its key (`afterFail`), so the table runs ahead of the
map without the evicted keys; for the next put this makes no difference
(`Ahead.fits_iff`).  The loop therefore stops after the least number of evictions
after which a put succeeds (`setEnd_of_holds`).
-/

namespace QConf.Shm

open Qhasharr

/-! ### Maps without some keys -/

/-- The map without the keys of a list. -/
def eraseAll (m : BytesMap) (xs : List Bytes) : BytesMap := xs.foldl (fun m x => m.erase x) m

@[simp] theorem eraseAll_nil (m : BytesMap) : eraseAll m [] = m := rfl

@[simp] theorem eraseAll_cons (m : BytesMap) (x : Bytes) (xs : List Bytes) :
    eraseAll m (x :: xs) = eraseAll (m.erase x) xs := rfl

theorem lookup_eraseAll (xs : List Bytes) : ∀ (m : BytesMap) (k : Bytes),
    (eraseAll m xs).lookup k = if k ∈ xs then none else m.lookup k := by
  induction xs with
  | nil => intro m k; simp
  | cons x xs ih =>
    intro m k
    rw [eraseAll_cons, ih]
    by_cases hk : k = x
    · subst hk
      simp
    · simp [hk, Finmap.lookup_erase_ne hk]

theorem usedSlots_eraseAll_le (xs : List Bytes) : ∀ m : BytesMap,
    usedSlots (eraseAll m xs) ≤ usedSlots m := by
  induction xs with
  | nil => intro m; exact Nat.le_refl _
  | cons x xs ih => intro m; exact Nat.le_trans (ih _) (usedSlots_erase_le m x)

theorem eraseAll_erase (xs : List Bytes) (k : Bytes) : ∀ m : BytesMap,
    (eraseAll m xs).erase k = eraseAll (m.erase k) xs := by
  induction xs with
  | nil => intro m; rfl
  | cons x xs ih =>
    intro m
    rw [eraseAll_cons, ih, Finmap.erase_erase, eraseAll_cons]

/-- What fits beside more fits beside less. -/
theorem fits_eraseAll {n len : Nat} {m : BytesMap} {key : Bytes} (h : Fits n m key len)
    (xs : List Bytes) : Fits n (eraseAll m xs) key len := by
  refine ⟨Nat.lt_of_le_of_lt (usedSlots_eraseAll_le xs m) h.1, ?_⟩
  rw [eraseAll_erase]
  exact Nat.le_trans (Nat.add_le_add_right (usedSlots_eraseAll_le xs _) _) h.2

/-! ### After a put that failed -/

/-- The map after a put of `key` that failed. -/
def afterFail (n : Nat) (m : BytesMap) (key : Bytes) : BytesMap :=
  if usedSlots m < n then m.erase key else m

/-- The map `p` may miss the key that `m` still has; then a slot is free beside `m`. -/
def Ahead (n : Nat) (p m : BytesMap) (key : Bytes) : Prop :=
  p = m ∨ p = m.erase key ∧ usedSlots m < n

section

variable {n len : Nat} {p m : BytesMap} {key : Bytes}

theorem erase_erase_self (m : BytesMap) (key : Bytes) : (m.erase key).erase key = m.erase key :=
  erase_of_notMem (fun h => (Finmap.mem_erase.mp h).1 rfl)

theorem Ahead.refl (n : Nat) (m : BytesMap) (key : Bytes) : Ahead n m m key := Or.inl rfl

theorem Ahead.fits_iff (h : Ahead n p m key) : Fits n p key len ↔ Fits n m key len := by
  rcases h with rfl | ⟨rfl, hlt⟩
  · rfl
  · have hlt' := Nat.lt_of_le_of_lt (usedSlots_erase_le m key) hlt
    rw [Fits, Fits, erase_erase_self]
    simp [hlt, hlt']

theorem Ahead.afterFail_eq (h : Ahead n p m key) : afterFail n p key = afterFail n m key := by
  rcases h with rfl | ⟨rfl, hlt⟩
  · rfl
  · have hlt' := Nat.lt_of_le_of_lt (usedSlots_erase_le m key) hlt
    rw [afterFail, afterFail, if_pos hlt', if_pos hlt, erase_erase_self]

theorem insert_erase (m : BytesMap) (key v : Bytes) : (m.erase key).insert key v = m.insert key v := by
  refine Finmap.ext_lookup (fun k => ?_)
  by_cases hk : k = key
  · subst hk
    rw [Finmap.lookup_insert, Finmap.lookup_insert]
  · rw [Finmap.lookup_insert_of_ne _ hk, Finmap.lookup_insert_of_ne _ hk, Finmap.lookup_erase_ne hk]

theorem Ahead.insert_eq (h : Ahead n p m key) (v : Bytes) : p.insert key v = m.insert key v := by
  rcases h with rfl | ⟨rfl, -⟩
  · rfl
  · exact insert_erase m key v

theorem Ahead.mates_le (h : Ahead n p m key) (hashFn : Bytes → Nat) :
    (bucketMates hashFn n p key).card ≤ (bucketMates hashFn n m key).card := by
  rcases h with rfl | ⟨rfl, -⟩
  · exact Nat.le_refl _
  · exact bucketMates_erase_le m key key

/-- An eviction after a failed put. -/
theorem ahead_afterFail_erase (n : Nat) (m : BytesMap) (key x : Bytes) :
    Ahead n ((afterFail n m key).erase x) (m.erase x) key := by
  unfold afterFail
  split
  · next hlt =>
    exact Or.inr ⟨Finmap.erase_erase, Nat.lt_of_le_of_lt (usedSlots_erase_le m x) hlt⟩
  · exact Or.inl rfl

end

/-! ### The calls on keys as the table sees them -/

section

variable {md5 : Bytes → Bytes} {hashFn : Bytes → Nat} {n : Nat} {t : Tbl} {m : BytesMap}
  {key val x : Bytes}

/-- The table of `n` slots holds `m`, a map on the keys the table can tell apart. -/
abbrev Sees (md5 : Bytes → Bytes) (hashFn : Bytes → Nat) (n : Nat) (t : Tbl) (m : BytesMap) : Prop :=
  Refines md5 hashFn n (seenKeys md5 hashFn n) t m

theorem digest_key (h : Sees md5 hashFn n t m) (key : Bytes) :
    digest md5 hashFn t.maxslots key = digest md5 hashFn t.maxslots (seenAs md5 hashFn n key) := by
  rw [h.maxslots, digest_seenAs]

theorem Sees.get (h : Sees md5 hashFn n t m) (hn : 0 < n) (hkey : key.length < 65536) :
    qhasharrGet md5 hashFn t key = m.lookup (seenAs md5 hashFn n key) := by
  rw [get_congr (digest_key h key)]
  exact (Refines.answers h hn (separated_seenKeys md5 hashFn n) (seenAs_mem hkey)).1

theorem Sees.mates_lt (h : Sees md5 hashFn n t m) (hn : 0 < n) (hkey : key.length < 65536)
    (hb : bucketKeys t (hashFn key % n) + (if qhasharrExist md5 hashFn t key then 0 else 1) ≤ 32767) :
    (bucketMates hashFn n m (seenAs md5 hashFn n key)).card < 32767 := by
  have hhash := hash_congr (digest_key h key)
  rw [h.maxslots] at hhash
  rw [hhash, exist_congr (digest_key h key)] at hb
  exact Refines.mates_lt h hn (separated_seenKeys md5 hashFn n) (seenAs_mem hkey) hb

theorem Sees.put (h : Sees md5 hashFn n t m) (hn : 0 < n) (hkey : key.length < 65536) (hval : val ≠ [])
    (hmates : (bucketMates hashFn n m (seenAs md5 hashFn n key)).card < 32767) :
    (Fits n m (seenAs md5 hashFn n key) val.length →
      (qhasharrPut md5 hashFn t key val).1 = .ok () ∧
      Sees md5 hashFn n (qhasharrPut md5 hashFn t key val).2
        (m.insert (seenAs md5 hashFn n key) val)) ∧
    (¬ Fits n m (seenAs md5 hashFn n key) val.length →
      (qhasharrPut md5 hashFn t key val).1 = .error (some .enobufs) ∧
      Sees md5 hashFn n (qhasharrPut md5 hashFn t key val).2
        (afterFail n m (seenAs md5 hashFn n key))) := by
  rw [put_congr (digest_key h key)]
  exact Refines.put h hn (separated_seenKeys md5 hashFn n) (seenAs_mem hkey) hval hmates

theorem Sees.clear (h : Sees md5 hashFn n t m) : Sees md5 hashFn n (qhasharrClear t) ∅ := Refines.clear h

/-- **`hash_tbl_remove` of a key always succeeds**, whether it was stored or not. -/
theorem hashTblRemove_spec {s : Store} (h : Sees md5 hashFn n s.tbl m) (hn : 0 < n) (hx : x ≠ [])
    (hlen : x.length < 65536) :
    ∃ s', hashTblRemove md5 hashFn s x = (.ok, s') ∧ s'.lru = s.lru ∧
      Sees md5 hashFn n s'.tbl (m.erase (seenAs md5 hashFn n x)) := by
  obtain ⟨hreply, hm⟩ := Refines.remove h hn (separated_seenKeys md5 hashFn n) (seenAs_mem hlen)
  rw [← remove_congr (digest_key h x)] at hreply hm
  rw [hashTblRemove, if_neg hx]
  generalize qhasharrRemove md5 hashFn s.tbl x = r at hreply hm ⊢
  obtain ⟨rep, t'⟩ := r
  rcases hreply with hr | hr
  · dsimp only at hr
    subst hr
    exact ⟨_, rfl, rfl, hm⟩
  · dsimp only at hr
    subst hr
    exact ⟨_, rfl, rfl, hm⟩

/-! ### The loop -/

/-- The map without the first `i` keys of `L`. -/
noncomputable def evict (md5 : Bytes → Bytes) (hashFn : Bytes → Nat) (n : Nat) (m : BytesMap)
    (L : List Bytes) (i : Nat) : BytesMap :=
  eraseAll m ((L.take i).map (seenAs md5 hashFn n))

/-- How the loop ends that starts with the map `m` and may evict the keys of `L`,
the first one first, after `i` evictions or without success. -/
inductive LoopEnd (md5 : Bytes → Bytes) (hashFn : Bytes → Nat) (n : Nat) (m : BytesMap)
    (L : List Bytes) (key val : Bytes) : Reply × Store → Prop
  | stored {s : Store} (i : Nat) (le : i ≤ L.length)
      (fits : Fits n (evict md5 hashFn n m L i) (seenAs md5 hashFn n key) val.length)
      (least : ∀ j < i, ¬ Fits n (evict md5 hashFn n m L j) (seenAs md5 hashFn n key) val.length)
      (sees : Sees md5 hashFn n s.tbl
        ((evict md5 hashFn n m L i).insert (seenAs md5 hashFn n key) val))
      (ok : s.lru.Ok) (keys : s.lru.keys = (L.drop i).reverse) : LoopEnd md5 hashFn n m L key val (.ok (), s)
  | failed {s : Store} {e : Option Errno}
      (never : ∀ j ≤ L.length,
        ¬ Fits n (evict md5 hashFn n m L j) (seenAs md5 hashFn n key) val.length)
      (sees : Sees md5 hashFn n s.tbl
        (afterFail n (evict md5 hashFn n m L L.length) (seenAs md5 hashFn n key)))
      (ok : s.lru.Ok) (keys : s.lru.keys = []) : LoopEnd md5 hashFn n m L key val (.error e, s)

/-- A round in front of the rest of the loop. -/
theorem LoopEnd.round {L : List Bytes} {r : Reply × Store}
    (h : LoopEnd md5 hashFn n (m.erase (seenAs md5 hashFn n x)) L key val r)
    (hfull : ¬ Fits n m (seenAs md5 hashFn n key) val.length) :
    LoopEnd md5 hashFn n m (x :: L) key val r := by
  have hall : ∀ b : Nat,
      (∀ j < b, ¬ Fits n (evict md5 hashFn n (m.erase (seenAs md5 hashFn n x)) L j)
        (seenAs md5 hashFn n key) val.length) →
      ∀ j < b + 1, ¬ Fits n (evict md5 hashFn n m (x :: L) j) (seenAs md5 hashFn n key) val.length := by
    intro b hb j hj
    cases j with
    | zero => exact hfull
    | succ j => exact hb j (by omega)
  cases h with
  | stored i le fits least sees ok keys =>
    exact .stored (i + 1) (Nat.succ_le_succ le) fits (hall i least) sees ok keys
  | failed never sees ok keys =>
    refine .failed (fun j hj => hall (L.length + 1) (fun i hi => never i (by omega)) j ?_) sees ok keys
    rw [List.length_cons] at hj
    omega

/-! ### One round -/

section

variable {s : Store} {fuel : Nat}

/-- The put succeeded: the loop is not entered. -/
theorem setLoop_stored {L : List Bytes} {p : BytesMap} (hp : Ahead n p m (seenAs md5 hashFn n key))
    (hkeys : s.lru.keys = L.reverse) (hok : s.lru.Ok)
    (hroom : Fits n m (seenAs md5 hashFn n key) val.length)
    (hput : (qhasharrPut md5 hashFn s.tbl key val).1 = .ok () ∧
      Sees md5 hashFn n (qhasharrPut md5 hashFn s.tbl key val).2
        (p.insert (seenAs md5 hashFn n key) val)) :
    ∃ r, setLoop md5 hashFn key val (fuel + 1) (qhasharrPut md5 hashFn s.tbl key val).1
        (s.called (qhasharrPut md5 hashFn s.tbl key val)) = some r ∧
      LoopEnd md5 hashFn n m L key val r := by
  refine ⟨(.ok (), s.called (qhasharrPut md5 hashFn s.tbl key val)), ?_,
    .stored 0 (Nat.zero_le _) hroom (by simp) ?_ hok hkeys⟩
  · rw [hput.1]
    rfl
  · rw [hp.insert_eq] at hput
    exact hput.2

theorem again_enobufs (e : Option Errno) (t : Tbl) (l : Lru) :
    again (.error e) ⟨t, l, some .enobufs⟩ = true := rfl

variable (hput : (qhasharrPut md5 hashFn s.tbl key val).1 = .error (some .enobufs))

include hput

theorem called_put : s.called (qhasharrPut md5 hashFn s.tbl key val) =
    { s with tbl := (qhasharrPut md5 hashFn s.tbl key val).2, errno := some .enobufs } := by
  rw [Store.called, hput]

/-- The list is empty: the loop gives up. -/
theorem setLoop_empty (hempty : s.lru.getRemoveKey = []) :
    setLoop md5 hashFn key val (fuel + 1) (qhasharrPut md5 hashFn s.tbl key val).1
        (s.called (qhasharrPut md5 hashFn s.tbl key val)) =
      some (.error (some .enobufs),
        { s with tbl := (qhasharrPut md5 hashFn s.tbl key val).2, errno := none }) := by
  rw [called_put hput, hput, setLoop]
  dsimp only
  rw [if_pos (again_enobufs ..), hempty]
  rfl

/-- The last key of the list is evicted, and the put is tried again. -/
theorem setLoop_evict {s₁ : Store} (hlast : s.lru.getRemoveKey = x)
    (hrem : hashTblRemove md5 hashFn
      { s with tbl := (qhasharrPut md5 hashFn s.tbl key val).2, errno := none } x = (.ok, s₁)) :
    setLoop md5 hashFn key val (fuel + 1) (qhasharrPut md5 hashFn s.tbl key val).1
        (s.called (qhasharrPut md5 hashFn s.tbl key val)) =
      setLoop md5 hashFn key val fuel (qhasharrPut md5 hashFn s₁.tbl key val).1
        (Store.called { s₁ with lru := s₁.lru.removeKey } (qhasharrPut md5 hashFn s₁.tbl key val)) := by
  rw [called_put hput, hput, setLoop]
  dsimp only
  rw [if_pos (again_enobufs ..), hlast, hrem]

end

variable (hn : 0 < n) (hkey : key.length < 65536) (hval : val ≠ [])

include hn hkey hval

/-- **A put and the loop behind it.**  The induction is on the keys that are left,
the least recent first. -/
theorem setLoop_end : ∀ (L : List Bytes) (fuel : Nat) (s : Store) (p m : BytesMap),
    s.lru.keys = L.reverse → s.lru.Ok → (∀ x ∈ L, x ≠ [] ∧ x.length < 65536) → L.length < fuel →
    Sees md5 hashFn n s.tbl p → Ahead n p m (seenAs md5 hashFn n key) →
    (bucketMates hashFn n m (seenAs md5 hashFn n key)).card < 32767 →
    ∃ r, setLoop md5 hashFn key val fuel (qhasharrPut md5 hashFn s.tbl key val).1
        (s.called (qhasharrPut md5 hashFn s.tbl key val)) = some r ∧
      LoopEnd md5 hashFn n m L key val r := by
  intro L
  induction L with
  | nil =>
    intro fuel s p m hkeys hok _ hfuel hsees hp hmates
    obtain ⟨fuel, rfl⟩ : ∃ f, fuel = f + 1 := ⟨fuel - 1, by simp at hfuel; omega⟩
    obtain ⟨hfit, hnofit⟩ := hsees.put hn hkey hval (Nat.lt_of_le_of_lt (hp.mates_le hashFn) hmates)
    rw [hp.fits_iff] at hfit hnofit
    by_cases hroom : Fits n m (seenAs md5 hashFn n key) val.length
    · exact setLoop_stored hp hkeys hok hroom (hfit hroom)
    · obtain ⟨hput, hsees'⟩ := hnofit hroom
      have hempty : s.lru.getRemoveKey = [] := by rw [Lru.getRemoveKey_eq, hkeys]; rfl
      refine ⟨_, setLoop_empty hput hempty, .failed (fun j _ => ?_) ?_ hok hkeys⟩
      · rw [evict, List.take_nil]
        exact hroom
      · rw [hp.afterFail_eq] at hsees'
        exact hsees'
  | cons x L ih =>
    intro fuel s p m hkeys hok hL hfuel hsees hp hmates
    obtain ⟨fuel, rfl⟩ : ∃ f, fuel = f + 1 := ⟨fuel - 1, by simp at hfuel; omega⟩
    obtain ⟨hfit, hnofit⟩ := hsees.put hn hkey hval (Nat.lt_of_le_of_lt (hp.mates_le hashFn) hmates)
    rw [hp.fits_iff] at hfit hnofit
    by_cases hroom : Fits n m (seenAs md5 hashFn n key) val.length
    · exact setLoop_stored hp hkeys hok hroom (hfit hroom)
    · obtain ⟨hput, hsees'⟩ := hnofit hroom
      rw [hp.afterFail_eq] at hsees'
      have hlast : s.lru.getRemoveKey = x := by rw [Lru.getRemoveKey_eq, hkeys]; simp
      obtain ⟨hx, hxlen⟩ := hL x (List.mem_cons_self ..)
      obtain ⟨s₁, hrem, hlru, hsees₁⟩ := hashTblRemove_spec
        (s := { s with tbl := (qhasharrPut md5 hashFn s.tbl key val).2, errno := none })
        hsees' hn hx hxlen
      have hkeys₁ : s₁.lru.removeKey.keys = L.reverse := by
        rw [hlru, Lru.keys_removeKey, hkeys, List.reverse_cons, List.dropLast_concat]
      obtain ⟨r, hr, hend⟩ := ih fuel { s₁ with lru := s₁.lru.removeKey } _
        (m.erase (seenAs md5 hashFn n x)) hkeys₁ (by rw [hlru]; exact hok.removeKey)
        (fun y hy => hL y (List.mem_cons_of_mem _ hy)) (by simp at hfuel; omega) hsees₁
        (ahead_afterFail_erase n m _ _) (Nat.lt_of_le_of_lt (bucketMates_erase_le m _ _) hmates)
      exact ⟨r, (setLoop_evict hput hlast hrem).trans hr, hend.round hroom⟩

end

/-! ### `hash_tbl_set_` -/

/-- The store holds the map `m`.  The recency list has its index, and every stored
key except `a` is in it; it may have keys that are not stored. -/
structure Holds (md5 : Bytes → Bytes) (hashFn : Bytes → Nat) (n : Nat) (s : Store) (m : BytesMap) :
    Prop where
  sees : Sees md5 hashFn n s.tbl m
  lru : s.lru.Ok
  listed : ∀ x ∈ s.lru.keys, x ≠ [] ∧ x.length < 65536 ∧ x ≠ localIdcKey
  covered : ∀ k ∈ m, k = localIdcKey ∨ ∃ x ∈ s.lru.keys, seenAs md5 hashFn n x = k

/-- How `hash_tbl_set_` ends that starts in the store `s` with the map `m`. -/
inductive SetEnd (md5 : Bytes → Bytes) (hashFn : Bytes → Nat) (n : Nat) (s : Store) (m : BytesMap)
    (key val : Bytes) : Ret × Store → Prop
  | stored {s' : Store} (i : Nat) (le : i ≤ s.lru.keys.length)
      (fits : Fits n (evict md5 hashFn n m s.lru.keys.reverse i) (seenAs md5 hashFn n key) val.length)
      (least : ∀ j < i,
        ¬ Fits n (evict md5 hashFn n m s.lru.keys.reverse j) (seenAs md5 hashFn n key) val.length)
      (holds : Holds md5 hashFn n s'
        ((evict md5 hashFn n m s.lru.keys.reverse i).insert (seenAs md5 hashFn n key) val)) :
      SetEnd md5 hashFn n s m key val (.ok, s')
  | failed {s' : Store}
      (never : ∀ j ≤ s.lru.keys.length,
        ¬ Fits n (evict md5 hashFn n m s.lru.keys.reverse j) (seenAs md5 hashFn n key) val.length)
      (holds : Holds md5 hashFn n s' (afterFail n
        (evict md5 hashFn n m s.lru.keys.reverse s.lru.keys.length) (seenAs md5 hashFn n key))) :
      SetEnd md5 hashFn n s m key val (.errTblSet, s')

section

variable {md5 : Bytes → Bytes} {hashFn : Bytes → Nat} {n : Nat} {m : BytesMap} {key val : Bytes}

theorem mem_evict {L : List Bytes} {i : Nat} {k : Bytes} :
    k ∈ evict md5 hashFn n m L i ↔ k ∈ m ∧ ∀ x ∈ L.take i, seenAs md5 hashFn n x ≠ k := by
  rw [← Finmap.lookup_isSome, evict, lookup_eraseAll, ← Finmap.lookup_isSome]
  split
  · next hin =>
    obtain ⟨x, hx, rfl⟩ := List.mem_map.mp hin
    simp only [Option.isSome_none, Bool.false_eq_true, false_iff, not_and, not_forall, not_not]
    exact fun _ => ⟨x, hx, rfl⟩
  · next hnot =>
    rw [iff_self_and]
    exact fun _ x hx hk => hnot (List.mem_map.mpr ⟨x, hx, hk⟩)

theorem mem_afterFail {k : Bytes} (h : k ∈ afterFail n m key) : k ∈ m := by
  unfold afterFail at h
  split at h
  · exact (Finmap.mem_erase.mp h).2
  · exact h

/-- When every key of the list is evicted, only `a` may be left. -/
theorem Holds.evict_all {s : Store} (h : Holds md5 hashFn n s m) {k : Bytes}
    (hk : k ∈ evict md5 hashFn n m s.lru.keys.reverse s.lru.keys.length) : k = localIdcKey := by
  obtain ⟨hm, hnot⟩ := mem_evict.mp hk
  rw [List.take_of_length_le (by simp)] at hnot
  refine (h.covered k hm).resolve_right (fun hx => ?_)
  obtain ⟨x, hx, hk⟩ := hx
  exact hnot x (List.mem_reverse.mpr hx) hk

theorem seenAs_localIdcKey : seenAs md5 hashFn n localIdcKey = localIdcKey :=
  seenAs_of_length_le (by decide)

/-- The list after the key was visited. -/
theorem mem_keys_visitKey {l : Lru} (h : l.Ok) (key x : Bytes) :
    x ∈ (l.visitKey key).keys ↔ (x = key ∧ key ≠ localIdcKey) ∨ x ∈ l.keys := by
  by_cases hkey : key = localIdcKey
  · rw [hkey, Lru.keys_visitKey_localIdc]
    simp
  · rw [h.keys_visitKey hkey, List.mem_cons, h.nodup.mem_erase_iff]
    by_cases hx : x = key <;> simp [hx, hkey]

/-- What `hash_tbl_set_` makes of the end of its loop. -/
def setReturn (key : Bytes) : Reply × Store → Ret × Store
  | (.ok _, s) => (.ok, { s with lru := s.lru.visitKey key })
  | (.error _, s) => (.errTblSet, s)

/-- `hash_tbl_set_` is its loop. -/
theorem setReturn_of_loop {s : Store} (h : Holds md5 hashFn n s m) (hn : 0 < n) (hne : key ≠ [])
    (hkey : key.length < 65536) (hval : val ≠ [])
    (hmates : (bucketMates hashFn n m (seenAs md5 hashFn n key)).card < 32767) :
    ∃ r, hashTblSet_ md5 hashFn s key val = some (setReturn key r) ∧
      LoopEnd md5 hashFn n m s.lru.keys.reverse key val r := by
  obtain ⟨r, hr, hend⟩ := setLoop_end hn hkey hval s.lru.keys.reverse (s.lru.lruMem.length + 1) s m m
    (List.reverse_reverse _).symm h.lru
    (fun x hx => ⟨(h.listed x (List.mem_reverse.mp hx)).1, (h.listed x (List.mem_reverse.mp hx)).2.1⟩)
    (by simp [Lru.keys]) h.sees (Ahead.refl n m _) hmates
  refine ⟨r, ?_, hend⟩
  rw [hashTblSet_, if_neg hne]
  dsimp only
  rw [hr]
  obtain ⟨rep, s'⟩ := r
  cases rep <;> rfl

/-- **`hash_tbl_set_` evicts until a put succeeds**, the least recent key first, and
fails only when all of them are gone. -/
theorem setEnd_of_holds {s : Store} (h : Holds md5 hashFn n s m) (hn : 0 < n) (hne : key ≠ [])
    (hkey : key.length < 65536) (hval : val ≠ [])
    (hmates : (bucketMates hashFn n m (seenAs md5 hashFn n key)).card < 32767) :
    ∃ r, hashTblSet_ md5 hashFn s key val = some r ∧ SetEnd md5 hashFn n s m key val r := by
  obtain ⟨r, hr, hend⟩ := setReturn_of_loop h hn hne hkey hval hmates
  rw [hr]
  cases hend with
  | stored i le fits least sees ok keys =>
    rw [List.length_reverse] at le
    refine ⟨_, rfl, .stored i le fits least ⟨sees, ok.visitKey key, fun x hx => ?_, fun k hk => ?_⟩⟩
    · rcases (mem_keys_visitKey ok key x).mp hx with ⟨rfl, hloc⟩ | hx
      · exact ⟨hne, hkey, hloc⟩
      · rw [keys, List.mem_reverse] at hx
        exact h.listed x (List.mem_reverse.mp (List.mem_of_mem_drop hx))
    · rcases Finmap.mem_insert.mp hk with rfl | hk
      · by_cases hloc : key = localIdcKey
        · rw [hloc, seenAs_localIdcKey]
          exact Or.inl rfl
        · exact Or.inr ⟨key, (mem_keys_visitKey ok key key).mpr (Or.inl ⟨rfl, hloc⟩), rfl⟩
      · -- a key that was stored and not evicted is still in the list
        obtain ⟨hm, hnot⟩ := mem_evict.mp hk
        rcases h.covered k hm with rfl | ⟨x, hx, hxk⟩
        · exact Or.inl rfl
        · refine Or.inr ⟨x, (mem_keys_visitKey ok key x).mpr (Or.inr ?_), hxk⟩
          rw [keys, List.mem_reverse]
          rw [← List.mem_reverse, ← List.take_append_drop i s.lru.keys.reverse,
            List.mem_append] at hx
          exact hx.resolve_left (fun hin => hnot x hin hxk)
  | failed never sees ok keys =>
    rw [List.length_reverse] at never sees
    refine ⟨_, rfl, .failed never ⟨sees, ok, fun x hx => ?_, fun k hk => ?_⟩⟩
    · rw [keys] at hx
      exact absurd hx (by simp)
    · exact Or.inl (h.evict_all (mem_afterFail hk))

end

end QConf.Shm
