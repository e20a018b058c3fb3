import QConf.Base.Shm.Set

/-!
# The recency list over whole runs

`LRU` is a list with an index, and it is there to name the keys of the table in the order
in which they were set.  The calls of one agent on its store are followed here with a
clock and the time of the last set of each key that returned `QCONF_OK`.

* The list never has a key twice, the map is always its index, and the order is always by
  these times (`Traced.Ok.step`).
* The keys of the list are the keys of the table other than `a` as long as nothing is removed
  or cleared behind the back of the list: `hash_tbl_remove` and `hash_tbl_clear` leave it
  alone (`lru_matches_table_iff`).
-/

namespace QConf.Shm

open Qhasharr Transition

/-! ### Runs with a clock -/

/-- The store of an agent, the number of calls so far, and when each key was last set with
`QCONF_OK`. -/
structure Traced where
  store : Store
  time : Nat
  lastOk : Bytes → Option Nat

def Traced.init (n : Nat) : Traced := ⟨Store.init n, 0, fun _ => none⟩

/-- One call; an agent does not restart here. -/
def tracedStep (md5 : Bytes → Bytes) (hashFn : Bytes → Nat) (s : Traced) (a : Call × Option Errno) :
    Option Traced :=
  let store := { s.store with errno := a.2 }
  match a.1 with
  | .set key val => (hashTblSet md5 hashFn store key val).map (fun r =>
      ⟨r.2, s.time + 1, if r.1 = .ok then Function.update s.lastOk key (some s.time) else s.lastOk⟩)
  | .remove key => some ⟨(hashTblRemove md5 hashFn store key).2, s.time + 1, s.lastOk⟩
  | .clear => some ⟨(hashTblClear store).2, s.time + 1, s.lastOk⟩
  | .restart => none

/-- The list is in the order of the times, the latest first. -/
def ByTime (s : Traced) : Prop :=
  s.store.lru.keys.Pairwise (fun x y => ∃ i j, s.lastOk x = some i ∧ s.lastOk y = some j ∧ j < i)

/-- Of the keys in `K`, the list has those that are stored, except `a`. -/
def Matches (md5 : Bytes → Bytes) (hashFn : Bytes → Nat) (K : Set Bytes) (s : Traced) : Prop :=
  (∀ k ∈ s.store.lru.keys, k ∈ K) ∧
  ∀ k ∈ K, k ∈ s.store.lru.keys ↔ k ≠ localIdcKey ∧ qhasharrExist md5 hashFn s.store.tbl k = true

section

variable {md5 : Bytes → Bytes} {hashFn : Bytes → Nat} {n : Nat} {t : Tbl} {m : BytesMap} {key val : Bytes}
  {s s' : Traced}

/-! ### One set -/

/-- How a set ends, seen from the list: nothing happened; or some of the last keys were
evicted and the key was visited; or all were evicted in vain. -/
inductive ListEnd (md5 : Bytes → Bytes) (hashFn : Bytes → Nat) (n : Nat) (s : Store) (m : BytesMap)
    (key : Bytes) : Ret × Store → Prop
  | same {ret : Ret} (bad : ret ≠ .ok) : ListEnd md5 hashFn n s m key (ret, s)
  | stored {s' : Store} {w : Bytes} (i : Nat) (l : Lru) (ok : l.Ok)
      (sees : Sees md5 hashFn n s'.tbl
        ((evict md5 hashFn n m s.lru.keys.reverse i).insert (seenAs md5 hashFn n key) w))
      (keys : l.keys = (s.lru.keys.reverse.drop i).reverse) (visited : s'.lru = l.visitKey key) :
      ListEnd md5 hashFn n s m key (.ok, s')
  | failed {s' : Store} {m' : BytesMap} (sees : Sees md5 hashFn n s'.tbl m')
      (only : ∀ k ∈ m', k = localIdcKey) (keys : s'.lru.keys = []) :
      ListEnd md5 hashFn n s m key (.errTblSet, s')

@[simp] theorem hashTblRemove_lru (md5 : Bytes → Bytes) (hashFn : Bytes → Nat) (s : Store) (key : Bytes) :
    (hashTblRemove md5 hashFn s key).2.lru = s.lru := by
  unfold hashTblRemove
  split
  · rfl
  · dsimp only
    split <;> rfl

/-- Whatever the table does, the loop only takes keys off the end of the list. -/
theorem setLoop_list (fuel : Nat) : ∀ {r r' : Reply} {s s' : Store}, s.lru.Ok →
    setLoop md5 hashFn key val fuel r s = some (r', s') → s'.lru.Ok ∧ s'.lru.keys <+: s.lru.keys := by
  induction fuel with
  | zero =>
    intro r r' s s' hok h
    rw [setLoop] at h
    split at h
    · exact absurd h (by simp)
    · obtain ⟨-, rfl⟩ := Prod.mk.inj (Option.some.inj h)
      exact ⟨hok, List.prefix_rfl⟩
  | succ fuel ih =>
    intro r r' s s' hok h
    rw [setLoop] at h
    split at h
    · have hlru := hashTblRemove_lru md5 hashFn { s with errno := none } s.lru.getRemoveKey
      split at h
      · next s₁ hrem =>
        rw [hrem] at hlru
        have hlru' : s₁.lru = s.lru := hlru
        obtain ⟨hok', hpre⟩ := ih (by simpa [Store.called, hlru'] using hok.removeKey) h
        refine ⟨hok', hpre.trans ?_⟩
        simpa [Store.called, hlru', Lru.keys_removeKey] using List.dropLast_prefix s.lru.keys
      · next s₁ _ hrem =>
        rw [hrem] at hlru
        have hlru' : s₁.lru = s.lru := hlru
        obtain ⟨-, rfl⟩ := Prod.mk.inj (Option.some.inj h)
        rw [hlru']
        exact ⟨hok, List.prefix_rfl⟩
    · obtain ⟨-, rfl⟩ := Prod.mk.inj (Option.some.inj h)
      exact ⟨hok, List.prefix_rfl⟩

/-- The list after a set: some of the last keys are gone, and on success the key was visited. -/
theorem hashTblSet_list {s : Store} {r : Ret × Store} (hok : s.lru.Ok)
    (h : hashTblSet md5 hashFn s key val = some r) : ∃ l : Lru, l.Ok ∧ l.keys <+: s.lru.keys ∧
      r.2.lru = if r.1 = .ok then l.visitKey key else l := by
  unfold hashTblSet at h
  split at h
  · exact ⟨s.lru, hok, List.prefix_rfl, by rw [← Option.some.inj h]; rfl⟩
  split at h
  · exact ⟨s.lru, hok, List.prefix_rfl, by rw [← Option.some.inj h]; rfl⟩
  unfold hashTblSet_ at h
  split at h
  · exact ⟨s.lru, hok, List.prefix_rfl, by rw [← Option.some.inj h]; rfl⟩
  dsimp only at h
  split at h
  · exact absurd h (by simp)
  · next s₁ hloop =>
    obtain ⟨hok', hpre⟩ := setLoop_list _ (by exact hok) hloop
    exact ⟨s₁.lru, hok', hpre, by rw [← Option.some.inj h]; rfl⟩
  · next s₁ hloop =>
    obtain ⟨hok', hpre⟩ := setLoop_list _ (by exact hok) hloop
    exact ⟨s₁.lru, hok', hpre, by rw [← Option.some.inj h]; rfl⟩

/-- What every call keeps: the map is the index of the list, the times are past, and the list
is in their order. -/
structure Traced.Ok (s : Traced) : Prop where
  lru : s.store.lru.Ok
  past : ∀ k i, s.lastOk k = some i → i < s.time
  timed : ∀ k ∈ s.store.lru.keys, k ≠ localIdcKey ∧ ∃ i, s.lastOk k = some i
  order : ByTime s

/-- Fewer keys at the same times. -/
theorem Traced.Ok.of_sublist (h : s.Ok) {store : Store} (hok : store.lru.Ok)
    (hsub : store.lru.keys.Sublist s.store.lru.keys) : (Traced.mk store (s.time + 1) s.lastOk).Ok where
  lru := hok
  past k i hk := Nat.lt_succ_of_lt (h.past k i hk)
  timed k hk := h.timed k (hsub.subset hk)
  order := h.order.sublist hsub

/-- The keys of a part of the list without `key` keep their times and their order when `key`
is set. -/
theorem Traced.Ok.others (h : s.Ok) {keys : List Bytes} (hsub : keys.Sublist s.store.lru.keys)
    (hkey : key ∉ keys) (i : Nat) :
    (∀ k ∈ keys, Function.update s.lastOk key (some i) k = s.lastOk k) ∧
    keys.Pairwise (fun x y => ∃ j j', Function.update s.lastOk key (some i) x = some j ∧
      Function.update s.lastOk key (some i) y = some j' ∧ j' < j) := by
  have hother : ∀ k ∈ keys, Function.update s.lastOk key (some i) k = s.lastOk k := by
    intro k hk
    have hne : k ≠ key := by
      rintro rfl
      exact hkey hk
    exact Function.update_of_ne hne _ _
  refine ⟨hother, (h.order.sublist hsub).imp_of_mem fun {x y} hx hy hxy => ?_⟩
  rw [hother x hx, hother y hy]
  exact hxy

/-- The list after a set that returned `QCONF_OK`: the key is in front, and of the others some
of the last are gone. -/
theorem Traced.Ok.visit (h : s.Ok) {store : Store} {l : Lru} (hl : l.Ok)
    (hsub : l.keys.Sublist s.store.lru.keys) (hvisit : store.lru = l.visitKey key) :
    (Traced.mk store (s.time + 1) (Function.update s.lastOk key (some s.time))).Ok := by
  have hpast : ∀ k i, Function.update s.lastOk key (some s.time) k = some i → i < s.time + 1 := by
    intro k i hk
    by_cases hkey : k = key
    · rw [hkey, Function.update_self, Option.some.injEq] at hk
      omega
    · rw [Function.update_of_ne hkey] at hk
      exact Nat.lt_succ_of_lt (h.past k i hk)
  have hok : store.lru.Ok := hvisit ▸ hl.visitKey key
  by_cases hloc : key = localIdcKey
  · -- `a` is not listed, so its new time is no one's in the list
    subst hloc
    rw [Lru.keys_visitKey_localIdc] at hvisit
    have hkeys : store.lru.keys.Sublist s.store.lru.keys := by rw [hvisit]; exact hsub
    obtain ⟨hother, horder⟩ := h.others hkeys (fun hin => (h.timed _ (hkeys.subset hin)).1 rfl) s.time
    refine ⟨hok, hpast, fun k hk => ?_, horder⟩
    obtain ⟨hne, i, hi⟩ := h.timed k (hkeys.subset hk)
    exact ⟨hne, i, (hother k hk).trans hi⟩
  · have hkeys : store.lru.keys = key :: l.keys.erase key := by rw [hvisit, hl.keys_visitKey hloc]
    have hrest : (l.keys.erase key).Sublist s.store.lru.keys := List.erase_sublist.trans hsub
    obtain ⟨hother, horder⟩ := h.others hrest (fun hin => (hl.nodup.mem_erase_iff.mp hin).1 rfl) s.time
    refine ⟨hok, hpast, fun k hk => ?_, ?_⟩
    · rw [hkeys] at hk
      rcases List.mem_cons.mp hk with rfl | hk
      · exact ⟨hloc, s.time, Function.update_self ..⟩
      · obtain ⟨hne, i, hi⟩ := h.timed k (hrest.subset hk)
        exact ⟨hne, i, (hother k hk).trans hi⟩
    · unfold ByTime
      rw [hkeys]
      refine List.pairwise_cons.mpr ⟨fun y hy => ?_, horder⟩
      obtain ⟨-, j, hj⟩ := h.timed y (hrest.subset hy)
      exact ⟨s.time, j, Function.update_self .., (hother y hy).trans hj, h.past y j hj⟩

/-- **One call keeps the list in order.** -/
theorem Traced.Ok.step (h : s.Ok) {a : Call × Option Errno} (hstep : tracedStep md5 hashFn s a = some s') :
    s'.Ok := by
  obtain ⟨call, e⟩ := a
  cases call with
  | set key val =>
    obtain ⟨⟨ret, store⟩, hr, rfl⟩ := Option.map_eq_some_iff.mp hstep
    obtain ⟨l, hl, hpre, hlru⟩ := hashTblSet_list (by exact h.lru) hr
    dsimp only at hlru ⊢
    by_cases hret : ret = .ok
    · rw [if_pos hret] at hlru ⊢
      exact h.visit hl hpre.sublist hlru
    · rw [if_neg hret] at hlru ⊢
      exact h.of_sublist (hlru ▸ hl) (hlru ▸ hpre.sublist)
  | remove key =>
    obtain rfl := Option.some.inj hstep
    exact h.of_sublist (by simpa using h.lru) (by simp)
  | clear =>
    obtain rfl := Option.some.inj hstep
    exact h.of_sublist h.lru (List.Sublist.refl _)
  | restart => exact absurd hstep (by simp [tracedStep])

/-! ### The keys -/

variable {K : Set Bytes}

theorem seenAs_inj (hK : KeySet md5 K) {k k' : Bytes} (hk : k ∈ K) (hk' : k' ∈ K) :
    seenAs md5 hashFn n k = seenAs md5 hashFn n k' ↔ k = k' := by
  rw [← hits_iff_seenAs (hK.short k hk)]
  exact hK.separated hashFn n hk' hk

/-- The keys that a set leaves in the table. -/
theorem exist_of_stored (hK : KeySet md5 K) (hn : 0 < n) {store store' : Store} {w : Bytes} {i : Nat}
    (hm : Holds md5 hashFn n store m) (hin : ∀ x ∈ store.lru.keys, x ∈ K) (hkey : key ∈ K)
    (sees : Sees md5 hashFn n store'.tbl
      ((evict md5 hashFn n m store.lru.keys.reverse i).insert (seenAs md5 hashFn n key) w)) {k : Bytes}
    (hk : k ∈ K) : qhasharrExist md5 hashFn store'.tbl k = true ↔
      k = key ∨ (qhasharrExist md5 hashFn store.tbl k = true ∧ k ∉ store.lru.keys.reverse.take i) := by
  have hlen := hK.short k hk
  rw [sees.exist hn hlen, Finmap.mem_insert, seenAs_inj hK hk hkey, mem_evict, hm.sees.exist hn hlen]
  refine or_congr_right (and_congr_right fun _ => ⟨fun h hmem => h k hmem rfl, fun h x hx heq => h ?_⟩)
  have hxK := hin x (List.mem_reverse.mp (List.mem_of_mem_take hx))
  rwa [(seenAs_inj hK hxK hk).mp heq] at hx

theorem mem_drop_iff {L : List Bytes} (h : L.Nodup) (i : Nat) (x : Bytes) :
    x ∈ L.drop i ↔ x ∈ L ∧ x ∉ L.take i := by
  have hsplit := List.take_append_drop i L
  have hmem : x ∈ L ↔ x ∈ L.take i ∨ x ∈ L.drop i := by rw [← List.mem_append, hsplit]
  rw [← hsplit, List.nodup_append] at h
  rw [hmem]
  constructor
  · exact fun hx => ⟨Or.inr hx, fun ht => h.2.2 x ht x hx rfl⟩
  · exact fun ⟨hor, hnot⟩ => hor.resolve_left hnot

/-- **A set keeps the keys of the list those of the table.** -/
theorem Matches.set (hK : KeySet md5 K) (hn : 0 < n) {e : Option Errno} (hm : Holds md5 hashFn n s.store m)
    (h : Matches md5 hashFn K s) (hkey : key ∈ K) {r : Ret × Store}
    (hend : ListEnd md5 hashFn n { s.store with errno := e } m key r) (time : Nat)
    (lastOk : Bytes → Option Nat) : Matches md5 hashFn K ⟨r.2, time, lastOk⟩ := by
  cases hend with
  | same bad => exact h
  | @stored s' w i l ok sees keys visited =>
    have hlist : ∀ x, x ∈ l.keys ↔ x ∈ s.store.lru.keys ∧ x ∉ s.store.lru.keys.reverse.take i := by
      intro x
      rw [keys, List.mem_reverse, mem_drop_iff (List.nodup_reverse.mpr hm.lru.nodup), List.mem_reverse]
    have hvisit : ∀ x, x ∈ s'.lru.keys ↔ (x = key ∧ key ≠ localIdcKey) ∨ x ∈ l.keys := by
      intro x
      rw [visited]
      exact mem_keys_visitKey ok key x
    constructor
    · intro k hk
      rcases (hvisit k).mp hk with ⟨rfl, -⟩ | hk
      · exact hkey
      · exact h.1 k ((hlist k).mp hk).1
    · intro k hk
      rw [hvisit, hlist, h.2 k hk, exist_of_stored hK hn (hm.setErrno e) h.1 hkey sees hk]
      constructor
      · rintro (⟨rfl, hloc⟩ | ⟨⟨hloc, hex⟩, hnot⟩)
        · exact ⟨hloc, Or.inl rfl⟩
        · exact ⟨hloc, Or.inr ⟨hex, hnot⟩⟩
      · rintro ⟨hloc, rfl | ⟨hex, hnot⟩⟩
        · exact Or.inl ⟨rfl, hloc⟩
        · exact Or.inr ⟨⟨hloc, hex⟩, hnot⟩
  | @failed s' m' sees only keys =>
    have hnone : ∀ k, k ∉ s'.lru.keys := by
      intro k hk
      rw [keys] at hk
      exact absurd hk (by simp)
    refine ⟨fun k hk => absurd hk (hnone k), fun k hk => ⟨fun hin => absurd hin (hnone k), ?_⟩⟩
    rintro ⟨hloc, hex⟩
    have hseen := only _ ((sees.exist hn (hK.short k hk)).mp hex)
    rw [seenAs_eq_short (by decide)] at hseen
    exact absurd hseen hloc

end

end QConf.Shm
