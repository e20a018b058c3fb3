import QConf.Base.Qhasharr.Invariant

/-!
# When a put finds room

The slots in use are those the values of the map take (`usedSlots`), so whether
`qhasharr_put` succeeds is a property of the map: a slot has to be free before
the old value of the key is taken away, and afterwards there have to be enough
for the new one (`Fits`).  A put that fails behind the first test has lost the
old value.
-/

namespace QConf.Qhasharr

/-- The slots the values of a map take. -/
def usedSlots (m : BytesMap) : Nat := ∑ k ∈ m.keys, slotsFor ((m.lookup k).getD []).length

/-- There is room for a value of `len` bytes under `key` in a table of `n` slots. -/
def Fits (n : Nat) (m : BytesMap) (key : Bytes) (len : Nat) : Prop :=
  usedSlots m < n ∧ usedSlots (m.erase key) + slotsFor len ≤ n

instance (n : Nat) (m : BytesMap) (key : Bytes) (len : Nat) : Decidable (Fits n m key len) :=
  inferInstanceAs (Decidable (_ ∧ _))

section

variable {md5 : Bytes → Bytes} {hashFn : Bytes → Nat} {n : Nat} {K : Set Bytes} {t : Tbl}
  {m : BytesMap} {es : List Entry} {key : Bytes}

/-! ### The slots of a map -/

theorem keys_erase (m : BytesMap) (key : Bytes) : (m.erase key).keys = m.keys.erase key := by
  ext k
  simp [Finmap.mem_keys]

theorem usedSlots_erase (m : BytesMap) (key : Bytes) :
    usedSlots (m.erase key) = ∑ k ∈ m.keys.erase key, slotsFor ((m.lookup k).getD []).length := by
  rw [usedSlots, keys_erase]
  refine Finset.sum_congr rfl (fun k hk => ?_)
  rw [Finmap.lookup_erase_ne (Finset.ne_of_mem_erase hk)]

theorem usedSlots_erase_le (m : BytesMap) (key : Bytes) : usedSlots (m.erase key) ≤ usedSlots m := by
  rw [usedSlots_erase]
  exact Finset.sum_le_sum_of_subset (Finset.erase_subset _ _)

theorem usedSlots_erase_add {v : Bytes} (hv : m.lookup key = some v) :
    usedSlots (m.erase key) + slotsFor v.length = usedSlots m := by
  have hmem : key ∈ m.keys := Finmap.mem_keys.mpr (Finmap.lookup_isSome.mp (by rw [hv]; rfl))
  have hone : slotsFor ((m.lookup key).getD []).length = slotsFor v.length := by
    rw [hv, Option.getD_some]
  rw [usedSlots_erase, ← hone]
  exact Finset.sum_erase_add _ _ hmem

/-- Contents that list a map take the slots of the map. -/
theorem slotsOf_eq_usedSlots {c : List (Bytes × Bytes)} (hnd : (c.map Prod.fst).Nodup)
    (hmem : ∀ k v, (k, v) ∈ c ↔ m.lookup k = some v) : slotsOf c = usedSlots m := by
  have hkeys : m.keys = (c.map Prod.fst).toFinset := by
    ext k
    rw [Finmap.mem_keys, ← Finmap.lookup_isSome, Option.isSome_iff_exists, List.mem_toFinset,
      List.mem_map]
    constructor
    · rintro ⟨v, hv⟩
      exact ⟨(k, v), (hmem k v).mpr hv, rfl⟩
    · rintro ⟨⟨k, v⟩, hkv, rfl⟩
      exact ⟨v, (hmem k v).mp hkv⟩
  rw [usedSlots, hkeys, List.sum_toFinset _ hnd, slotsOf, List.map_map]
  congr 1
  refine List.map_congr_left (fun kv hkv => ?_)
  rw [Function.comp_apply, (hmem kv.1 kv.2).mp hkv, Option.getD_some]

theorem Refines.usedslots (h : Refines md5 hashFn n K t m) : t.usedslots = usedSlots m := by
  obtain ⟨es, hrep, hnd, hmem⟩ := h.entries
  rw [hrep.usedslots, hrep.used_length, slotsOf_eq_usedSlots hnd hmem]

theorem Refines.usedSlots_le (h : Refines md5 hashFn n K t m) : usedSlots m ≤ n := by
  obtain ⟨es, hrep, hnd, hmem⟩ := h.entries
  have hle := hrep.used_length_le
  rwa [hrep.used_length, slotsOf_eq_usedSlots hnd hmem, h.maxslots] at hle

/-! ### Put and remove, on the map -/

/-- **`qhasharr_put` succeeds exactly when there is room.**  Without room it fails
with `ENOBUFS`, and if a slot was free the old value of the key is gone. -/
theorem Refines.put (h : Refines md5 hashFn n K t m) (hn : 0 < n) (hK : Separated md5 hashFn n K)
    {value : Bytes} (hkey : key ∈ K) (hv : value ≠ [])
    (hmates : (bucketMates hashFn n m key).card < 32767) :
    (Fits n m key value.length → (qhasharrPut md5 hashFn t key value).1 = .ok () ∧
      Refines md5 hashFn n K (qhasharrPut md5 hashFn t key value).2 (m.insert key value)) ∧
    (¬ Fits n m key value.length →
      (qhasharrPut md5 hashFn t key value).1 = .error (some .enobufs) ∧
      Refines md5 hashFn n K (qhasharrPut md5 hashFn t key value).2
        (if usedSlots m < n then m.erase key else m)) := by
  obtain ⟨es, hrep, hnd, hmem⟩ := h.entries
  obtain rfl := h.maxslots
  have hp := hrep.put hn hv (by rw [others_eq hK h.keys hnd hmem hkey]; exact hmates)
  have hslots : slotsOf (contents es) = usedSlots m := slotsOf_eq_usedSlots hnd hmem
  have hkept := mem_kept_iff hK hkey (entry_key_mem hmem h.keys)
  have hsub : (kept md5 hashFn t.maxslots key (contents es)).Sublist (contents es) := kept_sublist
  have hndk := hnd.sublist (hsub.map Prod.fst)
  have hmemk : ∀ k v, (k, v) ∈ kept md5 hashFn t.maxslots key (contents es) ↔
      (m.erase key).lookup k = some v := fun k v => by
    rw [hkept, lookup_erase_iff, hmem, and_comm]
  have hslotsk := slotsOf_eq_usedSlots hndk hmemk
  generalize qhasharrPut md5 hashFn t key value = r at hp ⊢
  obtain ⟨rep, t'⟩ := r
  cases rep with
  | ok u =>
    obtain ⟨hfree, es', hrep', hc⟩ := hp.ok rfl
    -- what is stored now fits, so it was room enough
    have hle := hrep'.used_length_le
    rw [hrep'.used_length, slotsOf_perm hc, slotsOf_cons, hp.maxslots] at hle
    refine ⟨fun _ => ⟨rfl, h.put_ok hK hkey hnd hmem hp rfl⟩, fun hno => absurd ⟨?_, ?_⟩ hno⟩
    · omega
    · change slotsFor value.length + _ ≤ _ at hle
      omega
  | error er =>
    obtain ⟨rfl, es', hrep', ⟨hfull, hc⟩ | ⟨hfree, hfull, hc⟩⟩ := hp.error er rfl
    · -- the table was full
      refine ⟨fun hfit => absurd hfit.1 (by omega), fun _ => ⟨rfl, ?_⟩⟩
      rw [if_neg (by omega)]
      exact h.same hnd hmem hp.maxslots hrep' hc
    · -- the key's own entry is gone
      refine ⟨fun hfit => absurd hfit.2 (by omega), fun _ => ⟨rfl, ?_⟩⟩
      rw [if_pos (by omega)]
      exact h.gone hK hkey hnd hmem hp.maxslots hrep' hc

theorem Refines.remove (h : Refines md5 hashFn n K t m) (hn : 0 < n) (hK : Separated md5 hashFn n K)
    (hkey : key ∈ K) :
    ((qhasharrRemove md5 hashFn t key).1 = .ok () ∨
      (qhasharrRemove md5 hashFn t key).1 = .error (some .enoent)) ∧
    Refines md5 hashFn n K (qhasharrRemove md5 hashFn t key).2 (m.erase key) := by
  obtain ⟨es, hrep, hnd, hmem⟩ := h.entries
  obtain rfl := h.maxslots
  rcases hrep.remove hn key with ⟨hno, hr⟩ | ⟨e, he, hhit, t', es', hr, hmax, hrep', hc⟩
  · rw [hr]
    refine ⟨Or.inr rfl, ?_⟩
    have hnot : key ∉ m := fun hin => by
      have := ((h.answers hn hK hkey).2.2).mpr hin
      rw [hr] at this
      exact absurd this (by simp)
    rw [erase_of_notMem hnot]
    exact h
  · rw [hr]
    exact ⟨Or.inl rfl, h.remove_ok hK hkey hnd hmem he hhit hmax hrep' hc⟩

/-! ### The keys of a bucket -/

/-- The bound on the keys of a bucket, counted in the slots, bounds them in the map. -/
theorem Refines.mates_lt (h : Refines md5 hashFn n K t m) (hn : 0 < n) (hK : Separated md5 hashFn n K)
    (hkey : key ∈ K) (hb : bucketKeys t (hashFn key % n) +
      (if qhasharrExist md5 hashFn t key then 0 else 1) ≤ 32767) :
    (bucketMates hashFn n m key).card < 32767 := by
  obtain ⟨es, hrep, hnd, hmem⟩ := h.entries
  obtain rfl := h.maxslots
  rw [← others_eq hK h.keys hnd hmem hkey]
  exact hrep.others_lt hn hb

theorem bucketMates_erase_le (m : BytesMap) (key k : Bytes) :
    (bucketMates hashFn n (m.erase k) key).card ≤ (bucketMates hashFn n m key).card := by
  refine Finset.card_le_card (Finset.filter_subset_filter _ (fun x hx => ?_))
  simp only [Finmap.mem_keys, Finmap.mem_erase] at hx ⊢
  exact ⟨hx.1, hx.2.2⟩

end

end QConf.Qhasharr
