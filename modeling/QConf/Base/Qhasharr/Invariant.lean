import QConf.Base.Qhasharr.FiniteMap
import QConf.Lib.Transition

/-!
# The representation invariant over whole runs

`Invariant md5 hashFn t es` says of the slots, as they stand in the array, that the
entries `es` account for all of them.  It holds in every state that puts, removes
and clears lead to, whether they succeed or fail (`qhasharr_run_invariant`).

The source guards against a table that breaks the invariant: several helpers
report `EFAULT`, some callers ignore it, and the loops along a chain give up
after `maxslots` links.  The predicates `…Faults` follow the control flow of the
operations and say that one of these branches is taken on the way.
-/

namespace QConf.Qhasharr

open SlotChain Transition

/-! ### The invariant of the slots -/

/-- **The representation invariant**, read off the slots of the table. -/
structure Invariant (md5 : Bytes → Bytes) (hashFn : Bytes → Nat) (t : Tbl) (es : List Entry) :
    Prop where
  /-- every used slot belongs to a chain, and the slots of the chains are used -/
  covered : ∀ i, (t.slots i).count ≠ 0 ↔ ∃ e ∈ es, i ∈ e.slots
  bounded : ∀ i, (t.slots i).count ≠ 0 → i < t.maxslots
  /-- no slot belongs to two chains -/
  disjoint : ∀ e ∈ es, ∀ f ∈ es, ∀ i ∈ e.slots, i ∈ f.slots → e = f
  distinct : es.Nodup
  starts : ∀ e ∈ es, 0 < (t.slots e.head).count ∨ (t.slots e.head).count = -1
  continues : ∀ e ∈ es, ∀ i ∈ e.tail, (t.slots i).count = -2
  linked : ∀ e ∈ es, e.slots.IsChain (fun i j => (t.slots i).link = (j : Int))
  ends : ∀ e ∈ es, (t.slots e.last).link = -1
  acyclic : ∀ e ∈ es, e.slots.Nodup
  /-- the `hash` of an extension slot is the index of the slot that links to it -/
  back : ∀ i, (t.slots i).count = -2 →
    (t.slots (t.slots i).hash).count ≠ 0 ∧ (t.slots (t.slots i).hash).link = (i : Int)
  /-- a first slot keeps the key, cut and with its MD5, and the index it hashes to -/
  holds : ∀ e ∈ es, (t.slots e.head).HoldsKey md5 e.key
  home : ∀ e ∈ es, (t.slots e.head).hash = e.bucket hashFn t.maxslots
  /-- a leading slot stands at this index and counts the entries of the bucket -/
  lead : ∀ i, 0 < (t.slots i).count →
    (t.slots i).hash = i ∧ (t.slots i).count = members hashFn t.maxslots i es
  /-- the other entries of the bucket are its collision slots -/
  collisions : ∀ i, 0 < (t.slots i).count →
    (((List.range t.maxslots).countP
      (fun j => (t.slots j).count = -1 ∧ (t.slots j).hash = i) : Nat) : Int) = (t.slots i).count - 1
  collision : ∀ i, (t.slots i).count = -1 → 0 < (t.slots (t.slots i).hash).count
  usedslots : t.usedslots = ((List.range t.maxslots).countP (fun i => (t.slots i).count ≠ 0) : Nat)
  num : t.num = es.length

/-! ### The branches that report a broken table -/

/-- `_copy_slot` reports `EFAULT`. -/
def CopySlotFaults (t : Tbl) (idx1 idx2 : Nat) : Prop :=
  (t.slots idx1).count ≠ 0 ∨ (t.slots idx2).count = 0

/-- The loop of `_remove_data` meets a free slot, or its `loop_count` guard. -/
def RemoveLoopFaults : Nat → Tbl → Nat → Prop
  | 0, t, idx => (t.slots idx).count = 0 ∨ (t.slots idx).link ≠ -1
  | fuel + 1, t, idx => (t.slots idx).count = 0 ∨
    (t.slots idx).link ≠ -1 ∧ RemoveLoopFaults fuel (removeSlot t idx) (t.slots idx).link.toNat

/-- `_remove_data` reports `EFAULT`, or its loop does. -/
def RemoveDataFaults (t : Tbl) (idx : Nat) : Prop :=
  (t.slots idx).count = 0 ∨ RemoveLoopFaults t.maxslots t idx

/-- The loop of `_put_data` undoes a chain, and that goes wrong. -/
def PutLoopFaults (value : Bytes) (idx : Nat) : Nat → Tbl → Nat → Nat → Prop
  | 0, _, _, _ => False
  | fuel + 1, t, newidx, savesize =>
    savesize < value.length ∧
      if savesize > 0 then
        match findEmpty t (newidx + 1) with
        | none => RemoveDataFaults t idx
        | some tmpidx =>
          PutLoopFaults value idx fuel
            (copyChunk (linkSlot t newidx tmpidx) tmpidx (value.drop savesize)) tmpidx
            (savesize + copysize ((linkSlot t newidx tmpidx).slots tmpidx) (value.drop savesize))
      else
        PutLoopFaults value idx fuel (copyChunk t newidx value) newidx
          (copysize (t.slots newidx) value)

/-- `_put_data` reports `EFAULT`, or its loop goes wrong. -/
def PutDataFaults (md5 : Bytes → Bytes) (t : Tbl) (idx hash : Nat) (key value : Bytes)
    (count : Int) : Prop :=
  (t.slots idx).count ≠ 0 ∨
    PutLoopFaults value idx (value.length + 1) (storeKey md5 t idx hash key count) idx 0

/-- A call of `qhasharr_remove` takes one of its `EFAULT` branches, or one of a
helper's. -/
def RemoveFaults (md5 : Bytes → Bytes) (hashFn : Bytes → Nat) (t : Tbl) (key : Bytes) : Prop :=
  t.maxslots ≠ 0 ∧
    match getIdx md5 t key (hashFn key % t.maxslots) with
    | none => False
    | some idx =>
      if (t.slots idx).count = 1 then RemoveDataFaults t idx
      else if (t.slots idx).count > 1 then
        match findDup t (hashFn key % t.maxslots) idx with
        | none => True
        | some idx2 => RemoveDataFaults t idx ∨ CopySlotFaults (removeData t idx) idx idx2 ∨
            ((copySlot (removeData t idx) idx idx2).slots idx2).count = 0
      else if (t.slots idx).count = -1 then
        (t.slots (t.slots idx).hash).count ≤ 1 ∨
          RemoveDataFaults (t.setSlot (t.slots idx).hash { t.slots (t.slots idx).hash with
            count := (t.slots (t.slots idx).hash).count - 1 }) idx
      else False

/-- A call of `qhasharr_put` takes one of these branches, in itself, in a call of
itself or in a helper, or never stops calling itself. -/
def PutFaults (md5 : Bytes → Bytes) (hashFn : Bytes → Nat) : Nat → Tbl → Bytes → Bytes → Prop
  | 0, _, _, _ => True
  | fuel + 1, t, key, value =>
    t.maxslots ≠ 0 ∧ ¬ t.usedslots ≥ t.maxslots ∧
      let hash := hashFn key % t.maxslots
      if (t.slots hash).count = 0 then PutDataFaults md5 t hash hash key value 1
      else if (t.slots hash).count > 0 then
        match getIdx md5 t key hash with
        | some _ => RemoveFaults md5 hashFn t key ∨
            PutFaults md5 hashFn fuel (qhasharrRemove md5 hashFn t key).2 key value
        | none =>
          match findEmpty t hash with
          | none => False
          | some idx => PutDataFaults md5 t idx hash key value (-1)
      else
        match findEmpty t (hash + 1) with
        | none => False
        | some idx => CopySlotFaults t idx hash ∨ ((copySlot t idx hash).slots hash).count = 0 ∨
            PutDataFaults md5 (relink (removeSlot (copySlot t idx hash) hash) idx) hash hash key
              value 1

section

variable {md5 : Bytes → Bytes} {hashFn : Bytes → Nat} {t t' : Tbl} {es : List Entry} {e : Entry}

theorem removeLoop_sound : ∀ (fuel : Nat) {t : Tbl} {i : Nat} {rest : List Nat},
    Chain t.nxt t.prv i rest → (i :: rest).Nodup → (∀ j ∈ i :: rest, (t.slots j).count ≠ 0) →
    rest.length ≤ fuel → ¬ RemoveLoopFaults fuel t i := by
  intro fuel
  induction fuel with
  | zero =>
    rintro t i rest h _ hc hlen (h0 | hl)
    · exact hc i (by simp) h0
    · rw [List.length_eq_zero_iff.mp (Nat.le_zero.mp hlen)] at h
      exact hl (Tbl.link_of_nxt_none h)
  | succ fuel ih =>
    rintro t i rest h hnd hc hlen (h0 | ⟨hl, hf⟩)
    · exact hc i (by simp) h0
    cases rest with
    | nil => exact hl (Tbl.link_of_nxt_none h)
    | cons j rest =>
      obtain ⟨-, hj⟩ := Tbl.link_of_nxt_some h.1
      obtain ⟨hi, hnd'⟩ := List.nodup_cons.mp hnd
      have hframe : ∀ k ∈ j :: rest, (freeSlots t [i]).slots k = t.slots k := fun k hk =>
        freeSlots_slots_of_not_mem (fun hm => hi (List.mem_singleton.mp hm ▸ hk))
      rw [hj, removeSlot_eq (hc i (by simp))] at hf
      refine ih ?_ hnd' ?_ (by simpa using hlen) hf
      · refine h.2.2.congr (fun k hk => Slot.nxt_congr (by rw [hframe k hk])) (fun k hk => ?_)
        rw [Tbl.prv, Tbl.prv, hframe k (List.mem_cons_of_mem _ hk)]
      · intro k hk
        rw [hframe k hk]
        exact hc k (List.mem_cons_of_mem _ hk)

theorem Layout.removeData_sound (h : Layout md5 t es) (he : e ∈ es) :
    ¬ RemoveDataFaults t e.head := by
  have hc : ∀ i ∈ e.slots, (t.slots i).count ≠ 0 := fun i hi =>
    h.count_ne_zero (mem_used.mpr ⟨e, he, hi⟩)
  rintro (h0 | hf)
  · exact hc _ e.head_mem h0
  · exact removeLoop_sound _ (h.entry e he).chain (h.slots_nodup he) hc (h.tail_length_le he) hf

theorem putLoop_sound (value : Bytes) (hv : value ≠ []) : ∀ (fuel : Nat) {t : Tbl} {e : Entry},
    Layout md5 t (e :: es) → e.value = value.take e.capacity →
    ¬ PutLoopFaults value e.head fuel t e.last e.value.length := by
  intro fuel
  induction fuel with
  | zero => exact fun _ _ hf => hf
  | succ fuel ih =>
    rintro t e h hpre ⟨hdone, hf⟩
    have hpos : 0 < e.value.length := by
      have hvpos := List.length_pos_iff.mpr hv
      have hcap : 0 < e.capacity := Nat.lt_of_lt_of_le (by decide) (Nat.le_add_right _ _)
      rw [hpre, List.length_take]
      omega
    have hn : 0 < t.maxslots :=
      Nat.lt_of_le_of_lt (Nat.zero_le _) (h.lt e.head (List.mem_append_left _ e.head_mem))
    rw [if_pos hpos] at hf
    cases hfe : findEmpty t (e.last + 1) with
    | none =>
      rw [hfe] at hf
      exact h.removeData_sound (by simp) hf
    | some tmp =>
      rw [hfe] at hf
      obtain ⟨hlt, hc0⟩ := findEmpty_some hn hfe
      obtain ⟨e', hlay, hpre', -, hhd, hlast, -, hlen⟩ :=
        h.round hpre hdone hlt (fun hm => h.count_ne_zero hm hc0)
      have hrec := ih hlay hpre'
      rw [hhd, hlast, hlen] at hrec
      exact hrec hf

theorem Layout.putData_sound (h : Layout md5 t es) (hash : Nat) (key : Bytes) (c : Int) {idx : Nat}
    {value : Bytes} (hlt : idx < t.maxslots) (hi : idx ∉ used es) (hc : 0 < c ∨ c = -1)
    (hv : value ≠ []) : ¬ PutDataFaults md5 t idx hash key value c := by
  have hc2 : c ≠ -2 := by omega
  have hsize : copysize ((storeKey md5 t idx hash key c).slots idx) value =
      (value.take valuesize).length := by
    simp [storeKey, copysize, hc2, Nat.min_comm]
  rintro (h0 | ⟨-, hf⟩)
  · exact h0 (h.empty idx hi)
  · rw [if_neg (by omega), hsize] at hf
    exact putLoop_sound value hv value.length (h.start hash key value hlt hi hc)
      (by simp [Entry.capacity]) hf

/-- **A remove takes no `EFAULT` branch and no guard.** -/
theorem Rep.remove_sound (h : Rep md5 hashFn t es) (key : Bytes) :
    ¬ RemoveFaults md5 hashFn t key := by
  rintro ⟨hn, hf⟩
  cases hidx : getIdx md5 t key (hashFn key % t.maxslots) with
  | none => rw [hidx] at hf; exact hf
  | some idx =>
    rw [hidx] at hf
    dsimp only at hf
    obtain ⟨e, he, rfl, hhit⟩ := h.getIdx_some (by omega) hidx
    have hrep := h.perm (List.perm_cons_erase he)
    have hbucket : e.bucket hashFn t.maxslots = hashFn key % t.maxslots := by
      simp only [hits, Bool.and_eq_true, beq_iff_eq] at hhit
      exact hhit.1
    split at hf
    · exact h.removeData_sound he hf
    · split at hf
      · next h2 =>
        obtain ⟨f, hfm, hdup, -, -⟩ := hrep.findDup_some h2
        rw [← hbucket, hdup] at hf
        have hfu : f.head ∈ used (es.erase e) := mem_used.mpr ⟨f, hfm, f.head_mem⟩
        have hlay := hrep.toLayout.removeData
        have hempty : ((removeData t e.head).slots e.head).count = 0 :=
          hlay.empty _ (fun hu => hrep.not_mem_of_mem hu e.head_mem)
        have hne : f.head ≠ e.head := fun hfe =>
          hrep.not_mem_of_mem hfu (hfe ▸ e.head_mem)
        rcases hf with hf | hf | hf
        · exact h.removeData_sound he hf
        · exact hf.elim (fun h0 => h0 hempty) (hlay.count_ne_zero hfu)
        · rw [copySlot, if_neg (by simp [hempty, hlay.count_ne_zero hfu])] at hf
          exact hlay.count_ne_zero hfu (by simpa [Tbl.setSlot, hne] using hf)
      · split at hf
        · next hc =>
          obtain ⟨hnot, -⟩ := hrep.remove_collision hc
          rcases hf with hf | hf
          · exact hnot hf
          · obtain ⟨l, hl, hlh, -⟩ := h.lead e he
            rw [h.home e he, ← hlh] at hf hnot
            exact (h.toLayout.setCount hl (by omega)).removeData_sound he hf
        · exact hf

theorem Rep.put_absent_sound (h : Rep md5 hashFn t es) {key value : Bytes} (hv : value ≠ [])
    (hno : ∀ e ∈ es, hits md5 hashFn t.maxslots key e.key = false) (fuel : Nat) :
    ¬ PutFaults md5 hashFn (fuel + 1) t key value := by
  rintro ⟨hn, -, hf⟩
  have hn' : 0 < t.maxslots := Nat.pos_of_ne_zero hn
  obtain ⟨hash, hash_eq⟩ : ∃ hash, hash = hashFn key % t.maxslots := ⟨_, rfl⟩
  have hlt : hash < t.maxslots := hash_eq ▸ Nat.mod_lt _ hn'
  rw [← hash_eq] at hf
  dsimp only at hf
  split at hf
  · next h0 =>
    exact h.toLayout.putData_sound hash key 1 hlt (fun hu => h.count_ne_zero hu h0)
      (Or.inl (by decide)) hv hf
  next h0 =>
  split at hf
  · cases hidx : getIdx md5 t key hash with
    | some i =>
      obtain ⟨e, he, _, hhit⟩ := h.getIdx_some hn' (hash_eq ▸ hidx)
      exact absurd hhit (by simp [hno e he])
    | none =>
      rw [hidx] at hf
      cases hfe : findEmpty t hash with
      | none => rw [hfe] at hf; exact hf
      | some idx =>
        rw [hfe] at hf
        obtain ⟨hilt, hi0⟩ := findEmpty_some hn' hfe
        exact h.toLayout.putData_sound hash key (-1) hilt (fun hu => h.count_ne_zero hu hi0)
          (Or.inr rfl) hv hf
  · next hpos =>
    cases hfe : findEmpty t (hash + 1) with
    | none => rw [hfe] at hf; exact hf
    | some idx =>
      rw [hfe] at hf
      obtain ⟨hilt, hi0⟩ := findEmpty_some hn' hfe
      have hu : idx ∉ used es := fun hu => h.count_ne_zero hu hi0
      have hneg : (t.slots hash).count < 0 := by omega
      have hne : hash ≠ idx := fun he => h0 (he ▸ hi0)
      have hm := h.toLayout.displaced (h.mem_used_iff.mpr h0) hu hneg
      have hrep := h.displace hneg hu hilt hm
      rcases hf with hf | hf | hf
      · exact hf.elim (fun h1 => h1 hi0) h0
      · rw [copySlot, if_neg (by simp [hi0, h0])] at hf
        exact h0 (by simpa [Tbl.setSlot, hne] using hf)
      · exact hrep.toLayout.putData_sound hash key 1 (by rw [hm.maxslots]; exact hlt)
          (fun hm' => hrep.count_ne_zero hm' hm.gone) (Or.inl (by decide)) hv hf

/-- **A put takes no `EFAULT` branch and no guard**, and stops calling itself. -/
theorem Rep.putAux_sound {key value : Bytes} (hv : value ≠ []) : ∀ (fuel : Nat) {t : Tbl}
    {es : List Entry}, Rep md5 hashFn t es →
    (contents es).countP (fun kv => hits md5 hashFn t.maxslots key kv.1) < fuel →
    ¬ PutFaults md5 hashFn fuel t key value := by
  intro fuel
  induction fuel with
  | zero => intro t es _ hf; exact absurd hf (by omega)
  | succ fuel ih =>
    intro t es h hfuel hf
    have hn : 0 < t.maxslots := Nat.pos_of_ne_zero hf.1
    rcases h.remove hn key with ⟨hno, _⟩ | ⟨e, he, hhit, t1, es1, hrem, hmax, hrep, hperm⟩
    · exact h.put_absent_sound hv hno fuel hf
    obtain ⟨-, -, hf⟩ := hf
    have hbucket : e.bucket hashFn t.maxslots = hashFn key % t.maxslots := by
      simp only [hits, Bool.and_eq_true, beq_iff_eq] at hhit
      exact hhit.1
    have hpos := h.bucket_nonempty_iff.mp ⟨e, he, hbucket⟩
    obtain ⟨i, hidx⟩ : ∃ i, getIdx md5 t key (hashFn key % t.maxslots) = some i := by
      cases hi : getIdx md5 t key (hashFn key % t.maxslots) with
      | none => exact absurd hhit (by simp [h.getIdx_none hn hi e he])
      | some i => exact ⟨i, rfl⟩
    dsimp only at hf
    rw [if_neg (by omega), if_pos hpos, hidx, hrem] at hf
    rcases hf with hf | hf
    · exact h.remove_sound key hf
    · refine ih hrep ?_ hf
      rw [hperm.countP_eq, List.countP_cons_of_pos (by simpa using hhit)] at hfuel
      rw [hmax]
      omega

/-! ### Links are indices or `-1` -/

/-- Every `link` is `-1` or an index. -/
def Tbl.LinksOk (t : Tbl) : Prop := ∀ i, -1 ≤ (t.slots i).link

theorem Tbl.LinksOk.setSlot (h : t.LinksOk) (i : Nat) {s : Slot} (hs : -1 ≤ s.link) :
    (t.setSlot i s).LinksOk := by
  intro j
  by_cases hj : j = i
  · rw [hj, setSlot_slots_self]
    exact hs
  · rw [setSlot_slots_of_ne _ _ hj]
    exact h j

theorem Tbl.LinksOk.setCount (h : t.LinksOk) (i : Nat) (c : Int) :
    (t.setSlot i { t.slots i with count := c }).LinksOk := h.setSlot i (h i)

theorem Tbl.LinksOk.removeSlot (h : t.LinksOk) (i : Nat) : (removeSlot t i).LinksOk := by
  unfold Qhasharr.removeSlot
  split
  · exact h
  · exact h.setSlot i (h i)

theorem Tbl.LinksOk.removeLoop : ∀ (fuel : Nat) {t : Tbl} (i : Nat), t.LinksOk →
    (removeLoop fuel t i).LinksOk := by
  intro fuel
  induction fuel with
  | zero => exact fun i h => h.removeSlot i
  | succ fuel ih =>
    intro t i h
    simp only [Qhasharr.removeLoop]
    split
    · exact h.removeSlot i
    · exact ih _ (h.removeSlot i)

theorem Tbl.LinksOk.removeData (h : t.LinksOk) (i : Nat) : (removeData t i).LinksOk := by
  unfold Qhasharr.removeData
  split
  · exact h
  · exact Tbl.LinksOk.removeLoop _ i h

theorem Tbl.LinksOk.copySlot (h : t.LinksOk) (a b : Nat) : (copySlot t a b).LinksOk := by
  unfold Qhasharr.copySlot
  split
  · exact h
  · exact h.setSlot a (h b)

theorem Tbl.LinksOk.fixNext (h : t.LinksOk) (i : Nat) : (fixNext t i).LinksOk := by
  unfold Qhasharr.fixNext
  split
  · exact h.setSlot _ (h _)
  · exact h

theorem Tbl.LinksOk.relink (h : t.LinksOk) (i : Nat) : (relink t i).LinksOk := by
  unfold Qhasharr.relink
  split
  · exact (h.setSlot _ (by dsimp only; omega)).fixNext i
  · split
    · exact h.fixNext i
    · exact h

theorem Tbl.LinksOk.copyChunk (h : t.LinksOk) (i : Nat) (rest : Bytes) :
    (copyChunk t i rest).LinksOk := by
  unfold Qhasharr.copyChunk
  dsimp only
  split <;> exact h.setSlot i (h i)

theorem Tbl.LinksOk.linkSlot (h : t.LinksOk) (i j : Nat) : (linkSlot t i j).LinksOk :=
  (h.setSlot j (Int.le_refl _)).setSlot i (by dsimp only; omega)

theorem Tbl.LinksOk.putLoop (value : Bytes) (idx : Nat) : ∀ (fuel : Nat) {t : Tbl} (i n : Nat),
    t.LinksOk → (putLoop value idx fuel t i n).2.LinksOk := by
  intro fuel
  induction fuel with
  | zero => exact fun _ _ h => h
  | succ fuel ih =>
    intro t i n h
    simp only [Qhasharr.putLoop]
    split
    · split
      · split
        · exact h.removeData idx
        · exact ih _ _ ((h.linkSlot i _).copyChunk _ _)
      · exact ih _ _ (h.copyChunk i value)
    · exact h

theorem Tbl.LinksOk.putData (h : t.LinksOk) (idx hash : Nat) (key value : Bytes) (c : Int) :
    (putData md5 t idx hash key value c).2.LinksOk := by
  unfold Qhasharr.putData
  split
  · exact h
  · exact Tbl.LinksOk.putLoop value idx _ idx 0 (h.setSlot idx (Int.le_refl _))

theorem Tbl.LinksOk.remove (h : t.LinksOk) (key : Bytes) :
    (qhasharrRemove md5 hashFn t key).2.LinksOk := by
  unfold qhasharrRemove
  dsimp only
  split
  · exact h
  split
  · exact h
  split
  · exact h.removeData _
  split
  · split
    · exact h
    · exact ((((h.removeData _).copySlot _ _).removeSlot _).setCount _ _).fixNext _
  split
  · split
    · exact h
    · exact (h.setCount _ _).removeData _
  · exact h

theorem Tbl.LinksOk.putAux (key value : Bytes) : ∀ (fuel : Nat) {t : Tbl}, t.LinksOk →
    (putAux md5 hashFn fuel t key value).2.LinksOk := by
  intro fuel
  induction fuel with
  | zero => exact fun h => h
  | succ fuel ih =>
    intro t h
    simp only [Qhasharr.putAux]
    split
    · exact h
    split
    · exact h
    split
    · exact h.putData _ _ _ _ _
    split
    · split
      · have hrem : (qhasharrRemove md5 hashFn t key).2.LinksOk := h.remove key
        split
        · next heq => rw [heq] at hrem; exact hrem
        · next heq => rw [heq] at hrem; exact ih hrem
      · split
        · exact h
        · next idx _ =>
          have hput : (Qhasharr.putData md5 t idx (hashFn key % t.maxslots) key value (-1)).2.LinksOk :=
            h.putData _ _ _ _ _
          split
          · next heq => rw [heq] at hput; exact hput
          · next heq => rw [heq] at hput; exact hput.setCount _ _
    · split
      · exact h
      · exact (((h.copySlot _ _).removeSlot _).relink _).putData _ _ _ _ _

theorem Tbl.LinksOk.exec (h : t.LinksOk) (op : Op) : (op.exec md5 hashFn t).2.LinksOk := by
  cases op with
  | put key value => exact Tbl.LinksOk.putAux key value _ h
  | remove key => exact h.remove key
  | clear =>
    change (qhasharrClear t).LinksOk
    unfold qhasharrClear
    split
    · exact h
    · exact fun _ => show -1 ≤ Slot.zero.link by decide

/-! ### The invariant of a represented table -/

theorem chain_isChain (hl : t.LinksOk) : ∀ {i : Nat} {rest : List Nat}, Chain t.nxt t.prv i rest →
    (i :: rest).IsChain (fun i j => (t.slots i).link = (j : Int)) := by
  intro i rest
  induction rest generalizing i with
  | nil => exact fun _ => List.IsChain.singleton i
  | cons j rest ih =>
    intro h
    obtain ⟨hne, hj⟩ := Tbl.link_of_nxt_some h.1
    have hge := hl i
    exact List.IsChain.cons_cons (by omega) (ih h.2.2)

theorem chain_last : ∀ {i : Nat} {rest : List Nat}, Chain t.nxt t.prv i rest →
    (t.slots ((i :: rest).getLast (by simp))).link = -1 := by
  intro i rest
  induction rest generalizing i with
  | nil => exact fun h => Tbl.link_of_nxt_none h
  | cons j rest ih =>
    intro h
    rw [List.getLast_cons_cons]
    exact ih h.2.2

/-- The slots in use, counted in the array. -/
theorem Layout.countP_used (h : Layout md5 t es) :
    (List.range t.maxslots).countP (fun i => (t.slots i).count ≠ 0) = (used es).length := by
  rw [List.countP_eq_length_filter]
  refine List.Perm.length_eq ((List.perm_ext_iff_of_nodup ?_ h.nodup).mpr (fun i => ?_))
  · exact List.nodup_range.filter _
  · rw [List.mem_filter, List.mem_range, h.mem_used_iff, decide_eq_true_eq]
    exact ⟨fun hi => hi.2, fun hi => ⟨h.lt i (h.mem_used_iff.mpr hi), hi⟩⟩

/-- How many slots of the array hold a key of the bucket. -/
def bucketKeys (t : Tbl) (b : Nat) : Nat :=
  (List.range t.maxslots).countP (fun i => (t.slots i).inBucket b)

theorem Rep.bucketKeys_eq (h : Rep md5 hashFn t es) (b : Nat) :
    bucketKeys t b = members hashFn t.maxslots b es := by
  rw [← h.countP_inBucket (Nat.zero_le _), bucketKeys, (Ring.rotation_perm (Nat.zero_le _)).countP_eq]

/-- A leading slot and the collision slots of its bucket are its members. -/
theorem Rep.collisions (h : Rep md5 hashFn t es) {i : Nat} (hi : 0 < (t.slots i).count) :
    (List.range t.maxslots).countP (fun j => (t.slots j).count = -1 ∧ (t.slots j).hash = i) + 1 =
      members hashFn t.maxslots i es := by
  obtain ⟨e, he, rfl⟩ := h.exists_head (Or.inl hi)
  have hlead := (h.head_eq_bucket_iff he).mpr hi
  have hlt : e.head < t.maxslots := h.lt _ (mem_used.mpr ⟨e, he, e.head_mem⟩)
  have hself : (t.slots e.head).inBucket e.head = true := h.inBucket_iff.mpr ⟨e, he, rfl, hlead.symm⟩
  -- the member at the index itself, and the others
  have hsplit := List.countP_eq_countP_filter_add (List.range t.maxslots)
    (fun j => (t.slots j).inBucket e.head) (fun j => j == e.head)
  rw [List.countP_filter, List.countP_filter] at hsplit
  have hone : (List.range t.maxslots).countP
      (fun j => (t.slots j).inBucket e.head && j == e.head) = 1 := by
    rw [← List.count_eq_one_of_mem List.nodup_range (List.mem_range.mpr hlt), List.count]
    refine List.countP_congr (fun j _ => ?_)
    simp only [Bool.and_eq_true, beq_iff_eq, and_iff_right_iff_imp]
    rintro rfl
    exact hself
  have hrest : (List.range t.maxslots).countP
        (fun j => (t.slots j).inBucket e.head && !(j == e.head)) =
      (List.range t.maxslots).countP
        (fun j => (t.slots j).count = -1 ∧ (t.slots j).hash = e.head) := by
    refine List.countP_congr (fun j _ => ?_)
    simp only [Bool.and_eq_true, Bool.not_eq_true', beq_eq_false_iff_ne, decide_eq_true_eq]
    constructor
    · rintro ⟨hb, hne⟩
      obtain ⟨f, hf, rfl, hfb⟩ := h.inBucket_iff.mp hb
      have hcf := h.count f hf
      rw [if_neg (by rw [hfb]; exact hne)] at hcf
      exact ⟨hcf, (h.home f hf).trans hfb⟩
    · rintro ⟨hc, hh⟩
      refine ⟨by simp [Slot.inBucket, hc, hh], ?_⟩
      rintro rfl
      omega
  rw [hone, hrest] at hsplit
  rw [← h.bucketKeys_eq, bucketKeys, hsplit, Nat.add_comm]

/-- **The slots of a represented table meet the invariant.** -/
theorem Rep.invariant (h : Rep md5 hashFn t es) (hl : t.LinksOk) :
    Invariant md5 hashFn t es where
  covered i := h.mem_used_iff.symm.trans mem_used
  bounded i hi := h.lt i (h.mem_used_iff.mpr hi)
  disjoint e he f hf i hie hif := h.eq_of_mem he hf hie hif
  distinct := h.heads_nodup.of_map _
  starts := h.first
  continues e he := (h.entry e he).ext
  linked e he := chain_isChain hl (h.entry e he).chain
  ends e he := chain_last (h.entry e he).chain
  acyclic e he := h.slots_nodup he
  back i hi := by
    obtain ⟨e, he, hie⟩ := mem_used.mp (h.mem_used_iff.mpr (show (t.slots i).count ≠ 0 by omega))
    have hit : i ∈ e.tail := by
      rcases List.mem_cons.mp hie with rfl | hit
      · have := h.first e he
        omega
      · exact hit
    obtain ⟨hp, hn⟩ := (h.entry e he).chain.prv_mem hit
    obtain ⟨hne, hj⟩ := Tbl.link_of_nxt_some hn
    have hge := hl (t.slots i).hash
    rw [Tbl.prv] at hp hne hj
    exact ⟨h.count_ne_zero (mem_used.mpr ⟨e, he, hp⟩), by omega⟩
  holds e he := (h.entry e he).key
  home := h.home
  lead i hi := by
    obtain ⟨e, he, rfl⟩ := h.exists_head (Or.inl hi)
    have hb := (h.head_eq_bucket_iff he).mpr hi
    exact ⟨(h.home e he).trans hb.symm, h.count_eq_members ⟨e, he, hb.symm⟩⟩
  collisions i hi := by
    obtain ⟨e, he, rfl⟩ := h.exists_head (Or.inl hi)
    rw [h.count_eq_members ⟨e, he, ((h.head_eq_bucket_iff he).mpr hi).symm⟩, ← h.collisions hi]
    omega
  collision i hi := by
    obtain ⟨e, he, rfl⟩ := h.exists_head (Or.inr hi)
    rw [h.home e he]
    exact h.bucket_nonempty_iff.mp ⟨e, he, rfl⟩
  usedslots := by rw [h.countP_used, h.usedslots]
  num := h.num

/-! ### Runs -/

/-- What the callers guarantee of a call: a value that is not empty, and at most
32767 stored keys in the bucket of the key put. -/
def Op.Admitted (md5 : Bytes → Bytes) (hashFn : Bytes → Nat) (t : Tbl) : Op → Prop
  | .put key value => value ≠ [] ∧ bucketKeys t (hashFn key % t.maxslots) +
      (if qhasharrExist md5 hashFn t key then 0 else 1) ≤ 32767
  | .remove _ => True
  | .clear => True

instance (md5 : Bytes → Bytes) (hashFn : Bytes → Nat) (t : Tbl) (op : Op) :
    Decidable (op.Admitted md5 hashFn t) :=
  match op with
  | .put key value => inferInstanceAs (Decidable (value ≠ [] ∧
      bucketKeys t (hashFn key % t.maxslots) +
        (if qhasharrExist md5 hashFn t key then 0 else 1) ≤ 32767))
  | .remove _ => inferInstanceAs (Decidable True)
  | .clear => inferInstanceAs (Decidable True)

/-- A call as a step of the table. -/
def execStep (md5 : Bytes → Bytes) (hashFn : Bytes → Nat) (t : Tbl) (op : Op) : Option Tbl :=
  some (op.exec md5 hashFn t).2

theorem members_eq_add (md5 : Bytes → Bytes) (n : Nat) (key : Bytes) :
    members hashFn n (hashFn key % n) es = others md5 hashFn n key (contents es) +
      (contents es).countP (fun kv => hits md5 hashFn n key kv.1) := by
  induction es with
  | nil => rfl
  | cons e es ih =>
    rw [members_cons, contents_cons, others, List.countP_cons, List.countP_cons, ih, others]
    by_cases hb : hashFn e.key % n = hashFn key % n
    · cases hh : hits md5 hashFn n key e.key <;> simp [Entry.bucket, hb] <;> omega
    · simp [Entry.bucket, hb, hits]

/-- The bound on the keys of a bucket leaves its counter room. -/
theorem Rep.others_lt (h : Rep md5 hashFn t es) (hn : 0 < t.maxslots) {key : Bytes}
    (hb : bucketKeys t (hashFn key % t.maxslots) +
      (if qhasharrExist md5 hashFn t key then 0 else 1) ≤ 32767) :
    others md5 hashFn t.maxslots key (contents es) < 32767 := by
  rw [h.bucketKeys_eq, members_eq_add md5] at hb
  split at hb
  · next hex =>
    rw [qhasharrExist, if_neg (by omega), Option.isSome_iff_exists] at hex
    obtain ⟨i, hi⟩ := hex
    obtain ⟨e, he, -, hhit⟩ := h.getIdx_some hn hi
    have hpos : 0 < (contents es).countP (fun kv => hits md5 hashFn t.maxslots key kv.1) :=
      List.countP_pos_iff.mpr ⟨(e.key, e.value), List.mem_map_of_mem he, hhit⟩
    omega
  · omega

/-- **One call keeps the representation**, whatever it answers. -/
theorem Rep.exec (h : Rep md5 hashFn t es) {op : Op} (ha : op.Admitted md5 hashFn t) :
    ∃ es', Rep md5 hashFn (op.exec md5 hashFn t).2 es' := by
  by_cases hn : t.maxslots = 0
  · -- a table without slots never changes
    cases op with
    | put key value => exact ⟨es, by simpa [Op.exec, qhasharrPut, Qhasharr.putAux, hn] using h⟩
    | remove key => exact ⟨es, by simpa [Op.exec, qhasharrRemove, hn] using h⟩
    | clear => exact ⟨[], h.clear⟩
  have hn' : 0 < t.maxslots := Nat.pos_of_ne_zero hn
  cases op with
  | put key value =>
    have hp := h.put hn' ha.1 (h.others_lt hn' ha.2)
    change ∃ es', Rep md5 hashFn (qhasharrPut md5 hashFn t key value).2 es'
    cases hr : (qhasharrPut md5 hashFn t key value).1 with
    | ok u =>
      obtain ⟨-, es', hrep, -⟩ := hp.ok hr
      exact ⟨es', hrep⟩
    | error er =>
      obtain ⟨-, es', hrep, -⟩ := hp.error er hr
      exact ⟨es', hrep⟩
  | remove key =>
    change ∃ es', Rep md5 hashFn (qhasharrRemove md5 hashFn t key).2 es'
    rcases h.remove hn' key with ⟨-, hr⟩ | ⟨-, -, -, t', es', hr, -, hrep, -⟩
    · exact ⟨es, by rw [hr]; exact h⟩
    · exact ⟨es', by rw [hr]; exact hrep⟩
  | clear => exact ⟨[], h.clear⟩

/-- A stored key that fits the length field is found. -/
theorem Rep.getIdx_stored (h : Rep md5 hashFn t es) (he : e ∈ es) (hk : e.key.length < 65536) :
    ∃ i, getIdx md5 t e.key (hashFn e.key % t.maxslots) = some i := by
  have hn : 0 < t.maxslots :=
    Nat.lt_of_le_of_lt (Nat.zero_le _) (h.lt e.head (mem_used.mpr ⟨e, he, e.head_mem⟩))
  cases hi : getIdx md5 t e.key (hashFn e.key % t.maxslots) with
  | some i => exact ⟨i, rfl⟩
  | none => exact absurd (h.getIdx_none hn hi e he) (by simp [hits, keyHit_self hk])

/-- Every state that admitted calls lead to is represented. -/
theorem rep_of_reaches {n : Nat}
    (h : Reaches (execStep md5 hashFn) (fun t op => op.Admitted md5 hashFn t) (qhasharr n) t) :
    (∃ es, Rep md5 hashFn t es) ∧ t.LinksOk := by
  refine h.invariant (fun t => (∃ es, Rep md5 hashFn t es) ∧ t.LinksOk)
    ⟨⟨[], rep_qhasharr n⟩, fun _ => show -1 ≤ Slot.zero.link by decide⟩ ?_
  rintro s s' op ⟨⟨es, hrep⟩, hl⟩ ha hstep
  obtain rfl := Option.some.inj hstep
  exact ⟨hrep.exec ha, hl.exec op⟩

end

/-- **The representation invariant over whole runs.**  In every state the slots
meet the invariant; the values of the entries are read without running into a
guard, no remove or put takes an `EFAULT` branch or a guard, and `_get_idx` finds
every stored key whose length fits `keylen`. -/
theorem qhasharr_run_invariant (md5 : Bytes → Bytes) (hashFn : Bytes → Nat) (n : Nat) (t : Tbl)
    (h : Reaches (execStep md5 hashFn) (fun t op => op.Admitted md5 hashFn t) (qhasharr n) t) :
    ∃ es, Invariant md5 hashFn t es ∧
      (∀ e ∈ es, getData t e.head = some e.value) ∧
      (∀ key, ¬ RemoveFaults md5 hashFn t key) ∧
      (∀ key value, value ≠ [] → ¬ PutFaults md5 hashFn (t.maxslots + 1) t key value) ∧
      (∀ e ∈ es, e.key.length < 65536 →
        ∃ i, getIdx md5 t e.key (hashFn e.key % t.maxslots) = some i) := by
  obtain ⟨⟨es, hrep⟩, hl⟩ := rep_of_reaches h
  refine ⟨es, hrep.invariant hl, fun e he => hrep.getData_eq he, hrep.remove_sound,
    fun key value hv => ?_, fun e he => hrep.getIdx_stored he⟩
  refine Rep.putAux_sound hv _ hrep (Nat.lt_succ_of_le ?_)
  have hcount := List.countP_le_length (p := fun kv : Bytes × Bytes =>
    hits md5 hashFn t.maxslots key kv.1) (l := contents es)
  rw [contents, List.length_map] at hcount
  rw [contents]
  exact Nat.le_trans hcount hrep.length_le

/-- The four calls of `crowdedRun` are admitted, so what they leave meets the
invariant. -/
theorem crowdedRun_invariant :
    ∃ es, Invariant (fun k => k) (fun k => (k.headD 0).toNat)
      (runOps (fun k => k) (fun k => (k.headD 0).toNat) (qhasharr 4, ∅) crowdedRun).1 es := by
  have hrun : Reaches (execStep (fun k => k) (fun k => (k.headD 0).toNat))
      (fun t op => op.Admitted (fun k => k) (fun k => (k.headD 0).toNat) t) (qhasharr 4)
      (runOps (fun k => k) (fun k => (k.headD 0).toNat) (qhasharr 4, ∅) crowdedRun).1 := by
    refine .tail (a := .remove [1]) (.tail (a := .put [2] [9]) (.tail (a := .put [5] [8])
      (.tail (a := .put [1] (List.replicate 100 7)) .start ?_ rfl) ?_ rfl) ?_ rfl) trivial rfl <;>
    decide
  obtain ⟨es, hes, -⟩ := qhasharr_run_invariant (fun k => k) (fun k => (k.headD 0).toNat) 4 _ hrun
  exact ⟨es, hes⟩

/-- **A key of 65536 bytes is stored and not found**: its length is cut to the
16 bits of `keylen` and compared uncut. -/
theorem key_of_65536_bytes_not_found :
    (qhasharrPut (fun _ => []) (fun _ => 0) (qhasharr 1) (List.replicate 65536 0) [7]).1 = .ok () ∧
    getIdx (fun _ => [])
      (qhasharrPut (fun _ => []) (fun _ => 0) (qhasharr 1) (List.replicate 65536 0) [7]).2
      (List.replicate 65536 0) 0 = none := by
  have hlen : (List.replicate 65536 (0 : UInt8)).length = 65536 := List.length_replicate
  generalize (List.replicate 65536 (0 : UInt8)) = key at hlen
  have hput : qhasharrPut (fun _ => []) (fun _ => 0) (qhasharr 1) key [7] =
      (.ok (), copyChunk (storeKey (fun _ => []) (qhasharr 1) 0 0 key 1) 0 [7]) := rfl
  rw [hput, copyChunk_storeKey (by decide)]
  refine ⟨rfl, ?_⟩
  simp [getIdx, getIdxLoop, firstSlot, Slot.inBucket, keyMatches, hlen, qhasharr, Tbl.next]

end QConf.Qhasharr
