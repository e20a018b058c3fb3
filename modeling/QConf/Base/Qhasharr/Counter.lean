import QConf.Base.Qhasharr.Ops

/-!
# The counter of a full bucket

The counter of a leading slot is a `short`, and `qhasharr_put` adds one to it without a test.
After 32767 keys of one bucket the next one makes it −32768.  Two things follow.
`_get_idx` finds no key of the bucket any more (`getIdx_of_neg`).  And the next put of a key
of the bucket takes the slot for one that belongs to another chain and moves it away, so that
a key which is stored already is stored twice (`put_over_negative`).
-/

namespace QConf.Qhasharr

variable {md5 : Bytes → Bytes} {hashFn : Bytes → Nat} {t : Tbl} {es : List Entry} {key value : Bytes}

/-! ### Values of one slot -/

/-- Reading a value that one slot has whole. -/
theorem getData_single {i : Nat} (hlink : (t.slots i).link = -1)
    (hsize : (t.slots i).bytes.length = (t.slots i).size) : getData t i = some (t.slots i).bytes := by
  have hval : valsizeLoop t t.maxslots i 0 = some (t.slots i).size := by
    cases t.maxslots <;> rw [valsizeLoop, if_pos hlink, Nat.zero_add]
  have hcopy : copyLoop t (t.slots i).size t.maxslots i [] = some (t.slots i).bytes := by
    by_cases hpos : 0 < (t.slots i).size
    · have hle : ¬ (t.slots i).size < 0 + (t.slots i).size := by omega
      cases t.maxslots <;>
        rw [copyLoop, List.length_nil, if_pos hpos, if_neg hle, if_pos hlink, List.nil_append]
    · have hnil : (t.slots i).bytes = [] := List.length_eq_zero_iff.mp (by omega)
      cases t.maxslots <;> rw [copyLoop, List.length_nil, if_neg hpos, hnil]
  rw [getData, hval]
  dsimp only
  rw [hcopy, Option.map_some, hsize, Nat.sub_self, List.replicate_zero, List.append_nil]

/-- Storing a value that fits into one slot. -/
theorem putData_single {idx hash : Nat} {c : Int} (h0 : (t.slots idx).count = 0) (hc : c ≠ -2)
    (hv : value ≠ []) (hlen : value.length ≤ valuesize) :
    putData md5 t idx hash key value c = (.ok (), ⟨t.maxslots, t.usedslots + 1, t.num + 1,
      Function.update t.slots idx (firstSlot md5 (t.slots idx) hash key value c)⟩) := by
  have hpos : 0 < value.length := List.length_pos_iff.mpr hv
  have hsize : copysize ((storeKey md5 t idx hash key c).slots idx) value = value.length := by
    simp only [storeKey, setSlot_slots_self, copysize, if_neg hc]
    omega
  obtain ⟨fuel, hfuel⟩ : ∃ fuel, value.length = fuel + 1 := ⟨value.length - 1, by omega⟩
  rw [putData, if_neg (not_not.mpr h0), putLoop, if_pos hpos, if_neg (Nat.lt_irrefl 0), hsize,
    copyChunk_storeKey hc]
  conv_lhs => rw [hfuel, putLoop]
  rw [if_neg (by omega)]

/-- The entry of a value that fits into one slot. -/
theorem EntryOk.single {e : Entry} (h : EntryOk md5 t e) (hlen : e.value.length ≤ valuesize) :
    (t.slots e.head).link = -1 ∧ (t.slots e.head).bytes = e.value ∧
    (t.slots e.head).bytes.length = (t.slots e.head).size := by
  have htail : e.tail = [] := by
    have := h.fit
    rw [slotsFor_of_le hlen, Entry.slots, List.length_cons] at this
    exact List.length_eq_zero_iff.mp (by omega)
  have hchain := h.chain
  have hvalue := h.value
  rw [htail] at hchain
  rw [Entry.slots, htail, List.flatMap_cons, List.flatMap_nil, List.append_nil] at hvalue
  exact ⟨Tbl.link_of_nxt_none hchain, hvalue, h.size e.head e.head_mem⟩

/-! ### One key too many -/

/-- A bucket whose counter is negative is taken for empty. -/
theorem getIdx_of_neg {hash : Nat} (hneg : (t.slots hash).count < 0) : getIdx md5 t key hash = none := by
  rw [getIdx, if_neg (by omega)]

/-- A new key of a bucket that has members goes to a free slot, and the leading slot counts it. -/
theorem Rep.put_further_eq (h : Rep md5 hashFn t es) (hn : 0 < t.maxslots) {hash idx : Nat}
    (hash_eq : hash = hashFn key % t.maxslots)
    (hno : ∀ e ∈ es, hits md5 hashFn t.maxslots key e.key = false) (hfree : t.usedslots < t.maxslots)
    (hpos : 0 < (t.slots hash).count) (hfe : findEmpty t hash = some idx) :
    qhasharrPut md5 hashFn t key value = match putData md5 t idx hash key value (-1) with
      | (.error e, t) => (.error e, t)
      | (.ok (), t) => (.ok (), t.setSlot hash
          { t.slots hash with count := Int.bmod ((t.slots hash).count + 1) 65536 }) := by
  have hidx : getIdx md5 t key hash = none := by
    cases hi : getIdx md5 t key hash with
    | none => rfl
    | some i =>
      obtain ⟨e, he, -, hhit⟩ := h.getIdx_some hn (hash_eq ▸ hi)
      exact absurd hhit (by simp [hno e he])
  rw [qhasharrPut, Qhasharr.putAux, if_neg (by omega), if_neg (by omega)]
  dsimp only
  rw [← hash_eq, if_neg (by omega), if_pos (by omega), hidx]
  dsimp only
  rewrite [hfe]
  rfl

/-- **Without room nothing is counted.**  A new key of a bucket that has members and a value that
finds no room leave the entries as they are, whatever the counter says. -/
theorem Rep.put_no_room (h : Rep md5 hashFn t es) (hn : 0 < t.maxslots) (hv : value ≠ [])
    (hno : ∀ e ∈ es, hits md5 hashFn t.maxslots key e.key = false)
    (hpos : 0 < (t.slots (hashFn key % t.maxslots)).count)
    (hroom : t.maxslots < (used es).length + slotsFor value.length) :
    ∃ er t', qhasharrPut md5 hashFn t key value = (.error er, t') ∧ t'.maxslots = t.maxslots ∧
      Rep md5 hashFn t' es := by
  obtain ⟨hash, hash_eq⟩ : ∃ hash, hash = hashFn key % t.maxslots := ⟨_, rfl⟩
  rw [← hash_eq] at hpos
  have hused := h.usedslots
  by_cases hfree : t.usedslots < t.maxslots
  · cases hfe : findEmpty t hash with
    | none =>
      have hlen := h.used_length_of_full (findEmpty_none hn hfe)
      omega
    | some idx =>
      obtain ⟨hilt, hi0⟩ := findEmpty_some hn hfe
      have hs := h.toLayout.putData_stored hash key (-1) hilt (fun hu => h.count_ne_zero hu hi0)
        (Or.inr rfl) hv
      rw [h.put_further_eq hn hash_eq hno hfree hpos hfe]
      generalize putData md5 t idx hash key value (-1) = r at hs
      obtain ⟨rep, t₁⟩ := r
      cases rep with
      | error er => exact ⟨er, t₁, rfl, hs.maxslots, h.of_stored_error hs rfl⟩
      | ok u =>
        -- a value that was stored had room
        obtain ⟨-, -, tail, hlay⟩ := hs.ok rfl
        have hle := hlay.used_length_le
        rw [used_cons, List.length_append, (hlay.entry _ (List.mem_cons_self ..)).fit] at hle
        have hmax : t₁.maxslots = t.maxslots := hs.maxslots
        dsimp only at hle
        omega
  · refine ⟨some .enobufs, t, ?_, rfl, h⟩
    rw [qhasharrPut, Qhasharr.putAux, if_neg (by omega), if_pos (by omega)]

/-- **The counter wraps.**  A new key for a bucket of 32767 keys is stored, and the leading slot
gets the counter −32768; nothing else of it changes. -/
theorem Rep.put_wraps (h : Rep md5 hashFn t es) (hn : 0 < t.maxslots) (hv : value ≠ [])
    (hno : ∀ e ∈ es, hits md5 hashFn t.maxslots key e.key = false)
    (hroom : (used es).length + slotsFor value.length ≤ t.maxslots)
    (hfull : members hashFn t.maxslots (hashFn key % t.maxslots) es = 32767) :
    ∃ t', qhasharrPut md5 hashFn t key value = (.ok (), t') ∧ t'.maxslots = t.maxslots ∧
      t'.usedslots = ((used es).length + slotsFor value.length : Nat) ∧
      t'.slots (hashFn key % t.maxslots) = { t.slots (hashFn key % t.maxslots) with count := -32768 } ∧
      ((used es).length + slotsFor value.length < t.maxslots → ∀ i, findEmpty t' i ≠ none) := by
  obtain ⟨hash, hash_eq⟩ : ∃ hash, hash = hashFn key % t.maxslots := ⟨_, rfl⟩
  rw [← hash_eq] at hfull ⊢
  -- the bucket has a leading slot
  obtain ⟨e, he, heb⟩ : ∃ e ∈ es, e.bucket hashFn t.maxslots = hash := by
    have hpos : 0 < members hashFn t.maxslots hash es := by omega
    obtain ⟨e, he, heb⟩ := List.countP_pos_iff.mp hpos
    exact ⟨e, he, by simpa using heb⟩
  have hcount : (t.slots hash).count = 32767 := by
    rw [h.count_eq_members ⟨e, he, heb⟩, hfull]
    rfl
  have hlead : hash ∈ used es := h.mem_used_iff.mpr (by omega)
  have hpos := slotsFor_pos value.length
  have hused := h.usedslots
  cases hfe : findEmpty t hash with
  | none =>
    have hlen := h.used_length_of_full (findEmpty_none hn hfe)
    omega
  | some idx =>
    obtain ⟨hilt, hi0⟩ := findEmpty_some hn hfe
    have hu : idx ∉ used es := fun hu => h.count_ne_zero hu hi0
    have hs := h.toLayout.putData_stored hash key (-1) hilt hu (Or.inr rfl) hv
    rw [h.put_further_eq hn hash_eq hno (by omega) (by omega) hfe]
    generalize putData md5 t idx hash key value (-1) = r at hs
    obtain ⟨rep, t₁⟩ := r
    cases rep with
    | error er =>
      have := (hs.error er rfl).2.2
      omega
    | ok u =>
      obtain ⟨-, -, tail, hlay⟩ := hs.ok rfl
      have hframe : t₁.slots hash = t.slots hash := hs.frame hash hlead
      have hmax : t₁.maxslots = t.maxslots := hs.maxslots
      have hlen : (used (⟨key, value, idx, tail⟩ :: es)).length = (used es).length + slotsFor value.length := by
        rw [used_cons, List.length_append, (hlay.entry _ (List.mem_cons_self ..)).fit, Nat.add_comm]
      have hwrap : Int.bmod ((t₁.slots hash).count + 1) 65536 = -32768 := by
        rw [hframe, hcount]
        decide
      dsimp only
      rw [hwrap]
      refine ⟨_, rfl, hmax, ?_, ?_, fun hlt i hnone => ?_⟩
      · rw [setSlot_usedslots, hlay.usedslots, hlen]
      · rw [setSlot_slots_self, hframe]
      · -- the counter of no slot became zero
        have hall := findEmpty_none (by rw [setSlot_maxslots, hmax]; exact hn) hnone
        have hfull' : (used (⟨key, value, idx, tail⟩ :: es)).length = t₁.maxslots := by
          refine hlay.used_length_of_full (fun j hj => ?_)
          by_cases hjh : j = hash
          · rw [hjh]
            change (t₁.slots hash).count ≠ 0
            rw [hframe]
            omega
          · have := hall j hj
            rwa [setSlot_slots_of_ne _ _ hjh] at this
        omega

/-- **A put into such a bucket** moves the leading slot away as it is and stores its key in
front, whether it is stored or not. -/
theorem put_over_negative (md5 : Bytes → Bytes) {j : Nat} (hn : 0 < t.maxslots) (hfree : t.usedslots < t.maxslots)
    (hcount : (t.slots (hashFn key % t.maxslots)).count < -2)
    (hj : findEmpty t (hashFn key % t.maxslots + 1) = some j) (hv : value ≠ []) (hlen : value.length ≤ valuesize) :
    ∃ t', qhasharrPut md5 hashFn t key value = (.ok (), t') ∧ t'.maxslots = t.maxslots ∧ j < t.maxslots ∧
      j ≠ hashFn key % t.maxslots ∧ t'.slots j = t.slots (hashFn key % t.maxslots) ∧
      ∃ s, t'.slots (hashFn key % t.maxslots) = firstSlot md5 s (hashFn key % t.maxslots) key value 1 := by
  obtain ⟨hash, hash_eq⟩ : ∃ hash, hash = hashFn key % t.maxslots := ⟨_, rfl⟩
  rw [← hash_eq] at hcount hj ⊢
  obtain ⟨hjlt, hj0⟩ := findEmpty_some hn hj
  have hjh : j ≠ hash := by
    rintro rfl
    omega
  have hcopy : copySlot t j hash = { t.setSlot j (t.slots hash) with usedslots := t.usedslots + 1 } := by
    rw [copySlot, if_neg]
    push Not
    exact ⟨hj0, by omega⟩
  obtain ⟨t₂, ht₂⟩ : ∃ t₂, t₂ = removeSlot (copySlot t j hash) hash := ⟨_, rfl⟩
  have hhash : (copySlot t j hash).slots hash = t.slots hash := by
    rw [hcopy]
    exact setSlot_slots_of_ne t _ (Ne.symm hjh)
  have hmoved : t₂.slots j = t.slots hash := by
    rw [ht₂, removeSlot, if_neg (by rw [hhash]; omega)]
    refine (setSlot_slots_of_ne _ _ hjh).trans ?_
    rw [hcopy]
    exact setSlot_slots_self t j _
  have hgone : (t₂.slots hash).count = 0 := by
    rw [ht₂, removeSlot, if_neg (by rw [hhash]; omega)]
    exact congrArg Slot.count (setSlot_slots_self _ hash _)
  have hmax : t₂.maxslots = t.maxslots := by
    rw [ht₂, removeSlot, if_neg (by rw [hhash]; omega), hcopy]
    rfl
  have hrelink : relink t₂ j = t₂ := by
    rw [relink, if_neg (by rw [hmoved]; omega), if_neg (by rw [hmoved]; omega)]
  have hput : qhasharrPut md5 hashFn t key value = putData md5 t₂ hash hash key value 1 := by
    rw [qhasharrPut, putAux, if_neg (by omega), if_neg (by omega)]
    dsimp only
    rw [← hash_eq, if_neg (by omega), if_neg (by omega), hj]
    dsimp only
    rw [← ht₂, hrelink]
  rw [hput, putData_single hgone (by decide) hv hlen]
  refine ⟨_, rfl, hmax, hjlt, hjh, ?_, t₂.slots hash, Function.update_self ..⟩
  exact (Function.update_of_ne hjh _ _).trans hmoved

end QConf.Qhasharr
