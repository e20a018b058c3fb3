import QConf.Base.Qhasharr.Buckets

/-!
# Put and remove keep the representation

Each branch of `qhasharr_remove` and `qhasharr_put` is followed through the
representation invariant: which entries there are afterwards, and with which
slots.  The branches that report `EFAULT` and the guards against a broken chain
are never taken.  What the operations do to the stored keys and values is read
off in terms of `contents`.
-/

namespace QConf.Qhasharr

open SlotChain

/-- The keys and values of the entries. -/
def contents (es : List Entry) : List (Bytes × Bytes) := es.map (fun e => (e.key, e.value))

theorem contents_rename (a b : Nat) (es : List Entry) :
    contents (es.map (Entry.rename a b)) = contents es := by
  simp [contents, Entry.rename]

theorem contents_perm {es es' : List Entry} (h : es.Perm es') :
    (contents es).Perm (contents es') := h.map _

@[simp] theorem contents_cons (e : Entry) (es : List Entry) :
    contents (e :: es) = (e.key, e.value) :: contents es := rfl

section

variable {md5 : Bytes → Bytes} {hashFn : Bytes → Nat} {t t' : Tbl} {es : List Entry} {e f : Entry}

@[simp] theorem Entry.rename_bucket (a b n : Nat) (e : Entry) :
    (e.rename a b).bucket hashFn n = e.bucket hashFn n := rfl

theorem members_rename (a b n c : Nat) (es : List Entry) :
    members hashFn n c (es.map (Entry.rename a b)) = members hashFn n c es := by
  rw [members, members, List.countP_map]
  rfl

/-- A new counter in a first slot. -/
theorem Layout.setCount (h : Layout md5 t es) (he : e ∈ es) {c : Int} (hc : 0 < c) :
    Layout md5 (t.setSlot e.head { t.slots e.head with count := c }) es := by
  have hsame : ∀ i, (t.slots i).Same
      ((t.setSlot e.head { t.slots e.head with count := c }).slots i) := by
    intro i
    by_cases hi : i = e.head
    · rw [hi, setSlot_slots_self]
      refine ⟨rfl, ?_⟩
      have := h.first e he
      constructor <;> intro h2 <;> dsimp only at * <;> omega
    · exact Slot.Same.of_eq (setSlot_slots_of_ne _ _ hi)
  refine ⟨⟨h.nodup, h.lt, fun f hf => (h.entry f hf).congr (fun i _ => hsame i), ?_⟩, ?_,
    h.usedslots, h.num⟩
  · intro f hf
    by_cases hi : f.head = e.head
    · rw [hi, setSlot_slots_self]
      exact Or.inl hc
    · rw [setSlot_slots_of_ne _ _ hi]
      exact h.first f hf
  · intro i hi
    have hne : i ≠ e.head := fun hie => hi (hie ▸ mem_used.mpr ⟨e, he, e.head_mem⟩)
    rw [setSlot_slots_of_ne _ _ hne]
    exact h.empty i hi

theorem Layout.head_ne (h : Layout md5 t (e :: es)) (hf : f ∈ es) : f.head ≠ e.head := fun he =>
  h.not_mem_of_mem (mem_used.mpr ⟨f, hf, f.head_mem⟩) (he ▸ e.head_mem)

/-! ### Remove -/

/-- The last key of a bucket. -/
theorem Rep.remove_single (h : Rep md5 hashFn t (e :: es)) (h1 : (t.slots e.head).count = 1) :
    Rep md5 hashFn (removeData t e.head) es := by
  obtain ⟨hmax, hframe⟩ := h.removeData_frame
  have hhead : ∀ f ∈ es, (removeData t e.head).slots f.head = t.slots f.head := fun f hf =>
    hframe _ (mem_used.mpr ⟨f, hf, f.head_mem⟩)
  have hlead : e.head = e.bucket hashFn t.maxslots :=
    (h.head_eq_bucket_iff (by simp)).mpr (by omega)
  -- the bucket has no other member
  have hcount := h.count e (by simp)
  rw [if_pos hlead, h1, members_cons, if_pos rfl] at hcount
  have hother : ∀ f ∈ es, f.bucket hashFn t.maxslots ≠ e.bucket hashFn t.maxslots := by
    intro f hf hb
    have := members_pos hf hb
    omega
  refine ⟨h.toLayout.removeData, ⟨fun f hf => ?_, fun f hf => ?_, fun f hf => ?_⟩⟩
  · rw [hhead f hf, hmax]
    exact h.home f (List.mem_cons_of_mem _ hf)
  · rw [hhead f hf, hmax, h.count f (List.mem_cons_of_mem _ hf), members_cons,
      if_neg (hother f hf).symm]
    rfl
  · rw [hmax]
    obtain ⟨l, hl, h2, h3⟩ := h.lead f (List.mem_cons_of_mem _ hf)
    rcases List.mem_cons.mp hl with rfl | hl
    · exact absurd h3.symm (hother f hf)
    · exact ⟨l, hl, h2, h3⟩

/-- A colliding key: the leading slot of its bucket counts at least two. -/
theorem Rep.remove_collision (h : Rep md5 hashFn t (e :: es))
    (h1 : (t.slots e.head).count = -1) :
    ¬ (t.slots (t.slots e.head).hash).count ≤ 1 ∧
    Rep md5 hashFn (removeData (t.setSlot (t.slots e.head).hash
      { t.slots (t.slots e.head).hash with count := (t.slots (t.slots e.head).hash).count - 1 })
      e.head) es := by
  have hnot : e.head ≠ e.bucket hashFn t.maxslots := fun hb => by
    have := (h.head_eq_bucket_iff (e := e) (by simp)).mp hb
    omega
  obtain ⟨l, hl, hlh, hlb⟩ := h.lead e (by simp)
  have hle : l ∈ es := by
    rcases List.mem_cons.mp hl with rfl | hl
    · exact absurd hlh hnot
    · exact hl
  have hcount := h.count l hl
  rw [if_pos (hlh.trans hlb.symm), hlb, members_cons, if_pos rfl] at hcount
  have hpos := members_pos hle hlb
  rw [h.home e (by simp), ← hlh]
  refine ⟨by omega, ?_⟩
  have hlay := h.toLayout.setCount hl (c := (t.slots l.head).count - 1) (by omega)
  generalize ht1 : t.setSlot l.head { t.slots l.head with count := (t.slots l.head).count - 1 } = t1
    at hlay ⊢
  have hmax1 : t1.maxslots = t.maxslots := by rw [← ht1]; rfl
  obtain ⟨hmax, hframe⟩ := hlay.removeData_frame
  have hhead : ∀ f ∈ es, (removeData t1 e.head).slots f.head = t1.slots f.head := fun f hf =>
    hframe _ (mem_used.mpr ⟨f, hf, f.head_mem⟩)
  refine ⟨hlay.removeData, ⟨fun f hf => ?_, fun f hf => ?_, fun f hf => ?_⟩⟩
  · rw [hhead f hf, hmax, hmax1, ← h.home f (List.mem_cons_of_mem _ hf), ← ht1]
    by_cases hfl : f.head = l.head
    · rw [hfl, setSlot_slots_self]
    · rw [setSlot_slots_of_ne _ _ hfl]
  · rw [hhead f hf, hmax, hmax1, ← ht1]
    by_cases hfl : f.head = l.head
    · have hfeq : f = l := h.eq_of_mem (List.mem_cons_of_mem _ hf) hl f.head_mem (hfl ▸ l.head_mem)
      rw [hfl, setSlot_slots_self, hfeq, if_pos (hlh.trans hlb.symm), hlb]
      simp only [hcount]
      omega
    · rw [setSlot_slots_of_ne _ _ hfl, h.count f (List.mem_cons_of_mem _ hf)]
      by_cases hfb : f.head = f.bucket hashFn t.maxslots
      · have hne : e.bucket hashFn t.maxslots ≠ f.bucket hashFn t.maxslots := fun hb =>
          hfl (hfb.trans (hb.symm.trans hlh.symm))
        rw [if_pos hfb, if_pos hfb, members_cons, if_neg hne, Nat.add_zero]
      · rw [if_neg hfb, if_neg hfb]
  · rw [hmax, hmax1]
    obtain ⟨l', hl', h2, h3⟩ := h.lead f (List.mem_cons_of_mem _ hf)
    rcases List.mem_cons.mp hl' with rfl | hl'
    · exact absurd (h2.trans h3.symm) hnot
    · exact ⟨l', hl', h2, h3⟩

/-- A leading key with colliding ones behind it: the search finds one of them. -/
theorem Rep.findDup_some (h : Rep md5 hashFn t (e :: es)) (h1 : 1 < (t.slots e.head).count) :
    ∃ f ∈ es, findDup t (e.bucket hashFn t.maxslots) e.head = some f.head ∧
      f.bucket hashFn t.maxslots = e.bucket hashFn t.maxslots ∧ (t.slots f.head).count = -1 := by
  have hlead : e.head = e.bucket hashFn t.maxslots :=
    (h.head_eq_bucket_iff (by simp)).mpr (by omega)
  have hidx : e.head < t.maxslots := h.lt _ (List.mem_append_left _ e.head_mem)
  obtain ⟨suf, hr, hdup⟩ := findDup_eq (e.bucket hashFn t.maxslots) hidx
  cases hd : findDup t (e.bucket hashFn t.maxslots) e.head with
  | some i =>
    rw [hdup] at hd
    have hi : (t.slots i).count = -1 ∧ (t.slots i).hash = e.bucket hashFn t.maxslots := by
      simpa using List.find?_some hd
    obtain ⟨f, hf, rfl⟩ := h.exists_head (Or.inr hi.1)
    rcases List.mem_cons.mp hf with rfl | hf'
    · omega
    · exact ⟨f, hf', rfl, (h.home f hf).symm.trans hi.2, hi.1⟩
  | none =>
    -- the counter promises a second member, and it stands somewhere else
    have hcount := h.count e (by simp)
    rw [if_pos hlead, members_cons, if_pos rfl] at hcount
    have hpos : 0 < members hashFn t.maxslots (e.bucket hashFn t.maxslots) es := by omega
    obtain ⟨f, hf, hb⟩ := List.countP_pos_iff.mp hpos
    rw [beq_iff_eq] at hb
    have hfe := h.toLayout.head_ne hf
    have hfc := h.count f (List.mem_cons_of_mem _ hf)
    rw [if_neg (by rw [hb, ← hlead]; exact hfe)] at hfc
    have hfr : f.head ∈ Ring.rotation t.maxslots e.head :=
      (Ring.mem_rotation (Nat.le_of_lt hidx)).mpr
        (h.lt _ (mem_used.mpr ⟨f, List.mem_cons_of_mem _ hf, f.head_mem⟩))
    rw [hr, List.mem_cons] at hfr
    rw [hdup, List.find?_eq_none] at hd
    refine absurd ?_ (hd f.head (hfr.resolve_left hfe))
    simp [hfc, h.home f (List.mem_cons_of_mem _ hf), hb]

/-- The colliding key takes the place of the leading one. -/
theorem Rep.remove_lead (h : Rep md5 hashFn t (e :: es)) (hf : f ∈ es)
    (hfb : f.bucket hashFn t.maxslots = e.bucket hashFn t.maxslots)
    (hlead : e.head = e.bucket hashFn t.maxslots)
    (hm : Moved (removeData t e.head) t' f.head e.head ((t.slots e.head).count - 1)) :
    Rep md5 hashFn t' (es.map (Entry.rename f.head e.head)) := by
  obtain ⟨hmax, hframe⟩ := h.removeData_frame
  have hlay := h.toLayout.removeData
  have hhead : ∀ g ∈ es, (removeData t e.head).slots g.head = t.slots g.head := fun g hg =>
    hframe _ (mem_used.mpr ⟨g, hg, g.head_mem⟩)
  have hfu : f.head ∈ used es := mem_used.mpr ⟨f, hf, f.head_mem⟩
  have heu : e.head ∉ used es := fun hu => h.not_mem_of_mem hu e.head_mem
  have hcount := h.count e (by simp)
  rw [if_pos hlead, members_cons, if_pos rfl] at hcount
  have hpos := members_pos hf hfb
  have hfc : (t.slots f.head).count = -1 := by
    rw [h.count f (List.mem_cons_of_mem _ hf), if_neg (by rw [hfb, ← hlead]; exact h.head_ne hf)]
  have hmax' : t'.maxslots = t.maxslots := hm.maxslots.trans hmax
  refine ⟨hlay.move hm hfu heu ?_ ?_ (fun _ => Or.inl (by omega)), ⟨?_, ?_, ?_⟩⟩
  · rw [hmax]
    exact h.lt _ (List.mem_append_left _ e.head_mem)
  · rw [hhead f hf, hfc]
    constructor <;> intro hc <;> omega
  · intro g' hg'
    obtain ⟨g, hg, rfl⟩ := List.mem_map.mp hg'
    rw [(hlay.move_head hm hfu heu hg).1, hmax', hhead g hg, Entry.rename_bucket]
    exact h.home g (List.mem_cons_of_mem _ hg)
  · intro g' hg'
    obtain ⟨g, hg, rfl⟩ := List.mem_map.mp hg'
    rw [(hlay.move_head hm hfu heu hg).2, hmax', hhead g hg, Entry.rename_bucket, members_rename]
    change _ = if moved f.head e.head g.head = _ then _ else _
    by_cases hgf : g.head = f.head
    · have hgeq : g = f := hlay.eq_of_mem hg hf g.head_mem (hgf ▸ f.head_mem)
      rw [hgeq, if_pos rfl, moved_self, hfb, if_pos hlead, hcount]
      omega
    · rw [if_neg hgf, moved_of_ne hgf, h.count g (List.mem_cons_of_mem _ hg)]
      by_cases hgb : g.head = g.bucket hashFn t.maxslots
      · have hne : e.bucket hashFn t.maxslots ≠ g.bucket hashFn t.maxslots := fun hb =>
          h.head_ne hg (hgb.trans (hb.symm.trans hlead.symm))
        rw [if_pos hgb, if_pos hgb, members_cons, if_neg hne, Nat.add_zero]
      · rw [if_neg hgb, if_neg hgb]
  · intro g' hg'
    obtain ⟨g, hg, rfl⟩ := List.mem_map.mp hg'
    rw [hmax', Entry.rename_bucket]
    obtain ⟨l, hl, h2, h3⟩ := h.lead g (List.mem_cons_of_mem _ hg)
    rcases List.mem_cons.mp hl with rfl | hl
    · refine ⟨f.rename f.head l.head, List.mem_map_of_mem hf, ?_, ?_⟩
      · exact (moved_self _ _).trans h2
      · exact hfb.trans h3
    · refine ⟨l.rename f.head e.head, List.mem_map_of_mem hl, ?_, h3⟩
      refine (moved_of_ne (fun hlf => ?_)).trans h2
      -- a leader is not a colliding key
      have hleq : l = f := hlay.eq_of_mem hl hf l.head_mem (hlf ▸ f.head_mem)
      subst hleq
      have hlc := (h.head_eq_bucket_iff (List.mem_cons_of_mem _ hl)).mp (h2.trans h3.symm)
      omega

theorem removeData_maxslots (t : Tbl) (i : Nat) : (removeData t i).maxslots = t.maxslots := by
  have hslot : ∀ (t : Tbl) (i : Nat), (removeSlot t i).maxslots = t.maxslots := fun t i => by
    unfold removeSlot; split <;> rfl
  have hloop : ∀ (fuel : Nat) (t : Tbl) (i : Nat), (removeLoop fuel t i).maxslots = t.maxslots := by
    intro fuel
    induction fuel with
    | zero => exact hslot
    | succ fuel ih =>
      intro t i
      simp only [removeLoop]
      split
      · exact hslot t i
      · rw [ih, hslot]
  unfold removeData
  split
  · rfl
  · exact hloop _ t i

/-- **`qhasharr_remove` removes one entry that matches, if there is one.** -/
theorem Rep.remove (h : Rep md5 hashFn t es) (hn : 0 < t.maxslots) (key : Bytes) :
    ((∀ e ∈ es, hits md5 hashFn t.maxslots key e.key = false) ∧
      qhasharrRemove md5 hashFn t key = (.error (some .enoent), t)) ∨
    ∃ e ∈ es, hits md5 hashFn t.maxslots key e.key = true ∧ ∃ t' es',
      qhasharrRemove md5 hashFn t key = (.ok (), t') ∧ t'.maxslots = t.maxslots ∧
      Rep md5 hashFn t' es' ∧ (contents es).Perm ((e.key, e.value) :: contents es') := by
  unfold qhasharrRemove
  rw [if_neg (by omega)]
  cases hidx : getIdx md5 t key (hashFn key % t.maxslots) with
  | none => exact Or.inl ⟨h.getIdx_none hn hidx, by simp only [hidx]⟩
  | some idx =>
    obtain ⟨e, he, rfl, hhit⟩ := h.getIdx_some hn hidx
    refine Or.inr ⟨e, he, hhit, ?_⟩
    have hperm := List.perm_cons_erase he
    have hrep := h.perm hperm
    have hcont : (contents es).Perm ((e.key, e.value) :: contents (es.erase e)) :=
      contents_perm hperm
    have hbucket : e.bucket hashFn t.maxslots = hashFn key % t.maxslots := by
      simp only [hits, Bool.and_eq_true, beq_iff_eq] at hhit
      exact hhit.1
    simp only [hidx]
    by_cases h1 : (t.slots e.head).count = 1
    · rw [if_pos h1]
      exact ⟨_, _, rfl, removeData_maxslots t e.head, hrep.remove_single h1, hcont⟩
    · rw [if_neg h1]
      by_cases h2 : (t.slots e.head).count > 1
      · rw [if_pos h2]
        obtain ⟨f, hf, hdup, hfb, hfc⟩ := hrep.findDup_some h2
        have hlead := (h.head_eq_bucket_iff he).mpr (by omega)
        rw [← hbucket, hdup]
        have hlay := hrep.toLayout.removeData
        have hfs := hrep.toLayout.removeData_frame.2 _ (mem_used.mpr ⟨f, hf, f.head_mem⟩)
        have hm := hlay.promoted (mem_used.mpr ⟨f, hf, f.head_mem⟩)
          (fun hu => hrep.not_mem_of_mem hu e.head_mem) (by rw [hfs]; exact hfc)
          ((t.slots e.head).count - 1)
        refine ⟨_, _, rfl, ?_, hrep.remove_lead hf hfb hlead hm, ?_⟩
        · exact hm.maxslots.trans (removeData_maxslots t e.head)
        · rw [contents_rename]
          exact hcont
      · have hc : (t.slots e.head).count = -1 := by
          have := h.first e he
          omega
        obtain ⟨hnot, hrep'⟩ := hrep.remove_collision hc
        rw [if_neg h2, if_pos hc, if_neg hnot]
        exact ⟨_, _, rfl, removeData_maxslots _ e.head, hrep', hcont⟩

/-! ### Put -/

section

variable {key value : Bytes} {idx hash : Nat}

/-- Buckets are kept where `_put_data` failed. -/
theorem Rep.of_stored_error (h : Rep md5 hashFn t es) {c : Int} {r : Reply × Tbl}
    (hs : Stored md5 t es key value idx hash c r) {er : Option Errno} (her : r.1 = .error er) :
    Rep md5 hashFn r.2 es :=
  ⟨(hs.error er her).2.1, h.toBuckets.congr hs.maxslots
    (fun e he => hs.frame _ (mem_used.mpr ⟨e, he, e.head_mem⟩))⟩

/-- The first key of a bucket is stored at the index it hashes to. -/
theorem Rep.put_lead (h : Rep md5 hashFn t es) (h0 : (t.slots hash).count = 0)
    (hash_eq : hash = hashFn key % t.maxslots) {r : Reply × Tbl}
    (hs : Stored md5 t es key value hash hash 1 r) (hok : r.1 = .ok ()) :
    ∃ es', Rep md5 hashFn r.2 es' ∧ contents es' = (key, value) :: contents es := by
  obtain ⟨hc, hh, tail, hlay⟩ := hs.ok hok
  have hhead : ∀ e ∈ es, r.2.slots e.head = t.slots e.head := fun e he =>
    hs.frame _ (mem_used.mpr ⟨e, he, e.head_mem⟩)
  -- a member of the bucket would have a leader at `hash`
  have hother : ∀ e ∈ es, e.bucket hashFn t.maxslots ≠ hash := by
    intro e he hb
    have := h.bucket_nonempty_iff.mp ⟨e, he, hb⟩
    omega
  obtain ⟨n, hn⟩ : ∃ n : Entry, n = ⟨key, value, hash, tail⟩ := ⟨_, rfl⟩
  have hnh : n.head = hash := by rw [hn]
  have hnb : n.bucket hashFn t.maxslots = hash := by rw [hn, Entry.bucket, ← hash_eq]
  rw [← hn] at hlay
  refine ⟨n :: es, ⟨hlay, ⟨?_, ?_, ?_⟩⟩, by rw [hn]; rfl⟩ <;> rw [hs.maxslots] <;> intro e he <;>
    rcases List.mem_cons.mp he with rfl | he
  · rw [hnh, hnb, hh]
  · rw [hhead e he]
    exact h.home e he
  · rw [hnh, hnb, if_pos rfl, members_cons, if_pos hnb, members_eq_zero hother, hc]
    rfl
  · have hne : n.bucket hashFn t.maxslots ≠ e.bucket hashFn t.maxslots := fun hb =>
      hother e he (hb.symm.trans hnb)
    rw [hhead e he, h.count e he, members_cons, if_neg hne, Nat.add_zero]
  · exact ⟨e, List.mem_cons_self, hnh.trans hnb.symm, rfl⟩
  · obtain ⟨l, hl, h2, h3⟩ := h.lead e he
    exact ⟨l, List.mem_cons_of_mem _ hl, h2, h3⟩

/-- A further key of a bucket is stored elsewhere and counted by the leader. -/
theorem Rep.put_collision (h : Rep md5 hashFn t es) (hpos : 0 < (t.slots hash).count)
    (hash_eq : hash = hashFn key % t.maxslots) (hidx : idx ∉ used es)
    (hbound : members hashFn t.maxslots hash es < 32767) {r : Reply × Tbl}
    (hs : Stored md5 t es key value idx hash (-1) r) (hok : r.1 = .ok ()) :
    ∃ es', Rep md5 hashFn (r.2.setSlot hash
        { r.2.slots hash with count := Int.bmod ((r.2.slots hash).count + 1) 65536 }) es' ∧
      contents es' = (key, value) :: contents es := by
  obtain ⟨hc, hh, tail, hlay⟩ := hs.ok hok
  obtain ⟨l, hl, rfl⟩ := h.exists_head (Or.inl hpos)
  have hlb := (h.head_eq_bucket_iff hl).mpr hpos
  have hhead : ∀ e ∈ es, r.2.slots e.head = t.slots e.head := fun e he =>
    hs.frame _ (mem_used.mpr ⟨e, he, e.head_mem⟩)
  have hcount := h.count_eq_members ⟨l, hl, hlb.symm⟩
  have hbmod : Int.bmod ((r.2.slots l.head).count + 1) 65536 = (t.slots l.head).count + 1 := by
    rw [hhead l hl]
    exact Int.bmod_eq_of_le (by omega) (by omega)
  rw [hbmod]
  have hlay' := hlay.setCount (e := l) (List.mem_cons_of_mem _ hl)
    (c := (t.slots l.head).count + 1) (by omega)
  have hidxl : idx ≠ l.head := fun he => hidx (he ▸ mem_used.mpr ⟨l, hl, l.head_mem⟩)
  obtain ⟨n, hn⟩ : ∃ n : Entry, n = ⟨key, value, idx, tail⟩ := ⟨_, rfl⟩
  have hnh : n.head = idx := by rw [hn]
  have hnb : n.bucket hashFn t.maxslots = l.head := by rw [hn, Entry.bucket, ← hash_eq]
  rw [← hn] at hlay'
  refine ⟨n :: es, ⟨hlay', ⟨?_, ?_, ?_⟩⟩, by rw [hn]; rfl⟩ <;>
    rw [setSlot_maxslots, hs.maxslots] <;> intro e he <;> rcases List.mem_cons.mp he with rfl | he
  · rw [hnh, hnb, setSlot_slots_of_ne _ _ hidxl, hh]
  · by_cases hel : e.head = l.head
    · rw [hel, setSlot_slots_self, hhead l hl, ← hel]
      exact h.home e he
    · rw [setSlot_slots_of_ne _ _ hel, hhead e he]
      exact h.home e he
  · rw [hnh, hnb, setSlot_slots_of_ne _ _ hidxl, if_neg hidxl, hc]
  · by_cases hel : e.head = l.head
    · have heq : e = l := h.eq_of_mem he hl e.head_mem (hel ▸ l.head_mem)
      rw [hel, setSlot_slots_self, heq, if_pos hlb, members_cons, ← hlb, if_pos hnb]
      simp only [hcount]
      omega
    · rw [setSlot_slots_of_ne _ _ hel, hhead e he, h.count e he]
      by_cases heb : e.head = e.bucket hashFn t.maxslots
      · have hne : n.bucket hashFn t.maxslots ≠ e.bucket hashFn t.maxslots := fun hb =>
          hel (heb.trans (hb.symm.trans hnb))
        rw [if_pos heb, if_pos heb, members_cons, if_neg hne, Nat.add_zero]
      · rw [if_neg heb, if_neg heb]
  · exact ⟨l, List.mem_cons_of_mem _ hl, hnb.symm, hlb.symm.trans hnb.symm⟩
  · obtain ⟨l', hl', h2, h3⟩ := h.lead e he
    exact ⟨l', List.mem_cons_of_mem _ hl', h2, h3⟩

/-- A slot of another bucket makes room at the index a new key hashes to. -/
theorem Rep.displace (h : Rep md5 hashFn t es) (hneg : (t.slots hash).count < 0)
    (hidx : idx ∉ used es) (hlt : idx < t.maxslots)
    (hm : Moved t t' hash idx (t.slots hash).count) :
    Rep md5 hashFn t' (es.map (Entry.rename hash idx)) := by
  have hu : hash ∈ used es := h.mem_used_iff.mpr (by omega)
  -- a leader does not stand at `hash`, and no bucket is led from `idx`
  have hlead : ∀ e ∈ es, e.head = e.bucket hashFn t.maxslots → e.head ≠ hash := by
    intro e he hb heh
    have := (h.head_eq_bucket_iff he).mp hb
    rw [heh] at this
    omega
  have hidxb : ∀ e ∈ es, idx ≠ e.bucket hashFn t.maxslots := by
    intro e he hb
    obtain ⟨l, hl, h2, _⟩ := h.lead e he
    exact hidx (hb ▸ h2 ▸ mem_used.mpr ⟨l, hl, l.head_mem⟩)
  refine ⟨h.toLayout.move hm hu hidx hlt Iff.rfl ?_, ⟨?_, ?_, ?_⟩⟩
  · intro h2
    obtain ⟨e, he, hie⟩ := mem_used.mp hu
    rcases List.mem_cons.mp hie with rfl | hit
    · exact h.first e he
    · exact absurd ((h.entry e he).ext hash hit) h2
  · intro g' hg'
    obtain ⟨g, hg, rfl⟩ := List.mem_map.mp hg'
    rw [(h.toLayout.move_head hm hu hidx hg).1, hm.maxslots]
    exact h.home g hg
  · intro g' hg'
    obtain ⟨g, hg, rfl⟩ := List.mem_map.mp hg'
    rw [(h.toLayout.move_head hm hu hidx hg).2, hm.maxslots, Entry.rename_bucket, members_rename]
    change _ = if moved hash idx g.head = _ then _ else _
    by_cases hgh : g.head = hash
    · have hgc := h.count g hg
      rw [if_neg (fun hb => hlead g hg hb hgh), hgh] at hgc
      rw [if_pos hgh, hgh, moved_self, if_neg (hidxb g hg), hgc]
    · rw [if_neg hgh, moved_of_ne hgh, h.count g hg]
  · intro g' hg'
    obtain ⟨g, hg, rfl⟩ := List.mem_map.mp hg'
    rw [hm.maxslots, Entry.rename_bucket]
    obtain ⟨l, hl, h2, h3⟩ := h.lead g hg
    refine ⟨l.rename hash idx, List.mem_map_of_mem hl, ?_, h3⟩
    exact (moved_of_ne (hlead l hl (h2.trans h3.symm))).trans h2

end

/-- The slots the given keys and values take. -/
def slotsOf (c : List (Bytes × Bytes)) : Nat := (c.map (fun kv => slotsFor kv.2.length)).sum

theorem slotsOf_perm {c c' : List (Bytes × Bytes)} (h : c.Perm c') : slotsOf c = slotsOf c' :=
  (h.map _).sum_eq

@[simp] theorem slotsOf_cons (kv : Bytes × Bytes) (c : List (Bytes × Bytes)) :
    slotsOf (kv :: c) = slotsFor kv.2.length + slotsOf c := rfl

theorem slotsFor_pos (len : Nat) : 0 < slotsFor len :=
  Nat.lt_of_lt_of_le Nat.one_pos (Nat.le_add_right _ _)

/-- The slots in use are those the contents take. -/
theorem Intact.used_length (h : Intact md5 t es) : (used es).length = slotsOf (contents es) := by
  rw [used, List.length_flatMap, slotsOf, contents, List.map_map]
  congr 1
  exact List.map_congr_left (fun e he => (h.entry e he).fit)

/-- The stored keys and values a put of `key` does not replace. -/
def kept (md5 : Bytes → Bytes) (hashFn : Bytes → Nat) (n : Nat) (key : Bytes)
    (c : List (Bytes × Bytes)) : List (Bytes × Bytes) :=
  c.filter (fun kv => !hits md5 hashFn n key kv.1)

/-- What `qhasharr_put` does to a table with the entries `es`: on success the key
is bound and the entries that matched it are gone.  On failure the table was full
and is as it was, or a slot was free but there is no room for the value beside the
other entries, and then the entries that matched the key are gone. -/
structure PutResult (md5 : Bytes → Bytes) (hashFn : Bytes → Nat) (t : Tbl) (es : List Entry)
    (key value : Bytes) (r : Reply × Tbl) : Prop where
  maxslots : r.2.maxslots = t.maxslots
  ok : r.1 = .ok () → slotsOf (contents es) < t.maxslots ∧ ∃ es', Rep md5 hashFn r.2 es' ∧
    (contents es').Perm ((key, value) :: kept md5 hashFn t.maxslots key (contents es))
  error : ∀ er, r.1 = .error er → er = some .enobufs ∧ ∃ es', Rep md5 hashFn r.2 es' ∧
    (t.maxslots ≤ slotsOf (contents es) ∧ (contents es').Perm (contents es) ∨
      slotsOf (contents es) < t.maxslots ∧
        t.maxslots < slotsOf (kept md5 hashFn t.maxslots key (contents es)) + slotsFor value.length ∧
        (contents es').Perm (kept md5 hashFn t.maxslots key (contents es)))

/-- The members of the key's bucket that do not match the key. -/
def others (md5 : Bytes → Bytes) (hashFn : Bytes → Nat) (n : Nat) (key : Bytes)
    (c : List (Bytes × Bytes)) : Nat :=
  c.countP (fun kv => hashFn kv.1 % n == hashFn key % n && !hits md5 hashFn n key kv.1)

section

variable {key value : Bytes}

theorem PutResult.unchanged (h : Rep md5 hashFn t es) (hfull : t.maxslots ≤ slotsOf (contents es)) :
    PutResult md5 hashFn t es key value (.error (some .enobufs), t) :=
  ⟨rfl, by simp, fun er her =>
    ⟨by simpa using her.symm, es, h, Or.inl ⟨hfull, List.Perm.refl _⟩⟩⟩

/-- The two ends of a put whose key matches nothing. -/
theorem PutResult.of_absent {r : Reply × Tbl}
    (hno : ∀ e ∈ es, hits md5 hashFn t.maxslots key e.key = false)
    (hmax : r.2.maxslots = t.maxslots) (hfree : slotsOf (contents es) < t.maxslots)
    (hok : r.1 = .ok () → ∃ es', Rep md5 hashFn r.2 es' ∧
      contents es' = (key, value) :: contents es)
    (herr : ∀ er, r.1 = .error er → er = some .enobufs ∧
      t.maxslots < slotsOf (contents es) + slotsFor value.length ∧
      ∃ es', Rep md5 hashFn r.2 es' ∧ contents es' = contents es) :
    PutResult md5 hashFn t es key value r := by
  have hkept : kept md5 hashFn t.maxslots key (contents es) = contents es := by
    rw [kept, List.filter_eq_self]
    intro kv hkv
    obtain ⟨e, he, rfl⟩ := List.mem_map.mp hkv
    simp [hno e he]
  refine ⟨hmax, fun h => ?_, fun er h => ?_⟩
  · obtain ⟨es', hrep, hc⟩ := hok h
    exact ⟨hfree, es', hrep, by rw [hkept, hc]⟩
  · obtain ⟨he, hroom, es', hrep, hc⟩ := herr er h
    exact ⟨he, es', hrep, Or.inr ⟨hfree, by rw [hkept]; exact hroom, by rw [hkept, hc]⟩⟩

theorem members_eq_others (hno : ∀ e ∈ es, hits md5 hashFn t.maxslots key e.key = false) :
    members hashFn t.maxslots (hashFn key % t.maxslots) es =
      others md5 hashFn t.maxslots key (contents es) := by
  rw [members, others, contents, List.countP_map]
  refine List.countP_congr (fun e he => ?_)
  simp [Entry.bucket, hno e he]

/-- A put whose key matches no stored key: the three branches on the counter at
the index the key hashes to. -/
theorem Rep.put_absent (h : Rep md5 hashFn t es) (hn : 0 < t.maxslots) (hv : value ≠ [])
    (hno : ∀ e ∈ es, hits md5 hashFn t.maxslots key e.key = false)
    (hbound : others md5 hashFn t.maxslots key (contents es) < 32767) (fuel : Nat) :
    PutResult md5 hashFn t es key value (putAux md5 hashFn (fuel + 1) t key value) := by
  have hused := h.usedslots
  rw [h.used_length] at hused
  rw [putAux, if_neg (by omega)]
  by_cases hfull : t.usedslots ≥ t.maxslots
  · rw [if_pos hfull]
    exact PutResult.unchanged h (by omega)
  rw [if_neg hfull]
  have hfree : slotsOf (contents es) < t.maxslots := by omega
  -- an empty slot is found
  have hempty : ∀ s, findEmpty t s ≠ none := fun s hs => by
    have hlen := h.used_length_of_full (findEmpty_none hn hs)
    rw [h.used_length] at hlen
    omega
  obtain ⟨hash, hash_eq⟩ : ∃ hash, hash = hashFn key % t.maxslots := ⟨_, rfl⟩
  have hlt : hash < t.maxslots := hash_eq ▸ Nat.mod_lt _ hn
  rw [← hash_eq]
  dsimp only
  by_cases h0 : (t.slots hash).count = 0
  · -- the index is free
    rw [if_pos h0]
    have hu : hash ∉ used es := fun hu => h.count_ne_zero hu h0
    have hs := h.toLayout.putData_stored hash key 1 hlt hu
      (Or.inl (by decide)) hv
    exact PutResult.of_absent hno hs.maxslots hfree (h.put_lead h0 hash_eq hs)
      (fun er her => ⟨(hs.error er her).1, h.used_length ▸ (hs.error er her).2.2, es,
        h.of_stored_error hs her, rfl⟩)
  rw [if_neg h0]
  by_cases hpos : (t.slots hash).count > 0
  · -- a bucket that has members
    have hidx : getIdx md5 t key hash = none := by
      cases hi : getIdx md5 t key hash with
      | none => rfl
      | some i =>
        obtain ⟨e, he, _, hhit⟩ := h.getIdx_some hn (hash_eq ▸ hi)
        exact absurd hhit (by simp [hno e he])
    rw [if_pos hpos, hidx]
    dsimp only
    cases hfe : findEmpty t hash with
    | none => exact absurd hfe (hempty hash)
    | some idx =>
      obtain ⟨hilt, hi0⟩ := findEmpty_some hn hfe
      have hu : idx ∉ used es := fun hu => h.count_ne_zero hu hi0
      have hs := h.toLayout.putData_stored hash key (-1) hilt hu
        (Or.inr rfl) hv
      rw [← members_eq_others hno, ← hash_eq] at hbound
      have hput := h.put_collision hpos hash_eq hu hbound hs
      have herr : ∀ er, (putData md5 t idx hash key value (-1)).1 = .error er → er = some .enobufs ∧
          t.maxslots < slotsOf (contents es) + slotsFor value.length ∧
          ∃ es', Rep md5 hashFn (putData md5 t idx hash key value (-1)).2 es' ∧
            contents es' = contents es := fun er her =>
        ⟨(hs.error er her).1, h.used_length ▸ (hs.error er her).2.2, es,
          h.of_stored_error hs her, rfl⟩
      have hmax := hs.maxslots
      dsimp only
      generalize putData md5 t idx hash key value (-1) = r at hput herr hmax ⊢
      obtain ⟨rep, t1⟩ := r
      cases rep with
      | error er => exact PutResult.of_absent hno hmax hfree (by simp) herr
      | ok u => exact PutResult.of_absent hno hmax hfree (fun _ => hput rfl) (by simp)
  · -- a slot of another chain is in the way
    rw [if_neg hpos]
    cases hfe : findEmpty t (hash + 1) with
    | none => exact absurd hfe (hempty _)
    | some idx =>
      obtain ⟨hilt, hi0⟩ := findEmpty_some hn hfe
      have hu : idx ∉ used es := fun hu => h.count_ne_zero hu hi0
      have hneg : (t.slots hash).count < 0 := by omega
      have hm := h.toLayout.displaced (h.mem_used_iff.mpr h0) hu hneg
      have hrep := h.displace hneg hu hilt hm
      have hmu : hash ∉ used (es.map (Entry.rename hash idx)) := fun hm' =>
        hrep.count_ne_zero hm' hm.gone
      have hs := hrep.toLayout.putData_stored hash key 1
        (by rw [hm.maxslots]; exact hlt) hmu (Or.inl (by decide)) hv
      dsimp only
      have hroom : ∀ er, (putData md5 (relink (removeSlot (copySlot t idx hash) hash) idx) hash hash
          key value 1).1 = .error er → t.maxslots < slotsOf (contents es) + slotsFor value.length := by
        intro er her
        have hlt := (hs.error er her).2.2
        rw [hm.maxslots, hrep.used_length, contents_rename] at hlt
        exact hlt
      refine PutResult.of_absent hno (hs.maxslots.trans hm.maxslots) hfree (fun hok => ?_)
        (fun er her => ⟨(hs.error er her).1, hroom er her, _, hrep.of_stored_error hs her,
          contents_rename _ _ _⟩)
      obtain ⟨es', hr', hc'⟩ := hrep.put_lead hm.gone (by rw [hm.maxslots]; exact hash_eq) hs hok
      exact ⟨es', hr', by rw [hc', contents_rename]⟩

/-- **`qhasharr_put` binds its key.**  Every call of itself removes one entry that
matches the key, and the last call finds none. -/
theorem Rep.putAux (hv : value ≠ []) : ∀ (fuel : Nat) {t : Tbl} {es : List Entry},
    Rep md5 hashFn t es → 0 < t.maxslots →
    others md5 hashFn t.maxslots key (contents es) < 32767 →
    (contents es).countP (fun kv => hits md5 hashFn t.maxslots key kv.1) < fuel →
    PutResult md5 hashFn t es key value (putAux md5 hashFn fuel t key value) := by
  intro fuel
  induction fuel with
  | zero => intro t es _ _ _ hf; exact absurd hf (by omega)
  | succ fuel ih =>
    intro t es h hn hbound hfuel
    rcases h.remove hn key with ⟨hno, _⟩ | ⟨e, he, hhit, t1, es1, hrem, hmax, hrep, hperm⟩
    · exact h.put_absent hn hv hno hbound fuel
    have hused := h.usedslots
    rw [h.used_length] at hused
    rw [Qhasharr.putAux, if_neg (by omega)]
    by_cases hfull : t.usedslots ≥ t.maxslots
    · rw [if_pos hfull]
      exact PutResult.unchanged h (by omega)
    have hbucket : e.bucket hashFn t.maxslots = hashFn key % t.maxslots := by
      simp only [hits, Bool.and_eq_true, beq_iff_eq] at hhit
      exact hhit.1
    have hpos := h.bucket_nonempty_iff.mp ⟨e, he, hbucket⟩
    obtain ⟨i, hidx⟩ : ∃ i, getIdx md5 t key (hashFn key % t.maxslots) = some i := by
      cases hi : getIdx md5 t key (hashFn key % t.maxslots) with
      | none => exact absurd hhit (by simp [h.getIdx_none hn hi e he])
      | some i => exact ⟨i, rfl⟩
    rw [if_neg hfull]
    dsimp only
    rw [if_neg (by omega), if_pos hpos, hidx]
    dsimp only
    rw [hrem]
    dsimp only
    -- the entries without the removed one
    have hb1 : others md5 hashFn t1.maxslots key (contents es1) < 32767 := by
      rw [others, hperm.countP_eq, List.countP_cons_of_neg (by simp [hhit])] at hbound
      rw [hmax]
      exact hbound
    have hf1 : (contents es1).countP (fun kv => hits md5 hashFn t1.maxslots key kv.1) < fuel := by
      rw [hperm.countP_eq, List.countP_cons_of_pos (by simpa using hhit)] at hfuel
      rw [hmax]
      omega
    have hrec := ih hrep (by omega) hb1 hf1
    -- the removed entry is not kept, and its slots are free now
    have hkept : (kept md5 hashFn t.maxslots key (contents es)).Perm
        (kept md5 hashFn t.maxslots key (contents es1)) := by
      have hfil := hperm.filter (fun kv => !hits md5 hashFn t.maxslots key kv.1)
      rw [List.filter_cons_of_neg (by simp [hhit])] at hfil
      exact hfil
    have hslots := slotsOf_perm hperm
    have hpos1 := slotsFor_pos e.value.length
    rw [slotsOf_cons] at hslots
    refine ⟨hrec.maxslots.trans hmax, fun hok => ?_, fun er her => ?_⟩
    · obtain ⟨_, es', hr, hc⟩ := hrec.ok hok
      rw [hmax] at hc
      exact ⟨by omega, es', hr, hc.trans (hkept.symm.cons _)⟩
    · obtain ⟨hen, es', hr, ⟨hf, _⟩ | ⟨_, hroom, hc⟩⟩ := hrec.error er her
      · exact absurd hf (by omega)
      · rw [hmax] at hroom hc
        refine ⟨hen, es', hr, Or.inr ⟨by omega, ?_, hc.trans hkept.symm⟩⟩
        rw [slotsOf_perm hkept]
        exact hroom

theorem Layout.length_le (h : Layout md5 t es) : es.length ≤ t.maxslots := by
  have hsub : es.map Entry.head ⊆ List.range t.maxslots := by
    intro i hi
    obtain ⟨e, he, rfl⟩ := List.mem_map.mp hi
    exact List.mem_range.mpr (h.lt _ (mem_used.mpr ⟨e, he, e.head_mem⟩))
  simpa using (h.heads_nodup.subperm hsub).length_le

theorem Rep.put (h : Rep md5 hashFn t es) (hn : 0 < t.maxslots) (hv : value ≠ [])
    (hbound : others md5 hashFn t.maxslots key (contents es) < 32767) :
    PutResult md5 hashFn t es key value (qhasharrPut md5 hashFn t key value) := by
  refine Rep.putAux hv _ h hn hbound ?_
  have hle := h.length_le
  have hcount := List.countP_le_length (p := fun kv : Bytes × Bytes =>
    hits md5 hashFn t.maxslots key kv.1) (l := contents es)
  rw [contents, List.length_map] at hcount
  rw [contents]
  omega

end

/-! ### The empty table -/

theorem Rep.of_empty (hc : ∀ i, (t.slots i).count = 0) (hu : t.usedslots = 0) (hn : t.num = 0) :
    Rep md5 hashFn t [] :=
  ⟨⟨⟨by simp, by simp, by simp, by simp⟩, fun i _ => hc i, by simpa using hu, by simpa using hn⟩,
    ⟨by simp, by simp, by simp⟩⟩

theorem rep_qhasharr (n : Nat) : Rep md5 hashFn (qhasharr n) [] :=
  Rep.of_empty (fun _ => rfl) rfl rfl

theorem Rep.clear (h : Rep md5 hashFn t es) : Rep md5 hashFn (qhasharrClear t) [] := by
  unfold qhasharrClear
  by_cases hu : t.usedslots = 0
  · -- an empty table is left as it is
    rw [if_pos hu]
    have hlen := h.usedslots
    rw [hu] at hlen
    have hnil : used es = [] := List.length_eq_zero_iff.mp (by omega)
    have hes : es = [] := by
      cases es with
      | nil => rfl
      | cons e es => exact absurd hnil (by simp [Entry.slots])
    rw [hes] at h
    exact h
  · rw [if_neg hu]
    exact Rep.of_empty (fun _ => rfl) rfl rfl

end

end QConf.Qhasharr
