import QConf.Base.Qhasharr.Layout

/-!
# Moving a slot

`qhasharr_put` displaces a slot that a new leading key needs, and
`qhasharr_remove` promotes a colliding key to the leading slot.  Both copy a slot
of some chain to an empty index and patch its neighbours; `Moved` says what the
patched table is, and `Layout.move` that the entries are the old ones with one
index renamed.
-/

namespace QConf.Qhasharr

open SlotChain

/-- The table `t'` is `t` with the slot `a` moved to `b` under the counter `c`. -/
structure Moved (t t' : Tbl) (a b : Nat) (c : Int) : Prop where
  maxslots : t'.maxslots = t.maxslots
  usedslots : t'.usedslots = t.usedslots
  num : t'.num = t.num
  here : t'.slots b = { t.slots a with count := c }
  gone : (t'.slots a).count = 0
  next : ∀ x, t.nxt a = some x → t'.slots x = { t.slots x with hash := b }
  prev : (t.slots a).count = -2 →
    t'.slots (t.prv a) = { t.slots (t.prv a) with link := (b : Int) }
  rest : ∀ x, x ≠ a → x ≠ b → t.nxt a ≠ some x → ((t.slots a).count = -2 → x ≠ t.prv a) →
    t'.slots x = t.slots x

def Entry.rename (a b : Nat) (e : Entry) : Entry :=
  ⟨e.key, e.value, moved a b e.head, e.tail.map (moved a b)⟩

theorem Entry.rename_slots (a b : Nat) (e : Entry) :
    (e.rename a b).slots = e.slots.map (moved a b) := rfl

theorem map_moved_eq_self {a b : Nat} {l : List Nat} (h : a ∉ l) : l.map (moved a b) = l := by
  have hid : ∀ x ∈ l, moved a b x = id x := fun x hx => moved_of_ne (fun he => h (he ▸ hx))
  rw [List.map_congr_left hid, List.map_id]

/-- An entry that does not use the moved slot stays as it is. -/
theorem Entry.rename_eq_self {a b : Nat} {e : Entry} (h : a ∉ e.slots) : e.rename a b = e := by
  have hhead : e.head ≠ a := fun he => h (he ▸ e.head_mem)
  rw [Entry.rename, moved_of_ne hhead, map_moved_eq_self (fun hm => h (Entry.tail_mem hm))]

theorem used_map_rename (a b : Nat) (es : List Entry) :
    used (es.map (Entry.rename a b)) = (used es).map (moved a b) := by
  induction es with
  | nil => rfl
  | cons e es ih => rw [List.map_cons, used_cons, used_cons, ih, Entry.rename_slots, List.map_append]

section

variable {md5 : Bytes → Bytes} {t t' : Tbl} {es : List Entry} {a b : Nat} {c : Int} {e : Entry}

/-- The first slot of an entry is not the slot behind another one. -/
theorem EntryOk.head_ne_of_nxt (h : EntryOk md5 t e) (hnd : e.slots.Nodup) {x y : Nat}
    (hx : x ∈ e.slots) (hn : t.nxt x = some y) : y ∈ e.tail ∧ t.prv y = x ∧ y ≠ e.head := by
  rcases h.chain.nxt_eq hx with h0 | ⟨z, hz, hxz, hpz⟩
  · exact absurd (hn.symm.trans h0) (by simp)
  · rw [Option.some_inj.mp (hn.symm.trans hxz)]
    exact ⟨hz, hpz, fun he => (List.nodup_cons.mp hnd).1 (he ▸ hz)⟩

/-- What a move does to another slot of the same chain: the one behind, the one
before, and the others. -/
theorem Moved.slot_cases (hm : Moved t t' a b c) (ho : EntryOk md5 t e) (hnd : e.slots.Nodup)
    (ha : a ∈ e.slots) (hf : 0 < (t.slots e.head).count ∨ (t.slots e.head).count = -1)
    {x : Nat} (hx : x ∈ e.slots) (hxa : x ≠ a) (hxb : x ≠ b) :
    (t.nxt a = some x ∧ t.nxt x ≠ some a ∧ t'.slots x = { t.slots x with hash := b }) ∨
    (t.nxt a ≠ some x ∧ t.nxt x = some a ∧ t'.slots x = { t.slots x with link := (b : Int) }) ∨
    (t.nxt a ≠ some x ∧ t.nxt x ≠ some a ∧ t'.slots x = t.slots x) := by
  by_cases hnext : t.nxt a = some x
  · exact Or.inl ⟨hnext, ho.chain.nxt_nxt_ne hnd ha hnext, hm.next x hnext⟩
  · by_cases hprev : t.nxt x = some a
    · obtain ⟨hat, hpa, _⟩ := ho.head_ne_of_nxt hnd hx hprev
      have hp := hm.prev (ho.ext a hat)
      rw [hpa] at hp
      exact Or.inr (Or.inl ⟨hnext, hprev, hp⟩)
    · refine Or.inr (Or.inr ⟨hnext, hprev, hm.rest x hxa hxb hnext ?_⟩)
      intro hc2 he
      -- an extension slot is behind the slot its `hash` names
      have hat : a ∈ e.tail := by
        rcases List.mem_cons.mp ha with rfl | hat
        · omega
        · exact hat
      exact hprev (he ▸ (ho.chain.prv_mem hat).2)

theorem EntryOk.rename (hm : Moved t t' a b c) (ho : EntryOk md5 t e) (hnd : e.slots.Nodup)
    (ha : a ∈ e.slots) (hb : b ∉ e.slots)
    (hf : 0 < (t.slots e.head).count ∨ (t.slots e.head).count = -1)
    (hc : c = -2 ↔ (t.slots a).count = -2) : EntryOk md5 t' (e.rename a b) := by
  have hcases : ∀ x ∈ e.slots, x ≠ a → _ := fun x hx hxa =>
    hm.slot_cases ho hnd ha hf hx hxa (fun he => hb (he ▸ hx))
  -- everything but the two links is carried along
  have hsame : ∀ x ∈ e.slots, ∀ y, y = moved a b x →
      (t'.slots y).bytes = (t.slots x).bytes ∧ (t'.slots y).size = (t.slots x).size ∧
      ((t.slots x).count = -2 → (t'.slots y).count = -2) ∧
      ((t.slots x).HoldsKey md5 e.key → (t'.slots y).HoldsKey md5 e.key) := by
    rintro x hx y rfl
    by_cases hxa : x = a
    · subst hxa
      rw [moved_self, hm.here]
      refine ⟨?_, rfl, hc.mpr, fun hk => ⟨hk.keylen, hk.bytes, hk.keymd5⟩⟩
      exact Slot.Same.bytes_eq (s := t.slots x) ⟨rfl, hc⟩
    · rw [moved_of_ne hxa]
      rcases hcases x hx hxa with ⟨_, _, hs⟩ | ⟨_, _, hs⟩ | ⟨_, _, hs⟩ <;> rw [hs]
      · exact ⟨rfl, rfl, id, fun hk => ⟨hk.keylen, hk.bytes, hk.keymd5⟩⟩
      · exact ⟨rfl, rfl, id, fun hk => ⟨hk.keylen, hk.bytes, hk.keymd5⟩⟩
      · exact ⟨rfl, rfl, id, id⟩
  refine ⟨ho.chain.rename ?_ ?_ hnd ?_ ?_, ?_, ?_, ?_, ?_, ?_⟩
  · rw [Tbl.nxt, hm.here]; rfl
  · rw [Tbl.prv, hm.here]; rfl
  · intro x hx hxa
    rcases hcases x hx hxa with ⟨_, hn, hs⟩ | ⟨_, hn, hs⟩ | ⟨_, hn, hs⟩
    · rw [map_moved_of_ne hn, Tbl.nxt, hs]; rfl
    · rw [hn, Option.map_some, moved_self, Tbl.nxt, hs]
      simp [Slot.nxt]
    · rw [map_moved_of_ne hn, Tbl.nxt, hs]; rfl
  · intro x hx hxa
    have hpn : t.nxt a ≠ some x → t.prv x ≠ a := fun hn he => hn (he ▸ (ho.chain.prv_mem hx).2)
    rcases hcases x (Entry.tail_mem hx) hxa with ⟨hn, _, hs⟩ | ⟨hn, _, hs⟩ | ⟨hn, _, hs⟩
    · rw [(ho.head_ne_of_nxt hnd ha hn).2.1, moved_self, Tbl.prv, hs]
    · rw [moved_of_ne (hpn hn), Tbl.prv, hs]; rfl
    · rw [moved_of_ne (hpn hn), Tbl.prv, hs]; rfl
  · intro y hy
    obtain ⟨x, hx, rfl⟩ := List.mem_map.mp hy
    exact (hsame x (Entry.tail_mem hx) _ rfl).2.2.1 (ho.ext x hx)
  · exact (hsame e.head e.head_mem _ rfl).2.2.2 ho.key
  · rw [Entry.rename_slots, List.flatMap_map, ← show e.value = (e.rename a b).value from rfl,
      ← ho.value]
    exact List.flatMap_congr (fun x hx => (hsame x hx _ rfl).1)
  · intro y hy
    rw [Entry.rename_slots] at hy
    obtain ⟨x, hx, rfl⟩ := List.mem_map.mp hy
    rw [(hsame x hx _ rfl).1, (hsame x hx _ rfl).2.1]
    exact ho.size x hx
  · rw [Entry.rename_slots, List.length_map]
    exact ho.fit

/-- A move changes nothing outside the chain of the moved slot. -/
theorem Moved.frame (hm : Moved t t' a b c) (ho : EntryOk md5 t e) (hnd : e.slots.Nodup)
    (ha : a ∈ e.slots) (hf : 0 < (t.slots e.head).count ∨ (t.slots e.head).count = -1)
    {x : Nat} (hx : x ∉ e.slots) (hxb : x ≠ b) : t'.slots x = t.slots x := by
  refine hm.rest x (fun he => hx (he ▸ ha)) hxb ?_ ?_
  · exact fun hn => hx (Entry.tail_mem (ho.head_ne_of_nxt hnd ha hn).1)
  · intro hc2 he
    have hat : a ∈ e.tail := by
      rcases List.mem_cons.mp ha with rfl | hat
      · omega
      · exact hat
    exact hx (he ▸ (ho.chain.prv_mem hat).1)

theorem moved_inj_on {l : List Nat} (hb : b ∉ l) :
    ∀ x ∈ l, ∀ y ∈ l, moved a b x = moved a b y → x = y := by
  intro x hx y hy hxy
  unfold moved at hxy
  split at hxy <;> split at hxy
  · exact (‹x = a›).trans (‹y = a›).symm
  · exact absurd (hxy ▸ hy) hb
  · exact absurd (hxy ▸ hx) hb
  · exact hxy

/-- The first slots after a move. -/
theorem Layout.move_head (h : Layout md5 t es) (hm : Moved t t' a b c) (ha : a ∈ used es)
    (hb : b ∉ used es) (he : e ∈ es) :
    (t'.slots (e.rename a b).head).hash = (t.slots e.head).hash ∧
    (t'.slots (e.rename a b).head).count = if e.head = a then c else (t.slots e.head).count := by
  change (t'.slots (moved a b e.head)).hash = _ ∧ (t'.slots (moved a b e.head)).count = _
  by_cases hea : e.head = a
  · rw [hea, moved_self, hm.here, if_pos rfl]
    exact ⟨rfl, rfl⟩
  · rw [moved_of_ne hea, if_neg hea]
    obtain ⟨f, hf, haf⟩ := mem_used.mp ha
    have heb : e.head ≠ b := fun heb => hb (heb ▸ mem_used.mpr ⟨e, he, e.head_mem⟩)
    by_cases hef : e.head ∈ f.slots
    · have hfe := h.eq_of_mem hf he hef e.head_mem
      subst hfe
      have hnd := h.slots_nodup he
      rcases hm.slot_cases (h.entry f he) hnd haf (h.first f he) f.head_mem hea heb with
        ⟨hn, _, _⟩ | ⟨_, _, hs⟩ | ⟨_, _, hs⟩
      · exact absurd rfl ((h.entry f he).head_ne_of_nxt hnd haf hn).2.2
      · rw [hs]; exact ⟨rfl, rfl⟩
      · rw [hs]; exact ⟨rfl, rfl⟩
    · rw [hm.frame (h.entry f hf) (h.slots_nodup hf) haf (h.first f hf) hef heb]
      exact ⟨rfl, rfl⟩

/-- **Moving a slot renames it in the entries.** -/
theorem Layout.move (h : Layout md5 t es) (hm : Moved t t' a b c) (ha : a ∈ used es)
    (hb : b ∉ used es) (hblt : b < t.maxslots) (hc : c = -2 ↔ (t.slots a).count = -2)
    (hcf : c ≠ -2 → 0 < c ∨ c = -1) : Layout md5 t' (es.map (Entry.rename a b)) := by
  obtain ⟨e, he, hae⟩ := mem_used.mp ha
  have hnd := h.slots_nodup he
  have ho := h.entry e he
  have hf := h.first e he
  have hbf : ∀ f ∈ es, b ∉ f.slots := fun f hf hm => hb (mem_used.mpr ⟨f, hf, hm⟩)
  have hother : ∀ f ∈ es, f ≠ e → a ∉ f.slots ∧ ∀ x ∈ f.slots, t'.slots x = t.slots x := by
    intro f hfe hne
    refine ⟨fun haf => hne (h.eq_of_mem hfe he haf hae), fun x hx => ?_⟩
    exact hm.frame ho hnd hae hf (fun hxe => hne (h.eq_of_mem hfe he hx hxe))
      (fun hxb => hbf f hfe (hxb ▸ hx))
  refine ⟨⟨?_, ?_, ?_, ?_⟩, ?_, ?_, ?_⟩
  · rw [used_map_rename]
    exact h.nodup.map_on (moved_inj_on hb)
  · intro y hy
    rw [used_map_rename] at hy
    obtain ⟨x, hx, rfl⟩ := List.mem_map.mp hy
    rw [hm.maxslots]
    unfold moved
    split
    · exact hblt
    · exact h.lt x hx
  · intro g hg
    obtain ⟨f, hfe, rfl⟩ := List.mem_map.mp hg
    by_cases hfe' : f = e
    · rw [hfe']
      exact ho.rename hm hnd hae (hbf e he) hf hc
    · rw [Entry.rename_eq_self (hother f hfe hfe').1]
      exact (h.entry f hfe).congr (fun x hx => Slot.Same.of_eq ((hother f hfe hfe').2 x hx))
  · intro g hg
    obtain ⟨f, hfe, rfl⟩ := List.mem_map.mp hg
    rw [(h.move_head hm ha hb hfe).2]
    have hff := h.first f hfe
    split
    · next hfa =>
      rw [hfa] at hff
      exact hcf (fun h2 => by rw [hc] at h2; omega)
    · exact hff
  · intro x hx
    rw [used_map_rename] at hx
    by_cases hxa : x = a
    · rw [hxa]; exact hm.gone
    · have hxb : x ≠ b := fun hxb => hx (List.mem_map.mpr ⟨a, ha, by rw [moved_self, hxb]⟩)
      have hxu : x ∉ used es := fun hu => hx (List.mem_map.mpr ⟨x, hu, moved_of_ne hxa⟩)
      rw [hm.frame ho hnd hae hf (fun hxe => hxu (mem_used.mpr ⟨e, he, hxe⟩)) hxb]
      exact h.empty x hxu
  · rw [hm.usedslots, used_map_rename, List.length_map, h.usedslots]
  · rw [hm.num, List.length_map, h.num]

/-! ### The two moves of the source -/

theorem fixNext_eq (t : Tbl) (i : Nat) :
    fixNext t i = { t with
      slots := fun x => if t.nxt i = some x then { t.slots x with hash := i } else t.slots x } := by
  unfold fixNext Tbl.nxt Slot.nxt
  by_cases hl : (t.slots i).link = -1
  · rw [if_neg (by simpa using hl)]
    simp [hl]
  · rw [if_pos hl]
    refine Tbl.ext rfl rfl rfl (funext fun x => ?_)
    by_cases hx : x = (t.slots i).link.toNat
    · subst hx; simp [hl]
    · simp [setSlot_slots_of_ne _ _ hx, hl, Ne.symm hx]

/-- The slot `a` was copied to `b` and freed, and its neighbours were not told. -/
structure Copied (t t' : Tbl) (a b : Nat) (c : Int) : Prop where
  maxslots : t'.maxslots = t.maxslots
  usedslots : t'.usedslots = t.usedslots
  num : t'.num = t.num
  here : t'.slots b = { t.slots a with count := c }
  gone : (t'.slots a).count = 0
  rest : ∀ x, x ≠ a → x ≠ b → t'.slots x = t.slots x

theorem removeSlot_copySlot (hab : a ≠ b) (ha : (t.slots a).count ≠ 0)
    (hb : (t.slots b).count = 0) :
    Copied t (removeSlot (copySlot t b a) a) a b (t.slots a).count := by
  have hcopy : copySlot t b a = { t.setSlot b (t.slots a) with usedslots := t.usedslots + 1 } := by
    rw [copySlot, if_neg (by simp [ha, hb])]
  have hsa : (copySlot t b a).slots a = t.slots a := by
    rw [hcopy]
    exact setSlot_slots_of_ne t _ hab
  rw [removeSlot, hsa, if_neg ha, hcopy]
  refine ⟨rfl, by simp, rfl, ?_, by simp, fun x hxa hxb => ?_⟩
  · simp [setSlot_slots_of_ne _ _ hab.symm]
  · simp [setSlot_slots_of_ne _ _ hxa, setSlot_slots_of_ne _ _ hxb]

theorem Copied.setCount (h : Copied t t' a b c) (hab : a ≠ b) (c' : Int) :
    Copied t (t'.setSlot b { t'.slots b with count := c' }) a b c' := by
  refine ⟨h.maxslots, h.usedslots, h.num, ?_, ?_, fun x hxa hxb => ?_⟩
  · rw [setSlot_slots_self, h.here]
  · rw [setSlot_slots_of_ne _ _ hab, h.gone]
  · rw [setSlot_slots_of_ne _ _ hxb, h.rest x hxa hxb]

/-- The neighbours of a slot of a chain are other slots in use. -/
theorem Layout.neighbours (h : Layout md5 t es) (ha : a ∈ used es) :
    (∀ y, t.nxt a = some y → y ∈ used es ∧ y ≠ a ∧ t.nxt y ≠ some a) ∧
    ((t.slots a).count = -2 → t.prv a ∈ used es ∧ t.prv a ≠ a ∧ t.nxt (t.prv a) = some a) := by
  obtain ⟨e, he, hae⟩ := mem_used.mp ha
  have hnd := h.slots_nodup he
  have ho := h.entry e he
  have hirr : ∀ x ∈ e.slots, t.nxt x ≠ some x := fun x hx hxx =>
    ho.chain.nxt_nxt_ne hnd hx hxx hxx
  refine ⟨fun y hy => ⟨?_, ?_, ho.chain.nxt_nxt_ne hnd hae hy⟩, fun hc2 => ?_⟩
  · exact mem_used.mpr ⟨e, he, Entry.tail_mem (ho.head_ne_of_nxt hnd hae hy).1⟩
  · rintro rfl
    exact hirr y hae hy
  · have hat : a ∈ e.tail := by
      rcases List.mem_cons.mp hae with rfl | hat
      · have := h.first e he
        omega
      · exact hat
    obtain ⟨hp, hn⟩ := ho.chain.prv_mem hat
    refine ⟨mem_used.mpr ⟨e, he, hp⟩, fun hpa => ?_, hn⟩
    exact hirr a hae (by rw [hpa] at hn; exact hn)

/-- The neighbours of a first slot: only the one behind it. -/
theorem Copied.fixNext (h : Copied t t' a b c) (hc2 : (t.slots a).count ≠ -2)
    (hnext : ∀ y, t.nxt a = some y → y ≠ a ∧ y ≠ b) (hab : a ≠ b) :
    Moved t (fixNext t' b) a b c := by
  have hn : t'.nxt b = t.nxt a := by rw [Tbl.nxt, h.here]; rfl
  have hself : ∀ x, (x = a ∨ x = b) → t.nxt a ≠ some x := by
    rintro x (rfl | rfl) hx
    · exact (hnext x hx).1 rfl
    · exact (hnext x hx).2 rfl
  rw [fixNext_eq, hn]
  refine ⟨h.maxslots, h.usedslots, h.num, ?_, ?_, ?_, fun h2 => absurd h2 hc2, ?_⟩
  · simp only [if_neg (hself b (Or.inr rfl))]
    exact h.here
  · simp only [if_neg (hself a (Or.inl rfl))]
    exact h.gone
  · intro x hx
    simp only [if_pos hx]
    rw [h.rest x (hnext x hx).1 (hnext x hx).2]
  · intro x hxa hxb hx _
    simp only [if_neg hx]
    exact h.rest x hxa hxb

/-- The neighbours of an extension slot: the one before it and the one behind. -/
theorem Copied.relink (h : Copied t t' a b (-2)) (hc2 : (t.slots a).count = -2)
    (hnext : ∀ y, t.nxt a = some y → y ≠ a ∧ y ≠ b ∧ y ≠ t.prv a)
    (hprev : t.prv a ≠ a ∧ t.prv a ≠ b) : Moved t (relink t' b) a b (-2) := by
  obtain ⟨hpa, hpb⟩ := hprev
  have hhash : (t'.slots b).hash = t.prv a := by rw [h.here]; rfl
  have hself : ∀ x, (x = a ∨ x = b ∨ x = t.prv a) → t.nxt a ≠ some x := by
    rintro x (rfl | rfl | rfl) hx
    · exact (hnext x hx).1 rfl
    · exact (hnext x hx).2.1 rfl
    · exact (hnext _ hx).2.2 rfl
  have hrel : Qhasharr.relink t' b = Qhasharr.fixNext (t'.setSlot (t.prv a)
      { t.slots (t.prv a) with link := (b : Int) }) b := by
    rw [Qhasharr.relink, if_pos (by rw [h.here])]
    simp only [hhash, h.rest _ hpa hpb]
  generalize ht3 : t'.setSlot (t.prv a) { t.slots (t.prv a) with link := (b : Int) } = t3 at hrel
  have hp3 : t3.slots (t.prv a) = { t.slots (t.prv a) with link := (b : Int) } := by
    rw [← ht3, setSlot_slots_self]
  have hx3 : ∀ x, x ≠ t.prv a → t3.slots x = t'.slots x := fun x hx => by
    rw [← ht3, setSlot_slots_of_ne _ _ hx]
  have hn : t3.nxt b = t.nxt a := by rw [Tbl.nxt, hx3 b hpb.symm, h.here]; rfl
  rw [hrel, fixNext_eq, hn]
  refine ⟨?_, ?_, ?_, ?_, ?_, ?_, ?_, ?_⟩
  · rw [← ht3]; exact h.maxslots
  · rw [← ht3]; exact h.usedslots
  · rw [← ht3]; exact h.num
  · simp only [if_neg (hself b (by simp))]
    rw [hx3 b hpb.symm, h.here]
  · simp only [if_neg (hself a (by simp))]
    rw [hx3 a hpa.symm, h.gone]
  · intro x hx
    obtain ⟨hxa, hxb, hxp⟩ := hnext x hx
    simp only [if_pos hx]
    rw [hx3 x hxp, h.rest x hxa hxb]
  · intro _
    simp only [if_neg (hself (t.prv a) (by simp))]
    exact hp3
  · intro x hxa hxb hx hxp
    simp only [if_neg hx]
    rw [hx3 x (hxp hc2), h.rest x hxa hxb]

/-- **The displacement of `qhasharr_put`.** -/
theorem Layout.displaced (h : Layout md5 t es) (ha : a ∈ used es) (hb : b ∉ used es)
    (hneg : (t.slots a).count < 0) :
    Moved t (relink (removeSlot (copySlot t b a) a) b) a b (t.slots a).count := by
  have hab : a ≠ b := fun he => hb (he ▸ ha)
  obtain ⟨hnext, hprev⟩ := h.neighbours ha
  have hnb : ∀ x ∈ used es, x ≠ b := fun x hx he => hb (he ▸ hx)
  have hcopied := removeSlot_copySlot hab (h.count_ne_zero ha) (h.empty b hb)
  by_cases hc2 : (t.slots a).count = -2
  · obtain ⟨hpu, hpa, hpn⟩ := hprev hc2
    rw [hc2] at hcopied ⊢
    refine hcopied.relink hc2 (fun y hy => ?_) ⟨hpa, hnb _ hpu⟩
    obtain ⟨hyu, hya, hyn⟩ := hnext y hy
    exact ⟨hya, hnb y hyu, fun he => hyn (he ▸ hpn)⟩
  · have hc1 : (t.slots a).count = -1 := by
      obtain ⟨e, he, hae⟩ := mem_used.mp ha
      rcases List.mem_cons.mp hae with rfl | hat
      · have := h.first e he
        omega
      · exact absurd ((h.entry e he).ext a hat) hc2
    have hrel : Qhasharr.relink (removeSlot (copySlot t b a) a) b =
        Qhasharr.fixNext (removeSlot (copySlot t b a) a) b := by
      rw [relink, hcopied.here, if_neg hc2, if_pos hc1]
    rw [hrel]
    exact hcopied.fixNext hc2 (fun y hy => ⟨(hnext y hy).2.1, hnb y (hnext y hy).1⟩) hab

/-- **The promotion of `qhasharr_remove`.** -/
theorem Layout.promoted (h : Layout md5 t es) (ha : a ∈ used es) (hb : b ∉ used es)
    (hcol : (t.slots a).count = -1) (c : Int) :
    Moved t (fixNext ((removeSlot (copySlot t b a) a).setSlot b
      { (removeSlot (copySlot t b a) a).slots b with count := c }) b) a b c := by
  have hab : a ≠ b := fun he => hb (he ▸ ha)
  obtain ⟨hnext, -⟩ := h.neighbours ha
  have hcopied := (removeSlot_copySlot hab (h.count_ne_zero ha) (h.empty b hb)).setCount
    hab c
  exact hcopied.fixNext (by omega)
    (fun y hy => ⟨(hnext y hy).2.1, fun he => hb (he ▸ (hnext y hy).1)⟩) hab

end

end QConf.Qhasharr
