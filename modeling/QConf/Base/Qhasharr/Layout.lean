import QConf.Base.Qhasharr.Model
import QConf.Lib.SlotChain
import QConf.Lib.Ring

/-!
# How the slots of a table are laid out

The slots in use are cut into the chains of the stored entries.  `Layout t es`
says that the entries `es` account for the whole array: their slots are distinct
indices of the table, every other slot is empty, each chain is linked forward
through `link` and backward through `hash`, and the pieces along it are the
entry's value.  The two counters of the table are then the number of slots in
use and the number of entries.

What the helpers of the source do to a table is stated here as what they do to
its layout: reading a chain, freeing one, starting one, making one longer and
moving one of its slots.  Buckets do not occur in this module.
-/

namespace QConf.Qhasharr

open SlotChain

/-- A stored key with its value and the slots that hold it. -/
structure Entry where
  key : Bytes
  value : Bytes
  head : Nat
  tail : List Nat
  deriving DecidableEq

def Entry.slots (e : Entry) : List Nat := e.head :: e.tail

theorem Entry.head_mem (e : Entry) : e.head ∈ e.slots := by simp [Entry.slots]

theorem Entry.tail_mem {e : Entry} {i : Nat} (h : i ∈ e.tail) : i ∈ e.slots :=
  List.mem_cons_of_mem _ h

/-- The slots a value of `len` bytes takes: one for the first bytes, and one for
each further piece. -/
def slotsFor (len : Nat) : Nat := 1 + (len - valuesize + (slotDataSize - 1)) / slotDataSize

/-- The bytes that fit the slots of an entry. -/
def Entry.capacity (e : Entry) : Nat := valuesize + slotDataSize * e.tail.length

/-- The slots in use. -/
def used (es : List Entry) : List Nat := es.flatMap Entry.slots

@[simp] theorem used_nil : used [] = [] := rfl

@[simp] theorem used_cons (e : Entry) (es : List Entry) : used (e :: es) = e.slots ++ used es := rfl

theorem mem_used {es : List Entry} {i : Nat} : i ∈ used es ↔ ∃ e ∈ es, i ∈ e.slots :=
  List.mem_flatMap

theorem used_perm {es es' : List Entry} (h : es.Perm es') : (used es).Perm (used es') :=
  h.flatMap_right _

/-- The index of the next slot of the chain. -/
def Slot.nxt (s : Slot) : Option Nat := if s.link = -1 then none else some s.link.toNat

/-- The slot after `i` in its chain. -/
def Tbl.nxt (t : Tbl) (i : Nat) : Option Nat := (t.slots i).nxt

/-- What the `hash` of an extension slot means. -/
def Tbl.prv (t : Tbl) (i : Nat) : Nat := (t.slots i).hash

/-- The key fields of a first slot are those of `key`. -/
structure Slot.HoldsKey (md5 : Bytes → Bytes) (s : Slot) (key : Bytes) : Prop where
  keylen : s.keylen = key.length % 65536
  bytes : s.key.take (min key.length keysize) = key.take keysize
  keymd5 : s.keymd5 = md5 key

/-- The chain of one entry. -/
structure EntryOk (md5 : Bytes → Bytes) (t : Tbl) (e : Entry) : Prop where
  chain : Chain t.nxt t.prv e.head e.tail
  ext : ∀ i ∈ e.tail, (t.slots i).count = -2
  key : (t.slots e.head).HoldsKey md5 e.key
  value : e.slots.flatMap (fun i => (t.slots i).bytes) = e.value
  size : ∀ i ∈ e.slots, (t.slots i).bytes.length = (t.slots i).size
  fit : e.slots.length = slotsFor e.value.length

/-- The entries `es` stand in the table on slots of their own. -/
structure Intact (md5 : Bytes → Bytes) (t : Tbl) (es : List Entry) : Prop where
  nodup : (used es).Nodup
  lt : ∀ i ∈ used es, i < t.maxslots
  entry : ∀ e ∈ es, EntryOk md5 t e
  first : ∀ e ∈ es, 0 < (t.slots e.head).count ∨ (t.slots e.head).count = -1

/-- **The layout of a table**: the entries are intact and there is nothing else. -/
structure Layout (md5 : Bytes → Bytes) (t : Tbl) (es : List Entry) : Prop
    extends Intact md5 t es where
  empty : ∀ i, i ∉ used es → (t.slots i).count = 0
  usedslots : t.usedslots = (used es).length
  num : t.num = es.length

/-! ### What a change elsewhere keeps -/

/-- Two states of a slot that differ at most in the counter of a first slot. -/
def Slot.Same (s s' : Slot) : Prop :=
  s' = { s with count := s'.count } ∧ (s'.count = -2 ↔ s.count = -2)

theorem Slot.Same.refl (s : Slot) : s.Same s := ⟨rfl, Iff.rfl⟩

theorem Slot.Same.of_eq {s s' : Slot} (h : s' = s) : s.Same s' := h ▸ Slot.Same.refl s

theorem Slot.Same.bytes_eq {s s' : Slot} (h : s.Same s') : s'.bytes = s.bytes := by
  obtain ⟨he, hc⟩ := h
  unfold Slot.bytes
  by_cases h2 : s.count = -2
  · rw [if_pos h2, if_pos (hc.mpr h2), he]
  · rw [if_neg h2, if_neg (fun h => h2 (hc.mp h)), he]

theorem Slot.nxt_congr {s s' : Slot} (h : s'.link = s.link) : s'.nxt = s.nxt := by
  rw [Slot.nxt, Slot.nxt, h]

theorem EntryOk.congr {md5 : Bytes → Bytes} {t t' : Tbl} {e : Entry} (h : EntryOk md5 t e)
    (hs : ∀ i ∈ e.slots, (t.slots i).Same (t'.slots i)) : EntryOk md5 t' e where
  chain := by
    refine h.chain.congr (fun i hi => Slot.nxt_congr ?_) (fun i hi => ?_)
    · rw [(hs i hi).1]
    · rw [Tbl.prv, Tbl.prv, (hs i (Entry.tail_mem hi)).1]
  ext i hi := ((hs i (Entry.tail_mem hi)).2).mpr (h.ext i hi)
  key := by
    have hk := h.key
    rw [(hs e.head e.head_mem).1]
    exact ⟨hk.keylen, hk.bytes, hk.keymd5⟩
  value := by
    rw [← h.value]
    exact List.flatMap_congr (fun i hi => (hs i hi).bytes_eq)
  size i hi := by
    rw [(hs i hi).bytes_eq, h.size i hi, (hs i hi).1]
  fit := h.fit

section

variable {md5 : Bytes → Bytes} {t t' : Tbl} {es es' : List Entry}

theorem Intact.congr (h : Intact md5 t es) (hmax : t'.maxslots = t.maxslots)
    (hs : ∀ i ∈ used es, t'.slots i = t.slots i) : Intact md5 t' es where
  nodup := h.nodup
  lt i hi := hmax ▸ h.lt i hi
  entry e he := (h.entry e he).congr
    (fun i hi => Slot.Same.of_eq (hs i (mem_used.mpr ⟨e, he, hi⟩)))
  first e he := by
    rw [hs _ (mem_used.mpr ⟨e, he, e.head_mem⟩)]
    exact h.first e he

theorem Intact.tail {e : Entry} (h : Intact md5 t (e :: es)) : Intact md5 t es where
  nodup := (List.nodup_append.mp h.nodup).2.1
  lt i hi := h.lt i (List.mem_append_right _ hi)
  entry f hf := h.entry f (List.mem_cons_of_mem _ hf)
  first f hf := h.first f (List.mem_cons_of_mem _ hf)

theorem Intact.cons (h : Intact md5 t es) {e : Entry} (hnd : e.slots.Nodup)
    (hdis : ∀ i ∈ e.slots, i ∉ used es) (hlt : ∀ i ∈ e.slots, i < t.maxslots)
    (he : EntryOk md5 t e) (hf : 0 < (t.slots e.head).count ∨ (t.slots e.head).count = -1) :
    Intact md5 t (e :: es) where
  nodup := List.nodup_append.mpr ⟨hnd, h.nodup, fun i hi _ hj hij => hdis i hi (hij ▸ hj)⟩
  lt i hi := (List.mem_append.mp hi).elim (hlt i) (h.lt i)
  entry f hm := (List.mem_cons.mp hm).elim (fun hfe => hfe ▸ he) (h.entry f)
  first f hm := (List.mem_cons.mp hm).elim (fun hfe => hfe ▸ hf) (h.first f)

theorem Intact.not_mem_of_mem {e : Entry} (h : Intact md5 t (e :: es)) {i : Nat}
    (hi : i ∈ used es) : i ∉ e.slots := fun hie =>
  (List.nodup_append.mp h.nodup).2.2 i hie i hi rfl

theorem Layout.perm (h : Layout md5 t es) (hp : es.Perm es') : Layout md5 t es' where
  nodup := (used_perm hp).nodup_iff.mp h.nodup
  lt i hi := h.lt i ((used_perm hp).mem_iff.mpr hi)
  empty i hi := h.empty i (fun hm => hi ((used_perm hp).mem_iff.mp hm))
  entry e he := h.entry e (hp.mem_iff.mpr he)
  first e he := h.first e (hp.mem_iff.mpr he)
  usedslots := by rw [h.usedslots, (used_perm hp).length_eq]
  num := by rw [h.num, hp.length_eq]

theorem Layout.count_ne_zero (h : Layout md5 t es) {i : Nat} (hi : i ∈ used es) :
    (t.slots i).count ≠ 0 := by
  obtain ⟨e, he, hie⟩ := mem_used.mp hi
  rcases List.mem_cons.mp hie with rfl | hit
  · rcases h.first e he with h1 | h1 <;> omega
  · rw [(h.entry e he).ext i hit]; decide

/-- A slot is in use exactly when its counter is not zero. -/
theorem Layout.mem_used_iff (h : Layout md5 t es) {i : Nat} :
    i ∈ used es ↔ (t.slots i).count ≠ 0 :=
  ⟨h.count_ne_zero, fun hc => Classical.byContradiction (fun hi => hc (h.empty i hi))⟩

theorem Layout.slots_nodup (h : Layout md5 t es) {e : Entry} (he : e ∈ es) : e.slots.Nodup :=
  (List.nodup_flatMap.mp h.nodup).1 e he

/-- A slot of an entry determines the entry. -/
theorem Layout.eq_of_mem (h : Layout md5 t es) {e f : Entry} (he : e ∈ es) (hf : f ∈ es) {i : Nat}
    (hie : i ∈ e.slots) (hif : i ∈ f.slots) : e = f := by
  by_contra hne
  have : Std.Symm (Function.onFun List.Disjoint Entry.slots) := ⟨fun _ _ hd => hd.symm⟩
  exact (List.nodup_flatMap.mp h.nodup).2.forall he hf hne hie hif

/-- The slots with a positive counter or `-1` are the first slots. -/
theorem Layout.exists_head (h : Layout md5 t es) {i : Nat}
    (hi : 0 < (t.slots i).count ∨ (t.slots i).count = -1) : ∃ e ∈ es, e.head = i := by
  have hne : (t.slots i).count ≠ 0 := by omega
  obtain ⟨e, he, hie⟩ := mem_used.mp (h.mem_used_iff.mpr hne)
  rcases List.mem_cons.mp hie with rfl | hit
  · exact ⟨e, he, rfl⟩
  · have := (h.entry e he).ext i hit
    omega

theorem Layout.tail_length_le (h : Layout md5 t es) {e : Entry} (he : e ∈ es) :
    e.tail.length ≤ t.maxslots := by
  have hsub : e.slots ⊆ List.range t.maxslots := fun i hi =>
    List.mem_range.mpr (h.lt i (mem_used.mpr ⟨e, he, hi⟩))
  have := ((h.slots_nodup he).subperm hsub).length_le
  rw [List.length_range, Entry.slots, List.length_cons] at this
  omega

/-! ### Reading a chain -/

theorem Tbl.link_of_nxt_none {i : Nat} (h : t.nxt i = none) : (t.slots i).link = -1 := by
  unfold Tbl.nxt Slot.nxt at h
  split at h
  · assumption
  · exact absurd h (by simp)

theorem Tbl.link_of_nxt_some {i j : Nat} (h : t.nxt i = some j) :
    (t.slots i).link ≠ -1 ∧ (t.slots i).link.toNat = j := by
  unfold Tbl.nxt Slot.nxt at h
  split at h
  · exact absurd h (by simp)
  · exact ⟨by assumption, Option.some_inj.mp h⟩

theorem valsizeLoop_eq : ∀ {i : Nat} {rest : List Nat}, Chain t.nxt t.prv i rest →
    ∀ (fuel acc : Nat), rest.length ≤ fuel →
      valsizeLoop t fuel i acc = some (acc + ((i :: rest).map (fun j => (t.slots j).size)).sum) := by
  intro i rest
  induction rest generalizing i with
  | nil =>
    intro h fuel acc _
    have hl := Tbl.link_of_nxt_none (show t.nxt i = none from h)
    cases fuel <;> simp [valsizeLoop, hl]
  | cons j rest ih =>
    intro h fuel acc hfuel
    obtain ⟨hl, hj⟩ := Tbl.link_of_nxt_some h.1
    cases fuel with
    | zero => exact absurd hfuel (by simp)
    | succ fuel =>
      rw [valsizeLoop, if_neg hl, hj, ih h.2.2 fuel _ (by simpa using hfuel)]
      simp only [List.map_cons, List.sum_cons, Nat.add_assoc]

theorem copyLoop_eq {valsize : Nat} : ∀ {i : Nat} {rest : List Nat}, Chain t.nxt t.prv i rest →
    (∀ j ∈ i :: rest, (t.slots j).bytes.length = (t.slots j).size) →
    ∀ (fuel : Nat) (acc : Bytes), rest.length ≤ fuel →
      acc.length + ((i :: rest).flatMap (fun j => (t.slots j).bytes)).length = valsize →
      copyLoop t valsize fuel i acc =
        some (acc ++ (i :: rest).flatMap (fun j => (t.slots j).bytes)) := by
  intro i rest
  induction rest generalizing i with
  | nil =>
    intro h hsz fuel acc _ hv
    have hl := Tbl.link_of_nxt_none (show t.nxt i = none from h)
    have hi := hsz i (by simp)
    rw [List.flatMap_cons, List.flatMap_nil, List.append_nil] at hv ⊢
    by_cases hlt : acc.length < valsize
    · have hle : ¬ valsize < acc.length + (t.slots i).size := by omega
      cases fuel <;> simp only [copyLoop, if_pos hlt, if_neg hle, if_pos hl]
    · -- an empty last piece is not looked at
      have hnil : (t.slots i).bytes = [] := List.length_eq_zero_iff.mp (by omega)
      cases fuel <;> simp only [copyLoop, if_neg hlt, hnil, List.append_nil]
  | cons j rest ih =>
    intro h hsz fuel acc hfuel hv
    obtain ⟨hl, hj⟩ := Tbl.link_of_nxt_some h.1
    have hi := hsz i (by simp)
    rw [List.flatMap_cons, List.length_append] at hv
    rw [List.flatMap_cons]
    cases fuel with
    | zero => exact absurd hfuel (by simp)
    | succ fuel =>
      by_cases hlt : acc.length < valsize
      · rw [copyLoop, if_pos hlt, if_neg (by omega), if_neg hl, hj,
          ih h.2.2 (fun k hk => hsz k (List.mem_cons_of_mem _ hk)) fuel _ (by simpa using hfuel)
            (by rw [List.length_append]; omega), List.append_assoc]
      · have hnil : (t.slots i).bytes ++ (j :: rest).flatMap (fun j => (t.slots j).bytes) = [] :=
          List.length_eq_zero_iff.mp (by rw [List.length_append]; omega)
        rw [copyLoop, if_neg hlt, hnil, List.append_nil]

/-- **Reading a chain gives the entry's value.** -/
theorem Layout.getData_eq (h : Layout md5 t es) {e : Entry} (he : e ∈ es) :
    getData t e.head = some e.value := by
  have ho := h.entry e he
  have hlen := h.tail_length_le he
  have hsum : (e.slots.map (fun j => (t.slots j).size)).sum = e.value.length := by
    rw [← ho.value, List.length_flatMap]
    congr 1
    exact List.map_congr_left (fun i hi => (ho.size i hi).symm)
  have hval : (e.head :: e.tail).flatMap (fun j => (t.slots j).bytes) = e.value := ho.value
  rw [Entry.slots] at hsum
  rw [getData, valsizeLoop_eq ho.chain _ _ hlen, hsum]
  simp only [Nat.zero_add]
  rw [copyLoop_eq ho.chain ho.size _ _ hlen (by rw [hval]; simp), hval]
  simp

/-! ### Freeing a chain -/

/-- The table after every slot of `l` was freed. -/
def freeSlots (t : Tbl) (l : List Nat) : Tbl where
  maxslots := t.maxslots
  usedslots := t.usedslots - l.length
  num := t.num
  slots i := if i ∈ l then { t.slots i with count := 0 } else t.slots i

theorem freeSlots_slots_of_not_mem {l : List Nat} {i : Nat} (h : i ∉ l) :
    (freeSlots t l).slots i = t.slots i := if_neg h

theorem removeSlot_eq {i : Nat} (h : (t.slots i).count ≠ 0) :
    removeSlot t i = freeSlots t [i] := by
  rw [removeSlot, if_neg h]
  refine Tbl.ext rfl rfl rfl (funext fun j => ?_)
  by_cases hj : j = i
  · simp [freeSlots, Tbl.setSlot, hj]
  · simp [freeSlots, Tbl.setSlot, hj]

theorem freeSlots_cons (t : Tbl) {i : Nat} {l : List Nat} (h : i ∉ l) :
    freeSlots (freeSlots t [i]) l = freeSlots t (i :: l) := by
  refine Tbl.ext rfl ?_ rfl (funext fun j => ?_)
  · simp only [freeSlots, List.length_cons, List.length_nil]
    omega
  · by_cases hj : j = i
    · simp [freeSlots, hj, h]
    · by_cases hl : j ∈ l <;> simp [freeSlots, hj, hl]

theorem removeLoop_eq : ∀ (fuel : Nat) {t : Tbl} {i : Nat} {rest : List Nat},
    Chain t.nxt t.prv i rest → (i :: rest).Nodup → (∀ j ∈ i :: rest, (t.slots j).count ≠ 0) →
    rest.length ≤ fuel → removeLoop fuel t i = freeSlots t (i :: rest) := by
  intro fuel
  induction fuel with
  | zero =>
    intro t i rest _ _ hc hlen
    rw [List.length_eq_zero_iff.mp (Nat.le_zero.mp hlen)]
    exact removeSlot_eq (hc i (by simp))
  | succ fuel ih =>
    intro t i rest h hnd hc hlen
    cases rest with
    | nil =>
      have hl := Tbl.link_of_nxt_none (show t.nxt i = none from h)
      simp only [removeLoop, if_pos hl]
      exact removeSlot_eq (hc i (by simp))
    | cons j rest =>
      obtain ⟨hl, hj⟩ := Tbl.link_of_nxt_some h.1
      obtain ⟨hi, hnd'⟩ := List.nodup_cons.mp hnd
      -- the slots behind `i` are as they were
      have hframe : ∀ k ∈ j :: rest, (freeSlots t [i]).slots k = t.slots k := fun k hk =>
        freeSlots_slots_of_not_mem (fun hm => hi (List.mem_singleton.mp hm ▸ hk))
      simp only [removeLoop, if_neg hl, hj]
      rw [removeSlot_eq (hc i (by simp)), ih ?_ hnd' ?_ (by simpa using hlen),
        freeSlots_cons t hi]
      · refine h.2.2.congr (fun k hk => Slot.nxt_congr (by rw [hframe k hk])) (fun k hk => ?_)
        rw [Tbl.prv, Tbl.prv, hframe k (List.mem_cons_of_mem _ hk)]
      · intro k hk
        rw [hframe k hk]
        exact hc k (List.mem_cons_of_mem _ hk)

/-- **What `_remove_data` leaves** of a table whose entry `e` starts at the
given slot. -/
theorem Layout.removeData_eq (h : Layout md5 t es) {e : Entry} (he : e ∈ es) :
    removeData t e.head = { freeSlots t e.slots with num := t.num - 1 } := by
  have hc : ∀ i ∈ e.slots, (t.slots i).count ≠ 0 := fun i hi =>
    h.count_ne_zero (mem_used.mpr ⟨e, he, hi⟩)
  rw [removeData, if_neg (hc _ e.head_mem),
    removeLoop_eq _ (h.entry e he).chain (h.slots_nodup he) hc (h.tail_length_le he)]
  rfl

theorem Layout.removeData_frame {e : Entry} (h : Layout md5 t (e :: es)) :
    (removeData t e.head).maxslots = t.maxslots ∧
      ∀ i ∈ used es, (removeData t e.head).slots i = t.slots i := by
  rw [h.removeData_eq (by simp)]
  exact ⟨rfl, fun i hi => freeSlots_slots_of_not_mem (h.not_mem_of_mem hi)⟩

theorem Layout.removeData {e : Entry} (h : Layout md5 t (e :: es)) :
    Layout md5 (removeData t e.head) es := by
  rw [h.removeData_eq (by simp)]
  refine ⟨h.tail.congr rfl ?_, ?_, ?_, ?_⟩
  · intro i hi
    exact freeSlots_slots_of_not_mem (h.not_mem_of_mem hi)
  · intro i hi
    by_cases hie : i ∈ e.slots
    · simp [freeSlots, hie]
    · simp only [freeSlots, if_neg hie]
      exact h.empty i (by simp [hie, hi])
  · simp only [freeSlots, h.usedslots, used_cons, List.length_append]
    omega
  · simp only [h.num, List.length_cons]
    omega

/-! ### Starting a chain and making it longer -/

@[simp] theorem setSlot_slots_self (t : Tbl) (i : Nat) (s : Slot) : (t.setSlot i s).slots i = s := by
  simp [Tbl.setSlot]

theorem setSlot_slots_of_ne (t : Tbl) {i j : Nat} (s : Slot) (h : j ≠ i) :
    (t.setSlot i s).slots j = t.slots j := by
  simp [Tbl.setSlot, h]

@[simp] theorem setSlot_maxslots (t : Tbl) (i : Nat) (s : Slot) :
    (t.setSlot i s).maxslots = t.maxslots := rfl

@[simp] theorem setSlot_usedslots (t : Tbl) (i : Nat) (s : Slot) :
    (t.setSlot i s).usedslots = t.usedslots := rfl

theorem memcpy_take (dst src : Bytes) : (memcpy dst src).take src.length = src := by
  simp [memcpy]

/-- A first slot with the key and the first piece of the value. -/
def firstSlot (md5 : Bytes → Bytes) (s : Slot) (hash : Nat) (key value : Bytes) (c : Int) : Slot where
  count := c
  hash := hash
  size := min value.length valuesize
  link := -1
  value := memcpy s.value (value.take (min value.length valuesize))
  key := memcpy s.key (key.take keysize)
  keylen := key.length % 65536
  keymd5 := md5 key
  ext := s.ext

@[simp] theorem firstSlot_size (s : Slot) (hash : Nat) (key value : Bytes) (c : Int) :
    (firstSlot md5 s hash key value c).size = min value.length valuesize := rfl

theorem firstSlot_bytes {s : Slot} {hash : Nat} {key value : Bytes} {c : Int} (hc : c ≠ -2) :
    (firstSlot md5 s hash key value c).bytes = value.take valuesize := by
  have h := memcpy_take s.value (value.take (min value.length valuesize))
  rw [List.length_take_of_le (Nat.min_le_left _ _)] at h
  simp only [Slot.bytes, firstSlot, if_neg hc, h]
  rw [List.take_eq_take_iff]
  omega

theorem firstSlot_holdsKey (s : Slot) (hash : Nat) (key value : Bytes) (c : Int) :
    (firstSlot md5 s hash key value c).HoldsKey md5 key where
  keylen := rfl
  bytes := by
    have h := memcpy_take s.key (key.take keysize)
    rw [List.length_take, Nat.min_comm] at h
    exact h
  keymd5 := rfl

/-- The first round of `_put_data`. -/
theorem copyChunk_storeKey {idx hash : Nat} {key value : Bytes} {c : Int} (hc : c ≠ -2) :
    copyChunk (storeKey md5 t idx hash key c) idx value =
      ⟨t.maxslots, t.usedslots + 1, t.num + 1,
        Function.update t.slots idx (firstSlot md5 (t.slots idx) hash key value c)⟩ := by
  have hcs : copysize ((storeKey md5 t idx hash key c).slots idx) value =
      min value.length valuesize := by
    simp [storeKey, copysize, hc]
  unfold copyChunk
  simp only [hcs]
  rw [if_neg (by simpa [storeKey] using hc)]
  refine Tbl.ext rfl rfl rfl (funext fun j => ?_)
  by_cases hj : j = idx
  · subst hj; simp [storeKey, firstSlot]
  · simp [storeKey, setSlot_slots_of_ne _ _ hj, hj]

theorem slotsFor_of_le {len : Nat} (h : len ≤ valuesize) : slotsFor len = 1 := by
  rw [slotsFor, Nat.sub_eq_zero_of_le h]
  rfl

theorem Layout.start (h : Layout md5 t es) (hash : Nat) (key value : Bytes) {idx : Nat} {c : Int}
    (hlt : idx < t.maxslots) (hi : idx ∉ used es) (hc : 0 < c ∨ c = -1) :
    Layout md5 (copyChunk (storeKey md5 t idx hash key c) idx value)
      (⟨key, value.take valuesize, idx, []⟩ :: es) := by
  have hc2 : c ≠ -2 := by omega
  rw [copyChunk_storeKey hc2]
  refine ⟨Intact.cons ?_ ?_ ?_ ?_ ⟨?_, ?_, ?_, ?_, ?_, ?_⟩ ?_, ?_, ?_, ?_⟩
  · refine h.toIntact.congr rfl (fun i hm => Function.update_of_ne ?_ _ _)
    exact fun he => hi (he ▸ hm)
  · simp [Entry.slots]
  · simpa [Entry.slots] using hi
  · simpa [Entry.slots] using hlt
  · simp [Chain, Tbl.nxt, Slot.nxt, firstSlot]
  · simp
  · simpa using firstSlot_holdsKey (t.slots idx) hash key value c
  · simp [Entry.slots, firstSlot_bytes hc2]
  · simp [Entry.slots, firstSlot_bytes hc2, Nat.min_comm]
  · exact (slotsFor_of_le (by simp)).symm
  · simpa [firstSlot] using hc
  · intro i hm
    have hne : i ≠ idx := fun he => hm (by simp [Entry.slots, he])
    simp only [Function.update_of_ne hne]
    exact h.empty i (fun hu => hm (by simp [hu]))
  · simp only [h.usedslots, used_cons, List.length_append, Entry.slots, List.length_singleton]
    omega
  · simp only [h.num, List.length_cons]
    omega

/-- An extension slot behind `prev` with the next piece of the value. -/
def extSlot (prev : Nat) (rest : Bytes) : Slot :=
  { Slot.zero with
    count := -2, hash := prev, link := -1
    ext := memcpy Slot.zero.ext (rest.take (min rest.length slotDataSize))
    size := min rest.length slotDataSize }

@[simp] theorem extSlot_size (prev : Nat) (rest : Bytes) :
    (extSlot prev rest).size = min rest.length slotDataSize := rfl

theorem extSlot_bytes (prev : Nat) (rest : Bytes) :
    (extSlot prev rest).bytes = rest.take slotDataSize := by
  have h := memcpy_take Slot.zero.ext (rest.take (min rest.length slotDataSize))
  rw [List.length_take_of_le (Nat.min_le_left _ _)] at h
  simp only [Slot.bytes, extSlot, if_pos, h]
  rw [List.take_eq_take_iff]
  omega

/-- A later round of `_put_data`. -/
theorem copyChunk_linkSlot {last tmp : Nat} (hne : last ≠ tmp) (rest : Bytes) :
    copyChunk (linkSlot t last tmp) tmp rest =
      ⟨t.maxslots, t.usedslots + 1, t.num,
        Function.update (Function.update t.slots last { t.slots last with link := (tmp : Int) })
          tmp (extSlot last rest)⟩ := by
  have hs : (linkSlot t last tmp).slots tmp = { Slot.zero with count := -2, hash := last, link := -1 } := by
    simp only [linkSlot]
    rw [setSlot_slots_of_ne _ _ hne.symm, setSlot_slots_self]
  unfold copyChunk
  simp only [hs, copysize, if_true]
  refine Tbl.ext rfl rfl rfl (funext fun j => ?_)
  by_cases hj : j = tmp
  · subst hj; simp [extSlot]
  · by_cases hl : j = last
    · subst hl; simp [linkSlot, setSlot_slots_of_ne _ _ hj, hj]
    · simp [linkSlot, setSlot_slots_of_ne _ _ hj, setSlot_slots_of_ne _ _ hl, hj, hl]

/-- The last slot of an entry. -/
def Entry.last (e : Entry) : Nat := e.slots.getLast (by simp [Entry.slots])

theorem Entry.last_mem (e : Entry) : e.last ∈ e.slots := List.getLast_mem _

/-- The entry with one more slot and the bytes in it. -/
def Entry.snoc (e : Entry) (tmp : Nat) (chunk : Bytes) : Entry :=
  ⟨e.key, e.value ++ chunk, e.head, e.tail ++ [tmp]⟩

theorem Entry.snoc_slots (e : Entry) (tmp : Nat) (chunk : Bytes) :
    (e.snoc tmp chunk).slots = e.slots ++ [tmp] := rfl

theorem Entry.snoc_last (e : Entry) (tmp : Nat) (chunk : Bytes) : (e.snoc tmp chunk).last = tmp := by
  simp [Entry.last, Entry.snoc_slots]

section

variable {e : Entry} {tmp : Nat} {rest : Bytes}

theorem snoc_slot_eq (hlast : t'.slots e.last = { t.slots e.last with link := (tmp : Int) })
    (hs : ∀ i ∈ e.slots, i ≠ e.last → t'.slots i = t.slots i) {i : Nat} (hi : i ∈ e.slots) :
    t'.slots i = { t.slots i with link := (t'.slots i).link } := by
  by_cases hil : i = e.last
  · rw [hil, hlast]
  · rw [hs i hi hil]

theorem slotsFor_snoc (hfull : e.value.length = e.capacity) (hrest : rest ≠ []) :
    (e.snoc tmp (rest.take slotDataSize)).slots.length =
      slotsFor (e.snoc tmp (rest.take slotDataSize)).value.length := by
  have hpos : 0 < rest.length := List.length_pos_iff.mpr hrest
  simp only [Entry.slots, Entry.snoc, slotsFor, List.length_append,
    List.length_cons, List.length_nil, List.length_take, hfull, Entry.capacity,
    show slotDataSize = 146 from rfl]
  omega

/-- An entry whose last slot was linked to a new one. -/
theorem EntryOk.snoc (h : EntryOk md5 t e) (hnd : e.slots.Nodup)
    (hlast : t'.slots e.last = { t.slots e.last with link := (tmp : Int) })
    (htmp : t'.slots tmp = extSlot e.last rest)
    (hs : ∀ i ∈ e.slots, i ≠ e.last → t'.slots i = t.slots i)
    (hfull : e.value.length = e.capacity) (hrest : rest ≠ []) :
    EntryOk md5 t' (e.snoc tmp (rest.take slotDataSize)) := by
  have hbytes : ∀ i ∈ e.slots, (t'.slots i).bytes = (t.slots i).bytes := fun i hi => by
    rw [snoc_slot_eq hlast hs hi]; rfl
  refine ⟨?_, ?_, ?_, ?_, ?_, slotsFor_snoc hfull hrest⟩
  · refine h.chain.snoc hnd (fun i hi hil => Slot.nxt_congr ?_) (fun i hi => ?_) ?_ ?_ ?_
    · rw [hs i hi hil]
    · rw [Tbl.prv, snoc_slot_eq hlast hs (Entry.tail_mem hi)]; rfl
    · change t'.nxt e.last = some tmp
      rw [Tbl.nxt, hlast, Slot.nxt, if_neg (by simp)]
      rfl
    · change t'.prv tmp = e.last
      rw [Tbl.prv, htmp]; rfl
    · rw [Tbl.nxt, htmp]; rfl
  · intro i hi
    rcases List.mem_append.mp hi with hi | hi
    · rw [snoc_slot_eq hlast hs (Entry.tail_mem hi)]
      exact h.ext i hi
    · rw [List.mem_singleton.mp hi, htmp]; rfl
  · change (t'.slots e.head).HoldsKey md5 e.key
    rw [snoc_slot_eq hlast hs e.head_mem]
    exact ⟨h.key.keylen, h.key.bytes, h.key.keymd5⟩
  · rw [Entry.snoc_slots, List.flatMap_append, List.flatMap_congr hbytes, h.value]
    simp [Entry.snoc, htmp, extSlot_bytes]
  · intro i hi
    rcases List.mem_append.mp (Entry.snoc_slots e _ _ ▸ hi) with hi | hi
    · rw [hbytes i hi, h.size i hi, snoc_slot_eq hlast hs hi]
    · rw [List.mem_singleton.mp hi, htmp, extSlot_bytes, extSlot_size, List.length_take,
        Nat.min_comm]

theorem Layout.extend (h : Layout md5 t (e :: es)) (hlt : tmp < t.maxslots)
    (htmp : tmp ∉ used (e :: es)) {rest : Bytes} (hfull : e.value.length = e.capacity)
    (hrest : rest ≠ []) :
    Layout md5 (copyChunk (linkSlot t e.last tmp) tmp rest)
      (e.snoc tmp (rest.take slotDataSize) :: es) := by
  have hte : tmp ∉ e.slots := fun hm => htmp (List.mem_append_left _ hm)
  have htu : tmp ∉ used es := fun hm => htmp (List.mem_append_right _ hm)
  have hne : e.last ≠ tmp := fun he => hte (he ▸ e.last_mem)
  have hnd := h.slots_nodup (e := e) (by simp)
  rw [copyChunk_linkSlot hne]
  generalize hS : Function.update (Function.update t.slots e.last
    { t.slots e.last with link := (tmp : Int) }) tmp (extSlot e.last rest) = S
  have hStmp : S tmp = extSlot e.last rest := by rw [← hS, Function.update_self]
  have hSlast : S e.last = { t.slots e.last with link := (tmp : Int) } := by
    rw [← hS, Function.update_of_ne hne, Function.update_self]
  have hSne : ∀ i, i ≠ tmp → i ≠ e.last → S i = t.slots i := fun i h1 h2 => by
    rw [← hS, Function.update_of_ne h1, Function.update_of_ne h2]
  have hSe : ∀ i ∈ e.slots, i ≠ e.last → S i = t.slots i := fun i hi =>
    hSne i (fun he => hte (he ▸ hi))
  have hmem : ∀ i ∈ (e.snoc tmp (rest.take slotDataSize)).slots, i ∈ e.slots ∨ i = tmp := by
    intro i hi
    simpa [Entry.snoc_slots] using hi
  refine ⟨Intact.cons ?_ ?_ ?_ ?_ ?_ ?_, ?_, ?_, ?_⟩
  · refine h.tail.congr rfl (fun i hm => hSne i (fun he => htu (he ▸ hm)) (fun he => ?_))
    exact h.not_mem_of_mem hm (he ▸ e.last_mem)
  · rw [Entry.snoc_slots]
    exact hnd.append (by simp) (by simpa using hte)
  · intro i hi hu
    rcases hmem i hi with hi | rfl
    · exact h.not_mem_of_mem hu hi
    · exact htu hu
  · intro i hi
    rcases hmem i hi with hi | rfl
    · exact h.lt i (List.mem_append_left _ hi)
    · exact hlt
  · exact (h.entry e (by simp)).snoc hnd hSlast hStmp hSe hfull hrest
  · change 0 < (S e.head).count ∨ (S e.head).count = -1
    have hcount : (S e.head).count = (t.slots e.head).count := by
      by_cases hl : e.head = e.last
      · rw [hl, hSlast]
      · rw [hSe _ e.head_mem hl]
    rw [hcount]
    exact h.first e (by simp)
  · intro i hi
    rw [used_cons, Entry.snoc_slots, List.mem_append, List.mem_append, not_or, not_or] at hi
    have hit : i ≠ tmp := fun he => hi.1.2 (by simp [he])
    change (S i).count = 0
    rw [hSne i hit (fun he => hi.1.1 (he ▸ e.last_mem))]
    exact h.empty i (by simp [hi.1.1, hi.2])
  · simp only [h.usedslots, used_cons, Entry.snoc_slots, List.length_append, List.length_singleton]
    omega
  · simp only [h.num, List.length_cons]

end

/-! ### Looking for an empty slot -/

theorem findEmptyLoop_eq {s : Nat} (hs : s < t.maxslots) : ∀ (suf pre : List Nat) (i : Nat),
    Ring.rotation t.maxslots s = pre ++ i :: suf →
    findEmptyLoop t s (suf.length + 1) i =
      (i :: suf).find? (fun j => decide ((t.slots j).count = 0)) := by
  intro suf
  induction suf with
  | nil =>
    intro pre i hr
    have hback : t.next i = s := Ring.rotation_last hs hr
    by_cases hc : (t.slots i).count = 0 <;> simp [findEmptyLoop, hc, hback]
  | cons j suf ih =>
    intro pre i hr
    obtain ⟨hj, hne⟩ : j = t.next i ∧ t.next i ≠ s := Ring.rotation_next hs hr
    have hrec := ih (pre ++ [i]) j (by rw [hr]; simp)
    rw [List.length_cons, findEmptyLoop, if_neg hne, ← hj, hrec]
    by_cases hc : (t.slots i).count = 0
    · simp [hc]
    · rw [if_neg hc]
      exact (List.find?_cons_of_neg (by simpa using hc)).symm

/-- **`_find_empty` looks at every slot.** -/
theorem findEmpty_eq (hn : 0 < t.maxslots) (s : Nat) :
    ∃ s' < t.maxslots, findEmpty t s =
      (Ring.rotation t.maxslots s').find? (fun j => decide ((t.slots j).count = 0)) := by
  obtain ⟨s', hs', hlt⟩ : ∃ s', s' = (if t.maxslots ≤ s then 0 else s) ∧ s' < t.maxslots := by
    refine ⟨_, rfl, ?_⟩
    split <;> omega
  obtain ⟨suf, hr⟩ := Ring.rotation_eq_cons hlt
  have hlen := Ring.rotation_length (Nat.le_of_lt hlt)
  rw [hr, List.length_cons] at hlen
  refine ⟨s', hlt, ?_⟩
  rw [findEmpty, if_neg (by omega), ← hs']
  have hloop := findEmptyLoop_eq hlt suf [] s' (by rw [hr]; rfl)
  rw [hlen] at hloop
  rw [hr]
  exact hloop

theorem findEmpty_some (hn : 0 < t.maxslots) {s i : Nat} (h : findEmpty t s = some i) :
    i < t.maxslots ∧ (t.slots i).count = 0 := by
  obtain ⟨s', hs', he⟩ := findEmpty_eq hn s
  rw [he] at h
  exact ⟨(Ring.mem_rotation (Nat.le_of_lt hs')).mp (List.mem_of_find?_eq_some h),
    by simpa using List.find?_some h⟩

theorem findEmpty_none (hn : 0 < t.maxslots) {s : Nat} (h : findEmpty t s = none) :
    ∀ i < t.maxslots, (t.slots i).count ≠ 0 := by
  intro i hi
  obtain ⟨s', hs', he⟩ := findEmpty_eq hn s
  rw [he, List.find?_eq_none] at h
  simpa using h i ((Ring.mem_rotation (Nat.le_of_lt hs')).mpr hi)

theorem Layout.used_length_le (h : Layout md5 t es) : (used es).length ≤ t.maxslots := by
  have hsub : used es ⊆ List.range t.maxslots := fun i hi => List.mem_range.mpr (h.lt i hi)
  simpa using (h.nodup.subperm hsub).length_le

/-- No slot is empty only where every slot is in use. -/
theorem Layout.used_length_of_full (h : Layout md5 t es)
    (hfull : ∀ i < t.maxslots, (t.slots i).count ≠ 0) : (used es).length = t.maxslots := by
  refine Nat.le_antisymm h.used_length_le ?_
  have hsub : List.range t.maxslots ⊆ used es := fun i hi =>
    h.mem_used_iff.mpr (hfull i (List.mem_range.mp hi))
  simpa using (List.nodup_range.subperm hsub).length_le

/-! ### Storing a value -/

/-- What `_put_data` does for a key put at the slot `idx`: on success there is
one more entry, on failure there was no room for it and the entries are the old
ones, and their slots are untouched in both cases. -/
structure Stored (md5 : Bytes → Bytes) (t : Tbl) (es : List Entry) (key value : Bytes)
    (idx hash : Nat) (c : Int) (r : Reply × Tbl) : Prop where
  maxslots : r.2.maxslots = t.maxslots
  frame : ∀ i ∈ used es, r.2.slots i = t.slots i
  ok : r.1 = .ok () → (r.2.slots idx).count = c ∧ (r.2.slots idx).hash = hash ∧
    ∃ tail, Layout md5 r.2 (⟨key, value, idx, tail⟩ :: es)
  error : ∀ er, r.1 = .error er → er = some .enobufs ∧ Layout md5 r.2 es ∧
    t.maxslots < (used es).length + slotsFor value.length

theorem Stored.of_frame {key value : Bytes} {idx hash : Nat} {c : Int} {r : Reply × Tbl}
    (h : Stored md5 t' es key value idx hash c r) (hmax : t'.maxslots = t.maxslots)
    (hs : ∀ i ∈ used es, t'.slots i = t.slots i) : Stored md5 t es key value idx hash c r :=
  ⟨h.maxslots.trans hmax, fun i hi => (h.frame i hi).trans (hs i hi), h.ok, hmax ▸ h.error⟩

theorem copyChunk_linkSlot_head {last tmp : Nat} (hne : last ≠ tmp) (rest : Bytes) {i : Nat}
    (hi : i ≠ tmp) :
    ((copyChunk (linkSlot t last tmp) tmp rest).slots i).count = (t.slots i).count ∧
    ((copyChunk (linkSlot t last tmp) tmp rest).slots i).hash = (t.slots i).hash ∧
    (i ≠ last → (copyChunk (linkSlot t last tmp) tmp rest).slots i = t.slots i) := by
  rw [copyChunk_linkSlot hne]
  simp only [Function.update_of_ne hi]
  by_cases hl : i = last
  · subst hl
    rw [Function.update_self]
    exact ⟨rfl, rfl, fun h => absurd rfl h⟩
  · rw [Function.update_of_ne hl]
    exact ⟨rfl, rfl, fun _ => rfl⟩

/-- **One more round of `_put_data`**: an entry that holds the first bytes of the
value, and not all of them, has its slots full, and the next piece goes to a new
slot. -/
theorem Layout.round {e : Entry} {tmp : Nat} (h : Layout md5 t (e :: es)) {value : Bytes}
    (hpre : e.value = value.take e.capacity) (hmore : e.value.length < value.length)
    (hlt : tmp < t.maxslots) (htmp : tmp ∉ used (e :: es)) :
    ∃ e' : Entry, Layout md5 (copyChunk (linkSlot t e.last tmp) tmp (value.drop e.value.length))
        (e' :: es) ∧ e'.value = value.take e'.capacity ∧ e'.key = e.key ∧ e'.head = e.head ∧
      e'.last = tmp ∧ e.value.length < e'.value.length ∧
      e'.value.length = e.value.length +
        copysize ((linkSlot t e.last tmp).slots tmp) (value.drop e.value.length) := by
  have hne : e.last ≠ tmp := fun he => htmp (List.mem_append_left _ (he ▸ e.last_mem))
  have hlen := congrArg List.length hpre
  rw [List.length_take] at hlen
  have hfull : e.value.length = e.capacity := by omega
  have hrest : value.drop e.value.length ≠ [] := by
    rw [Ne, List.drop_eq_nil_iff]
    omega
  refine ⟨_, h.extend hlt htmp hfull hrest, ?_, rfl, rfl, Entry.snoc_last _ _ _, ?_, ?_⟩
  · have hcap : (e.snoc tmp ((value.drop e.value.length).take slotDataSize)).capacity =
        e.capacity + slotDataSize := by
      simp only [Entry.capacity, Entry.snoc, List.length_append, List.length_singleton, Nat.mul_add]
      omega
    rw [hcap, List.take_add, ← hpre, ← hfull]
    rfl
  · have hpos : 0 < slotDataSize := by decide
    simp only [Entry.snoc, List.length_append, List.length_take, List.length_drop]
    omega
  · rw [linkSlot, setSlot_slots_of_ne _ _ hne.symm, setSlot_slots_self]
    simp [Entry.snoc, copysize, Nat.min_comm]

/-- An entry that holds the first bytes of the value, and not all of them, has
fewer slots than the value takes. -/
theorem Entry.slots_lt {e : Entry} {value : Bytes} (hpre : e.value = value.take e.capacity)
    (hmore : e.value.length < value.length) : e.slots.length < slotsFor value.length := by
  have hlen := congrArg List.length hpre
  rw [List.length_take] at hlen
  have hfull : e.value.length = e.capacity := by omega
  rw [hfull, Entry.capacity] at hmore
  simp only [Entry.slots, List.length_cons, slotsFor]
  rw [show slotDataSize = 146 from rfl] at *
  omega

/-- The rounds of `_put_data` after the first. -/
theorem putLoop_stored (value : Bytes) (hv : value ≠ []) : ∀ (fuel : Nat) {t : Tbl} {e : Entry},
    Layout md5 t (e :: es) → e.value = value.take e.capacity →
    value.length - e.value.length < fuel →
    Stored md5 t es e.key value e.head (t.slots e.head).hash (t.slots e.head).count
      (putLoop value e.head fuel t e.last e.value.length) := by
  intro fuel
  induction fuel with
  | zero => intro t e _ _ hf; exact absurd hf (by omega)
  | succ fuel ih =>
    intro t e h hpre hfuel
    have hpos : 0 < e.value.length := by
      have hvpos := List.length_pos_iff.mpr hv
      have hcap : 0 < e.capacity := Nat.lt_of_lt_of_le (by decide) (Nat.le_add_right _ _)
      rw [hpre, List.length_take]
      omega
    by_cases hdone : e.value.length < value.length
    · rw [putLoop, if_pos hdone, if_pos hpos]
      have hn : 0 < t.maxslots :=
        Nat.lt_of_le_of_lt (Nat.zero_le _) (h.lt e.head (List.mem_append_left _ e.head_mem))
      cases hfe : findEmpty t (e.last + 1) with
      | none =>
        obtain ⟨hmax, hframe⟩ := h.removeData_frame
        refine ⟨hmax, hframe, by simp, fun er her => ⟨by simpa using her.symm, h.removeData, ?_⟩⟩
        -- every slot is in use, and the value needs more
        have hused := h.used_length_of_full (findEmpty_none hn hfe)
        have hlt := Entry.slots_lt hpre hdone
        rw [used_cons, List.length_append] at hused
        omega
      | some tmp =>
        obtain ⟨hlt, hc0⟩ := findEmpty_some hn hfe
        have htmp : tmp ∉ used (e :: es) := fun hm => h.count_ne_zero hm hc0
        have hne : e.last ≠ tmp := fun he => htmp (List.mem_append_left _ (he ▸ e.last_mem))
        have hhead : e.head ≠ tmp := fun he => htmp (List.mem_append_left _ (he ▸ e.head_mem))
        obtain ⟨e', hlay, hpre', hkey, hhd, hlast, hgrow, hlen⟩ := h.round hpre hdone hlt htmp
        have hrec := ih hlay hpre' (by omega)
        obtain ⟨hc, hh, -⟩ := copyChunk_linkSlot_head (t := t) hne (value.drop e.value.length) hhead
        rw [hkey, hhd, hlast, hlen, hc, hh] at hrec
        refine hrec.of_frame (by rw [copyChunk_linkSlot hne]) (fun i hi => ?_)
        have hit : i ≠ tmp := fun he => htmp (List.mem_append_right _ (he ▸ hi))
        have hil : i ≠ e.last := fun he => h.not_mem_of_mem hi (he ▸ e.last_mem)
        exact (copyChunk_linkSlot_head hne _ hit).2.2 hil
    · have hlen := congrArg List.length hpre
      rw [List.length_take] at hlen
      have heq : e.value = value := by
        rw [hpre, List.take_of_length_le (by omega)]
      rw [putLoop, if_neg hdone]
      refine ⟨rfl, fun _ _ => rfl, fun _ => ⟨rfl, rfl, e.tail, ?_⟩, by simp⟩
      rw [← heq]
      exact h

/-- **`_put_data` stores one entry or none.** -/
theorem Layout.putData_stored (h : Layout md5 t es) (hash : Nat) (key : Bytes) (c : Int)
    {idx : Nat} {value : Bytes}
    (hlt : idx < t.maxslots) (hi : idx ∉ used es) (hc : 0 < c ∨ c = -1) (hv : value ≠ []) :
    Stored md5 t es key value idx hash c (putData md5 t idx hash key value c) := by
  have hvpos : 0 < value.length := List.length_pos_iff.mpr hv
  have hc2 : c ≠ -2 := by omega
  have hsize : copysize ((storeKey md5 t idx hash key c).slots idx) value =
      (value.take valuesize).length := by
    simp [storeKey, copysize, hc2, Nat.min_comm]
  have hvs : 0 < valuesize := by decide
  have hstart := h.start hash key value hlt hi hc
  rw [putData, if_neg (by simpa using h.empty idx hi), putLoop, if_pos hvpos, if_neg (by omega),
    hsize]
  have hrec := putLoop_stored value hv value.length hstart (by simp [Entry.capacity])
    (by simp; omega)
  have hframe : Stored md5 (copyChunk (storeKey md5 t idx hash key c) idx value) es key value idx
      hash c (putLoop value idx value.length
        (copyChunk (storeKey md5 t idx hash key c) idx value) idx (value.take valuesize).length) := by
    simpa [copyChunk_storeKey hc2, firstSlot, Entry.last, Entry.slots] using hrec
  refine hframe.of_frame ?_ ?_
  · rw [copyChunk_storeKey hc2]
  · intro i hm
    have hne : i ≠ idx := fun he => hi (he ▸ hm)
    rw [copyChunk_storeKey hc2]
    exact Function.update_of_ne hne _ _

end

end QConf.Qhasharr
