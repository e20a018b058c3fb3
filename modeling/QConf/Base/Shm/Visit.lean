import QConf.Base.Shm.Crowded

/-!
# The iteration over the whole table

`process_tbl`, `qconf_dump_tbl` and the start of the agent walk over the table with
`hash_tbl_getnext`, from the index 0 on while it is below `maxslots`.  The table has only
the first 32 bytes of a key; the rest of it is read from the value, which ends with its key.
The calls give every stored key with its value, once and in full
(`iteration_visits_every_entry_once`).
-/

namespace QConf.Shm

open Qhasharr Transition

/-- One call of the loop: where it starts and what it returns. -/
structure Visit where
  idx : Nat
  ret : Ret
  entry : Option (Bytes × Bytes)
  next : Nat

/-- The loop over `hash_tbl_getnext`, with the calls it makes; `none` where it is not done
after the given number of calls. -/
def visitLoop (md5 : Bytes → Bytes) (t : Tbl) : Nat → Nat → Option (List Visit)
  | 0, idx => if idx < t.maxslots then none else some []
  | fuel + 1, idx =>
    if idx < t.maxslots then
      let r := hashTblGetnext md5 t idx
      (visitLoop md5 t fuel r.2.2).map (fun visits => ⟨idx, r.1, r.2.1, r.2.2⟩ :: visits)
    else some []

/-- The pairs of the calls that return `QCONF_OK`. -/
def okPairs (visits : List Visit) : List (Bytes × Bytes) :=
  visits.filterMap (fun v => if v.ret = .ok then v.entry else none)

/-- The sets are of built values; the other calls are removes and clears. -/
def BuiltCall (md5 : Bytes → Bytes) (hashFn : Bytes → Nat) (s : Store) (a : Call × Option Errno) : Prop :=
  match a.1 with
  | .set key val => BuiltWithin key val ∧ BucketRoom md5 hashFn s.tbl key
  | .remove key => key.length < 65536
  | .clear => True
  | .restart => False

section

variable {md5 : Bytes → Bytes} {hashFn : Bytes → Nat} {n : Nat} {t : Tbl} {m : BytesMap}

/-! ### What is stored -/

/-- The map has built values, each under what the table sees of its key. -/
def StoresBuilt (md5 : Bytes → Bytes) (hashFn : Bytes → Nat) (n : Nat) (m : BytesMap) : Prop :=
  ∀ k w, m.lookup k = some w → ∃ key val, seenAs md5 hashFn n key = k ∧ BuiltWithin key val ∧
    val.length < 2 ^ 32 ∧ w = frameValue md5 val

theorem BuiltCall.admitted {s : Store} {a : Call × Option Errno} (h : BuiltCall md5 hashFn s a) :
    Admitted md5 hashFn s a := by
  obtain ⟨call, e⟩ := a
  cases call with
  | set key val => exact ⟨h.1.2.1, h.2⟩
  | remove key => exact h
  | clear => trivial
  | restart => exact h.elim

/-- **A store reached by building calls has built values.** -/
theorem storesBuilt_of_reaches (hmd5 : ∀ b, (md5 b).length = md5IntLen) (hn : 0 < n) {s : Store}
    (hs : Reaches (callStep md5 hashFn) (BuiltCall md5 hashFn) (Store.init n) s) :
    ∃ m, Holds md5 hashFn n s m ∧ StoresBuilt md5 hashFn n m := by
  refine hs.invariant (fun s => ∃ m, Holds md5 hashFn n s m ∧ StoresBuilt md5 hashFn n m)
    ⟨∅, holds_init n, fun k w hk => absurd hk (by simp)⟩ ?_
  rintro s s' a ⟨m, hm, hbuilt⟩ ha hstep
  obtain ⟨m', hm', hfrom⟩ := hm.step_from hmd5 hn ha.admitted hstep
  refine ⟨m', hm', fun k w hk => ?_⟩
  rcases hfrom k w hk with hold | ⟨key, val, hcall, rfl, rfl⟩
  · exact hbuilt k w hold
  · unfold BuiltCall at ha
    rw [hcall] at ha
    exact ⟨key, val, rfl, ha.1, Nat.lt_trans ha.1.2.2 (by decide), rfl⟩

/-! ### The pair of an entry -/

/-- The entry holds the pair. -/
structure IsPair (md5 : Bytes → Bytes) (hashFn : Bytes → Nat) (n : Nat) (e : Entry) (p : Bytes × Bytes) :
    Prop where
  seen : seenAs md5 hashFn n p.1 = e.key
  built : BuiltWithin p.1 p.2
  value : e.value = frameValue md5 p.2

theorem BuiltWithin.value_lt {key val : Bytes} (h : BuiltWithin key val) : val.length < 2 ^ 32 :=
  Nat.lt_trans h.2.2 (by decide)

theorem frameValue_inj (hmd5 : ∀ b, (md5 b).length = md5IntLen) {v v' : Bytes} (hv : v.length < 2 ^ 32)
    (hv' : v'.length < 2 ^ 32) (h : frameValue md5 v = frameValue md5 v') : v = v' := by
  have hread := verify_frameValue hmd5 hv
  rw [h, verify_frameValue hmd5 hv'] at hread
  exact (Prod.mk.inj hread).2.symm

/-- A value belongs to one key of those that look alike. -/
theorem IsPair.unique (hmd5 : ∀ b, (md5 b).length = md5IntLen) {e : Entry} {p p' : Bytes × Bytes}
    (h : IsPair md5 hashFn n e p) (h' : IsPair md5 hashFn n e p') : p = p' := by
  obtain ⟨key, val⟩ := p
  obtain ⟨key', val'⟩ := p'
  obtain rfl : val = val' := frameValue_inj hmd5 h.built.value_lt h'.built.value_lt
    (h.value.symm.trans h'.value)
  obtain ⟨idc, path, hparts, hkey⟩ := h.built.1.rebuilds
  obtain ⟨idc', path', hparts', hkey'⟩ := h'.built.1.rebuilds
  have hdig := seenAs_eq_iff.mp (h.seen.trans h'.seen.symm)
  have htake : key.take keysize = key'.take keysize := congrArg (fun d => d.2.1) hdig
  dsimp only at hparts hparts' hkey hkey'
  rw [htake] at hparts hkey
  rw [hparts, Prod.mk.injEq, Prod.mk.injEq] at hparts'
  obtain ⟨-, rfl, rfl⟩ := hparts'
  exact Prod.ext (hkey.symm.trans hkey') rfl

/-- The pair that `hash_tbl_get` finds is that of an entry. -/
theorem exists_isPair_iff (hmd5 : ∀ b, (md5 b).length = md5IntLen) (hn : 0 < n)
    (hsees : Sees md5 hashFn n t m) (hbuilt : StoresBuilt md5 hashFn n m) {es : List Entry}
    (hmem : ∀ k v, (k, v) ∈ contents es ↔ m.lookup k = some v) (key val : Bytes) :
    (∃ e ∈ es, IsPair md5 hashFn n e (key, val)) ↔
      BuiltWithin key val ∧ hashTblGet md5 hashFn t key = (.ok, val) := by
  constructor
  · rintro ⟨e, he, h⟩
    refine ⟨h.built, ?_⟩
    have hlook : m.lookup (seenAs md5 hashFn n key) = some (frameValue md5 val) :=
      (hmem _ _).mp (mem_contents.mpr ⟨e, he, h.seen.symm, h.value⟩)
    rw [hashTblGet, if_neg h.built.1.rebuilds.ne_nil, hsees.get hn h.built.2.1, hlook]
    exact verify_frameValue hmd5 h.built.value_lt
  · rintro ⟨hkv, hget⟩
    rw [hashTblGet, if_neg hkv.1.rebuilds.ne_nil, hsees.get hn hkv.2.1] at hget
    cases hlook : m.lookup (seenAs md5 hashFn n key) with
    | none =>
      rw [hlook] at hget
      exact absurd hget (by simp)
    | some w =>
      rw [hlook] at hget
      obtain ⟨key', val', -, hkv', hval, rfl⟩ := hbuilt _ w hlook
      dsimp only at hget
      rw [verify_frameValue hmd5 hval] at hget
      obtain ⟨e, he, hkey, hvalue⟩ := mem_contents.mp ((hmem _ _).mpr hlook)
      refine ⟨e, he, hkey.symm, hkv, ?_⟩
      rw [hvalue, (Prod.mk.inj hget).2]

/-! ### The loop -/

/-- The calls from `idx` on: every one moves on, only the last may fail, and the pairs are
those of the entries from `idx` on. -/
structure VisitsFrom (md5 : Bytes → Bytes) (hashFn : Bytes → Nat) (n : Nat) (es : List Entry) (idx : Nat)
    (visits : List Visit) : Prop where
  grows : ∀ v ∈ visits, v.idx < v.next
  returns : ∀ v ∈ visits, v.ret = .ok ∨ v.ret = .errTblEnd
  nodup : (okPairs visits).Nodup
  pairs : ∀ p, p ∈ okPairs visits ↔ ∃ e ∈ es, idx ≤ e.head ∧ IsPair md5 hashFn n e p

theorem VisitsFrom.nil {es : List Entry} {idx : Nat} (h : ∀ e ∈ es, e.head < idx) :
    VisitsFrom md5 hashFn n es idx [] where
  grows v hv := absurd hv (by simp)
  returns v hv := absurd hv (by simp)
  nodup := List.nodup_nil
  pairs p := by
    refine ⟨fun hp => absurd hp (by simp [okPairs]), ?_⟩
    rintro ⟨e, he, hle, -⟩
    exact absurd (h e he) (Nat.not_lt.mpr hle)

theorem VisitsFrom.cons_end {es : List Entry} {idx next : Nat} (hlt : idx < next)
    (hall : ∀ e ∈ es, e.head < idx) {visits : List Visit} (h : VisitsFrom md5 hashFn n es next visits) :
    VisitsFrom md5 hashFn n es idx (⟨idx, .errTblEnd, none, next⟩ :: visits) where
  grows := List.forall_mem_cons.mpr ⟨hlt, h.grows⟩
  returns := List.forall_mem_cons.mpr ⟨Or.inr rfl, h.returns⟩
  nodup := h.nodup
  pairs p := by
    refine (h.pairs p).trans ⟨?_, ?_⟩
    · rintro ⟨e, he, hle, hp⟩
      exact ⟨e, he, by omega, hp⟩
    · rintro ⟨e, he, hle, -⟩
      exact absurd (hall e he) (Nat.not_lt.mpr hle)

theorem VisitsFrom.cons_ok (hmd5 : ∀ b, (md5 b).length = md5IntLen) {es : List Entry}
    (hkeys : (es.map Entry.key).Nodup) {idx : Nat} {e : Entry} (he : e ∈ es) (hle : idx ≤ e.head)
    (hleast : ∀ f ∈ es, f.head < e.head → f.head < idx) (hheads : ∀ f ∈ es, f.head = e.head → f = e)
    {p : Bytes × Bytes} (hp : IsPair md5 hashFn n e p) {visits : List Visit}
    (h : VisitsFrom md5 hashFn n es (e.head + 1) visits) :
    VisitsFrom md5 hashFn n es idx (⟨idx, .ok, some p, e.head + 1⟩ :: visits) where
  grows := List.forall_mem_cons.mpr ⟨by simp only; omega, h.grows⟩
  returns := List.forall_mem_cons.mpr ⟨Or.inl rfl, h.returns⟩
  nodup := by
    refine List.nodup_cons.mpr ⟨fun hin => ?_, h.nodup⟩
    obtain ⟨f, hf, hlt, hfp⟩ := (h.pairs p).mp hin
    obtain rfl := List.inj_on_of_nodup_map hkeys hf he (hfp.seen.symm.trans hp.seen)
    exact absurd hlt (by omega)
  pairs q := by
    change q ∈ p :: okPairs visits ↔ _
    rw [List.mem_cons, h.pairs]
    constructor
    · rintro (rfl | ⟨f, hf, hlt, hq⟩)
      · exact ⟨e, he, hle, hp⟩
      · exact ⟨f, hf, by omega, hq⟩
    · rintro ⟨f, hf, hlef, hq⟩
      rcases Nat.lt_trichotomy f.head e.head with hlt | heq | hgt
      · exact absurd (hleast f hf hlt) (Nat.not_lt.mpr hlef)
      · obtain rfl := hheads f hf heq
        exact Or.inl (hq.unique hmd5 hp)
      · exact Or.inr ⟨f, hf, hgt, hq⟩

/-- **The loop is done after `maxslots` calls at most.** -/
theorem visitLoop_visits (hmd5 : ∀ b, (md5 b).length = md5IntLen) (hsees : Sees md5 hashFn n t m)
    (hbuilt : StoresBuilt md5 hashFn n m) {es : List Entry} (hrep : Rep md5 hashFn t es)
    (hkeys : (es.map Entry.key).Nodup) (hmem : ∀ k v, (k, v) ∈ contents es ↔ m.lookup k = some v) :
    ∀ (fuel idx : Nat), t.maxslots ≤ idx + fuel →
      ∃ visits, visitLoop md5 t fuel idx = some visits ∧ VisitsFrom md5 hashFn n es idx visits := by
  have hbelow : ∀ e ∈ es, e.head < t.maxslots := fun e he =>
    hrep.lt e.head (mem_used.mpr ⟨e, he, e.head_mem⟩)
  have hdone : ∀ idx, ¬ idx < t.maxslots → VisitsFrom md5 hashFn n es idx [] := fun idx hidx =>
    .nil (fun e he => Nat.lt_of_lt_of_le (hbelow e he) (Nat.not_lt.mp hidx))
  intro fuel
  induction fuel with
  | zero =>
    intro idx hfuel
    have hidx : ¬ idx < t.maxslots := by omega
    exact ⟨[], by rw [visitLoop, if_neg hidx], hdone idx hidx⟩
  | succ fuel ih =>
    intro idx hfuel
    rw [visitLoop]
    by_cases hidx : idx < t.maxslots
    · rw [if_pos hidx]
      dsimp only
      rcases getnext_rebuilt (fun h => h.1.rebuilds) hmd5 hsees hbuilt hrep hmem hidx with
        ⟨hall, heq⟩ | ⟨e, he, hle, hleast, key, val, hseen, hkv, -, hvalue, heq⟩
      · obtain ⟨visits, hvisits, h⟩ := ih (t.maxslots + 1) (by omega)
        rw [heq, hvisits]
        exact ⟨_, rfl, h.cons_end (by omega) hall⟩
      · obtain ⟨visits, hvisits, h⟩ := ih (e.head + 1) (by omega)
        rw [heq, hvisits]
        have hheads : ∀ f ∈ es, f.head = e.head → f = e := fun f hf hfe =>
          hrep.eq_of_mem hf he f.head_mem (hfe ▸ e.head_mem)
        exact ⟨_, rfl, h.cons_ok hmd5 hkeys he hle hleast hheads ⟨hseen, hkv, hvalue⟩⟩
    · rw [if_neg hidx]
      exact ⟨[], rfl, hdone idx hidx⟩

end

/-- **The iteration visits every entry once, with its full key.**  On a table that sets of
built values, removes and clears lead to, the loop is done after `maxslots` calls at most;
every call moves on; the calls that return `QCONF_OK` give exactly the stored keys with
their values, each once; and the others return `QCONF_ERR_TBL_END`. -/
theorem iteration_visits_every_entry_once (md5 : Bytes → Bytes) (hashFn : Bytes → Nat) (n : Nat) (hn : 0 < n)
    (hmd5 : ∀ b, (md5 b).length = md5IntLen) (s : Store)
    (hs : Reaches (callStep md5 hashFn) (BuiltCall md5 hashFn) (Store.init n) s) :
    ∃ visits, visitLoop md5 s.tbl s.tbl.maxslots 0 = some visits ∧
      (∀ v ∈ visits, v.idx < v.next) ∧ (∀ v ∈ visits, v.ret = .ok ∨ v.ret = .errTblEnd) ∧
      (okPairs visits).Nodup ∧ ∀ key val, (key, val) ∈ okPairs visits ↔
        BuiltWithin key val ∧ hashTblGet md5 hashFn s.tbl key = (.ok, val) := by
  obtain ⟨m, hm, hbuilt⟩ := storesBuilt_of_reaches hmd5 hn hs
  obtain ⟨es, hrep, hnodup, hmem⟩ := hm.sees.entries
  have hkeys : (es.map Entry.key).Nodup := by
    rwa [contents, List.map_map] at hnodup
  obtain ⟨visits, hvisits, h⟩ := visitLoop_visits hmd5 hm.sees hbuilt hrep hkeys hmem s.tbl.maxslots 0
    (by omega)
  refine ⟨visits, hvisits, h.grows, h.returns, h.nodup, fun key val => ?_⟩
  rw [h.pairs, ← exists_isPair_iff hmd5 hn hm.sees hbuilt hmem]
  simp

/-- The key of a node with a path of 40 bytes, which no slot has whole. -/
def longNodeKey : Bytes := tblkeyOf dataTypeNode [105] (List.replicate 40 47)

def longNodeCall : Call × Option Errno := (.set longNodeKey (nodevalToTblval longNodeKey [120]), none)

def hostKey : Bytes := tblkeyOf dataTypeZkHost [105] []

def hostCall : Call × Option Errno := (.set hostKey (idcvalToTblval hostKey [104]), none)

theorem longNodeCall_built : BuiltCall zeroMd5 firstByte (Store.init 16) longNodeCall :=
  ⟨⟨.node (by decide) (by decide) (by decide), by decide, by decide⟩, by decide +kernel⟩

theorem longNodeCall_done : (callStep zeroMd5 firstByte (Store.init 16) longNodeCall).isSome = true := by
  decide +kernel

/-- The store with the long key. -/
def longNodeStore : Store := (callStep zeroMd5 firstByte (Store.init 16) longNodeCall).get longNodeCall_done

theorem hostCall_built : BuiltCall zeroMd5 firstByte longNodeStore hostCall :=
  ⟨⟨.zkHost (by decide) (by decide), by decide, by decide⟩, by decide +kernel⟩

theorem hostCall_done : (callStep zeroMd5 firstByte longNodeStore hostCall).isSome = true := by
  decide +kernel

/-- The store with the long key and the hosts of an idc. -/
def hostStore : Store := (callStep zeroMd5 firstByte longNodeStore hostCall).get hostCall_done

theorem iteration_rebuilds_long_key : ∃ visits, visitLoop zeroMd5 hostStore.tbl hostStore.tbl.maxslots 0 =
    some visits ∧ (longNodeKey, nodevalToTblval longNodeKey [120]) ∈ okPairs visits ∧
      (hostKey, idcvalToTblval hostKey [104]) ∈ okPairs visits := by
  have hreach : Reaches (callStep zeroMd5 firstByte) (BuiltCall zeroMd5 firstByte) (Store.init 16) hostStore :=
    .tail (.tail .start longNodeCall_built (Option.some_get longNodeCall_done).symm) hostCall_built
      (Option.some_get hostCall_done).symm
  obtain ⟨visits, hvisits, -, -, -, hpairs⟩ := iteration_visits_every_entry_once zeroMd5 firstByte 16
    (by decide) (fun _ => rfl) hostStore hreach
  exact ⟨visits, hvisits, (hpairs _ _).mpr ⟨longNodeCall_built.1, by decide +kernel⟩,
    (hpairs _ _).mpr ⟨hostCall_built.1, by decide +kernel⟩⟩

/-! ### A table with a crowded bucket -/

section

variable {md5 : Bytes → Bytes} {t : Tbl} {idx p : Nat}

theorem getnext_skip (hidx : idx < t.maxslots) (hskip : (t.slots idx).count = 0 ∨ (t.slots idx).count = -2) :
    hashTblGetnext md5 t idx = hashTblGetnext md5 t (idx + 1) := by
  have hloop : qhasharrGetnext t idx = qhasharrGetnext t (idx + 1) := by
    rw [qhasharrGetnext, show t.maxslots - idx = t.maxslots - (idx + 1) + 1 by omega, getnextLoop, if_pos hskip,
      qhasharrGetnext]
  rw [hashTblGetnext, hashTblGetnext, hloop]

theorem getnext_next (hidx : idx < t.maxslots) (hused : ¬ ((t.slots idx).count = 0 ∨ (t.slots idx).count = -2)) :
    (hashTblGetnext md5 t idx).2.2 = idx + 1 := by
  have hloop : qhasharrGetnext t idx = (.error .enomem, idx) ∨
      ∃ name data, qhasharrGetnext t idx = (.ok (name, data), idx + 1) := by
    rw [qhasharrGetnext, show t.maxslots - idx = t.maxslots - (idx + 1) + 1 by omega, getnextLoop, if_neg hused]
    cases getData t idx with
    | none => exact Or.inl rfl
    | some data => exact Or.inr ⟨_, data, rfl⟩
  rcases hloop with heq | ⟨name, data, heq⟩
  · rw [hashTblGetnext, heq]
  · rw [hashTblGetnext, heq]
    dsimp only
    split
    · exact (apply_ite (fun r : Ret × Option (Bytes × Bytes) × Nat => r.2.2) _ _ _).trans (ite_self _)
    · rfl

/-- Every call moves on, on any table. -/
theorem getnext_grows (md5 : Bytes → Bytes) (t : Tbl) :
    ∀ d idx : Nat, idx + d = t.maxslots → idx < (hashTblGetnext md5 t idx).2.2 := by
  intro d
  induction d with
  | zero =>
    intro idx hd
    rw [hashTblGetnext, qhasharrGetnext, show t.maxslots - idx = 0 by omega, getnextLoop]
    exact Nat.lt_succ_self idx
  | succ d ih =>
    intro idx hd
    by_cases hskip : (t.slots idx).count = 0 ∨ (t.slots idx).count = -2
    · rw [getnext_skip (by omega) hskip]
      exact Nat.lt_trans (Nat.lt_succ_self idx) (ih (idx + 1) (by omega))
    · rw [getnext_next (by omega) hskip]
      exact Nat.lt_succ_self idx

theorem visitLoop_done (md5 : Bytes → Bytes) (t : Tbl) :
    ∀ fuel idx : Nat, t.maxslots ≤ idx + fuel → ∃ visits, visitLoop md5 t fuel idx = some visits := by
  intro fuel
  induction fuel with
  | zero => exact fun idx hfuel => ⟨[], by rw [visitLoop, if_neg (by omega)]⟩
  | succ fuel ih =>
    intro idx hfuel
    rw [visitLoop]
    by_cases hidx : idx < t.maxslots
    · have hgrows := getnext_grows md5 t (t.maxslots - idx) idx (by omega)
      obtain ⟨visits, hvisits⟩ := ih (hashTblGetnext md5 t idx).2.2 (by omega)
      rw [if_pos hidx]
      dsimp only
      rw [hvisits]
      exact ⟨_, rfl⟩
    · rw [if_neg hidx]
      exact ⟨[], rfl⟩

/-- A call that starts in front of a slot finds what a call at the slot finds, or stops before. -/
theorem getnext_stops (md5 : Bytes → Bytes) (hp : p < t.maxslots) : ∀ d idx : Nat, idx + d = p →
      hashTblGetnext md5 t idx = hashTblGetnext md5 t p ∨ (hashTblGetnext md5 t idx).2.2 ≤ p := by
  intro d
  induction d with
  | zero =>
    intro idx hd
    exact Or.inl (by rw [← hd, Nat.add_zero])
  | succ d ih =>
    intro idx hd
    by_cases hskip : (t.slots idx).count = 0 ∨ (t.slots idx).count = -2
    · rw [getnext_skip (by omega) hskip]
      exact ih (idx + 1) (by omega)
    · rw [getnext_next (by omega) hskip]
      exact Or.inr (by omega)

/-- **The loop reports every slot that shows a key.** -/
theorem ShowsAt.visited {key val : Bytes} (h : ShowsAt md5 t p key val) (hmd5 : ∀ b, (md5 b).length = md5IntLen)
    (hp : p < t.maxslots) (hkv : BuiltWithin key val) : ∀ {fuel idx : Nat} {visits : List Visit},
    visitLoop md5 t fuel idx = some visits → idx ≤ p → (key, val) ∈ okPairs visits := by
  intro fuel
  induction fuel with
  | zero =>
    intro idx visits hvisits hle
    rw [visitLoop, if_pos (by omega)] at hvisits
    cases hvisits
  | succ fuel ih =>
    intro idx visits hvisits hle
    rw [visitLoop, if_pos (by omega)] at hvisits
    obtain ⟨rest, hrest, rfl⟩ := Option.map_eq_some_iff.mp hvisits
    rcases getnext_stops md5 hp (p - idx) idx (by omega) with heq | hle'
    · rw [heq, h.getnext hmd5 hp hkv]
      exact List.mem_cons_self ..
    · have hmem := ih hrest hle'
      rw [okPairs] at hmem ⊢
      rw [List.filterMap_cons]
      split
      · exact hmem
      · exact List.mem_cons_of_mem _ hmem

end

/-- Without the bound on the keys of a bucket, sets of built values lead to a table on which the
loop reports one key twice, with different values. -/
theorem crowded_key_visited_twice : ∃ s visits key val val',
    Reaches (callStep zeroMd5 oneBucket) BuiltSet (Store.init 40000) s ∧
    visitLoop zeroMd5 s.tbl s.tbl.maxslots 0 = some visits ∧
    (key, val) ∈ okPairs visits ∧ (key, val') ∈ okPairs visits ∧ val ≠ val' := by
  obtain ⟨s, i, j, hs, hmax, hj, hfront, hback⟩ := exists_doubled_store
  obtain ⟨visits, hvisits⟩ := visitLoop_done zeroMd5 s.tbl s.tbl.maxslots 0 (Nat.le_add_left ..)
  refine ⟨s, visits, crowdKey i, crowdVal i [1], crowdVal i [], hs, hvisits, ?_, ?_, ?_⟩
  · exact hfront.visited zeroMd5_length (by omega) (crowdVal_second i).1 hvisits (Nat.zero_le _)
  · exact hback.visited zeroMd5_length (by omega) (crowdVal_first i).1 hvisits (Nat.zero_le _)
  · intro heq
    have hlen : 7 = 6 := congrArg List.length heq
    exact absurd hlen (by decide)

end QConf.Shm
