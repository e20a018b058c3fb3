import QConf.Base.Common
import QConf.Lib.KeyedLog
import QConf.Lib.Transition

/-!
# The trigger queue and the dump

`deque_process` writes the table and then asks for the change to be dumped;
`change_trigger_process` takes one request after the other from the queue and
writes the dump.  A request is dropped when one of the same type for the same key
is still queued, and the queued one keeps its value.

The dump is right once the queue is empty if replaying what is in hand and queued
always leaves what the last write of each key asked for (`Inv`).  A dropped
request keeps that only if the queued one would be applied last and carries the
same value, and this is the condition `Repeats`; without it the dump can stay
behind for good, as the closed runs show.
-/

namespace QConf.Trigger

open KeyedLog

/-! ### The state -/

inductive TriggerType
  | addOrModify
  | remove
  | reset
  deriving DecidableEq, Repr

/-- `mkey`: the trigger type in front of the table key. -/
structure Mkey where
  type : TriggerType
  tblkey : Bytes
  deriving DecidableEq, Repr

structure Request where
  mkey : Mkey
  tblval : Bytes
  deriving DecidableEq, Repr

/-- Where `change_trigger_process` stands. -/
inductive Thread
  | idle
  | popped (r : Request)
  | dumped (r : Request)
  deriving DecidableEq, Repr

structure State where
  /-- the shared-memory table -/
  tbl : BytesMap
  /-- the gdbm file -/
  dump : BytesMap
  /-- `_need_trigger_nodes` -/
  need : List Mkey
  /-- `_exist_trigger_nodes` -/
  exist : Finmap (fun _ : Mkey => Bytes)
  /-- the request of a table write that is not made yet -/
  writer : Option Request
  thread : Thread
  /-- for every key written in the run, what its last write left: a value, or
  nothing after a removal; no part of the program -/
  last : Bytes → Option (Option Bytes)

/-- A started agent, with what an earlier one dumped. -/
def State.init (dump : BytesMap) : State where
  tbl := ∅
  dump := dump
  need := []
  exist := ∅
  writer := none
  thread := .idle
  last := fun _ => none

/-! ### The steps -/

/-- `add_change_trigger_node`. -/
def State.addChangeTriggerNode (s : State) (r : Request) : State :=
  if r.mkey.tblkey = [] then s
  else if r.mkey ∈ s.exist then s
  else { s with need := s.need ++ [r.mkey], exist := s.exist.insert r.mkey r.tblval }

/-- `qconf_dump_set`. -/
def qconfDumpSet (dump : BytesMap) (tblkey tblval : Bytes) : BytesMap :=
  if tblkey = [] then dump else dump.insert tblkey tblval

/-- `qconf_dump_delete`. -/
def qconfDumpDelete (dump : BytesMap) (tblkey : Bytes) : BytesMap :=
  if tblkey = [] then dump else dump.erase tblkey

/-- `trigger_dump`, which `change_trigger_process` does not call for a reset. -/
def triggerDump (dump : BytesMap) (r : Request) : BytesMap :=
  match r.mkey.type with
  | .addOrModify => qconfDumpSet dump r.mkey.tblkey r.tblval
  | .remove => qconfDumpDelete dump r.mkey.tblkey
  | .reset => dump

/-- What a write leaves for its key. -/
def Request.result (r : Request) : Option Bytes :=
  match r.mkey.type with
  | .addOrModify => some r.tblval
  | .remove => none
  | .reset => none

inductive Action
  /-- `hash_tbl_set` that answers `QCONF_OK` -/
  | hashTblSet (tblkey tblval : Bytes)
  /-- `hash_tbl_remove`, whatever it answers -/
  | hashTblRemove (tblkey : Bytes)
  | evict (tblkey : Bytes)
  /-- the writer asks for the dump, which completes its write -/
  | addTrigger
  | pop
  | dump
  /-- the feedback of a request; one that times out is queued as a reset -/
  | feedback (timeout : Bool)
  deriving DecidableEq, Repr

/-- One step of the writer or of `change_trigger_process`; `none` where it is not
possible. -/
def step (s : State) : Action → Option State
  | .hashTblSet tblkey tblval =>
    -- the same value answers `QCONF_ERR_SAME_VALUE`, and nothing is asked for
    if s.writer = none ∧ tblkey ≠ [] ∧ s.tbl.lookup tblkey ≠ some tblval then
      some { s with tbl := s.tbl.insert tblkey tblval, writer := some ⟨⟨.addOrModify, tblkey⟩, tblval⟩ }
    else none
  | .hashTblRemove tblkey =>
    if s.writer = none ∧ tblkey ≠ [] then
      some { s with tbl := s.tbl.erase tblkey, writer := some ⟨⟨.remove, tblkey⟩, []⟩ }
    else none
  | .evict tblkey => some { s with tbl := s.tbl.erase tblkey }
  | .addTrigger =>
    match s.writer with
    | none => none
    | some r => some { s.addChangeTriggerNode r with
        writer := none
        last := Function.update s.last r.mkey.tblkey (some r.result) }
  | .pop =>
    match s.thread, s.need with
    | .idle, m :: rest =>
      match s.exist.lookup m with
      | some v => some { s with need := rest, exist := s.exist.erase m, thread := .popped ⟨m, v⟩ }
      -- the iterator of `find` would be `end()`
      | none => none
    | _, _ => none
  | .dump =>
    match s.thread with
    | .popped r => some { s with dump := triggerDump s.dump r, thread := .dumped r }
    | _ => none
  | .feedback timeout =>
    match s.thread with
    | .dumped r =>
      if timeout ∧ r.mkey.type ≠ .remove then
        some { s.addChangeTriggerNode ⟨⟨.reset, r.mkey.tblkey⟩, r.tblval⟩ with thread := .idle }
      else some { s with thread := .idle }
    | _ => none

/-! ### What is still to be dumped -/

/-- The entry of the dump that a request assigns. -/
def Request.entries (r : Request) : List (Entry Bytes Bytes) :=
  if r.mkey.tblkey = [] ∨ r.mkey.type = .reset then [] else [(r.mkey.tblkey, r.result)]

/-- A request that waits in the queue. -/
def State.queued (s : State) (m : Mkey) : Request := ⟨m, (s.exist.lookup m).getD []⟩

/-- What `change_trigger_process` has in hand and not dumped yet. -/
def Thread.entries : Thread → List (Entry Bytes Bytes)
  | .popped r => r.entries
  | _ => []

/-- Everything that is still to be dumped, in order. -/
def State.log (s : State) : List (Entry Bytes Bytes) :=
  s.thread.entries ++ s.need.flatMap (fun m => (s.queued m).entries)

/-- Once all that is under way is dumped, the dump holds what the last write of
every key left. -/
structure Inv (s : State) : Prop where
  nodup : s.need.Nodup
  exist : ∀ m, m ∈ s.exist ↔ m ∈ s.need
  writer : ∀ r, s.writer = some r → r.mkey.tblkey ≠ [] ∧ r.mkey.type ≠ .reset
  current : ∀ key o, s.last key = some o → (replay s.dump s.log).lookup key = o

/-- A request that is dropped repeats the newest queued one for its key: the queued
request of the same type carries the same value, and behind it nothing but resets
is queued for the key. -/
def Repeats (s : State) (a : Action) : Prop :=
  a = .addTrigger → ∀ r, s.writer = some r → r.mkey ∈ s.need →
    s.exist.lookup r.mkey = some r.tblval ∧
      ∃ pre post, s.need = pre ++ r.mkey :: post ∧
        ∀ m ∈ post, m.tblkey = r.mkey.tblkey → m.type = .reset

section

variable {s s' : State}

theorem triggerDump_eq (dump : BytesMap) (r : Request) : triggerDump dump r = replay dump r.entries := by
  obtain ⟨⟨type, tblkey⟩, tblval⟩ := r
  unfold triggerDump Request.entries qconfDumpSet qconfDumpDelete
  by_cases hk : tblkey = []
  · cases type <;> simp [hk, replay]
  · cases type <;> simp [hk, replay, assign, Request.result]

theorem mem_entries {r : Request} {e : Entry Bytes Bytes} (h : e ∈ r.entries) :
    e.1 = r.mkey.tblkey ∧ r.mkey.type ≠ .reset := by
  unfold Request.entries at h
  split at h
  · exact absurd h (by simp)
  · next hc =>
    rw [List.mem_singleton] at h
    exact ⟨by rw [h], fun ht => hc (Or.inr ht)⟩

theorem entries_eq {r : Request} (hk : r.mkey.tblkey ≠ []) (ht : r.mkey.type ≠ .reset) :
    r.entries = [(r.mkey.tblkey, r.result)] := if_neg (not_or.mpr ⟨hk, ht⟩)

/-! ### Adding a request -/

/-- A request that is queued comes last. -/
theorem log_addChangeTriggerNode (hi : Inv s) {r : Request} (hk : r.mkey.tblkey ≠ [])
    (hm : r.mkey ∉ s.need) : (s.addChangeTriggerNode r).log = s.log ++ r.entries := by
  unfold State.addChangeTriggerNode
  rw [if_neg hk, if_neg (fun h => hm ((hi.exist _).mp h))]
  have hold : s.need.flatMap (fun m => Request.entries
      ⟨m, ((s.exist.insert r.mkey r.tblval).lookup m).getD []⟩) =
      s.need.flatMap (fun m => (s.queued m).entries) := by
    refine List.flatMap_congr (fun m hmem => ?_)
    have hne : m ≠ r.mkey := fun h => hm (h ▸ hmem)
    rw [Finmap.lookup_insert_of_ne _ hne]
    rfl
  simp only [State.log, State.queued, List.flatMap_append, List.flatMap_singleton,
    Finmap.lookup_insert, Option.getD_some, hold, List.append_assoc]

/-- The queue stays consistent, whatever is added. -/
theorem addChangeTriggerNode_queue (hi : Inv s) (r : Request) :
    (s.addChangeTriggerNode r).need.Nodup ∧
      ∀ m, m ∈ (s.addChangeTriggerNode r).exist ↔ m ∈ (s.addChangeTriggerNode r).need := by
  unfold State.addChangeTriggerNode
  split
  · exact ⟨hi.nodup, hi.exist⟩
  split
  · exact ⟨hi.nodup, hi.exist⟩
  · next hne =>
    rw [hi.exist] at hne
    refine ⟨List.nodup_append.mpr ⟨hi.nodup, List.nodup_singleton _, ?_⟩, fun m => ?_⟩
    · intro a ha b hb hab
      rw [List.mem_singleton] at hb
      exact hne (hb ▸ hab ▸ ha)
    · simp only [Finmap.mem_insert, List.mem_append, List.mem_singleton, hi.exist]
      exact or_comm

/-- `add_change_trigger_node` touches the queue only. -/
theorem addChangeTriggerNode_frame (s : State) (r : Request) :
    ∃ need exist, s.addChangeTriggerNode r = { s with need := need, exist := exist } := by
  unfold State.addChangeTriggerNode
  split
  · exact ⟨s.need, s.exist, rfl⟩
  split
  · exact ⟨s.need, s.exist, rfl⟩
  · exact ⟨_, _, rfl⟩

/-- A reset adds nothing to dump. -/
theorem log_reset (hi : Inv s) (tblkey tblval : Bytes) :
    (s.addChangeTriggerNode ⟨⟨.reset, tblkey⟩, tblval⟩).log = s.log := by
  by_cases hk : tblkey = []
  · simp [State.addChangeTriggerNode, hk]
  by_cases hm : (⟨.reset, tblkey⟩ : Mkey) ∈ s.need
  · simp [State.addChangeTriggerNode, hk, (hi.exist _).mpr hm]
  · rw [log_addChangeTriggerNode hi hk hm]
    simp [Request.entries]

/-- A dropped request that repeats the newest queued one: the log ends, as far as
the key goes, with what it asks for. -/
theorem replay_repeated {r : Request} (hk : r.mkey.tblkey ≠ []) (ht : r.mkey.type ≠ .reset)
    (hv : s.exist.lookup r.mkey = some r.tblval) {pre post : List Mkey}
    (hneed : s.need = pre ++ r.mkey :: post)
    (hpost : ∀ m ∈ post, m.tblkey = r.mkey.tblkey → m.type = .reset) :
    (replay s.dump s.log).lookup r.mkey.tblkey = r.result := by
  have hr : s.queued r.mkey = r := by
    unfold State.queued
    rw [hv]
    rfl
  have hlog : s.log = (s.thread.entries ++ pre.flatMap (fun m => (s.queued m).entries)) ++
      (r.mkey.tblkey, r.result) :: post.flatMap (fun m => (s.queued m).entries) := by
    rw [State.log, hneed, List.flatMap_append, List.flatMap_cons, hr, entries_eq hk ht]
    simp
  rw [hlog]
  refine lookup_replay_last s.dump _ _ (r.mkey.tblkey, r.result) (fun e he => ?_)
  obtain ⟨m, hm, he⟩ := List.mem_flatMap.mp he
  obtain ⟨he1, htype⟩ := mem_entries he
  intro hkey
  exact htype (hpost m hm (he1.symm.trans hkey))

/-- **The writer completes its write.** -/
theorem Inv.addTrigger {r : Request} (hi : Inv s) (hw : s.writer = some r)
    (hrep : Repeats s .addTrigger) :
    Inv { s.addChangeTriggerNode r with
      writer := none
      last := Function.update s.last r.mkey.tblkey (some r.result) } := by
  obtain ⟨hk, ht⟩ := hi.writer r hw
  obtain ⟨hnd, hex⟩ := addChangeTriggerNode_queue hi r
  have hdump : (s.addChangeTriggerNode r).dump = s.dump := by
    obtain ⟨_, _, h⟩ := addChangeTriggerNode_frame s r
    rw [h]
  -- what is dumped last for the key, and that other keys are left alone
  have hlog : (replay s.dump (s.addChangeTriggerNode r).log).lookup r.mkey.tblkey = r.result ∧
      ∀ key, key ≠ r.mkey.tblkey → (replay s.dump (s.addChangeTriggerNode r).log).lookup key =
        (replay s.dump s.log).lookup key := by
    by_cases hm : r.mkey ∈ s.need
    · have hsame : s.addChangeTriggerNode r = s := by
        unfold State.addChangeTriggerNode
        rw [if_neg hk, if_pos ((hi.exist _).mpr hm)]
      obtain ⟨hv, pre, post, hneed, hpost⟩ := hrep rfl r hw hm
      rw [hsame]
      exact ⟨replay_repeated hk ht hv hneed hpost, fun _ _ => rfl⟩
    · rw [log_addChangeTriggerNode hi hk hm, entries_eq hk ht]
      refine ⟨lookup_replay_last s.dump s.log [] _ (by simp), fun key hne => ?_⟩
      rw [replay_append]
      exact lookup_assign_of_ne _ hne
  refine ⟨hnd, hex, fun r' hr' => absurd hr' (by simp), fun key o ho => ?_⟩
  show (replay (s.addChangeTriggerNode r).dump (s.addChangeTriggerNode r).log).lookup key = o
  rw [hdump]
  have ho' : Function.update s.last r.mkey.tblkey (some r.result) key = some o := ho
  by_cases hkey : key = r.mkey.tblkey
  · subst hkey
    rw [Function.update_self, Option.some.injEq] at ho'
    rw [hlog.1, ho']
  · rw [Function.update_of_ne hkey] at ho'
    rw [hlog.2 key hkey]
    exact hi.current key o ho'

/-! ### The other steps -/

theorem Inv.pop {m : Mkey} {rest : List Mkey} {v : Bytes} (hi : Inv s) (ht : s.thread = .idle)
    (hn : s.need = m :: rest) (hv : s.exist.lookup m = some v) :
    Inv { s with need := rest, exist := s.exist.erase m, thread := .popped ⟨m, v⟩ } := by
  have hnd := hi.nodup
  rw [hn, List.nodup_cons] at hnd
  have hlog : State.log { s with need := rest, exist := s.exist.erase m, thread := .popped ⟨m, v⟩ } =
      s.log := by
    have hrest : rest.flatMap (fun m' => Request.entries ⟨m', ((s.exist.erase m).lookup m').getD []⟩) =
        rest.flatMap (fun m' => (s.queued m').entries) := by
      refine List.flatMap_congr (fun m' hm' => ?_)
      have hne : m' ≠ m := fun h => hnd.1 (h ▸ hm')
      rw [Finmap.lookup_erase_ne hne]
      rfl
    have hhead : s.queued m = ⟨m, v⟩ := by
      unfold State.queued
      rw [hv]
      rfl
    simp only [State.log, ht, hn, Thread.entries, List.nil_append, List.flatMap_cons, hhead]
    exact congrArg _ hrest
  refine ⟨hnd.2, fun m' => ?_, hi.writer, fun key o ho => ?_⟩
  · show m' ∈ s.exist.erase m ↔ m' ∈ rest
    rw [Finmap.mem_erase, hi.exist, hn, List.mem_cons]
    constructor
    · rintro ⟨hne, rfl | h⟩
      · exact absurd rfl hne
      · exact h
    · intro h
      exact ⟨fun hm' => hnd.1 (hm' ▸ h), Or.inr h⟩
  · rw [hlog]
    exact hi.current key o ho

/-- What was in hand is dumped. -/
theorem Inv.dump {r : Request} (hi : Inv s) (ht : s.thread = .popped r) :
    Inv { s with dump := triggerDump s.dump r, thread := .dumped r } := by
  refine ⟨hi.nodup, hi.exist, hi.writer, fun key o ho => ?_⟩
  have h := hi.current key o ho
  rw [State.log, ht, replay_append] at h
  rw [triggerDump_eq]
  exact h

theorem Inv.feedback {r : Request} (hi : Inv s) (ht : s.thread = .dumped r) :
    Inv { s.addChangeTriggerNode ⟨⟨.reset, r.mkey.tblkey⟩, r.tblval⟩ with thread := .idle } := by
  obtain ⟨hnd, hex⟩ := addChangeTriggerNode_queue hi ⟨⟨.reset, r.mkey.tblkey⟩, r.tblval⟩
  have hlog := log_reset hi r.mkey.tblkey r.tblval
  obtain ⟨need, exist, hs⟩ := addChangeTriggerNode_frame s ⟨⟨.reset, r.mkey.tblkey⟩, r.tblval⟩
  rw [hs] at hnd hex hlog ⊢
  refine ⟨hnd, hex, hi.writer, fun key o ho => ?_⟩
  have h := hi.current key o ho
  rw [← hlog] at h
  simpa [State.log, State.queued, ht, Thread.entries] using h

theorem Inv.finish {r : Request} (hi : Inv s) (ht : s.thread = .dumped r) :
    Inv { s with thread := .idle } := by
  refine ⟨hi.nodup, hi.exist, hi.writer, fun key o ho => ?_⟩
  have h := hi.current key o ho
  simpa [State.log, State.queued, ht, Thread.entries] using h

theorem inv_init (dump : BytesMap) : Inv (State.init dump) where
  nodup := List.nodup_nil
  exist m := by simp [State.init, Finmap.notMem_empty]
  writer _ h := absurd h (by simp [State.init])
  current _ _ h := absurd h (by simp [State.init])

/-- **Every step keeps the invariant**, if what is dropped repeats what is queued. -/
theorem Inv.step {a : Action} (hi : Inv s) (hrep : Repeats s a) (h : step s a = some s') : Inv s' := by
  cases a with
  | hashTblSet tblkey tblval =>
    unfold Trigger.step at h
    dsimp only at h
    split at h
    · next hc =>
      cases h
      refine ⟨hi.nodup, hi.exist, fun r hr => ?_, hi.current⟩
      cases hr
      exact ⟨hc.2.1, by simp⟩
    · exact absurd h (by simp)
  | hashTblRemove tblkey =>
    unfold Trigger.step at h
    dsimp only at h
    split at h
    · next hc =>
      cases h
      refine ⟨hi.nodup, hi.exist, fun r hr => ?_, hi.current⟩
      cases hr
      exact ⟨hc.2, by simp⟩
    · exact absurd h (by simp)
  | evict tblkey =>
    cases h
    exact ⟨hi.nodup, hi.exist, hi.writer, hi.current⟩
  | addTrigger =>
    unfold Trigger.step at h
    dsimp only at h
    split at h
    · exact absurd h (by simp)
    · next hw =>
      cases h
      exact hi.addTrigger hw hrep
  | pop =>
    unfold Trigger.step at h
    dsimp only at h
    split at h
    · next ht hn =>
      split at h
      · next hv =>
        cases h
        exact hi.pop ht hn hv
      · exact absurd h (by simp)
    · exact absurd h (by simp)
  | dump =>
    unfold Trigger.step at h
    dsimp only at h
    split at h
    · next ht =>
      cases h
      exact hi.dump ht
    · exact absurd h (by simp)
  | feedback timeout =>
    unfold Trigger.step at h
    dsimp only at h
    split at h
    · next ht =>
      split at h
      · cases h
        exact hi.feedback ht
      · cases h
        exact hi.finish ht
    · exact absurd h (by simp)

/-! ### The dump follows the table -/

/-- **The dump follows the table**, in the runs in which a dropped request always
repeats the newest queued one: whenever the queue is empty and the trigger thread
idle, the dump holds what the last write of every key left. -/
theorem dump_follows_table (dump : BytesMap) (s : State)
    (hreach : Transition.Reaches step Repeats (State.init dump) s)
    (hempty : s.need = []) (hidle : s.thread = .idle) (key : Bytes) (o : Option Bytes)
    (hlast : s.last key = some o) : s.dump.lookup key = o := by
  have hi : Inv s := hreach.invariant Inv (inv_init dump) (fun hi hrep hs => hi.step hrep hs)
  have h := hi.current key o hlast
  rwa [State.log, hempty, hidle] at h

/-- A queued request always has its value, so the thread can always go on. -/
theorem pop_possible (dump : BytesMap) (hreach : Transition.Reaches step Repeats (State.init dump) s)
    (hidle : s.thread = .idle) (hne : s.need ≠ []) : (step s .pop).isSome := by
  have hi : Inv s := hreach.invariant Inv (inv_init dump) (fun hi hrep hs => hi.step hrep hs)
  obtain ⟨m, rest, hn⟩ := List.exists_cons_of_ne_nil hne
  have hm : m ∈ s.exist := (hi.exist m).mpr (by rw [hn]; exact List.mem_cons_self)
  obtain ⟨v, hv⟩ := Option.isSome_iff_exists.mp (Finmap.lookup_isSome.mpr hm)
  simp [step, hidle, hn, hv]

/-- A key of the runs below. -/
def keyK : Bytes := [107]

/-- A test for `Repeats`: nothing is dropped. -/
def repeatsTest (s : State) : Action → Bool
  | .addTrigger => s.writer.all (fun r => decide (r.mkey ∉ s.need))
  | _ => true

theorem repeats_of_test (s : State) (a : Action) (h : repeatsTest s a = true) : Repeats s a := by
  rintro rfl r hw hm
  rw [repeatsTest, hw] at h
  exact absurd hm (of_decide_eq_true h)

/-- A value is written, the key is removed, and both are dumped in turn. -/
theorem dump_follows_table_removed :
    ∃ s : State, s.last keyK = some none ∧ s.dump.lookup keyK = none := by
  let acts : List Action := [.hashTblSet keyK [1], .addTrigger, .hashTblRemove keyK, .addTrigger,
    .pop, .dump, .feedback true, .pop, .dump, .feedback true, .pop, .dump, .feedback false]
  have hrun : (Transition.run (Transition.guarded repeatsTest step) (State.init ∅) acts).any (fun s =>
      decide (s.need = [] ∧ s.thread = .idle ∧ s.last keyK = some none)) = true := by decide
  obtain ⟨s, hr, hp⟩ := (Option.any_eq_true _ _).mp hrun
  obtain ⟨hempty, hidle, hlast⟩ := of_decide_eq_true hp
  exact ⟨s, hlast, dump_follows_table ∅ s (Transition.Reaches.guardedRun repeatsTest repeats_of_test .start hr)
    hempty hidle keyK none hlast⟩

/-- **Two writes before the first is dumped**: the second request is dropped, and
the dump is left with the first value. -/
theorem second_write_not_dumped :
    ∃ s, Transition.Reaches step (fun _ _ => True) (State.init ∅) s ∧ s.need = [] ∧
      s.thread = .idle ∧ s.writer = none ∧ s.last keyK = some (some [2]) ∧
      s.dump.lookup keyK = some [1] := by
  let acts : List Action := [.hashTblSet keyK [1], .addTrigger, .hashTblSet keyK [2], .addTrigger,
    .pop, .dump, .feedback false]
  let p : State → Prop := fun s => s.need = [] ∧ s.thread = .idle ∧ s.writer = none ∧
    s.last keyK = some (some [2]) ∧ s.dump.lookup keyK = some [1]
  have hrun : (Transition.run step (State.init ∅) acts).any (fun s => decide (p s)) = true := by decide
  obtain ⟨s, hr, hp⟩ := (Option.any_eq_true _ _).mp hrun
  exact ⟨s, Transition.reaches_of_run hr, of_decide_eq_true hp⟩

end

end QConf.Trigger
