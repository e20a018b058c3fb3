import QConf.Agent.Reads
import QConf.Lib.Transition

/-!
# The queue of idcs with a gray release

`_need_gray_idcs` has the names of the idcs whose notify node may have changed.
`do_gray_process` takes one after the other, asks `get_zhandle_by_idc` for its handle and
calls `gray_process` with the handle and the name.  Three functions fill the queue, each of
them because of a handle: `global_watcher` and `init_env_for_zk` with the name of the idc,
read from `_ht_handle_idchost` or passed along, and `process_tbl` with the keys of
`_ht_idchost_handle`.

These keys are no names: they are the encoded pairs of an idc and a host.  And a name of
more than 255 bytes does not survive its way through `_ht_handle_idchost`
(`decodedIdc_eq`).

A handle is called by the number of its opening here, so no two are ever the same; a closed
one gets no more events.
-/

namespace QConf.GrayQueue

open ByteCodec Transition

/-! ### The state -/

/-- A call of `init_env_for_zk` that waits for `watch_notify_node`. -/
structure InitCall where
  zh : Nat
  idc : Bytes
  /-- the name was read back from `_ht_handle_idchost` -/
  decoded : Bool

structure Watcher where
  /-- `_ht_idchost_handle` -/
  idchostHandle : Finmap (fun _ : Bytes => Nat)
  /-- `_ht_handle_idchost` -/
  handleIdchost : Finmap (fun _ : Nat => Bytes)
  /-- `_need_gray_idcs` -/
  need : List Bytes
  /-- `_exist_gray_idcs` -/
  exist : Finset Bytes
  inits : List InitCall
  /-- the keys that `process_tbl` has still to look at -/
  scan : List Bytes
  /-- the number of handles opened so far -/
  opened : Nat
  /-- the name of the idc that a handle was opened for -/
  openedAs : Nat → Bytes
  /-- what was put into the queue so far, and because of which handle -/
  puts : List (Nat × Bytes)

def Watcher.init : Watcher := ⟨∅, ∅, [], ∅, [], [], 0, fun _ => [], []⟩

/-! ### The functions -/

/-- What `add_gray_idc` puts into the queue. -/
def Watcher.putOf (s : Watcher) (zh : Nat) (key : Bytes) : Option (Nat × Bytes) :=
  if key = [] ∨ key ∈ s.exist then none else some (zh, key)

/-- `add_gray_idc`, called because of the handle `zh`. -/
def Watcher.addGrayIdc (s : Watcher) (zh : Nat) (key : Bytes) : Watcher :=
  match s.putOf zh key with
  | none => s
  | some p => { s with need := s.need ++ [key], exist := insert key s.exist, puts := p :: s.puts }

/-- The idc that `deserialize_from_idc_host` reads; its return code is not looked at. -/
def decodedIdc (idcHost : Bytes) : Bytes := (deserializeFromIdcHost idcHost).2.1

/-- `init_env_for_zk`, up to `watch_notify_node` where there is a connection. -/
def Watcher.initEnvForZk (s : Watcher) (zh : Nat) (idcHost idc : Bytes) (decoded connected : Bool) : Watcher :=
  { s with
    handleIdchost := s.handleIdchost.insert zh idcHost
    idchostHandle := s.idchostHandle.insert idcHost zh
    inits := if connected then s.inits ++ [⟨zh, idc, decoded⟩] else s.inits }

/-- `zookeeper_init` gives a new handle for the idc. -/
def Watcher.zookeeperInit (s : Watcher) (idc : Bytes) : Watcher :=
  { s with opened := s.opened + 1, openedAs := Function.update s.openedAs s.opened idc }

/-- `get_zhandle_by_idc`; `init` is `none` where `zookeeper_init` fails, and else tells whether
there is a connection at once. -/
def getZhandleByIdc (conf : BytesMap) (s : Watcher) (idc : Bytes) (init : Option Bool) :
    Option Nat × Watcher :=
  if idc = [] then (none, s)
  else
    match conf.lookup idc with
    | none => (none, s)
    | some host =>
      let idcHost := serializeToIdcHost idc host
      match s.idchostHandle.lookup idcHost with
      | some zh => (some zh, s)
      | none =>
        match init with
        | none => (none, s)
        | some connected =>
          (some s.opened, (s.zookeeperInit idc).initEnvForZk s.opened idcHost idc false connected)

/-- The handle that the tables have for an idc, or the new one that can be opened. -/
def Watcher.handleOf (conf : BytesMap) (s : Watcher) (init : Option Bool) (idc : Bytes) : Option Nat :=
  (conf.lookup idc).bind (fun host =>
    (s.idchostHandle.lookup (serializeToIdcHost idc host)).or (init.map (fun _ => s.opened)))

/-- The handle is the session that the reads of the agent use. -/
theorem getZhandleByIdc_eq_sessionOf (conf : BytesMap) (s : Watcher) (idc : Bytes) (init : Option Bool) :
    (getZhandleByIdc conf s idc init).1 = Scan.sessionOf conf.keys (s.handleOf conf init) idc := by
  unfold getZhandleByIdc Scan.sessionOf Watcher.handleOf
  split
  · rfl
  cases hconf : conf.lookup idc with
  | none =>
    have hnot : idc ∉ conf.keys := fun hm => Finmap.lookup_eq_none.mp hconf (Finmap.mem_keys.mp hm)
    rw [if_neg hnot]
  | some host =>
    have hmem : idc ∈ conf.keys := Finmap.mem_keys.mpr (Finmap.mem_iff.mpr ⟨host, hconf⟩)
    rw [if_pos hmem, Option.bind_some]
    dsimp only
    cases s.idchostHandle.lookup (serializeToIdcHost idc host) with
    | some zh => rfl
    | none => cases init <;> rfl

/-- One round of `do_gray_process`: what `gray_process` is called with, and the state after. -/
def doGrayProcess (conf : BytesMap) (s : Watcher) (init : Option Bool) :
    Option ((Option Nat × Bytes) × Watcher) :=
  match s.need with
  | [] => none
  | grayIdc :: rest =>
    let r := getZhandleByIdc conf { s with need := rest, exist := s.exist.erase grayIdc } grayIdc init
    some ((r.1, grayIdc), r.2)

inductive Action
  /-- some thread calls `get_zhandle_by_idc` -/
  | handle (idc : Bytes) (init : Option Bool)
  /-- a thread that found no handle for the idc opens one, though there is one by now -/
  | race (idc : Bytes) (connected : Bool)
  /-- `watch_notify_node` returns to the `i`-th call of `init_env_for_zk` -/
  | watched (i : Nat) (ret : Ret)
  /-- `global_watcher`: the notify node was created or deleted -/
  | notify (zh : Nat)
  /-- `global_watcher`: the session is connected -/
  | connected (zh : Nat) (connected : Bool)
  /-- `global_watcher`: the session expired, and `watcher_reconnect_to_zookeeper` opens another -/
  | expired (zh : Nat) (init : Option Bool)
  /-- `process_tbl` takes the keys of `_ht_idchost_handle` -/
  | scanStart
  /-- `process_tbl` comes to the next key, and `watch_notify_node` returns `ret` -/
  | scanNext (ret : Ret)
  | gray (init : Option Bool)

def grayStep (conf : BytesMap) (s : Watcher) : Action → Option Watcher
  | .handle idc init => some (getZhandleByIdc conf s idc init).2
  | .race idc connected =>
    if idc = [] then none
    else (conf.lookup idc).map (fun host =>
      (s.zookeeperInit idc).initEnvForZk s.opened (serializeToIdcHost idc host) idc false connected)
  | .watched i ret =>
    match s.inits[i]? with
    | none => none
    | some c =>
      let s := { s with inits := s.inits.eraseIdx i }
      some (if ret = .ok then s.addGrayIdc c.zh c.idc else s)
  | .notify zh =>
    match s.handleIdchost.lookup zh with
    | none => some s
    | some idcHost => some (s.addGrayIdc zh (decodedIdc idcHost))
  | .connected zh connected =>
    match s.handleIdchost.lookup zh with
    | none => some s
    | some idcHost => some (s.initEnvForZk zh idcHost (decodedIdc idcHost) true connected)
  | .expired zh init =>
    match s.handleIdchost.lookup zh with
    | none => some s
    | some idcHost =>
      let s := { s with
        handleIdchost := s.handleIdchost.erase zh
        idchostHandle := s.idchostHandle.erase idcHost }
      match init with
      | none => some s
      | some connected =>
        some ((s.zookeeperInit (s.openedAs zh)).initEnvForZk s.opened idcHost (decodedIdc idcHost) true
          connected)
  | .scanStart => if s.scan = [] then some { s with scan := sortBytes s.idchostHandle.keys } else none
  | .scanNext ret =>
    match s.scan with
    | [] => none
    | cidc :: rest =>
      let s := { s with scan := rest }
      match s.idchostHandle.lookup cidc with
      | none => some s
      | some zh => some (if ret = .ok then s.addGrayIdc zh cidc else s)
  | .gray init => (doGrayProcess conf s init).map Prod.snd

/-- What a step puts into the queue. -/
def Watcher.puts? (s : Watcher) : Action → Option (Nat × Bytes)
  | .watched i ret =>
    if ret = .ok then (s.inits[i]?).bind (fun c => s.putOf c.zh c.idc) else none
  | .notify zh => (s.handleIdchost.lookup zh).bind (fun idcHost => s.putOf zh (decodedIdc idcHost))
  | .scanNext ret =>
    if ret = .ok then
      match s.scan with
      | [] => none
      | cidc :: _ => (s.idchostHandle.lookup cidc).bind (fun zh => s.putOf zh cidc)
    else none
  | _ => none

/-- Everything put into the queue is the name its handle was opened for. -/
def NamesOnly (s : Watcher) : Prop := ∀ p ∈ s.puts, p.2 = s.openedAs p.1

/-- `process_tbl` puts nothing into the queue, and a name that was read back from
`_ht_handle_idchost` and is put there has at most 255 bytes. -/
def PutsName (s : Watcher) (a : Action) : Prop :=
  s.puts? a = none ∨
  match a with
  | .scanNext _ => False
  | .notify zh => (s.openedAs zh).length ≤ 255
  | .watched i _ => ∀ c, s.inits[i]? = some c → c.decoded = true → (s.openedAs c.zh).length ≤ 255
  | _ => True

section

variable {conf : BytesMap} {s s' : Watcher} {idc host key : Bytes} {zh : Nat}

/-! ### Names read back -/

/-- **The name comes back up to its length modulo 256.** -/
theorem decodedIdc_eq (idc host : Bytes) :
    decodedIdc (serializeToIdcHost idc host) = idc.take (idc.length % 256) := by
  have hread := readField_append_mod idcSizeLen idc [] (field hostPathSizeLen host)
  have hbuf : serializeToIdcHost idc host = [] ++ field idcSizeLen idc ++ field hostPathSizeLen host := rfl
  rw [decodedIdc, deserializeFromIdcHost, hbuf]
  rw [List.length_nil] at hread
  rw [qconfSubIdc, hread]
  dsimp only
  split <;> rfl

theorem decodedIdc_eq_iff (idc host : Bytes) :
    decodedIdc (serializeToIdcHost idc host) = idc ↔ idc.length ≤ 255 := by
  rw [decodedIdc_eq]
  constructor
  · intro h
    have hlen := congrArg List.length h
    rw [List.length_take] at hlen
    have := Nat.mod_lt idc.length (show 0 < 256 by decide)
    omega
  · intro h
    rw [Nat.mod_eq_of_lt (by omega), List.take_length]

/-- A pair of an idc and a host is longer than the idc. -/
theorem serializeToIdcHost_ne (idc host : Bytes) : serializeToIdcHost idc host ≠ idc := by
  intro h
  have hbuf : serializeToIdcHost idc host = field idcSizeLen idc ++ field hostPathSizeLen host := rfl
  have hlen := congrArg List.length h
  rw [hbuf, List.length_append, field_length, field_length, idcSizeLen] at hlen
  omega

/-! ### The maps -/

/-- The handle was opened for an idc of the configuration, and this is the pair of the idc
and its host. -/
def Names (conf : BytesMap) (s : Watcher) (zh : Nat) (idcHost : Bytes) : Prop :=
  zh < s.opened ∧ ∃ host, conf.lookup (s.openedAs zh) = some host ∧
    idcHost = serializeToIdcHost (s.openedAs zh) host

/-- What holds in every run, whatever is put into the queue. -/
structure Inv (conf : BytesMap) (s : Watcher) : Prop where
  configured : ∀ zh < s.opened, s.openedAs zh ≠ [] ∧ s.openedAs zh ∈ conf
  handle : ∀ zh idcHost, s.handleIdchost.lookup zh = some idcHost → Names conf s zh idcHost
  idchost : ∀ idcHost zh, s.idchostHandle.lookup idcHost = some zh → Names conf s zh idcHost
  inits : ∀ c ∈ s.inits, c.zh < s.opened ∧
    c.idc = if c.decoded then (s.openedAs c.zh).take ((s.openedAs c.zh).length % 256) else s.openedAs c.zh
  queued : ∀ g ∈ s.need, ∃ zh, (zh, g) ∈ s.puts
  put : ∀ p ∈ s.puts, p.1 < s.opened

theorem inv_init (conf : BytesMap) : Inv conf .init where
  configured zh h := absurd h (Nat.not_lt_zero zh)
  handle zh idcHost h := absurd h (by simp [Watcher.init])
  idchost idcHost zh h := absurd h (by simp [Watcher.init])
  inits c hc := absurd hc (by simp [Watcher.init])
  queued g hg := absurd hg (by simp [Watcher.init])
  put p hp := absurd hp (by simp [Watcher.init])

/-- A new handle leaves the names of the others alone. -/
theorem openedAs_of_lt (h : zh < s.opened) (idc : Bytes) : (s.zookeeperInit idc).openedAs zh = s.openedAs zh :=
  Function.update_of_ne (Nat.ne_of_lt h) _ _

theorem openedAs_new (s : Watcher) (idc : Bytes) : (s.zookeeperInit idc).openedAs s.opened = idc :=
  Function.update_self ..

theorem Names.zookeeperInit {idcHost : Bytes} (h : Names conf s zh idcHost) (idc : Bytes) :
    Names conf (s.zookeeperInit idc) zh idcHost := by
  obtain ⟨hlt, hname⟩ := h
  refine ⟨Nat.lt_succ_of_lt hlt, ?_⟩
  rw [openedAs_of_lt hlt]
  exact hname

theorem Inv.zookeeperInit (h : Inv conf s) (hne : idc ≠ []) (hconf : idc ∈ conf) :
    Inv conf (s.zookeeperInit idc) where
  configured zh hlt := by
    rcases Nat.lt_succ_iff_lt_or_eq.mp hlt with hlt | rfl
    · rw [openedAs_of_lt hlt]
      exact h.configured zh hlt
    · rw [openedAs_new]
      exact ⟨hne, hconf⟩
  handle zh idcHost hl := (h.handle zh idcHost hl).zookeeperInit idc
  idchost idcHost zh hl := (h.idchost idcHost zh hl).zookeeperInit idc
  inits c hc := by
    obtain ⟨hlt, hidc⟩ := h.inits c hc
    rw [openedAs_of_lt hlt]
    exact ⟨Nat.lt_succ_of_lt hlt, hidc⟩
  queued := h.queued
  put p hp := Nat.lt_succ_of_lt (h.put p hp)

theorem Inv.initEnvForZk (h : Inv conf s) {idcHost : Bytes} (hname : Names conf s zh idcHost)
    {decoded : Bool} (connected : Bool)
    (hidc : idc = if decoded then (s.openedAs zh).take ((s.openedAs zh).length % 256) else s.openedAs zh) :
    Inv conf (s.initEnvForZk zh idcHost idc decoded connected) where
  configured := h.configured
  handle zh' idcHost' hl := by
    by_cases heq : zh' = zh
    · rw [heq, Watcher.initEnvForZk, Finmap.lookup_insert, Option.some.injEq] at hl
      rw [heq, ← hl]
      exact hname
    · rw [Watcher.initEnvForZk, Finmap.lookup_insert_of_ne _ heq] at hl
      exact h.handle zh' idcHost' hl
  idchost idcHost' zh' hl := by
    by_cases heq : idcHost' = idcHost
    · rw [heq, Watcher.initEnvForZk, Finmap.lookup_insert, Option.some.injEq] at hl
      rw [heq, ← hl]
      exact hname
    · rw [Watcher.initEnvForZk, Finmap.lookup_insert_of_ne _ heq] at hl
      exact h.idchost idcHost' zh' hl
  inits c hc := by
    cases connected with
    | false => exact h.inits c hc
    | true =>
      rcases List.mem_append.mp hc with hc | hc
      · exact h.inits c hc
      · rw [List.mem_singleton.mp hc]
        exact ⟨hname.1, hidc⟩
  queued := h.queued
  put := h.put

/-- A handle that is opened and registered for an idc. -/
theorem Inv.open_registered (h : Inv conf s) (hne : idc ≠ []) (hconf : conf.lookup idc = some host)
    {decoded : Bool} (connected : Bool) {name : Bytes}
    (hname : name = if decoded then idc.take (idc.length % 256) else idc) :
    Inv conf ((s.zookeeperInit idc).initEnvForZk s.opened (serializeToIdcHost idc host) name decoded
      connected) := by
  have hmem : idc ∈ conf := Finmap.lookup_isSome.mp (by rw [hconf]; rfl)
  refine (h.zookeeperInit hne hmem).initEnvForZk ⟨Nat.lt_succ_self _, host, ?_, ?_⟩ connected ?_
  · rw [openedAs_new]
    exact hconf
  · rw [openedAs_new]
  · rw [openedAs_new]
    exact hname

theorem putOf_some {p : Nat × Bytes} (h : s.putOf zh key = some p) : p = (zh, key) := by
  unfold Watcher.putOf at h
  split at h
  · exact absurd h (by simp)
  · exact (Option.some.inj h).symm

theorem addGrayIdc_puts (s : Watcher) (zh : Nat) (key : Bytes) :
    (s.addGrayIdc zh key).puts = (s.putOf zh key).toList ++ s.puts := by
  unfold Watcher.addGrayIdc
  split
  · next h => rw [h]; rfl
  · next h => rw [h]; rfl

theorem addGrayIdc_openedAs (s : Watcher) (zh : Nat) (key : Bytes) :
    (s.addGrayIdc zh key).openedAs = s.openedAs := by
  unfold Watcher.addGrayIdc
  split <;> rfl

theorem Inv.addGrayIdc (h : Inv conf s) (hlt : zh < s.opened) (key : Bytes) :
    Inv conf (s.addGrayIdc zh key) := by
  unfold Watcher.addGrayIdc
  split
  · exact h
  · next p hp =>
    obtain rfl := putOf_some hp
    refine ⟨h.configured, h.handle, h.idchost, h.inits, fun g hg => ?_, fun p hp => ?_⟩
    · rcases List.mem_append.mp hg with hg | hg
      · obtain ⟨zh', hzh'⟩ := h.queued g hg
        exact ⟨zh', List.mem_cons_of_mem _ hzh'⟩
      · rw [List.mem_singleton.mp hg]
        exact ⟨zh, List.mem_cons_self ..⟩
    · rcases List.mem_cons.mp hp with rfl | hp
      · exact hlt
      · exact h.put p hp

/-! ### The steps -/

theorem Inv.getZhandleByIdc (h : Inv conf s) (idc : Bytes) (init : Option Bool) :
    Inv conf (getZhandleByIdc conf s idc init).2 := by
  unfold GrayQueue.getZhandleByIdc
  split
  · exact h
  · next hne =>
    split
    · exact h
    · next host hhost =>
      dsimp only
      split
      · exact h
      · split
        · exact h
        · exact h.open_registered hne hhost _ rfl

/-- **One step keeps the maps in order.** -/
theorem Inv.step (h : Inv conf s) {a : Action} (hstep : grayStep conf s a = some s') : Inv conf s' := by
  cases a with
  | handle idc init => exact Option.some.inj hstep ▸ h.getZhandleByIdc idc init
  | race idc connected =>
    simp only [grayStep] at hstep
    split at hstep
    · exact absurd hstep (by simp)
    · next hne =>
      obtain ⟨host, hhost, rfl⟩ := Option.map_eq_some_iff.mp hstep
      exact h.open_registered hne hhost _ rfl
  | watched i ret =>
    simp only [grayStep] at hstep
    split at hstep
    · exact absurd hstep (by simp)
    · next c hc =>
      have hmem : c ∈ s.inits := List.mem_of_getElem? hc
      have hrest : Inv conf { s with inits := s.inits.eraseIdx i } :=
        ⟨h.configured, h.handle, h.idchost, fun c hc => h.inits c (List.mem_of_mem_eraseIdx hc), h.queued,
          h.put⟩
      obtain rfl := Option.some.inj hstep
      split
      · exact hrest.addGrayIdc (h.inits c hmem).1 c.idc
      · exact hrest
  | notify zh =>
    simp only [grayStep] at hstep
    split at hstep
    · exact Option.some.inj hstep ▸ h
    · next idcHost hl =>
      exact Option.some.inj hstep ▸ h.addGrayIdc (h.handle zh idcHost hl).1 _
  | connected zh connected =>
    simp only [grayStep] at hstep
    split at hstep
    · exact Option.some.inj hstep ▸ h
    · next idcHost hl =>
      have hname := h.handle zh idcHost hl
      obtain ⟨-, host, -, hih⟩ := id hname
      obtain rfl := Option.some.inj hstep
      refine h.initEnvForZk hname connected ?_
      rw [hih, decodedIdc_eq]
      rfl
  | expired zh init =>
    simp only [grayStep] at hstep
    split at hstep
    · exact Option.some.inj hstep ▸ h
    · next idcHost hl =>
      obtain ⟨hlt, host, hconf, rfl⟩ := h.handle zh idcHost hl
      have hrest : Inv conf { s with
          handleIdchost := s.handleIdchost.erase zh
          idchostHandle := s.idchostHandle.erase (serializeToIdcHost (s.openedAs zh) host) } :=
        ⟨h.configured, fun zh' ih hl => h.handle zh' ih (lookup_erase_iff.mp hl).2,
          fun ih zh' hl => h.idchost ih zh' (lookup_erase_iff.mp hl).2, h.inits, h.queued, h.put⟩
      split at hstep
      · exact Option.some.inj hstep ▸ hrest
      · next connected =>
        obtain rfl := Option.some.inj hstep
        exact hrest.open_registered (h.configured zh hlt).1 hconf connected (decodedIdc_eq _ _)
  | scanStart =>
    simp only [grayStep] at hstep
    split at hstep
    · exact Option.some.inj hstep ▸ ⟨h.configured, h.handle, h.idchost, h.inits, h.queued, h.put⟩
    · exact absurd hstep (by simp)
  | scanNext ret =>
    simp only [grayStep] at hstep
    split at hstep
    · exact absurd hstep (by simp)
    · next cidc rest hscan =>
      have hrest : Inv conf { s with scan := rest } :=
        ⟨h.configured, h.handle, h.idchost, h.inits, h.queued, h.put⟩
      split at hstep
      · exact Option.some.inj hstep ▸ hrest
      · next zh hl =>
        obtain rfl := Option.some.inj hstep
        split
        · exact hrest.addGrayIdc (h.idchost cidc zh hl).1 cidc
        · exact hrest
  | gray init =>
    obtain ⟨r, hr, rfl⟩ := Option.map_eq_some_iff.mp hstep
    unfold doGrayProcess at hr
    split at hr
    · exact absurd hr (by simp)
    · next g rest hneed =>
      obtain rfl := Option.some.inj hr
      have hrest : Inv conf { s with need := rest, exist := s.exist.erase g } :=
        ⟨h.configured, h.handle, h.idchost, h.inits,
          fun g hg => h.queued g (hneed ▸ List.mem_cons_of_mem _ hg), h.put⟩
      exact hrest.getZhandleByIdc g init

theorem getZhandleByIdc_puts (conf : BytesMap) (s : Watcher) (idc : Bytes) (init : Option Bool) :
    (getZhandleByIdc conf s idc init).2.puts = s.puts ∧
      ∀ zh < s.opened, (getZhandleByIdc conf s idc init).2.openedAs zh = s.openedAs zh := by
  unfold getZhandleByIdc
  split
  · exact ⟨rfl, fun _ _ => rfl⟩
  · split
    · exact ⟨rfl, fun _ _ => rfl⟩
    · dsimp only
      split
      · exact ⟨rfl, fun _ _ => rfl⟩
      · split
        · exact ⟨rfl, fun _ _ => rfl⟩
        · exact ⟨rfl, fun zh hlt => openedAs_of_lt hlt idc⟩

/-- **What a step puts into the queue.**  The names of the handles there are stay. -/
theorem puts_step {a : Action} (hstep : grayStep conf s a = some s') :
    s'.puts = (s.puts? a).toList ++ s.puts ∧ ∀ zh < s.opened, s'.openedAs zh = s.openedAs zh := by
  cases a with
  | handle idc init => exact Option.some.inj hstep ▸ getZhandleByIdc_puts conf s idc init
  | race idc connected =>
    simp only [grayStep] at hstep
    split at hstep
    · exact absurd hstep (by simp)
    · obtain ⟨host, -, rfl⟩ := Option.map_eq_some_iff.mp hstep
      exact ⟨rfl, fun zh hlt => openedAs_of_lt hlt idc⟩
  | watched i ret =>
    simp only [grayStep] at hstep
    split at hstep
    · exact absurd hstep (by simp)
    · next c hc =>
      obtain rfl := Option.some.inj hstep
      simp only [Watcher.puts?, hc, Option.bind_some]
      split
      · exact ⟨addGrayIdc_puts _ c.zh c.idc, fun zh _ => congrFun (addGrayIdc_openedAs _ c.zh c.idc) zh⟩
      · exact ⟨rfl, fun _ _ => rfl⟩
  | notify zh =>
    simp only [grayStep] at hstep
    cases hl : s.handleIdchost.lookup zh with
    | none =>
      rw [hl] at hstep
      obtain rfl := Option.some.inj hstep
      refine ⟨?_, fun _ _ => rfl⟩
      simp [Watcher.puts?, hl]
    | some idcHost =>
      rw [hl] at hstep
      obtain rfl := Option.some.inj hstep
      simp only [Watcher.puts?, hl]
      exact ⟨addGrayIdc_puts s zh _, fun zh' _ => congrFun (addGrayIdc_openedAs s zh _) zh'⟩
  | connected zh connected =>
    simp only [grayStep] at hstep
    split at hstep
    · exact Option.some.inj hstep ▸ ⟨rfl, fun _ _ => rfl⟩
    · exact Option.some.inj hstep ▸ ⟨rfl, fun _ _ => rfl⟩
  | expired zh init =>
    simp only [grayStep] at hstep
    split at hstep
    · exact Option.some.inj hstep ▸ ⟨rfl, fun _ _ => rfl⟩
    · split at hstep
      · exact Option.some.inj hstep ▸ ⟨rfl, fun _ _ => rfl⟩
      · obtain rfl := Option.some.inj hstep
        exact ⟨rfl, fun zh' hlt => Function.update_of_ne (Nat.ne_of_lt hlt) _ _⟩
  | scanStart =>
    simp only [grayStep] at hstep
    split at hstep
    · exact Option.some.inj hstep ▸ ⟨rfl, fun _ _ => rfl⟩
    · exact absurd hstep (by simp)
  | scanNext ret =>
    simp only [grayStep] at hstep
    cases hscan : s.scan with
    | nil =>
      rw [hscan] at hstep
      exact absurd hstep (by simp)
    | cons cidc rest =>
      rw [hscan] at hstep
      dsimp only at hstep
      cases hl : s.idchostHandle.lookup cidc with
      | none =>
        rw [hl] at hstep
        obtain rfl := Option.some.inj hstep
        refine ⟨?_, fun _ _ => rfl⟩
        simp [Watcher.puts?, hscan, hl]
      | some zh =>
        rw [hl] at hstep
        obtain rfl := Option.some.inj hstep
        simp only [Watcher.puts?, hscan, hl, Option.bind_some]
        split
        · exact ⟨addGrayIdc_puts _ zh cidc, fun zh' _ => congrFun (addGrayIdc_openedAs _ zh cidc) zh'⟩
        · exact ⟨rfl, fun _ _ => rfl⟩
  | gray init =>
    obtain ⟨r, hr, rfl⟩ := Option.map_eq_some_iff.mp hstep
    unfold doGrayProcess at hr
    split at hr
    · exact absurd hr (by simp)
    · obtain rfl := Option.some.inj hr
      exact getZhandleByIdc_puts conf _ _ init

/-- A read-back name is the one of the handle exactly where it is short enough. -/
theorem take_mod_eq_iff (name : Bytes) : name.take (name.length % 256) = name ↔ name.length ≤ 255 := by
  rw [← decodedIdc_eq name [], decodedIdc_eq_iff]

/-- **A step puts only names exactly where it meets the condition.** -/
theorem putsName_iff (h : Inv conf s) (a : Action) :
    (∀ p, s.puts? a = some p → p.2 = s.openedAs p.1) ↔ PutsName s a := by
  unfold PutsName
  cases hput : s.puts? a with
  | none => simp
  | some p =>
    have hgood : (∀ q, some p = some q → q.2 = s.openedAs q.1) ↔ p.2 = s.openedAs p.1 :=
      ⟨fun hq => hq p rfl, fun hp q hq => Option.some.inj hq ▸ hp⟩
    rw [hgood]
    simp only [reduceCtorEq, false_or]
    cases a with
    | watched i ret =>
      simp only [Watcher.puts?] at hput
      split at hput
      · obtain ⟨c, hc, hp⟩ := Option.bind_eq_some_iff.mp hput
        obtain rfl := putOf_some hp
        obtain ⟨-, hidc⟩ := h.inits c (List.mem_of_getElem? hc)
        dsimp only
        rw [hc, hidc]
        cases hdec : c.decoded with
        | true =>
          rw [if_pos rfl, take_mod_eq_iff]
          exact ⟨fun hle c' hc' _ => Option.some.inj hc' ▸ hle, fun hall => hall c rfl hdec⟩
        | false =>
          rw [if_neg (by simp)]
          refine ⟨fun _ c' hc' hdec' => ?_, fun _ => rfl⟩
          rw [← Option.some.inj hc', hdec] at hdec'
          exact absurd hdec' (by simp)
      · exact absurd hput (by simp)
    | notify zh =>
      obtain ⟨idcHost, hl, hp⟩ := Option.bind_eq_some_iff.mp hput
      obtain rfl := putOf_some hp
      obtain ⟨-, host, -, rfl⟩ := h.handle zh idcHost hl
      exact decodedIdc_eq_iff _ host
    | scanNext ret =>
      simp only [Watcher.puts?] at hput
      split at hput
      · split at hput
        · exact absurd hput (by simp)
        · next cidc rest hscan =>
          obtain ⟨zh, hl, hp⟩ := Option.bind_eq_some_iff.mp hput
          obtain rfl := putOf_some hp
          obtain ⟨-, host, -, rfl⟩ := h.idchost cidc zh hl
          exact ⟨fun heq => serializeToIdcHost_ne _ host heq, fun hf => hf.elim⟩
      · exact absurd hput (by simp)
    | _ => exact absurd hput (by simp [Watcher.puts?])

theorem put_lt (h : Inv conf s) {a : Action} {p : Nat × Bytes} (hput : s.puts? a = some p) :
    p.1 < s.opened := by
  cases a with
  | watched i ret =>
    simp only [Watcher.puts?] at hput
    split at hput
    · obtain ⟨c, hc, hp⟩ := Option.bind_eq_some_iff.mp hput
      obtain rfl := putOf_some hp
      exact (h.inits c (List.mem_of_getElem? hc)).1
    · exact absurd hput (by simp)
  | notify zh =>
    obtain ⟨idcHost, hl, hp⟩ := Option.bind_eq_some_iff.mp hput
    obtain rfl := putOf_some hp
    exact (h.handle zh idcHost hl).1
  | scanNext ret =>
    simp only [Watcher.puts?] at hput
    split at hput
    · split at hput
      · exact absurd hput (by simp)
      · obtain ⟨zh, hl, hp⟩ := Option.bind_eq_some_iff.mp hput
        obtain rfl := putOf_some hp
        exact (h.idchost _ zh hl).1
    · exact absurd hput (by simp)
  | _ => exact absurd hput (by simp [Watcher.puts?])

/-- **One step**: the queue still has names only exactly where the step meets the condition. -/
theorem namesOnly_step_iff (h : Inv conf s) (hnames : NamesOnly s) {a : Action}
    (hstep : grayStep conf s a = some s') : NamesOnly s' ↔ PutsName s a := by
  obtain ⟨hputs, hsame⟩ := puts_step hstep
  rw [← putsName_iff h a]
  constructor
  · intro hall p hp
    rw [← hsame p.1 (put_lt h hp)]
    exact hall p (by simp [hputs, hp])
  · intro hnew p hp
    rw [hputs, List.mem_append] at hp
    rcases hp with hp | hp
    · have hp := Option.mem_toList.mp hp
      rw [hsame p.1 (put_lt h hp)]
      exact hnew p hp
    · rw [hsame p.1 (h.put p hp)]
      exact hnames p hp

/-! ### The consumer -/

/-- What `get_zhandle_by_idc` finds for an idc of the configuration is what is registered for
it afterwards. -/
theorem getZhandleByIdc_registered (hne : idc ≠ []) (hconf : conf.lookup idc = some host) (s : Watcher)
    (init : Option Bool) :
    (getZhandleByIdc conf s idc init).1 =
      (getZhandleByIdc conf s idc init).2.idchostHandle.lookup (serializeToIdcHost idc host) ∧
    (init.isSome → (getZhandleByIdc conf s idc init).1.isSome) := by
  unfold getZhandleByIdc
  rw [if_neg hne, hconf]
  dsimp only
  cases hl : s.idchostHandle.lookup (serializeToIdcHost idc host) with
  | some zh => exact ⟨hl.symm, fun _ => rfl⟩
  | none =>
    cases init with
    | none => exact ⟨hl.symm, fun h => absurd h (by simp)⟩
    | some connected =>
      exact ⟨(Finmap.lookup_insert (s.zookeeperInit idc).idchostHandle).symm, fun _ => rfl⟩

/-- The call of `gray_process` for the idc at the front of the queue: the name is that idc, it
is in the configuration, and the handle is the one registered for it and its host, unless
none could be opened. -/
def Resolves (conf : BytesMap) (s : Watcher) : Prop :=
  ∀ init zh? grayIdc s', doGrayProcess conf s init = some ((zh?, grayIdc), s') →
    s.need.head? = some grayIdc ∧ ∃ host, conf.lookup grayIdc = some host ∧
      zh? = s'.idchostHandle.lookup (serializeToIdcHost grayIdc host) ∧ (init.isSome → zh?.isSome)

theorem Inv.resolves (h : Inv conf s) (hnames : NamesOnly s) : Resolves conf s := by
  intro init zh? grayIdc s' hgray
  unfold doGrayProcess at hgray
  split at hgray
  · exact absurd hgray (by simp)
  · next g rest hneed =>
    simp only [Option.some.injEq, Prod.mk.injEq] at hgray
    obtain ⟨⟨rfl, rfl⟩, rfl⟩ := hgray
    obtain ⟨zh, hput⟩ := h.queued g (hneed ▸ List.mem_cons_self ..)
    have hname : g = s.openedAs zh := hnames _ hput
    obtain ⟨hne, hmem⟩ := h.configured zh (h.put _ hput)
    rw [← hname] at hne hmem
    obtain ⟨host, hconf⟩ := Finmap.mem_iff.mp hmem
    rw [hneed]
    exact ⟨rfl, host, hconf, getZhandleByIdc_registered hne hconf _ init⟩

end

/-- **The gray queue and the handles.**  In every run in which `process_tbl` puts nothing into
the queue and every name read back from `_ht_handle_idchost` that goes there has at most 255
bytes, each string in the queue is the name that its handle was opened for, and
`gray_process` is called with this name and the handle registered for it.  From every state of
such a run the next step keeps it so exactly where it meets the condition. -/
theorem gray_queue_has_names_iff (conf : BytesMap) (s : Watcher)
    (hs : Reaches (grayStep conf) PutsName .init s) :
    NamesOnly s ∧ Resolves conf s ∧
      ∀ a s', grayStep conf s a = some s' → (NamesOnly s' ↔ PutsName s a) := by
  obtain ⟨hinv, hnames⟩ : Inv conf s ∧ NamesOnly s := by
    refine hs.invariant (fun s => Inv conf s ∧ NamesOnly s)
      ⟨inv_init conf, fun p hp => absurd hp (by simp [Watcher.init])⟩ ?_
    rintro s s' a ⟨hinv, hnames⟩ ha hstep
    exact ⟨hinv.step hstep, (namesOnly_step_iff hinv hnames hstep).mpr ha⟩
  exact ⟨hnames, hinv.resolves hnames, fun a s' hstep => namesOnly_step_iff hinv hnames hstep⟩

/-- A configuration with the one idc `i` at the host `h`. -/
def oneIdc : BytesMap := Finmap.singleton (ascii "i") (ascii "h")

/-- A test for the condition, for steps with names that were passed along. -/
def passedTest (s : Watcher) (a : Action) : Bool :=
  match a with
  | .handle _ _ => true
  | .watched i _ => (s.inits[i]?).any (fun c => !c.decoded)
  | _ => false

theorem putsName_of_passed {s : Watcher} {a : Action} (h : passedTest s a = true) : PutsName s a := by
  cases a with
  | handle idc init => exact Or.inl rfl
  | watched i ret =>
    refine Or.inr (fun c hc hdec => ?_)
    simp [passedTest, hc, hdec] at h
  | _ => exact absurd h (by simp [passedTest])

theorem gray_queue_after_connect :
    (run (guarded passedTest (grayStep oneIdc)) .init [.handle (ascii "i") (some true), .watched 0 .ok]).map
      (fun s => (s.need, s.puts)) = some ([ascii "i"], [(0, ascii "i")]) ∧
    ∀ s, run (guarded passedTest (grayStep oneIdc)) .init
      [.handle (ascii "i") (some true), .watched 0 .ok] = some s → Resolves oneIdc s := by
  refine ⟨by decide +kernel, fun s hs => ?_⟩
  exact (gray_queue_has_names_iff oneIdc s
    (Reaches.guardedRun _ (fun _ _ => putsName_of_passed) .start hs)).2.1

/-- **`process_tbl` puts the key of `_ht_idchost_handle` into the queue**: the pair of `i` and
`h`, which is no idc of the configuration, so `gray_process` gets no handle. -/
theorem process_tbl_queues_pair :
    ((run (grayStep oneIdc) .init [.handle (ascii "i") (some false), .scanStart, .scanNext .ok]).map
      (fun s => (s.puts, (doGrayProcess oneIdc s (some true)).map Prod.fst))) =
    some ([(0, serializeToIdcHost (ascii "i") (ascii "h"))],
      some (none, serializeToIdcHost (ascii "i") (ascii "h"))) := by
  decide +kernel

end QConf.GrayQueue
