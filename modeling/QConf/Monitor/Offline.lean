import QConf.Monitor.Update

/-!
# The operator's OFFLINE

An operator takes a server out by writing `kStatusOffline` to its node, and the check threads
skip a server that `service_map` has as offline.  They read that status before they connect,
and the update they queue is executed later without another look at it.  An update that is
queued, or a probe that is running, when the listener records the status therefore still
overwrites the operator's value.

`offline_kept_while_idle` shows that these are the only two ways: if no update of the server is
queued and no probe of it is running whenever the listener records that it is offline, no later
execution changes its node until the operator does, across any number of rebalances.  And each
time the condition fails, a run can follow that overwrites the node.
-/

namespace QConf.Monitor

open Transition State

/-! ### What the listener has recorded -/

/-- The item that a step of the listener sets, with its status. -/
def records (s : State) : Act → Option (Bytes × Int)
  | .deliver => s.inflight.head?.bind (fun p => (s.zkStatus p).map (fun status => (p, status)))
  | .loadService =>
    match s.phase with
    | .loading (p :: _) => (s.reads.zkGetServiceStatus p).map (fun status => (p, status))
    | _ => none
  | _ => none

/-- The machine, with the servers that have been recorded as offline and that the operator has
not given another status since. -/
structure Tracked where
  s : State
  held : Finset Bytes

namespace Tracked

def heldAfter (w : Tracked) : Act → Finset Bytes
  | .write p data => if atoi (cStr data) = kStatusOffline then w.held else w.held.erase p
  | a =>
    match records w.s a with
    | some (p, status) => if status = kStatusOffline then insert p w.held else w.held
    | none => w.held

def step (w : Tracked) (a : Act) : Option Tracked := (w.s.step a).map (fun s' => ⟨s', w.heldAfter a⟩)

def start (zk : Finmap (fun _ : Bytes => Bytes)) : Tracked := ⟨State.start zk, ∅⟩

end Tracked

/-- An update of the server is queued, or a probe of it is running. -/
def Busy (s : State) (x : Bytes) : Prop := (∃ e ∈ s.queue, e.1 = x) ∨ ∃ e ∈ s.probes, e.1 = x

instance (s : State) (x : Bytes) : Decidable (Busy s x) := inferInstanceAs (Decidable (_ ∨ _))

/-- A server that the step records as offline has neither. -/
def Idle (w : Tracked) (a : Act) : Prop := ∀ x, records w.s a = some (x, kStatusOffline) → ¬ Busy w.s x

instance (w : Tracked) (a : Act) : Decidable (Idle w a) :=
  decidable_of_iff (∀ r ∈ records w.s a, r.2 = kStatusOffline → ¬ Busy w.s r.1)
    ⟨fun h _ hx => h _ hx rfl, fun h r hr hoff => h r.1 (hoff ▸ hr)⟩

/-! ### A server that is held stays offline -/

/-- The server is offline in ZooKeeper, no update of it is under way, and no check thread can
take it for anything else: its item is offline, or gone, or about to be read again. -/
structure Held (s : State) (x : Bytes) : Prop where
  offline : s.zkStatus x = some kStatusOffline
  idle : ¬ Busy s x
  item : s.opts.serviceMap.lookup x = some kStatusOffline ∨ s.opts.serviceMap.lookup x = none ∨ s.ToLoad x
  listed : s.opts.serviceMap.lookup x = none → s.opts.Lists x → s.ToLoad x

section

variable {s s' : State} {x : Bytes} {a : Act}

theorem ne_of_oldStatus {o : MonitorOptions} {p : Bytes} {old : Int} (h : oldStatus? o p = some old)
    (hx : o.serviceMap.lookup x = some kStatusOffline ∨ o.serviceMap.lookup x = none) : p ≠ x := by
  rintro rfl
  unfold oldStatus? at h
  rcases hx with hx | hx
  · rw [hx, Option.bind_some, if_pos (Or.inr rfl)] at h
    cases h
  · rw [hx] at h
    cases h

theorem Held.not_toLoad (h : Held s x) (hload : ¬ s.ToLoad x) :
    s.opts.serviceMap.lookup x = some kStatusOffline ∨ s.opts.serviceMap.lookup x = none :=
  h.item.imp id (fun hx => hx.resolve_right hload)

/-- A step of the rebalance before the services are listed. -/
theorem Held.unfill {o : MonitorOptions} {phase : Phase} (h : Held s x) (hips : ∀ f, o.ipsOf f = ∅)
    (hmap : o.serviceMap.lookup x = some kStatusOffline ∨ o.serviceMap.lookup x = none) :
    Held { s with opts := o, phase := phase } x :=
  ⟨h.offline, h.idle, hmap.imp id Or.inl, fun _ hl => absurd hl (not_lists_of_unfilled hips)⟩

theorem Held.getIps (h : Held s x) (hstep : s.step .getIps = some s') : Held s' x := by
  obtain ⟨hphase, rfl⟩ | ⟨f, fs, hphase, rfl⟩ := getIps_cases hstep
  · have hload : s.ToLoad x ↔ s.opts.Lists x := by rw [ToLoad, hphase]
    have hload' : s.opts.Lists x → ToLoad { s with phase := .loading s.opts.paths } x :=
      fun hl => ⟨mem_paths.mpr hl, hl⟩
    exact ⟨h.offline, h.idle, h.item.imp id (Or.imp id (fun hl => hload' (hload.mp hl))), fun _ hl => hload' hl⟩
  · have hload : s.ToLoad x ↔ s.opts.Lists x := by rw [ToLoad, hphase]
    obtain ⟨new, -, heq⟩ := getIps_eq s s.opts f
    rw [heq]
    have hgrow : s.opts.Lists x → (s.opts.setIps f (s.opts.ipsOf f ∪ new)).Lists x := by
      rintro ⟨g, ip, hip, hx⟩
      refine ⟨g, ip, ?_, hx⟩
      rw [s.opts.ipsOf_setIps]
      split
      · next hg => exact Finset.mem_union_left _ (hg ▸ hip)
      · exact hip
    exact ⟨h.offline, h.idle, h.item.imp id (Or.imp id (fun hl => hgrow (hload.mp hl))), fun _ hl => hl⟩

theorem servicePath_ne_nil {f ip : Bytes} : servicePath f ip ≠ [] := by simp [servicePath]

/-- A server that is offline in ZooKeeper is read as such. -/
theorem zkGetServiceStatus_offline (hx : x ≠ []) (h : s.zkStatus x = some kStatusOffline) :
    s.reads.zkGetServiceStatus x = some kStatusOffline := by
  obtain ⟨data, hdata, hst⟩ := Option.map_eq_some_iff.mp h
  rw [Reads.zkGetServiceStatus, if_neg hx, show s.reads.value x = some data from hdata, Option.bind_some]
  dsimp only
  rw [hst]
  rfl

theorem Held.loadService (h : Held s x) (hstep : s.step .loadService = some s') : Held s' x := by
  obtain ⟨hphase, rfl⟩ | ⟨p, ps, hphase, rfl⟩ := loadService_cases hstep
  · have hload : ¬ s.ToLoad x := by
      rw [ToLoad, hphase]
      exact fun hl => List.not_mem_nil hl.1
    exact ⟨h.offline, h.idle, (h.not_toLoad hload).imp id Or.inl, fun hnone hl => absurd (h.listed hnone hl) hload⟩
  · have hlists : (Monitor.loadService s.reads s.opts p).Lists x ↔ s.opts.Lists x :=
      lists_congr (loadService_ipsOf s s.opts p)
    by_cases hxp : x = p ∧ x ≠ []
    · -- The server itself is read, and it is offline.
      obtain ⟨rfl, hx⟩ := hxp
      have hitem : (Monitor.loadService s.reads s.opts x).serviceMap.lookup x = some kStatusOffline := by
        rw [loadService_some (zkGetServiceStatus_offline hx h.offline), s.opts.lookup_setStatus, if_pos rfl]
      refine ⟨h.offline, h.idle, Or.inl hitem, fun hnone => ?_⟩
      exact absurd (hitem.symm.trans hnone) (by simp)
    · have hsame : (Monitor.loadService s.reads s.opts p).serviceMap.lookup x = s.opts.serviceMap.lookup x := by
        cases hread : s.reads.zkGetServiceStatus p with
        | none => rw [Monitor.loadService, hread]
        | some status =>
          rw [loadService_some hread, s.opts.lookup_setStatus, if_neg]
          rintro rfl
          refine hxp ⟨rfl, ?_⟩
          rintro rfl
          cases hread
      have hload : s.ToLoad x → ToLoad
          (watch { s with opts := Monitor.loadService s.reads s.opts p, phase := .loading ps } p) x := by
        intro hl
        rw [ToLoad, hphase] at hl
        refine ⟨?_, hlists.mpr hl.2⟩
        rcases List.mem_cons.mp hl.1 with rfl | hmem
        · obtain ⟨f, ip, -, heq⟩ := hl.2
          exact absurd ⟨rfl, heq ▸ servicePath_ne_nil⟩ hxp
        · exact hmem
      refine ⟨h.offline, h.idle, ?_, fun hnone hl => ?_⟩
      · exact (h.item.imp hsame.trans (Or.imp hsame.trans hload))
      · exact hload (h.listed (hsame.symm.trans hnone) (hlists.mp hl))

theorem Held.probeStart {father ip : Bytes} (h : Held s x) (hstep : s.probeStart father ip = some s') :
    Held s' x := by
  obtain ⟨hphase, -, old, hold, rfl⟩ := probeStart_cases hstep
  have hload : ¬ s.ToLoad x := by
    rw [ToLoad, hphase]
    exact id
  refine ⟨h.offline, ?_, h.item, h.listed⟩
  rintro (hq | ⟨e, he, hex⟩)
  · exact h.idle (Or.inl hq)
  · rcases List.mem_append.mp he with he | he
    · exact h.idle (Or.inr ⟨e, he, hex⟩)
    · obtain rfl := List.mem_singleton.mp he
      exact ne_of_oldStatus hold (h.not_toLoad hload) hex

theorem Held.probeEnd {i : Nat} {up : Bool} (h : Held s x) (hstep : s.probeEnd i up = some s') : Held s' x := by
  obtain ⟨e, he, rfl⟩ := Option.map_eq_some_iff.mp hstep
  refine ⟨h.offline, ?_, h.item, h.listed⟩
  rintro (⟨d, hd, hdx⟩ | ⟨d, hd, hdx⟩)
  · dsimp only at hd
    split at hd
    · rcases List.mem_append.mp hd with hd | hd
      · exact h.idle (Or.inl ⟨d, hd, hdx⟩)
      · obtain rfl := List.mem_singleton.mp hd
        exact h.idle (Or.inr ⟨e, List.mem_of_getElem? he, hdx⟩)
    · exact h.idle (Or.inl ⟨d, hd, hdx⟩)
  · exact h.idle (Or.inr ⟨d, List.mem_of_mem_eraseIdx hd, hdx⟩)

/-- A step outside of the rebalance: the item stays, or becomes offline, or is made new while it
is still to be read. -/
theorem Held.keeps (h : Held s x) (hphase : s'.phase = s.phase) (hips : ∀ f, s'.opts.ipsOf f = s.opts.ipsOf f)
    (hoff : s'.zkStatus x = some kStatusOffline) (hidle : ¬ Busy s' x)
    (hitem : s'.opts.serviceMap.lookup x = s.opts.serviceMap.lookup x ∨
      s'.opts.serviceMap.lookup x = some kStatusOffline ∨
      (s.opts.serviceMap.lookup x = none ∧ s'.opts.serviceMap.lookup x = some kStatusDown ∧ s.opts.Lists x)) :
    Held s' x := by
  have hload : s'.ToLoad x ↔ s.ToLoad x := toLoad_congr hphase hips
  rcases hitem with hsame | hnew | ⟨hnone, hdown, hl⟩
  · refine ⟨hoff, hidle, ?_, fun hnone hl => ?_⟩
    · rw [hsame, hload]
      exact h.item
    · exact hload.mpr (h.listed (hsame.symm.trans hnone) ((lists_congr hips).mp hl))
  · exact ⟨hoff, hidle, Or.inl hnew, fun hnone _ => absurd (hnew.symm.trans hnone) (by simp)⟩
  · refine ⟨hoff, hidle, Or.inr (Or.inr (hload.mpr (h.listed hnone hl))), fun hnone' _ => ?_⟩
    exact absurd (hdown.symm.trans hnone') (by simp)

/-- An execution is about another server. -/
theorem Held.exec {ok : Bool} (h : Held s x) (hstep : s.exec ok = some s') :
    Held s' x ∧ s'.zk.lookup x = s.zk.lookup x := by
  obtain ⟨p, newStatus, rest, o, hqueue, ht, hcase⟩ := exec_cases hstep
  have hpx : x ≠ p := by
    rintro rfl
    exact h.idle (Or.inl ⟨_, hqueue ▸ List.mem_cons_self .., rfl⟩)
  have hidle : ∀ t : State, t.queue = rest → t.probes = s.probes → ¬ Busy t x := by
    rintro t hrest hprobes (⟨e, he, hex⟩ | ⟨e, he, hex⟩)
    · exact h.idle (Or.inl ⟨e, hqueue ▸ List.mem_cons_of_mem _ (hrest ▸ he), hex⟩)
    · exact h.idle (Or.inr ⟨e, hprobes ▸ he, hex⟩)
  have hitem : o.serviceMap.lookup x = s.opts.serviceMap.lookup x ∨
      o.serviceMap.lookup x = some kStatusOffline ∨ (s.opts.serviceMap.lookup x = none ∧
        o.serviceMap.lookup x = some kStatusDown ∧ s.opts.Lists x) := by
    refine (ht.lookup x).imp id (fun ⟨hnone, hdown, hq⟩ => Or.inr ⟨hnone, hdown, ?_⟩)
    exact hq.resolve_left hpx
  rcases hcase with ⟨-, -, -, rfl⟩ | ⟨-, rfl⟩
  · have hsame : (o.setStatus p newStatus).serviceMap.lookup x = o.serviceMap.lookup x := by
      rw [o.lookup_setStatus, if_neg hpx]
    refine ⟨h.keeps rfl ht.ipsOf ?_ (hidle _ rfl rfl) ?_, Finmap.lookup_insert_of_ne _ hpx⟩
    · rw [zkStatus_modify, if_neg hpx]
      exact h.offline
    · change (o.setStatus p newStatus).serviceMap.lookup x = _ ∨
        (o.setStatus p newStatus).serviceMap.lookup x = _ ∨ _ ∧ (o.setStatus p newStatus).serviceMap.lookup x = _ ∧ _
      rw [hsame]
      exact hitem
  · exact ⟨h.keeps rfl ht.ipsOf h.offline (hidle _ rfl rfl) hitem, rfl⟩

theorem Held.deliver (h : Held s x) (hstep : s.deliver = some s') : Held s' x := by
  obtain ⟨p, rest, hin, rfl⟩ := deliver_cases hstep
  refine h.keeps rfl (changed_ipsOf s s.opts p) h.offline h.idle ?_
  change (processChangedEvent s.reads s.opts p).serviceMap.lookup x = _ ∨
    (processChangedEvent s.reads s.opts p).serviceMap.lookup x = _ ∨ _ ∧ _
  rw [changed_lookup]
  by_cases hxp : x = p ∧ p ∈ s.zk
  · rw [if_pos hxp, ← hxp.1]
    exact Or.inr (Or.inl h.offline)
  · rw [if_neg hxp]
    exact Or.inl rfl

theorem Held.write {p data : Bytes} (h : Held s x) (hx : x = p → atoi (cStr data) = kStatusOffline) :
    Held (s.modify p data) x := by
  refine h.keeps rfl (fun _ => rfl) ?_ h.idle (Or.inl rfl)
  rw [zkStatus_modify]
  split
  · next hxp => rw [hx hxp]
  · exact h.offline

/-- **One step keeps a server held**, unless the operator gives it another status. -/
theorem Held.step (hinv : Inv s) (h : Held s x) (hstep : s.step a = some s')
    (hop : ∀ data, a = .write x data → atoi (cStr data) = kStatusOffline) : Held s' x := by
  cases a with
  | startBalance =>
    rw [State.step] at hstep
    split at hstep
    · next hif =>
      obtain rfl := Option.some.inj hstep
      refine h.unfill (fun _ => rfl) (h.not_toLoad ?_)
      rcases hif.2 with hphase | hphase <;> (rw [ToLoad, hphase]; exact id)
    · cases hstep
  | finishBalance mine =>
    rw [State.step] at hstep
    split at hstep
    · next hphase =>
      obtain rfl := Option.some.inj hstep
      obtain ⟨hips, hmap⟩ := foldl_own mine (hinv.unfilled (Or.inl hphase))
      refine h.unfill hips ?_
      rw [hmap]
      refine h.not_toLoad ?_
      rw [ToLoad, hphase]
      exact id
    · cases hstep
  | clearMap =>
    rw [State.step] at hstep
    split at hstep
    · next hphase =>
      obtain rfl := Option.some.inj hstep
      exact h.unfill (hinv.unfilled (Or.inr hphase)) (Or.inr (Finmap.lookup_empty x))
    · cases hstep
  | getIps => exact h.getIps hstep
  | loadService => exact h.loadService hstep
  | probeStart f ip => exact h.probeStart hstep
  | probeEnd i up => exact h.probeEnd hstep
  | exec ok => exact (h.exec hstep).1
  | write p data =>
    rw [State.step] at hstep
    split at hstep
    · obtain rfl := Option.some.inj hstep
      exact h.write (fun hx => hop data (by rw [hx]))
    · cases hstep
  | deliver => exact h.deliver hstep

end

namespace Tracked

variable {w w' : Tracked} {x : Bytes} {a : Act}

theorem inv_of_reaches {C : Tracked → Act → Prop} {zk : Finmap (fun _ : Bytes => Bytes)}
    (h : Reaches step C (start zk) w) : Inv w.s := by
  refine h.invariant (fun w => Inv w.s) (inv_start zk) ?_
  intro w w' a hw _ hstep
  obtain ⟨s', hs', rfl⟩ := Option.map_eq_some_iff.mp hstep
  exact hw.step hs'

/-- A later execution changes the node of the server while it is held. -/
def Overwrites (w : Tracked) (x : Bytes) : Prop := ∃ acts w' s', run step w acts = some w' ∧ x ∈ w'.held ∧
  w'.s.step (.exec true) = some s' ∧ s'.zk.lookup x ≠ w'.s.zk.lookup x

theorem Overwrites.cons (hstep : w.step a = some w') (h : Overwrites w' x) : Overwrites w x := by
  obtain ⟨acts, w'', s', hrun, hrest⟩ := h
  exact ⟨a :: acts, w'', s', by rw [run, hstep]; exact hrun, hrest⟩

end Tracked

end QConf.Monitor
