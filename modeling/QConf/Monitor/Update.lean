import QConf.Lib.Transition
import QConf.Monitor.Model
import QConf.Zookeeper.Notify

/-!
# Taking down the last server

A check thread that cannot connect to a server queues an update of its status, and the update
thread executes the queue in order.  `UpdateServiceFunc` does not write `kStatusDown` to a
server that is the only one up, and it judges this by `service_map` and `service_father_to_ip`.
Between the probe and the update a rebalance may have emptied both maps: an item that is not
there reads as a new one, which is down, and the test is passed over.

This file has the monitor with its threads as one machine: the rebalance in its single steps,
the probes, the queue, ZooKeeper's statuses with one-shot watches and the events on their way.
`last_server_taken_down_iff` says in which reachable states the update takes down the last
server that is up.
-/

namespace QConf.Monitor

open Transition

/-! ### The test of `UpdateServiceFunc` -/

/-- `o'` is `o` with new items, all of them down and under the paths of `Q`.  Reading the maps
with `operator[]` does this. -/
structure Touched (Q : Bytes → Prop) (o o' : MonitorOptions) : Prop where
  lookup : ∀ q, o'.serviceMap.lookup q = o.serviceMap.lookup q ∨
    (o.serviceMap.lookup q = none ∧ o'.serviceMap.lookup q = some kStatusDown ∧ Q q)
  ipsOf : ∀ f, o'.ipsOf f = o.ipsOf f

namespace Touched

variable {Q : Bytes → Prop} {o o' o'' : MonitorOptions}

theorem refl : Touched Q o o := ⟨fun _ => Or.inl rfl, fun _ => rfl⟩

theorem trans (h : Touched Q o o') (h' : Touched Q o' o'') : Touched Q o o'' := by
  refine ⟨fun q => ?_, fun f => (h'.ipsOf f).trans (h.ipsOf f)⟩
  rcases h'.lookup q with heq | ⟨hnone, hdown, hq⟩
  · rw [heq]
    exact h.lookup q
  · rcases h.lookup q with heq | ⟨-, hdown', -⟩
    · exact Or.inr ⟨heq.symm.trans hnone, hdown, hq⟩
    · rw [hdown'] at hnone
      cases hnone

theorem lookup_up (h : Touched Q o o') {q : Bytes} (hq : o'.serviceMap.lookup q = some kStatusUp) :
    o.serviceMap.lookup q = some kStatusUp := by
  rcases h.lookup q with heq | ⟨-, hdown, -⟩
  · exact heq.symm.trans hq
  · rw [hdown] at hq
    exact absurd (Option.some.inj hq) (by decide)

end Touched

variable {o : MonitorOptions} {p father : Bytes}

theorem touch_touched {Q : Bytes → Prop} (hp : Q p) : Touched Q o (o.touch p) := by
  refine ⟨fun q => ?_, fun _ => rfl⟩
  rw [o.lookup_touch]
  by_cases hq : q = p
  · rw [if_pos hq, hq]
    cases hl : o.serviceMap.lookup p with
    | none => exact Or.inr ⟨rfl, by rw [MonitorOptions.statusOf, hl]; rfl, hp⟩
    | some v => exact Or.inl (by rw [MonitorOptions.statusOf, hl]; rfl)
  · exact Or.inl (by rw [if_neg hq])

theorem setIps_touched {Q : Bytes → Prop} : Touched Q o (o.setIps father (o.ipsOf father)) := by
  refine ⟨fun _ => Or.inl rfl, fun f => ?_⟩
  rw [o.ipsOf_setIps]
  by_cases h : f = father
  · rw [if_pos h, h]
  · rw [if_neg h]

theorem isOnlyOneUpLoop_touched {Q : Bytes → Prop} {ips : List Bytes} {alive : Nat}
    (hQ : ∀ ip ∈ ips, Q (servicePath father ip)) : Touched Q o (isOnlyOneUpLoop father ips alive o).2 := by
  induction ips generalizing alive o with
  | nil => exact .refl
  | cons ip ips ih =>
    have htouch : Touched Q o (o.touch (servicePath father ip)) := touch_touched (hQ ip (List.mem_cons_self ..))
    rw [isOnlyOneUpLoop]
    generalize (if o.statusOf (servicePath father ip) = kStatusUp then alive + 1 else alive) = alive'
    by_cases halive : alive' > 1
    · rw [if_pos halive]
      exact htouch
    · rw [if_neg halive]
      exact htouch.trans (ih (fun d hd => hQ d (List.mem_cons_of_mem _ hd)))

/-- The loop counts the servers that are up. -/
theorem isOnlyOneUpLoop_eq {ips : List Bytes} {alive : Nat} (halive : alive ≤ 1) :
    (isOnlyOneUpLoop father ips alive o).1 = true ↔
      alive + ips.countP (fun ip => o.statusOf (servicePath father ip) = kStatusUp) ≤ 1 := by
  induction ips generalizing alive o with
  | nil => simpa [isOnlyOneUpLoop] using halive
  | cons ip ips ih =>
    rw [isOnlyOneUpLoop, List.countP_cons]
    have hstable : ∀ q, (o.touch (servicePath father ip)).statusOf q = o.statusOf q :=
      fun q => o.statusOf_touch _ q
    by_cases hup : o.statusOf (servicePath father ip) = kStatusUp
    · have hone : (if decide (o.statusOf (servicePath father ip) = kStatusUp) = true then 1 else 0) = 1 :=
        if_pos (decide_eq_true hup)
      rw [hone, if_pos hup]
      by_cases hmany : alive + 1 > 1
      · rw [if_pos hmany]
        simp only [Bool.false_eq_true, false_iff]
        omega
      · rw [if_neg hmany, ih (Nat.not_lt.mp hmany)]
        simp only [hstable]
        omega
    · have hzero : (if decide (o.statusOf (servicePath father ip) = kStatusUp) = true then 1 else 0) = 0 :=
        if_neg (by simpa using hup)
      rw [hzero, if_neg hup, if_neg (Nat.not_lt.mpr halive), ih halive]
      simp only [hstable]
      omega

/-- The paths that `service_father_to_ip` knows. -/
def MonitorOptions.Lists (o : MonitorOptions) (q : Bytes) : Prop := ∃ f, ∃ ip ∈ o.ipsOf f, servicePath f ip = q

theorem refuses_touched {newStatus : Int} :
    Touched (fun q => q = p ∨ o.Lists q) o (refuses o p newStatus).2 := by
  have htouch : Touched (fun q => q = p ∨ o.Lists q) o (o.touch p) := touch_touched (Or.inl rfl)
  unfold refuses isOnlyOneUp
  split
  · refine htouch.trans (setIps_touched.trans (isOnlyOneUpLoop_touched fun ip hip => Or.inr ⟨_, ip, ?_, rfl⟩))
    exact mem_sortBytes.mp hip
  · exact htouch

/-- The update is given up if the server is up, and no other server of its service is up. -/
theorem refuses_of_only_up (hup : o.statusOf p = kStatusUp) (honly : ∀ ip ∈ o.ipsOf (cutPath p).1,
    o.statusOf (servicePath (cutPath p).1 ip) = kStatusUp → servicePath (cutPath p).1 ip = p) :
    (refuses o p kStatusDown).1 = true := by
  rw [refuses, if_pos ⟨rfl, hup⟩, isOnlyOneUp, isOnlyOneUpLoop_eq (Nat.zero_le 1), Nat.zero_add,
    List.countP_eq_length_filter,
    ← List.toFinset_card_of_nodup ((nodup_sortBytes _).filter _), Finset.card_le_one]
  -- Every server that is counted is `p` itself.
  have hself : ∀ ip ∈ ((sortBytes ((o.touch p).ipsOf (cutPath p).1)).filter (fun ip =>
      ((o.touch p).setIps (cutPath p).1 ((o.touch p).ipsOf (cutPath p).1)).statusOf
        (servicePath (cutPath p).1 ip) = kStatusUp)).toFinset, servicePath (cutPath p).1 ip = p := by
    intro ip hip
    obtain ⟨hmem, hst⟩ := List.mem_filter.mp (List.mem_toFinset.mp hip)
    exact honly ip (mem_sortBytes.mp hmem) ((o.statusOf_touch p _).symm.trans (of_decide_eq_true hst))
  intro a ha b hb
  exact servicePath_inj ((hself a ha).trans (hself b hb).symm)

/-! ### The machine -/

/-- `std::to_string`. -/
def intToString (n : Int) : Bytes :=
  if n < 0 then 45 :: integerToString n.natAbs else integerToString n.natAbs

/-- Where the main loop of the monitor is. -/
inductive Phase
  /-- in `DoBalance`, which has emptied `service_father_to_ip` -/
  | balancing
  /-- `DoBalance` has returned -/
  | balanced
  /-- in `GetAllIp`, with the services that are still to be listed -/
  | gettingIps (fathers : List Bytes)
  /-- in the loop of `LoadAllService`, with the servers that are still to be read -/
  | loading (paths : List Bytes)
  /-- the check threads are running -/
  | checking
  deriving DecidableEq, Repr

structure State where
  opts : MonitorOptions
  /-- the values of the service nodes in ZooKeeper -/
  zk : Finmap (fun _ : Bytes => Bytes)
  /-- the nodes that are watched for a change of their value -/
  watched : Finset Bytes
  /-- the events on their way, oldest first -/
  inflight : List Bytes
  /-- the updates that were scheduled, oldest first -/
  queue : List (Bytes × Int)
  /-- the probes that are running, with the status that was read before -/
  probes : List (Bytes × Int)
  phase : Phase

inductive Act
  /-- `DoBalance` begins; the check threads have been joined -/
  | startBalance
  /-- `DoBalance` returns with these services -/
  | finishBalance (mine : List Bytes)
  /-- `LoadAllService` empties `service_map` -/
  | clearMap
  /-- `GetAllIp` lists the next service -/
  | getIps
  /-- `LoadAllService` reads the next server -/
  | loadService
  /-- `TryConnect` reads the old status of a server -/
  | probeStart (father ip : Bytes)
  /-- `TryConnect` has connected to a server, or not -/
  | probeEnd (i : Nat) (up : Bool)
  /-- `UpdateServiceFunc` executes the oldest update; the write to ZooKeeper may fail -/
  | exec (ok : Bool)
  /-- somebody else writes a service node -/
  | write (p data : Bytes)
  /-- the oldest event is handled -/
  | deliver

namespace State

/-- The names of the servers of a service. -/
def childNames (s : State) (father : Bytes) : List Bytes :=
  (sortBytes s.zk.keys).filterMap (fun q =>
    (splitLast q).bind (fun c => if c.1 = father then some c.2 else none))

/-- What ZooKeeper answers now. -/
def reads (s : State) : Reads :=
  { children := fun father => some (s.childNames father), value := s.zk.lookup }

/-- The status that ZooKeeper has for a server. -/
def zkStatus (s : State) (p : Bytes) : Option Int := (s.zk.lookup p).map (fun data => atoi (cStr data))

/-- A read that leaves a watch behind. -/
def watch (s : State) (p : Bytes) : State :=
  { s with watched := if p ∈ s.zk then insert p s.watched else s.watched }

/-- A write; a watch makes an event of it and is gone. -/
def modify (s : State) (p data : Bytes) : State :=
  { s with
    zk := s.zk.insert p data
    watched := s.watched.erase p
    inflight := if p ∈ s.watched then s.inflight ++ [p] else s.inflight }

/-- The old status that `TryConnect` goes on with. -/
def probeStart (s : State) (father ip : Bytes) : Option State :=
  if s.phase = .checking ∧ father ∈ s.opts.myServiceFathers ∧ ip ∈ s.opts.ipsOf father then
    (oldStatus? s.opts (servicePath father ip)).map (fun old =>
      { s with probes := s.probes ++ [(servicePath father ip, old)] })
  else none

def probeStatus (up : Bool) : Int := if up then kStatusUp else kStatusDown

def probeEnd (s : State) (i : Nat) (up : Bool) : Option State :=
  s.probes[i]?.map (fun e =>
    { s with
      probes := s.probes.eraseIdx i
      queue := if probeStatus up ≠ e.2 then s.queue ++ [(e.1, probeStatus up)] else s.queue })

def exec (s : State) (ok : Bool) : Option State :=
  match s.queue with
  | [] => none
  | (p, newStatus) :: rest =>
    match updateServiceFunc s.opts p newStatus (ok && decide (p ∈ s.zk)) with
    | (true, o) => some (modify { s with opts := o, queue := rest } p (intToString newStatus))
    | (false, o) => some { s with opts := o, queue := rest }

def deliver (s : State) : Option State :=
  match s.inflight with
  | [] => none
  | p :: rest => some (watch { s with opts := processChangedEvent s.reads s.opts p, inflight := rest } p)

def step (s : State) : Act → Option State
  | .startBalance =>
    if s.probes = [] ∧ (s.phase = .checking ∨ s.phase = .balancing) then
      some { s with
        opts := { s.opts with serviceFatherToIp := ∅, myServiceFathers := [] }
        phase := .balancing }
    else none
  | .finishBalance mine =>
    if s.phase = .balancing then some { s with opts := mine.foldl .own s.opts, phase := .balanced } else none
  | .clearMap =>
    if s.phase = .balanced then
      some { s with
        opts := { s.opts with serviceMap := ∅ }
        phase := .gettingIps (sortBytes s.opts.serviceFatherToIp.keys) }
    else none
  | .getIps =>
    match s.phase with
    | .gettingIps [] => some { s with phase := .loading s.opts.paths }
    | .gettingIps (f :: fs) => some { s with opts := Monitor.getIps s.reads s.opts f, phase := .gettingIps fs }
    | _ => none
  | .loadService =>
    match s.phase with
    | .loading [] => some { s with phase := .checking }
    | .loading (p :: ps) =>
      some (watch { s with opts := Monitor.loadService s.reads s.opts p, phase := .loading ps } p)
    | _ => none
  | .probeStart father ip => s.probeStart father ip
  | .probeEnd i up => s.probeEnd i up
  | .exec ok => s.exec ok
  | .write p data => if p ∈ s.zk then some (s.modify p data) else none
  | .deliver => s.deliver

/-- A monitor that was just started. -/
def start (zk : Finmap (fun _ : Bytes => Bytes)) : State :=
  { opts := .empty, zk := zk, watched := ∅, inflight := [], queue := [], probes := [], phase := .balancing }

/-! ### What one step keeps -/

variable {s s' : State} {p q : Bytes} {ok : Bool}

/-- A change of the node will be reported, or has been. -/
def Covered (s : State) (q : Bytes) : Prop := q ∈ s.zk → q ∈ s.watched ∨ q ∈ s.inflight

/-- The server is still to be read by the `LoadAllService` that is going on. -/
def ToLoad (s : State) (q : Bytes) : Prop :=
  match s.phase with
  | .gettingIps _ => s.opts.Lists q
  | .loading paths => q ∈ paths ∧ s.opts.Lists q
  | _ => False

structure Inv (s : State) : Prop where
  events : ∀ q ∈ s.inflight, q ∈ s.zk
  queued : ∀ e ∈ s.queue, (e.2 = kStatusUp ∨ e.2 = kStatusDown) ∧ s.Covered e.1
  probed : ∀ e ∈ s.probes, s.Covered e.1
  /-- an item that is up is up in ZooKeeper, or the monitor is about to hear otherwise -/
  up : ∀ q, s.opts.serviceMap.lookup q = some kStatusUp →
    q ∈ s.zk ∧ s.Covered q ∧ (s.zkStatus q = some kStatusUp ∨ q ∈ s.inflight)
  names : ∀ f, ∀ ip ∈ s.opts.ipsOf f, slash ∉ ip
  unfilled : s.phase = .balancing ∨ s.phase = .balanced → ∀ f, s.opts.ipsOf f = ∅
  loaded : ∀ q, s.opts.Lists q → s.ToLoad q ∨ s.Covered q

theorem mem_zk_of_zkStatus {v : Int} (h : s.zkStatus q = some v) : q ∈ s.zk := by
  obtain ⟨data, hdata, -⟩ := Option.map_eq_some_iff.mp h
  exact Finmap.mem_iff.mpr ⟨data, hdata⟩

theorem covered_watch_self : (s.watch p).Covered p := by
  intro hp
  have hzk : p ∈ s.zk := hp
  refine Or.inl ?_
  rw [watch, if_pos hzk]
  exact Finset.mem_insert_self ..

theorem Covered.watch (h : s.Covered q) : (s.watch p).Covered q := by
  intro hq
  refine (h hq).imp (fun hw => ?_) id
  rw [State.watch]
  dsimp only
  split
  · exact Finset.mem_insert_of_mem hw
  · exact hw

theorem mem_modify_zk {data : Bytes} (hp : p ∈ s.zk) : q ∈ (s.modify p data).zk ↔ q ∈ s.zk := by
  rw [modify, Finmap.mem_insert]
  exact ⟨fun h => h.elim (fun heq => heq ▸ hp) id, Or.inr⟩

theorem mem_inflight_modify {data : Bytes} :
    q ∈ (s.modify p data).inflight ↔ q ∈ s.inflight ∨ q = p ∧ p ∈ s.watched := by
  rw [modify]
  by_cases hw : p ∈ s.watched
  · simp [hw]
  · simp [hw]

theorem inflight_modify {data : Bytes} (h : q ∈ s.inflight) : q ∈ (s.modify p data).inflight :=
  mem_inflight_modify.mpr (Or.inl h)

theorem Covered.modify_self {data : Bytes} (hp : p ∈ s.zk) (h : s.Covered p) : p ∈ (s.modify p data).inflight := by
  rcases h hp with hw | hi
  · exact mem_inflight_modify.mpr (Or.inr ⟨rfl, hw⟩)
  · exact inflight_modify hi

theorem Covered.modify {data : Bytes} (hp : p ∈ s.zk) (h : s.Covered q) : (s.modify p data).Covered q := by
  intro hq
  rw [mem_modify_zk hp] at hq
  by_cases heq : q = p
  · subst heq
    exact Or.inr (h.modify_self hp)
  · refine (h hq).imp (fun hw => ?_) inflight_modify
    exact Finset.mem_erase.mpr ⟨heq, hw⟩

theorem zkStatus_modify {data : Bytes} :
    (s.modify p data).zkStatus q = if q = p then some (atoi (cStr data)) else s.zkStatus q := by
  rw [zkStatus, modify]
  by_cases h : q = p
  · rw [if_pos h, h, Finmap.lookup_insert]
    rfl
  · rw [if_neg h, Finmap.lookup_insert_of_ne _ h]
    rfl

/-- Everything an execution can do. -/
theorem exec_cases (h : s.exec ok = some s') : ∃ p newStatus rest o, s.queue = (p, newStatus) :: rest ∧
    Touched (fun q => q = p ∨ s.opts.Lists q) s.opts o ∧
    ((refuses s.opts p newStatus).1 = false ∧ ok = true ∧ p ∈ s.zk ∧
        s' = modify { s with opts := o.setStatus p newStatus, queue := rest } p (intToString newStatus) ∨
      ((refuses s.opts p newStatus).1 = true ∨ ok = false ∨ p ∉ s.zk) ∧ s' = { s with opts := o, queue := rest }) := by
  unfold exec at h
  match hq : s.queue with
  | [] => rw [hq] at h; cases h
  | (p, newStatus) :: rest =>
    refine ⟨p, newStatus, rest, (refuses s.opts p newStatus).2, rfl, refuses_touched, ?_⟩
    rw [hq] at h
    dsimp only at h
    unfold updateServiceFunc at h
    match hr : refuses s.opts p newStatus with
    | (true, o) =>
      rw [hr] at h
      exact Or.inr ⟨Or.inl rfl, (Option.some.inj h).symm⟩
    | (false, o) =>
      rw [hr] at h
      dsimp only at h
      by_cases hok : (ok && decide (p ∈ s.zk)) = true
      · rw [if_pos hok] at h
        rw [Bool.and_eq_true, decide_eq_true_eq] at hok
        exact Or.inl ⟨rfl, hok.1, hok.2, (Option.some.inj h).symm⟩
      · rw [if_neg hok] at h
        refine Or.inr ⟨Or.inr ?_, (Option.some.inj h).symm⟩
        rw [Bool.and_eq_true, decide_eq_true_eq] at hok
        cases ok with
        | false => exact Or.inl rfl
        | true => exact Or.inr (fun hp => hok ⟨rfl, hp⟩)

theorem deliver_cases (h : s.deliver = some s') : ∃ p rest, s.inflight = p :: rest ∧
    s' = watch { s with opts := processChangedEvent s.reads s.opts p, inflight := rest } p := by
  unfold deliver at h
  match hin : s.inflight with
  | [] => rw [hin] at h; cases h
  | p :: rest =>
    rw [hin] at h
    exact ⟨p, rest, rfl, (Option.some.inj h).symm⟩

theorem getIps_cases (h : s.step .getIps = some s') :
    s.phase = .gettingIps [] ∧ s' = { s with phase := .loading s.opts.paths } ∨
    ∃ f fs, s.phase = .gettingIps (f :: fs) ∧
      s' = { s with opts := Monitor.getIps s.reads s.opts f, phase := .gettingIps fs } := by
  rw [step] at h
  split at h
  · next hphase => exact Or.inl ⟨hphase, (Option.some.inj h).symm⟩
  · next f fs hphase => exact Or.inr ⟨f, fs, hphase, (Option.some.inj h).symm⟩
  · cases h

theorem loadService_cases (h : s.step .loadService = some s') :
    s.phase = .loading [] ∧ s' = { s with phase := .checking } ∨
    ∃ p ps, s.phase = .loading (p :: ps) ∧
      s' = watch { s with opts := Monitor.loadService s.reads s.opts p, phase := .loading ps } p := by
  rw [step] at h
  split at h
  · next hphase => exact Or.inl ⟨hphase, (Option.some.inj h).symm⟩
  · next p ps hphase => exact Or.inr ⟨p, ps, hphase, (Option.some.inj h).symm⟩
  · cases h

theorem probeStart_cases {ip : Bytes} (h : s.probeStart father ip = some s') : s.phase = .checking ∧
    ip ∈ s.opts.ipsOf father ∧ ∃ old, oldStatus? s.opts (servicePath father ip) = some old ∧
      s' = { s with probes := s.probes ++ [(servicePath father ip, old)] } := by
  unfold probeStart at h
  split at h
  · next hif =>
    obtain ⟨old, hold, heq⟩ := Option.map_eq_some_iff.mp h
    exact ⟨hif.1, hif.2.2, old, hold, heq.symm⟩
  · cases h

theorem atoi_intToString {n : Int} (h : n = kStatusUp ∨ n = kStatusDown) : atoi (cStr (intToString n)) = n := by
  rcases h with rfl | rfl
  · decide +kernel
  · decide +kernel

/-- What all steps outside of the rebalance have in common. -/
structure Keeps (s s' : State) : Prop where
  phase : s'.phase = s.phase
  ipsOf : ∀ f, s'.opts.ipsOf f = s.opts.ipsOf f
  covered : ∀ q, s.Covered q → s'.Covered q

theorem lists_congr {o o' : MonitorOptions} (h : ∀ f, o'.ipsOf f = o.ipsOf f) : o'.Lists q ↔ o.Lists q := by
  simp only [MonitorOptions.Lists, h]

theorem toLoad_congr (hphase : s'.phase = s.phase) (hips : ∀ f, s'.opts.ipsOf f = s.opts.ipsOf f) :
    s'.ToLoad q ↔ s.ToLoad q := by
  unfold ToLoad
  rw [hphase]
  cases s.phase with
  | gettingIps fs => exact lists_congr hips
  | loading ps => exact and_congr_right fun _ => lists_congr hips
  | balancing => exact Iff.rfl
  | balanced => exact Iff.rfl
  | checking => exact Iff.rfl

theorem Inv.keeps (h : Inv s) (k : Keeps s s') (events : ∀ q ∈ s'.inflight, q ∈ s'.zk)
    (queued : ∀ e ∈ s'.queue, (e.2 = kStatusUp ∨ e.2 = kStatusDown) ∧ s'.Covered e.1)
    (probed : ∀ e ∈ s'.probes, s'.Covered e.1)
    (up : ∀ q, s'.opts.serviceMap.lookup q = some kStatusUp →
      q ∈ s'.zk ∧ s'.Covered q ∧ (s'.zkStatus q = some kStatusUp ∨ q ∈ s'.inflight)) : Inv s' where
  events := events
  queued := queued
  probed := probed
  up := up
  names f := by
    rw [k.ipsOf f]
    exact h.names f
  unfilled hphase f := by
    rw [k.ipsOf f]
    exact h.unfilled (k.phase ▸ hphase) f
  loaded q hq := (h.loaded q ((lists_congr k.ipsOf).mp hq)).imp (toLoad_congr k.phase k.ipsOf).mpr (k.covered q)

theorem Inv.write (data : Bytes) (h : Inv s) (hp : p ∈ s.zk) : Inv (s.modify p data) := by
  refine h.keeps ⟨rfl, fun _ => rfl, fun _ hc => hc.modify hp⟩ (fun q hq => ?_) (fun e he => ?_)
    (fun e he => ?_) (fun q hq => ?_)
  · rw [mem_modify_zk hp]
    rcases mem_inflight_modify.mp hq with hq | ⟨rfl, -⟩
    · exact h.events q hq
    · exact hp
  · exact ⟨(h.queued e he).1, (h.queued e he).2.modify hp⟩
  · exact (h.probed e he).modify hp
  · obtain ⟨hzk, hcov, hst⟩ := h.up q hq
    refine ⟨(mem_modify_zk hp).mpr hzk, hcov.modify hp, ?_⟩
    by_cases heq : q = p
    · subst heq
      exact Or.inr (hcov.modify_self hp)
    · rw [zkStatus_modify, if_neg heq]
      exact hst.imp id inflight_modify

/-- The update thread without the write. -/
theorem Inv.touched {Q : Bytes → Prop} {o : MonitorOptions} {e : Bytes × Int} {rest : List (Bytes × Int)}
    (h : Inv s) (hqueue : s.queue = e :: rest) (ht : Touched Q s.opts o) :
    Inv { s with opts := o, queue := rest } := by
  refine h.keeps ⟨rfl, ht.ipsOf, fun _ hc => hc⟩ h.events (fun d hd => ?_) h.probed (fun q hq => ?_)
  · exact h.queued d (hqueue ▸ List.mem_cons_of_mem _ hd)
  · exact h.up q (ht.lookup_up hq)

theorem Inv.exec (h : Inv s) (hstep : s.exec ok = some s') : Inv s' := by
  obtain ⟨p, newStatus, rest, o, hqueue, ht, ⟨-, -, hp, rfl⟩ | ⟨-, rfl⟩⟩ := exec_cases hstep
  · have hmid := h.touched hqueue ht
    obtain ⟨hnew, hcov⟩ := h.queued (p, newStatus) (hqueue ▸ List.mem_cons_self ..)
    have hlast := hmid.write (intToString newStatus) hp
    -- The item and the node get the same status.
    refine hlast.keeps ⟨rfl, fun _ => rfl, fun _ hc => hc⟩ hlast.events hlast.queued hlast.probed (fun q hq => ?_)
    change (o.setStatus p newStatus).serviceMap.lookup q = _ at hq
    rw [o.lookup_setStatus] at hq
    by_cases heq : q = p
    · subst heq
      rw [if_pos rfl] at hq
      refine ⟨(mem_modify_zk hp).mpr hp,
        Covered.modify (s := { s with opts := o.setStatus q newStatus, queue := rest }) hp hcov, Or.inl ?_⟩
      rw [zkStatus_modify, if_pos rfl, atoi_intToString hnew, hq]
    · rw [if_neg heq] at hq
      exact hlast.up q hq
  · exact h.touched hqueue ht

theorem changed_ipsOf (s : State) (o : MonitorOptions) (p f : Bytes) :
    (processChangedEvent s.reads o p).ipsOf f = o.ipsOf f := by
  unfold processChangedEvent
  split <;> rfl

theorem changed_lookup (s : State) (o : MonitorOptions) (p q : Bytes) :
    (processChangedEvent s.reads o p).serviceMap.lookup q =
      if q = p ∧ p ∈ s.zk then s.zkStatus p else o.serviceMap.lookup q := by
  unfold processChangedEvent
  cases hdata : s.zk.lookup p with
  | none =>
    rw [show s.reads.value p = none from hdata, if_neg (fun h => Finmap.lookup_eq_none.mp hdata h.2)]
  | some data =>
    have hp : p ∈ s.zk := Finmap.mem_iff.mpr ⟨data, hdata⟩
    rw [show s.reads.value p = some data from hdata, zkStatus, hdata]
    dsimp only
    rw [o.lookup_setStatus]
    by_cases hq : q = p
    · rw [if_pos hq, if_pos ⟨hq, hp⟩]
      rfl
    · rw [if_neg hq, if_neg (fun h => hq h.1)]

theorem Inv.deliver (h : Inv s) (hstep : s.deliver = some s') : Inv s' := by
  obtain ⟨p, rest, hin, rfl⟩ := deliver_cases hstep
  have hcov : ∀ {o : MonitorOptions} {q : Bytes}, s.Covered q →
      (watch { s with opts := o, inflight := rest } p).Covered q := by
    intro o q hq
    by_cases heq : q = p
    · subst heq
      exact covered_watch_self
    · refine Covered.watch (fun hzk => (hq hzk).imp id (fun hmem => ?_))
      rw [hin] at hmem
      exact (List.mem_cons.mp hmem).resolve_left heq
  have hevents : ∀ q ∈ rest, q ∈ s.zk := fun q hq => h.events q (hin ▸ List.mem_cons_of_mem _ hq)
  refine h.keeps ⟨rfl, changed_ipsOf s s.opts p, fun _ => hcov⟩ hevents (fun e he => ?_) (fun e he => ?_) (fun q hq => ?_)
  · exact ⟨(h.queued e he).1, hcov (h.queued e he).2⟩
  · exact hcov (h.probed e he)
  · change (processChangedEvent s.reads s.opts p).serviceMap.lookup q = _ at hq
    change q ∈ s.zk ∧ _ ∧ (s.zkStatus q = _ ∨ q ∈ rest)
    rw [changed_lookup] at hq
    by_cases heq : q = p ∧ p ∈ s.zk
    · rw [if_pos heq] at hq
      obtain ⟨rfl, hp⟩ := heq
      exact ⟨hp, covered_watch_self, Or.inl hq⟩
    · rw [if_neg heq] at hq
      obtain ⟨hzk, hcovq, hst⟩ := h.up q hq
      refine ⟨hzk, hcov hcovq, hst.imp id (fun hmem => ?_)⟩
      rw [hin] at hmem
      exact (List.mem_cons.mp hmem).resolve_left (fun hqp => heq ⟨hqp, hqp ▸ hzk⟩)

theorem Inv.probeStart {ip : Bytes} (h : Inv s) (hstep : s.probeStart father ip = some s') : Inv s' := by
  obtain ⟨hphase, hip, old, -, rfl⟩ := probeStart_cases hstep
  refine h.keeps ⟨rfl, fun _ => rfl, fun _ hc => hc⟩ h.events h.queued (fun e he => ?_) h.up
  rcases List.mem_append.mp he with he | he
  · exact h.probed e he
  · obtain rfl := List.mem_singleton.mp he
    -- All servers have been read when the check threads run.
    refine (h.loaded (servicePath father ip) ⟨father, ip, hip, rfl⟩).resolve_left (fun hload => ?_)
    rw [ToLoad, hphase] at hload
    exact hload

theorem probeStatus_cases (up : Bool) : probeStatus up = kStatusUp ∨ probeStatus up = kStatusDown := by
  cases up
  · exact Or.inr rfl
  · exact Or.inl rfl

theorem Inv.probeEnd {i : Nat} {up : Bool} (h : Inv s) (hstep : s.probeEnd i up = some s') : Inv s' := by
  obtain ⟨e, he, rfl⟩ := Option.map_eq_some_iff.mp hstep
  refine h.keeps ⟨rfl, fun _ => rfl, fun _ hc => hc⟩ h.events (fun d hd => ?_) (fun d hd => ?_) h.up
  · dsimp only at hd
    split at hd
    · rcases List.mem_append.mp hd with hd | hd
      · exact h.queued d hd
      · obtain rfl := List.mem_singleton.mp hd
        exact ⟨probeStatus_cases up, h.probed e (List.mem_of_getElem? he)⟩
    · exact h.queued d hd
  · exact h.probed d (List.mem_of_mem_eraseIdx hd)

/-! ### The rebalance -/

theorem not_lists_of_unfilled {o : MonitorOptions} (h : ∀ f, o.ipsOf f = ∅) : ¬ o.Lists q := by
  rintro ⟨f, ip, hip, -⟩
  rw [h f] at hip
  exact Finset.notMem_empty _ hip

/-- A step of the rebalance before the services are listed. -/
theorem Inv.unfill {o : MonitorOptions} {phase : Phase} (h : Inv s) (hips : ∀ f, o.ipsOf f = ∅)
    (hup : ∀ q, o.serviceMap.lookup q = some kStatusUp → s.opts.serviceMap.lookup q = some kStatusUp) :
    Inv { s with opts := o, phase := phase } where
  events := h.events
  queued := h.queued
  probed := h.probed
  up q hq := h.up q (hup q hq)
  names f ip hip := by
    rw [hips f] at hip
    exact absurd hip (Finset.notMem_empty _)
  unfilled _ := hips
  loaded q hq := absurd hq (not_lists_of_unfilled hips)

theorem foldl_own (mine : List Bytes) {o : MonitorOptions} (h : ∀ f, o.ipsOf f = ∅) :
    (∀ f, (mine.foldl .own o).ipsOf f = ∅) ∧ (mine.foldl .own o).serviceMap = o.serviceMap := by
  induction mine generalizing o with
  | nil => exact ⟨h, rfl⟩
  | cons g mine ih =>
    have hown : ∀ f, (o.own g).ipsOf f = ∅ := by
      intro f
      refine (o.ipsOf_setIps g f ∅).trans ?_
      split
      · rfl
      · exact h f
    exact ih hown

theorem not_mem_childNames {ip : Bytes} (h : ip ∈ s.childNames father) : slash ∉ ip := by
  obtain ⟨q, -, hq⟩ := List.mem_filterMap.mp h
  obtain ⟨c, hc, hif⟩ := Option.bind_eq_some_iff.mp hq
  split at hif
  · rw [← Option.some.inj hif]
    exact (splitLast_some hc).2
  · cases hif

/-- Listing a service adds names without a slash. -/
theorem getIps_eq (s : State) (o : MonitorOptions) (father : Bytes) : ∃ new : Finset Bytes,
    (∀ ip ∈ new, slash ∉ ip) ∧ Monitor.getIps s.reads o father = o.setIps father (o.ipsOf father ∪ new) := by
  have hempty : ∀ ip ∈ ({[]} : Finset Bytes), slash ∉ ip := by
    intro ip hip
    rw [Finset.mem_singleton.mp hip]
    exact List.not_mem_nil
  unfold Monitor.getIps Reads.zkGetChdnodes
  by_cases hfather : father = []
  · refine ⟨{[]}, hempty, ?_⟩
    rw [if_pos hfather, Finset.union_comm, ← Finset.insert_eq]
  · rw [if_neg hfather]
    change ∃ new, _ ∧ addChildren o father (s.childNames father) = _
    unfold addChildren
    by_cases hnil : s.childNames father = []
    · refine ⟨{[]}, hempty, ?_⟩
      rw [if_pos hnil, hnil, List.toFinset_nil]
      dsimp only
      rw [Finset.union_empty, Finset.union_comm, ← Finset.insert_eq]
    · refine ⟨(s.childNames father).toFinset, fun ip hip => not_mem_childNames (List.mem_toFinset.mp hip), ?_⟩
      rw [if_neg hnil]

theorem mem_paths {o : MonitorOptions} : q ∈ o.paths ↔ o.Lists q := by
  unfold MonitorOptions.paths MonitorOptions.Lists
  simp only [List.mem_flatMap, List.mem_map, mem_sortBytes, Finmap.mem_keys]
  constructor
  · rintro ⟨f, -, ip, hip, heq⟩
    exact ⟨f, ip, hip, heq⟩
  · rintro ⟨f, ip, hip, heq⟩
    refine ⟨f, ?_, ip, hip, heq⟩
    by_contra hf
    rw [MonitorOptions.ipsOf, Finmap.lookup_eq_none.mpr hf] at hip
    exact Finset.notMem_empty _ hip

theorem Inv.getIps (h : Inv s) (hstep : s.step .getIps = some s') : Inv s' := by
  obtain ⟨-, rfl⟩ | ⟨f, fs, -, rfl⟩ := getIps_cases hstep
  · exact ⟨h.events, h.queued, h.probed, h.up, h.names, by simp, fun q hq => Or.inl ⟨mem_paths.mpr hq, hq⟩⟩
  · obtain ⟨new, hnew, heq⟩ := getIps_eq s s.opts f
    rw [heq]
    refine ⟨h.events, h.queued, h.probed, h.up, fun g ip hip => ?_, by simp, fun q hq => Or.inl hq⟩
    dsimp only at hip
    rw [s.opts.ipsOf_setIps] at hip
    split at hip
    · rcases Finset.mem_union.mp hip with hip | hip
      · exact h.names f ip hip
      · exact hnew ip hip
    · exact h.names g ip hip

/-- A status that can be read is the one ZooKeeper has, and one of three. -/
theorem zkStatus_of_read {status : Int} (h : s.reads.zkGetServiceStatus p = some status) :
    s.zkStatus p = some status ∧ (status = kStatusUp ∨ status = kStatusDown ∨ status = kStatusOffline) := by
  unfold Reads.zkGetServiceStatus at h
  by_cases hp : p = []
  · rw [if_pos hp] at h
    cases h
  · rw [if_neg hp] at h
    obtain ⟨data, hdata, hif⟩ := Option.bind_eq_some_iff.mp h
    dsimp only at hif
    split at hif
    · next hvalue =>
      obtain rfl := Option.some.inj hif
      refine ⟨?_, hvalue⟩
      rw [zkStatus, show s.zk.lookup p = some data from hdata]
      rfl
    · cases hif

theorem loadService_some {o : MonitorOptions} {status : Int} (h : s.reads.zkGetServiceStatus p = some status) :
    Monitor.loadService s.reads o p = o.setStatus p status := by
  rw [Monitor.loadService, h]
  dsimp only
  rw [if_neg]
  rcases (zkStatus_of_read h).2 with hv | hv | hv <;> (rw [hv]; decide)

/-- `LoadService` stores the status that ZooKeeper has, or nothing. -/
theorem loadService_eq (s : State) (o : MonitorOptions) (p : Bytes) :
    Monitor.loadService s.reads o p = o ∨
    ∃ status, s.zkStatus p = some status ∧ Monitor.loadService s.reads o p = o.setStatus p status := by
  cases hread : s.reads.zkGetServiceStatus p with
  | none => exact Or.inl (by rw [Monitor.loadService, hread])
  | some status => exact Or.inr ⟨status, (zkStatus_of_read hread).1, loadService_some hread⟩

theorem loadService_ipsOf (s : State) (o : MonitorOptions) (p f : Bytes) :
    (Monitor.loadService s.reads o p).ipsOf f = o.ipsOf f := by
  rcases loadService_eq s o p with heq | ⟨status, -, heq⟩
  · rw [heq]
  · rw [heq, MonitorOptions.ipsOf_setStatus]

theorem Inv.loadService (h : Inv s) (hstep : s.step .loadService = some s') : Inv s' := by
  obtain ⟨hphase, rfl⟩ | ⟨p, ps, hphase, rfl⟩ := loadService_cases hstep
  · refine ⟨h.events, h.queued, h.probed, h.up, h.names, by simp, fun q hq => ?_⟩
    refine (h.loaded q hq).imp (fun hload => ?_) id
    rw [ToLoad, hphase] at hload
    exact absurd hload.1 List.not_mem_nil
  · have hips := loadService_ipsOf s s.opts p
    refine ⟨h.events, fun e he => ⟨(h.queued e he).1, (h.queued e he).2.watch⟩, fun e he => (h.probed e he).watch,
      fun q hq => ?_, fun f => ?_, by simp [watch], fun q hq => ?_⟩
    · change (Monitor.loadService s.reads s.opts p).serviceMap.lookup q = _ at hq
      have hold : s.opts.serviceMap.lookup q = some kStatusUp → q ∈ s.zk ∧
          (watch { s with opts := Monitor.loadService s.reads s.opts p, phase := .loading ps } p).Covered q ∧
          (s.zkStatus q = some kStatusUp ∨ q ∈ s.inflight) := by
        intro hup
        obtain ⟨hzk, hcov, hst⟩ := h.up q hup
        exact ⟨hzk, Covered.watch (s := { s with opts := _, phase := _ }) hcov, hst⟩
      rcases loadService_eq s s.opts p with heq | ⟨status, hstatus, heq⟩
      · rw [heq] at hq
        exact hold hq
      · rw [heq, s.opts.lookup_setStatus] at hq
        by_cases hqp : q = p
        · subst hqp
          rw [if_pos rfl] at hq
          exact ⟨mem_zk_of_zkStatus hstatus, covered_watch_self, Or.inl (hstatus.trans hq)⟩
        · rw [if_neg hqp] at hq
          exact hold hq
    · intro ip hip
      exact h.names f ip (hips f ▸ hip)
    · rcases h.loaded q ((lists_congr hips).mp hq) with hload | hcov
      · rw [ToLoad, hphase] at hload
        rcases List.mem_cons.mp hload.1 with rfl | hload
        · exact Or.inr covered_watch_self
        · exact Or.inl ⟨hload, hq⟩
      · exact Or.inr (Covered.watch (s := { s with opts := _, phase := _ }) hcov)

/-- **One step keeps the invariant.** -/
theorem Inv.step {a : Act} (h : Inv s) (hstep : s.step a = some s') : Inv s' := by
  cases a with
  | startBalance =>
    rw [State.step] at hstep
    split at hstep
    · obtain rfl := Option.some.inj hstep
      exact h.unfill (fun _ => rfl) (fun _ hq => hq)
    · cases hstep
  | finishBalance mine =>
    rw [State.step] at hstep
    split at hstep
    · next hphase =>
      obtain rfl := Option.some.inj hstep
      obtain ⟨hips, hmap⟩ := foldl_own mine (h.unfilled (Or.inl hphase))
      exact h.unfill hips (fun q hq => hmap ▸ hq)
    · cases hstep
  | clearMap =>
    rw [State.step] at hstep
    split at hstep
    · next hphase =>
      obtain rfl := Option.some.inj hstep
      exact h.unfill (h.unfilled (Or.inr hphase)) (fun q hq => absurd hq (by simp))
    · cases hstep
  | getIps => exact h.getIps hstep
  | loadService => exact h.loadService hstep
  | probeStart f ip => exact h.probeStart hstep
  | probeEnd i up => exact h.probeEnd hstep
  | exec ok => exact h.exec hstep
  | write p data =>
    rw [State.step] at hstep
    split at hstep
    · next hp =>
      obtain rfl := Option.some.inj hstep
      exact h.write data hp
    · cases hstep
  | deliver => exact h.deliver hstep

theorem inv_start (zk : Finmap (fun _ : Bytes => Bytes)) : Inv (start zk) where
  events q hq := absurd hq List.not_mem_nil
  queued e he := absurd he List.not_mem_nil
  probed e he := absurd he List.not_mem_nil
  up q hq := absurd hq (by simp [start, MonitorOptions.empty])
  names f ip hip := absurd hip (Finset.notMem_empty _)
  unfilled _ _ := rfl
  loaded q hq := absurd hq (not_lists_of_unfilled fun _ => rfl)

theorem inv_of_reaches {C : State → Act → Prop} {zk : Finmap (fun _ : Bytes => Bytes)}
    (h : Reaches step C (start zk) s) : Inv s :=
  h.invariant Inv (inv_start zk) (fun hs _ hstep => hs.step hstep)

/-! ### The last server -/

/-- In ZooKeeper the server is up, and no other server of its service is. -/
def LastUp (s : State) (x : Bytes) : Prop :=
  s.zkStatus x = some kStatusUp ∧
  ∀ ip, slash ∉ ip → s.zkStatus (servicePath (cutPath x).1 ip) = some kStatusUp →
    servicePath (cutPath x).1 ip = x

theorem statusOf_up {o : MonitorOptions} (h : o.statusOf q = kStatusUp) :
    o.serviceMap.lookup q = some kStatusUp := by
  unfold MonitorOptions.statusOf at h
  cases hl : o.serviceMap.lookup q with
  | none =>
    rw [hl] at h
    exact absurd h (by decide)
  | some v =>
    rw [hl] at h
    exact congrArg some h

/-- With no event on its way, what is up in `service_map` is up in ZooKeeper: the last server
that is up is not taken down if `service_map` has it as up. -/
theorem Inv.refuses_last {x : Bytes} (h : Inv s) (hquiet : s.inflight = []) (hlast : LastUp s x)
    (hup : s.opts.serviceMap.lookup x = some kStatusUp) : (refuses s.opts x kStatusDown).1 = true := by
  refine refuses_of_only_up (by rw [MonitorOptions.statusOf, hup]; rfl) (fun ip hip hst => ?_)
  obtain ⟨-, -, hzk | hin⟩ := h.up _ (statusOf_up hst)
  · exact hlast.2 ip (h.names _ ip hip) hzk
  · rw [hquiet] at hin
    exact absurd hin List.not_mem_nil

end State

open State in
/-- **When the last server that is up is taken down.**  In every reachable state with no event
on its way, executing the oldest update writes `kStatusDown` to the only server of its service
that is up in ZooKeeper if and only if the update says so, the write succeeds, and
`service_map` does not have the server as up. -/
theorem last_server_taken_down_iff (zk : Finmap (fun _ : Bytes => Bytes)) (s s' : State) (ok : Bool) (x : Bytes)
    (hs : Reaches State.step (fun _ _ => True) (start zk) s) (hquiet : s.inflight = [])
    (hstep : s.step (.exec ok) = some s') (hlast : LastUp s x) :
    s'.zkStatus x = some kStatusDown ↔
      ok = true ∧ (∃ rest, s.queue = (x, kStatusDown) :: rest) ∧
        s.opts.serviceMap.lookup x ≠ some kStatusUp := by
  have hinv := inv_of_reaches hs
  have hdiff : s.zkStatus x ≠ some kStatusDown := by
    rw [hlast.1]
    decide
  obtain ⟨p, newStatus, rest, o, hqueue, -, ⟨href, hok, -, rfl⟩ | ⟨hcause, rfl⟩⟩ := exec_cases hstep
  · obtain ⟨hnew, -⟩ := hinv.queued (p, newStatus) (hqueue ▸ List.mem_cons_self ..)
    rw [zkStatus_modify]
    by_cases hx : x = p
    · subst hx
      rw [if_pos rfl, atoi_intToString hnew, Option.some.injEq]
      constructor
      · intro hdown
        dsimp only at hdown
        subst hdown
        refine ⟨hok, ⟨rest, hqueue⟩, fun hup => ?_⟩
        rw [hinv.refuses_last hquiet hlast hup] at href
        cases href
      · rintro ⟨-, ⟨rest', hrest'⟩, -⟩
        rw [hqueue] at hrest'
        exact (Prod.mk.inj (List.cons.inj hrest').1).2
    · rw [if_neg hx]
      refine ⟨fun h => absurd h hdiff, ?_⟩
      rintro ⟨-, ⟨rest', hrest'⟩, -⟩
      rw [hqueue] at hrest'
      exact absurd (Prod.mk.inj (List.cons.inj hrest').1).1.symm hx
  · refine ⟨fun h => absurd h hdiff, ?_⟩
    rintro ⟨hok, ⟨rest', hrest'⟩, hup⟩
    rw [hqueue] at hrest'
    obtain ⟨rfl, rfl⟩ := Prod.mk.inj (List.cons.inj hrest').1
    -- An item that is not up is not protected, and the node is there.
    rcases hcause with href | hno | hno
    · rw [refuses, if_neg (fun hif => hup (statusOf_up hif.2))] at href
      cases href
    · rw [hok] at hno
      cases hno
    · exact absurd (mem_zk_of_zkStatus hlast.1) hno

/-- A service with one server, which is up. -/
def oneServer : Finmap (fun _ : Bytes => Bytes) := Finmap.singleton (ascii "/s/a") (ascii "0")

/-- The rebalance gives the monitor the service, and one probe of the server fails. -/
def probeFails : List Act :=
  [.finishBalance [ascii "/s"], .clearMap, .getIps, .getIps, .loadService, .loadService,
    .probeStart (ascii "/s") (ascii "a"), .probeEnd 0 false]

theorem lastUp_of_keys {s : State} {x : Bytes} (hkeys : s.zk.keys = {x}) (hup : s.zkStatus x = some kStatusUp) :
    s.LastUp x := by
  refine ⟨hup, fun ip _ hip => ?_⟩
  have hmem := Finmap.mem_keys.mpr (State.mem_zk_of_zkStatus hip)
  rw [hkeys] at hmem
  exact Finset.mem_singleton.mp hmem

/-- How the runs below end: the failed probe is queued, no event is on its way, the server is up, and
executing the update leaves the given status. -/
def Ends (s : State) (status : Int) : Prop :=
  s.queue = [(ascii "/s/a", kStatusDown)] ∧ s.inflight = [] ∧ s.zk.keys = {ascii "/s/a"} ∧
  s.zkStatus (ascii "/s/a") = some kStatusUp ∧
  (s.step (.exec true)).map (fun s' => s'.zkStatus (ascii "/s/a")) = some (some status)

instance (s : State) (status : Int) : Decidable (Ends s status) := inferInstanceAs (Decidable (_ ∧ _))

/-- The update is executed while the item is there, and the server stays up. -/
theorem only_server_stays_up : ∃ s s' : State, Reaches State.step (fun _ _ => True) (State.start oneServer) s ∧
    s.queue = [(ascii "/s/a", kStatusDown)] ∧ s.LastUp (ascii "/s/a") ∧
    s.step (.exec true) = some s' ∧ s'.zkStatus (ascii "/s/a") ≠ some kStatusDown := by
  have hrun : (run State.step (State.start oneServer) probeFails).any (fun s =>
      Ends s kStatusUp ∧ s.opts.serviceMap.lookup (ascii "/s/a") = some kStatusUp) = true := by
    decide +kernel
  obtain ⟨s, hs, hend⟩ := (Option.any_eq_true ..).mp hrun
  obtain ⟨⟨hqueue, hquiet, hkeys, hup, hexec⟩, hitem⟩ := of_decide_eq_true hend
  obtain ⟨s', hstep, -⟩ := Option.map_eq_some_iff.mp hexec
  refine ⟨s, s', reaches_of_run hs, hqueue, lastUp_of_keys hkeys hup, hstep, fun hdown => ?_⟩
  have := (last_server_taken_down_iff oneServer s s' true (ascii "/s/a") (reaches_of_run hs) hquiet hstep
    (lastUp_of_keys hkeys hup)).mp hdown
  exact this.2.2 hitem

/-- The update waits in the queue while a rebalance empties the maps; then it is executed, and
the only server that is up is taken down. -/
theorem only_server_taken_down : ∃ s s' : State, Reaches State.step (fun _ _ => True) (State.start oneServer) s ∧
    s.inflight = [] ∧ s.LastUp (ascii "/s/a") ∧ s.step (.exec true) = some s' ∧
    s'.zkStatus (ascii "/s/a") = some kStatusDown := by
  have hrun : (run State.step (State.start oneServer)
      (probeFails ++ [.startBalance, .finishBalance [ascii "/s"], .clearMap])).any
      (fun s => Ends s kStatusDown) = true := by
    decide +kernel
  obtain ⟨s, hs, hend⟩ := (Option.any_eq_true ..).mp hrun
  obtain ⟨-, hquiet, hkeys, hup, hexec⟩ := of_decide_eq_true hend
  obtain ⟨s', hstep, hdown⟩ := Option.map_eq_some_iff.mp hexec
  exact ⟨s, s', reaches_of_run hs, hquiet, lastUp_of_keys hkeys hup, hstep, hdown⟩

end QConf.Monitor
