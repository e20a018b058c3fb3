import QConf.Lib.Transition
import QConf.Monitor.Model

/-!
# The check threads of the monitor

After a balance `WorkThread::Start` starts one check thread for each service of the monitor, or
`kMaxThreadNum` of them if there are more services.  In the second case the threads take turns:
a thread that is done with a service marks it as free and takes the one at `waiting_index`.

Three containers are indexed by the numbers of services.  `has_thread` has as many entries as there
are threads, but the threads take turns over all services, and `waiting_index` starts behind its
last entry.  So the first turn of the first thread already leaves `has_thread`: the indices stay
inside exactly as long as no thread works with more than `kMaxThreadNum` services
(`check_threads_in_range_exact`).
-/

namespace QConf.CheckThreads

open Transition Monitor

/-! ### The threads -/

def kMaxThreadNum : Nat := 64

/-- Where a thread stands in `CronHandle`. -/
inductive Phase
  /-- between two calls -/
  | waiting
  /-- `SetHasThread(service_pos_, false)` comes next -/
  | releasing
  /-- `GetAndAddWaitingIndex()` comes next -/
  | taking
  /-- `SetHasThread(service_pos_, true)` comes next -/
  | marking
  deriving DecidableEq, Repr

structure CheckThread where
  servicePos : Nat
  phase : Phase
  deriving DecidableEq, Repr

/-- What must not happen. -/
inductive Fault
  /-- an index outside of `has_thread` -/
  | hasThread (index : Nat)
  /-- an index outside of `my_service_fathers` -/
  | myServiceFathers (index : Nat)
  /-- a search that comes back to where it started -/
  | endless
  deriving DecidableEq, Repr

structure Work where
  opts : MonitorOptions
  hasThread : List Bool
  waitingIndex : Nat
  threads : List CheckThread
  /-- set when something goes wrong, and nothing is known after that -/
  fault : Option Fault

def Work.init : Work := ⟨.empty, [], kMaxThreadNum, [], none⟩

/-- `vector::resize(n, true)`. -/
def resize (l : List Bool) (n : Nat) : List Bool := l.take n ++ List.replicate (n - l.length) true

/-- The loop of `GetAndAddWaitingIndex`.  The lock is held, so that nothing changes from one turn to
the next. -/
def search (hasThread : List Bool) (serviceFatherNum : Nat) : Nat → Nat → Except Fault Nat
  | 0, _ => .error .endless
  | turns + 1, waitingIndex =>
    match hasThread[waitingIndex]? with
    | none => .error (.hasThread waitingIndex)
    | some false => .ok waitingIndex
    | some true => search hasThread serviceFatherNum turns ((waitingIndex + 1) % serviceFatherNum)

namespace Work

/-- `service_father_to_ip.size()`. -/
def serviceFatherNum (w : Work) : Nat := w.opts.serviceFatherToIp.keys.card

/-- `GetAndAddWaitingIndex`. -/
def getAndAddWaitingIndex (w : Work) : Except Fault (Nat × Work) :=
  match search w.hasThread w.serviceFatherNum w.serviceFatherNum ((w.waitingIndex + 1) % w.serviceFatherNum) with
  | .error fault => .error fault
  | .ok waitingIndex => .ok (w.waitingIndex, { w with waitingIndex := waitingIndex })

/-- `SetHasThread`. -/
def setHasThread (w : Work) (index : Nat) (val : Bool) : Except Fault Work :=
  if index < w.hasThread.length then .ok { w with hasThread := w.hasThread.set index val }
  else .error (.hasThread index)

def setThread (w : Work) (i : Nat) (t : CheckThread) : Work := { w with threads := w.threads.set i t }

def fail (w : Work) (fault : Fault) : Work := { w with fault := some fault }

/-- A round of `WorkThread::Start`: `DoBalance` assigns the services, and the threads start. -/
def start (w : Work) (fathers : List Bytes) : Work :=
  let opts := fathers.foldl MonitorOptions.own { w.opts with serviceFatherToIp := ∅, myServiceFathers := [] }
  let threadNum := min opts.serviceFatherToIp.keys.card kMaxThreadNum
  { w with
    opts := opts
    hasThread := resize w.hasThread threadNum
    threads := (List.range threadNum).map (fun i => ⟨i, .waiting⟩) }

/-- The next step of `CronHandle` in the thread `i`. -/
def cronHandle (w : Work) (i : Nat) (t : CheckThread) : Work :=
  match t.phase with
  | .waiting =>
    match w.opts.myServiceFathers[t.servicePos]? with
    | none => w.fail (.myServiceFathers t.servicePos)
    | some _ =>
      if kMaxThreadNum < w.opts.myServiceFathers.length then w.setThread i ⟨t.servicePos, .releasing⟩ else w
  | .releasing =>
    match w.setHasThread t.servicePos false with
    | .error fault => w.fail fault
    | .ok w => w.setThread i ⟨t.servicePos, .taking⟩
  | .taking =>
    match w.getAndAddWaitingIndex with
    | .error fault => w.fail fault
    | .ok (index, w) => w.setThread i ⟨index, .marking⟩
  | .marking =>
    match w.setHasThread t.servicePos true with
    | .error fault => w.fail fault
    | .ok w => w.setThread i ⟨t.servicePos, .waiting⟩

end Work

inductive Action
  /-- a balance round, which waits for the threads of the last one -/
  | round (fathers : List Bytes)
  /-- the thread `i` takes its next step -/
  | cron (i : Nat)

def step (w : Work) : Action → Option Work
  | .round fathers =>
    if w.fault = none ∧ ∀ t ∈ w.threads, t.phase = .waiting then some (w.start fathers) else none
  | .cron i =>
    if w.fault = none then (w.threads[i]?).map (w.cronHandle i) else none

/-- Threads work with at most `kMaxThreadNum` services. -/
def Few (w : Work) : Action → Prop
  | .round _ => True
  | .cron _ => w.opts.myServiceFathers.length ≤ kMaxThreadNum

instance (w : Work) : ∀ a, Decidable (Few w a)
  | .round _ => .isTrue trivial
  | .cron _ => inferInstanceAs (Decidable (_ ≤ _))

/-! ### A round -/

section

variable {w w' : Work} {i : Nat} {t : CheckThread}

theorem length_resize (l : List Bool) (n : Nat) : (resize l n).length = n := by
  rw [resize, List.length_append, List.length_take, List.length_replicate]
  omega

theorem foldl_own (fathers : List Bytes) : ∀ o : MonitorOptions,
    (fathers.foldl MonitorOptions.own o).myServiceFathers = o.myServiceFathers ++ fathers ∧
    (fathers.foldl MonitorOptions.own o).serviceFatherToIp.keys = o.serviceFatherToIp.keys ∪ fathers.toFinset := by
  induction fathers with
  | nil => simp
  | cons f fathers ih =>
    intro o
    obtain ⟨hfathers, hkeys⟩ := ih (o.own f)
    rw [List.foldl_cons, hfathers, hkeys]
    refine ⟨by simp [MonitorOptions.own], ?_⟩
    ext g
    rw [Finset.mem_union, Finmap.mem_keys, MonitorOptions.own, MonitorOptions.setIps, Finmap.mem_insert,
      List.toFinset_cons, Finset.mem_union, Finset.mem_insert, Finmap.mem_keys, or_assoc, or_left_comm]

/-! ### The invariant -/

/-- **What holds while the threads work with few services**: no thread is in a turn, and each is at its
own service. -/
structure Inv (w : Work) : Prop where
  fault : w.fault = none
  waitingIndex : w.waitingIndex = kMaxThreadNum
  hasThread : w.hasThread.length = min w.serviceFatherNum kMaxThreadNum
  fathers : w.serviceFatherNum ≤ w.opts.myServiceFathers.length
  threads : ∀ i t, w.threads[i]? = some t → t = ⟨i, .waiting⟩ ∧ i < w.hasThread.length

theorem inv_init : Inv Work.init := by
  refine ⟨rfl, rfl, rfl, Nat.le_refl _, fun i t ht => ?_⟩
  rw [show Work.init.threads = [] from rfl, List.getElem?_nil] at ht
  cases ht

theorem Inv.start (h : Inv w) (fathers : List Bytes) : Inv (w.start fathers) := by
  obtain ⟨hfathers, hkeys⟩ := foldl_own fathers { w.opts with serviceFatherToIp := ∅, myServiceFathers := [] }
  have hlen : (w.start fathers).hasThread.length = min (w.start fathers).serviceFatherNum kMaxThreadNum :=
    length_resize _ _
  refine ⟨h.fault, h.waitingIndex, hlen, ?_, fun i t ht => ?_⟩
  · rw [Work.serviceFatherNum, Work.start]
    dsimp only
    rw [hfathers, hkeys, List.nil_append]
    simpa using List.toFinset_card_le fathers
  · rw [Work.start] at ht
    dsimp only at ht
    rw [List.getElem?_map, Option.map_eq_some_iff] at ht
    obtain ⟨j, hj, rfl⟩ := ht
    obtain ⟨hlt, rfl⟩ := List.getElem?_eq_some_iff.mp hj
    rw [List.length_range] at hlt
    rw [List.getElem_range, hlen]
    exact ⟨rfl, hlt⟩

/-- A thread in its own place is at one of the services. -/
theorem Inv.servicePos_lt (h : Inv w) (ht : w.threads[i]? = some t) : i < w.opts.myServiceFathers.length := by
  have hlt := (h.threads i t ht).2
  have hnum := h.hasThread
  have hfathers := h.fathers
  omega

theorem Inv.step {a : Action} (h : Inv w) (hfew : Few w a) (hstep : step w a = some w') : Inv w' := by
  cases a with
  | round fathers =>
    rw [CheckThreads.step] at hstep
    split at hstep
    · obtain rfl := Option.some.inj hstep
      exact h.start fathers
    · cases hstep
  | cron i =>
    rw [CheckThreads.step, if_pos h.fault] at hstep
    obtain ⟨t, ht, rfl⟩ := Option.map_eq_some_iff.mp hstep
    obtain ⟨rfl, -⟩ := h.threads i t ht
    have hpos := h.servicePos_lt ht
    rw [Work.cronHandle]
    dsimp only
    rw [List.getElem?_eq_getElem hpos]
    dsimp only
    rw [if_neg (Nat.not_lt.mpr hfew)]
    exact h

/-! ### A turn -/

/-- The search finds a free entry that lies ahead, if all before it are entries. -/
theorem search_ok {l : List Bool} {num : Nat} : ∀ (d turns n : Nat), d < turns → n < num →
    (∀ e ≤ d, (n + e) % num < l.length) → l[(n + d) % num]? = some false → ∃ n', search l num turns n = .ok n' := by
  intro d
  induction d with
  | zero =>
    intro turns n hturns hn _ hfree
    obtain ⟨k, rfl⟩ : ∃ k, turns = k + 1 := ⟨turns - 1, by omega⟩
    rw [Nat.add_zero, Nat.mod_eq_of_lt hn] at hfree
    exact ⟨n, by rw [search, hfree]⟩
  | succ d ih =>
    intro turns n hturns hn hrange hfree
    obtain ⟨k, rfl⟩ : ∃ k, turns = k + 1 := ⟨turns - 1, by omega⟩
    have hnl : n < l.length := by
      have := hrange 0 (Nat.zero_le _)
      rwa [Nat.add_zero, Nat.mod_eq_of_lt hn] at this
    rw [search, List.getElem?_eq_getElem hnl]
    cases hbool : l[n] with
    | false => exact ⟨n, rfl⟩
    | true =>
      have hshift : ∀ e, ((n + 1) % num + e) % num = (n + (e + 1)) % num := fun e => by
        rw [Nat.mod_add_mod]
        congr 1
        omega
      refine ih k ((n + 1) % num) (by omega) (Nat.mod_lt _ (by omega)) (fun e he => ?_) ?_
      · rw [hshift]
        exact hrange (e + 1) (by omega)
      · rw [hshift]
        exact hfree

/-- A step of a thread. -/
theorem reaches_cron (hfault : w.fault = none) (ht : w.threads[i]? = some t) :
    Reaches step (fun _ b => b = .cron i) w (w.cronHandle i t) := by
  refine .tail .start (a := .cron i) rfl ?_
  rw [step, if_pos hfault, ht]
  rfl

/-- The search of the first turn: either it leaves `has_thread`, or it ends. -/
theorem search_first {l : List Bool} {num : Nat} (hlen : l.length = min num kMaxThreadNum) (hi : l[i]? = some false) :
    search l num num ((kMaxThreadNum + 1) % num) = .error (.hasThread (kMaxThreadNum + 1)) ∧ l.length ≤ kMaxThreadNum + 1 ∨
    ∃ n, search l num num ((kMaxThreadNum + 1) % num) = .ok n := by
  obtain ⟨hil, -⟩ := List.getElem?_eq_some_iff.mp hi
  have hnum : 0 < num := by omega
  have hk : kMaxThreadNum = 64 := rfl
  by_cases hbig : kMaxThreadNum + 1 < num
  · -- the next index is behind the last entry
    left
    obtain ⟨k, rfl⟩ : ∃ k, num = k + 1 := ⟨num - 1, by omega⟩
    have hnone : l[kMaxThreadNum + 1]? = none := List.getElem?_eq_none (by omega)
    rw [Nat.mod_eq_of_lt hbig, search, hnone]
    exact ⟨rfl, by omega⟩
  right
  by_cases hone : num = kMaxThreadNum + 1
  · -- the search starts at the first entry
    subst hone
    rw [Nat.mod_self]
    refine search_ok i _ 0 (by omega) (by omega) (fun e he => ?_) ?_
    · rw [Nat.zero_add, Nat.mod_eq_of_lt (by omega)]
      omega
    · rw [Nat.zero_add, Nat.mod_eq_of_lt (by omega), hi]
  · -- every service has an entry
    have hall : ∀ n, n % num < l.length := fun n => by
      have := Nat.mod_lt n hnum
      omega
    have hlt := Nat.mod_lt (kMaxThreadNum + 1) hnum
    generalize (kMaxThreadNum + 1) % num = n at hlt
    have hd : (n + (i + num - n) % num) % num = i := by
      rw [Nat.add_mod_mod, show n + (i + num - n) = i + num by omega, Nat.add_mod_right, Nat.mod_eq_of_lt (by omega)]
    exact search_ok ((i + num - n) % num) num n (Nat.mod_lt _ hnum) hlt (fun e _ => hall _) (by rw [hd, hi])

/-- **The first turn of a thread leaves `has_thread`.** -/
theorem Inv.turn_faults (h : Inv w) (ht : w.threads[i]? = some t) (hmany : kMaxThreadNum < w.opts.myServiceFathers.length) :
    ∃ w' index, Reaches CheckThreads.step (fun _ b => b = .cron i) (w.cronHandle i t) w' ∧ w'.fault = some (.hasThread index) ∧
      w'.hasThread.length ≤ index := by
  obtain ⟨rfl, hi⟩ := h.threads i t ht
  have hthread : i < w.threads.length := (List.getElem?_eq_some_iff.mp ht).1
  have hset : ∀ t : CheckThread, (w.threads.set i t)[i]? = some t := fun t => List.getElem?_set_self hthread
  -- the thread marks its service as free
  have hfirst : w.cronHandle i ⟨i, .waiting⟩ = w.setThread i ⟨i, .releasing⟩ := by
    rw [Work.cronHandle]
    dsimp only
    rw [List.getElem?_eq_getElem (h.servicePos_lt ht)]
    exact if_pos hmany
  have hrelease : (w.setThread i ⟨i, .releasing⟩).cronHandle i ⟨i, .releasing⟩ =
      { w with hasThread := w.hasThread.set i false, threads := w.threads.set i ⟨i, .taking⟩ } := by
    rw [Work.cronHandle]
    dsimp only [Work.setThread]
    rw [Work.setHasThread, if_pos hi]
    dsimp only
    rw [List.set_set]
  have hreleased := reaches_cron (w := w.setThread i ⟨i, .releasing⟩) h.fault (hset _)
  rw [hrelease] at hreleased
  rw [hfirst]
  have hlen : (w.hasThread.set i false).length = min w.serviceFatherNum kMaxThreadNum := by
    rw [List.length_set, h.hasThread]
  have hnext := reaches_cron
    (w := { w with hasThread := w.hasThread.set i false, threads := w.threads.set i ⟨i, .taking⟩ }) h.fault (hset _)
  have htake : Work.getAndAddWaitingIndex
      { w with hasThread := w.hasThread.set i false, threads := w.threads.set i ⟨i, .taking⟩ } =
      match search (w.hasThread.set i false) w.serviceFatherNum w.serviceFatherNum
        ((kMaxThreadNum + 1) % w.serviceFatherNum) with
      | .error fault => .error fault
      | .ok n => .ok (kMaxThreadNum,
          ⟨w.opts, w.hasThread.set i false, n, w.threads.set i ⟨i, .taking⟩, w.fault⟩) := by
    rw [Work.getAndAddWaitingIndex]
    dsimp only
    rw [h.waitingIndex]
    rfl
  rw [Work.cronHandle] at hnext
  dsimp only at hnext
  rw [htake] at hnext
  rcases search_first hlen (List.getElem?_set_self hi) with ⟨hsearch, hout⟩ | ⟨n, hsearch⟩
  · rw [hsearch] at hnext
    exact ⟨_, kMaxThreadNum + 1, hreleased.trans hnext, rfl, hout⟩
  · -- the thread takes a service behind the entries, and marks it
    rw [hsearch] at hnext
    dsimp only [Work.setThread] at hnext
    rw [List.set_set] at hnext
    have hmark := reaches_cron (t := ⟨kMaxThreadNum, .marking⟩)
      (w := ⟨w.opts, w.hasThread.set i false, n, w.threads.set i ⟨kMaxThreadNum, .marking⟩, w.fault⟩) h.fault (hset _)
    have hout : ¬ kMaxThreadNum < (w.hasThread.set i false).length := by
      rw [hlen]
      omega
    rw [Work.cronHandle] at hmark
    dsimp only at hmark
    rw [Work.setHasThread, if_neg hout] at hmark
    exact ⟨_, kMaxThreadNum, (hreleased.trans hnext).trans hmark, rfl, Nat.not_lt.mp hout⟩

end

/-- **The indices of the check threads are in range exactly as long as they work with few services.**  In
every run, over any rounds and with the threads in any order, in which a thread takes a step only
while the monitor has at most `kMaxThreadNum` services, no index is out of range and no search is
endless; and from every state of such a run, a step with more services can be followed by steps of
its thread that use an index behind the end of `has_thread`. -/
theorem check_threads_in_range_exact (w : Work) (h : Reaches step Few .init w) :
    w.fault = none ∧
    ∀ a w', step w a = some w' → ¬ Few w a → ∃ w'' index, Reaches step (fun _ b => b = a) w' w'' ∧
      w''.fault = some (.hasThread index) ∧ w''.hasThread.length ≤ index := by
  have hinv : Inv w := h.invariant Inv inv_init (fun hi hfew hstep => hi.step hfew hstep)
  refine ⟨hinv.fault, fun a w' hstep hmany => ?_⟩
  cases a with
  | round fathers => exact absurd trivial hmany
  | cron i =>
    rw [step, if_pos hinv.fault] at hstep
    obtain ⟨t, ht, rfl⟩ := Option.map_eq_some_iff.mp hstep
    exact hinv.turn_faults ht (Nat.not_le.mp hmany)

/-- Services with names of one byte. -/
def services (n : Nat) : List Bytes := (List.range n).map (fun k => [UInt8.ofNat k])

/-- Three services whose threads check them, then two, and then more than there can be threads. -/
def rounds : List Action :=
  [.round (services 3), .cron 1, .cron 2, .cron 0, .cron 1, .round (services 2), .cron 1, .cron 0, .round (services 65)]

/-- Up to the third round all is well, and in it the turn of a thread goes wrong. -/
theorem rounds_in_range : ∃ w w', Reaches step Few .init w ∧ w.opts.myServiceFathers.length = 65 ∧
    w.fault = none ∧ step w (.cron 2) = some w' ∧ ∃ w'' index, Reaches step (fun _ b => b = .cron 2) w' w'' ∧
      w''.fault = some (.hasThread index) ∧ w''.hasThread.length ≤ index := by
  have hrun : (run (guarded (fun w a => decide (Few w a)) step) .init rounds).any (fun w =>
      w.opts.myServiceFathers.length = 65 ∧ (step w (.cron 2)).isSome = true) = true := by
    decide +kernel
  obtain ⟨w, hw, hend⟩ := (Option.any_eq_true ..).mp hrun
  obtain ⟨hmany, hcron⟩ := of_decide_eq_true hend
  obtain ⟨w', hstep⟩ := Option.isSome_iff_exists.mp hcron
  have hreach : Reaches step Few .init w := Reaches.guardedRun _ (fun _ _ h => of_decide_eq_true h) .start hw
  obtain ⟨hfault, hexact⟩ := check_threads_in_range_exact w hreach
  refine ⟨w, w', hreach, hmany, hfault, hstep, hexact _ w' hstep fun hfew => ?_⟩
  have : w.opts.myServiceFathers.length ≤ 64 := hfew
  omega

/-- **65 services**: the first thread that is done with its service sets `has_thread[64]`, which has 64
entries. -/
theorem many_services_out_of_range : ∃ w, Reaches step (fun _ _ => True) .init w ∧
    w.opts.myServiceFathers.length = 65 ∧ w.hasThread.length = 64 ∧ w.fault = some (.hasThread 64) := by
  have hrun : (run step .init [.round (services 65), .cron 0, .cron 0, .cron 0, .cron 0]).any (fun w =>
      w.opts.myServiceFathers.length = 65 ∧ w.hasThread.length = 64 ∧ w.fault = some (.hasThread 64)) = true := by
    decide +kernel
  obtain ⟨w, hw, hend⟩ := (Option.any_eq_true ..).mp hrun
  exact ⟨w, reaches_of_run hw, of_decide_eq_true hend⟩

end QConf.CheckThreads
