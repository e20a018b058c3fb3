import QConf.Agent.StoredKeys

/-!
# The threads of the agent

`StoredKeys.pipeStep` handles a key of the queue in one step.  No lock spans such a step: between
two calls of `deque_process` the gray thread may change its map, the scan may look at the table, and
an event may come.  Here every access that a lock protects and every read of ZooKeeper is a step of
its own, and each thread has its local variables.

* `deque_process` takes a key, asks whether it is gray, reads ZooKeeper, or else the dump, writes the
  table and reports the change (`Work`).
* `do_gray_process` changes the gray map, and queues the keys one after the other.
* `process_tbl` takes an entry, dumps it, compares it with ZooKeeper, and queues its key.
* `change_trigger_process` takes a trigger, and writes the dump.

What ZooKeeper answers is up to the steps, so it may change between any two calls.  An entry that
`hash_tbl_getnext` gives is one that the table has at some moment of the call, which is unlocked: this
moment is the step.

Every run of the machine with whole updates is one of this machine (`threads_of_pipe`).  The result is
`gray_values_in_force`: a key of the gray map is served with its gray value, or it is not served, or
it is queued, about to be queued or just being handled.
-/

namespace QConf.Threads

open StoredKeys Shm Transition
open Scan (sortedListing sessionOf)

/-! ### The machine -/

/-- How far `deque_process` is with the key that it took. -/
inductive Work
  /-- taken from the queue -/
  | taken
  /-- `is_gray_node` gave a value -/
  | grayed (val : Bytes)
  /-- it is no gray node -/
  | plain
  /-- ZooKeeper was read: the value, -/
  | found (tblval : Bytes)
  /-- no node, -/
  | gone
  /-- or a failure, after which the dump is asked -/
  | failed
  | dumped (tblval : Bytes)
  /-- the table was changed, and the change is still to be reported -/
  | written (change : Option Bytes)

/-- The table does not have the outcome yet. -/
def Work.Unwritten : Work → Prop
  | .written _ => False
  | _ => True

/-- What becomes of an answer of ZooKeeper.  There is none without a session, and after an error
other than `QCONF_ERR_ZOO_FAILED` the key is given up. -/
def Work.ofAnswer : Option (Ret × Bytes) → Option Work
  | some (.ok, tblval) => some (.found tblval)
  | some (.nodeNotExist, _) => some .gone
  | some (.errZooFailed, _) => some .failed
  | _ => none

/-- `hash_tbl_set` with a value whose change is to be reported. -/
def setAndReport (tbl : BytesMap) (tblkey tblval : Bytes) (fits : Bool) : BytesMap × Option Work :=
  ((tblSet tbl tblkey tblval fits).2,
    if (tblSet tbl tblkey tblval fits).1 = .ok then some (.written (some tblval)) else none)

/-- The call that changes the table: the table, and what is left to do. -/
def Work.write (tbl : BytesMap) (tblkey : Bytes) (fits : Bool) : Work → Option (BytesMap × Option Work)
  | .grayed val => some (setAndReport tbl tblkey val fits)
  | .found tblval => some (setAndReport tbl tblkey tblval fits)
  | .gone => some (tbl.erase tblkey, some (.written none))
  | .dumped tblval => some ((tblSet tbl tblkey tblval fits).2, none)
  | _ => none

/-- How far `process_tbl` is with an entry. -/
inductive Stage
  | taken
  | dumped
  | differs
  deriving DecidableEq

/-- The local variables `tblkey` and `tblval` of `process_tbl`. -/
structure Held where
  tblkey : Bytes
  tblval : Bytes
  stage : Stage
  deriving DecidableEq

/-- What `gray_process` reads for an idc. -/
inductive GrayRead
  /-- the records of the content that the notify node names -/
  | records (records : List Bytes)
  /-- there is no notify node -/
  | gone
  /-- a read failed, or the content is no list of records -/
  | failed

/-- The list `nodes` that it returns. -/
def GrayRead.nodes (idc : Bytes) (gray : BytesMap) : GrayRead → List (Bytes × Bytes)
  | .records rs => (Gray.readNotifyRecords idc rs).2
  | .gone => Gray.grayNodesGet gray
  | .failed => []

/-- The map that it leaves. -/
def GrayRead.gray (idc : Bytes) (gray : BytesMap) : GrayRead → BytesMap
  | .records rs =>
    if (Gray.readNotifyRecords idc rs).1 = .ok then Gray.grayNodesSet gray (Gray.readNotifyRecords idc rs).2 else gray
  | .gone => ∅
  | .failed => gray

structure State where
  pipe : Pipe
  /-- `deque_process` -/
  work : Option (Bytes × Work)
  /-- `do_gray_process`: the keys that are still to be queued -/
  queueing : List Bytes
  /-- `process_tbl` -/
  held : Option Held
  /-- `change_trigger_process` -/
  trigger : Option Trigger

/-- No thread is at work. -/
def State.idle (p : Pipe) : State := ⟨p, none, [], none, none⟩

inductive Action
  /-- `msg_process` receives a message -/
  | message (key : Bytes)
  /-- an event handler has found the key of a node stored or pending, and queues it -/
  | event (dataType : UInt8) (idc path : Bytes)
  | pop
  | isGrayNode
  | read (answer : Option (Ret × Bytes))
  | dumpGet
  | write (fits : Bool)
  | addTrigger
  | takeTrigger
  | dumpTrigger
  /-- `hash_tbl_getnext` comes to the entry of a key -/
  | getnext (key : Bytes)
  | dumpSet
  /-- `diff_with_zk` -/
  | diff (differs : Bool)
  | queueDiffering
  | gray (idc : Bytes) (answer : GrayRead)
  | queueGray
  | evict (key : Bytes)
  /-- the command `clear-all` -/
  | clearTbl
  | clearDump
  /-- a new agent on the old table and the old dump -/
  | restart

def threadStep (s : State) : Action → Option State
  | .message key =>
    if 1 ≤ key.length ∧ key.length ≤ 2047 then some { s with pipe := s.pipe.addWatcherNode key } else none
  | .event dataType idc path => some { s with pipe := s.pipe.addWatcherNode (tblkeyOf dataType idc path) }
  | .pop =>
    match s.work, s.pipe.need with
    | none, key :: rest =>
      some { s with pipe := { s.pipe with need := rest, exist := s.pipe.exist.erase key }, work := some (key, .taken) }
    | _, _ => none
  | .isGrayNode =>
    match s.work with
    | some (key, .taken) =>
      match Gray.isGrayNode s.pipe.gray key with
      | some val => some { s with work := some (key, .grayed val) }
      | none => some { s with work := some (key, .plain) }
    | _ => none
  | .read answer =>
    match s.work with
    | some (key, .plain) => some { s with work := (Work.ofAnswer answer).map (key, ·) }
    | _ => none
  | .dumpGet =>
    match s.work with
    | some (key, .failed) => some { s with work := (s.pipe.dump.lookup key).map (fun val => (key, .dumped val)) }
    | _ => none
  | .write fits =>
    match s.work with
    | none => none
    | some (key, w) => (w.write s.pipe.tbl key fits).map (fun r =>
        { s with pipe := { s.pipe with tbl := r.1 }, work := r.2.map (key, ·) })
  | .addTrigger =>
    match s.work with
    | some (key, .written change) => some { s with pipe := s.pipe.addChangeTriggerNode key change, work := none }
    | _ => none
  | .takeTrigger =>
    match s.trigger, s.pipe.triggers with
    | none, g :: rest => some { s with pipe := { s.pipe with triggers := rest }, trigger := some g }
    | _, _ => none
  | .dumpTrigger =>
    match s.trigger with
    | some ⟨key, some val⟩ =>
      some { s with pipe := { s.pipe with dump := s.pipe.dump.insert key val }, trigger := none }
    | some ⟨key, none⟩ => some { s with pipe := { s.pipe with dump := s.pipe.dump.erase key }, trigger := none }
    | none => none
  | .getnext key =>
    match s.held, s.pipe.tbl.lookup key with
    | none, some tblval =>
      match keyParts (getDataType key) tblval with
      | (.ok, idc, path) => some { s with held := some ⟨tblkeyOf (getDataType key) idc path, tblval, .taken⟩ }
      | _ => some s
    | _, _ => none
  | .dumpSet =>
    match s.held with
    | some ⟨key, val, .taken⟩ =>
      some { s with pipe := { s.pipe with dump := s.pipe.dump.insert key val }, held := some ⟨key, val, .dumped⟩ }
    | _ => none
  | .diff differs =>
    match s.held with
    | some ⟨key, val, .dumped⟩ => some { s with held := if differs then some ⟨key, val, .differs⟩ else none }
    | _ => none
  | .queueDiffering =>
    match s.held with
    | some ⟨key, _, .differs⟩ => some { s with pipe := s.pipe.addWatcherNode key, held := none }
    | _ => none
  | .gray idc answer =>
    if s.queueing = [] then
      some { s with
        pipe := { s.pipe with gray := answer.gray idc s.pipe.gray }
        queueing := (answer.nodes idc s.pipe.gray).map Prod.fst }
    else none
  | .queueGray =>
    match s.queueing with
    | [] => none
    | key :: rest => some { s with pipe := s.pipe.addWatcherNode key, queueing := rest }
  | .evict key => some { s with pipe := { s.pipe with tbl := s.pipe.tbl.erase key } }
  | .clearTbl => some { s with pipe := { s.pipe with tbl := ∅ } }
  | .clearDump => some { s with pipe := { s.pipe with dump := ∅ } }
  | .restart => some (.idle { s.pipe with need := [], exist := ∅, gray := ∅, triggers := [] })

section

variable {conf : Finset Bytes} {s s' : State} {p p' : Pipe} {key val idc : Bytes}

/-! ### Undisturbed threads -/

/-- A run from one state without threads to another. -/
def Undisturbed (p p' : Pipe) : Prop := Reaches threadStep (fun _ _ => True) (.idle p) (.idle p')

theorem undisturbed_of_run (as : List Action) (h : run threadStep (.idle p) as = some (.idle p')) : Undisturbed p p' :=
  reaches_of_run h

/-- `deque_process` at work, and nothing else. -/
def State.working (p : Pipe) (key : Bytes) (w : Work) : State := ⟨p, some (key, w), [], none, none⟩

theorem reaches_store {w : Work} {fits : Bool}
    (hw : w.write p.tbl key fits = some (setAndReport p.tbl key val fits)) :
    Reaches threadStep (fun _ _ => True) (.working p key w) (.idle (p.store key val fits).2) := by
  have hwrite : threadStep (.working p key w) (.write fits) =
      some { State.working p key w with
        pipe := { p with tbl := (tblSet p.tbl key val fits).2 }
        work := (setAndReport p.tbl key val fits).2.map (key, ·) } := by
    simp only [threadStep, State.working, hw]
    rfl
  unfold Pipe.store
  split
  · next tbl heq =>
    rw [setAndReport, heq, if_pos rfl] at hwrite
    exact (Reaches.tail .start trivial hwrite).tail (a := .addTrigger) trivial rfl
  · next ret tbl hne heq =>
    rw [setAndReport, heq, if_neg (by simpa using hne)] at hwrite
    exact .tail .start trivial hwrite

theorem reaches_storeDump (fits : Bool) :
    Reaches threadStep (fun _ _ => True) (.working p key .failed) (.idle (p.storeDump key fits).2) := by
  unfold Pipe.storeDump
  cases hval : p.dump.lookup key with
  | none =>
    refine Reaches.tail .start (a := .dumpGet) trivial ?_
    simp only [threadStep, State.working, hval]
    rfl
  | some tblval =>
    have hget : threadStep (.working p key .failed) .dumpGet = some (.working p key (.dumped tblval)) := by
      simp only [threadStep, State.working, hval]
      rfl
    exact (Reaches.tail .start trivial hget).tail (a := .write fits) trivial rfl

/-- A read, and what follows. -/
theorem reaches_processRead (fits : Bool) (r : Ret × Bytes) : Reaches threadStep (fun _ _ => True)
    (.working p key .plain) (.idle (orDump fits key (processRead fits p key r)).2) := by
  obtain ⟨ret, tblval⟩ := r
  have hread : ∀ {w}, Work.ofAnswer (some (ret, tblval)) = some w →
      Reaches threadStep (fun _ _ => True) (.working p key .plain) (.working p key w) := by
    intro w hw
    refine Reaches.tail .start (a := .read (some (ret, tblval))) trivial ?_
    simp only [threadStep, State.working, hw]
    rfl
  have hgive : Work.ofAnswer (some (ret, tblval)) = none →
      Reaches threadStep (fun _ _ => True) (.working p key .plain) (.idle p) := by
    intro hw
    refine Reaches.tail .start (a := .read (some (ret, tblval))) trivial ?_
    simp only [threadStep, State.working, hw]
    rfl
  cases ret with
  | ok =>
    rw [processRead, orDump_store]
    exact (hread rfl).trans (reaches_store rfl)
  | nodeNotExist =>
    exact ((hread rfl).tail (a := .write fits) trivial rfl).tail (a := .addTrigger) trivial rfl
  | errZooFailed => exact (hread rfl).trans (reaches_storeDump fits)
  | _ => exact hgive rfl

/-- **An update, step by step.** -/
theorem undisturbed_update {rest : List Bytes} (hneed : p.need = key :: rest) (sessions : Bytes → Option Zk)
    (fits : Bool) : Undisturbed p (setWatcherAndUpdateTbl conf sessions fits
      { p with need := rest, exist := p.exist.erase key } key).2 := by
  have hpop : Reaches threadStep (fun _ _ => True) (.idle p)
      (.working { p with need := rest, exist := p.exist.erase key } key .taken) := by
    refine Reaches.tail .start (a := .pop) trivial ?_
    simp only [threadStep, State.idle, hneed]
    rfl
  refine hpop.trans ?_
  generalize { p with need := rest, exist := p.exist.erase key } = p
  unfold setWatcherAndUpdateTbl
  cases hgray : Gray.isGrayNode p.gray key with
  | some val =>
    have hask : Reaches threadStep (fun _ _ => True) (.working p key .taken) (.working p key (.grayed val)) := by
      refine Reaches.tail .start (a := .isGrayNode) trivial ?_
      simp only [threadStep, State.working, hgray]
    have hstore := hask.trans (@reaches_store p key val (.grayed val) fits rfl)
    dsimp only
    split
    · next heq => rwa [heq] at hstore
    · next heq => rwa [heq] at hstore
  | none =>
    have hask : Reaches threadStep (fun _ _ => True) (.working p key .taken) (.working p key .plain) := by
      refine Reaches.tail .start (a := .isGrayNode) trivial ?_
      simp only [threadStep, State.working, hgray]
    dsimp only
    split
    · exact hask.tail (a := .read none) trivial rfl
    · rw [process_eq]
      exact hask.trans (reaches_processRead fits _)

theorem readNotifyContent_cases (zk : Zk) (notifyId idc : Bytes) :
    ((Gray.readNotifyContent zk notifyId idc).1 ≠ .ok ∧ (Gray.readNotifyContent zk notifyId idc).2.1 = []) ∨
    ∃ rs, (Gray.readNotifyContent zk notifyId idc).1 = (Gray.readNotifyRecords idc rs).1 ∧
      (Gray.readNotifyContent zk notifyId idc).2.1 = (Gray.readNotifyRecords idc rs).2 := by
  unfold Gray.readNotifyContent
  split
  · exact Or.inl ⟨by simp, rfl⟩
  split
  · exact Or.inl ⟨by simp, rfl⟩
  split
  · exact Or.inl ⟨by simp, rfl⟩
  · next vnodes _ => exact Or.inr ⟨sortBytes vnodes, rfl, rfl⟩

/-- `gray_process` makes one of the reads. -/
theorem exists_grayRead (host : Bytes) (session : Option Zk) (idc : Bytes) (gray : BytesMap) :
    ∃ r : GrayRead, (Gray.grayProcess host session idc gray).gray = r.gray idc gray ∧
      (Gray.grayProcess host session idc gray).nodes = r.nodes idc gray := by
  unfold Gray.grayProcess
  split
  · exact ⟨.failed, rfl, rfl⟩
  split
  · exact ⟨.failed, rfl, rfl⟩
  split
  · next notifyId zk _ =>
    have hcases := readNotifyContent_cases zk notifyId idc
    rcases hread : Gray.readNotifyContent zk notifyId idc with ⟨ret, nodes, zk'⟩
    rw [hread] at hcases
    rcases hcases with ⟨hret, rfl⟩ | ⟨rs, rfl, rfl⟩
    · refine ⟨.failed, ?_⟩
      cases ret with
      | ok => exact absurd rfl hret
      | _ => exact ⟨rfl, rfl⟩
    · refine ⟨.records rs, ?_⟩
      rw [GrayRead.gray, GrayRead.nodes]
      cases (Gray.readNotifyRecords idc rs).1 with
      | ok => exact ⟨rfl, rfl⟩
      | _ => exact ⟨rfl, rfl⟩
  · exact ⟨.gone, rfl, rfl⟩
  · exact ⟨.failed, rfl, rfl⟩

theorem reaches_queueGray : ∀ (nodes : List (Bytes × Bytes)) (p : Pipe),
    Reaches threadStep (fun _ _ => True) ⟨p, none, nodes.map Prod.fst, none, none⟩
      (.idle (nodes.foldl (fun p kv => p.addWatcherNode kv.1) p)) := by
  intro nodes
  induction nodes with
  | nil => intro p; exact .start
  | cons kv nodes ih =>
    intro p
    exact (Reaches.tail .start (a := .queueGray) trivial rfl).trans (ih (p.addWatcherNode kv.1))

theorem undisturbed_step {a : PipeAction} (h : pipeStep conf p a = some p') : Undisturbed p p' := by
  cases a with
  | message key =>
    refine undisturbed_of_run [.message key] ?_
    simp only [pipeStep] at h
    split at h
    · next hlen =>
      rw [← Option.some.inj h]
      simp only [run, threadStep, if_pos hlen, State.idle, Option.bind_some]
    · exact absurd h (by simp)
  | event t idc path pending =>
    simp only [pipeStep, Option.some.injEq] at h
    rw [← h]
    split
    · exact undisturbed_of_run [.event t idc path] rfl
    · exact .start
  | update sessions fits =>
    simp only [pipeStep] at h
    split at h
    · exact absurd h (by simp)
    · next key rest hneed =>
      rw [← Option.some.inj h]
      exact undisturbed_update hneed sessions fits
  | trigger =>
    refine undisturbed_of_run [.takeTrigger, .dumpTrigger] ?_
    simp only [pipeStep] at h
    split at h
    · exact absurd h (by simp)
    all_goals
      next htrig =>
        rw [← Option.some.inj h]
        simp only [run, threadStep, State.idle, htrig, Option.bind_some]
  | scan key differs =>
    simp only [pipeStep] at h
    split at h
    · exact absurd h (by simp)
    · next tblval hval =>
      split at h
      · next idc path hparts =>
        have hget : threadStep (.idle p) (.getnext key) = some { State.idle p with
            held := some ⟨tblkeyOf (getDataType key) idc path, tblval, .taken⟩ } := by
          simp only [threadStep, State.idle, hval, hparts]
        have hdump : Reaches threadStep (fun _ _ => True) (.idle p) { State.idle
            { p with dump := p.dump.insert (tblkeyOf (getDataType key) idc path) tblval } with
            held := some ⟨tblkeyOf (getDataType key) idc path, tblval, .dumped⟩ } :=
          (Reaches.tail .start trivial hget).tail (a := .dumpSet) trivial rfl
        rw [← Option.some.inj h]
        cases differs with
        | true => exact (hdump.tail (a := .diff true) trivial rfl).tail (a := .queueDiffering) trivial rfl
        | false => exact hdump.tail (a := .diff false) trivial rfl
      · rw [← Option.some.inj h]
        exact .start
  | grayIdc host session idc =>
    simp only [pipeStep] at h
    split at h
    · obtain ⟨r, hgray, hnodes⟩ := exists_grayRead host session idc p.gray
      rw [← Option.some.inj h, hgray, hnodes]
      exact (Reaches.tail .start (a := .gray idc r) trivial rfl).trans (reaches_queueGray _ _)
    · exact absurd h (by simp)
  | evict key =>
    rw [← Option.some.inj h]
    exact undisturbed_of_run [.evict key] rfl
  | clearAll =>
    rw [← Option.some.inj h]
    exact undisturbed_of_run [.clearTbl, .clearDump] rfl
  | restart =>
    rw [← Option.some.inj h]
    exact undisturbed_of_run [.restart] rfl

/-- **The machine of the whole updates is refined**: what it reaches, undisturbed threads reach. -/
theorem threads_of_pipe (h : Reaches (pipeStep conf) (fun _ _ => True) .init p) :
    Reaches threadStep (fun _ _ => True) (.idle .init) (.idle p) := by
  obtain ⟨u, hu, rfl⟩ := h.simulated (R := fun p u => u = State.idle p) rfl
    fun hR _ _ hstep => ⟨_, by rw [hR]; exact undisturbed_step hstep, rfl⟩
  exact hu

/-! ### What waits -/

/-- The key is in the queue, or the gray thread is about to queue it. -/
def Queued (s : State) (key : Bytes) : Prop := key ∈ s.pipe.need ∨ key ∈ s.queueing

/-- The key is in the queue, about to be queued, or being handled. -/
def Waits (s : State) (key : Bytes) : Prop := Queued s key ∨ ∃ w, s.work = some (key, w) ∧ w.Unwritten

/-- What `deque_process` knows about the gray map. -/
def Agrees (gray : BytesMap) (key : Bytes) : Work → Prop
  | .grayed val => gray.lookup key = some val
  | .plain => gray.lookup key = none
  | .found _ => gray.lookup key = none
  | .gone => gray.lookup key = none
  | .failed => gray.lookup key = none
  | .dumped _ => gray.lookup key = none
  | _ => True

/-- A key that has a gray value and another one in the table is queued, or `deque_process` has still
to ask for the gray value or to write it; and where `deque_process` is wrong about the gray map, its
key is queued. -/
structure InForce (s : State) : Prop where
  queue : QueueInv s.pipe
  named : [] ∉ s.pipe.gray
  queueing : [] ∉ s.queueing
  agrees : ∀ key w, s.work = some (key, w) → Agrees s.pipe.gray key w ∨ Queued s key
  served : ∀ key val v, s.pipe.gray.lookup key = some val → s.pipe.tbl.lookup key = some v →
    v = val ∨ Queued s key ∨ s.work = some (key, .taken) ∨ s.work = some (key, .grayed val)

theorem InForce.init : InForce (.idle .init) where
  queue := ⟨List.nodup_nil, rfl⟩
  named := Finmap.notMem_empty
  queueing := List.not_mem_nil
  agrees key w h := absurd h (by simp [State.idle])
  served key val v h := absurd h (by simp [State.idle, Pipe.init])

/-! ### The steps -/

/-- The steps of `deque_process`. -/
inductive Works (s : State) : Action → State → Prop
  | pop {key : Bytes} {rest : List Bytes} (hidle : s.work = none) (hneed : s.pipe.need = key :: rest) :
      Works s .pop { s with
        pipe := { s.pipe with need := rest, exist := s.pipe.exist.erase key }, work := some (key, .taken) }
  | grayed {key val : Bytes} (hw : s.work = some (key, .taken)) (hgray : s.pipe.gray.lookup key = some val) :
      Works s .isGrayNode { s with work := some (key, .grayed val) }
  | plain {key : Bytes} (hw : s.work = some (key, .taken)) (hgray : s.pipe.gray.lookup key = none) :
      Works s .isGrayNode { s with work := some (key, .plain) }
  | read {key : Bytes} (hw : s.work = some (key, .plain)) (answer : Option (Ret × Bytes)) :
      Works s (.read answer) { s with work := (Work.ofAnswer answer).map (key, ·) }
  | dumpGet {key : Bytes} (hw : s.work = some (key, .failed)) :
      Works s .dumpGet { s with work := (s.pipe.dump.lookup key).map (fun val => (key, .dumped val)) }
  | write {key : Bytes} {w : Work} {fits : Bool} {tbl : BytesMap} {w' : Option Work} (hw : s.work = some (key, w))
      (hwrite : w.write s.pipe.tbl key fits = some (tbl, w')) :
      Works s (.write fits) { s with pipe := { s.pipe with tbl := tbl }, work := w'.map (key, ·) }
  | addTrigger {key : Bytes} {change : Option Bytes} (hw : s.work = some (key, .written change)) :
      Works s .addTrigger { s with pipe := s.pipe.addChangeTriggerNode key change, work := none }

/-- The steps of the other threads: the table loses entries only, what is queued stays so, and the keys
whose gray value changes are queued.  A key that the scan has found to differ is queued in the end. -/
structure Grows (s s' : State) : Prop where
  queue : QueueInv s'.pipe
  named : [] ∉ s'.pipe.gray
  queueing : [] ∉ s'.queueing
  work : s'.work = s.work
  queued : ∀ key, Queued s key → Queued s' key
  tbl : ∀ key v, s'.pipe.tbl.lookup key = some v → s.pipe.tbl.lookup key = some v
  gray : ∀ key, s'.pipe.gray.lookup key ≠ s.pipe.gray.lookup key → Queued s' key
  held : ∀ key v, key ≠ [] → s.held = some ⟨key, v, .differs⟩ → s'.held = s.held ∨ Queued s' key

/-- Steps that leave the queue and the gray map alone. -/
theorem InForce.grows_same (h : InForce s) (hneed : s'.pipe.need = s.pipe.need) (hexist : s'.pipe.exist = s.pipe.exist)
    (hgray : s'.pipe.gray = s.pipe.gray) (hqueueing : s'.queueing = s.queueing) (hwork : s'.work = s.work)
    (htbl : ∀ key v, s'.pipe.tbl.lookup key = some v → s.pipe.tbl.lookup key = some v)
    (hheld : ∀ key v, s.held = some ⟨key, v, .differs⟩ → s'.held = s.held) : Grows s s' where
  queue := ⟨hneed ▸ h.queue.nodup, by rw [hexist, hneed, h.queue.exist]⟩
  named := hgray ▸ h.named
  queueing := hqueueing ▸ h.queueing
  work := hwork
  queued key hq := by rwa [Queued, hneed, hqueueing]
  tbl := htbl
  gray key hne := absurd (by rw [hgray]) hne
  held key v _ hh := Or.inl (hheld key v hh)

/-- Steps of `change_trigger_process`, and the clearing of the dump. -/
theorem InForce.grows_dump (h : InForce s) (dump : BytesMap) (triggers : List Trigger) (trigger : Option Trigger) :
    Grows s { s with pipe := { s.pipe with dump := dump, triggers := triggers }, trigger := trigger } :=
  h.grows_same rfl rfl rfl rfl rfl (fun _ _ hv => hv) (fun _ _ _ => rfl)

/-- Steps of `process_tbl` as long as no difference was found. -/
theorem InForce.grows_scan (h : InForce s) (hsame : ∀ k v, s.held ≠ some ⟨k, v, .differs⟩) (dump : BytesMap)
    (held : Option Held) : Grows s { s with pipe := { s.pipe with dump := dump }, held := held } :=
  h.grows_same rfl rfl rfl rfl rfl (fun _ _ hv => hv) (fun k v hk => absurd hk (hsame k v))

/-- Steps that take entries out of the table. -/
theorem InForce.grows_tbl (h : InForce s) {tbl : BytesMap}
    (hless : ∀ key v, tbl.lookup key = some v → s.pipe.tbl.lookup key = some v) :
    Grows s { s with pipe := { s.pipe with tbl := tbl } } :=
  h.grows_same rfl rfl rfl rfl rfl hless (fun _ _ _ => rfl)

/-- Steps that call `add_watcher_node`. -/
theorem InForce.grows_queue (h : InForce s) (key : Bytes) (hpipe : s'.pipe = s.pipe.addWatcherNode key)
    (hqueueing : s'.queueing = s.queueing ∨ s.queueing = key :: s'.queueing) (hwork : s'.work = s.work)
    (hheld : s'.held = s.held ∨ ∃ v, s.held = some ⟨key, v, .differs⟩) : Grows s s' where
  queue := hpipe ▸ h.queue.addWatcherNode key
  named := by
    rw [hpipe, addWatcherNode_gray]
    exact h.named
  queueing := by
    rcases hqueueing with hq | hq
    · rw [hq]
      exact h.queueing
    · exact fun hm => h.queueing (hq ▸ List.mem_cons_of_mem _ hm)
  work := hwork
  queued k hk := by
    rw [Queued, hpipe]
    rcases hk with hk | hk
    · exact Or.inl (need_subset_addWatcherNode _ _ hk)
    rcases hqueueing with hq | hq
    · exact Or.inr (hq ▸ hk)
    · rw [hq] at hk
      rcases List.mem_cons.mp hk with rfl | hk
      · exact Or.inl (h.queue.mem_addWatcherNode fun hnil => h.queueing (by rw [hq, hnil]; exact List.mem_cons_self))
      · exact Or.inr hk
  tbl k v hv := by rwa [hpipe, addWatcherNode_tbl] at hv
  gray k hne := absurd (by rw [hpipe, addWatcherNode_gray]) hne
  held k v hne hk := by
    rcases hheld with hh | ⟨v', hh⟩
    · exact Or.inl hh
    · rw [hh, Option.some.injEq, Held.mk.injEq] at hk
      obtain ⟨rfl, -⟩ := hk
      exact Or.inr (Or.inl (hpipe ▸ h.queue.mem_addWatcherNode hne))

/-- The keys of the records are not empty. -/
theorem readNotifyRecords_named (idc : Bytes) (rs : List Bytes) :
    [] ∉ (Gray.readNotifyRecords idc rs).2.map Prod.fst := by
  intro hm
  obtain ⟨⟨k, v⟩, hkv, hk⟩ := List.mem_map.mp hm
  obtain ⟨r, -, -, heq⟩ := Gray.mem_readNotifyRecords hkv
  exact tblkeyOf_ne_nil dataTypeNode idc _ ((Prod.mk.inj heq).1.symm.trans hk)

/-- `gray_process` changes the values of the keys that it returns, and no others. -/
theorem InForce.grows_gray (h : InForce s) (hfree : s.queueing = []) (idc : Bytes) (r : GrayRead) :
    Grows s { s with
      pipe := { s.pipe with gray := r.gray idc s.pipe.gray }
      queueing := (r.nodes idc s.pipe.gray).map Prod.fst } where
  queue := ⟨h.queue.nodup, h.queue.exist⟩
  named := by
    cases r with
    | records rs =>
      change [] ∉ GrayRead.gray idc s.pipe.gray (.records rs)
      rw [GrayRead.gray]
      split
      · intro hm
        obtain ⟨val, hval⟩ := Finmap.mem_iff.mp hm
        rw [Gray.lookup_grayNodesSet, Option.or_eq_some_iff] at hval
        rcases hval with hval | ⟨-, hval⟩
        · exact h.named (ZkTree.mem_of_lookup hval)
        · obtain ⟨l₁, l₂, hnodes, -⟩ := List.lookup_eq_some_iff.mp hval
          exact readNotifyRecords_named idc rs (by rw [hnodes]; simp)
      · exact h.named
    | gone => exact Finmap.notMem_empty
    | failed => exact h.named
  queueing := by
    cases r with
    | records rs => exact readNotifyRecords_named idc rs
    | gone =>
      intro hm
      simp only [GrayRead.nodes, Gray.grayNodesGet, List.map_map, List.mem_map] at hm
      obtain ⟨k, hk, rfl⟩ := hm
      exact h.named (Finmap.mem_keys.mp (mem_sortBytes.mp hk))
    | failed => exact List.not_mem_nil
  work := rfl
  queued key hq := Or.inl (hq.resolve_right (by simp [hfree]))
  tbl _ _ hv := hv
  gray key hne := by
    refine Or.inr ?_
    change (GrayRead.gray idc s.pipe.gray r).lookup key ≠ _ at hne
    cases r with
    | records rs =>
      by_contra hnot
      have hnone : (Gray.readNotifyRecords idc rs).2.lookup key = none := Gray.lookup_eq_none_of_keys fun kv hkv hk =>
        hnot (List.mem_map.mpr ⟨kv, hkv, hk⟩)
      rw [GrayRead.gray] at hne
      split at hne
      · exact hne (by rw [Gray.lookup_grayNodesSet, hnone, Option.or_none])
      · exact hne rfl
    | gone =>
      have hmem : key ∈ s.pipe.gray := by
        by_contra hnot
        exact hne (Finmap.lookup_eq_none.mpr hnot).symm
      simp only [GrayRead.nodes, Gray.grayNodesGet, List.map_map, List.mem_map]
      exact ⟨key, mem_sortBytes.mpr (Finmap.mem_keys.mpr hmem), rfl⟩
    | failed => exact absurd rfl hne
  held _ _ _ _ := Or.inl rfl

/-- **A step is one of `deque_process`, a restart, or one that grows.** -/
theorem InForce.step_cases (h : InForce s) {a : Action} (hstep : threadStep s a = some s') :
    Works s a s' ∨ (a = .restart ∧ s' = .idle { s.pipe with need := [], exist := ∅, gray := ∅, triggers := [] }) ∨
      Grows s s' := by
  cases a with
  | message key =>
    simp only [threadStep] at hstep
    split at hstep
    · rw [← Option.some.inj hstep]
      exact Or.inr (Or.inr (h.grows_queue key rfl (Or.inl rfl) rfl (Or.inl rfl)))
    · exact absurd hstep (by simp)
  | event t idc path =>
    rw [← Option.some.inj hstep]
    exact Or.inr (Or.inr (h.grows_queue _ rfl (Or.inl rfl) rfl (Or.inl rfl)))
  | pop =>
    simp only [threadStep] at hstep
    split at hstep
    · next hidle hneed =>
      rw [← Option.some.inj hstep]
      exact Or.inl (.pop hidle hneed)
    · exact absurd hstep (by simp)
  | isGrayNode =>
    simp only [threadStep] at hstep
    split at hstep
    · next hw =>
      split at hstep
      · next hgray =>
        rw [← Option.some.inj hstep]
        exact Or.inl (.grayed hw hgray)
      · next hgray =>
        rw [← Option.some.inj hstep]
        exact Or.inl (.plain hw hgray)
    · exact absurd hstep (by simp)
  | read answer =>
    simp only [threadStep] at hstep
    split at hstep
    · next hw =>
      rw [← Option.some.inj hstep]
      exact Or.inl (.read hw answer)
    · exact absurd hstep (by simp)
  | dumpGet =>
    simp only [threadStep] at hstep
    split at hstep
    · next hw =>
      rw [← Option.some.inj hstep]
      exact Or.inl (.dumpGet hw)
    · exact absurd hstep (by simp)
  | write fits =>
    simp only [threadStep] at hstep
    split at hstep
    · exact absurd hstep (by simp)
    · next hw =>
      obtain ⟨⟨tbl, w'⟩, hwrite, rfl⟩ := Option.map_eq_some_iff.mp hstep
      exact Or.inl (.write hw hwrite)
  | addTrigger =>
    simp only [threadStep] at hstep
    split at hstep
    · next hw =>
      rw [← Option.some.inj hstep]
      exact Or.inl (.addTrigger hw)
    · exact absurd hstep (by simp)
  | takeTrigger =>
    simp only [threadStep] at hstep
    split at hstep
    · rw [← Option.some.inj hstep]
      exact Or.inr (Or.inr (h.grows_dump _ _ _))
    · exact absurd hstep (by simp)
  | dumpTrigger =>
    simp only [threadStep] at hstep
    split at hstep
    · rw [← Option.some.inj hstep]
      exact Or.inr (Or.inr (h.grows_dump _ _ _))
    · rw [← Option.some.inj hstep]
      exact Or.inr (Or.inr (h.grows_dump _ _ _))
    · exact absurd hstep (by simp)
  | getnext key =>
    simp only [threadStep] at hstep
    split at hstep
    · next hfree _ =>
      have hsame : ∀ k v, s.held ≠ some ⟨k, v, .differs⟩ := fun k v hh => absurd (hfree.symm.trans hh) (by simp)
      split at hstep
      · rw [← Option.some.inj hstep]
        exact Or.inr (Or.inr (h.grows_scan hsame _ _))
      · rw [← Option.some.inj hstep]
        exact Or.inr (Or.inr (h.grows_scan hsame _ _))
    · exact absurd hstep (by simp)
  | dumpSet =>
    simp only [threadStep] at hstep
    split at hstep
    · next hh =>
      rw [← Option.some.inj hstep]
      exact Or.inr (Or.inr (h.grows_scan (fun k v hk => absurd (hh.symm.trans hk) (by simp)) _ _))
    · exact absurd hstep (by simp)
  | diff differs =>
    simp only [threadStep] at hstep
    split at hstep
    · next hh =>
      rw [← Option.some.inj hstep]
      exact Or.inr (Or.inr (h.grows_scan (fun k v hk => absurd (hh.symm.trans hk) (by simp)) _ _))
    · exact absurd hstep (by simp)
  | queueDiffering =>
    simp only [threadStep] at hstep
    split at hstep
    · next key val hh =>
      rw [← Option.some.inj hstep]
      exact Or.inr (Or.inr (h.grows_queue key rfl (Or.inl rfl) rfl (Or.inr ⟨val, hh⟩)))
    · exact absurd hstep (by simp)
  | gray idc r =>
    simp only [threadStep] at hstep
    split at hstep
    · next hfree =>
      rw [← Option.some.inj hstep]
      exact Or.inr (Or.inr (h.grows_gray hfree idc r))
    · exact absurd hstep (by simp)
  | queueGray =>
    simp only [threadStep] at hstep
    split at hstep
    · exact absurd hstep (by simp)
    · next key rest hq =>
      rw [← Option.some.inj hstep]
      exact Or.inr (Or.inr (h.grows_queue key rfl (Or.inr hq) rfl (Or.inl rfl)))
  | evict key =>
    rw [← Option.some.inj hstep]
    exact Or.inr (Or.inr (h.grows_tbl fun _ _ hv => (lookup_erase_iff.mp hv).2))
  | clearTbl =>
    rw [← Option.some.inj hstep]
    exact Or.inr (Or.inr (h.grows_tbl (by simp)))
  | clearDump =>
    rw [← Option.some.inj hstep]
    exact Or.inr (Or.inr (h.grows_dump _ _ _))
  | restart => exact Or.inr (Or.inl ⟨rfl, (Option.some.inj hstep).symm⟩)

/-! ### The gray values -/

/-- After a write the key has the value, or none. -/
theorem tblSet_self {tbl : BytesMap} {fits : Bool} {v : Bytes}
    (h : (tblSet tbl key val fits).2.lookup key = some v) : v = val := by
  unfold tblSet at h
  split at h
  · next hsame => exact Option.some.inj (h.symm.trans hsame)
  split at h
  · rw [Finmap.lookup_insert, Option.some.injEq] at h
    exact h.symm
  · rw [Finmap.lookup_erase] at h
    exact absurd h (by simp)

theorem tblSet_other {tbl : BytesMap} {fits : Bool} {k : Bytes} (hk : k ≠ key) :
    (tblSet tbl key val fits).2.lookup k = tbl.lookup k := by
  unfold tblSet
  split
  · rfl
  split
  · exact Finmap.lookup_insert_of_ne _ hk
  · exact Finmap.lookup_erase_ne hk

/-- What a write leaves: other keys are as before, the key has what `deque_process` brought, and at
most the report of the change is left to do. -/
theorem write_cases {w : Work} {tbl tbl' : BytesMap} {fits : Bool} {w' : Option Work}
    (h : w.write tbl key fits = some (tbl', w')) :
    (∀ k, k ≠ key → tbl'.lookup k = tbl.lookup k) ∧
      (∀ v, tbl'.lookup key = some v → w = .grayed v ∨ w = .found v ∨ w = .dumped v) ∧
      (w' = none ∨ ∃ change, w' = some (.written change)) := by
  have hreport : ∀ val, (setAndReport tbl key val fits).2 = none ∨
      ∃ change, (setAndReport tbl key val fits).2 = some (.written change) := by
    intro val
    rw [setAndReport]
    split
    · exact Or.inr ⟨_, rfl⟩
    · exact Or.inl rfl
  cases w with
  | grayed val =>
    obtain ⟨rfl, rfl⟩ := Prod.mk.inj (Option.some.inj h)
    exact ⟨fun k hk => tblSet_other hk, fun v hv => Or.inl (by rw [tblSet_self hv]), hreport val⟩
  | found val =>
    obtain ⟨rfl, rfl⟩ := Prod.mk.inj (Option.some.inj h)
    exact ⟨fun k hk => tblSet_other hk, fun v hv => Or.inr (Or.inl (by rw [tblSet_self hv])), hreport val⟩
  | gone =>
    obtain ⟨rfl, rfl⟩ := Prod.mk.inj (Option.some.inj h)
    exact ⟨fun k hk => Finmap.lookup_erase_ne hk, fun v hv => absurd rfl (lookup_erase_iff.mp hv).1,
      Or.inr ⟨none, rfl⟩⟩
  | dumped val =>
    obtain ⟨rfl, rfl⟩ := Prod.mk.inj (Option.some.inj h)
    exact ⟨fun k hk => tblSet_other hk, fun v hv => Or.inr (Or.inr (by rw [tblSet_self hv])), Or.inl rfl⟩
  | taken => exact absurd h (by simp [Work.write])
  | plain => exact absurd h (by simp [Work.write])
  | failed => exact absurd h (by simp [Work.write])
  | written change => exact absurd h (by simp [Work.write])

/-- An answer is found out only where the key is not gray. -/
theorem agrees_ofAnswer {gray : BytesMap} {answer : Option (Ret × Bytes)} {w : Work}
    (hgray : gray.lookup key = none) (h : Work.ofAnswer answer = some w) : Agrees gray key w := by
  unfold Work.ofAnswer at h
  split at h
  · exact Option.some.inj h ▸ hgray
  · exact Option.some.inj h ▸ hgray
  · exact Option.some.inj h ▸ hgray
  · exact absurd h (by simp)

/-- Once the gray map was asked and the answer is no gray value, only the queue is left. -/
theorem InForce.served_past (h : InForce s) {k v : Bytes} {w : Work} (hw : s.work = some (k, w)) (htaken : w ≠ .taken)
    (hgrayed : ∀ val, w ≠ .grayed val) (hgray : s.pipe.gray.lookup key = some val)
    (hv : s.pipe.tbl.lookup key = some v) : v = val ∨ Queued s key := by
  rcases h.served key val v hgray hv with hval | hq | hw' | hw'
  · exact Or.inl hval
  · exact Or.inr hq
  · exact absurd (Prod.mk.inj (Option.some.inj (hw.symm.trans hw'))).2 htaken
  · exact absurd (Prod.mk.inj (Option.some.inj (hw.symm.trans hw'))).2 (hgrayed val)

/-- **`deque_process` keeps the gray values in force.** -/
theorem InForce.works (h : InForce s) {a : Action} (hw : Works s a s') : InForce s' := by
  cases hw with
  | @pop key rest hidle hneed =>
    refine ⟨h.queue.pop hneed, h.named, h.queueing, fun k w hk => ?_, fun k val v hk hv => ?_⟩
    · obtain ⟨rfl, rfl⟩ := Prod.mk.inj (Option.some.inj hk)
      exact Or.inl trivial
    · rcases h.served k val v hk hv with hval | (hq | hq) | hw | hw
      · exact Or.inl hval
      · rw [hneed] at hq
        rcases List.mem_cons.mp hq with rfl | hq
        · exact Or.inr (Or.inr (Or.inl rfl))
        · exact Or.inr (Or.inl (Or.inl hq))
      · exact Or.inr (Or.inl (Or.inr hq))
      · exact absurd (hidle.symm.trans hw) (by simp)
      · exact absurd (hidle.symm.trans hw) (by simp)
  | @grayed key val hw hgray =>
    refine ⟨h.queue, h.named, h.queueing, fun k w hk => ?_, fun k val' v hk hv => ?_⟩
    · obtain ⟨rfl, rfl⟩ := Prod.mk.inj (Option.some.inj hk)
      exact Or.inl hgray
    · rcases h.served k val' v hk hv with hval | hq | htaken | hgrayed
      · exact Or.inl hval
      · exact Or.inr (Or.inl hq)
      · obtain ⟨rfl, -⟩ := Prod.mk.inj (Option.some.inj (hw.symm.trans htaken))
        rw [Option.some.inj (hk.symm.trans hgray)]
        exact Or.inr (Or.inr (Or.inr rfl))
      · exact absurd (hw.symm.trans hgrayed) (by simp)
  | @plain key hw hgray =>
    refine ⟨h.queue, h.named, h.queueing, fun k w hk => ?_, fun k val' v hk hv => ?_⟩
    · obtain ⟨rfl, rfl⟩ := Prod.mk.inj (Option.some.inj hk)
      exact Or.inl hgray
    · rcases h.served k val' v hk hv with hval | hq | htaken | hgrayed
      · exact Or.inl hval
      · exact Or.inr (Or.inl hq)
      · obtain ⟨rfl, -⟩ := Prod.mk.inj (Option.some.inj (hw.symm.trans htaken))
        exact absurd (hgray.symm.trans hk) (by simp)
      · exact absurd (hw.symm.trans hgrayed) (by simp)
  | @read key hw answer =>
    refine ⟨h.queue, h.named, h.queueing, fun k w hk => ?_, fun k val v hk hv => ?_⟩
    · obtain ⟨w', hanswer, heq⟩ := Option.map_eq_some_iff.mp hk
      obtain ⟨rfl, rfl⟩ := Prod.mk.inj heq
      exact (h.agrees _ _ hw).imp_left fun hgray => agrees_ofAnswer hgray hanswer
    · exact (h.served_past hw (by simp) (by simp) hk hv).imp_right Or.inl
  | @dumpGet key hw =>
    refine ⟨h.queue, h.named, h.queueing, fun k w hk => ?_, fun k val v hk hv => ?_⟩
    · obtain ⟨d, -, heq⟩ := Option.map_eq_some_iff.mp hk
      obtain ⟨rfl, rfl⟩ := Prod.mk.inj heq
      exact h.agrees key .failed hw
    · exact (h.served_past hw (by simp) (by simp) hk hv).imp_right Or.inl
  | @write key w fits tbl w' hw hwrite =>
    obtain ⟨hother, hown, hleft⟩ := write_cases hwrite
    refine ⟨⟨h.queue.nodup, h.queue.exist⟩, h.named, h.queueing, fun k w₁ hk => ?_, fun k val v hk hv => ?_⟩
    · rcases hleft with rfl | ⟨change, rfl⟩
      · exact absurd hk (by simp)
      · obtain ⟨rfl, rfl⟩ := Prod.mk.inj (Option.some.inj hk)
        exact Or.inl trivial
    · by_cases hkey : k = key
      · subst hkey
        rcases h.agrees _ _ hw with hgray | hq
        · rcases hown v hv with rfl | rfl | rfl
          · exact Or.inl (Option.some.inj (hgray.symm.trans hk))
          · exact absurd (hgray.symm.trans hk) (by simp)
          · exact absurd (hgray.symm.trans hk) (by simp)
        · exact Or.inr (Or.inl hq)
      · have hne : ∀ w₁, s.work ≠ some (k, w₁) := fun w₁ hw₁ =>
          hkey (Prod.mk.inj (Option.some.inj (hw₁.symm.trans hw))).1
        rcases h.served k val v hk ((hother k hkey).symm.trans hv) with hval | hq | htaken | hgrayed
        · exact Or.inl hval
        · exact Or.inr (Or.inl hq)
        · exact absurd htaken (hne _)
        · exact absurd hgrayed (hne _)
  | @addTrigger key change hw =>
    refine ⟨h.queue.addChangeTriggerNode key change, ?_, h.queueing, fun k w hk => absurd hk (by simp),
      fun k val v hk hv => ?_⟩
    · rw [addChangeTriggerNode_gray]
      exact h.named
    · rw [addChangeTriggerNode_gray] at hk
      rw [addChangeTriggerNode_tbl] at hv
      rw [Queued, addChangeTriggerNode_need]
      exact (h.served_past hw (by simp) (by simp) hk hv).imp_right Or.inl

/-- **So do the other threads.** -/
theorem InForce.grows (h : InForce s) (hg : Grows s s') : InForce s' := by
  have hgray : ∀ key, s'.pipe.gray.lookup key = s.pipe.gray.lookup key ∨ Queued s' key := by
    intro key
    by_cases hsame : s'.pipe.gray.lookup key = s.pipe.gray.lookup key
    · exact Or.inl hsame
    · exact Or.inr (hg.gray key hsame)
  refine ⟨hg.queue, hg.named, hg.queueing, fun key w hw => ?_, fun key val v hk hv => ?_⟩
  · rw [hg.work] at hw
    rcases hgray key with hsame | hq
    · rcases h.agrees key w hw with hagree | hq
      · refine Or.inl ?_
        cases w <;> first | trivial | exact hsame.trans hagree
      · exact Or.inr (hg.queued key hq)
    · exact Or.inr hq
  · rcases hgray key with hsame | hq
    · rw [hg.work]
      exact (h.served key val v (hsame.symm.trans hk) (hg.tbl key v hv)).imp_right
        (Or.imp_left (hg.queued key))
    · exact Or.inr (Or.inl hq)

theorem InForce.step (h : InForce s) {a : Action} (hstep : threadStep s a = some s') : InForce s' := by
  rcases h.step_cases hstep with hw | ⟨-, rfl⟩ | hg
  · exact h.works hw
  · exact ⟨⟨List.nodup_nil, rfl⟩, Finmap.notMem_empty, List.not_mem_nil, fun _ _ hw => absurd hw (by simp [State.idle]),
      fun _ _ _ hk => absurd hk (by simp [State.idle])⟩
  · exact h.grows hg

theorem inForce_of_reaches {C : State → Action → Prop} (h : Reaches threadStep C (.idle .init) s) : InForce s :=
  h.invariant InForce .init fun hi _ hs => hi.step hs

/-- **A gray release is in force.**  In every state of every run, with the threads interleaved in any
way and whatever fails: a key that the agent has a gray value for is served with this value, or it is
not served, or it is in the queue, or the gray thread is about to queue it, or `deque_process` is just
handling it. -/
theorem gray_values_in_force (h : Reaches threadStep (fun _ _ => True) (.idle .init) s)
    (hgray : s.pipe.gray.lookup key = some val) :
    s.pipe.tbl.lookup key = some val ∨ s.pipe.tbl.lookup key = none ∨ Waits s key := by
  cases hv : s.pipe.tbl.lookup key with
  | none => exact Or.inr (Or.inl rfl)
  | some v =>
    rcases (inForce_of_reaches h).served key val v hgray hv with rfl | hq | hw | hw
    · exact Or.inl rfl
    · exact Or.inr (Or.inr (Or.inl hq))
    · exact Or.inr (Or.inr (Or.inr ⟨_, hw, trivial⟩))
    · exact Or.inr (Or.inr (Or.inr ⟨_, hw, trivial⟩))

end

/-- The key of `/x` in the idc `B`, its value in a release, and the one that ZooKeeper has. -/
def grayKey : Bytes := tblkeyOf dataTypeNode [66] [slash, 120]

def grayVal : Bytes := nodevalToTblval grayKey [49]

def plainVal : Bytes := nodevalToTblval grayKey [48]

/-- The release comes when the value of ZooKeeper was read and is not yet written. -/
def racingRun : List Action :=
  [.message grayKey, .pop, .isGrayNode, .read (some (.ok, plainVal)), .gray [66] (.records [grayVal]), .write true,
    .addTrigger, .queueGray, .pop, .isGrayNode, .write true, .addTrigger]

/-- The old value is written over the release, and the key is queued for the gray value. -/
theorem release_in_force :
    (∃ s, run threadStep (.idle .init) (racingRun.take 7) = some s ∧ s.pipe.gray.lookup grayKey = some grayVal ∧
      s.pipe.tbl.lookup grayKey = some plainVal ∧ Waits s grayKey) ∧
    ∃ s, run threadStep (.idle .init) racingRun = some s ∧ s.pipe.gray.lookup grayKey = some grayVal ∧
      ¬ Waits s grayKey ∧ s.pipe.tbl.lookup grayKey = some grayVal := by
  have at_ (n : Nat) (o) (h : (run threadStep (.idle .init) (racingRun.take n)).map (fun s =>
      (s.pipe.gray.lookup grayKey, s.pipe.tbl.lookup grayKey, s.pipe.need, s.queueing, s.work.isSome)) = some o) :=
    Option.map_eq_some_iff.mp h
  obtain ⟨s₁, h₁, ho₁⟩ := at_ 7 (some grayVal, some plainVal, [], [grayKey], false) (by decide +kernel)
  obtain ⟨s₂, h₂, ho₂⟩ := at_ 12 (some grayVal, some grayVal, [], [], false) (by decide +kernel)
  simp only [Prod.mk.injEq] at ho₁ ho₂
  obtain ⟨hgray₁, htbl₁, -⟩ := ho₁
  obtain ⟨hgray₂, htbl₂, hneed₂, hqueue₂, hwork₂⟩ := ho₂
  refine ⟨⟨s₁, h₁, hgray₁, htbl₁, ?_⟩, s₂, h₂, hgray₂, ?_, htbl₂⟩
  · rcases gray_values_in_force (reaches_of_run h₁) hgray₁ with htbl | htbl | hwaits
    · exact absurd (htbl₁.symm.trans htbl) (by decide +kernel)
    · exact absurd (htbl₁.symm.trans htbl) (by simp)
    · exact hwaits
  · rintro ((hm | hm) | ⟨w, hw, -⟩)
    · exact absurd hm (by simp [hneed₂])
    · exact absurd hm (by simp [hqueue₂])
    · exact absurd hwork₂ (by simp [hw])

end QConf.Threads
