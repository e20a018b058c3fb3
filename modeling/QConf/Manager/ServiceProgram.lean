import QConf.Manager.Program
import QConf.Manager.Services

/-!
# The service calls of the manager as programs

The calls about service nodes once more, request by request, so that those of several managers
can interleave.  Alone in a session each program does what the function does; the equations are
named `run_` after the function.
-/

namespace QConf.Program

open Zoo
open Manager (Services zkPath servPath getMonitorNode checkService pairsOf isStatus stringToInteger)

section

variable (md5 : Bytes → Bytes)

/-! ### Setting a list of services -/

def zkMonitorNodeCreate (path : Bytes) : Zoo Ret :=
  zkCreate (getMonitorNode md5 path) path >>= fun
    | .errZooAlreadyExist => .done .ok
    | ret => .done ret

def zkList (node : Bytes) : Zoo (Ret × Finset Bytes) :=
  match zkPath node with
  | none => .done (.errParam, ∅)
  | some path =>
    zooGetChildren path >>= fun
      | .ok names => .done (.ok, names)
      | .error .noNode => .done (.errZooNotExist, ∅)
      | .error _ => .done (.errZooFailed, ∅)

def zkServiceAdd (node serv : Bytes) (status : Int) : Zoo Ret :=
  match zkPath node with
  | none => .done .errParam
  | some path =>
    if checkService serv status then
      zkMonitorNodeCreate md5 path >>= fun
        | .ok =>
          zkModify (servPath path serv) (integerToString status.toNat) >>= fun
            | .errZooNotExist => zkCreate (servPath path serv) (integerToString status.toNat)
            | ret => .done ret
        | _ => .done .errZooFailed
    else .done .errParam

def oldServices (path : Bytes) : Zoo (Ret × Finset Bytes) :=
  zkList path >>= fun
    | (.errZooNotExist, old) => zkCreate path [] >>= fun ret => .done (ret, old)
    | r => .done r

def addServices (path : Bytes) : List (Bytes × Int) → Zoo Ret
  | [] => .done .ok
  | (serv, status) :: rest =>
    zkServiceAdd md5 path serv status >>= fun
      | .ok => addServices path rest
      | ret => .done ret

def deleteServices (path : Bytes) : List Bytes → Zoo Ret
  | [] => .done .ok
  | serv :: rest =>
    zkDelete (servPath path serv) >>= fun
      | .ok => deleteServices path rest
      | ret => .done ret

def zkServicesSet (node : Bytes) (servs : Services) : Zoo Ret :=
  match zkPath node with
  | none => .done .errParam
  | some path =>
    if servs.keys = ∅ then .done .errParam
    else if !(pairsOf servs).all (fun p => checkService p.1 p.2) then .done .errParam
    else
      zkMonitorNodeCreate md5 path >>= fun
        | .ok =>
          oldServices path >>= fun
            | (.ok, old) =>
              addServices md5 path (pairsOf servs) >>= fun
                | .ok => deleteServices path (sortBytes (old \ servs.keys))
                | ret => .done ret
            | (ret, _) => .done ret
        | _ => .done .errZooFailed

/-! ### The calls on the services of a node -/

def checkNodeType (path : Bytes) : Zoo (Except Ret Bool) :=
  zkExist (getMonitorNode md5 path) >>= fun
    | (.ok, exist) => .done (.ok exist)
    | _ => .done (.error .errZooFailed)

def onServices (node : Bytes) (call : Bytes → Zoo Ret) : Zoo Ret :=
  match zkPath node with
  | none => .done .errParam
  | some path =>
    checkNodeType md5 path >>= fun
      | .error ret => .done ret
      | .ok false => .done .errNodeType
      | .ok true => call path

def zkServiceDelete (node serv : Bytes) : Zoo Ret := onServices md5 node (fun path => zkDelete (servPath path serv))

def zkServiceClear (node : Bytes) : Zoo Ret :=
  onServices md5 node (fun path =>
    zkList path >>= fun
      | (.ok, servs) => deleteServices path (sortBytes servs)
      | (ret, _) => .done ret)

def zkServiceModify (status : Status) (node serv : Bytes) : Zoo Ret :=
  onServices md5 node (fun path => zkModify (servPath path serv) (integerToString status.code.toNat))

/-! ### Reading a list -/

def zkServiceStatusGet (path : Bytes) : Zoo (Except Ret Int) :=
  zkGet path >>= fun
    | (.ok, buf) =>
      match stringToInteger buf with
      | .ok value => .done (if isStatus value then .ok value else .error .errOther)
      | .error _ => .done (.error .errOther)
    | _ => .done (.error .errOther)

def zkServicesGet (node : Bytes) : Zoo (Ret × Finset Bytes) :=
  match zkPath node with
  | none => .done (.errParam, ∅)
  | some path =>
    checkNodeType md5 path >>= fun
      | .error ret => .done (ret, ∅)
      | .ok false => .done (.errNodeType, ∅)
      | .ok true => zkList path

def readStatuses (path : Bytes) : List Bytes → Services → Zoo (Ret × Services)
  | [], servs => .done (.ok, servs)
  | name :: names, servs =>
    zkServiceStatusGet (servPath path name) >>= fun
      | .ok s => readStatuses path names (if name ∈ servs then servs else servs.insert name s)
      | .error _ => .done (.errZooFailed, servs)

def zkServicesGetWithStatus (node : Bytes) : Zoo (Ret × Services) :=
  match zkPath node with
  | none => .done (.errParam, ∅)
  | some path =>
    checkNodeType md5 path >>= fun
      | .error _ => .done (.errParam, ∅)
      | .ok false => .done (.errNodeType, ∅)
      | .ok true =>
        zkServicesGet md5 path >>= fun
          | (.ok, nodes) => readStatuses path (sortBytes nodes) ∅
          | (ret, _) => .done (ret, ∅)

end

def zkNodeDelete (node : Bytes) : Zoo Ret :=
  match zkPath node with
  | none => .done .errParam
  | some path => zkDelete path

/-! ### Alone in a session -/

section

variable (md5 : Bytes → Bytes) (zk : Zk)

theorem run_zkMonitorNodeCreate (path : Bytes) :
    run (zkMonitorNodeCreate md5 path) zk = Manager.zkMonitorNodeCreate md5 zk path := by
  rw [zkMonitorNodeCreate, Manager.zkMonitorNodeCreate, run_bind, run_zkCreate]
  rcases Manager.zkCreate zk (getMonitorNode md5 path) path with ⟨ret, zk₁⟩
  cases ret with
  | errZooAlreadyExist => rfl
  | _ => rfl

theorem run_zkList (node : Bytes) : run (zkList node) zk =
    (((Manager.zkList zk node).1, (Manager.zkList zk node).2.1), (Manager.zkList zk node).2.2) := by
  rw [zkList, Manager.zkList]
  cases zkPath node with
  | none => rfl
  | some path =>
    dsimp only
    rw [run_bind, run_zooGetChildren]
    rcases zk.zooGetChildren path with ⟨e | names, zk₁⟩
    · cases e <;> rfl
    · rfl

theorem run_zkServiceAdd (node serv : Bytes) (status : Int) :
    run (zkServiceAdd md5 node serv status) zk = Manager.zkServiceAdd md5 zk node serv status := by
  rw [zkServiceAdd, Manager.zkServiceAdd]
  cases zkPath node with
  | none => rfl
  | some path =>
    dsimp only
    split
    · rw [run_bind, run_zkMonitorNodeCreate]
      rcases Manager.zkMonitorNodeCreate md5 zk path with ⟨ret, zk₁⟩
      cases ret with
      | ok =>
        dsimp only
        rw [run_bind, run_zkModify]
        rcases Manager.zkModify zk₁ (servPath path serv) (integerToString status.toNat) with ⟨ret', zk₂⟩
        cases ret' with
        | errZooNotExist => exact run_zkCreate zk₂ _ _
        | _ => rfl
      | _ => rfl
    · rfl

theorem run_oldServices (path : Bytes) : run (oldServices path) zk =
    (((Manager.oldServices zk path).1, (Manager.oldServices zk path).2.1), (Manager.oldServices zk path).2.2) := by
  rw [oldServices, Manager.oldServices, run_bind, run_zkList]
  rcases Manager.zkList zk path with ⟨ret, old, zk₁⟩
  cases ret with
  | errZooNotExist =>
    dsimp only
    rw [run_bind, run_zkCreate]
    rfl
  | _ => rfl

theorem run_addServices (path : Bytes) : ∀ (pairs : List (Bytes × Int)) (zk : Zk),
    run (addServices md5 path pairs) zk = Manager.addServices md5 path pairs zk := by
  intro pairs
  induction pairs with
  | nil => exact fun _ => rfl
  | cons p pairs ih =>
    intro zk
    obtain ⟨serv, status⟩ := p
    rw [addServices, Manager.addServices, run_bind, run_zkServiceAdd]
    rcases Manager.zkServiceAdd md5 zk path serv status with ⟨ret, zk₁⟩
    cases ret with
    | ok => exact ih zk₁
    | _ => rfl

theorem run_deleteServices (path : Bytes) : ∀ (servs : List Bytes) (zk : Zk),
    run (deleteServices path servs) zk = Manager.deleteServices path servs zk := by
  intro servs
  induction servs with
  | nil => exact fun _ => rfl
  | cons serv servs ih =>
    intro zk
    rw [deleteServices, Manager.deleteServices, run_bind, run_zkDelete]
    rcases Manager.zkDelete zk (servPath path serv) with ⟨ret, zk₁⟩
    cases ret with
    | ok => exact ih zk₁
    | _ => rfl

theorem run_zkServicesSet (node : Bytes) (servs : Services) :
    run (zkServicesSet md5 node servs) zk = Manager.zkServicesSet md5 zk node servs := by
  rw [zkServicesSet, Manager.zkServicesSet]
  cases zkPath node with
  | none => rfl
  | some path =>
    dsimp only
    split
    · rfl
    split
    · rfl
    rw [run_bind, run_zkMonitorNodeCreate]
    rcases Manager.zkMonitorNodeCreate md5 zk path with ⟨ret, zk₁⟩
    cases ret with
    | ok =>
      dsimp only
      rw [run_bind, run_oldServices]
      rcases Manager.oldServices zk₁ path with ⟨ret', old, zk₂⟩
      cases ret' with
      | ok =>
        dsimp only
        rw [run_bind, run_addServices]
        rcases Manager.addServices md5 path (pairsOf servs) zk₂ with ⟨ret'', zk₃⟩
        cases ret'' with
        | ok => exact run_deleteServices path _ zk₃
        | _ => rfl
      | _ => rfl
    | _ => rfl

theorem run_checkNodeType (path : Bytes) :
    run (checkNodeType md5 path) zk = Manager.checkNodeType md5 zk path := by
  rw [checkNodeType, Manager.checkNodeType, run_bind, run_zkExist]
  rcases Manager.zkExist zk (getMonitorNode md5 path) with ⟨ret, exist, zk₁⟩
  cases ret with
  | ok => rfl
  | _ => rfl

theorem run_onServices (node : Bytes) (call : Bytes → Zoo Ret) :
    run (onServices md5 node call) zk = Manager.onServices md5 zk node (fun path zk => run (call path) zk) := by
  rw [onServices, Manager.onServices]
  cases zkPath node with
  | none => rfl
  | some path =>
    dsimp only
    rw [run_bind, run_checkNodeType]
    rcases Manager.checkNodeType md5 zk path with ⟨ret | exist, zk₁⟩
    · rfl
    · cases exist <;> rfl

theorem run_zkServiceDelete (node serv : Bytes) :
    run (zkServiceDelete md5 node serv) zk = Manager.zkServiceDelete md5 zk node serv := by
  rw [zkServiceDelete, run_onServices, Manager.zkServiceDelete]
  simp only [run_zkDelete]

theorem run_zkServiceClear (node : Bytes) :
    run (zkServiceClear md5 node) zk = Manager.zkServiceClear md5 zk node := by
  rw [zkServiceClear, run_onServices, Manager.zkServiceClear]
  congr 1
  funext path zk
  rw [run_bind, run_zkList]
  rcases Manager.zkList zk path with ⟨ret, servs, zk₁⟩
  cases ret with
  | ok => exact run_deleteServices path _ zk₁
  | _ => rfl

theorem run_zkServiceModify (status : Status) (node serv : Bytes) :
    run (zkServiceModify md5 status node serv) zk = Manager.zkServiceModify md5 status zk node serv := by
  rw [zkServiceModify, run_onServices, Manager.zkServiceModify]
  simp only [run_zkModify]

theorem run_zkServiceStatusGet (path : Bytes) :
    run (zkServiceStatusGet path) zk = Manager.zkServiceStatusGet zk path := by
  rw [zkServiceStatusGet, Manager.zkServiceStatusGet, run_bind, run_zkGet]
  rcases Manager.zkGet zk path with ⟨ret, buf, zk₁⟩
  cases ret with
  | ok =>
    dsimp only
    cases stringToInteger buf with
    | ok value => rfl
    | error e => rfl
  | _ => rfl

theorem run_zkServicesGet (node : Bytes) : run (zkServicesGet md5 node) zk =
    (((Manager.zkServicesGet md5 zk node).1, (Manager.zkServicesGet md5 zk node).2.1),
      (Manager.zkServicesGet md5 zk node).2.2) := by
  rw [zkServicesGet, Manager.zkServicesGet]
  cases zkPath node with
  | none => rfl
  | some path =>
    dsimp only
    rw [run_bind, run_checkNodeType]
    rcases Manager.checkNodeType md5 zk path with ⟨ret | exist, zk₁⟩
    · rfl
    · cases exist with
      | false => rfl
      | true => exact run_zkList zk₁ path

theorem run_readStatuses (path : Bytes) : ∀ (names : List Bytes) (servs : Services) (zk : Zk),
    run (readStatuses path names servs) zk =
      (((Manager.readStatuses path names servs zk).1, (Manager.readStatuses path names servs zk).2.1),
        (Manager.readStatuses path names servs zk).2.2) := by
  intro names
  induction names with
  | nil => exact fun _ _ => rfl
  | cons name names ih =>
    intro servs zk
    rw [readStatuses, Manager.readStatuses, run_bind, run_zkServiceStatusGet]
    rcases Manager.zkServiceStatusGet zk (servPath path name) with ⟨e | s, zk₁⟩
    · rfl
    · exact ih _ zk₁

theorem run_zkServicesGetWithStatus (node : Bytes) : run (zkServicesGetWithStatus md5 node) zk =
    (((Manager.zkServicesGetWithStatus md5 zk node).1, (Manager.zkServicesGetWithStatus md5 zk node).2.1),
      (Manager.zkServicesGetWithStatus md5 zk node).2.2) := by
  rw [zkServicesGetWithStatus, Manager.zkServicesGetWithStatus]
  cases zkPath node with
  | none => rfl
  | some path =>
    dsimp only
    rw [run_bind, run_checkNodeType]
    rcases Manager.checkNodeType md5 zk path with ⟨ret | exist, zk₁⟩
    · rfl
    · cases exist with
      | false => rfl
      | true =>
        dsimp only
        rw [run_bind, run_zkServicesGet]
        rcases Manager.zkServicesGet md5 zk₁ path with ⟨ret, nodes, zk₂⟩
        cases ret with
        | ok => exact run_readStatuses path _ ∅ zk₂
        | _ => rfl

theorem run_zkNodeDelete (node : Bytes) : run (zkNodeDelete node) zk = Manager.zkNodeDelete zk node := by
  rw [zkNodeDelete, Manager.zkNodeDelete]
  cases zkPath node with
  | none => rfl
  | some path => exact run_zkDelete zk path

end

end QConf.Program
