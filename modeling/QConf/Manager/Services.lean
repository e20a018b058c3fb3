import QConf.Base.Integer
import QConf.Manager.Path

/-!
# The services of a node

A service node keeps its services as children, with the status of each as its value, and is
registered under a node named after the MD5 of its path; the reads ask for the registration.
The model has the functions of `QConfZK` that set, change and read a list of services, over sessions
that may fail.  A status is a `char` and stands as the number it is.
-/

namespace QConf

/-- The number of a status. -/
def Status.code : Status → Int
  | .up => 0
  | .offline => 1
  | .down => 2

end QConf

namespace QConf.Manager

/-- `std::map<std::string, char>`, from the names of services to their statuses. -/
abbrev Services := Finmap (fun _ : Bytes => Int)

/-! ### Checks and names -/

/-- The cases of the switches on a status. -/
def isStatus (status : Int) : Bool := status == Status.up.code || status == Status.down.code || status == Status.offline.code

/-- `check_service`. -/
def checkService (serv : Bytes) (status : Int) : Bool := !serv.isEmpty && isStatus status

/-- `serv_path`. -/
def servPath (node serv : Bytes) : Bytes := node ++ slash :: serv

/-- The digits of `qhashmd5_bin_to_hex`. -/
def hexDigit (n : Nat) : UInt8 := UInt8.ofNat (if n < 10 then 48 + n else 87 + n)

/-- `qhashmd5_bin_to_hex`. -/
def binToHex (md5 : Bytes) : Bytes := md5.flatMap (fun b => [hexDigit (b.toNat / 16), hexDigit (b.toNat % 16)])

/-- `/qconf_monitor_lock_node`. -/
def monitorLockNode : Bytes := ascii "/qconf_monitor_lock_node"

/-- `QCONF_SERV_GROUP_PREFIX`. -/
def servGroupPrefix : Bytes := monitorLockNode ++ ascii "/default_instance/md5_list"

/-- `get_monitor_node`. -/
def getMonitorNode (md5 : Bytes → Bytes) (path : Bytes) : Bytes :=
  servGroupPrefix ++ slash :: binToHex (md5 path)

/-! ### Setting a list of services -/

section

variable (md5 : Bytes → Bytes)

/-- `zk_monitor_node_create`. -/
def zkMonitorNodeCreate (zk : Zk) (path : Bytes) : Ret × Zk :=
  match zkCreate zk (getMonitorNode md5 path) path with
  | (.errZooAlreadyExist, zk) => (.ok, zk)
  | r => r

/-- `zk_list`. -/
def zkList (zk : Zk) (node : Bytes) : Ret × Finset Bytes × Zk :=
  match zkPath node with
  | none => (.errParam, ∅, zk)
  | some path =>
    match zk.zooGetChildren path with
    | (.ok names, zk) => (.ok, names, zk)
    | (.error .noNode, zk) => (.errZooNotExist, ∅, zk)
    | (.error _, zk) => (.errZooFailed, ∅, zk)

/-- `zk_service_add`.  The status has passed `check_service`, so it is not negative. -/
def zkServiceAdd (zk : Zk) (node serv : Bytes) (status : Int) : Ret × Zk :=
  match zkPath node with
  | none => (.errParam, zk)
  | some path =>
    if checkService serv status then
      match zkMonitorNodeCreate md5 zk path with
      | (.ok, zk) =>
        match zkModify zk (servPath path serv) (integerToString status.toNat) with
        | (.errZooNotExist, zk) => zkCreate zk (servPath path serv) (integerToString status.toNat)
        | r => r
      | (_, zk) => (.errZooFailed, zk)
    else (.errParam, zk)

/-- The entries of a map, in its order. -/
def pairsOf (servs : Services) : List (Bytes × Int) :=
  (sortBytes servs.keys).map (fun name => (name, (servs.lookup name).getD 0))

/-- The switch of `zk_services_set` on the list of the old services: a node that is missing is
created. -/
def oldServices (zk : Zk) (path : Bytes) : Ret × Finset Bytes × Zk :=
  match zkList zk path with
  | (.errZooNotExist, old, zk) =>
    match zkCreate zk path [] with
    | (ret, zk) => (ret, old, zk)
  | r => r

/-- The loop of `zk_services_set` that adds or modifies. -/
def addServices (path : Bytes) : List (Bytes × Int) → Zk → Ret × Zk
  | [], zk => (.ok, zk)
  | (serv, status) :: rest, zk =>
    match zkServiceAdd md5 zk path serv status with
    | (.ok, zk) => addServices path rest zk
    | r => r

/-- The loop of `zk_services_set` that deletes. -/
def deleteServices (path : Bytes) : List Bytes → Zk → Ret × Zk
  | [], zk => (.ok, zk)
  | serv :: rest, zk =>
    match zkDelete zk (servPath path serv) with
    | (.ok, zk) => deleteServices path rest zk
    | r => r

/-- `zk_services_set`. -/
def zkServicesSet (zk : Zk) (node : Bytes) (servs : Services) : Ret × Zk :=
  match zkPath node with
  | none => (.errParam, zk)
  | some path =>
    if servs.keys = ∅ then (.errParam, zk)
    else if !(pairsOf servs).all (fun p => checkService p.1 p.2) then (.errParam, zk)
    else
      match zkMonitorNodeCreate md5 zk path with
      | (.ok, zk) =>
        match oldServices zk path with
        | (.ok, old, zk) =>
          match addServices md5 path (pairsOf servs) zk with
          | (.ok, zk) => deleteServices path (sortBytes (old \ servs.keys)) zk
          | r => r
        | (ret, _, zk) => (ret, zk)
      | (_, zk) => (.errZooFailed, zk)

/-! ### Reading it back -/

/-- `string_to_integer`, the same function as `get_integer` of the agent. -/
def stringToInteger (cnt : Bytes) : Except Ret Int := getInteger cnt

/-- `zk_service_status_get`. -/
def zkServiceStatusGet (zk : Zk) (path : Bytes) : Except Ret Int × Zk :=
  match zkGet zk path with
  | (.ok, buf, zk) =>
    match stringToInteger buf with
    | .ok value => (if isStatus value then .ok value else .error .errOther, zk)
    | .error _ => (.error .errOther, zk)
  | (_, _, zk) => (.error .errOther, zk)

/-- `check_node_type`: whether the node is registered. -/
def checkNodeType (zk : Zk) (path : Bytes) : Except Ret Bool × Zk :=
  match zkExist zk (getMonitorNode md5 path) with
  | (.ok, exist, zk) => (.ok exist, zk)
  | (_, _, zk) => (.error .errZooFailed, zk)

/-- `zk_services_get`. -/
def zkServicesGet (zk : Zk) (node : Bytes) : Ret × Finset Bytes × Zk :=
  match zkPath node with
  | none => (.errParam, ∅, zk)
  | some path =>
    match checkNodeType md5 zk path with
    | (.error ret, zk) => (ret, ∅, zk)
    | (.ok false, zk) => (.errNodeType, ∅, zk)
    | (.ok true, zk) => zkList zk path

/-- The loop of `zk_services_get_with_status`.  `insert` does not replace. -/
def readStatuses (path : Bytes) : List Bytes → Services → Zk → Ret × Services × Zk
  | [], servs, zk => (.ok, servs, zk)
  | name :: names, servs, zk =>
    match zkServiceStatusGet zk (servPath path name) with
    | (.ok s, zk) => readStatuses path names (if name ∈ servs then servs else servs.insert name s) zk
    | (.error _, zk) => (.errZooFailed, servs, zk)

/-- `zk_services_get_with_status`, into an empty map. -/
def zkServicesGetWithStatus (zk : Zk) (node : Bytes) : Ret × Services × Zk :=
  match zkPath node with
  | none => (.errParam, ∅, zk)
  | some path =>
    match checkNodeType md5 zk path with
    | (.error _, zk) => (.errParam, ∅, zk)
    | (.ok false, zk) => (.errNodeType, ∅, zk)
    | (.ok true, zk) =>
      match zkServicesGet md5 zk path with
      | (.ok, nodes, zk) => readStatuses path (sortBytes nodes) ∅ zk
      | (ret, _, zk) => (ret, ∅, zk)

/-! ### The calls on the services of a node -/

/-- The start that `zk_service_delete`, `zk_service_clear`, `zk_service_up`, `zk_service_down` and
`zk_service_offline` share: `call` is reached with the path of a registered node. -/
def onServices (zk : Zk) (node : Bytes) (call : Bytes → Zk → Ret × Zk) : Ret × Zk :=
  match zkPath node with
  | none => (.errParam, zk)
  | some path =>
    match checkNodeType md5 zk path with
    | (.error ret, zk) => (ret, zk)
    | (.ok false, zk) => (.errNodeType, zk)
    | (.ok true, zk) => call path zk

/-- `zk_service_delete`. -/
def zkServiceDelete (zk : Zk) (node serv : Bytes) : Ret × Zk :=
  onServices md5 zk node (fun path zk => zkDelete zk (servPath path serv))

/-- `zk_service_clear`. -/
def zkServiceClear (zk : Zk) (node : Bytes) : Ret × Zk :=
  onServices md5 zk node (fun path zk =>
    match zkList zk path with
    | (.ok, servs, zk) => deleteServices path (sortBytes servs) zk
    | (ret, _, zk) => (ret, zk))

/-- The call that sets the status of one service. -/
def zkServiceModify (status : Status) (zk : Zk) (node serv : Bytes) : Ret × Zk :=
  onServices md5 zk node (fun path zk => zkModify zk (servPath path serv) (integerToString status.code.toNat))

/-- `zk_service_up`. -/
def zkServiceUp (zk : Zk) (node serv : Bytes) : Ret × Zk := zkServiceModify md5 .up zk node serv

/-- `zk_service_down`. -/
def zkServiceDown (zk : Zk) (node serv : Bytes) : Ret × Zk := zkServiceModify md5 .down zk node serv

/-- `zk_service_offline`. -/
def zkServiceOffline (zk : Zk) (node serv : Bytes) : Ret × Zk := zkServiceModify md5 .offline zk node serv

end

/-- `zk_node_delete`. -/
def zkNodeDelete (zk : Zk) (node : Bytes) : Ret × Zk :=
  match zkPath node with
  | none => (.errParam, zk)
  | some path => zkDelete zk path

end QConf.Manager
