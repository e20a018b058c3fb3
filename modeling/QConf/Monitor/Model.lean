import QConf.Base.Integer
import QConf.Zookeeper.Path

/-!
# The monitor

A monitor probes the servers of the services it owns and writes into ZooKeeper whether they
are up.  What it knows is in two maps that several threads share: `service_father_to_ip` has
the servers of every service, and `service_map` has the status of each server under its
path.  The listener fills them and keeps them up to date from ZooKeeper's events, the check
threads read them, and the update thread writes the new statuses.

This file has the functions of the listener and of the two kinds of threads.  What ZooKeeper
answers to a call is an argument.  Of a `ServiceItem` the status is kept; the other fields
say where to connect to.
-/

namespace QConf.Monitor

/-! ### Statuses -/

def kStatusUnknow : Int := -1
def kStatusUp : Int := 0
def kStatusOffline : Int := 1
def kStatusDown : Int := 2

/-- `atoi`: `strtol` with base 10, cut to an `int`. -/
def atoi (s : Bytes) : Int :=
  Int.bmod (max longMin (min longMax (leadingNumber s))) (2 ^ 32)

/-- What ZooKeeper answers to the calls of one function; `none` where a call fails. -/
structure Reads where
  children : Bytes → Option (List Bytes)
  value : Bytes → Option Bytes

/-- `zk_get_chdnodes`. -/
def Reads.zkGetChdnodes (r : Reads) (path : Bytes) : Option (List Bytes) :=
  if path = [] then none else r.children path

/-- `zk_get_service_status`. -/
def Reads.zkGetServiceStatus (r : Reads) (path : Bytes) : Option Int :=
  if path = [] then none
  else
    (r.value path).bind (fun buf =>
      let value := atoi (cStr buf)
      if value = kStatusUp ∨ value = kStatusDown ∨ value = kStatusOffline then some value else none)

/-! ### The maps -/

/-- The part of `MonitorOptions` that changes. -/
structure MonitorOptions where
  /-- the status of each `ServiceItem` -/
  serviceMap : Finmap (fun _ : Bytes => Int)
  serviceFatherToIp : Finmap (fun _ : Bytes => Finset Bytes)
  myServiceFathers : List Bytes

namespace MonitorOptions

/-- The maps of a monitor that was just started. -/
def empty : MonitorOptions := { serviceMap := ∅, serviceFatherToIp := ∅, myServiceFathers := [] }

/-- `service_map[p].status`, read: an item that is not there is made, and it is down. -/
def statusOf (o : MonitorOptions) (p : Bytes) : Int := (o.serviceMap.lookup p).getD kStatusDown

/-- What `service_map[p]` leaves behind. -/
def touch (o : MonitorOptions) (p : Bytes) : MonitorOptions :=
  { o with serviceMap := o.serviceMap.insert p (o.statusOf p) }

/-- `service_father_to_ip[f]`, read. -/
def ipsOf (o : MonitorOptions) (f : Bytes) : Finset Bytes := (o.serviceFatherToIp.lookup f).getD ∅

/-- `service_father_to_ip[f] = ips`. -/
def setIps (o : MonitorOptions) (f : Bytes) (ips : Finset Bytes) : MonitorOptions :=
  { o with serviceFatherToIp := o.serviceFatherToIp.insert f ips }

/-- `service_map[p] = item`, or its status. -/
def setStatus (o : MonitorOptions) (p : Bytes) (status : Int) : MonitorOptions :=
  { o with serviceMap := o.serviceMap.insert p status }

/-- What the loop of `DoBalance` does with one of its services. -/
def own (o : MonitorOptions) (father : Bytes) : MonitorOptions :=
  { o.setIps father ∅ with myServiceFathers := o.myServiceFathers ++ [father] }

/-! #### What the updates change -/

section

variable (o : MonitorOptions) (p q f g : Bytes) (status : Int) (ips : Finset Bytes)

@[simp] theorem serviceMap_setIps : (o.setIps f ips).serviceMap = o.serviceMap := rfl

@[simp] theorem ipsOf_setStatus : (o.setStatus p status).ipsOf f = o.ipsOf f := rfl

theorem ipsOf_setIps : (o.setIps f ips).ipsOf g = if g = f then ips else o.ipsOf g := by
  unfold ipsOf setIps
  by_cases h : g = f
  · rw [h, if_pos rfl, Finmap.lookup_insert]
    rfl
  · rw [if_neg h, Finmap.lookup_insert_of_ne _ h]

theorem lookup_setStatus :
    (o.setStatus p status).serviceMap.lookup q = if q = p then some status else o.serviceMap.lookup q := by
  unfold setStatus
  by_cases h : q = p
  · rw [h, if_pos rfl, Finmap.lookup_insert]
  · rw [if_neg h, Finmap.lookup_insert_of_ne _ h]

theorem lookup_touch :
    (o.touch p).serviceMap.lookup q = if q = p then some (o.statusOf p) else o.serviceMap.lookup q :=
  lookup_setStatus o p q (o.statusOf p)

@[simp] theorem statusOf_touch : (o.touch p).statusOf q = o.statusOf q := by
  rw [statusOf, lookup_touch]
  by_cases h : q = p
  · rw [h, if_pos rfl]
    rfl
  · rw [if_neg h]
    rfl

end

end MonitorOptions

/-- The path of a server. -/
def servicePath (father ip : Bytes) : Bytes := father ++ slash :: ip

/-- `path.substr(0, pos)` and `path.substr(pos + 1)` at the last slash; without one, both are
the whole path. -/
def cutPath (path : Bytes) : Bytes × Bytes := (splitLast path).getD (path, path)

@[simp] theorem cutPath_servicePath {father ip : Bytes} (h : slash ∉ ip) :
    cutPath (servicePath father ip) = (father, ip) := by
  rw [cutPath, servicePath, splitLast_append h]
  rfl

theorem servicePath_inj {f ip ip' : Bytes} (h : servicePath f ip = servicePath f ip') : ip = ip' := by
  have := List.append_cancel_left h
  exact (List.cons.inj this).2

/-! ### The listener -/

/-- `AddChildren`: a service without servers gets the empty name. -/
def addChildren (o : MonitorOptions) (father : Bytes) (children : List Bytes) : MonitorOptions :=
  let ips := if children = [] then insert [] (o.ipsOf father) else o.ipsOf father
  o.setIps father (ips ∪ children.toFinset)

/-- `GetAllIp` for one service. -/
def getIps (r : Reads) (o : MonitorOptions) (father : Bytes) : MonitorOptions :=
  match r.zkGetChdnodes father with
  | none => o.setIps father (insert [] (o.ipsOf father))
  | some children => addChildren o father children

/-- `GetAllIp`. -/
def getAllIp (r : Reads) (o : MonitorOptions) : MonitorOptions :=
  (sortBytes o.serviceFatherToIp.keys).foldl (getIps r) o

/-- `LoadService`. -/
def loadService (r : Reads) (o : MonitorOptions) (ipPortPath : Bytes) : MonitorOptions :=
  match r.zkGetServiceStatus ipPortPath with
  | none => o
  | some status => o.setStatus ipPortPath (if status < -1 ∨ status > 2 then -1 else status)

/-- The paths of all servers, in the order of the maps. -/
def MonitorOptions.paths (o : MonitorOptions) : List Bytes :=
  (sortBytes o.serviceFatherToIp.keys).flatMap (fun f => (sortBytes (o.ipsOf f)).map (servicePath f))

/-- `LoadAllService`. -/
def loadAllService (r : Reads) (o : MonitorOptions) : MonitorOptions :=
  let o := getAllIp r { o with serviceMap := ∅ }
  o.paths.foldl (loadService r) o

inductive Op
  | add
  | delete
  deriving DecidableEq, Repr

/-- `ModifyServiceFatherToIp`. -/
def modifyServiceFatherToIp (r : Reads) (op : Op) (o : MonitorOptions) (ipPath : Bytes) : MonitorOptions :=
  let father := (cutPath ipPath).1
  let ip := (cutPath ipPath).2
  let ipset := o.ipsOf father
  match op with
  | .add =>
    if ip ∈ ipset then o.setIps father ipset
    else
      match r.zkGetServiceStatus ipPath with
      | none => o.setIps father ipset
      | some status => (o.setStatus ipPath status).setIps father (insert ip ipset)
  | .delete => { o with serviceMap := o.serviceMap.erase ipPath }.setIps father (ipset.erase ip)

/-- `ServiceListener`'s `ProcessChildEvent`. -/
def processChildEvent (r : Reads) (o : MonitorOptions) (path : Bytes) : MonitorOptions :=
  match r.zkGetChdnodes path with
  | none => o
  | some children =>
    match o.serviceFatherToIp.lookup path with
    | none => o
    | some ipset =>
      if children.length ≤ ipset.card then o
      else children.foldl (fun o ip => modifyServiceFatherToIp r .add o (servicePath path ip)) o

/-- `ServiceListener`'s `ProcessChangedEvent`. -/
def processChangedEvent (r : Reads) (o : MonitorOptions) (path : Bytes) : MonitorOptions :=
  match r.value path with
  | none => o
  | some data => o.setStatus path (atoi (cStr data))

/-! ### The check threads and the update thread -/

/-- What `TryConnect` reads for a server before it connects: the old status, unless the server
is skipped. -/
def oldStatus? (o : MonitorOptions) (p : Bytes) : Option Int :=
  (o.serviceMap.lookup p).bind (fun status =>
    if status = kStatusUnknow ∨ status = kStatusOffline then none else some status)

/-- The loop of `IsOnlyOneUp`. -/
def isOnlyOneUpLoop (father : Bytes) : List Bytes → Nat → MonitorOptions → Bool × MonitorOptions
  | [], _, o => (true, o)
  | ip :: ips, alive, o =>
    let p := servicePath father ip
    let alive := if o.statusOf p = kStatusUp then alive + 1 else alive
    if alive > 1 then (false, o.touch p) else isOnlyOneUpLoop father ips alive (o.touch p)

/-- `IsOnlyOneUp`. -/
def isOnlyOneUp (o : MonitorOptions) (node : Bytes) : Bool × MonitorOptions :=
  let father := (cutPath node).1
  isOnlyOneUpLoop father (sortBytes (o.ipsOf father)) 0 (o.setIps father (o.ipsOf father))

/-- The test of `UpdateServiceFunc`: whether the update is given up. -/
def refuses (o : MonitorOptions) (ipPort : Bytes) (newStatus : Int) : Bool × MonitorOptions :=
  if newStatus = kStatusDown ∧ o.statusOf ipPort = kStatusUp then isOnlyOneUp (o.touch ipPort) ipPort
  else (false, o.touch ipPort)

/-- `UpdateServiceFunc`, where `modifies` says whether `zk_modify` would succeed: whether the
node was written, and the maps. -/
def updateServiceFunc (o : MonitorOptions) (ipPort : Bytes) (newStatus : Int) (modifies : Bool) :
    Bool × MonitorOptions :=
  match refuses o ipPort newStatus with
  | (true, o) => (false, o)
  | (false, o) => if modifies then (true, o.setStatus ipPort newStatus) else (false, o)

end QConf.Monitor
