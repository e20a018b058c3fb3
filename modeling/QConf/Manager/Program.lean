import QConf.Manager.Gray
import QConf.Zookeeper.Requests

/-!
# The gray calls of the manager as programs

`zk_gray_begin`, `zk_gray_commit` and `zk_gray_rollback` once more, request by request, so
that the calls of several managers can interleave.  Alone in a session each program does
what the function does (`run_zkGrayBegin`, `run_zkGrayCommit`, `run_zkGrayRollback`).

The loops over the content nodes go on as long as they find nodes.  Among other managers
nothing bounds their number, so the programs have `fuel`, and what holds for all of them
holds for any number of rounds; alone there is a fuel with which they come to
their ends.
-/

namespace QConf.Program

open Zoo
open Manager (parentNode pathNormalize zkPath graySerializeContent grayDeserializeContent contentPiece
  grayContentMaxSize backlinkContent backlinkDelim)

/-! ### The operations -/

/-- `zk_create`, which calls itself at most `fuel` deep. -/
def zkCreateFuel : Nat → Bytes → Bytes → Zoo Ret
  | 0, _, _ => .done .errZooFailed
  | fuel + 1, path, value =>
    zooCreate path value >>= fun
      | .ok _ => .done .ok
      | .error .nodeExists => .done .errZooAlreadyExist
      | .error .noNode =>
        zkCreateFuel fuel (parentNode path) [] >>= fun
          | .ok => zkCreateFuel fuel path value
          | .errZooAlreadyExist => zkCreateFuel fuel path value
          | ret => .done ret
      | .error _ => .done .errZooFailed

def zkCreate (path value : Bytes) : Zoo Ret := zkCreateFuel (path.length + 1) path value

def zkExist (path : Bytes) : Zoo (Ret × Bool) :=
  zooExists path >>= fun
    | .ok _ => .done (.ok, true)
    | .error .noNode => .done (.ok, false)
    | .error _ => .done (.errZooFailed, false)

def zkModify (path value : Bytes) : Zoo Ret :=
  zooSet path value >>= fun
    | .ok _ => .done .ok
    | .error .noNode => .done .errZooNotExist
    | .error _ => .done .errZooFailed

def zkGet (path : Bytes) : Zoo (Ret × Bytes) :=
  zooGet path >>= fun
    | .ok d => .done (.ok, d)
    | .error .noNode => .done (.errZooNotExist, [])
    | .error _ => .done (.errZooFailed, [])

def zkDeleteExist (path : Bytes) : Zoo Ret :=
  zooDelete path >>= fun
    | .ok _ => .done .ok
    | .error .noNode => .done .errZooNotExist
    | .error .notEmpty => .done .errZooNotempty
    | .error _ => .done .errZooFailed

def zkDelete (path : Bytes) : Zoo Ret :=
  zkDeleteExist path >>= fun
    | .errZooNotExist => .done .ok
    | ret => .done ret

def zkNodeSet (node value : Bytes) : Zoo Ret :=
  match zkPath node with
  | none => .done .errParam
  | some path =>
    zkModify path value >>= fun
      | .errZooNotExist => zkCreate path value
      | ret => .done ret

/-! ### Begin -/

def grayCheckNodes (nodes : BytesMap) : List Bytes → BytesMap → Zoo (Option BytesMap)
  | [], newNodes => .done (some newNodes)
  | raw :: raws, newNodes =>
    match pathNormalize raw with
    | none => .done none
    | some zpath =>
      zkExist zpath >>= fun
        | (.ok, true) =>
          let value := (nodes.lookup raw).getD []
          if maxValueSize - 100 < value.length then .done none
          else grayCheckNodes nodes raws (if zpath ∈ newNodes then newNodes else newNodes.insert zpath value)
        | _ => .done none

def zkGrayCheckNodes (nodes : BytesMap) : Zoo (Option BytesMap) :=
  if nodes.keys = ∅ then .done none else grayCheckNodes nodes (sortBytes nodes.keys) ∅

def grayCheckClients : List Bytes → Zoo Bool
  | [] => .done true
  | client :: clients =>
    zkExist (clientNode client) >>= fun
      | (.ok, false) => grayCheckClients clients
      | _ => .done false

def zkGrayCheckChients (clients : List Bytes) : Zoo Bool :=
  if clients = [] then .done false else grayCheckClients clients

def createContent (grayId content : Bytes) : Nat → Nat → Nat → Zoo Ret
  | 0, _, _ => .done .errGraySetContent
  | left + 1, nodeNum, index =>
    zkCreate (contentNode grayId nodeNum) (contentPiece content index) >>= fun
      | .ok =>
        let index := (index + grayContentMaxSize) % 2 ^ 32
        if index < content.length then createContent grayId content left (nodeNum + 1) index else .done .ok
      | _ => .done .errGraySetContent

def createClients (grayId : Bytes) : List Bytes → Zoo Ret
  | [] => .done .ok
  | client :: clients =>
    zkCreate (clientNode client) grayId >>= fun
      | .ok => createClients grayId clients
      | _ => .done .errGraySetClients

def grayWrite (content : Bytes) (clients : List Bytes) (grayId : Bytes) : Zoo Ret :=
  createContent grayId content (2 ^ 32) 0 0 >>= fun
    | .ok =>
      createClients grayId clients >>= fun
        | .ok =>
          zkCreate (backlinkNode grayId) (backlinkContent clients) >>= fun
            | .ok => .done .ok
            | _ => .done .errGraySetBacklink
        | ret => .done ret
    | ret => .done ret

/-- `zk_gray_begin`. -/
def zkGrayBegin (rawNodes : BytesMap) (clients : List Bytes) (sec usec : Nat) : Zoo Ret :=
  zkGrayCheckNodes rawNodes >>= fun
    | none => .done .errParam
    | some nodes =>
      zkGrayCheckChients clients >>= fun
        | false => .done .errParam
        | true =>
          match graySerializeContent nodes with
          | none => .done .errGraySerialize
          | some content => grayWrite content clients (grayGenerateId sec usec)

/-! ### Commit and rollback -/

def deleteClients : List Bytes → Zoo Ret
  | [] => .done .ok
  | item :: items =>
    zkDelete (clientNode item) >>= fun
      | .ok => deleteClients items
      | _ => .done .errGrayDeleteClients

def deleteContent (grayId : Bytes) : Nat → Nat → Zoo Ret
  | 0, _ => .done .errOther
  | fuel + 1, index =>
    zkDeleteExist (contentNode grayId index) >>= fun
      | .ok => deleteContent grayId fuel (index + 1)
      | ret => .done ret

def zkGrayDeleteNotify (fuel : Nat) (grayId : Bytes) : Zoo Ret :=
  zkGet (backlinkNode grayId) >>= fun
    | (.ok, blContent) =>
      deleteClients (getlines backlinkDelim [] blContent) >>= fun
        | .ok =>
          deleteContent grayId fuel 0 >>= fun
            | .errZooNotExist =>
              zkDelete (backlinkNode grayId) >>= fun
                | .ok => .done .ok
                | _ => .done .errGrayDeleteBacklink
            | _ => .done .errGrayDeleteContent
        | ret => .done ret
    | _ => .done .errGrayGetBacklink

/-- `zk_gray_rollback`. -/
def zkGrayRollback (fuel : Nat) (grayId : Bytes) : Zoo Ret := zkGrayDeleteNotify fuel grayId

def readContent (grayId : Bytes) : Nat → Nat → Bytes → Zoo (Option Bytes)
  | 0, _, _ => .done none
  | fuel + 1, index, content =>
    zooGet (contentNode grayId index) >>= fun
      | .ok piece => readContent grayId fuel (index + 1) (content ++ piece)
      | .error .noNode => .done (some content)
      | .error _ => .done none

def zkGrayGetContent (fuel : Nat) (grayId : Bytes) : Zoo (Option (List (Bytes × Bytes))) :=
  readContent grayId fuel 0 [] >>= fun
    | none => .done none
    | some content => .done (grayDeserializeContent content)

def commitNodes : List (Bytes × Bytes) → Zoo Ret
  | [] => .done .ok
  | (path, value) :: nodes =>
    zkNodeSet path value >>= fun
      | .ok => commitNodes nodes
      | _ => .done .errGrayCommit

/-- `zk_gray_commit`. -/
def zkGrayCommit (fuel fuel' : Nat) (grayId : Bytes) : Zoo Ret :=
  zkGrayGetContent fuel grayId >>= fun
    | none => .done .errGrayGetContent
    | some nodes =>
      commitNodes nodes >>= fun
        | .ok => zkGrayDeleteNotify fuel' grayId
        | ret => .done ret

/-! ### Alone in a session -/

section

variable (zk : Zk)

theorem run_zkCreateFuel : ∀ (fuel : Nat) (path value : Bytes) (zk : Zk),
    run (zkCreateFuel fuel path value) zk = Manager.zkCreateFuel fuel zk path value := by
  intro fuel
  induction fuel with
  | zero => exact fun _ _ _ => rfl
  | succ fuel ih =>
    intro path value zk
    rw [zkCreateFuel, run_bind, run_zooCreate, Manager.zkCreateFuel]
    rcases zk.zooCreate path value with ⟨e | u, zk₁⟩
    · cases e with
      | noNode =>
        dsimp only
        rw [run_bind, ih]
        rcases Manager.zkCreateFuel fuel zk₁ (parentNode path) [] with ⟨ret, zk₂⟩
        cases ret with
        | ok => exact ih path value zk₂
        | errZooAlreadyExist => exact ih path value zk₂
        | _ => rfl
      | _ => rfl
    · rfl

@[simp] theorem run_zkCreate (path value : Bytes) : run (zkCreate path value) zk = Manager.zkCreate zk path value :=
  run_zkCreateFuel _ path value zk

@[simp] theorem run_zkExist (path : Bytes) : run (zkExist path) zk =
    (((Manager.zkExist zk path).1, (Manager.zkExist zk path).2.1), (Manager.zkExist zk path).2.2) := by
  rw [zkExist, run_bind, run_zooExists, Manager.zkExist]
  rcases zk.zooExists path with ⟨e | u, zk₁⟩
  · cases e <;> rfl
  · rfl

@[simp] theorem run_zkModify (path value : Bytes) : run (zkModify path value) zk = Manager.zkModify zk path value := by
  rw [zkModify, run_bind, run_zooSet, Manager.zkModify]
  rcases zk.zooSet path value with ⟨e | u, zk₁⟩
  · cases e <;> rfl
  · rfl

@[simp] theorem run_zkGet (path : Bytes) : run (zkGet path) zk =
    (((Manager.zkGet zk path).1, (Manager.zkGet zk path).2.1), (Manager.zkGet zk path).2.2) := by
  rw [zkGet, run_bind, run_zooGet, Manager.zkGet]
  rcases zk.zooGet path with ⟨e | d, zk₁⟩
  · cases e <;> rfl
  · rfl

@[simp] theorem run_zkDeleteExist (path : Bytes) :
    run (zkDeleteExist path) zk = Manager.zkDeleteExist zk path := by
  rw [zkDeleteExist, run_bind, run_zooDelete, Manager.zkDeleteExist]
  rcases zk.zooDelete path with ⟨e | u, zk₁⟩
  · cases e <;> rfl
  · rfl

@[simp] theorem run_zkDelete (path : Bytes) : run (zkDelete path) zk = Manager.zkDelete zk path := by
  rw [zkDelete, run_bind, run_zkDeleteExist, Manager.zkDelete]
  rcases Manager.zkDeleteExist zk path with ⟨ret, zk₁⟩
  cases ret with
  | errZooNotExist => rfl
  | _ => rfl

@[simp] theorem run_zkNodeSet (node value : Bytes) :
    run (zkNodeSet node value) zk = Manager.zkNodeSet zk node value := by
  rw [zkNodeSet, Manager.zkNodeSet]
  cases zkPath node with
  | none => rfl
  | some path =>
    dsimp only
    rw [run_bind, run_zkModify]
    rcases Manager.zkModify zk path value with ⟨ret, zk₁⟩
    cases ret with
    | errZooNotExist => exact run_zkCreate zk₁ path value
    | _ => rfl

theorem run_grayCheckNodes (nodes : BytesMap) : ∀ (raws : List Bytes) (newNodes : BytesMap) (zk : Zk),
    run (grayCheckNodes nodes raws newNodes) zk = Manager.grayCheckNodes nodes raws zk newNodes := by
  intro raws
  induction raws with
  | nil => exact fun _ _ => rfl
  | cons raw raws ih =>
    intro newNodes zk
    rw [grayCheckNodes, Manager.grayCheckNodes]
    cases pathNormalize raw with
    | none => rfl
    | some zpath =>
      dsimp only
      rw [run_bind, run_zkExist]
      rcases Manager.zkExist zk zpath with ⟨ret, exist, zk₁⟩
      cases ret with
      | ok =>
        cases exist with
        | false => rfl
        | true =>
          dsimp only
          split
          · rfl
          · exact ih _ zk₁
      | _ => cases exist <;> rfl

theorem run_zkGrayCheckNodes (nodes : BytesMap) :
    run (zkGrayCheckNodes nodes) zk = Manager.zkGrayCheckNodes zk nodes := by
  rw [zkGrayCheckNodes, Manager.zkGrayCheckNodes]
  split
  · rfl
  · exact run_grayCheckNodes nodes _ ∅ zk

theorem run_grayCheckClients : ∀ (clients : List Bytes) (zk : Zk),
    run (grayCheckClients clients) zk = Manager.grayCheckClients clients zk := by
  intro clients
  induction clients with
  | nil => exact fun _ => rfl
  | cons client clients ih =>
    intro zk
    rw [grayCheckClients, Manager.grayCheckClients, run_bind, run_zkExist]
    rcases Manager.zkExist zk (clientNode client) with ⟨ret, exist, zk₁⟩
    cases ret with
    | ok =>
      cases exist with
      | false => exact ih zk₁
      | true => rfl
    | _ => cases exist <;> rfl

theorem run_zkGrayCheckChients (clients : List Bytes) :
    run (zkGrayCheckChients clients) zk = Manager.zkGrayCheckChients zk clients := by
  rw [zkGrayCheckChients, Manager.zkGrayCheckChients]
  split
  · rfl
  · exact run_grayCheckClients clients zk

theorem run_createContent (grayId content : Bytes) : ∀ (left nodeNum index : Nat) (zk : Zk),
    run (createContent grayId content left nodeNum index) zk =
      Manager.createContent grayId content left zk nodeNum index := by
  intro left
  induction left with
  | zero => exact fun _ _ _ => rfl
  | succ left ih =>
    intro nodeNum index zk
    rw [createContent, Manager.createContent, run_bind, run_zkCreate]
    rcases Manager.zkCreate zk (contentNode grayId nodeNum) (contentPiece content index) with ⟨ret, zk₁⟩
    cases ret with
    | ok =>
      dsimp only
      split
      · exact ih _ _ zk₁
      · rfl
    | _ => rfl

theorem run_createClients (grayId : Bytes) : ∀ (clients : List Bytes) (zk : Zk),
    run (createClients grayId clients) zk = Manager.createClients grayId clients zk := by
  intro clients
  induction clients with
  | nil => exact fun _ => rfl
  | cons client clients ih =>
    intro zk
    rw [createClients, Manager.createClients, run_bind, run_zkCreate]
    rcases Manager.zkCreate zk (clientNode client) grayId with ⟨ret, zk₁⟩
    cases ret with
    | ok => exact ih zk₁
    | _ => rfl

theorem run_grayWrite (content : Bytes) (clients : List Bytes) (grayId : Bytes) :
    run (grayWrite content clients grayId) zk = Manager.grayWrite zk content clients grayId := by
  rw [grayWrite, Manager.grayWrite, run_bind, run_createContent]
  rcases Manager.createContent grayId content (2 ^ 32) zk 0 0 with ⟨ret, zk₁⟩
  cases ret with
  | ok =>
    dsimp only
    rw [run_bind, run_createClients]
    rcases Manager.createClients grayId clients zk₁ with ⟨ret, zk₂⟩
    cases ret with
    | ok =>
      dsimp only
      rw [run_bind, run_zkCreate]
      rcases Manager.zkCreate zk₂ (backlinkNode grayId) (backlinkContent clients) with ⟨ret, zk₃⟩
      cases ret <;> rfl
    | _ => rfl
  | _ => rfl

/-- **A begin alone in a session.** -/
theorem run_zkGrayBegin (rawNodes : BytesMap) (clients : List Bytes) (sec usec : Nat) :
    run (zkGrayBegin rawNodes clients sec usec) zk = Manager.zkGrayBegin zk rawNodes clients sec usec := by
  rw [zkGrayBegin, Manager.zkGrayBegin, run_bind, run_zkGrayCheckNodes]
  rcases Manager.zkGrayCheckNodes zk rawNodes with ⟨_ | nodes, zk₁⟩
  · rfl
  · dsimp only
    rw [run_bind, run_zkGrayCheckChients]
    rcases Manager.zkGrayCheckChients zk₁ clients with ⟨_ | _, zk₂⟩
    · rfl
    · dsimp only
      cases graySerializeContent nodes with
      | none => rfl
      | some content => exact run_grayWrite zk₂ content clients _

theorem run_deleteClients : ∀ (items : List Bytes) (zk : Zk),
    run (deleteClients items) zk = Manager.deleteClients items zk := by
  intro items
  induction items with
  | nil => exact fun _ => rfl
  | cons item items ih =>
    intro zk
    rw [deleteClients, Manager.deleteClients, run_bind, run_zkDelete]
    rcases Manager.zkDelete zk (clientNode item) with ⟨ret, zk₁⟩
    cases ret with
    | ok => exact ih zk₁
    | _ => rfl

theorem run_deleteContent (grayId : Bytes) : ∀ (fuel index : Nat) (zk : Zk),
    run (deleteContent grayId fuel index) zk = Manager.deleteContent grayId fuel zk index := by
  intro fuel
  induction fuel with
  | zero => exact fun _ _ => rfl
  | succ fuel ih =>
    intro index zk
    rw [deleteContent, Manager.deleteContent, run_bind, run_zkDeleteExist]
    rcases Manager.zkDeleteExist zk (contentNode grayId index) with ⟨ret, zk₁⟩
    cases ret with
    | ok => exact ih _ zk₁
    | _ => rfl

/-- The end of a commit and of a rollback alone in a session. -/
theorem run_zkGrayDeleteNotify (grayId : Bytes) :
    ∃ fuel, run (zkGrayDeleteNotify fuel grayId) zk = Manager.zkGrayDeleteNotify zk grayId := by
  rcases hget : Manager.zkGet zk (backlinkNode grayId) with ⟨ret, bl, zk₁⟩
  rcases hdel : Manager.deleteClients (getlines backlinkDelim [] bl) zk₁ with ⟨ret', zk₂⟩
  refine ⟨zk₂.tree.nodes.keys.card + 1, ?_⟩
  rw [zkGrayDeleteNotify, Manager.zkGrayDeleteNotify, run_bind, run_zkGet, hget]
  cases ret with
  | ok =>
    dsimp only
    rw [run_bind, run_deleteClients, hdel]
    cases ret' with
    | ok =>
      dsimp only
      rw [run_bind, run_deleteContent]
      rcases Manager.deleteContent grayId (zk₂.tree.nodes.keys.card + 1) zk₂ 0 with ⟨ret, zk₃⟩
      cases ret with
      | errZooNotExist =>
        dsimp only
        rw [run_bind, run_zkDelete]
        rcases Manager.zkDelete zk₃ (backlinkNode grayId) with ⟨ret, zk₄⟩
        cases ret <;> rfl
      | _ => rfl
    | _ => rfl
  | _ => rfl

/-- **A rollback alone in a session.** -/
theorem run_zkGrayRollback (grayId : Bytes) :
    ∃ fuel, run (zkGrayRollback fuel grayId) zk = Manager.zkGrayRollback zk grayId :=
  run_zkGrayDeleteNotify zk grayId

theorem run_readContent (grayId : Bytes) : ∀ (fuel index : Nat) (content : Bytes) (zk : Zk),
    run (readContent grayId fuel index content) zk = Manager.readContent grayId fuel zk index content := by
  intro fuel
  induction fuel with
  | zero => exact fun _ _ _ => rfl
  | succ fuel ih =>
    intro index content zk
    rw [readContent, Manager.readContent, run_bind, run_zooGet]
    rcases zk.zooGet (contentNode grayId index) with ⟨e | piece, zk₁⟩
    · cases e <;> rfl
    · exact ih _ _ zk₁

theorem run_zkGrayGetContent (grayId : Bytes) :
    run (zkGrayGetContent (zk.tree.nodes.keys.card + 1) grayId) zk = Manager.zkGrayGetContent zk grayId := by
  rw [zkGrayGetContent, Manager.zkGrayGetContent, run_bind, run_readContent]
  rcases Manager.readContent grayId (zk.tree.nodes.keys.card + 1) zk 0 [] with ⟨_ | content, zk₁⟩ <;> rfl

theorem run_commitNodes : ∀ (nodes : List (Bytes × Bytes)) (zk : Zk),
    run (commitNodes nodes) zk = Manager.commitNodes nodes zk := by
  intro nodes
  induction nodes with
  | nil => exact fun _ => rfl
  | cons pv nodes ih =>
    intro zk
    obtain ⟨path, value⟩ := pv
    rw [commitNodes, Manager.commitNodes, run_bind, run_zkNodeSet]
    rcases Manager.zkNodeSet zk path value with ⟨ret, zk₁⟩
    cases ret with
    | ok => exact ih zk₁
    | _ => rfl

/-- **A commit alone in a session.** -/
theorem run_zkGrayCommit (grayId : Bytes) :
    ∃ fuel fuel', run (zkGrayCommit fuel fuel' grayId) zk = Manager.zkGrayCommit zk grayId := by
  rcases hget : Manager.zkGrayGetContent zk grayId with ⟨nodes, zk₁⟩
  obtain ⟨fuel', hfuel⟩ := run_zkGrayDeleteNotify (Manager.commitNodes (nodes.getD []) zk₁).2 grayId
  refine ⟨zk.tree.nodes.keys.card + 1, fuel', ?_⟩
  rw [zkGrayCommit, Manager.zkGrayCommit, run_bind, run_zkGrayGetContent, hget]
  cases nodes with
  | none => rfl
  | some nodes =>
    dsimp only
    rw [run_bind, run_commitNodes]
    rw [Option.getD_some] at hfuel
    rcases hc : Manager.commitNodes nodes zk₁ with ⟨ret, zk₂⟩
    rw [hc] at hfuel
    cases ret with
    | ok => exact hfuel
    | _ => rfl

end

end QConf.Program
