import QConf.Base.GrayFormat
import QConf.Manager.Zk
import QConf.Zookeeper.Notify

/-!
# Gray releases, as the manager makes them

`zk_gray_begin` checks its arguments, writes the content of the release in pieces,
one node for each client and at last the backlink; `zk_gray_commit` reads the
content back and sets the nodes; `zk_gray_rollback` and the end of a commit delete
what a begin has written.  None of them undoes anything when it stops half-way.
-/

namespace QConf.Manager

/-- The character `;`, `QCONF_NOTIFY_BACKLINK_DELIM`. -/
def backlinkDelim : UInt8 := 59

/-- `QCONF_GRAY_CONTENT_MAX_SIZE`. -/
def grayContentMaxSize : Nat := 102400

/-! ### Paths -/

/-- `path_normalize`: one slash in front and none behind; `none` for the root. -/
def pathNormalize (path : Bytes) : Option Bytes :=
  let body := ((path.dropWhile (· == slash)).reverse.dropWhile (· == slash)).reverse
  if body = [] then none else some (slash :: body)

/-- A character that the pattern of `zk_path` accepts.  Inside brackets a backslash
is a character like any other. -/
def pathChar (b : UInt8) : Bool :=
  (decide (65 ≤ b) && decide (b ≤ 90)) || (decide (97 ≤ b) && decide (b ≤ 122)) ||
    (decide (48 ≤ b) && decide (b ≤ 57)) || b == 95 || b == 58 || b == slash || b == 92 || b == dot ||
    b == 45

/-- `zk_path`; `none` is any of its errors. -/
def zkPath (path : Bytes) : Option Bytes :=
  if path = [] then none
  -- `regexec` sees the C string
  else if cStr path ≠ [] ∧ (cStr path).all pathChar then pathNormalize path
  else none

/-- `zk_node_set`. -/
def zkNodeSet (zk : Zk) (node value : Bytes) : Ret × Zk :=
  match zkPath node with
  | none => (.errParam, zk)
  | some path =>
    match zkModify zk path value with
    | (.errZooNotExist, zk) => zkCreate zk path value
    | r => r

/-! ### The checks of a begin -/

/-- The loop of `zk_gray_check_nodes` over the map, whose paths are `raws`.
`insert` does not replace a value that is there. -/
def grayCheckNodes (nodes : BytesMap) : List Bytes → Zk → BytesMap → Option BytesMap × Zk
  | [], zk, newNodes => (some newNodes, zk)
  | raw :: raws, zk, newNodes =>
    match pathNormalize raw with
    | none => (none, zk)
    | some zpath =>
      match zkExist zk zpath with
      | (.ok, true, zk) =>
        let value := (nodes.lookup raw).getD []
        if maxValueSize - 100 < value.length then (none, zk)
        else grayCheckNodes nodes raws zk
          (if zpath ∈ newNodes then newNodes else newNodes.insert zpath value)
      | (_, _, zk) => (none, zk)

/-- `zk_gray_check_nodes`; `none` is any of its errors. -/
def zkGrayCheckNodes (zk : Zk) (nodes : BytesMap) : Option BytesMap × Zk :=
  if nodes.keys = ∅ then (none, zk) else grayCheckNodes nodes (sortBytes nodes.keys) zk ∅

/-- The loop of `zk_gray_check_chients`. -/
def grayCheckClients : List Bytes → Zk → Bool × Zk
  | [], zk => (true, zk)
  | client :: clients, zk =>
    match zkExist zk (clientNode client) with
    | (.ok, false, zk) => grayCheckClients clients zk
    | (_, _, zk) => (false, zk)

/-- `zk_gray_check_chients`: whether its answer is `QCONF_OK`. -/
def zkGrayCheckChients (zk : Zk) (clients : List Bytes) : Bool × Zk :=
  if clients = [] then (false, zk) else grayCheckClients clients zk

/-! ### The content -/

/-- The idc that the records of a content carry, `idc`. -/
def contentIdc : Bytes := [105, 100, 99]

/-- The record of one node. -/
def grayRecord (path value : Bytes) : Bytes :=
  nodevalToTblval (tblkeyOf dataTypeNode contentIdc path) value

def grayRecords (nodes : BytesMap) : Finset Bytes :=
  nodes.keys.image (fun path => grayRecord path ((nodes.lookup path).getD []))

/-- `gray_serialize_content`; `none` is its `QCONF_ERR_PARAM`. -/
def graySerializeContent (nodes : BytesMap) : Option Bytes :=
  if nodes.keys = ∅ then none else some (graynodevalToTblval (grayRecords nodes))

/-- `gray_deserialize_content`.  The answer of `tblval_to_nodeval` is not looked at. -/
def grayDeserializeContent (content : Bytes) : Option (List (Bytes × Bytes)) :=
  if content = [] then none
  else
    match tblvalToGraynodeval content with
    | none => none
    | some vnodes => some ((sortBytes vnodes).map (fun r =>
        ((tblvalToNodeval r).path, (tblvalToNodeval r).nodeval)))

/-! ### Begin -/

/-- A piece of the content. -/
def contentPiece (content : Bytes) (index : Nat) : Bytes := (content.drop index).take grayContentMaxSize

/-- The loop over the pieces.  `node_num` and `index` are unsigned, so at most
`2 ^ 32` nodes have names of their own; the next one would be the first again. -/
def createContent (grayId content : Bytes) : Nat → Zk → Nat → Nat → Ret × Zk
  | 0, zk, _, _ => (.errGraySetContent, zk)
  | left + 1, zk, nodeNum, index =>
    match zkCreate zk (contentNode grayId nodeNum) (contentPiece content index) with
    | (.ok, zk) =>
      let index := (index + grayContentMaxSize) % 2 ^ 32
      if index < content.length then createContent grayId content left zk (nodeNum + 1) index
      else (.ok, zk)
    | (_, zk) => (.errGraySetContent, zk)

/-- The loop over the clients. -/
def createClients (grayId : Bytes) : List Bytes → Zk → Ret × Zk
  | [], zk => (.ok, zk)
  | client :: clients, zk =>
    match zkCreate zk (clientNode client) grayId with
    | (.ok, zk) => createClients grayId clients zk
    | (_, zk) => (.errGraySetClients, zk)

/-- The content of the backlink. -/
def backlinkContent (clients : List Bytes) : Bytes := clients.flatMap (fun c => c ++ [backlinkDelim])

/-- The nodes that a begin writes once its arguments are checked. -/
def grayWrite (zk : Zk) (content : Bytes) (clients : List Bytes) (grayId : Bytes) : Ret × Zk :=
  match createContent grayId content (2 ^ 32) zk 0 0 with
  | (.ok, zk) =>
    match createClients grayId clients zk with
    | (.ok, zk) =>
      match zkCreate zk (backlinkNode grayId) (backlinkContent clients) with
      | (.ok, zk) => (.ok, zk)
      | (_, zk) => (.errGraySetBacklink, zk)
    | r => r
  | r => r

/-- `zk_gray_begin` at the time `sec` and `usec`; the gray id it hands out is
`grayGenerateId sec usec`. -/
def zkGrayBegin (zk : Zk) (rawNodes : BytesMap) (clients : List Bytes) (sec usec : Nat) : Ret × Zk :=
  match zkGrayCheckNodes zk rawNodes with
  | (none, zk) => (.errParam, zk)
  | (some nodes, zk) =>
    match zkGrayCheckChients zk clients with
    | (false, zk) => (.errParam, zk)
    | (true, zk) =>
      match graySerializeContent nodes with
      | none => (.errGraySerialize, zk)
      | some content => grayWrite zk content clients (grayGenerateId sec usec)

/-! ### Commit and rollback -/

/-- The loop over the clients of the backlink. -/
def deleteClients : List Bytes → Zk → Ret × Zk
  | [], zk => (.ok, zk)
  | item :: items, zk =>
    match zkDelete zk (clientNode item) with
    | (.ok, zk) => deleteClients items zk
    | (_, zk) => (.errGrayDeleteClients, zk)

/-- The loop over the content nodes: the answer that ends it.  It deletes a node in
every round, so `fuel` is never used up when it starts above the number of nodes. -/
def deleteContent (grayId : Bytes) : Nat → Zk → Nat → Ret × Zk
  | 0, zk, _ => (.errOther, zk)
  | fuel + 1, zk, index =>
    match zkDeleteExist zk (contentNode grayId index) with
    | (.ok, zk) => deleteContent grayId fuel zk (index + 1)
    | r => r

/-- `zk_gray_delete_notify`. -/
def zkGrayDeleteNotify (zk : Zk) (grayId : Bytes) : Ret × Zk :=
  match zkGet zk (backlinkNode grayId) with
  | (.ok, blContent, zk) =>
    match deleteClients (getlines backlinkDelim [] blContent) zk with
    | (.ok, zk) =>
      match deleteContent grayId (zk.tree.nodes.keys.card + 1) zk 0 with
      | (.errZooNotExist, zk) =>
        match zkDelete zk (backlinkNode grayId) with
        | (.ok, zk) => (.ok, zk)
        | (_, zk) => (.errGrayDeleteBacklink, zk)
      | (_, zk) => (.errGrayDeleteContent, zk)
    | r => r
  | (_, _, zk) => (.errGrayGetBacklink, zk)

/-- `zk_gray_rollback`. -/
def zkGrayRollback (zk : Zk) (grayId : Bytes) : Ret × Zk := zkGrayDeleteNotify zk grayId

/-- The loop that reads the content nodes; `none` is an error.  Every round finds
another node, so `fuel` is never used up when it starts above their number. -/
def readContent (grayId : Bytes) : Nat → Zk → Nat → Bytes → Option Bytes × Zk
  | 0, zk, _, _ => (none, zk)
  | fuel + 1, zk, index, content =>
    match zk.zooGet (contentNode grayId index) with
    | (.ok piece, zk) => readContent grayId fuel zk (index + 1) (content ++ piece)
    | (.error .noNode, zk) => (some content, zk)
    | (.error _, zk) => (none, zk)

/-- `zk_gray_get_content`; `none` is any of its errors. -/
def zkGrayGetContent (zk : Zk) (grayId : Bytes) : Option (List (Bytes × Bytes)) × Zk :=
  match readContent grayId (zk.tree.nodes.keys.card + 1) zk 0 [] with
  | (none, zk) => (none, zk)
  | (some content, zk) => (grayDeserializeContent content, zk)

/-- The loop of `zk_gray_commit` over the nodes. -/
def commitNodes : List (Bytes × Bytes) → Zk → Ret × Zk
  | [], zk => (.ok, zk)
  | (path, value) :: nodes, zk =>
    match zkNodeSet zk path value with
    | (.ok, zk) => commitNodes nodes zk
    | (_, zk) => (.errGrayCommit, zk)

/-- `zk_gray_commit`. -/
def zkGrayCommit (zk : Zk) (grayId : Bytes) : Ret × Zk :=
  match zkGrayGetContent zk grayId with
  | (none, zk) => (.errGrayGetContent, zk)
  | (some nodes, zk) =>
    match commitNodes nodes zk with
    | (.ok, zk) => zkGrayDeleteNotify zk grayId
    | r => r

end QConf.Manager
