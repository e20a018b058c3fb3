import QConf.Agent.Overrides
import QConf.Manager.Interleaving

/-!
# Agents and managers at the same time

Any number of managers begin, commit and roll back gray releases while any number of agents
read them.  All requests interleave, each may fail or get lost, a process may stop at any
point, and others change the rest of the tree.

* `releases_stay_whole`: whenever a notify node is there, it points at a release that is there as
  a whole.
* `agents_read_whole_releases`: what an agent takes over, however its reads fall between the writes
  of the managers, is one whole release that was begun for its host; or it sees that there is none.
-/

namespace QConf.Program

open Zoo Gray

/-! ### The agent as a program -/

def zkGetNode (path : Bytes) : Zoo (Ret × Bytes) :=
  zooGet path >>= fun
    | .ok d => .done (.ok, d)
    | .error .noNode => .done (.nodeNotExist, [])
    | .error _ => .done (.errZooFailed, [])

def readNotifyContent (fuel : Nat) (notifyId idc : Bytes) : Zoo (Ret × List (Bytes × Bytes)) :=
  if notifyId = [] then .done (.errParam, [])
  else
    readContent notifyId fuel 0 [] >>= fun
      | none => .done (.errOther, [])
      | some content =>
        match tblvalToGraynodeval content with
        | none => .done (.errOther, [])
        | some vnodes => .done (readNotifyRecords idc (sortBytes vnodes))

/-- `gray_process`, with the map `_gray_nodes`: its answer, the list `nodes` and the map. -/
def grayProcess (fuel : Nat) (host idc : Bytes) (gray : BytesMap) : Zoo (Ret × List (Bytes × Bytes) × BytesMap) :=
  if idc = [] then .done (.errParam, [], gray)
  else
    zkGetNode (notifyNode host) >>= fun
      | (.ok, notifyId) =>
        readNotifyContent fuel notifyId idc >>= fun
          | (.ok, nodes) => .done (.ok, nodes, grayNodesSet gray nodes)
          | (_, nodes) => .done (.errGrayGetNotifyContent, nodes, gray)
      | (.nodeNotExist, _) => zooExists (notifyNode host) >>= fun _ => .done (.ok, grayNodesGet gray, ∅)
      | _ => .done (.errGrayGetNotifyNode, [], gray)

section

variable (zk : Zk)

theorem run_zkGetNode (path : Bytes) : run (zkGetNode path) zk =
    (((Gray.zkGetNode zk path).1, (Gray.zkGetNode zk path).2.1), (Gray.zkGetNode zk path).2.2) := by
  rw [zkGetNode, run_bind, run_zooGet, Gray.zkGetNode]
  rcases zk.zooGet path with ⟨e | d, zk₁⟩
  · cases e <;> rfl
  · rfl

theorem run_readNotifyContent (notifyId idc : Bytes) :
    run (readNotifyContent (zk.tree.nodes.keys.card + 1) notifyId idc) zk =
      (((Gray.readNotifyContent zk notifyId idc).1, (Gray.readNotifyContent zk notifyId idc).2.1),
        (Gray.readNotifyContent zk notifyId idc).2.2) := by
  rw [readNotifyContent, Gray.readNotifyContent]
  split
  · rfl
  · rw [run_bind, run_readContent]
    rcases Manager.readContent notifyId (zk.tree.nodes.keys.card + 1) zk 0 [] with ⟨_ | content, zk₁⟩
    · rfl
    · dsimp only
      cases tblvalToGraynodeval content <;> rfl

/-- **`gray_process` alone in a session.** -/
theorem run_grayProcess (host idc : Bytes) (gray : BytesMap) : ∃ fuel,
    (run (grayProcess fuel host idc gray) zk).1 =
        ((Gray.grayProcess host (some zk) idc gray).ret, (Gray.grayProcess host (some zk) idc gray).nodes,
          (Gray.grayProcess host (some zk) idc gray).gray) ∧
      (Gray.grayProcess host (some zk) idc gray).zh = some (run (grayProcess fuel host idc gray) zk).2 := by
  rcases hget : Gray.zkGetNode zk (notifyNode host) with ⟨ret, notifyId, zk₁⟩
  refine ⟨zk₁.tree.nodes.keys.card + 1, ?_⟩
  rw [grayProcess, Gray.grayProcess]
  split
  · exact ⟨rfl, rfl⟩
  · rw [run_bind, run_zkGetNode, hget]
    cases ret with
    | ok =>
      dsimp only
      rw [run_bind, run_readNotifyContent]
      rcases Gray.readNotifyContent zk₁ notifyId idc with ⟨ret, nodes, zk₂⟩
      cases ret <;> exact ⟨rfl, rfl⟩
    | _ => exact ⟨rfl, rfl⟩

end

end QConf.Program

namespace QConf.Protocol

open RelyGuarantee
open Gray (notifyNode grayEntry grayNodesSet grayNodesGet PointsAt Reflects)
open Manager (NotifyNode grayRecords grayPairs pieceCount pathNormalize normalized)

/-! ### The agent among others -/

/-- What an agent takes over: a whole release for its host, or that there is none. -/
def Whole (book : Bytes → Option Entry) (host idc : Bytes) (gray : BytesMap)
    (out : Ret × List (Bytes × Bytes) × BytesMap) : Prop :=
  (out.1 ≠ .ok → out.2.2 = gray) ∧ (out.1 = .ok → out.2 = (grayNodesGet gray, ∅) ∨
    ∃ g e, book g = some e ∧ cStr host ∈ e.clients ∧
      out.2 = ((grayPairs e.nodes).map (grayEntry idc), grayNodesSet gray ((grayPairs e.nodes).map (grayEntry idc))))

section

variable {book : Bytes → Option Entry} {own : Bytes → Prop}

/-- The agent reads the content of an id that a begin has written for its host. -/
theorem holds_readNotifyContent {sec usec : Nat} (fuel : Nat) (idc : Bytes) :
    Holds book own (fun _ => True) (Program.readNotifyContent fuel (grayGenerateId sec usec) idc)
      (fun r _ => r.1 = .ok → ∃ e, book (grayGenerateId sec usec) = some e ∧
        r.2 = (grayPairs e.nodes).map (grayEntry idc)) := by
  rw [Program.readNotifyContent, if_neg (grayGenerateId_plain sec usec).1]
  refine Keeps.bind (holds_readContent fuel 0 [] (Or.inl ⟨rfl, rfl⟩)) fun r => ?_
  cases r with
  | none => exact Keeps.done (stable_const _) fun _ _ _ h => absurd h (by simp)
  | some content =>
    dsimp only
    cases hread : tblvalToGraynodeval content with
    | none => exact Keeps.done (stable_const _) fun _ _ _ h => absurd h (by simp)
    | some vnodes =>
      refine Keeps.done (stable_const _) fun _ _ h _ => ?_
      obtain ⟨n, hcut⟩ := h content rfl
      obtain ⟨e, he, rfl⟩ := hcut.records hread
      refine ⟨e, he, ?_⟩
      rw [Gray.readNotifyRecords_map e.fits]

/-- **`gray_process` among other processes.** -/
theorem holds_grayProcess (hids : ∀ g e, book g = some e → ∃ sec usec, g = grayGenerateId sec usec)
    (fuel : Nat) (host idc : Bytes) (gray : BytesMap) :
    Holds book own (fun _ => True) (Program.grayProcess fuel host idc gray)
      (fun out _ => Whole book host idc gray out) := by
  have hfail : ∀ {φ : Prop} {ret : Ret} {nodes : List (Bytes × Bytes)}, ret ≠ .ok →
      Holds book own (fun _ => φ) (.done (ret, nodes, gray)) (fun out _ => Whole book host idc gray out) :=
    fun hret => Keeps.done (stable_const _) fun _ _ _ => ⟨fun _ => rfl, fun h => absurd h hret⟩
  rw [Program.grayProcess]
  split
  · exact hfail (by simp)
  -- the notify node is a client node of a release
  have hget : Holds book own (fun _ => True) (Program.zkGetNode (notifyNode host))
      (fun r _ => r.1 = .ok → ∃ e, book r.2 = some e ∧ cStr host ∈ e.clients) := by
    refine Keeps.bind (Q := fun r _ => ∀ d, r = .ok d → ∃ e, book d = some e ∧ cStr host ∈ e.clients)
      (holds_request firm_true (fun _ => stable_const _) fun w r w' hi _ hs hl => ?_) fun r => ?_
    · obtain ⟨ht, hok, -⟩ := serves_get hs
      rw [Gray.cStr_notifyNode] at hok
      refine ⟨within_same hi hl ht, fun d hd => ?_⟩
      obtain ⟨e, he, hc, -⟩ := hi.client (cStr host) d (hok d hd)
      exact ⟨e, he, hc⟩
    · rcases r with e | d
      · cases e <;> exact Keeps.done (stable_const _) fun _ _ _ h => absurd h (by simp)
      · exact Keeps.done (stable_const _) fun _ _ h _ => h d rfl
  refine Keeps.bind hget fun r => ?_
  obtain ⟨ret, notifyId⟩ := r
  cases ret with
  | ok =>
    refine Keeps.weaken (Keeps.of_imp (P := fun _ => True) (fun hr => ?_) firm_true) (stable_const _)
      (fun _ _ h => ⟨h, trivial⟩) (fun _ _ _ h => h)
    obtain ⟨e, he, hc⟩ := hr rfl
    obtain ⟨sec, usec, hid⟩ := hids _ e he
    dsimp only at he hid ⊢
    subst hid
    refine Keeps.bind (holds_readNotifyContent fuel idc) fun r => ?_
    obtain ⟨ret, nodes⟩ := r
    cases ret with
    | ok =>
      refine Keeps.done (stable_const _) fun _ _ h => ⟨fun hne => absurd rfl hne, fun _ => Or.inr ?_⟩
      obtain ⟨e', he', hnodes⟩ := h rfl
      obtain rfl := Option.some.inj (he.symm.trans he')
      dsimp only at hnodes
      exact ⟨_, e, he, hc, by rw [hnodes]⟩
    | _ => exact hfail (by simp)
  | nodeNotExist =>
    refine Keeps.bind (Q := fun _ _ => True) (holds_request (stable_const _) (fun _ => firm_true)
      fun w r w' hi _ hs hl => ⟨within_same hi hl (serves_exist hs), trivial⟩) fun _ => ?_
    exact Keeps.done firm_true fun _ _ _ => ⟨fun hne => absurd rfl hne, fun _ => Or.inl rfl⟩
  | _ => exact hfail (by simp)

end

/-! ### All together -/

/-- A call of a manager. -/
inductive Call
  | begin (rawNodes : BytesMap) (clients : List Bytes) (sec usec : Nat)
  | commit (sec usec fuel fuel' : Nat)
  | rollback (sec usec fuel : Nat)

def Call.prog : Call → Zoo Ret
  | .begin rawNodes clients sec usec => Program.zkGrayBegin rawNodes clients sec usec
  | .commit sec usec fuel fuel' => Program.zkGrayCommit fuel fuel' (grayGenerateId sec usec)
  | .rollback sec usec fuel => Program.zkGrayRollback fuel (grayGenerateId sec usec)

/-- A call of `gray_process` by an agent that holds the map `gray`. -/
structure Look where
  host : Bytes
  idc : Bytes
  gray : BytesMap
  fuel : Nat

def Look.prog (l : Look) : Zoo (Ret × List (Bytes × Bytes) × BytesMap) :=
  Program.grayProcess l.fuel l.host l.idc l.gray

section

variable {M A : Type}

/-- What the calls answer. -/
abbrev Result : M ⊕ A → Type
  | .inl _ => Ret
  | .inr _ => Ret × List (Bytes × Bytes) × BytesMap

/-- All processes at their beginnings, and a tree. -/
def start (calls : M → Call) (looks : A → Look) (t : ZkTree) : Pool Request Request.Answer World (@Result M A) where
  progs
    | .inl m => (calls m).prog
    | .inr a => (looks a).prog
  state := ⟨t, fun _ => False⟩

/-- A change that no node of a release sees. -/
def Elsewhere (w w' : World) : Prop :=
  (∀ q, NotifyNode q → w'.tree.nodes.lookup q = w.tree.nodes.lookup q) ∧ ∀ g, w'.linked g ↔ w.linked g

/-- The begins have ids of their own, and arguments that they accept. -/
structure Proper (calls : M → Call) : Prop where
  unique : ∀ m m' raw raw' clients clients' sec usec sec' usec', calls m = .begin raw clients sec usec →
    calls m' = .begin raw' clients' sec' usec' → grayGenerateId sec usec = grayGenerateId sec' usec' → m = m'
  acceptable : ∀ m raw clients sec usec, calls m = .begin raw clients sec usec → Acceptable raw clients

/-- One of the calls is a begin with this id that writes the entry. -/
def Begins (calls : M → Call) (g : Bytes) (e : Entry) : Prop :=
  ∃ m raw sec usec, calls m = .begin raw e.clients sec usec ∧ g = grayGenerateId sec usec ∧
    normalized raw = some e.nodes

open Classical in
/-- The entries of the begins. -/
noncomputable def bookOf (calls : M → Call) (g : Bytes) : Option Entry :=
  if h : ∃ e, Begins calls g e then some h.choose else none

/-- The ids for which a process writes. -/
def owns (calls : M → Call) : M ⊕ A → Bytes → Prop
  | .inl m, g => ∃ raw clients sec usec, calls m = .begin raw clients sec usec ∧ g = grayGenerateId sec usec
  | .inr _, _ => False

variable {calls : M → Call} {looks : A → Look}

theorem begins_of_bookOf {g : Bytes} {e : Entry} (h : bookOf calls g = some e) : Begins calls g e := by
  unfold bookOf at h
  split at h
  · next hex => exact Option.some.inj h ▸ hex.choose_spec
  · exact absurd h (by simp)

/-- The begin of an id writes one entry. -/
theorem bookOf_begin (hcalls : Proper calls) {m : M} {raw nodes : BytesMap} {clients : List Bytes} {sec usec : Nat}
    (hm : calls m = .begin raw clients sec usec) (hn : normalized raw = some nodes) :
    ∃ e, bookOf calls (grayGenerateId sec usec) = some e ∧ e.nodes = nodes ∧ e.clients = clients := by
  obtain ⟨e, rfl, rfl⟩ := (hcalls.acceptable m raw clients sec usec hm).entry hn
  have hex : ∃ e, Begins calls (grayGenerateId sec usec) e := ⟨e, m, raw, sec, usec, hm, rfl, hn⟩
  refine ⟨hex.choose, ?_, ?_⟩
  · unfold bookOf
    rw [dif_pos hex]
  · obtain ⟨m', raw', sec', usec', hm', hid, hn'⟩ := hex.choose_spec
    obtain rfl := hcalls.unique m m' _ _ _ _ _ _ _ _ hm hm' hid
    have heq := hm.symm.trans hm'
    injection heq with hraw hclients
    rw [← hraw, hn, Option.some.injEq] at hn'
    exact ⟨hn'.symm, hclients.symm⟩

/-- Every process keeps to what it may do. -/
theorem onTrack_start (looks : A → Look) (hcalls : Proper calls) {t : ZkTree} (ht : ∀ q ∈ t.nodes, ¬ NotifyNode q) :
    OnTrack Serves (Sound (bookOf calls)) (fun τ => Others (bookOf calls) (owns calls τ))
      (fun τ => Within (bookOf calls) (owns calls τ))
      (fun | .inl _ => fun _ _ => True
           | .inr a => fun out _ => Whole (bookOf calls) (looks a).host (looks a).idc (looks a).gray out)
      (start calls looks t) := by
  have hnone : ∀ {q v}, NotifyNode q → t.nodes.lookup q ≠ some v := fun hq hv => ht _ (ZkTree.mem_of_lookup hv) hq
  refine ⟨⟨fun c g hc => ?_, fun g j v hv => ?_, fun g v hv => ?_⟩, fun τ => ?_⟩
  · exact absurd hc (hnone (notifyNode_client (ZkTree.mem_of_lookup hc)))
  · exact absurd hv (hnone (Manager.notifyNode_contentNode g j))
  · exact absurd hv (hnone (notifyNode_backlink (ZkTree.mem_of_lookup hv)))
  · rcases τ with m | a
    · cases hm : calls m with
      | begin raw clients sec usec =>
        refine ⟨fun w => ¬ w.linked (grayGenerateId sec usec), fun h => h, ?_⟩
        have hprog : (start calls looks t).progs (.inl m) = Program.zkGrayBegin raw clients sec usec := by
          show (calls m).prog = _
          rw [hm]
          rfl
        rw [hprog]
        exact holds_zkGrayBegin ⟨raw, clients, sec, usec, hm, rfl⟩ fun nodes hn => bookOf_begin hcalls hm hn
      | commit sec usec fuel fuel' =>
        refine ⟨fun _ => True, trivial, ?_⟩
        have hprog : (start calls looks t).progs (.inl m) = Program.zkGrayCommit fuel fuel' (grayGenerateId sec usec) := by
          show (calls m).prog = _
          rw [hm]
          rfl
        rw [hprog]
        exact holds_zkGrayCommit fuel fuel' sec usec
      | rollback sec usec fuel =>
        refine ⟨fun _ => True, trivial, ?_⟩
        have hprog : (start calls looks t).progs (.inl m) =
            Program.zkGrayDeleteNotify fuel (grayGenerateId sec usec) := by
          show (calls m).prog = _
          rw [hm]
          rfl
        rw [hprog]
        exact holds_zkGrayDeleteNotify fuel sec usec
    · refine ⟨fun _ => True, trivial, holds_grayProcess (fun g e he => ?_) _ _ _ _⟩
      obtain ⟨m, raw, sec, usec, -, hid, -⟩ := begins_of_bookOf he
      exact ⟨sec, usec, hid⟩

theorem within_elsewhere {book : Bytes → Option Entry} {own : Bytes → Prop} {w w' : World} (hi : Sound book w)
    (h : Elsewhere w w') : Within book own w w' := by
  refine within_of_outside hi (fun g => ?_) h.1
  rw [h.2 g]
  refine ⟨Or.inl, fun hg => hg.elim id fun hm => ?_⟩
  obtain ⟨v, hv⟩ := Option.isSome_iff_exists.mp (Finmap.lookup_isSome.mpr hm)
  exact hi.linked_of_mem (ZkTree.mem_of_lookup ((h.1 _ (notifyNode_backlink hm)).symm.trans hv))

/-- What one process may do is what the others reckon with: no id has two writers. -/
theorem fit (hcalls : Proper calls) : Fit Elsewhere (Sound (bookOf calls))
    (fun τ : M ⊕ A => Others (bookOf calls) (owns calls τ)) (fun τ => Within (bookOf calls) (owns calls τ)) where
  inv hi h := h.sound hi
  invEnv hi h := by
    have hw : Within (bookOf calls) (fun _ => False) _ _ := within_elsewhere hi h
    exact hw.sound hi
  relyEnv hi h := within_elsewhere hi h
  rely := by
    rintro τ τ' w w' hne - h
    refine h.mono fun g hg hg' => ?_
    rcases τ' with m' | a'
    · rcases τ with m | a
      · obtain ⟨raw', clients', sec', usec', hm', hid'⟩ := hg
        obtain ⟨raw, clients, sec, usec, hm, hid⟩ := hg'
        exact hne (congrArg Sum.inl (hcalls.unique m' m _ _ _ _ _ _ _ _ hm' hm (hid'.symm.trans hid)))
      · exact hg'
    · exact hg

variable [DecidableEq M] [DecidableEq A] {t : ZkTree} {c : Pool Request Request.Answer World (@Result M A)}

/-- A notify node that is there points at a whole release. -/
theorem Sound.pointsAt {book : Bytes → Option Entry} {w : World} (hi : Sound book w) {host : Bytes} {sec usec : Nat}
    (hnode : w.tree.nodes.lookup (notifyNode host) = some (grayGenerateId sec usec)) :
    ∃ e, book (grayGenerateId sec usec) = some e ∧ cStr host ∈ e.clients ∧
      PointsAt w.tree host sec usec e.nodes ∧
      ∀ idc, idc ≠ [] → (Gray.grayProcess host (some (.quiet w.tree)) idc ∅).ret = .ok := by
  obtain ⟨e, he, hc, hall⟩ := hi.client (cStr host) _ hnode
  have hval : ∀ j < pieceCount e.content, w.tree.nodes.lookup (contentNode (grayGenerateId sec usec) j) =
      some (Manager.contentPiece e.content (j * Manager.grayContentMaxSize)) := by
    intro j hj
    obtain ⟨v, hv⟩ := Option.isSome_iff_exists.mp (Finmap.lookup_isSome.mpr (hall j hj))
    obtain ⟨e', he', -, rfl⟩ := hi.piece _ j v hv
    obtain rfl := Option.some.inj (he.symm.trans he')
    exact hv
  have hend : contentNode (grayGenerateId sec usec) (pieceCount e.content) ∉ w.tree.nodes := by
    intro hm
    obtain ⟨v, hv⟩ := Option.isSome_iff_exists.mp (Finmap.lookup_isSome.mpr hm)
    obtain ⟨e', he', hlt, -⟩ := hi.piece _ _ v hv
    obtain rfl := Option.some.inj (he.symm.trans he')
    exact Nat.lt_irrefl _ hlt
  have hread := Manager.tblvalToGraynodeval_content e.fits e.serialize
  rw [← Manager.pieces_all e.content] at hread
  refine ⟨e, he, hc, ⟨hnode, _, _, grayRecords e.nodes, hval, hend, hread, fun p v => ?_⟩, fun idc hidc => ?_⟩
  · rw [← Manager.mem_grayPairs e.fits]
    simp only [grayPairs, List.mem_map, mem_sortBytes]
  · have hget : Gray.zkGetNode (.quiet w.tree) (notifyNode host) =
        (.ok, grayGenerateId sec usec, .quiet w.tree) := by
      have hv := w.tree.valid _ (ZkTree.mem_of_lookup hnode)
      rw [Gray.zkGetNode, Manager.zooGet_quiet _ (isValidPath_nulFree hv), ZkTree.get_eq_ok.mpr hnode]
      simp only [Except.map, ZkTree.take_maxValueSize hnode]
    rw [Gray.grayProcess, if_neg hidc, hget]
    dsimp only
    rw [Gray.readNotifyContent_quiet hval hend hread, Gray.readNotifyRecords_map e.fits]

/-- **A release that is seen is whole.**  In every state that any interleaving reaches, with requests that
fail or get lost and processes that stop in the middle: if the notify node of a host is there, then a
`gray_process` of its agent at this moment succeeds, and the overrides it takes over are those of one
of the begins, and this begin names the host. -/
theorem releases_stay_whole (hcalls : Proper calls) (ht : ∀ q ∈ t.nodes, ¬ NotifyNode q)
    (hr : Runs Serves Elsewhere (start calls looks t) c) {host idc : Bytes}
    (hnode : notifyNode host ∈ c.state.tree.nodes) (hidc : idc ≠ []) :
    ∃ m raw clients sec usec nodes, calls m = .begin raw clients sec usec ∧ normalized raw = some nodes ∧
      cStr host ∈ clients ∧ (Gray.grayProcess host (some (.quiet c.state.tree)) idc ∅).ret = .ok ∧
      Reflects (Gray.grayProcess host (some (.quiet c.state.tree)) idc ∅).gray idc nodes := by
  obtain ⟨hi, -⟩ := keeps_all (fit hcalls) (onTrack_start looks hcalls ht) hr
  obtain ⟨g, hg⟩ := Option.isSome_iff_exists.mp (Finmap.lookup_isSome.mpr hnode)
  obtain ⟨e, he, -⟩ := hi.client _ g hg
  obtain ⟨m, raw, sec, usec, hm, rfl, hn⟩ := begins_of_bookOf he
  obtain ⟨e', he', hc, hpoint, hok⟩ := hi.pointsAt hg
  obtain rfl := Option.some.inj (he.symm.trans he')
  refine ⟨m, raw, e.clients, sec, usec, e.nodes, hm, hn, hc, hok idc hidc, ?_⟩
  obtain ⟨pairs, hpairs, hgray⟩ := Gray.grayProcess_reads hpoint (hok idc hidc)
  rw [hgray]
  exact Gray.reflects_of_compatible hpairs (Gray.compatible_empty idc e.nodes)

/-- **An agent reads a whole release or none.**  However the reads of a `gray_process` fall between the
requests of managers: where it fails, the overrides stay as they are; where it succeeds, it has taken over
all nodes of one of the begins, and this begin names its host, or it has found no notify node. -/
theorem agents_read_whole_releases (hcalls : Proper calls) (ht : ∀ q ∈ t.nodes, ¬ NotifyNode q)
    (hr : Runs Serves Elsewhere (start calls looks t) c) {a : A} {out : Ret × List (Bytes × Bytes) × BytesMap}
    (hdone : c.progs (.inr a) = .done out) :
    (out.1 ≠ .ok → out.2.2 = (looks a).gray) ∧
      (out.1 = .ok → out.2 = (grayNodesGet (looks a).gray, ∅) ∨
        ∃ m raw clients sec usec nodes, calls m = .begin raw clients sec usec ∧ normalized raw = some nodes ∧
          cStr (looks a).host ∈ clients ∧
          out.2 = ((grayPairs nodes).map (grayEntry (looks a).idc),
            grayNodesSet (looks a).gray ((grayPairs nodes).map (grayEntry (looks a).idc)))) := by
  obtain ⟨-, hall⟩ := keeps_all (fit hcalls) (onTrack_start looks hcalls ht) hr
  obtain ⟨hfail, hok⟩ : Whole (bookOf calls) (looks a).host (looks a).idc (looks a).gray out := hall (.inr a) out hdone
  refine ⟨hfail, fun h => (hok h).imp id ?_⟩
  rintro ⟨g, e, he, hc, hout⟩
  obtain ⟨m, raw, sec, usec, hm, -, hn⟩ := begins_of_bookOf he
  exact ⟨m, raw, e.clients, sec, usec, e.nodes, hm, hn, hc, hout⟩

end

/-! ### One manager, one agent -/

/-- The manager releases `/x` to the host `a`. -/
def oneCall (_ : Unit) : Call := .begin Manager.oneNodeMap [[97]] 1 2

theorem acceptable_oneNodeMap : Acceptable Manager.oneNodeMap [[97]] := by
  have hpath : ∀ raw ∈ Manager.oneNodeMap, raw = [slash, 120] := fun raw h => (Finmap.mem_singleton _ _ _).mp h
  have hnorm : ∀ raw ∈ Manager.oneNodeMap, ∀ p, pathNormalize raw = some p → p = [slash, 120] := by
    intro raw hr p hp
    rw [hpath raw hr] at hp
    exact (Option.some.inj hp).symm
  refine ⟨⟨?_, fun raw hr p hp => ?_, fun raw hr => ?_⟩, fun nodes hn => ?_, by decide, fun raw hr p hp => ?_⟩
  · rw [Manager.oneNodeMap, Finmap.keys_singleton]
    simp
  · rw [hnorm raw hr p hp]
    decide
  · rw [hpath raw hr]
    decide
  · rw [← Option.some.inj (Manager.normalized_oneNodeMap.symm.trans hn)]
    decide +kernel
  · rw [hnorm raw hr p hp]
    decide

theorem proper_oneCall : Proper oneCall where
  unique _ _ _ _ _ _ _ _ _ _ _ _ _ := rfl
  acceptable m raw clients sec usec h := by
    injection h with hraw hclients
    rw [← hraw, ← hclients]
    exact acceptable_oneNodeMap

theorem not_notifyNode_oneNodeTree : ∀ q ∈ Manager.oneNodeTree.nodes, ¬ NotifyNode q := by
  have hshort : ∀ q ∈ Manager.oneNodeTree.nodes.keys, q.length ≤ 2 := by decide +kernel
  intro q hq hn
  have h1 := hshort q (Finmap.mem_keys.mpr hq)
  have h2 := hn.le_length
  omega

/-- The manager comes to its end before the agent starts. -/
theorem oneCall_runs (look : Look) : ∃ progs linked, Runs Serves Elsewhere
    (start oneCall (fun _ : Unit => look) Manager.oneNodeTree) ⟨progs, ⟨Manager.oneClientBegin.2.tree, linked⟩⟩ ∧
    progs (.inr ()) = look.prog := by
  obtain ⟨linked, h⟩ := alone_run (oneCall ()).prog (.quiet Manager.oneNodeTree) (fun _ => False)
  have hrun : Zoo.run (oneCall ()).prog (.quiet Manager.oneNodeTree) = (.ok, Manager.oneClientBegin.2) :=
    (Program.run_zkGrayBegin (.quiet Manager.oneNodeTree) Manager.oneNodeMap [[97]] 1 2).trans
      Manager.oneClientBegin_eq
  rw [hrun] at h
  obtain ⟨progs, hr, -, hother⟩ := runs_of_alone (Sum.inl () : Unit ⊕ Unit) h
    (start oneCall (fun _ : Unit => look) Manager.oneNodeTree).progs rfl
  exact ⟨progs, linked, hr, hother (.inr ()) (by simp)⟩

theorem releases_stay_whole_one : ∃ c, Runs Serves Elsewhere
    (start oneCall (fun _ : Unit => ⟨[97], [66], ∅, 0⟩) Manager.oneNodeTree) c ∧
    notifyNode [97] ∈ c.state.tree.nodes ∧
    ∃ m raw clients sec usec nodes, oneCall m = .begin raw clients sec usec ∧ normalized raw = some nodes ∧
      cStr [97] ∈ clients ∧ (Gray.grayProcess [97] (some (.quiet c.state.tree)) [66] ∅).ret = .ok ∧
      Reflects (Gray.grayProcess [97] (some (.quiet c.state.tree)) [66] ∅).gray [66] nodes := by
  obtain ⟨progs, linked, hr, -⟩ := oneCall_runs ⟨[97], [66], ∅, 0⟩
  have hnode := ZkTree.mem_of_lookup Gray.oneClientBegin_pointsAt.notify
  exact ⟨_, hr, hnode, releases_stay_whole proper_oneCall not_notifyNode_oneNodeTree hr hnode (by decide)⟩

/-- The agent takes over the release of `/x`. -/
theorem agents_read_whole_one : ∃ look c out, Runs Serves Elsewhere
    (start oneCall (fun _ : Unit => look) Manager.oneNodeTree) c ∧ c.progs (.inr ()) = .done out ∧ out.1 = .ok ∧
    (out.2 = (grayNodesGet look.gray, ∅) ∨
      ∃ m raw clients sec usec nodes, oneCall m = .begin raw clients sec usec ∧ normalized raw = some nodes ∧
        cStr look.host ∈ clients ∧
        out.2 = ((grayPairs nodes).map (grayEntry look.idc),
          grayNodesSet look.gray ((grayPairs nodes).map (grayEntry look.idc)))) := by
  obtain ⟨fuel, hout, -⟩ := Program.run_grayProcess (.quiet Manager.oneClientBegin.2.tree) [97] [66] ∅
  obtain ⟨progs, linked, hr, hprog⟩ := oneCall_runs ⟨[97], [66], ∅, fuel⟩
  obtain ⟨linked', h⟩ := alone_run (Program.grayProcess fuel [97] [66] ∅) (.quiet Manager.oneClientBegin.2.tree) linked
  obtain ⟨progs', hr', hdone, -⟩ := runs_of_alone (Sum.inr () : Unit ⊕ Unit) h progs hprog
  have hret : (Zoo.run (Program.grayProcess fuel [97] [66] ∅) (.quiet Manager.oneClientBegin.2.tree)).1.1 = .ok := by
    rw [hout]
    decide +kernel
  exact ⟨⟨[97], [66], ∅, fuel⟩, _, _, hr.trans hr', hdone, hret,
    (agents_read_whole_releases proper_oneCall not_notifyNode_oneNodeTree (hr.trans hr') hdone).2 hret⟩

end QConf.Protocol
