import QConf.Manager.Registry
import QConf.Manager.Rules
import QConf.Manager.ServiceProgram

/-!
# Service nodes while managers interleave

Several managers change the lists of service nodes at the same time; their requests interleave, any
of them may fail or get lost, and a manager may stop in the middle of a call.  A list is not
written in one request, so a list that is read may be none that anybody has set.  What is kept at
every instant (`Orderly`): whatever is under a service node is a service with a status, and then the
node is registered.  The reason is the order of the requests: a call registers the node
before it writes the first service, and nothing takes a registration back.

So a service that is in the tree is always found (`services_always_found`): reading the list of its
node at this instant succeeds and has the service in it.
-/

namespace QConf.Registry

open Manager RelyGuarantee

section

variable {md5 : Bytes → Bytes} {P : Set Bytes} {t t' : ZkTree} {p : Bytes}

/-- A value that is the text of a status. -/
def IsStatusText (v : Bytes) : Prop := ∃ status, isStatus status = true ∧ v = statusText status

/-- **The invariant.** -/
def Orderly (md5 : Bytes → Bytes) (P : Set Bytes) (t : ZkTree) : Prop :=
  ∀ p ∈ P, ∀ c v, t.nodes.lookup (servPath p c) = some v →
    slash ∉ c ∧ IsStatusText v ∧ getMonitorNode md5 p ∈ t.nodes

/-- What a process may do. -/
structure Allowed (md5 : Bytes → Bytes) (P : Set Bytes) (t t' : ZkTree) : Prop where
  registered : ∀ p ∈ P, getMonitorNode md5 p ∈ t.nodes → getMonitorNode md5 p ∈ t'.nodes
  service : ∀ p ∈ P, ∀ c v, t'.nodes.lookup (servPath p c) = some v → t.nodes.lookup (servPath p c) = some v ∨
    (slash ∉ c ∧ IsStatusText v ∧ getMonitorNode md5 p ∈ t.nodes)

theorem Allowed.refl (md5 : Bytes → Bytes) (P : Set Bytes) (t : ZkTree) : Allowed md5 P t t :=
  ⟨fun _ _ h => h, fun _ _ _ _ h => Or.inl h⟩

theorem Allowed.orderly (hi : Orderly md5 P t) (h : Allowed md5 P t t') : Orderly md5 P t' := by
  intro p hp c v hv
  rcases h.service p hp c v hv with hold | ⟨hc, hst, hreg⟩
  · obtain ⟨hc, hst, hreg⟩ := hi p hp c v hold
    exact ⟨hc, hst, h.registered p hp hreg⟩
  · exact ⟨hc, hst, h.registered p hp hreg⟩

/-! ### What one request does -/

/-- A new node, which is a service only of a registered node. -/
theorem allowed_inserted {q v : Bytes} (h : Inserted q v t t')
    (hq : ∀ p ∈ P, ∀ c, q = servPath p c → slash ∉ c ∧ IsStatusText v ∧ getMonitorNode md5 p ∈ t.nodes) :
    Allowed md5 P t t' := by
  refine ⟨fun p _ hm => ?_, fun p hp c x hx => ?_⟩
  · rw [← Finmap.lookup_isSome, h.other (fun he => h.fresh (he ▸ hm)), Finmap.lookup_isSome]
    exact hm
  · by_cases he : servPath p c = q
    · rw [he, h.self, Option.some.injEq] at hx
      exact Or.inr (hx ▸ hq p hp c he.symm)
    · exact Or.inl ((h.other he).symm.trans hx)

/-- A node less, which is no registration. -/
theorem allowed_removed {q : Bytes} (h : Removed q t t') (hq : ∀ p ∈ P, getMonitorNode md5 p ≠ q) :
    Allowed md5 P t t' := by
  refine ⟨fun p hp hm => ?_, fun p _ c x hx => ?_⟩
  · rw [← Finmap.lookup_isSome, h.other (hq p hp), Finmap.lookup_isSome]
    exact hm
  · by_cases he : servPath p c = q
    · rw [he, h.self] at hx
      exact absurd hx (by simp)
    · exact Or.inl ((h.other he).symm.trans hx)

/-- Another value, which is a status where the node is a service. -/
theorem allowed_set {q v : Bytes} (hi : Orderly md5 P t) (hm : q ∈ t.nodes)
    (h : ∀ x, t'.nodes.lookup x = if x = q then some v else t.nodes.lookup x)
    (hq : ∀ p ∈ P, ∀ c, q = servPath p c → IsStatusText v) : Allowed md5 P t t' := by
  refine ⟨fun p _ hreg => ?_, fun p hp c x hx => ?_⟩
  · rw [← Finmap.lookup_isSome, h]
    split
    · rfl
    · exact Finmap.lookup_isSome.mpr hreg
  · rw [h] at hx
    split at hx
    · next he =>
      -- the service was there before
      obtain ⟨y, hy⟩ := Option.isSome_iff_exists.mp (Finmap.lookup_isSome.mpr hm)
      obtain ⟨hc, -, hreg⟩ := hi p hp c y (he ▸ hy)
      exact Or.inr ⟨hc, Option.some.inj hx ▸ hq p hp c he.symm, hreg⟩
    · exact Or.inl hx

/-! ### Programs among others -/

/-- The program keeps `A` to `Q` among others that do what is allowed, and does so itself. -/
abbrev Holds {α : Type} (md5 : Bytes → Bytes) (P : Set Bytes) (A : ZkTree → Prop) (prog : Zoo α)
    (Q : α → ZkTree → Prop) : Prop :=
  Keeps (Program.ServesIn id fun _ _ => True) (Orderly md5 P) (Allowed md5 P) (Allowed md5 P) A prog Q

/-- An assertion that no process disturbs. -/
abbrev Firm (md5 : Bytes → Bytes) (P : Set Bytes) (A : ZkTree → Prop) : Prop :=
  Stable (Orderly md5 P) (Allowed md5 P) A

theorem firm_true : Firm md5 P (fun _ => True) := stable_const True

/-- A registration stays. -/
theorem firm_registered (hp : p ∈ P) : Firm md5 P (fun t => getMonitorNode md5 p ∈ t.nodes) :=
  fun _ _ _ _ h hm => h.registered p hp hm

/-! ### The operations -/

/-- What is allowed to all leaves an assertion that no process disturbs. -/
theorem Firm.lets {A : ZkTree → Prop} (hA : Firm md5 P A) {change : ZkTree → ZkTree → Prop}
    (h : ∀ t t', Orderly md5 P t → A t → change t t' → Allowed md5 P t t') :
    Program.Lets id (fun _ _ => True) (Orderly md5 P) (Allowed md5 P) A A change := by
  intro t t' hi ha hch _
  have hall := h t t' hi ha hch
  exact ⟨hall, hA t t' hi (hall.orderly hi) hall ha⟩

theorem Firm.idle {A : ZkTree → Prop} (hA : Firm md5 P A) :
    Program.Idle id (fun _ _ => True) (Orderly md5 P) (Allowed md5 P) A := by
  refine hA.lets fun t t' _ _ ht => ?_
  rw [show t' = t from ht]
  exact Allowed.refl md5 P t

/-- An assertion that no process disturbs is kept along. -/
theorem Holds.along {α : Type} {A F : ZkTree → Prop} {prog : Zoo α} {Q : α → ZkTree → Prop}
    (h : Holds md5 P A prog Q) (hF : Firm md5 P F) :
    Holds md5 P (fun t => A t ∧ F t) prog (fun a t => Q a t ∧ F t) :=
  h.frame hF fun _ _ hi hg hf => hF _ _ hi (hg.orderly hi) hg hf

/-- A path that is under no service node. -/
def Neutral (P : Set Bytes) (q : Bytes) : Prop := ∀ p ∈ P, ∀ c, q ≠ servPath p c

theorem Firm.dir {A : ZkTree → Prop} (hA : Firm md5 P A) (q v : Bytes) (hq : Neutral P q) :
    Program.Lets id (fun _ _ => True) (Orderly md5 P) (Allowed md5 P) A A (Inserted q v) :=
  hA.lets fun _ _ _ _ hin => allowed_inserted hin fun p hp c he => absurd he (hq p hp c)

/-- A program that is done. -/
theorem holds_done {α : Type} (a : α) : Holds md5 P (fun _ => True) (.done a : Zoo α) (fun _ _ => True) :=
  Keeps.done firm_true fun _ _ _ => trivial

theorem holds_zkExist (path : Bytes) : Holds md5 P (fun _ => True) (Program.zkExist path) (fun _ _ => True) :=
  Program.keeps_zkExist firm_true firm_true.idle path

theorem holds_zkGet (path : Bytes) : Holds md5 P (fun _ => True) (Program.zkGet path) (fun _ _ => True) := by
  refine Keeps.bind (Program.keeps_request firm_true (fun _ => firm_true)
    fun t r t' hi ha hs hl => firm_true.idle t t' hi ha (serves_get hs).1 hl) fun r => ?_
  rcases r with e | d
  · cases e <;> exact holds_done _
  · exact holds_done _

theorem holds_zkList (node : Bytes) : Holds md5 P (fun _ => True) (Program.zkList node) (fun _ _ => True) := by
  rw [Program.zkList]
  cases zkPath node with
  | none => exact holds_done _
  | some path =>
    refine Keeps.bind (Program.keeps_request firm_true (fun _ => firm_true)
      fun t r t' hi ha hs hl => firm_true.idle t t' hi ha (serves_children hs) hl) fun r => ?_
    rcases r with e | names
    · cases e <;> exact holds_done _
    · exact holds_done _

/-- `zk_delete` of what is no registration. -/
theorem holds_zkDelete {path : Bytes} (hpath : ∀ p ∈ P, getMonitorNode md5 p ≠ cStr path) :
    Holds md5 P (fun _ => True) (Program.zkDelete path) (fun _ _ => True) :=
  (Program.keeps_zkDelete firm_true firm_true firm_true.idle
    (firm_true.lets fun _ _ _ _ hrem => allowed_removed hrem hpath) fun _ _ _ _ _ _ _ => trivial).weaken firm_true
    (fun _ _ h => h) (fun _ _ _ _ => trivial)

/-- `zk_create` on the way to a service node or a registration. -/
theorem holds_zkCreate_neutral {path value : Bytes} (hdirs : ∀ q, Above q (cStr path) → Neutral P q) :
    Holds md5 P (fun _ => True) (Program.zkCreate path value) (fun _ _ => True) :=
  Program.keeps_zkCreateFuel_dirs firm_true firm_true.idle firm_true.dir _ path value hdirs

end

/-! ### The calls -/

section

variable {md5 : Bytes → Bytes} {P : Set Bytes} {p : Bytes} (hP : ServicePaths md5 P)

include hP

theorem neutral_of_above_node (hp : p ∈ P) {q : Bytes} (hq : Above q p) : Neutral P q := by
  rintro p' hp' c rfl
  obtain rfl := hP.apart p' hp' p hp ((path_above_servPath p' c).trans hq)
  exact not_servPath_above p' c hq

theorem neutral_of_above_monitor {q : Bytes} (hq : Above q (getMonitorNode md5 p)) : Neutral P q := by
  rintro p' hp' c rfl
  exact (hP.path p' hp').off_monitor p ((path_above_servPath p' c).trans hq)

/-- Two service nodes have no service in common. -/
theorem servPath_eq (hp : p ∈ P) {p' c c' : Bytes} (hp' : p' ∈ P) (h : servPath p c = servPath p' c') :
    p = p' ∧ c = c' := by
  have hpp : p = p' := by
    rcases (path_above_servPath p c).total (h ▸ path_above_servPath p' c') with ha | ha
    · exact hP.apart p hp p' hp' ha
    · exact (hP.apart p' hp' p hp ha).symm
  subst hpp
  exact ⟨rfl, servPath_inj h⟩

theorem cStr_servPath (hp : p ∈ P) (c : Bytes) : cStr (servPath p c) = servPath p (cStr c) := by
  rw [servPath, cStr_append, if_pos (isValidPath_nulFree (hP.path p hp).valid)]
  rfl

theorem holds_zkMonitorNodeCreate (hp : p ∈ P) : Holds md5 P (fun _ => True) (Program.zkMonitorNodeCreate md5 p)
    (fun ret t => ret = .ok → getMonitorNode md5 p ∈ t.nodes) := by
  have hreg : Firm md5 P (fun t => getMonitorNode md5 p ∈ t.nodes) := firm_registered hp
  have hcstr : cStr (getMonitorNode md5 p) = getMonitorNode md5 p :=
    cStr_of_nulFree (isValidPath_nulFree (getMonitorNode_valid (hP.path p hp).digest))
  have hneutral : ∀ q, Above q (getMonitorNode md5 p) → Neutral P q := fun q hq => neutral_of_above_monitor hP hq
  have hcreate : Holds md5 P (fun _ => True) (Program.zkCreate (getMonitorNode md5 p) p)
      (fun ret t => (ret = .ok → getMonitorNode md5 p ∈ t.nodes) ∧
        (ret = .errZooAlreadyExist → getMonitorNode md5 p ∈ t.nodes)) := by
    refine Program.keeps_zkCreateFuel firm_true hreg hreg firm_true.idle firm_true.dir (fun q hq => ?_)
      (fun t t' hi ha hin hl => ?_) (fun t _ _ hm => ?_) hreg.idle _
    · have ha := hq.trans (above_parentNode _)
      rw [hcstr] at ha
      exact hneutral q ha
    · rw [hcstr] at hin
      exact ⟨(firm_true.dir _ _ (hneutral _ (Above.refl _)) t t' hi ha hin hl).1, ZkTree.mem_of_lookup hin.self⟩
    · rw [hcstr] at hm
      exact hm
  refine Keeps.bind hcreate fun ret => ?_
  have hst : Firm md5 P (fun t => (ret = .ok → getMonitorNode md5 p ∈ t.nodes) ∧
      (ret = .errZooAlreadyExist → getMonitorNode md5 p ∈ t.nodes)) :=
    (Program.Stable.imp hreg _).and (Program.Stable.imp hreg _)
  cases ret with
  | errZooAlreadyExist => exact Keeps.done hst fun _ _ h _ => h.2 rfl
  | ok => exact Keeps.done hst fun _ _ h _ => h.1 rfl
  | _ => exact Keeps.done hst fun _ _ _ h => absurd h (by simp)

/-- **Adding a service** writes it to a node that is registered. -/
theorem holds_zkServiceAdd (hp : p ∈ P) {node serv : Bytes} {status : Int} (hnode : zkPath node = some p)
    (hserv : Named p serv) : Holds md5 P (fun _ => True) (Program.zkServiceAdd md5 node serv status)
      (fun ret t => ret = .ok → getMonitorNode md5 p ∈ t.nodes) := by
  have hreg : Firm md5 P (fun t => getMonitorNode md5 p ∈ t.nodes) := firm_registered hp
  rw [Program.zkServiceAdd, hnode]
  dsimp only
  split
  · next hcheck =>
    have htext : IsStatusText (integerToString status.toNat) := ⟨status, (Bool.and_eq_true_iff.mp hcheck).2, rfl⟩
    have hcstr : cStr (servPath p serv) = servPath p serv := cStr_of_nulFree (isValidPath_nulFree hserv.2)
    refine Keeps.bind (holds_zkMonitorNodeCreate hP hp) fun ret => ?_
    have hst := Program.Stable.imp hreg (ret = .ok)
    cases ret with
    | ok =>
      refine Keeps.weaken ?_ hst (fun _ _ h => h rfl) (fun _ _ _ h => h)
      refine Keeps.bind (Program.keeps_zkModify hreg hreg.idle (hreg.lets fun t t' hi _ hset => ?_)) fun ret => ?_
      · exact allowed_set hi hset.1 hset.2 fun _ _ _ _ => htext
      · cases ret with
        | errZooNotExist =>
          refine (Program.keeps_zkCreateFuel hreg hreg firm_true hreg.idle hreg.dir (fun q hq => ?_)
            (hreg.lets fun t t' _ hm hin => ?_) (fun _ _ _ _ => trivial) firm_true.idle _).weaken hreg
            (fun _ _ h => h) (fun _ _ _ h => h.1)
          · rw [parentNode, servPath, splitLast_append hserv.1,
              cStr_of_nulFree (isValidPath_nulFree (hP.path p hp).valid)] at hq
            exact neutral_of_above_node hP hp hq
          · rw [hcstr] at hin
            refine allowed_inserted hin fun p' hp' c he => ?_
            obtain ⟨rfl, rfl⟩ := servPath_eq hP hp hp' he
            exact ⟨hserv.1, htext, hm⟩
        | _ => exact Keeps.done hreg fun _ _ h _ => h
    | _ => exact Keeps.done hst fun _ _ _ h => absurd h (by simp)
  · exact Keeps.done firm_true fun _ _ _ h => absurd h (by simp)

theorem holds_addServices (hp : p ∈ P) : ∀ pairs : List (Bytes × Int), (∀ x ∈ pairs, Named p x.1) →
    Holds md5 P (fun _ => True) (Program.addServices md5 p pairs) (fun _ _ => True) := by
  intro pairs
  induction pairs with
  | nil => exact fun _ => holds_done _
  | cons x pairs ih =>
    intro hnamed
    obtain ⟨serv, status⟩ := x
    refine Keeps.bind (holds_zkServiceAdd hP hp (hP.path p hp).normal (hnamed _ List.mem_cons_self)) fun ret => ?_
    have hreg : Firm md5 P (fun t => getMonitorNode md5 p ∈ t.nodes) := firm_registered hp
    have hst := Program.Stable.imp hreg (ret = .ok)
    refine Keeps.weaken ?_ hst (fun _ _ _ => trivial) (fun _ _ _ h => h)
    cases ret with
    | ok => exact ih fun y hy => hnamed y (List.mem_cons_of_mem _ hy)
    | _ => exact holds_done _

/-- A service is no registration. -/
theorem monitor_ne_servPath (hp : p ∈ P) (c q : Bytes) : getMonitorNode md5 q ≠ cStr (servPath p c) := by
  rw [cStr_servPath hP hp]
  exact fun he => (hP.path p hp).off_monitor q (he ▸ path_above_servPath p (cStr c))

theorem holds_deleteServices (hp : p ∈ P) : ∀ servs : List Bytes,
    Holds md5 P (fun _ => True) (Program.deleteServices p servs) (fun _ _ => True) := by
  intro servs
  induction servs with
  | nil => exact holds_done _
  | cons serv servs ih =>
    refine Keeps.bind (holds_zkDelete fun q _ => monitor_ne_servPath hP hp serv q) fun ret => ?_
    cases ret with
    | ok => exact ih
    | _ => exact holds_done _

theorem holds_oldServices (hp : p ∈ P) :
    Holds md5 P (fun _ => True) (Program.oldServices p) (fun _ _ => True) := by
  refine Keeps.bind (holds_zkList p) fun r => ?_
  obtain ⟨ret, old⟩ := r
  cases ret with
  | errZooNotExist =>
    refine Keeps.bind (holds_zkCreate_neutral fun q hq => neutral_of_above_node hP hp ?_) fun ret => holds_done _
    rw [cStr_of_nulFree (isValidPath_nulFree (hP.path p hp).valid)] at hq
    exact hq
  | _ => exact holds_done _

/-- **Setting a list.** -/
theorem holds_zkServicesSet (hp : p ∈ P) {node : Bytes} {servs : Services} (hnode : zkPath node = some p)
    (hnamed : ∀ serv ∈ servs, Named p serv) : Holds md5 P (fun _ => True) (Program.zkServicesSet md5 node servs)
      (fun ret t => ret = .ok → getMonitorNode md5 p ∈ t.nodes) := by
  have hreg : Firm md5 P (fun t => getMonitorNode md5 p ∈ t.nodes) := firm_registered hp
  have hbad : ∀ {ret : Ret}, ret ≠ .ok → Holds md5 P (fun _ => True) (.done ret : Zoo Ret)
      (fun ret t => ret = .ok → getMonitorNode md5 p ∈ t.nodes) :=
    fun hne => Keeps.done firm_true fun _ _ _ h => absurd h hne
  rw [Program.zkServicesSet, hnode]
  dsimp only
  split
  · exact hbad (by simp)
  split
  · exact hbad (by simp)
  refine Keeps.bind (holds_zkMonitorNodeCreate hP hp) fun ret => ?_
  have hst := Program.Stable.imp hreg (ret = .ok)
  cases ret with
  | ok =>
    -- the registration is kept along the three stages
    refine Keeps.weaken (Holds.along (A := fun _ => True) (Q := fun _ _ => True) ?_ hreg) hst
      (fun _ _ h => ⟨trivial, h rfl⟩) (fun _ _ _ h _ => h.2)
    refine Keeps.bind (holds_oldServices hP hp) fun r => ?_
    obtain ⟨ret, old⟩ := r
    cases ret with
    | ok =>
      refine Keeps.bind (holds_addServices hP hp _ fun x hx => ?_) fun ret => ?_
      · exact hnamed x.1 (Finmap.mem_iff.mpr ⟨x.2, mem_pairsOf.mp hx⟩)
      · cases ret with
        | ok => exact holds_deleteServices hP hp _
        | _ => exact holds_done _
    | _ => exact holds_done _
  | _ => exact Keeps.done hst fun _ _ _ h => absurd h (by simp)

omit hP in
theorem holds_checkNodeType (path : Bytes) :
    Holds md5 P (fun _ => True) (Program.checkNodeType md5 path) (fun _ _ => True) := by
  refine Keeps.bind (holds_zkExist _) fun r => ?_
  obtain ⟨ret, exist⟩ := r
  cases ret with
  | ok => exact holds_done _
  | _ => exact holds_done _

omit hP in
theorem holds_onServices {node : Bytes} {call : Bytes → Zoo Ret} (hnode : zkPath node = some p)
    (hcall : Holds md5 P (fun _ => True) (call p) (fun _ _ => True)) :
    Holds md5 P (fun _ => True) (Program.onServices md5 node call) (fun _ _ => True) := by
  rw [Program.onServices, hnode]
  refine Keeps.bind (holds_checkNodeType p) fun r => ?_
  rcases r with ret | exist
  · exact holds_done _
  · cases exist with
    | false => exact holds_done _
    | true => exact hcall

theorem holds_zkServiceDelete (hp : p ∈ P) {node : Bytes} (serv : Bytes) (hnode : zkPath node = some p) :
    Holds md5 P (fun _ => True) (Program.zkServiceDelete md5 node serv) (fun _ _ => True) :=
  holds_onServices hnode (holds_zkDelete fun q _ => monitor_ne_servPath hP hp serv q)

theorem holds_zkServiceClear (hp : p ∈ P) {node : Bytes} (hnode : zkPath node = some p) :
    Holds md5 P (fun _ => True) (Program.zkServiceClear md5 node) (fun _ _ => True) := by
  refine holds_onServices hnode (Keeps.bind (holds_zkList p) fun r => ?_)
  obtain ⟨ret, servs⟩ := r
  cases ret with
  | ok => exact holds_deleteServices hP hp _
  | _ => exact holds_done _

omit hP in
/-- Setting a status: a service that is there is one of a registered node. -/
theorem holds_zkServiceModify {node : Bytes} (status : Status) (serv : Bytes) (hnode : zkPath node = some p) :
    Holds md5 P (fun _ => True) (Program.zkServiceModify md5 status node serv) (fun _ _ => True) := by
  have htext : IsStatusText (integerToString status.code.toNat) := ⟨status.code, by cases status <;> rfl, rfl⟩
  refine holds_onServices hnode (Program.keeps_zkModify firm_true firm_true.idle ?_)
  exact firm_true.lets fun t t' hi _ hset => allowed_set hi hset.1 hset.2 fun _ _ _ _ => htext

theorem holds_zkNodeSet (hp : p ∈ P) {node value : Bytes} (hnode : zkPath node = some p) :
    Holds md5 P (fun _ => True) (Program.zkNodeSet node value) (fun _ _ => True) := by
  have hcstr : cStr p = p := cStr_of_nulFree (isValidPath_nulFree (hP.path p hp).valid)
  rw [Program.zkNodeSet, hnode]
  refine Keeps.bind (Program.keeps_zkModify firm_true firm_true.idle (firm_true.lets fun t t' hi _ hset => ?_))
    fun ret => ?_
  · refine allowed_set hi hset.1 hset.2 fun p' hp' c he => ?_
    rw [hcstr] at he
    exact absurd he (neutral_of_above_node hP hp (Above.refl p) p' hp' c)
  · cases ret with
    | errZooNotExist =>
      refine holds_zkCreate_neutral fun q hq => ?_
      rw [hcstr] at hq
      exact neutral_of_above_node hP hp hq
    | _ => exact holds_done _

theorem holds_zkNodeDelete (hp : p ∈ P) {node : Bytes} (hnode : zkPath node = some p) :
    Holds md5 P (fun _ => True) (Program.zkNodeDelete node) (fun _ _ => True) := by
  rw [Program.zkNodeDelete, hnode]
  refine holds_zkDelete fun q _ he => ?_
  rw [cStr_of_nulFree (isValidPath_nulFree (hP.path p hp).valid)] at he
  exact monitor_not_above_node (hP.path p hp) q (Or.inl he)

omit hP in
theorem holds_zkServicesGet (node : Bytes) :
    Holds md5 P (fun _ => True) (Program.zkServicesGet md5 node) (fun _ _ => True) := by
  rw [Program.zkServicesGet]
  cases zkPath node with
  | none => exact holds_done _
  | some path =>
    refine Keeps.bind (holds_checkNodeType path) fun r => ?_
    rcases r with ret | exist
    · exact holds_done _
    · cases exist with
      | false => exact holds_done _
      | true => exact holds_zkList path

omit hP in
theorem holds_zkServiceStatusGet (path : Bytes) :
    Holds md5 P (fun _ => True) (Program.zkServiceStatusGet path) (fun _ _ => True) := by
  refine Keeps.bind (holds_zkGet path) fun r => ?_
  obtain ⟨ret, buf⟩ := r
  cases ret with
  | ok =>
    dsimp only
    cases stringToInteger buf with
    | ok value => exact holds_done _
    | error e => exact holds_done _
  | _ => exact holds_done _

omit hP in
theorem holds_readStatuses (path : Bytes) : ∀ (names : List Bytes) (servs : Services),
    Holds md5 P (fun _ => True) (Program.readStatuses path names servs) (fun _ _ => True) := by
  intro names
  induction names with
  | nil => exact fun _ => holds_done _
  | cons name names ih =>
    intro servs
    refine Keeps.bind (holds_zkServiceStatusGet _) fun r => ?_
    rcases r with e | s
    · exact holds_done _
    · exact ih _

omit hP in
theorem holds_zkServicesGetWithStatus (node : Bytes) :
    Holds md5 P (fun _ => True) (Program.zkServicesGetWithStatus md5 node) (fun _ _ => True) := by
  rw [Program.zkServicesGetWithStatus]
  cases zkPath node with
  | none => exact holds_done _
  | some path =>
    refine Keeps.bind (holds_checkNodeType path) fun r => ?_
    rcases r with ret | exist
    · exact holds_done _
    · cases exist with
      | false => exact holds_done _
      | true =>
        refine Keeps.bind (holds_zkServicesGet path) fun r => ?_
        obtain ⟨ret, nodes⟩ := r
        cases ret with
        | ok => exact holds_readStatuses path _ ∅
        | _ => exact holds_done _

end

/-! ### All calls -/

/-- The program of a call. -/
def Call.prog (md5 : Bytes → Bytes) : Call → Zoo Answer
  | set node servs => Program.zkServicesSet md5 node servs >>= fun ret => .done (.code ret)
  | add node serv status => Program.zkServiceAdd md5 node serv status >>= fun ret => .done (.code ret)
  | delete node serv => Program.zkServiceDelete md5 node serv >>= fun ret => .done (.code ret)
  | clear node => Program.zkServiceClear md5 node >>= fun ret => .done (.code ret)
  | up node serv => Program.zkServiceModify md5 .up node serv >>= fun ret => .done (.code ret)
  | down node serv => Program.zkServiceModify md5 .down node serv >>= fun ret => .done (.code ret)
  | offline node serv => Program.zkServiceModify md5 .offline node serv >>= fun ret => .done (.code ret)
  | nodeSet node value => Program.zkNodeSet node value >>= fun ret => .done (.code ret)
  | nodeDelete node => Program.zkNodeDelete node >>= fun ret => .done (.code ret)
  | names node => Program.zkServicesGet md5 node >>= fun r => .done (.names r.1 r.2)
  | statuses node => Program.zkServicesGetWithStatus md5 node >>= fun r => .done (.statuses r.1 r.2)

/-- Alone in a session the program is the call. -/
theorem run_prog (md5 : Bytes → Bytes) (c : Call) (zk : Zk) : (c.prog md5).run zk = c.exec md5 zk := by
  cases c with
  | set node servs => rw [Call.prog, Zoo.run_bind, Program.run_zkServicesSet]; rfl
  | add node serv status => rw [Call.prog, Zoo.run_bind, Program.run_zkServiceAdd]; rfl
  | delete node serv => rw [Call.prog, Zoo.run_bind, Program.run_zkServiceDelete]; rfl
  | clear node => rw [Call.prog, Zoo.run_bind, Program.run_zkServiceClear]; rfl
  | up node serv => rw [Call.prog, Zoo.run_bind, Program.run_zkServiceModify]; rfl
  | down node serv => rw [Call.prog, Zoo.run_bind, Program.run_zkServiceModify]; rfl
  | offline node serv => rw [Call.prog, Zoo.run_bind, Program.run_zkServiceModify]; rfl
  | nodeSet node value => rw [Call.prog, Zoo.run_bind, Program.run_zkNodeSet]; rfl
  | nodeDelete node => rw [Call.prog, Zoo.run_bind, Program.run_zkNodeDelete]; rfl
  | names node => rw [Call.prog, Zoo.run_bind, Program.run_zkServicesGet]; rfl
  | statuses node => rw [Call.prog, Zoo.run_bind, Program.run_zkServicesGetWithStatus]; rfl

/-- A node that is no path is refused before any request. -/
theorem prog_refused (md5 : Bytes → Bytes) (c : Call) (hnode : zkPath c.node = none) : c.prog md5 = .done c.refused := by
  cases c with
  | set node servs => rw [Call.prog, Program.zkServicesSet, show zkPath node = none from hnode]; rfl
  | add node serv status => rw [Call.prog, Program.zkServiceAdd, show zkPath node = none from hnode]; rfl
  | delete node serv =>
    rw [Call.prog, Program.zkServiceDelete, Program.onServices, show zkPath node = none from hnode]; rfl
  | clear node => rw [Call.prog, Program.zkServiceClear, Program.onServices, show zkPath node = none from hnode]; rfl
  | up node serv => rw [Call.prog, Program.zkServiceModify, Program.onServices, show zkPath node = none from hnode]; rfl
  | down node serv =>
    rw [Call.prog, Program.zkServiceModify, Program.onServices, show zkPath node = none from hnode]; rfl
  | offline node serv =>
    rw [Call.prog, Program.zkServiceModify, Program.onServices, show zkPath node = none from hnode]; rfl
  | nodeSet node value => rw [Call.prog, Program.zkNodeSet, show zkPath node = none from hnode]; rfl
  | nodeDelete node => rw [Call.prog, Program.zkNodeDelete, show zkPath node = none from hnode]; rfl
  | names node => rw [Call.prog, Program.zkServicesGet, show zkPath node = none from hnode]; rfl
  | statuses node => rw [Call.prog, Program.zkServicesGetWithStatus, show zkPath node = none from hnode]; rfl

/-- The calls behind which a node is registered. -/
def Call.registers : Call → Bool
  | set _ _ | add _ _ _ => true
  | _ => false

section

variable {md5 : Bytes → Bytes} {P : Set Bytes} {t : ZkTree} {p : Bytes}

/-- What a call promises. -/
def Call.Promise (md5 : Bytes → Bytes) (c : Call) (a : Answer) (t : ZkTree) : Prop :=
  c.registers = true → a = .code .ok → ∀ p, zkPath c.node = some p → getMonitorNode md5 p ∈ t.nodes

/-- A call that promises nothing. -/
theorem holds_answer {α : Type} {prog : Zoo α} {f : α → Answer} {c : Call} (hc : c.registers = false)
    (h : Holds md5 P (fun _ => True) prog (fun _ _ => True)) :
    Holds md5 P (fun _ => True) (prog >>= fun r => .done (f r)) (c.Promise md5) :=
  Keeps.bind h fun _ => Keeps.done firm_true fun _ _ _ h => absurd (hc.symm.trans h) (by simp)

/-- A call that registers a node. -/
theorem holds_code (hp : p ∈ P) {prog : Zoo Ret} {c : Call} (hnode : zkPath c.node = some p)
    (h : Holds md5 P (fun _ => True) prog (fun ret t => ret = .ok → getMonitorNode md5 p ∈ t.nodes)) :
    Holds md5 P (fun _ => True) (prog >>= fun ret => .done (.code ret)) (c.Promise md5) := by
  refine Keeps.bind h fun ret => Keeps.done (Program.Stable.imp (firm_registered hp) _) fun t _ hm _ ha q hq => ?_
  obtain rfl := Option.some.inj (hnode.symm.trans hq)
  exact hm (by injection ha)

/-- **Every call keeps to what is allowed.** -/
theorem holds_prog (hP : ServicePaths md5 P) (c : Call) (hc : ∀ p, zkPath c.node = some p → p ∈ P ∧ c.Proper p) :
    Holds md5 P (fun _ => True) (c.prog md5) (c.Promise md5) := by
  cases hnode : zkPath c.node with
  | none =>
    rw [prog_refused md5 c hnode]
    exact Keeps.done firm_true fun _ _ _ _ _ q hq => absurd (hnode.symm.trans hq) (by simp)
  | some p =>
    obtain ⟨hp, hproper⟩ := hc p hnode
    cases c with
    | set node servs => exact holds_code hp hnode (holds_zkServicesSet hP hp hnode hproper)
    | add node serv status => exact holds_code hp hnode (holds_zkServiceAdd hP hp hnode hproper)
    | delete node serv => exact holds_answer rfl (holds_zkServiceDelete hP hp serv hnode)
    | clear node => exact holds_answer rfl (holds_zkServiceClear hP hp hnode)
    | up node serv => exact holds_answer rfl (holds_zkServiceModify .up serv hnode)
    | down node serv => exact holds_answer rfl (holds_zkServiceModify .down serv hnode)
    | offline node serv => exact holds_answer rfl (holds_zkServiceModify .offline serv hnode)
    | nodeSet node value => exact holds_answer rfl (holds_zkNodeSet hP hp hnode)
    | nodeDelete node => exact holds_answer rfl (holds_zkNodeDelete hP hp hnode)
    | names node => exact holds_answer rfl (holds_zkServicesGet node)
    | statuses node => exact holds_answer rfl (holds_zkServicesGetWithStatus node)

/-! ### What is read at any instant -/

/-- A finite map with given keys. -/
theorem exists_services (S : Finset Bytes) (f : Bytes → Int) :
    ∃ m : Services, ∀ c, m.lookup c = if c ∈ S then some (f c) else none := by
  induction S using Finset.induction_on with
  | empty => exact ⟨∅, fun c => by simp⟩
  | insert a S ha ih =>
    obtain ⟨m, hm⟩ := ih
    refine ⟨m.insert a (f a), fun c => ?_⟩
    by_cases hc : c = a
    · subst hc
      rw [Finmap.lookup_insert, if_pos (Finset.mem_insert_self c S)]
    · rw [Finmap.lookup_insert_of_ne _ hc, hm]
      exact if_congr (by rw [Finset.mem_insert, or_iff_right hc]) rfl rfl

/-- A service node that is there has a list. -/
theorem Orderly.lists (hi : Orderly md5 P t) (hP : ServicePaths md5 P) (hp : p ∈ P) (hm : p ∈ t.nodes) :
    ∃ m, Lists t p m := by
  have hpp := hP.path p hp
  have htext : ∀ c, ∃ status, ∀ v, t.nodes.lookup (servPath p c) = some v → isStatus status = true ∧ v = statusText status := by
    intro c
    cases hl : t.nodes.lookup (servPath p c) with
    | none => exact ⟨0, fun v hv => absurd hv (by simp)⟩
    | some v =>
      obtain ⟨-, ⟨status, hst, rfl⟩, -⟩ := hi p hp c v hl
      exact ⟨status, fun v' hv' => ⟨hst, (Option.some.inj hv').symm⟩⟩
  choose f hf using htext
  obtain ⟨m, hlookup⟩ := exists_services (t.children p) f
  have hiff : ∀ c, c ∈ t.children p ↔ servPath p c ∈ t.nodes := by
    intro c
    rw [mem_children_iff hpp.ne_nil hpp.ne_root]
    refine and_iff_right_of_imp fun hc => ?_
    obtain ⟨v, hv⟩ := Option.isSome_iff_exists.mp (Finmap.lookup_isSome.mpr hc)
    exact (hi p hp c v hv).1
  refine ⟨m, hm, fun c st hc => ?_, fun c => ?_⟩
  · rw [hlookup] at hc
    split at hc
    · next hin =>
      obtain ⟨v, hv⟩ := Option.isSome_iff_exists.mp (Finmap.lookup_isSome.mpr ((hiff c).mp hin))
      rw [← Option.some.inj hc]
      exact ⟨(hi p hp c v hv).1, (hf c v hv).1⟩
    · exact absurd hc (by simp)
  · rw [hlookup]
    split
    · next hin =>
      obtain ⟨v, hv⟩ := Option.isSome_iff_exists.mp (Finmap.lookup_isSome.mpr ((hiff c).mp hin))
      rw [hv, (hf c v hv).2]
      rfl
    · next hout => exact Finmap.lookup_eq_none.mpr fun hc => hout ((hiff c).mpr hc)

/-- A service that is in the tree is in the list that is read. -/
theorem Orderly.found (hi : Orderly md5 P t) (hP : ServicePaths md5 P) (hp : p ∈ P) {serv v : Bytes}
    (hv : t.nodes.lookup (servPath p serv) = some v) :
    ∃ m status, zkServicesGetWithStatus md5 (.quiet t) p = (.ok, m, .quiet t) ∧ m.lookup serv = some status ∧
      isStatus status = true ∧ v = statusText status := by
  have hpp := hP.path p hp
  obtain ⟨-, -, hreg⟩ := hi p hp serv v hv
  have hm : p ∈ t.nodes := above_mem _ p (ZkTree.mem_of_lookup hv) (path_above_servPath p serv) hpp.ne_nil
  obtain ⟨m, hlists⟩ := hi.lists hP hp hm
  have hshown : Shown md5 t p ⟨true, some m⟩ := shown_some (iff_of_true hreg rfl) hlists
  have hbelow := hlists.below serv
  rw [hv] at hbelow
  cases hs : m.lookup serv with
  | none =>
    rw [hs] at hbelow
    exact absurd hbelow (by simp)
  | some status =>
    rw [hs] at hbelow
    exact ⟨m, status, hshown.servicesGetWithStatus hpp hpp.normal, hs, (hlists.names serv status hs).2,
      Option.some.inj hbelow⟩

/-! ### Any interleaving -/

/-- The managers about to start. -/
def start {M : Type} (md5 : Bytes → Bytes) (calls : M → Call) (t : ZkTree) :
    Pool Request Request.Answer ZkTree (fun _ : M => Answer) :=
  ⟨fun i => (calls i).prog md5, t⟩

/-- **A service that is in the tree is always found.**  In every state that any interleaving of calls about
service nodes reaches, with requests that fail or get lost, managers that stop in the middle, and other
processes that set statuses or work elsewhere: where a service is under a service node, reading the
list of that node at this instant succeeds and has the service in it, with its status; and a node for
which an add or a set has answered `QCONF_OK` is registered. -/
theorem services_always_found {M : Type} [DecidableEq M] (hP : ServicePaths md5 P) (calls : M → Call)
    (hcalls : ∀ i p, zkPath (calls i).node = some p → p ∈ P ∧ (calls i).Proper p) (ht : Orderly md5 P t)
    {c : Pool Request Request.Answer ZkTree (fun _ : M => Answer)}
    (hr : Runs (Program.ServesIn id fun _ _ => True) (Allowed md5 P) (start md5 calls t) c) :
    (∀ p ∈ P, ∀ serv v, c.state.nodes.lookup (servPath p serv) = some v →
      ∃ m status, zkServicesGetWithStatus md5 (.quiet c.state) p = (.ok, m, .quiet c.state) ∧
        m.lookup serv = some status ∧ isStatus status = true ∧ v = statusText status) ∧
    ∀ i p, zkPath (calls i).node = some p → (calls i).registers = true → c.progs i = .done (.code .ok) →
      getMonitorNode md5 p ∈ c.state.nodes := by
  have hfit : Fit (Allowed md5 P) (Orderly md5 P) (fun _ : M => Allowed md5 P) (fun _ => Allowed md5 P) :=
    ⟨fun hi h => h.orderly hi, fun hi h => h.orderly hi, fun _ _ h => h, fun _ h => h⟩
  have hstart : OnTrack (Program.ServesIn id fun _ _ => True) (Orderly md5 P) (fun _ : M => Allowed md5 P)
      (fun _ => Allowed md5 P) (fun i => (calls i).Promise md5) (start md5 calls t) :=
    ⟨ht, fun i => ⟨fun _ => True, trivial, holds_prog hP (calls i) (hcalls i)⟩⟩
  obtain ⟨hi, hdone⟩ := keeps_all hfit hstart hr
  exact ⟨fun p hp serv v hv => hi.found hP hp hv, fun i p hnode hreg hend => hdone i _ hend hreg rfl p hnode⟩

end

/-- A program alone in a session is one of the ways in which it can run. -/
theorem alone_run {α : Type} (prog : Zoo α) : ∀ zk : Zk,
    Alone (Program.ServesIn id fun _ _ => True) prog zk.tree (prog.run zk).1 (prog.run zk).2.tree := by
  induction prog with
  | done a => exact fun zk => .done a _
  | ask i k ih => exact fun zk => .ask ⟨i.serves_serve zk, trivial⟩ (ih _ _)

/-- One manager adds a service to `/s`, another is about to. -/
theorem services_always_found_one : ∃ c, Runs (Program.ServesIn id fun _ _ => True) (Allowed id twoPaths)
    (start id (fun _ : Bool => .add [47, 115] [97] 0) .empty) c ∧
    (∃ m, zkServicesGetWithStatus id (.quiet c.state) [47, 115] = (.ok, m, .quiet c.state) ∧ m.lookup [97] = some 0) ∧
    getMonitorNode id [47, 115] ∈ c.state.nodes := by
  have hs : ([47, 115] : Bytes) ∈ twoPaths := Or.inl rfl
  have hempty : Orderly id twoPaths .empty := by
    rintro p (rfl | rfl) c v hv
    · exact absurd (above_mem _ [47, 115] (ZkTree.mem_of_lookup hv) (path_above_servPath _ c) (by decide)) (by decide)
    · exact absurd (above_mem _ [47, 117] (ZkTree.mem_of_lookup hv) (path_above_servPath _ c) (by decide)) (by decide)
  have hshown : Shown id .empty [47, 115] .fresh := shown_none (iff_of_false (by decide) (by decide)) (by decide)
  have hnode : zkPath [47, 115] = some [47, 115] := by decide
  obtain ⟨t', hrun, -, hshown'⟩ := hshown.refines_call (servicePaths_two.path _ hs) (.add [47, 115] [97] 0) hnode
    ⟨by decide, by decide⟩
  have halone := alone_run (Call.prog id (.add [47, 115] [97] 0)) (.quiet .empty)
  rw [run_prog, hrun] at halone
  obtain ⟨progs, hr, hdone, -⟩ := runs_of_alone true halone
    (start id (fun _ : Bool => .add [47, 115] [97] 0) .empty).progs rfl
  obtain ⟨hfound, hreg⟩ := services_always_found servicePaths_two (fun _ : Bool => .add [47, 115] [97] 0)
    (fun _ p hp => by rw [← Option.some.inj (hnode.symm.trans hp)]; exact ⟨hs, by decide, by decide⟩) hempty hr
  refine ⟨_, hr, ?_, hreg true _ hnode rfl hdone⟩
  obtain ⟨m, status, hget, hm, hst, htext⟩ := hfound _ hs [97] (statusText 0) ((hshown'.lists _ rfl).below [97])
  refine ⟨m, hget, ?_⟩
  rw [hm]
  rcases isStatus_cases hst with rfl | rfl | rfl
  · rfl
  · exact absurd htext (by decide)
  · exact absurd htext (by decide)

end QConf.Registry
