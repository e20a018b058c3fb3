import QConf.Monitor.Model

/-!
# What a child event teaches the monitor

ZooKeeper tells the monitor that the children of a service changed, not how.
`ProcessChildEvent` lists the children again and takes the event for a removal unless there are
more of them than names in `service_father_to_ip`.  The names there are no measure for this: a
service that had no servers has the empty name in its set, a server that was removed stays in
it until its own event is handled, and a server whose status could not be read at the start is
in it without an item in `service_map`.  `child_event_knows_children_iff` says when the event
leaves the monitor with every child.
-/

namespace QConf.Monitor

/-- The server is in both maps, so it is probed. -/
def Known (o : MonitorOptions) (father ip : Bytes) : Prop :=
  ip ∈ o.ipsOf father ∧ servicePath father ip ∈ o.serviceMap

instance (o : MonitorOptions) (father ip : Bytes) : Decidable (Known o father ip) :=
  inferInstanceAs (Decidable (_ ∧ _))

section

variable {r : Reads} {o : MonitorOptions} {father ip : Bytes}

theorem mem_setStatus {p q : Bytes} {status : Int} :
    q ∈ (o.setStatus p status).serviceMap ↔ q = p ∨ q ∈ o.serviceMap := Finmap.mem_insert

/-- One added server: it is in the set afterwards, and in `service_map` if it was new. -/
theorem modify_add (hip : slash ∉ ip) (hstatus : (r.zkGetServiceStatus (servicePath father ip)).isSome) :
    (modifyServiceFatherToIp r .add o (servicePath father ip)).ipsOf father = insert ip (o.ipsOf father) ∧
    ∀ q, q ∈ (modifyServiceFatherToIp r .add o (servicePath father ip)).serviceMap ↔
      q ∈ o.serviceMap ∨ (ip ∉ o.ipsOf father ∧ q = servicePath father ip) := by
  obtain ⟨status, hst⟩ := Option.isSome_iff_exists.mp hstatus
  unfold modifyServiceFatherToIp
  simp only [cutPath_servicePath hip]
  by_cases hin : ip ∈ o.ipsOf father
  · rw [if_pos hin, o.ipsOf_setIps, if_pos rfl, Finset.insert_eq_of_mem hin]
    refine ⟨rfl, fun q => ?_⟩
    rw [o.serviceMap_setIps]
    simp [hin]
  · rw [if_neg hin, hst]
    dsimp only
    rw [MonitorOptions.ipsOf_setIps, if_pos rfl]
    refine ⟨rfl, fun q => ?_⟩
    rw [MonitorOptions.serviceMap_setIps, mem_setStatus]
    simp [hin, or_comm]

/-- The loop over the children. -/
theorem modify_add_all : ∀ {children : List Bytes} {o : MonitorOptions}, children.Nodup →
    (∀ c ∈ children, slash ∉ c) → (∀ c ∈ children, (r.zkGetServiceStatus (servicePath father c)).isSome) →
    (children.foldl (fun o ip => modifyServiceFatherToIp r .add o (servicePath father ip)) o).ipsOf father =
      o.ipsOf father ∪ children.toFinset ∧
    ∀ q, q ∈ (children.foldl (fun o ip => modifyServiceFatherToIp r .add o (servicePath father ip)) o).serviceMap ↔
      q ∈ o.serviceMap ∨ ∃ c ∈ children, c ∉ o.ipsOf father ∧ q = servicePath father c := by
  intro children
  induction children with
  | nil => intro o _ _ _; simp
  | cons c children ih =>
    intro o hnodup hslash hstatus
    obtain ⟨hc, hnodup⟩ := List.nodup_cons.mp hnodup
    obtain ⟨hips, hmap⟩ := modify_add (o := o) (hslash c (List.mem_cons_self ..))
      (hstatus c (List.mem_cons_self ..))
    obtain ⟨hips', hmap'⟩ := ih (o := modifyServiceFatherToIp r .add o (servicePath father c)) hnodup
      (fun d hd => hslash d (List.mem_cons_of_mem _ hd)) (fun d hd => hstatus d (List.mem_cons_of_mem _ hd))
    rw [List.foldl_cons]
    constructor
    · rw [hips', hips]
      ext d
      simp only [Finset.mem_union, Finset.mem_insert, List.mem_toFinset, List.mem_cons]
      tauto
    · intro q
      rw [hmap', hmap, hips]
      have hne : ∀ d ∈ children, d ≠ c := fun d hd heq => hc (heq ▸ hd)
      constructor
      · rintro ((hq | ⟨hnot, rfl⟩) | ⟨d, hd, hnot, rfl⟩)
        · exact Or.inl hq
        · exact Or.inr ⟨c, List.mem_cons_self .., hnot, rfl⟩
        · refine Or.inr ⟨d, List.mem_cons_of_mem _ hd, fun hin => hnot ?_, rfl⟩
          exact Finset.mem_insert_of_mem hin
      · rintro (hq | ⟨d, hd, hnot, rfl⟩)
        · exact Or.inl (Or.inl hq)
        · rcases List.mem_cons.mp hd with rfl | hd
          · exact Or.inl (Or.inr ⟨hnot, rfl⟩)
          · refine Or.inr ⟨d, hd, fun hin => ?_, rfl⟩
            rcases Finset.mem_insert.mp hin with heq | hin
            · exact hne d hd heq
            · exact hnot hin

end

/-- **When a child event leaves the monitor with every child.**  For a service it owns, whose
children and their statuses are read: every child is known afterwards if and only if each one
either was in the set and has an item already, or was not in the set and there are more
children than names in it. -/
theorem child_event_knows_children_iff (r : Reads) (o : MonitorOptions) (father : Bytes)
    (ipset : Finset Bytes) (children : List Bytes) (hown : o.serviceFatherToIp.lookup father = some ipset)
    (hread : r.zkGetChdnodes father = some children) (hdistinct : children.Nodup)
    (hslash : ∀ c ∈ children, slash ∉ c)
    (hstatus : ∀ c ∈ children, (r.zkGetServiceStatus (servicePath father c)).isSome) :
    (∀ c ∈ children, Known (processChildEvent r o father) father c) ↔
      ∀ c ∈ children, (c ∈ ipset ∧ servicePath father c ∈ o.serviceMap) ∨
        (c ∉ ipset ∧ ipset.card < children.length) := by
  have hips : o.ipsOf father = ipset := by rw [MonitorOptions.ipsOf, hown]; rfl
  unfold processChildEvent
  rw [hread, hown]
  dsimp only
  by_cases hle : children.length ≤ ipset.card
  · rw [if_pos hle]
    refine forall₂_congr fun c hc => ?_
    rw [Known, hips]
    have : ¬ ipset.card < children.length := Nat.not_lt.mpr hle
    tauto
  · rw [if_neg hle]
    obtain ⟨hips', hmap'⟩ := modify_add_all (o := o) hdistinct hslash hstatus
    refine forall₂_congr fun c hc => ?_
    have hlt : ipset.card < children.length := Nat.not_le.mp hle
    have hpath : (∃ d ∈ children, d ∉ ipset ∧ servicePath father c = servicePath father d) ↔ c ∉ ipset := by
      constructor
      · rintro ⟨d, -, hnot, heq⟩
        rwa [servicePath_inj heq]
      · exact fun hnot => ⟨c, hc, hnot, rfl⟩
    rw [Known, hips', hmap', hips, hpath, Finset.mem_union, List.mem_toFinset]
    tauto

/-- Answers for the service `/s` with the given children, all of them up; nothing else is there, and
`/s/` is no path. -/
def upChildren (children : List Bytes) : Reads :=
  { children := fun path => if path = ascii "/s" then some children else none
    value := fun path => if path ∈ children.map (servicePath (ascii "/s")) then some (ascii "0") else none }

/-- The maps of a monitor that owns `/s`, right after `DoBalance`. -/
def ownsOne : MonitorOptions :=
  { serviceMap := ∅
    serviceFatherToIp := Finmap.singleton (ascii "/s") ∅
    myServiceFathers := [ascii "/s"] }

/-- A second server next to one that was loaded. -/
theorem child_event_adds_second_server :
    let o := processChildEvent (upChildren [ascii "a:1", ascii "b:1"])
      (loadAllService (upChildren [ascii "a:1"]) ownsOne) (ascii "/s")
    Known o (ascii "/s") (ascii "a:1") ∧ Known o (ascii "/s") (ascii "b:1") := by
  have hknown := (child_event_knows_children_iff (upChildren [ascii "a:1", ascii "b:1"])
    (loadAllService (upChildren [ascii "a:1"]) ownsOne) (ascii "/s") {ascii "a:1"}
    [ascii "a:1", ascii "b:1"] (by decide +kernel) (by decide +kernel) (by decide +kernel)
    (by decide +kernel) (by decide +kernel)).mpr (by decide +kernel)
  exact ⟨hknown _ (by simp), hknown _ (by simp)⟩

/-- The first server of a service that had none: the empty name stands in the set, so there are
not more children than names, and the server stays unknown. -/
theorem first_server_stays_unknown :
    (loadAllService (upChildren []) ownsOne).serviceFatherToIp.lookup (ascii "/s") = some {[]} ∧
    ¬ Known (processChildEvent (upChildren [ascii "a:1"]) (loadAllService (upChildren []) ownsOne)
      (ascii "/s")) (ascii "/s") (ascii "a:1") := by
  decide +kernel

end QConf.Monitor
