import QConf.Agent.Freshness
import QConf.Agent.Scan
import QConf.Agent.Threads

/-!
# What the scan repairs

An entry may go stale: its events were lost, or it came from the dump.  The periodic scan takes it
from the table, compares it with ZooKeeper and queues its key where they differ, while the other
threads go on.  `scan_repairs`: once the key was compared, the entry is what ZooKeeper has (or its gray
value), or it is gone, or its key is queued, about to be queued or being handled.

One thing the scan cannot see: a value of the key that `deque_process` read before the scan took the
entry, and writes after the scan has compared.  At the moment of the taking no such value is on its
way.  From then on every value that `deque_process` brings was read from the servers as they are
(`Fresh`).
-/

namespace QConf.Repair

open StoredKeys Shm Transition Threads
open Scan (encodeContent diffWithZk Listing sessionOf)

variable {conf : Finset Bytes} {s s' : State} {T : Agent.Target} {x : ZkTree}

/-! ### What is to be served -/

/-- What a tree has for the key, as a table value. -/
def onServer (T : Agent.Target) (x : ZkTree) : Option Bytes :=
  if T.path ∈ x.nodes then some (encodeContent T.kind.dataType T.key x T.path) else none

/-- What is to be served for the key: the gray value where there is one, and otherwise what
ZooKeeper has. -/
def current (T : Agent.Target) (x : ZkTree) (s : Pipe) : Option Bytes := (s.gray.lookup T.key).or (onServer T x)

/-- ZooKeeper has the tree `x`, and it answers the read of the key: no call fails, and the children
of a service have statuses. -/
def Answering (conf : Finset Bytes) (T : Agent.Target) (x : ZkTree) (sessions : Bytes → Option Zk) (l : Listing) :
    Prop :=
  ∃ zk, sessionOf conf sessions T.idc = some zk ∧ zk.tree = x ∧
    ((Scan.read l zk T.kind.dataType T.key T.path).1 = .ok ∨
      (Scan.read l zk T.kind.dataType T.key T.path).1 = .nodeNotExist)

/-- The reads of the key are answered, and the agent is not started anew. -/
def Calm (conf : Finset Bytes) (T : Agent.Target) (x : ZkTree) (s : State) : Action → Prop
  | .read answer => s.work = some (T.key, .plain) → ∃ sessions l, Answering conf T x sessions l ∧
      answer = (sessionOf conf sessions T.idc).map (fun zk => Scan.read l zk T.kind.dataType T.key T.path)
  | .restart => False
  | _ => True

/-- What is read for the key is what the tree has. -/
theorem read_onServer (hT : T.Proper) (l : Listing) (zk : Zk) :
    (∀ v, Scan.read l zk T.kind.dataType T.key T.path = (.ok, v) → onServer T zk.tree = some v) ∧
    ((Scan.read l zk T.kind.dataType T.key T.path).1 = .nodeNotExist → onServer T zk.tree = none) := by
  have hanswers := Scan.read_answers T.kind.hasPath (fun _ => hT.nulFree) l zk T.key
  rw [cStr_of_nulFree hT.nulFree] at hanswers
  unfold onServer
  constructor
  · intro v hv
    obtain ⟨hmem, hval⟩ := hanswers.ok (by rw [hv])
    rw [if_pos hmem, ← hval, hv]
  · intro hgone
    rw [if_neg (hanswers.gone hgone)]

/-- An answer is the value of the tree, or that there is none. -/
theorem ofAnswer_of_calm (hT : T.Proper) {answer : Option (Ret × Bytes)} (hw : s.work = some (T.key, .plain))
    (hcalm : Calm conf T x s (.read answer)) :
    (∃ v, Work.ofAnswer answer = some (.found v) ∧ onServer T x = some v) ∨ Work.ofAnswer answer = some .gone := by
  obtain ⟨sessions, l, ⟨zk, hzk, rfl, hreads⟩, rfl⟩ := hcalm hw
  rw [hzk, Option.map_some]
  rcases hread : Scan.read l zk T.kind.dataType T.key T.path with ⟨ret, v⟩
  rw [hread] at hreads
  rcases hreads with rfl | rfl
  · exact Or.inl ⟨v, rfl, (read_onServer hT l zk).1 v hread⟩
  · exact Or.inr rfl

/-! ### The values on their way -/

/-- `deque_process` has a value that it read, or is about to take one from the dump. -/
def Carries : Work → Prop
  | .found _ => True
  | .failed => True
  | .dumped _ => True
  | _ => False

/-- A value of the key that is on its way to the table is what ZooKeeper has. -/
def Fresh (T : Agent.Target) (x : ZkTree) (s : State) : Prop :=
  ∀ w, s.work = some (T.key, w) → Carries w → ∃ v, w = .found v ∧ onServer T x = some v

theorem Fresh.step (hT : T.Proper) (hin : InForce s) (h : Fresh T x s) {a : Action} (hcalm : Calm conf T x s a)
    (hstep : threadStep s a = some s') : Fresh T x s' := by
  intro w hw hcarries
  rcases hin.step_cases hstep with hworks | ⟨rfl, -⟩ | hg
  · cases hworks with
    | pop => exact absurd hcarries ((Prod.mk.inj (Option.some.inj hw)).2 ▸ id)
    | grayed => exact absurd hcarries ((Prod.mk.inj (Option.some.inj hw)).2 ▸ id)
    | plain => exact absurd hcarries ((Prod.mk.inj (Option.some.inj hw)).2 ▸ id)
    | @read key hplain answer =>
      obtain ⟨w', hanswer, heq⟩ := Option.map_eq_some_iff.mp hw
      obtain ⟨rfl, rfl⟩ := Prod.mk.inj heq
      rcases ofAnswer_of_calm hT hplain hcalm with ⟨v, hfound, hv⟩ | hgone
      · exact ⟨v, Option.some.inj (hanswer.symm.trans hfound), hv⟩
      · rw [Option.some.inj (hanswer.symm.trans hgone)] at hcarries
        exact absurd hcarries id
    | @dumpGet key hfailed =>
      obtain ⟨d, -, heq⟩ := Option.map_eq_some_iff.mp hw
      obtain ⟨rfl, -⟩ := Prod.mk.inj heq
      obtain ⟨v, hfound, -⟩ := h _ hfailed trivial
      exact absurd hfound (by simp)
    | @write key w₀ fits tbl w' hw₀ hwrite =>
      rcases (write_cases hwrite).2.2 with rfl | ⟨change, rfl⟩
      · exact absurd hw (by simp)
      · exact absurd hcarries ((Prod.mk.inj (Option.some.inj hw)).2 ▸ id)
    | addTrigger => exact absurd hw (by simp)
  · exact absurd hcalm id
  · exact h w (hg.work ▸ hw) hcarries

/-! ### Settled entries -/

/-- The key waits, or the scan is about to queue it, or its entry is the current one, or still the one
that the scan took. -/
def Settled (T : Agent.Target) (x : ZkTree) (taken : Option Bytes) (s : State) : Prop :=
  Waits s T.key ∨ (∃ v, s.held = some ⟨T.key, v, .differs⟩) ∨
    ∀ v, s.pipe.tbl.lookup T.key = some v → taken = some v ∨ current T x s.pipe = some v

section

variable {taken : Option Bytes}

/-- Where nothing about the key changes but what `deque_process` does with it. -/
theorem Settled.congr (h : Settled T x taken s) (hq : Queued s T.key → Queued s' T.key)
    (hw : ∀ w, s.work = some (T.key, w) → w.Unwritten → Waits s' T.key) (hheld : s'.held = s.held)
    (hgray : s'.pipe.gray = s.pipe.gray) (htbl : s'.pipe.tbl.lookup T.key = s.pipe.tbl.lookup T.key) :
    Settled T x taken s' := by
  rcases h with (hqueued | ⟨w, hwork, hopen⟩) | hdiffers | hentry
  · exact Or.inl (Or.inl (hq hqueued))
  · exact Or.inl (hw w hwork hopen)
  · exact Or.inr (Or.inl (hheld ▸ hdiffers))
  · refine Or.inr (Or.inr fun v hv => ?_)
    rw [current, hgray]
    exact hentry v (htbl ▸ hv)

/-- `deque_process` writes the key: the entry is made anew. -/
theorem settled_of_write (hin : InForce s) (hf : Fresh T x s) {w : Work} {fits : Bool} {tbl : BytesMap}
    {w' : Option Work} (hw : s.work = some (T.key, w)) (hwrite : w.write s.pipe.tbl T.key fits = some (tbl, w')) :
    Settled T x taken { s with pipe := { s.pipe with tbl := tbl }, work := w'.map (T.key, ·) } := by
  rcases hin.agrees _ _ hw with hagrees | hq
  · refine Or.inr (Or.inr fun v hv => Or.inr ?_)
    rw [current]
    rcases (write_cases hwrite).2.1 v hv with rfl | rfl | rfl
    · rw [show s.pipe.gray.lookup T.key = some v from hagrees, Option.some_or]
    · obtain ⟨v', hv', hserver⟩ := hf _ hw trivial
      rw [show s.pipe.gray.lookup T.key = none from hagrees, Option.none_or, hserver, Work.found.inj hv']
    · obtain ⟨v', hv', -⟩ := hf _ hw trivial
      exact absurd hv' (by simp)
  · exact Or.inl (Or.inl hq)

/-- **`deque_process` keeps the entry settled.** -/
theorem Settled.works (hT : T.Proper) (hin : InForce s) (hf : Fresh T x s) (h : Settled T x taken s) {a : Action}
    (hcalm : Calm conf T x s a) (hworks : Works s a s') : Settled T x taken s' := by
  -- what `deque_process` does with another key
  have hother : ∀ {key w₀}, s.work = some (key, w₀) → key ≠ T.key → ∀ w, s.work = some (T.key, w) → w.Unwritten →
      Waits s' T.key := fun hw₀ hne w hw _ =>
    absurd (Prod.mk.inj (Option.some.inj (hw₀.symm.trans hw))).1 hne
  cases hworks with
  | @pop key rest hidle hneed =>
    by_cases hkey : key = T.key
    · exact Or.inl (Or.inr ⟨.taken, by rw [hkey], trivial⟩)
    · refine h.congr ?_ (fun w hw => absurd (hidle.symm.trans hw) (by simp)) rfl rfl rfl
      rintro (hm | hm)
      · rw [hneed] at hm
        exact Or.inl ((List.mem_cons.mp hm).resolve_left (Ne.symm hkey))
      · exact Or.inr hm
  | @grayed key val hw hgray =>
    by_cases hkey : key = T.key
    · exact Or.inl (Or.inr ⟨.grayed val, by rw [hkey], trivial⟩)
    · exact h.congr id (hother hw hkey) rfl rfl rfl
  | @plain key hw hgray =>
    by_cases hkey : key = T.key
    · exact Or.inl (Or.inr ⟨.plain, by rw [hkey], trivial⟩)
    · exact h.congr id (hother hw hkey) rfl rfl rfl
  | @read key hw answer =>
    by_cases hkey : key = T.key
    · subst hkey
      rcases ofAnswer_of_calm hT hw hcalm with ⟨v, hfound, -⟩ | hgone
      · exact Or.inl (Or.inr ⟨.found v, by rw [hfound]; rfl, trivial⟩)
      · exact Or.inl (Or.inr ⟨.gone, by rw [hgone]; rfl, trivial⟩)
    · exact h.congr id (hother hw hkey) rfl rfl rfl
  | @dumpGet key hw =>
    by_cases hkey : key = T.key
    · subst hkey
      obtain ⟨v, hv, -⟩ := hf _ hw trivial
      exact absurd hv (by simp)
    · exact h.congr id (hother hw hkey) rfl rfl rfl
  | @write key w fits tbl w' hw hwrite =>
    by_cases hkey : key = T.key
    · subst hkey
      exact settled_of_write hin hf hw hwrite
    · exact h.congr id (hother hw hkey) rfl rfl ((write_cases hwrite).1 _ (Ne.symm hkey))
  | @addTrigger key change hw =>
    refine h.congr ?_ (fun w hw' hopen => ?_) rfl (addChangeTriggerNode_gray _ _ _) (by rw [addChangeTriggerNode_tbl])
    · rw [Queued, Queued, addChangeTriggerNode_need]
      exact id
    · obtain ⟨-, rfl⟩ := Prod.mk.inj (Option.some.inj (hw.symm.trans hw'))
      exact absurd hopen id

/-- **Every step keeps the entry settled.** -/
theorem Settled.step (hT : T.Proper) (hin : InForce s) (hf : Fresh T x s) (h : Settled T x taken s) {a : Action}
    (hcalm : Calm conf T x s a) (hstep : threadStep s a = some s') : Settled T x taken s' := by
  rcases hin.step_cases hstep with hworks | ⟨rfl, -⟩ | hg
  · exact h.works hT hin hf hcalm hworks
  · exact absurd hcalm id
  · rcases h with (hq | ⟨w, hw, hopen⟩) | ⟨v, hdiffers⟩ | hentry
    · exact Or.inl (Or.inl (hg.queued _ hq))
    · exact Or.inl (Or.inr ⟨w, hg.work.trans hw, hopen⟩)
    · rcases hg.held _ v T.key_ne_nil hdiffers with hsame | hq
      · exact Or.inr (Or.inl ⟨v, hsame.trans hdiffers⟩)
      · exact Or.inl (Or.inl hq)
    · by_cases hsame : s'.pipe.gray.lookup T.key = s.pipe.gray.lookup T.key
      · refine Or.inr (Or.inr fun v hv => ?_)
        rw [current, hsame]
        exact hentry v (hg.tbl _ v hv)
      · exact Or.inl (Or.inl (hg.gray _ hsame))

end

end QConf.Repair
