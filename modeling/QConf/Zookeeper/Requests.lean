import QConf.Lib.RelyGuarantee
import QConf.Zookeeper.Session

/-!
# Programs of requests to ZooKeeper

The wrappers of the agent and the manager make one call of the client library after
another.  Here they can be written as programs of requests, so that the calls
of several processes can interleave: a request stands for the loop around one call,
which the server applies at most once (`calls_called`), at one instant.

What a request can do to the tree is said once for each of them.
-/

namespace QConf

open RelyGuarantee

/-- A call of the client library, with the C strings that it is given. -/
inductive Request
  | get (path : Bytes)
  | exist (path : Bytes)
  | children (path : Bytes)
  | create (path value : Bytes)
  | set (path value : Bytes)
  | delete (path : Bytes)

namespace Request

/-- What a call that succeeds hands out. -/
def Value : Request → Type
  | get _ => Bytes
  | children _ => Finset Bytes
  | _ => Unit

abbrev Answer (i : Request) : Type := Except ZooErr i.Value

/-- What the server does. -/
def op : (i : Request) → ZkTree → Except ZooErr (i.Value × ZkTree)
  | get path, t => (t.get (cStr path)).map (fun d => (d.take maxValueSize, t))
  | exist path, t => (t.existsNode (cStr path)).map (fun u => (u, t))
  | children path, t => (t.getChildren (cStr path)).map (fun names => (names, t))
  | create path value, t => (t.create (cStr path) value).map (fun t' => ((), t'))
  | set path value, t => (t.set (cStr path) value).map (fun t' => ((), t'))
  | delete path, t => (t.delete (cStr path)).map (fun t' => ((), t'))

/-- The call in a session of its own. -/
def serve (i : Request) (zk : Zk) : i.Answer × Zk := zk.calls i.op

/-- What the answer and the tree can be, with whatever goes wrong. -/
def Serves (t : ZkTree) (i : Request) (r : i.Answer) (t' : ZkTree) : Prop := Called i.op t t' r

/-- A session does what a call can do. -/
theorem serves_serve (i : Request) (zk : Zk) : i.Serves zk.tree (i.serve zk).1 (i.serve zk).2.tree :=
  calls_called rfl

end Request

/-- A program of requests. -/
abbrev Zoo (α : Type) : Type := Prog Request Request.Answer α

namespace Zoo

def zooGet (path : Bytes) : Zoo (Except ZooErr Bytes) := .ask (.get path) .done
def zooExists (path : Bytes) : Zoo (Except ZooErr Unit) := .ask (.exist path) .done
def zooGetChildren (path : Bytes) : Zoo (Except ZooErr (Finset Bytes)) := .ask (.children path) .done
def zooCreate (path value : Bytes) : Zoo (Except ZooErr Unit) := .ask (.create path value) .done
def zooSet (path value : Bytes) : Zoo (Except ZooErr Unit) := .ask (.set path value) .done
def zooDelete (path : Bytes) : Zoo (Except ZooErr Unit) := .ask (.delete path) .done

/-- The program alone in a session. -/
def run {α : Type} (p : Zoo α) (zk : Zk) : α × Zk := Prog.run Request.serve p zk

section

variable {α β : Type} (zk : Zk)

@[simp] theorem run_done (a : α) : run (.done a) zk = (a, zk) := rfl

@[simp] theorem run_bind (p : Zoo α) (f : α → Zoo β) :
    run (p >>= f) zk = run (f (run p zk).1) (run p zk).2 :=
  Prog.run_bind p f zk

@[simp] theorem run_zooGet (path : Bytes) : run (zooGet path) zk = zk.zooGet path := rfl
@[simp] theorem run_zooExists (path : Bytes) : run (zooExists path) zk = zk.zooExists path := rfl
@[simp] theorem run_zooGetChildren (path : Bytes) : run (zooGetChildren path) zk = zk.zooGetChildren path := rfl
@[simp] theorem run_zooCreate (path value : Bytes) : run (zooCreate path value) zk = zk.zooCreate path value := rfl
@[simp] theorem run_zooSet (path value : Bytes) : run (zooSet path value) zk = zk.zooSet path value := rfl
@[simp] theorem run_zooDelete (path : Bytes) : run (zooDelete path) zk = zk.zooDelete path := rfl

end

end Zoo

/-! ### What a request can do -/

/-- The node `p` is new and holds `v`; nothing else has changed. -/
structure Inserted (p v : Bytes) (t t' : ZkTree) : Prop where
  fresh : p ∉ t.nodes
  lookup : ∀ q, t'.nodes.lookup q = if q = p then some v else t.nodes.lookup q

/-- The node `p` is gone; nothing else has changed. -/
structure Removed (p : Bytes) (t t' : ZkTree) : Prop where
  lookup : ∀ q, t'.nodes.lookup q = if q = p then none else t.nodes.lookup q

theorem Inserted.self {p v : Bytes} {t t' : ZkTree} (h : Inserted p v t t') : t'.nodes.lookup p = some v := by
  rw [h.lookup, if_pos rfl]

theorem Inserted.other {p v q : Bytes} {t t' : ZkTree} (h : Inserted p v t t') (hq : q ≠ p) :
    t'.nodes.lookup q = t.nodes.lookup q := by
  rw [h.lookup, if_neg hq]

theorem Removed.self {p : Bytes} {t t' : ZkTree} (h : Removed p t t') : t'.nodes.lookup p = none := by
  rw [h.lookup, if_pos rfl]

theorem Removed.other {p q : Bytes} {t t' : ZkTree} (h : Removed p t t') (hq : q ≠ p) :
    t'.nodes.lookup q = t.nodes.lookup q := by
  rw [h.lookup, if_neg hq]

section

variable {t t' : ZkTree} {path value : Bytes}

theorem inserted_create {q d : Bytes} (h : t.create q d = .ok t') : Inserted q d t t' := by
  obtain ⟨-, -, -, hfresh, hnodes⟩ := ZkTree.create_ok h
  refine ⟨hfresh, fun x => ?_⟩
  rw [hnodes]
  split
  · next hx => rw [hx, Finmap.lookup_insert]
  · next hx => rw [Finmap.lookup_insert_of_ne _ hx]

theorem removed_delete {q : Bytes} (h : t.delete q = .ok t') : Removed q t t' := by
  obtain ⟨-, -, -, hnodes⟩ := ZkTree.delete_ok h
  refine ⟨fun x => ?_⟩
  rw [hnodes]
  split
  · next hx => rw [hx, Finmap.lookup_erase]
  · next hx => rw [Finmap.lookup_erase_ne hx]

/-- A call that changes the tree by `f`.  An error that says what is there comes from the server. -/
theorem called_map {f : ZkTree → Except ZooErr ZkTree} {r : Except ZooErr Unit}
    (h : Called (fun t => (f t).map (fun t' => ((), t'))) t t' r) :
    (r = .ok () ∧ f t = .ok t') ∨ ∃ e, r = .error e ∧
      ((t' = t ∧ (e = .noNode ∨ e = .nodeExists → f t = .error e)) ∨
        (f t = .ok t' ∧ e ≠ .noNode ∧ e ≠ .nodeExists)) := by
  have hop : ∀ {a : Unit} {t₁ : ZkTree}, (f t).map (fun t' => ((), t')) = .ok (a, t₁) → f t = .ok t₁ := by
    intro a t₁ hm
    cases hf : f t with
    | error e =>
      rw [hf] at hm
      exact absurd hm (by simp [Except.map])
    | ok t₂ =>
      rw [hf] at hm
      simp only [Except.map, Except.ok.injEq, Prod.mk.injEq] at hm
      rw [hm.2]
  cases h with
  | answered ha => exact Or.inl ⟨rfl, hop ha⟩
  | @refused e he ht =>
    refine Or.inr ⟨e, rfl, Or.inl ⟨ht, fun _ => ?_⟩⟩
    cases hf : f t with
    | error e' =>
      rw [hf] at he
      exact congrArg Except.error (Except.error.inj he)
    | ok t₂ =>
      rw [hf] at he
      exact absurd he (by simp [Except.map])
  | @lost e he ht =>
    have hne : e ≠ .noNode ∧ e ≠ .nodeExists := by
      constructor
      · rintro rfl
        exact he.elim (by simp) (by simp [ZooErr.again])
      · rintro rfl
        exact he.elim (by simp) (by simp [ZooErr.again])
    rcases ht with ht | ⟨a, ha⟩
    · exact Or.inr ⟨e, rfl, Or.inl ⟨ht, fun h => (h.elim hne.1 hne.2).elim⟩⟩
    · exact Or.inr ⟨e, rfl, Or.inr ⟨hop ha, hne⟩⟩

theorem mem_of_nodeExists {q d : Bytes} (h : t.create q d = .error .nodeExists) : q ∈ t.nodes := by
  unfold ZkTree.create at h
  split at h
  · split at h
    · split at h
      · split at h
        · next hm => exact hm
        · exact absurd h (by simp)
      · exact absurd h (by simp)
    · exact absurd h (by simp)
  · exact absurd h (by simp)

theorem serves_create {r : Except ZooErr Unit} (h : (Request.create path value).Serves t r t') :
    (r = .ok () ∧ Inserted (cStr path) value t t') ∨
      ∃ e, r = .error e ∧ ((t' = t ∧ (e = .nodeExists → cStr path ∈ t.nodes)) ∨
        (Inserted (cStr path) value t t' ∧ e ≠ .noNode ∧ e ≠ .nodeExists)) := by
  rcases called_map (f := fun t => t.create (cStr path) value) h with ⟨hr, hc⟩ | ⟨e, hr, ⟨ht, hsaid⟩ | ⟨hc, he⟩⟩
  · exact Or.inl ⟨hr, inserted_create hc⟩
  · refine Or.inr ⟨e, hr, Or.inl ⟨ht, ?_⟩⟩
    rintro rfl
    exact mem_of_nodeExists (hsaid (Or.inr rfl))
  · exact Or.inr ⟨e, hr, Or.inr ⟨inserted_create hc, he⟩⟩

theorem serves_set {r : Except ZooErr Unit} (h : (Request.set path value).Serves t r t') :
    t' = t ∨ (cStr path ∈ t.nodes ∧ ∀ q, t'.nodes.lookup q = if q = cStr path then some value else t.nodes.lookup q) := by
  have hset : ∀ {t₁}, t.set (cStr path) value = .ok t₁ → cStr path ∈ t.nodes ∧
      ∀ q, t₁.nodes.lookup q = if q = cStr path then some value else t.nodes.lookup q := by
    intro t₁ hs
    obtain ⟨hm, -, hnodes⟩ := ZkTree.set_ok hs
    refine ⟨hm, fun q => ?_⟩
    rw [hnodes]
    split
    · next hx => rw [hx, Finmap.lookup_insert]
    · next hx => rw [Finmap.lookup_insert_of_ne _ hx]
  rcases called_map (f := fun t => t.set (cStr path) value) h with ⟨-, hc⟩ | ⟨e, -, ⟨ht, -⟩ | ⟨hc, -⟩⟩
  · exact Or.inr (hset hc)
  · exact Or.inl ht
  · exact Or.inr (hset hc)

theorem serves_delete {r : Except ZooErr Unit} (h : (Request.delete path).Serves t r t') :
    (r = .ok () ∧ Removed (cStr path) t t') ∨
      ∃ e, r = .error e ∧ ((t' = t ∧ (e = .noNode → cStr path ∉ t.nodes)) ∨
        (Removed (cStr path) t t' ∧ e ≠ .noNode)) := by
  rcases called_map (f := fun t => t.delete (cStr path)) h with ⟨hr, hc⟩ | ⟨e, hr, ⟨ht, hno⟩ | ⟨hc, he, -⟩⟩
  · exact Or.inl ⟨hr, removed_delete hc⟩
  · refine Or.inr ⟨e, hr, Or.inl ⟨ht, fun h => ?_⟩⟩
    have hd := hno (Or.inl h)
    rw [h] at hd
    intro hm
    unfold ZkTree.delete at hd
    simp only [t.valid _ hm, hm, if_true] at hd
    split at hd
    · exact absurd hd (by simp)
    · split at hd <;> exact absurd hd (by simp)
  · exact Or.inr ⟨e, hr, Or.inr ⟨removed_delete hc, he⟩⟩

/-- A call that only reads. -/
theorem called_read {α β : Type} {f : ZkTree → Except ZooErr α} {g : α → β} {r : Except ZooErr β}
    (h : Called (fun t => (f t).map (fun a => (g a, t))) t t' r) :
    t' = t ∧ (∀ b, r = .ok b → ∃ a, f t = .ok a ∧ b = g a) ∧
      (r = .error .noNode → f t = .error .noNode) := by
  have hop : ∀ {b : β} {t₁ : ZkTree}, (f t).map (fun a => (g a, t)) = .ok (b, t₁) →
      t₁ = t ∧ ∃ a, f t = .ok a ∧ b = g a := by
    intro b t₁ hm
    cases hf : f t with
    | error e =>
      rw [hf] at hm
      exact absurd hm (by simp [Except.map])
    | ok a =>
      rw [hf] at hm
      simp only [Except.map, Except.ok.injEq, Prod.mk.injEq] at hm
      exact ⟨hm.2.symm, a, rfl, hm.1.symm⟩
  cases h with
  | @answered b ha =>
    obtain ⟨ht, hb⟩ := hop ha
    exact ⟨ht, fun b' hb' => Except.ok.inj hb' ▸ hb, fun hr => absurd hr (by simp)⟩
  | @refused e he ht =>
    refine ⟨ht, fun b hb => absurd hb (by simp), fun hr => ?_⟩
    cases hf : f t with
    | error e' =>
      rw [hf] at he
      rw [Except.error.inj he, Except.error.inj hr]
    | ok a =>
      rw [hf] at he
      exact absurd he (by simp [Except.map])
  | @lost e he ht =>
    refine ⟨ht.elim id (fun ⟨_, ha⟩ => (hop ha).1), fun b hb => absurd hb (by simp), fun hr => ?_⟩
    rw [Except.error.inj hr] at he
    rcases he with he | he
    · exact absurd he (by simp)
    · exact absurd he (by simp [ZooErr.again])

theorem serves_exist {r : Except ZooErr Unit} (h : (Request.exist path).Serves t r t') : t' = t :=
  (called_read (f := fun t => t.existsNode (cStr path)) (g := id) h).1

theorem serves_children {r : Except ZooErr (Finset Bytes)} (h : (Request.children path).Serves t r t') : t' = t :=
  (called_read (f := fun t => t.getChildren (cStr path)) (g := id) h).1

theorem serves_get {r : Except ZooErr Bytes} (h : (Request.get path).Serves t r t') :
    t' = t ∧ (∀ d, r = .ok d → t.nodes.lookup (cStr path) = some d) ∧
      (r = .error .noNode → cStr path ∉ t.nodes) := by
  obtain ⟨ht, hok, hno⟩ := called_read (f := fun t => t.get (cStr path)) (g := List.take maxValueSize) h
  refine ⟨ht, fun d hd => ?_, fun hr => ?_⟩
  · obtain ⟨d₀, hg, rfl⟩ := hok d hd
    have hl := ZkTree.get_eq_ok.mp hg
    rw [hl, ZkTree.take_maxValueSize hl]
  · rcases ZkTree.get_error (hno hr) with ⟨-, hn⟩ | ⟨hb, -⟩
    · exact hn
    · exact absurd hb (by simp)

end

end QConf
