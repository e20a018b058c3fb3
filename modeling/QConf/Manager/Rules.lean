import QConf.Manager.Program

/-!
# Rules for the operations of the manager among other processes

The wrappers of `QConfZK` around the calls of the client, for any state that has the tree in it and
any invariant, rely and guarantee.  A rule asks for what the one change that the wrapper
can make of the tree does to the state (`Lets`); the answers of the server, the
lost requests and the nodes that `zk_create` makes on the way are dealt with here.
-/

namespace QConf.Program

open RelyGuarantee
open Manager (parentNode)

variable {σ : Type} {tree : σ → ZkTree} {link : σ → σ → Prop} {I : σ → Prop} {R G : σ → σ → Prop}
  {A B C : σ → Prop}

/-- A request to the tree in a state; `link` says what becomes of the rest of the state. -/
def ServesIn (tree : σ → ZkTree) (link : σ → σ → Prop) (s : σ) (i : Request) (r : i.Answer) (s' : σ) : Prop :=
  i.Serves (tree s) r (tree s') ∧ link s s'

/-- A change of the tree from a state with `A` is within the guarantee and leads to `B`. -/
def Lets (tree : σ → ZkTree) (link : σ → σ → Prop) (I : σ → Prop) (G : σ → σ → Prop) (A B : σ → Prop)
    (change : ZkTree → ZkTree → Prop) : Prop :=
  ∀ s s', I s → A s → change (tree s) (tree s') → link s s' → G s s' ∧ B s'

/-- A request that finds or leaves the tree as it is. -/
abbrev Idle (tree : σ → ZkTree) (link : σ → σ → Prop) (I : σ → Prop) (G : σ → σ → Prop) (A : σ → Prop) : Prop :=
  Lets tree link I G A A (fun t t' => t' = t)

theorem Stable.imp (h : Stable I R A) (φ : Prop) : Stable I R (fun s => φ → A s) :=
  fun s s' hi hi' hr hp hφ => h s s' hi hi' hr (hp hφ)

/-- One request. -/
theorem keeps_request {i : Request} {Q : i.Answer → σ → Prop} (hst : Stable I R A) (hQ : ∀ r, Stable I R (Q r))
    (h : ∀ s r s', I s → A s → i.Serves (tree s) r (tree s') → link s s' → G s s' ∧ Q r s') :
    Keeps (ServesIn tree link) I R G A (.ask i .done) Q :=
  Keeps.ask Q hst (fun s r s' hi ha hs => h s r s' hi ha hs.1 hs.2) fun r => Keeps.done (hQ r) (fun _ _ hq => hq)

theorem keeps_zkExist (hst : Stable I R A) (hidle : Idle tree link I G A) (path : Bytes) :
    Keeps (ServesIn tree link) I R G A (zkExist path) (fun _ => A) := by
  refine Keeps.bind (Q := fun _ => A) (keeps_request hst (fun _ => hst)
    fun s r s' hi ha hs hl => hidle s s' hi ha (serves_exist hs) hl) fun r => ?_
  rcases r with e | u
  · cases e <;> exact Keeps.done hst fun _ _ hp => hp
  · exact Keeps.done hst fun _ _ hp => hp

/-- `zk_modify` changes a node that is there. -/
theorem keeps_zkModify {path value : Bytes} (hst : Stable I R A) (hidle : Idle tree link I G A)
    (hset : Lets tree link I G A A (fun t t' => cStr path ∈ t.nodes ∧
      ∀ q, t'.nodes.lookup q = if q = cStr path then some value else t.nodes.lookup q)) :
    Keeps (ServesIn tree link) I R G A (zkModify path value) (fun _ => A) := by
  refine Keeps.bind (Q := fun _ => A) (keeps_request hst (fun _ => hst) fun s r s' hi ha hs hl => ?_) fun r => ?_
  · rcases serves_set hs with ht | hch
    · exact hidle s s' hi ha ht hl
    · exact hset s s' hi ha hch hl
  · rcases r with e | u
    · cases e <;> exact Keeps.done hst fun _ _ hp => hp
    · exact Keeps.done hst fun _ _ hp => hp

/-- `zk_create` where every node on the way is a directory that anybody may make. -/
theorem keeps_zkCreateFuel_dirs {dir : Bytes → Prop} (hst : Stable I R A) (hidle : Idle tree link I G A)
    (hdir : ∀ q v, dir q → Lets tree link I G A A (Inserted q v)) : ∀ (fuel : Nat) (path value : Bytes),
    (∀ q, Above q (cStr path) → dir q) →
      Keeps (ServesIn tree link) I R G A (zkCreateFuel fuel path value) (fun _ => A) := by
  intro fuel
  induction fuel with
  | zero => exact fun _ _ _ => Keeps.done hst fun _ _ hp => hp
  | succ fuel ih =>
    intro path value hdirs
    have hdone : ∀ ret, Keeps (ServesIn tree link) I R G A (.done ret : Zoo Ret) (fun _ => A) :=
      fun ret => Keeps.done hst fun _ _ hp => hp
    refine Keeps.bind (Q := fun _ => A) (keeps_request hst (fun _ => hst) fun s r s' hi ha hs hl => ?_) fun r => ?_
    · have hself := hdir _ value (hdirs _ (Above.refl _))
      rcases serves_create hs with ⟨-, hin⟩ | ⟨e, -, ⟨ht, -⟩ | ⟨hin, -⟩⟩
      · exact hself s s' hi ha hin hl
      · exact hidle s s' hi ha ht hl
      · exact hself s s' hi ha hin hl
    · rcases r with e | u
      · cases e with
        | noNode =>
          refine Keeps.bind (Q := fun _ => A) (ih (parentNode path) []
            fun q hq => hdirs q (hq.trans (Manager.above_parentNode path))) fun ret => ?_
          cases ret with
          | ok => exact ih path value hdirs
          | errZooAlreadyExist => exact ih path value hdirs
          | _ => exact hdone _
        | _ => exact hdone _
      · exact hdone _

/-- **`zk_create`**: the nodes above are directories; where it answers `QCONF_OK` the node has been
inserted, and where it answers that there is one, there was. -/
theorem keeps_zkCreateFuel {dir : Bytes → Prop} {path value : Bytes} (hst : Stable I R A) (hB : Stable I R B)
    (hC : Stable I R C) (hidle : Idle tree link I G A) (hdir : ∀ q v, dir q → Lets tree link I G A A (Inserted q v))
    (hdirs : ∀ q, Above q (cStr (parentNode path)) → dir q)
    (hins : Lets tree link I G A B (Inserted (cStr path) value))
    (hhere : ∀ s, I s → A s → cStr path ∈ (tree s).nodes → C s)
    (hhere' : Idle tree link I G C) : ∀ fuel,
    Keeps (ServesIn tree link) I R G A (zkCreateFuel fuel path value)
      (fun ret s => (ret = .ok → B s) ∧ (ret = .errZooAlreadyExist → C s)) := by
  have hfail : ∀ {A₀ : σ → Prop} {ret : Ret}, Stable I R A₀ → ret ≠ .ok → ret ≠ .errZooAlreadyExist →
      Keeps (ServesIn tree link) I R G A₀ (.done ret : Zoo Ret)
        (fun ret s => (ret = .ok → B s) ∧ (ret = .errZooAlreadyExist → C s)) :=
    fun h₀ h₁ h₂ => Keeps.done h₀ fun _ _ _ => ⟨fun h => absurd h h₁, fun h => absurd h h₂⟩
  intro fuel
  induction fuel with
  | zero => exact hfail hst (by simp) (by simp)
  | succ fuel ih =>
    have hQ : ∀ r : Except ZooErr Unit, Stable I R (fun s => (r = .ok () → B s) ∧
        (r = .error .nodeExists → C s) ∧ (r = .error .noNode → A s)) := fun r =>
      (Stable.imp hB _).and ((Stable.imp hC _).and (Stable.imp hst _))
    refine Keeps.bind (Q := fun r s => (r = .ok () → B s) ∧ (r = .error .nodeExists → C s) ∧
      (r = .error .noNode → A s)) (keeps_request hst (fun r => ?_) fun s r s' hi ha hs hl => ?_) fun r => ?_
    · exact hQ r
    · rcases serves_create hs with ⟨rfl, hin⟩ | ⟨e, rfl, ⟨ht, hex⟩ | ⟨hin, hno, hex⟩⟩
      · obtain ⟨hg, hb⟩ := hins s s' hi ha hin hl
        exact ⟨hg, fun _ => hb, fun h => absurd h (by simp), fun h => absurd h (by simp)⟩
      · obtain ⟨hg, ha'⟩ := hidle s s' hi ha ht hl
        refine ⟨hg, fun h => absurd h (by simp), fun h => ?_, fun _ => ha'⟩
        exact (hhere' s s' hi (hhere s hi ha (hex (Except.error.inj h))) ht hl).2
      · obtain ⟨hg, -⟩ := hins s s' hi ha hin hl
        exact ⟨hg, fun h => absurd h (by simp), fun h => absurd (Except.error.inj h) hex,
          fun h => absurd (Except.error.inj h) hno⟩
    · rcases r with e | u
      · cases e with
        | noNode =>
          refine Keeps.weaken ?_ (hQ _) (fun _ _ h => h.2.2 rfl) (fun _ _ _ h => h)
          refine Keeps.bind (Q := fun _ => A)
            (keeps_zkCreateFuel_dirs hst hidle hdir fuel (parentNode path) [] hdirs) fun ret => ?_
          cases ret with
          | ok => exact ih
          | errZooAlreadyExist => exact ih
          | _ => exact hfail hst (by simp) (by simp)
        | nodeExists => exact Keeps.done (hQ _) fun _ _ h => ⟨fun h' => absurd h' (by simp), fun _ => h.2.1 rfl⟩
        | _ => exact hfail (hQ _) (by simp) (by simp)
      · exact Keeps.done (hQ _) fun _ _ h => ⟨fun _ => h.1 rfl, fun h' => absurd h' (by simp)⟩

/-- `zk_delete_exist`: where it answers `QCONF_OK` or that there is no node, the node is not there. -/
theorem keeps_zkDeleteExist {path : Bytes} (hst : Stable I R A) (hB : Stable I R B) (hidle : Idle tree link I G A)
    (hdel : Lets tree link I G A B (Removed (cStr path)))
    (hno : ∀ s s', I s → A s → cStr path ∉ (tree s).nodes → tree s' = tree s → link s s' → B s') :
    Keeps (ServesIn tree link) I R G A (zkDeleteExist path)
      (fun ret s => ret = .ok ∨ ret = .errZooNotExist → B s) := by
  refine Keeps.bind (Q := fun r s => r = .ok () ∨ r = .error .noNode → B s)
    (keeps_request hst (fun r => Stable.imp hB _) fun s r s' hi ha hs hl => ?_) fun r => ?_
  · rcases serves_delete hs with ⟨rfl, hrem⟩ | ⟨e, rfl, ⟨ht, hn⟩ | ⟨hrem, hne⟩⟩
    · obtain ⟨hg, hb⟩ := hdel s s' hi ha hrem hl
      exact ⟨hg, fun _ => hb⟩
    · refine ⟨(hidle s s' hi ha ht hl).1, fun h => ?_⟩
      have he : e = .noNode := h.elim (fun h => absurd h (by simp)) Except.error.inj
      exact hno s s' hi ha (hn he) ht hl
    · refine ⟨(hdel s s' hi ha hrem hl).1, fun h => ?_⟩
      exact absurd (h.elim (fun h => absurd h (by simp)) Except.error.inj) hne
  · rcases r with e | u
    · cases e with
      | noNode => exact Keeps.done (Stable.imp hB _) fun _ _ h _ => h (Or.inr rfl)
      | _ => exact Keeps.done (Stable.imp hB _) fun _ _ _ h => absurd h (by simp)
    · exact Keeps.done (Stable.imp hB _) fun _ _ h _ => h (Or.inl rfl)

theorem keeps_zkDelete {path : Bytes} (hst : Stable I R A) (hB : Stable I R B) (hidle : Idle tree link I G A)
    (hdel : Lets tree link I G A B (Removed (cStr path)))
    (hno : ∀ s s', I s → A s → cStr path ∉ (tree s).nodes → tree s' = tree s → link s s' → B s') :
    Keeps (ServesIn tree link) I R G A (zkDelete path) (fun ret s => ret = .ok → B s) := by
  refine Keeps.bind (keeps_zkDeleteExist hst hB hidle hdel hno) fun ret => ?_
  cases ret with
  | errZooNotExist => exact Keeps.done (Stable.imp hB _) fun _ _ h _ => h (Or.inr rfl)
  | ok => exact Keeps.done (Stable.imp hB _) fun _ _ h _ => h (Or.inl rfl)
  | _ => exact Keeps.done (Stable.imp hB _) fun _ _ _ h => absurd h (by simp)

end QConf.Program
