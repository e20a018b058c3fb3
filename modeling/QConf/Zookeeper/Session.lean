import QConf.Zookeeper.Tree

/-!
# Calls to ZooKeeper that can fail

A session is the tree of the server together with what will go wrong: one entry
for each call to come, `none` where the call goes through.  Once the entries are
used up nothing fails any more.  A lost connection may hit a request before or
after the server has applied it.

The agent and the manager wrap every call in the same loop: `ZINVALIDSTATE` and
`ZMARSHALLINGERROR` are tried again, three times in all.  What the attempts of a call
meet is read off the entries alone (`met`), and so is whether a number of calls are all
answered (`answered`).
-/

namespace QConf

/-- What can go wrong with a call.  The first two come from the client library,
before anything is sent. -/
inductive Fault
  | invalidState
  | marshallingError
  | connectionLoss (applied : Bool)
  deriving DecidableEq, Repr

structure Zk where
  tree : ZkTree
  faults : List (Option Fault)

/-- A session without faults. -/
def Zk.quiet (t : ZkTree) : Zk := ⟨t, []⟩

/-- What the server does with a request, for a session that goes on with `faults`. -/
def ZkTree.serve {α : Type} (t : ZkTree) (op : ZkTree → Except ZooErr (α × ZkTree))
    (faults : List (Option Fault)) : Except ZooErr α × Zk :=
  match op t with
  | .ok (a, t') => (.ok a, ⟨t', faults⟩)
  | .error e => (.error e, ⟨t, faults⟩)

/-- One call. -/
def Zk.call {α : Type} (zk : Zk) (op : ZkTree → Except ZooErr (α × ZkTree)) : Except ZooErr α × Zk :=
  match zk.faults with
  | [] => zk.tree.serve op []
  | none :: rest => zk.tree.serve op rest
  | some .invalidState :: rest => (.error .invalidState, ⟨zk.tree, rest⟩)
  | some .marshallingError :: rest => (.error .marshallingError, ⟨zk.tree, rest⟩)
  | some (.connectionLoss false) :: rest => (.error .connectionLoss, ⟨zk.tree, rest⟩)
  | some (.connectionLoss true) :: rest => (.error .connectionLoss, (zk.tree.serve op rest).2)

/-- The errors after which a call is tried again. -/
def ZooErr.again : ZooErr → Bool
  | .invalidState => true
  | .marshallingError => true
  | _ => false

/-- The loop around a call, with `n` more attempts after the next one. -/
def Zk.retry {α : Type} (op : ZkTree → Except ZooErr (α × ZkTree)) : Nat → Zk → Except ZooErr α × Zk
  | 0, zk => zk.call op
  | n + 1, zk =>
    match zk.call op with
    | (.ok a, zk) => (.ok a, zk)
    | (.error e, zk) => if e.again then Zk.retry op n zk else (.error e, zk)

/-- `QCONF_GET_RETRIES` attempts. -/
def Zk.calls {α : Type} (zk : Zk) (op : ZkTree → Except ZooErr (α × ZkTree)) : Except ZooErr α × Zk :=
  Zk.retry op 2 zk

/-! ### The calls that are made -/

/-- `QCONF_MAX_VALUE_SIZE`, the buffer of `zoo_get`. -/
def maxValueSize : Nat := 1048577

/-- A node that is there fits the buffer. -/
theorem ZkTree.take_maxValueSize {t : ZkTree} {q d : Bytes} (h : t.nodes.lookup q = some d) :
    d.take maxValueSize = d := by
  have := t.small q d h
  rw [List.take_of_length_le]
  unfold zkMaxData at this
  unfold maxValueSize
  omega

/-- `zoo_get` with a buffer of `QCONF_MAX_VALUE_SIZE` bytes. -/
def Zk.zooGet (zk : Zk) (path : Bytes) : Except ZooErr Bytes × Zk :=
  zk.calls (fun t => (t.get (cStr path)).map (fun d => (d.take maxValueSize, t)))

def Zk.zooExists (zk : Zk) (path : Bytes) : Except ZooErr Unit × Zk :=
  zk.calls (fun t => (t.existsNode (cStr path)).map (fun u => (u, t)))

def Zk.zooGetChildren (zk : Zk) (path : Bytes) : Except ZooErr (Finset Bytes) × Zk :=
  zk.calls (fun t => (t.getChildren (cStr path)).map (fun names => (names, t)))

def Zk.zooCreate (zk : Zk) (path value : Bytes) : Except ZooErr Unit × Zk :=
  zk.calls (fun t => (t.create (cStr path) value).map (fun t' => ((), t')))

def Zk.zooSet (zk : Zk) (path value : Bytes) : Except ZooErr Unit × Zk :=
  zk.calls (fun t => (t.set (cStr path) value).map (fun t' => ((), t')))

def Zk.zooDelete (zk : Zk) (path : Bytes) : Except ZooErr Unit × Zk :=
  zk.calls (fun t => (t.delete (cStr path)).map (fun t' => ((), t')))

/-! ### What a call can do -/

section

variable {α : Type} {op : ZkTree → Except ZooErr (α × ZkTree)} {zk zk' : Zk} {r : Except ZooErr α}

/-- The outcomes of a call: the server's answer, or an error of which the server
may have seen the request. -/
inductive Called (op : ZkTree → Except ZooErr (α × ZkTree)) (t t' : ZkTree) : Except ZooErr α → Prop
  | answered {a : α} (h : op t = .ok (a, t')) : Called op t t' (.ok a)
  | refused {e : ZooErr} (h : op t = .error e) (ht : t' = t) : Called op t t' (.error e)
  | lost {e : ZooErr} (he : e = .connectionLoss ∨ e.again = true)
      (ht : t' = t ∨ ∃ a, op t = .ok (a, t')) : Called op t t' (.error e)

theorem serve_called (t : ZkTree) (op : ZkTree → Except ZooErr (α × ZkTree))
    (faults : List (Option Fault)) : Called op t (t.serve op faults).2.tree (t.serve op faults).1 := by
  unfold ZkTree.serve
  cases h : op t with
  | ok p => exact .answered h
  | error e => exact .refused h rfl

theorem call_called (h : zk.call op = (r, zk')) :
    Called op zk.tree zk'.tree r ∧ (∀ e, r = .error e → e.again = true → zk'.tree = zk.tree) := by
  unfold Zk.call at h
  have hserve : ∀ faults, zk.tree.serve op faults = (r, zk') →
      Called op zk.tree zk'.tree r ∧
        (∀ e, r = .error e → e.again = true → zk'.tree = zk.tree) := by
    intro faults hs
    have hc := serve_called zk.tree op faults
    rw [hs] at hc
    refine ⟨hc, fun e he _ => ?_⟩
    cases hc with
    | answered _ => exact absurd he (by simp)
    | refused _ ht => exact ht
    | lost _ ht =>
      rcases ht with ht | ⟨a, ha⟩
      · exact ht
      · simp only [ZkTree.serve, ha, Prod.mk.injEq] at hs
        exact absurd (hs.1.trans he) (by simp)
  split at h
  · exact hserve _ h
  · exact hserve _ h
  · cases h
    exact ⟨.lost (Or.inr rfl) (Or.inl rfl), fun _ _ _ => rfl⟩
  · cases h
    exact ⟨.lost (Or.inr rfl) (Or.inl rfl), fun _ _ _ => rfl⟩
  · cases h
    exact ⟨.lost (Or.inl rfl) (Or.inl rfl), fun _ _ _ => rfl⟩
  · next rest _ =>
    cases h
    refine ⟨.lost (Or.inl rfl) ?_, fun e he ha => ?_⟩
    · unfold ZkTree.serve
      cases ho : op zk.tree with
      | ok p => exact Or.inr ⟨p.1, rfl⟩
      | error e => exact Or.inl rfl
    · cases he
      exact absurd ha (by simp [ZooErr.again])

/-- **The loop around a call does what one call can do.** -/
theorem retry_called : ∀ (n : Nat) (zk zk' : Zk) (r : Except ZooErr α),
    Zk.retry op n zk = (r, zk') → Called op zk.tree zk'.tree r := by
  intro n
  induction n with
  | zero => intro zk zk' r h; exact (call_called h).1
  | succ n ih =>
    intro zk zk' r h
    rw [Zk.retry] at h
    split at h
    · next hc =>
      cases h
      exact (call_called hc).1
    · next e zk₁ hc =>
      split at h
      · next ha =>
        have htree := (call_called hc).2 e rfl ha
        rw [← htree]
        exact ih zk₁ zk' r h
      · cases h
        exact (call_called hc).1

theorem calls_called (h : zk.calls op = (r, zk')) : Called op zk.tree zk'.tree r :=
  retry_called 2 zk zk' r h

/-- Without faults the server's answer is the answer. -/
theorem retry_quiet (t : ZkTree) : ∀ n, Zk.retry op n (.quiet t) = t.serve op [] := by
  intro n
  induction n with
  | zero => rfl
  | succ n ih =>
    rw [Zk.retry, show (Zk.quiet t).call op = t.serve op [] from rfl]
    cases ho : op t with
    | ok p => simp only [ZkTree.serve, ho]
    | error e =>
      simp only [ZkTree.serve, ho]
      split
      · exact ih.trans (by simp only [ZkTree.serve, ho])
      · rfl

theorem calls_quiet (t : ZkTree) (op : ZkTree → Except ZooErr (α × ZkTree)) :
    (Zk.quiet t).calls op = t.serve op [] := retry_quiet t 2

end

/-! ### What the attempts of a call meet -/

/-- What became of a call: the server answered, or the answer did not come; then the server may have
applied the request. -/
inductive Met
  | answered
  | lost (applied : Bool)
  deriving DecidableEq, Repr

/-- What a call meets with `n` more attempts after the next one, and what is left for the next call. -/
def met : Nat → List (Option Fault) → Met × List (Option Fault)
  | _, [] => (.answered, [])
  | _, none :: rest => (.answered, rest)
  | _, some (.connectionLoss applied) :: rest => (.lost applied, rest)
  | 0, some .invalidState :: rest => (.lost false, rest)
  | 0, some .marshallingError :: rest => (.lost false, rest)
  | n + 1, some .invalidState :: rest => met n rest
  | n + 1, some .marshallingError :: rest => met n rest

/-- `k` calls that are all answered, and what is left for the next one. -/
def answered : Nat → List (Option Fault) → Option (List (Option Fault))
  | 0, faults => some faults
  | k + 1, faults =>
    match met 2 faults with
    | (.answered, rest) => answered k rest
    | (.lost _, _) => none

theorem answered_add (k l : Nat) : ∀ faults : List (Option Fault),
    answered (k + l) faults = (answered k faults).bind (answered l) := by
  induction k with
  | zero => intro faults; rw [Nat.zero_add]; rfl
  | succ k ih =>
    intro faults
    rw [Nat.succ_add, answered, answered]
    split
    · exact ih _
    · rfl

/-- Without faults every call is answered. -/
@[simp] theorem answered_nil (k : Nat) : answered k [] = some [] := by
  induction k with
  | zero => rfl
  | succ k ih => exact ih

/-- What comes back of a request that met this. -/
def ZkTree.outcome {α : Type} (t : ZkTree) (op : ZkTree → Except ZooErr (α × ZkTree)) (e : ZooErr) :
    Met × List (Option Fault) → Except ZooErr α × Zk
  | (.answered, rest) => t.serve op rest
  | (.lost false, rest) => (.error e, ⟨t, rest⟩)
  | (.lost true, rest) => (.error e, (t.serve op rest).2)

/-- An error that comes from the client library, not from the server. -/
def ZooErr.Local (e : ZooErr) : Prop := e = .connectionLoss ∨ e.again = true

section

variable {α : Type} {op : ZkTree → Except ZooErr (α × ZkTree)} {t : ZkTree}

/-- **The loop around a call is what its attempts meet**, for a request that the server does not
answer with an error of the library. -/
theorem retry_met (hop : ∀ e, op t = .error e → e.again = false) : ∀ (n : Nat) (faults : List (Option Fault)),
    ∃ e : ZooErr, e.Local ∧ Zk.retry op n ⟨t, faults⟩ = t.outcome op e (met n faults) := by
  have hserve : ∀ n rest faults, (⟨t, faults⟩ : Zk).call op = t.serve op rest →
      Zk.retry op n ⟨t, faults⟩ = t.serve op rest := by
    intro n rest faults hcall
    cases n with
    | zero => exact hcall
    | succ n =>
      rw [Zk.retry, hcall, ZkTree.serve]
      cases ho : op t with
      | ok p => rfl
      | error e => simp only [hop e ho, if_neg Bool.false_ne_true]
  intro n faults
  induction faults generalizing n with
  | nil => exact ⟨.connectionLoss, Or.inl rfl, by cases n <;> exact hserve _ [] [] rfl⟩
  | cons f rest ih =>
    cases f with
    | none => exact ⟨.connectionLoss, Or.inl rfl, by cases n <;> exact hserve _ rest _ rfl⟩
    | some f =>
      cases f with
      | connectionLoss applied =>
        refine ⟨.connectionLoss, Or.inl rfl, ?_⟩
        cases n <;> cases applied <;> rfl
      | invalidState =>
        cases n with
        | zero => exact ⟨.invalidState, Or.inr rfl, rfl⟩
        | succ n => exact ih n
      | marshallingError =>
        cases n with
        | zero => exact ⟨.marshallingError, Or.inr rfl, rfl⟩
        | succ n => exact ih n

theorem calls_met (op : ZkTree → Except ZooErr (α × ZkTree)) (hop : ∀ e, op t = .error e → e.again = false)
    (faults : List (Option Fault)) :
    ∃ e : ZooErr, e.Local ∧ (⟨t, faults⟩ : Zk).calls op = t.outcome op e (met 2 faults) :=
  retry_met hop 2 faults

end

end QConf
