import QConf.Zookeeper.Tree

/-!
# The nodes of a gray release

A gray release lives below `/qconf/__qconf_notify`: one node for each client in
`client`, the pieces of its content in `content`, and in `backlink` the list of
its clients.  The agent and the manager build the same names.
-/

namespace QConf

/-- `/qconf/__qconf_notify`. -/
def notifyPrefix : Bytes :=
  [47, 113, 99, 111, 110, 102, 47, 95, 95, 113, 99, 111, 110, 102, 95, 110, 111, 116, 105, 102, 121]
/-- `QCONF_NOTIFY_CLIENT_PREFIX`: `client` below it. -/
def notifyClientPrefix : Bytes := notifyPrefix ++ [47, 99, 108, 105, 101, 110, 116]
/-- `QCONF_NOTIFY_CONTENT_PREFIX`: `content` below it. -/
def notifyContentPrefix : Bytes := notifyPrefix ++ [47, 99, 111, 110, 116, 101, 110, 116]
/-- `QCONF_NOTIFY_BACKLINK_PREFIX`: `backlink` below it. -/
def notifyBacklinkPrefix : Bytes := notifyPrefix ++ [47, 98, 97, 99, 107, 108, 105, 110, 107]

/-- The character `_`. -/
def underscore : UInt8 := 95

/-- The decimal text of a number, as `integer_to_string` and the stream of the
agent write it. -/
def integerToString (n : Nat) : Bytes := (Nat.toDigits 10 n).map (fun c => UInt8.ofNat c.toNat)

def clientNode (client : Bytes) : Bytes := notifyClientPrefix ++ slash :: client
def contentNode (grayId : Bytes) (i : Nat) : Bytes :=
  notifyContentPrefix ++ slash :: (grayId ++ underscore :: integerToString i)
def backlinkNode (grayId : Bytes) : Bytes := notifyBacklinkPrefix ++ slash :: grayId

/-- The text of `gray_generate_id` for a time of day: `GRAYID`, the seconds, a dash
and the microseconds. -/
def grayGenerateId (sec usec : Nat) : Bytes :=
  [71, 82, 65, 89, 73, 68] ++ integerToString sec ++ 45 :: integerToString usec

/-! ### Decimal texts -/

theorem digit_bounds {c : Char} (h : c.isDigit = true) : 48 ≤ c.toNat ∧ c.toNat ≤ 57 := by
  simp only [Char.isDigit, Bool.and_eq_true, decide_eq_true_eq] at h
  exact ⟨h.1, h.2⟩

theorem isDigit_of_mem {n : Nat} {c : Char} (h : c ∈ Nat.toDigits 10 n) : c.isDigit = true :=
  Nat.isDigit_of_mem_toDigits (by decide) (by decide) h

theorem mem_integerToString {n : Nat} {b : UInt8} (h : b ∈ integerToString n) : 48 ≤ b ∧ b ≤ 57 := by
  obtain ⟨c, hc, rfl⟩ := List.mem_map.mp h
  obtain ⟨h1, h2⟩ := digit_bounds (isDigit_of_mem hc)
  have hlt : c.toNat < 2 ^ 8 := by omega
  constructor
  · rw [UInt8.le_iff_toNat_le, UInt8.toNat_ofNat_of_lt' hlt]
    exact h1
  · rw [UInt8.le_iff_toNat_le, UInt8.toNat_ofNat_of_lt' hlt]
    exact h2

theorem integerToString_inj {n m : Nat} (h : integerToString n = integerToString m) : n = m := by
  have hback : ∀ k, (integerToString k).map (fun b => Char.ofNat b.toNat) = Nat.toDigits 10 k := by
    intro k
    rw [integerToString, List.map_map]
    refine (List.map_congr_left (fun c hc => ?_)).trans (List.map_id _)
    obtain ⟨-, h2⟩ := digit_bounds (isDigit_of_mem hc)
    have hlt : c.toNat < 2 ^ 8 := by omega
    simp only [Function.comp_apply, UInt8.toNat_ofNat_of_lt' hlt, Char.ofNat_toNat, id]
  have := congrArg (List.map (fun b : UInt8 => Char.ofNat b.toNat)) h
  rw [hback, hback] at this
  rw [← Nat.ofDigitChars_ten_toDigits (n := n), this, Nat.ofDigitChars_ten_toDigits]

/-! ### Valid names -/

theorem plain_of_mem {c : Bytes} (hne : c ≠ []) (h : ∀ b ∈ c, 45 ≤ b ∧ b ≠ slash ∧ b ≠ dot) : Plain c :=
  ⟨hne, fun b hb => ⟨(h b hb).2.1, (h b hb).2.2, UInt8.le_trans (by decide) (h b hb).1⟩⟩

theorem digit_plain {n : Nat} {b : UInt8} (h : b ∈ integerToString n) :
    45 ≤ b ∧ b ≠ slash ∧ b ≠ dot := by
  obtain ⟨h1, h2⟩ := mem_integerToString h
  refine ⟨UInt8.le_trans (by decide) h1, ?_, ?_⟩
  · rintro rfl
    exact absurd h1 (by decide)
  · rintro rfl
    exact absurd h1 (by decide)

theorem grayGenerateId_mem {sec usec : Nat} {b : UInt8} (h : b ∈ grayGenerateId sec usec) :
    45 ≤ b ∧ b ≠ slash ∧ b ≠ dot := by
  simp only [grayGenerateId, List.mem_append, List.mem_cons, List.not_mem_nil, or_false] at h
  rcases h with (h | h) | h | h
  · rcases h with rfl | rfl | rfl | rfl | rfl | rfl <;> decide
  · exact digit_plain h
  · subst h
    decide
  · exact digit_plain h

theorem grayGenerateId_plain (sec usec : Nat) : Plain (grayGenerateId sec usec) :=
  plain_of_mem (by simp [grayGenerateId]) (fun _ h => grayGenerateId_mem h)

theorem notifyContentPrefix_valid : isValidPath notifyContentPrefix = true := by decide
theorem notifyBacklinkPrefix_valid : isValidPath notifyBacklinkPrefix = true := by decide

theorem contentNode_valid (sec usec i : Nat) :
    isValidPath (contentNode (grayGenerateId sec usec) i) = true := by
  refine isValidPath_append notifyContentPrefix_valid (by decide) (plain_of_mem (by simp) ?_)
  intro b hb
  simp only [List.mem_append, List.mem_cons] at hb
  rcases hb with h | rfl | h
  · exact grayGenerateId_mem h
  · decide
  · exact digit_plain h

theorem backlinkNode_valid (sec usec : Nat) :
    isValidPath (backlinkNode (grayGenerateId sec usec)) = true :=
  isValidPath_append notifyBacklinkPrefix_valid (by decide) (grayGenerateId_plain sec usec)

/-! ### Different nodes have different names -/

theorem contentNode_inj {g : Bytes} {i j : Nat} (h : contentNode g i = contentNode g j) : i = j := by
  unfold contentNode at h
  have h1 := List.append_cancel_left h
  rw [List.cons.injEq] at h1
  have h2 := List.append_cancel_left h1.2
  rw [List.cons.injEq] at h2
  exact integerToString_inj h2.2

theorem clientNode_inj {c d : Bytes} (h : clientNode c = clientNode d) : c = d := by
  have h1 := List.append_cancel_left h
  rw [List.cons.injEq] at h1
  exact h1.2

/-! ### Nodes above nodes -/

theorem above_clientNode_iff {c d : Bytes} : Above (clientNode c) (clientNode d) ↔ Above c d := by
  have h := above_append_iff (notifyClientPrefix ++ [slash]) c d
  rwa [List.append_assoc, List.append_assoc] at h

section

variable {g : Bytes}

theorem slash_not_mem_piece (hg : slash ∉ g) (i : Nat) : slash ∉ g ++ underscore :: integerToString i := by
  rw [List.mem_append, List.mem_cons]
  rintro (h | h | h)
  · exact hg h
  · exact absurd h (by decide)
  · exact (digit_plain h).2.1 rfl

/-- What is above a content node is the node or one of the fixed nodes. -/
theorem above_contentNode {q : Bytes} (hg : slash ∉ g) {i : Nat} (h : Above q (contentNode g i)) :
    q = contentNode g i ∨ q.length ≤ 29 :=
  (h.eq_or_above (slash_not_mem_piece hg i)).imp id (fun ha => ha.length_le)

theorem above_backlinkNode {q : Bytes} (hg : slash ∉ g) (h : Above q (backlinkNode g)) :
    q = backlinkNode g ∨ Above q notifyBacklinkPrefix :=
  h.eq_or_above hg

theorem contentNode_length (g : Bytes) (i : Nat) :
    (contentNode g i).length = 31 + g.length + (integerToString i).length := by
  simp only [contentNode, List.length_append, List.length_cons,
    show notifyContentPrefix.length = 29 from rfl]
  omega

theorem not_above_contentNode (hg : slash ∉ g) {i j : Nat} (h : Above (contentNode g j) (contentNode g i)) :
    j = i := by
  rcases above_contentNode hg h with h | h
  · exact contentNode_inj h
  · rw [contentNode_length] at h
    omega

end

/-- The three kinds of nodes differ in their characters 22 and 23, so no node of one kind is
above a node of another. -/
theorem not_above_client_content (c g : Bytes) (i : Nat) : ¬ Above (clientNode c) (contentNode g i) := by
  intro h
  have := h.getElem? (i := 23) (by simp [clientNode, notifyClientPrefix, notifyPrefix])
  exact absurd (show some (111 : UInt8) = some 108 from this) (by decide)

theorem not_above_client_backlink (c g : Bytes) : ¬ Above (clientNode c) (backlinkNode g) := by
  intro h
  have := h.getElem? (i := 22) (by simp [clientNode, notifyClientPrefix, notifyPrefix])
  exact absurd (show some (98 : UInt8) = some 99 from this) (by decide)

theorem not_above_content_client (g : Bytes) (i : Nat) (c : Bytes) :
    ¬ Above (contentNode g i) (clientNode c) := by
  intro h
  have := h.getElem? (i := 23) (by simp [contentNode, notifyContentPrefix, notifyPrefix])
  exact absurd (show some (108 : UInt8) = some 111 from this) (by decide)

theorem not_above_content_backlink (g : Bytes) (i : Nat) (g' : Bytes) :
    ¬ Above (contentNode g i) (backlinkNode g') := by
  intro h
  have := h.getElem? (i := 22) (by simp [contentNode, notifyContentPrefix, notifyPrefix])
  exact absurd (show some (98 : UInt8) = some 99 from this) (by decide)

theorem not_above_backlink_content (g g' : Bytes) (i : Nat) : ¬ Above (backlinkNode g) (contentNode g' i) := by
  intro h
  have := h.getElem? (i := 22) (by simp [backlinkNode, notifyBacklinkPrefix, notifyPrefix])
  exact absurd (show some (99 : UInt8) = some 98 from this) (by decide)

theorem not_above_backlink_client (g c : Bytes) : ¬ Above (backlinkNode g) (clientNode c) := by
  intro h
  have := h.getElem? (i := 22) (by simp [backlinkNode, notifyBacklinkPrefix, notifyPrefix])
  exact absurd (show some (99 : UInt8) = some 98 from this) (by decide)

theorem clientNode_ne_contentNode (c g : Bytes) (i : Nat) : clientNode c ≠ contentNode g i :=
  fun h => not_above_client_content c g i (Or.inl h)

theorem clientNode_ne_backlinkNode (c g : Bytes) : clientNode c ≠ backlinkNode g :=
  fun h => not_above_client_backlink c g (Or.inl h)

theorem contentNode_ne_backlinkNode (g g' : Bytes) (i : Nat) : contentNode g i ≠ backlinkNode g' :=
  fun h => not_above_content_backlink g i g' (Or.inl h)

end QConf
