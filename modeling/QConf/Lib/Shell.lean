import Mathlib

/-!
# What a shell reads

The part of the shell command language without quotes, expansions and operators other than `;`.
A text of this part is a list of commands, which `;` and newlines separate; a command is a list of
words, which blanks separate; and a command that is one word of the form `name=value` is an
assignment.  `commands` reads a text, one character after the other, and is `none` for a text that
is not of this part: what a shell makes of it depends on more than the text.

* `commands_assignment_append`: an assignment of a plain value in front of a text is read as this
  assignment, and the text as if it stood alone.
* `plain_of_assign`: whatever the text is, a value that is read in an assignment is plain.
-/

namespace Shell

abbrev Text := List UInt8

/-! ### Characters -/

/-- The quotes, the characters that start an expansion, and the operators `&|<>()`; and the NUL,
which ends a text. -/
def refused : List UInt8 := [39, 34, 92, 36, 96, 38, 124, 60, 62, 40, 41, 0]

/-- Space and tab. -/
def blanks : List UInt8 := [32, 9]

def newline : UInt8 := 10
def semicolon : UInt8 := 59
def equals : UInt8 := 61
/-- `#`, which starts a comment where a word would start. -/
def sharp : UInt8 := 35
def tilde : UInt8 := 126
def colon : UInt8 := 58

/-- A character that stands for itself inside a word. -/
def Ordinary (c : UInt8) : Prop := c ∉ refused ∧ c ∉ blanks ∧ c ≠ newline ∧ c ≠ semicolon

instance (c : UInt8) : Decidable (Ordinary c) := inferInstanceAs (Decidable (_ ∧ _ ∧ _ ∧ _))

/-- A `~` at the start of a value or behind a colon, where a directory is put in its place. -/
def hasTilde (value : Text) : Bool :=
  value.head? == some tilde || (value.zip value.tail).contains (colon, tilde)

/-- A value that a shell takes as it stands. -/
def Plain (value : Text) : Prop := (∀ c ∈ value, Ordinary c) ∧ hasTilde value = false

instance (value : Text) : Decidable (Plain value) := inferInstanceAs (Decidable (_ ∧ _))

/-! ### Words -/

/-- How far a text is read: the word that was begun, the words of its command before it, and the
commands before that. -/
structure Reader where
  word : Text
  words : List Text
  done : List (List Text)
  deriving DecidableEq

def Reader.start : Reader := ⟨[], [], []⟩

def Reader.endWord (r : Reader) : Reader :=
  if r.word = [] then r else { r with word := [], words := r.words ++ [r.word] }

def Reader.endCommand (r : Reader) : Reader :=
  if r.endWord.words = [] then r.endWord else ⟨[], [], r.done ++ [r.endWord.words]⟩

/-- One character.  A `;` without a command before it is an error. -/
def Reader.step (r : Reader) (c : UInt8) : Option Reader :=
  if c ∈ refused ∨ c = sharp ∧ r.word = [] then none
  else if c ∈ blanks then some r.endWord
  else if c = newline then some r.endCommand
  else if c = semicolon then if r.endWord.words = [] then none else some r.endCommand
  else some { r with word := r.word ++ [c] }

def read (r : Reader) (text : Text) : Option Reader := text.foldlM Reader.step r

/-! ### Commands -/

inductive Command
  | assign (name value : Text)
  | run (words : List Text)
  deriving DecidableEq

/-- Letters, digits and `_`, not with a digit in front. -/
def isName (name : Text) : Bool :=
  name.all (fun c => (97 ≤ c && c ≤ 122) || (65 ≤ c && c ≤ 90) || (48 ≤ c && c ≤ 57) || c == 95) &&
    name.head?.any (fun c => !(48 ≤ c && c ≤ 57))

/-- The name and the value of a word with an `=` behind a name. -/
def assignment (word : Text) : Option (Text × Text) :=
  if isName (word.takeWhile (· != equals)) = true ∧ equals ∈ word then
    some (word.takeWhile (· != equals), (word.dropWhile (· != equals)).tail)
  else none

/-- What the words of a command say. -/
def commandOf : List Text → Option Command
  | [word] =>
    match assignment word with
    | none => some (.run [word])
    | some (name, value) => if hasTilde value then none else some (.assign name value)
  | words => some (.run words)

/-- The commands of a text. -/
def commands (text : Text) : Option (List Command) :=
  (read .start text).bind (fun r => r.endCommand.done.mapM commandOf)

/-! ### Texts one after the other -/

section

variable {r r' : Reader} {c : UInt8} {name value text word : Text}

/-- The reader with commands before those it has read. -/
def Reader.behind (done : List (List Text)) (r : Reader) : Reader := { r with done := done ++ r.done }

theorem endWord_behind (done : List (List Text)) (r : Reader) :
    (r.behind done).endWord = r.endWord.behind done := by
  unfold Reader.endWord Reader.behind
  split <;> rfl

theorem endCommand_behind (done : List (List Text)) (r : Reader) :
    (r.behind done).endCommand = r.endCommand.behind done := by
  unfold Reader.endCommand
  rw [endWord_behind]
  change (if r.endWord.words = [] then _ else _) = _
  split
  · rfl
  · simp only [Reader.behind, List.append_assoc]

theorem step_behind (done : List (List Text)) (r : Reader) (c : UInt8) :
    (r.behind done).step c = (r.step c).map (Reader.behind done) := by
  have hwords : (r.endWord.behind done).words = r.endWord.words := rfl
  have hword : (r.behind done).word = r.word := rfl
  unfold Reader.step
  rw [endWord_behind, endCommand_behind, hwords, hword]
  split
  · rfl
  split
  · rfl
  split
  · rfl
  split
  · split <;> rfl
  · rfl

theorem read_behind (done : List (List Text)) (text : Text) : ∀ r : Reader,
    read (r.behind done) text = (read r text).map (Reader.behind done) := by
  induction text with
  | nil => exact fun r => rfl
  | cons c text ih =>
    intro r
    change ((r.behind done).step c).bind (fun r => read r text) =
      ((r.step c).bind (fun r => read r text)).map (Reader.behind done)
    rw [step_behind]
    cases r.step c with
    | none => rfl
    | some r' => exact ih r'

theorem read_append (r : Reader) (text text' : Text) :
    read r (text ++ text') = (read r text).bind (fun r => read r text') := List.foldlM_append

/-- **Behind a command the reading starts anew.** -/
theorem commands_append {words : List Text} (h : read .start text = some ⟨[], [], [words]⟩) (text' : Text) :
    commands (text ++ text') =
      (commandOf words).bind (fun c => (commands text').map (fun cs => c :: cs)) := by
  have hstart : (⟨[], [], [words]⟩ : Reader) = Reader.start.behind [words] := rfl
  rw [commands, read_append, h, Option.bind_some, hstart, read_behind, commands]
  cases read .start text' with
  | none => cases commandOf words <;> rfl
  | some r =>
    rw [Option.map_some, Option.bind_some, Option.bind_some, endCommand_behind]
    change ([words] ++ r.endCommand.done).mapM commandOf = _
    rw [List.singleton_append, List.mapM_cons]
    cases commandOf words with
    | none => rfl
    | some c => cases r.endCommand.done.mapM commandOf <;> rfl

/-! ### Assignments -/

/-- An ordinary character that does not start a comment joins the word. -/
theorem step_ordinary (hc : Ordinary c) (hword : r.word ≠ [] ∨ c ≠ sharp) :
    r.step c = some { r with word := r.word ++ [c] } := by
  obtain ⟨href, hblank, hline, hsemi⟩ := hc
  have hno : ¬ (c ∈ refused ∨ c = sharp ∧ r.word = []) := by
    rintro (h | ⟨h, hnil⟩)
    · exact href h
    · exact hword.elim (fun hne => hne hnil) (fun hne => hne h)
  rw [Reader.step, if_neg hno, if_neg hblank, if_neg hline, if_neg hsemi]

theorem read_ordinary (hword : r.word ≠ []) (h : ∀ c ∈ text, Ordinary c) :
    read r text = some { r with word := r.word ++ text } := by
  induction text generalizing r with
  | nil => rw [List.append_nil]; rfl
  | cons c text ih =>
    change (r.step c).bind (fun r => read r text) = _
    rw [step_ordinary (h c List.mem_cons_self) (Or.inl hword), Option.bind_some,
      ih (by simp) (fun c' hc' => h c' (List.mem_cons_of_mem _ hc'))]
    simp

/-- A word and a `;` are a command. -/
theorem read_word (hne : word ≠ []) (hword : ∀ c ∈ word, Ordinary c) (hhead : word.head? ≠ some sharp) :
    read .start (word ++ [semicolon]) = some ⟨[], [], [[word]]⟩ := by
  obtain ⟨c, rest, rfl⟩ := List.exists_cons_of_ne_nil hne
  have hc : c ≠ sharp := fun h => hhead (by rw [h]; rfl)
  have hfirst : read .start (c :: rest) = some ⟨c :: rest, [], []⟩ := by
    change (Reader.start.step c).bind (fun r => read r rest) = _
    rw [step_ordinary (hword c List.mem_cons_self) (Or.inr hc), Option.bind_some,
      read_ordinary (by simp) (fun c' hc' => hword c' (List.mem_cons_of_mem _ hc'))]
    rfl
  rw [read_append, hfirst]
  rfl

theorem ordinary_equals : Ordinary equals := by decide

/-- Neither `=` nor `#` is in a name. -/
theorem ne_of_isName (hname : isName name = true) (hc : c ∈ name) : c ≠ equals ∧ c ≠ sharp := by
  have hclass := List.all_eq_true.mp (Bool.and_eq_true_iff.mp hname).1 c hc
  constructor <;> rintro rfl <;> exact absurd hclass (by decide)

theorem assignment_append (hname : isName name = true) :
    assignment (name ++ equals :: value) = some (name, value) := by
  have hne : ∀ c ∈ name, (c != equals) = true := by
    intro c hc
    rw [bne_iff_ne]
    exact (ne_of_isName hname hc).1
  have htake : (name ++ equals :: value).takeWhile (· != equals) = name := by
    rw [List.takeWhile_append_of_pos hne]
    simp
  have hdrop : (name ++ equals :: value).dropWhile (· != equals) = equals :: value := by
    rw [List.dropWhile_append_of_pos hne]
    simp
  rw [assignment, htake, hdrop, if_pos ⟨hname, by simp⟩]
  rfl

/-- **An assignment of a plain value.** -/
theorem commands_assignment_append (hname : isName name = true) (hord : ∀ c ∈ name, Ordinary c)
    (hvalue : Plain value) (text : Text) :
    commands (name ++ equals :: value ++ semicolon :: text) =
      (commands text).map (fun cs => .assign name value :: cs) := by
  have hread : read .start (name ++ equals :: value ++ [semicolon]) =
      some ⟨[], [], [[name ++ equals :: value]]⟩ := by
    refine read_word (by simp) (fun c' hc' => ?_) ?_
    · rcases List.mem_append.mp hc' with h | h
      · exact hord c' h
      · rcases List.mem_cons.mp h with rfl | h
        · exact ordinary_equals
        · exact hvalue.1 c' h
    · cases hcs : name with
      | nil => simp [equals, sharp]
      | cons c cs =>
        intro h
        exact (ne_of_isName hname (hcs ▸ List.mem_cons_self)).2 (Option.some.inj h)
  have hsplit : name ++ equals :: value ++ semicolon :: text =
      (name ++ equals :: value ++ [semicolon]) ++ text := by simp
  rw [hsplit, commands_append hread, commandOf, assignment_append hname]
  simp [hvalue.2]

/-! ### What is read in an assignment -/

/-- All words that were read, the one that was begun included. -/
def Reader.All (P : Text → Prop) (r : Reader) : Prop :=
  P r.word ∧ (∀ w ∈ r.words, P w) ∧ ∀ ws ∈ r.done, ∀ w ∈ ws, P w

theorem Reader.All.endWord {P : Text → Prop} (hnil : P []) (h : r.All P) : r.endWord.All P := by
  unfold Reader.endWord
  split
  · exact h
  · refine ⟨hnil, fun w hw => ?_, h.2.2⟩
    rcases List.mem_append.mp hw with hw | hw
    · exact h.2.1 w hw
    · rw [List.mem_singleton.mp hw]
      exact h.1

theorem Reader.All.endCommand {P : Text → Prop} (hnil : P []) (h : r.All P) : r.endCommand.All P := by
  have hend := h.endWord hnil
  unfold Reader.endCommand
  split
  · exact hend
  · refine ⟨hnil, by simp, fun ws hws => ?_⟩
    rcases List.mem_append.mp hws with hws | hws
    · exact h.2.2 ws hws
    · rw [List.mem_singleton.mp hws]
      exact hend.2.1

/-- **A word has ordinary characters only.** -/
theorem read_all (h : read r text = some r') (hr : r.All (fun w => ∀ c ∈ w, Ordinary c)) :
    r'.All (fun w => ∀ c ∈ w, Ordinary c) := by
  have hnil : ∀ c ∈ ([] : Text), Ordinary c := by simp
  induction text generalizing r with
  | nil => exact Option.some.inj h ▸ hr
  | cons c text ih =>
    obtain ⟨r₁, hstep, hread⟩ := Option.bind_eq_some_iff.mp h
    refine ih hread ?_
    unfold Reader.step at hstep
    split at hstep
    · exact absurd hstep (by simp)
    next href =>
    split at hstep
    · exact Option.some.inj hstep ▸ hr.endWord hnil
    next hblank =>
    split at hstep
    · exact Option.some.inj hstep ▸ hr.endCommand hnil
    next hline =>
    split at hstep
    · split at hstep
      · exact absurd hstep (by simp)
      · exact Option.some.inj hstep ▸ hr.endCommand hnil
    next hsemi =>
    rw [← Option.some.inj hstep]
    refine ⟨fun c' hc' => ?_, hr.2⟩
    rcases List.mem_append.mp hc' with hc' | hc'
    · exact hr.1 c' hc'
    · rw [List.mem_singleton.mp hc']
      exact ⟨fun hm => href (Or.inl hm), hblank, hline, hsemi⟩

theorem assignment_some (h : assignment word = some (name, value)) : ∀ c ∈ value, c ∈ word := by
  unfold assignment at h
  split at h
  · obtain ⟨-, rfl⟩ := Prod.mk.inj (Option.some.inj h)
    exact fun c hc => (List.dropWhile_sublist _).subset (List.mem_of_mem_tail hc)
  · exact absurd h (by simp)

theorem exists_of_mem_mapM {α β : Type} {f : α → Option β} {as : List α} {bs : List β} {b : β}
    (h : as.mapM f = some bs) (hb : b ∈ bs) : ∃ a ∈ as, f a = some b := by
  induction as generalizing bs with
  | nil =>
    rw [List.mapM_nil] at h
    rw [← Option.some.inj h] at hb
    exact absurd hb (by simp)
  | cons a as ih =>
    rw [List.mapM_cons] at h
    obtain ⟨b', hb', h⟩ := Option.bind_eq_some_iff.mp h
    obtain ⟨bs', hbs', h⟩ := Option.bind_eq_some_iff.mp h
    rw [← Option.some.inj h] at hb
    rcases List.mem_cons.mp hb with rfl | hb
    · exact ⟨a, List.mem_cons_self, hb'⟩
    · obtain ⟨a', ha', heq⟩ := ih hbs' hb
      exact ⟨a', List.mem_cons_of_mem _ ha', heq⟩

/-- **A value that is read is plain.** -/
theorem plain_of_assign {cs : List Command} (h : commands text = some cs) (hmem : .assign name value ∈ cs) :
    Plain value := by
  obtain ⟨r, hread, hmap⟩ := Option.bind_eq_some_iff.mp h
  have hall := (read_all hread ⟨by simp [Reader.start], by simp [Reader.start], by simp [Reader.start]⟩).endCommand
    (P := fun w => ∀ c ∈ w, Ordinary c) (by simp)
  obtain ⟨ws, hws, hcommand⟩ := exists_of_mem_mapM hmap hmem
  unfold commandOf at hcommand
  split at hcommand
  · next word =>
    split at hcommand
    · exact absurd hcommand (by simp)
    · next name' value' hassign =>
      split at hcommand
      · exact absurd hcommand (by simp)
      · next htilde =>
        obtain ⟨rfl, rfl⟩ := Command.assign.inj (Option.some.inj hcommand)
        exact ⟨fun c hc => hall.2.2 _ hws word List.mem_cons_self c (assignment_some hassign c hc),
          Bool.not_eq_true _ ▸ htilde⟩
  · exact absurd hcommand (by simp)

end

end Shell
