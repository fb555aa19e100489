import ContentVault.Proofs.DigestStream

/-!
# Families of digesters

Cloning a digester makes a family, whose members go their own ways.  Each of them has a log of
what it was fed since its last reset, behind the log that its parent had when it was cloned,
and its digest is always the hash of that log as a whole.
-/

namespace ContentVault.Digest

inductive Act where
  | update (data : Bytes)
  | reset
  | finalize
  | clone

/-- What an act on a digester makes of the log of what it was fed. -/
def Act.record : Act → Bytes → Bytes
  | .update data, log => log ++ data
  | .reset, _ => []
  | .finalize, log => log
  | .clone, log => log

/-- What is done to one member of a family.  The members are numbered as they are made. -/
structure Step where
  on : Nat
  act : Act

inductive Reply where
  | done
  | digest (bytes : Bytes)
  /-- The number of the clone. -/
  | member (number : Nat)
  | refused (error : VaultError)

namespace Digester

def after (digester : Digester) : Act → Digester
  | .update data => digester.update data
  | .reset => digester.reset
  | .finalize => digester
  | .clone => digester

/-- The new digester that comes of an act. -/
def offspring (digester : Digester) : Act → List Digester
  | .clone => digester.clone.toOption.toList
  | _ => []

/-- The reply to an act; a clone would be given that number. -/
def reply (digester : Digester) (number : Nat) : Act → Reply
  | .update _ => .done
  | .reset => .done
  | .finalize => .digest digester.finalize
  | .clone =>
    match digester.clone with
    | .ok _ => .member number
    | .error error => .refused error

theorem after_ofMessage (algorithm : Algorithm) (log : Bytes) (act : Act) :
    (ofMessage algorithm log).after act = ofMessage algorithm (act.record log) := by
  cases act with
  | update data => exact update_ofMessage algorithm log data
  | reset => exact start_eq_ofMessage algorithm
  | finalize => rfl
  | clone => rfl

end Digester

/-! ### The members -/

abbrev Family := List Digester

namespace Family

/-- Carries out a step.  There is no reply where there is no such member. -/
def step (family : Family) (s : Step) : Option Reply × Family :=
  match family[s.on]? with
  | none => (none, family)
  | some digester =>
    (some (digester.reply family.length s.act),
      family.set s.on (digester.after s.act) ++ digester.offspring s.act)

def run (steps : List Step) (family : Family) : Family :=
  steps.foldl (fun family s => (family.step s).2) family

def replies : List Step → Family → List (Option Reply)
  | [], _ => []
  | s :: steps, family => (family.step s).1 :: replies steps (family.step s).2

theorem run_append (before after : List Step) (family : Family) :
    run (before ++ after) family = run after (run before family) :=
  List.foldl_append

/-- The reply to a step is that of the family after the steps before it. -/
theorem getElem?_replies (before : List Step) (s : Step) (after : List Step) (family : Family) :
    (replies (before ++ s :: after) family)[before.length]? =
      some ((run before family).step s).1 := by
  induction before generalizing family with
  | nil => rfl
  | cons earlier before ih => exact ih (family.step earlier).2

section Members

variable {family other : Family} {s : Step} {digester : Digester} {j : Nat}

theorem step_of_none (hnone : family[s.on]? = none) : family.step s = (none, family) := by
  rw [step, hnone]

theorem step_of_some (hsome : family[s.on]? = some digester) :
    family.step s = (some (digester.reply family.length s.act),
      family.set s.on (digester.after s.act) ++ digester.offspring s.act) := by
  rw [step, hsome]

/-- What becomes of a member is decided by the steps on itself. -/
theorem getElem?_step (hj : j < family.length) :
    (family.step s).2[j]? =
      if s.on = j then family[j]?.map (·.after s.act) else family[j]? := by
  cases hmember : family[s.on]? with
  | none =>
    have hne : s.on ≠ j := by
      rintro rfl
      rw [List.getElem?_eq_getElem hj] at hmember
      cases hmember
    rw [step_of_none hmember, if_neg hne]
  | some digester =>
    rw [step_of_some hmember, List.getElem?_append_left (by rwa [List.length_set]),
      List.getElem?_set]
    split
    · rename_i hon
      rw [hon] at hmember
      rw [if_pos (hon ▸ hj), hmember, Option.map_some]
    · rfl

theorem length_le_step (family : Family) (s : Step) :
    family.length ≤ (family.step s).2.length := by
  cases hmember : family[s.on]? with
  | none =>
    have hsame : (family.step s).2 = family := by rw [step_of_none hmember]
    exact Nat.le_of_eq (congrArg List.length hsame.symm)
  | some digester =>
    rw [step_of_some hmember, List.length_append, List.length_set]
    exact Nat.le_add_right _ _

/-- Where two families agree on one member, they still do so after the same steps. -/
theorem getElem?_run_congr (hj : j < family.length) (hj' : j < other.length)
    (hsame : family[j]? = other[j]?) (steps : List Step) :
    (run steps family)[j]? = (run steps other)[j]? := by
  induction steps generalizing family other with
  | nil => exact hsame
  | cons s steps ih =>
    apply ih (Nat.lt_of_lt_of_le hj (length_le_step family s))
      (Nat.lt_of_lt_of_le hj' (length_le_step other s))
    rw [getElem?_step hj, getElem?_step hj', hsame]

/-- A step on one member makes no difference to what becomes of the others. -/
theorem getElem?_run_of_ne {before : List Step} (hj : j < (run before family).length)
    (hne : s.on ≠ j) (after : List Step) :
    (run (before ++ s :: after) family)[j]? = (run (before ++ after) family)[j]? := by
  have hkept : ((run before family).step s).2[j]? = (run before family)[j]? := by
    rw [getElem?_step hj, if_neg hne]
  rw [run_append, run_append]
  exact getElem?_run_congr (Nat.lt_of_lt_of_le hj (length_le_step _ s)) hj hkept after

end Members

/-! ### The logs -/

def members : List Step → Nat
  | [] => 1
  | ⟨on, .clone⟩ :: past => if on < members past then members past + 1 else members past
  | _ :: past => members past

/-- What a member was fed since its last reset, behind the log that its parent had when it was
cloned if it has not been reset since.  Of the steps the latest comes first. -/
def logOf : List Step → Nat → Bytes
  | [], _ => []
  | ⟨on, .update data⟩ :: past, j => if j = on then logOf past j ++ data else logOf past j
  | ⟨on, .reset⟩ :: past, j => if j = on then [] else logOf past j
  | ⟨_, .finalize⟩ :: past, j => logOf past j
  | ⟨on, .clone⟩ :: past, j => if j = members past then logOf past on else logOf past j

/-- The reply that is due to a step: a digest is the hash of the whole log. -/
def due (algorithm : Algorithm) (past : List Step) (s : Step) : Option Reply :=
  if s.on < members past then
    some (match s.act with
      | .update _ => .done
      | .reset => .done
      | .finalize => .digest (algorithm.hash (logOf past s.on))
      | .clone => .member (members past))
  else none

/-- The family in which every member was fed its whole log at once. -/
def ofLogs (algorithm : Algorithm) (past : List Step) : Family :=
  (List.range (members past)).map fun j => Digester.ofMessage algorithm (logOf past j)

section OfLogs

variable (algorithm : Algorithm) {past : List Step} {on j : Nat}

theorem ofLogs_nil : ofLogs algorithm [] = [Digester.start algorithm] := by
  rw [Digester.start_eq_ofMessage]
  rfl

theorem length_ofLogs (past : List Step) : (ofLogs algorithm past).length = members past := by
  rw [ofLogs, List.length_map, List.length_range]

theorem getElem?_ofLogs (hj : j < members past) :
    (ofLogs algorithm past)[j]? = some (Digester.ofMessage algorithm (logOf past j)) := by
  rw [ofLogs, List.getElem?_map, List.getElem?_range hj, Option.map_some]

/-- An act counts for the log of the member that it is done to. -/
theorem logOf_cons (act : Act) (hj : j < members past) :
    logOf (⟨on, act⟩ :: past) j = if j = on then act.record (logOf past j) else logOf past j := by
  cases act with
  | update data => rfl
  | reset => rfl
  | finalize => exact (ite_self _).symm
  | clone =>
    rw [logOf, if_neg (Nat.ne_of_lt hj)]
    exact (ite_self _).symm

/-- The members that there were before a step have their new logs after it. -/
theorem set_ofLogs (on : Nat) (act : Act) :
    (ofLogs algorithm past).set on (Digester.ofMessage algorithm (act.record (logOf past on))) =
      (List.range (members past)).map fun j =>
        Digester.ofMessage algorithm (logOf (⟨on, act⟩ :: past) j) := by
  ext1 j
  by_cases hj : j < members past
  · rw [List.getElem?_set, List.getElem?_map, List.getElem?_range hj, Option.map_some,
      logOf_cons act hj, length_ofLogs]
    by_cases hon : on = j
    · rw [if_pos hon, if_pos (hon ▸ hj), if_pos hon.symm, hon]
    · rw [if_neg hon, if_neg (Ne.symm hon), getElem?_ofLogs algorithm hj]
  · rw [List.getElem?_eq_none (by rw [List.length_set, length_ofLogs]; omega),
      List.getElem?_eq_none (by rw [List.length_map, List.length_range]; omega)]

/-- A step gets the reply that is due to it, and leaves the family of the logs behind. -/
theorem step_ofLogs (past : List Step) (s : Step) :
    (ofLogs algorithm past).step s = (due algorithm past s, ofLogs algorithm (s :: past)) := by
  obtain ⟨on, act⟩ := s
  by_cases hon : on < members past
  · rw [step_of_some (getElem?_ofLogs algorithm hon), Digester.after_ofMessage, set_ofLogs, due,
      if_pos hon, length_ofLogs]
    cases act with
    | update data => exact Prod.ext rfl (List.append_nil _)
    | reset => exact Prod.ext rfl (List.append_nil _)
    | finalize => exact Prod.ext rfl (List.append_nil _)
    | clone =>
      have hmembers : members (⟨on, .clone⟩ :: past) = members past + 1 := if_pos hon
      have hlast : logOf (⟨on, .clone⟩ :: past) (members past) = logOf past on := if_pos rfl
      rw [ofLogs, hmembers, List.range_succ, List.map_append, List.map_singleton, hlast]
      rfl
  · have hnone : (ofLogs algorithm past)[on]? = none := by
      rw [List.getElem?_eq_none (by rw [length_ofLogs]; omega)]
    have hset : (ofLogs algorithm past).set on
        (Digester.ofMessage algorithm (act.record (logOf past on))) = ofLogs algorithm past :=
      List.set_eq_of_length_le (by rw [length_ofLogs]; omega)
    have hmembers : members (⟨on, act⟩ :: past) = members past := by
      cases act with
      | clone => exact if_neg hon
      | _ => rfl
    rw [step_of_none hnone, due, if_neg hon, ← hset, set_ofLogs, ofLogs, hmembers]

theorem run_ofLogs (steps past : List Step) :
    run steps (ofLogs algorithm past) = ofLogs algorithm (steps.reverse ++ past) := by
  induction steps generalizing past with
  | nil => rfl
  | cons s steps ih =>
    have hstep : run (s :: steps) (ofLogs algorithm past) =
        run steps (ofLogs algorithm (s :: past)) :=
      congrArg (run steps) (congrArg Prod.snd (step_ofLogs algorithm past s))
    rw [hstep, ih, List.reverse_cons, List.append_assoc, List.singleton_append]

theorem run_start (steps : List Step) :
    run steps [Digester.start algorithm] = ofLogs algorithm steps.reverse := by
  rw [← ofLogs_nil, run_ofLogs, List.append_nil]

/-- It is all one whether data are fed at once or in two pieces. -/
theorem ofLogs_update_append (on : Nat) (data more : Bytes) :
    ofLogs algorithm (⟨on, .update (data ++ more)⟩ :: past) =
      ofLogs algorithm (⟨on, .update more⟩ :: ⟨on, .update data⟩ :: past) := by
  have hlogs : logOf (⟨on, .update (data ++ more)⟩ :: past) =
      logOf (⟨on, .update more⟩ :: ⟨on, .update data⟩ :: past) := by
    funext j
    simp only [logOf]
    split
    · rw [List.append_assoc]
    · rfl
  rw [ofLogs, ofLogs, hlogs]
  rfl

theorem run_concat_start (before after : List Step) (s : Step) :
    run (before ++ s :: after) [Digester.start algorithm] =
      run after (ofLogs algorithm (s :: before.reverse)) := by
  rw [run_append, run_start]
  exact congrArg (run after) (congrArg Prod.snd (step_ofLogs algorithm before.reverse s))

end OfLogs

/-- A family that begins with a new digester of a supported algorithm, under any spelling of its
name: to every step comes the reply that is due to it, so that each digest is the hash of the
whole log of its member.  How data are cut into updates and where digests are asked for makes no
difference to the family, nor does a step on one member to any other that there was at the
time. -/
theorem replies_of_start {name : String} {algorithm : Algorithm}
    (hname : Algorithm.ofSpelling? name = some algorithm) :
    ∃ first, Digester.ofSpelling? name = some first ∧
      (∀ before s after, (replies (before ++ s :: after) [first])[before.length]? =
        some (due algorithm before.reverse s)) ∧
      (∀ before on data more after,
        run (before ++ ⟨on, .update (data ++ more)⟩ :: after) [first] =
          run (before ++ ⟨on, .update data⟩ :: ⟨on, .update more⟩ :: after) [first]) ∧
      (∀ before on after,
        run (before ++ ⟨on, .finalize⟩ :: after) [first] = run (before ++ after) [first]) ∧
      ∀ before s after j, j < (run before [first]).length → s.on ≠ j →
        (run (before ++ s :: after) [first])[j]? = (run (before ++ after) [first])[j]? := by
  refine ⟨Digester.start algorithm, ?_, ?_, ?_, ?_, ?_⟩
  · rw [Digester.ofSpelling?, hname, Option.map_some]
  · intro before s after
    rw [getElem?_replies, run_start, step_ofLogs]
  · intro before on data more after
    have hpieces : before ++ (⟨on, .update data⟩ : Step) :: ⟨on, .update more⟩ :: after =
        (before ++ [⟨on, .update data⟩]) ++ ⟨on, .update more⟩ :: after := by
      rw [List.append_assoc, List.singleton_append]
    rw [hpieces, run_concat_start, run_concat_start, ofLogs_update_append, List.reverse_append]
    rfl
  · intro before on after
    rw [run_concat_start, run_append, run_start]
    rfl
  · intro before s after j hj hne
    exact getElem?_run_of_ne hj hne after

/-- A clone is fed apart from its parent, which is reset; a clone of the clone has the whole
log of the clone, and none of what the parent was fed later. -/
theorem replies_of_start_clones :
    Algorithm.ofSpelling? "BLAKE2b-512" = some .blake2b ∧
      ∃ first, Digester.ofSpelling? "BLAKE2b-512" = some first ∧
        (replies [⟨0, .update [1, 2]⟩, ⟨0, .clone⟩, ⟨1, .update [3]⟩, ⟨0, .reset⟩, ⟨1, .finalize⟩,
          ⟨1, .clone⟩, ⟨0, .update [4]⟩, ⟨2, .update [5, 6]⟩, ⟨2, .finalize⟩] [first])[8]? =
            some (some (.digest (Algorithm.blake2b.hash [1, 2, 3, 5, 6]))) ∧
        (run [⟨0, .clone⟩, ⟨0, .update [4]⟩, ⟨1, .update [5]⟩] [first])[1]? =
          (run [⟨0, .clone⟩, ⟨1, .update [5]⟩] [first])[1]? := by
  have hname : Algorithm.ofSpelling? "BLAKE2b-512" = some .blake2b := by decide
  obtain ⟨first, hfirst, hreplies, -, -, hothers⟩ := replies_of_start hname
  refine ⟨hname, first, hfirst, ?_, ?_⟩
  · exact hreplies [⟨0, .update [1, 2]⟩, ⟨0, .clone⟩, ⟨1, .update [3]⟩, ⟨0, .reset⟩,
      ⟨1, .finalize⟩, ⟨1, .clone⟩, ⟨0, .update [4]⟩, ⟨2, .update [5, 6]⟩] ⟨2, .finalize⟩ []
  · have hstart : first = Digester.start .blake2b := by
      rw [Digester.ofSpelling?, hname, Option.map_some] at hfirst
      exact (Option.some.inj hfirst).symm
    apply hothers [⟨0, .clone⟩] ⟨0, .update [4]⟩ [⟨1, .update [5]⟩] 1
    · rw [hstart, run_start, length_ofLogs]
      decide
    · decide

end Family

end ContentVault.Digest
