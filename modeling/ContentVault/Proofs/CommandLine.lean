import ContentVault.Command

/-!
# Command lines

Arguments that do not begin with a hyphen are read as what they stand for: an action is
named after the configuration, and what follows are its values.
-/

namespace ContentVault.Command

/-- The argument does not begin with a hyphen. -/
def IsPlain (argument : String) : Prop :=
  argument.toList.head? ≠ some '-'

instance : DecidablePred IsPlain :=
  fun _ => inferInstanceAs (Decidable (_ ≠ _))

theorem isOption_of_isPlain {argument : String} (hplain : IsPlain argument) :
    isOption argument = false := by
  rw [isOption]
  split
  · rename_i second rest hlist
    exact absurd (congrArg List.head? hlist) hplain
  · rfl

/-- Plain arguments are values. -/
theorem values?_of_isPlain {arguments : List String}
    (hplain : ∀ argument ∈ arguments, IsPlain argument) : values? arguments = some arguments := by
  induction arguments with
  | nil => rfl
  | cons argument rest ih =>
    have hargument := hplain argument List.mem_cons_self
    have hne : argument ≠ "--" := by
      rintro rfl
      exact hargument rfl
    rw [values?, if_neg hne, isOption_of_isPlain hargument, if_neg Bool.false_ne_true,
      ih fun other hother => hplain other (List.mem_cons_of_mem argument hother)]
    rfl

def configOptions : List String := ["-c", "--config"]

section Parse

variable {option config : String}

/-- The configuration is taken from behind its option, and an action is read with its values. -/
theorem parse?_of_action {action value : String} {rest : List String}
    (hoption : option ∈ configOptions) (hconfig : IsPlain config) (hne : config ≠ "")
    (haction : action ∉ configOptions) (hattached : attachedConfig? action = none) :
    parse? (option :: config :: action :: value :: rest) =
      (readAction? action (value :: rest)).map (⟨config, ·⟩) := by
  have hoption' : option = "-c" ∨ option = "--config" := by
    simpa [configOptions] using hoption
  have haction' : ¬(action = "-c" ∨ action = "--config") := by
    simpa [configOptions] using haction
  have hgiven : ¬((none : Option String).isSome = true ∨ config = "" ∨ isOption config = true) := by
    rw [isOption_of_isPlain hconfig]
    simp [hne]
  rw [parse?, parseFrom?, if_pos hoption', if_neg hgiven, parseFrom?, if_neg haction', hattached]

/-- A file is stored under its own name, which is not empty. -/
theorem parse?_store {file : String} (hoption : option ∈ configOptions)
    (hplain : ∀ argument ∈ [config, file], IsPlain argument) (hconfig : config ≠ "")
    (hfile : file ≠ "") :
    parse? [option, config, "store", file] = some ⟨config, .store file⟩ := by
  have hvalues : values? [file] = some [file] :=
    values?_of_isPlain fun argument hmem => hplain argument (List.mem_cons_of_mem config hmem)
  rw [parse?_of_action hoption (hplain config List.mem_cons_self) hconfig (by decide) rfl]
  simp only [readAction?, hvalues, if_neg hfile, Option.map_some]

/-- A check is read if its digest and its size can be. -/
theorem parse?_check {key digest size : String} (hoption : option ∈ configOptions)
    (hplain : ∀ argument ∈ [config, key, digest, size], IsPlain argument) (hconfig : config ≠ "") :
    parse? [option, config, "check", key, digest, size] =
      match DigestUri.parse digest, readSize? size with
      | .ok expected, some count => some ⟨config, .check ⟨key⟩ expected count⟩
      | _, _ => none := by
  have hvalues : values? [key, digest, size] = some [key, digest, size] :=
    values?_of_isPlain fun argument hmem => hplain argument (List.mem_cons_of_mem config hmem)
  rw [parse?_of_action hoption (hplain config List.mem_cons_self) hconfig (by decide) rfl]
  simp only [readAction?, hvalues]
  cases DigestUri.parse digest with
  | error error => rfl
  | ok expected => cases readSize? size <;> rfl

end Parse

end ContentVault.Command
