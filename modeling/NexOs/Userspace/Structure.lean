import NexOs.Userspace.Expansion

/-! The environment does not reach the structure of a command line. -/
namespace NexOs.Userspace
variable {environment : Environment} {p p₁ p₂ : ParsedLine} {c c₁ c₂ : Command} {stage : Stage}
  {stages : List Stage} {E₁ E₂ : Environment}

variable {α β : Type} {R : α → β → Prop} {x : Option α} {b : β} {i : Nat}

theorem exists_of_rel_some (h : Option.Rel R x (some b)) : ∃ a, x = some a ∧ R a b := by
  cases h with
  | some hab => exact ⟨_, rfl, hab⟩

theorem map_eq_of_rel {γ : Type} {f : α → γ} {g : β → γ} (hfg : ∀ a b, R a b → f a = g b) (h : Option.Rel R x y) : x.map f = y.map g := by
  cases h with
  | some hab => exact congrArg some (hfg _ _ hab)
  | none => rfl

theorem exists_of_forall₂ (h : List.Forall₂ R xs ys)
    (hb : ys[i]? = some b) : ∃ a, xs[i]? = some a ∧ R a b := by
  induction h generalizing i with
  | nil => cases hb
  | cons hab _ ih =>
    cases i with
    | zero =>
      cases hb
      exact ⟨_, rfl, hab⟩
    | succ i => exact ih hb

theorem Shows.argument (h : Shows environment p.text c stage) (hw : stage.arguments[j]? = some w) :
    ∃ span, c.argument j = some span ∧ p.bytes span = w.expand environment := by
  obtain ⟨span, hspan, hspells⟩ := exists_of_forall₂ h.arguments hw
  rw [List.getElem?_take, Vector.getElem?_toList] at hspan
  exact ⟨span, hspan, hspells.bytes_eq⟩

theorem Represents.command (h : Represents environment p stages) (hstage : stages[i]? = some stage) :
    ∃ c, p.command i = some c ∧ Shows environment p.text c stage := by
  obtain ⟨c, hc, hshows⟩ := exists_of_forall₂ h.shows hstage
  rw [List.getElem?_take, Vector.getElem?_toList] at hc
  exact ⟨c, hc, hshows⟩

/-- Two commands with the same number of arguments and the same redirects, and with the same bytes
in the words of the stage that have no variables. -/
structure SameCommand (p₁ p₂ : ParsedLine) (stage : Stage) (c₁ c₂ : Command) : Prop where
  argumentCount : c₁.argumentCount = c₂.argumentCount
  input : c₁.input.isSome = c₂.input.isSome
  output : c₁.output.map OutputRedirect.append = c₂.output.map OutputRedirect.append
  plainArgument : ∀ j w, stage.arguments[j]? = some w → w.Plain →
    ∃ a₁ a₂, c₁.argument j = some a₁ ∧ c₂.argument j = some a₂ ∧ p₁.bytes a₁ = p₂.bytes a₂
  plainInput : ∀ w, stage.input = some w → w.Plain →
    ∃ a₁ a₂, c₁.input = some a₁ ∧ c₂.input = some a₂ ∧ p₁.bytes a₁ = p₂.bytes a₂
  plainOutput : ∀ w append, stage.output = some (w, append) → w.Plain →
    ∃ o₁ o₂, c₁.output = some o₁ ∧ c₂.output = some o₂ ∧ p₁.bytes o₁.path = p₂.bytes o₂.path

theorem Shows.input_isSome (h : Shows environment p.text c stage) :
    c.input.isSome = stage.input.isSome := by
  rw [← Option.not_isNone, ← Option.not_isNone, isNone_eq_of_rel h.input]

theorem Shows.output_append (h : Shows environment p.text c stage) :
    c.output.map OutputRedirect.append = stage.output.map Prod.snd :=
  map_eq_of_rel (fun _ _ hboth => hboth.2) h.output

theorem Shows.sameCommand (h₁ : Shows E₁ p₁.text c₁ stage) (h₂ : Shows E₂ p₂.text c₂ stage) :
    SameCommand p₁ p₂ stage c₁ c₂ where
  argumentCount := Fin.ext (h₁.argumentCount_eq.trans h₂.argumentCount_eq.symm)
  input := h₁.input_isSome.trans h₂.input_isSome.symm
  output := h₁.output_append.trans h₂.output_append.symm
  plainArgument := by
    intro j w hw hplain
    obtain ⟨a₁, ha₁, hbytes₁⟩ := h₁.argument hw
    obtain ⟨a₂, ha₂, hbytes₂⟩ := h₂.argument hw
    exact ⟨a₁, a₂, ha₁, ha₂, by rw [hbytes₁, hbytes₂, hplain.expand_eq E₁ E₂]⟩
  plainInput := by
    intro w hw hplain
    obtain ⟨a₁, ha₁, hspells₁⟩ := exists_of_rel_some (hw ▸ h₁.input)
    obtain ⟨a₂, ha₂, hspells₂⟩ := exists_of_rel_some (hw ▸ h₂.input)
    exact ⟨a₁, a₂, ha₁, ha₂, by
      rw [hspells₁.bytes_eq, hspells₂.bytes_eq, hplain.expand_eq E₁ E₂]⟩
  plainOutput := by
    intro w append hw hplain
    obtain ⟨o₁, ho₁, hspells₁, _⟩ := exists_of_rel_some (hw ▸ h₁.output)
    obtain ⟨o₂, ho₂, hspells₂, _⟩ := exists_of_rel_some (hw ▸ h₂.output)
    exact ⟨o₁, o₂, ho₁, ho₂, by
      rw [hspells₁.bytes_eq, hspells₂.bytes_eq, hplain.expand_eq E₁ E₂]⟩

/-- Under any two environments the parser reports the same error, or it finds the same commands
with the same arguments and redirects; only the bytes of words with variables differ. -/
theorem parse_structure_eq (line : List UInt8) (E₁ E₂ : Environment)
    (h₁ : parse line E₁ ≠ Result.fail .expandedLineTooLong)
    (h₂ : parse line E₂ ≠ Result.fail .expandedLineTooLong) :
    (∃ e, parse line E₁ = Result.fail e ∧ parse line E₂ = Result.fail e) ∨
      ∃ p₁ p₂ stages, parse line E₁ = .ok p₁ ∧ parse line E₂ = .ok p₂ ∧ scan line = .ok stages ∧
        p₁.commandCount = stages.length ∧ p₂.commandCount = stages.length ∧
        ∀ i stage, stages[i]? = some stage →
          ∃ c₁ c₂, p₁.command i = some c₁ ∧ p₂.command i = some c₂ ∧
            SameCommand p₁ p₂ stage c₁ c₂ := by
  rcases (parse_agrees line).resolve_left h₁ with
    ⟨e, hscan, hparse₁⟩ | ⟨p₁, stages, hscan, hparse₁, hp₁⟩
  · rcases (parse_agrees line).resolve_left h₂ with
      ⟨e', hscan', hparse₂⟩ | ⟨p₂, stages', hscan', _, _⟩
    · rw [hscan] at hscan'
      cases hscan'
      exact .inl ⟨e, hparse₁, hparse₂⟩
    · rw [hscan] at hscan'
      cases hscan'
  · rcases (parse_agrees line).resolve_left h₂ with
      ⟨e', hscan', _⟩ | ⟨p₂, stages', hscan', hparse₂, hp₂⟩
    · rw [hscan] at hscan'
      cases hscan'
    · rw [hscan] at hscan'
      cases hscan'
      refine .inr ⟨p₁, p₂, stages, hparse₁, hparse₂, hscan, hp₁.count, hp₂.count, ?_⟩
      intro i stage hstage
      obtain ⟨c₁, hc₁, hshows₁⟩ := hp₁.command hstage
      obtain ⟨c₂, hc₂, hshows₂⟩ := hp₂.command hstage
      exact ⟨c₁, c₂, hc₁, hc₂, hshows₁.sameCommand hshows₂⟩

/-- `e $A`, with `A` unset and with `A` set to a pipe. -/
theorem parse_structure_eq_pipe :
    let line : List UInt8 := [101, 32, 36, 65]
    let entry : EnvironmentEntry :=
      { EnvironmentEntry.empty with
        occupied := true
        name := EnvironmentEntry.empty.name.set 0 65
        nameLength := ⟨1, by decide⟩
        value := EnvironmentEntry.empty.value.set 0 124
        valueLength := ⟨1, by decide⟩ }
    let E : Environment := ⟨Environment.new.entries.set 0 entry⟩
    parse line Environment.new ≠ Result.fail .expandedLineTooLong ∧
      parse line E ≠ Result.fail .expandedLineTooLong ∧
      ((∃ e, parse line Environment.new = Result.fail e ∧ parse line E = Result.fail e) ∨
        ∃ p₁ p₂ stages, parse line Environment.new = .ok p₁ ∧ parse line E = .ok p₂ ∧
          scan line = .ok stages ∧
          p₁.commandCount = stages.length ∧ p₂.commandCount = stages.length ∧
          ∀ i stage, stages[i]? = some stage →
            ∃ c₁ c₂, p₁.command i = some c₁ ∧ p₂.command i = some c₂ ∧
              SameCommand p₁ p₂ stage c₁ c₂) := by
  intro line entry E
  have hsome : (parse line Environment.new).toOption.isSome = true := by decide +kernel
  have hsome' : (parse line E).toOption.isSome = true := by decide +kernel
  have h₁ : parse line Environment.new ≠ Result.fail .expandedLineTooLong := by
    intro hfail
    rw [hfail] at hsome
    cases hsome
  have h₂ : parse line E ≠ Result.fail .expandedLineTooLong := by
    intro hfail
    rw [hfail] at hsome'
    cases hsome'
  exact ⟨h₁, h₂, parse_structure_eq line Environment.new E h₁ h₂⟩

end NexOs.Userspace
