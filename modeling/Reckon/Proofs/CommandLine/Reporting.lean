import Reckon.CommandLine.Basic
import Reckon.ErrorKind
import Reckon.Image.Rehearsal
import Reckon.Proofs.Formula.Coherent
import Reckon.Proofs.Program.Fold

/-!
What becomes of the errors that a command meets.

A command meets errors while its formula is loaded, and then at its own work: a tree is built, a value
is calculated, an image is drawn. Errors of the calculator's own are told with status 1 wherever they
are met, but for one: the tree of the empty program is built without care for errors, so the error
there is passed on to the caller. None of this depends on how the command line is read.

    load ─┬─▶ tell the program, or the variables
          ├─▶ calculate ──▶ tell the value
          ├─▶ draw ──▶ place the image             errors told
          └─▶ build ──▶ tell the tree              error passed on, if the program is empty
-/

namespace Reckon.CommandLine

/-! ### Errors that are met -/

namespace Invocation

/-- What loading the formula of an invocation comes to. -/
def creation (i : Invocation) : Formula.Creation :=
  Formula.parse defaultLimit i.expression (i.bindings.map fun (name, n) => (name, Offer.number n))

/-- A warning is given that ends the command like an error. -/
def Escalates (i : Invocation) : Prop := 0 < i.creation.ignored ∧ i.mode = .error

/-- The formula is loaded. -/
def Loads (i : Invocation) (f : Formula) : Prop := ¬ i.Escalates ∧ i.creation.result = .ok f

/-- The formula is loaded, and there is nothing in it. -/
def LoadsNothing (i : Invocation) : Prop := ∃ f, i.Loads f ∧ f.program = []

/-- The file name of the image that is drawn of a formula. -/
def image (tools : Image.Toolbox) (i : Invocation) (f : Formula) : Except Error String := do
  let text ← f.text
  (Image.render tools ⟨i.background, .int i.density⟩ text f.fingerprint (.given [])).result

end Invocation

/-- Whether a command parses the text of its invocation. -/
def Command.parses (c : Command) (i : Invocation) : Bool := c != .image || !i.noParse

/-- The formula that a command works on: it is loaded, or it is the text as it stands. -/
def Invocation.WorksOn (i : Invocation) (c : Command) (f : Formula) : Prop :=
  if c.parses i then i.Loads f
  else i.bindings = [] ∧ (Formula.display i.expression []).result = .ok f

/-- The errors that a command meets while it is carried out. -/
inductive Meets (tools : Image.Toolbox) (i : Invocation) : Command → Error → Prop
  | loading {c : Command} {e : Error} :
      c.parses i → ¬ i.Escalates → i.creation.result = .error e → Meets tools i c e
  | tree {f : Formula} {e : Error} :
      i.WorksOn .tree f → f.tree = .error e → Meets tools i .tree e
  | value {f : Formula} {e : Error} :
      i.WorksOn .value f → f.calculate = .error e → Meets tools i .value e
  | image {f : Formula} {e : Error} :
      i.WorksOn .image f → i.image tools f = .error e → Meets tools i .image e

/-- A command ends with status 1 and tells a message, behind the warning about the text if there is
one, and nothing else. -/
def Outcome.Tells (o : Outcome) (i : Invocation) (message : String) : Prop :=
  o.ending = .status 1 ∧ o.output = "" ∧
    ∃ warnings ∈ ["", warningLine (ignoredMessage i.expression)],
      o.errors = warnings ++ Outcome.errorLine message

/-! ### Loading -/

variable {around : Surroundings} {tools : Image.Toolbox} {i : Invocation} {c : Command} {f : Formula}
  {e : Error} {next : Formula → Outcome}

theorem isTold_of_isOwn (h : e.kind.isOwn) : isTold e := by
  unfold isTold
  split
  · cases h
  · cases h
  · rfl

theorem withFormula_escalates (h : i.Escalates) :
    withFormula i next = .failed (ignoredMessage i.expression) :=
  if_pos h

/-- Where nothing escalates, the formula is passed on or the error is met, behind the warnings. -/
theorem withFormula_eq (h : ¬ i.Escalates) (next : Formula → Outcome) :
    ∃ warnings ∈ ["", warningLine (ignoredMessage i.expression)],
      withFormula i next = .warned warnings
        (match i.creation.result with
        | .ok f => next f
        | .error e => if isTold e then .failed e.message else .passed e) := by
  have heq : withFormula i next = .warned
      (if i.creation.ignored = 0 ∨ i.mode = .ignore then ""
        else warningLine (ignoredMessage i.expression))
      (match i.creation.result with
      | .ok f => next f
      | .error e => if isTold e then .failed e.message else .passed e) := if_neg h
  refine ⟨_, ?_, heq⟩
  split <;> simp

theorem withFormula_loads (h : i.Loads f) (next : Formula → Outcome) :
    ∃ warnings ∈ ["", warningLine (ignoredMessage i.expression)],
      withFormula i next = .warned warnings (next f) := by
  obtain ⟨warnings, hmem, heq⟩ := withFormula_eq h.1 next
  rw [h.2] at heq
  exact ⟨warnings, hmem, heq⟩

namespace Outcome

theorem tells_failed (i : Invocation) (message : String) : (failed message).Tells i message :=
  ⟨rfl, rfl, "", List.mem_cons_self .., String.empty_append.symm⟩

theorem tells_warned {o : Outcome} {warnings message : String}
    (hwarnings : warnings ∈ ["", warningLine (ignoredMessage i.expression)])
    (hending : o.ending = .status 1) (houtput : o.output = "")
    (herrors : o.errors = errorLine message) : (o.warned warnings).Tells i message :=
  ⟨hending, houtput, warnings, hwarnings, congrArg (warnings ++ ·) herrors⟩

end Outcome

/-- An error of the calculator's own that is met in loading is told. -/
theorem withFormula_tells (h : ¬ i.Escalates) (he : i.creation.result = .error e)
    (hown : e.kind.isOwn) : (withFormula i next).Tells i e.message := by
  obtain ⟨warnings, hmem, heq⟩ := withFormula_eq h next
  rw [he] at heq
  dsimp only at heq
  rw [heq, if_pos (isTold_of_isOwn hown)]
  exact Outcome.tells_warned hmem rfl rfl rfl

/-- An error of the calculator's own that is passed on is passed on by what follows on loading. -/
theorem exists_loads (h : (withFormula i next).ending = .error e) (hown : e.kind.isOwn) :
    ∃ f, i.Loads f ∧ (next f).ending = .error e := by
  by_cases hescalates : i.Escalates
  · rw [withFormula_escalates hescalates] at h
    cases h
  obtain ⟨warnings, _, heq⟩ := withFormula_eq hescalates next
  rw [heq] at h
  cases hresult : i.creation.result with
  | ok f =>
    rw [hresult] at h
    exact ⟨f, ⟨hescalates, hresult⟩, h⟩
  | error e' =>
    rw [hresult] at h
    dsimp only at h
    split at h
    · cases h
    · next htold =>
      obtain rfl : e' = e := Ending.error.inj h
      exact absurd (isTold_of_isOwn hown) htold

/-! ### The commands at work -/

/-- The tree of a formula that is loaded is there, unless there is nothing in the formula. -/
theorem tree_of_loads (h : i.Loads f) :
    (f.program = [] ∧ f.tree = .error (.malformed (.leftover 0))) ∨ ∃ t, f.tree = .ok t := by
  obtain ⟨_, _, hparse, _⟩ := Formula.parse_eq_ok h.2
  by_cases hne : f.program = []
  · refine .inl ⟨hne, ?_⟩
    rw [Formula.tree, hne]
    rfl
  · obtain ⟨t, ht⟩ := Program.exists_tree_of_parse hparse hne
    refine .inr ⟨t.map (Operand.resolve f.table.value?), ?_⟩
    rw [Formula.tree, ht, Program.tree_postorder]
    rfl

theorem text_of_worksOn (h : i.WorksOn c f) : ∃ text, f.text = .ok text := by
  have hcoherent : f.Coherent := by
    rw [Invocation.WorksOn] at h
    split at h
    · exact (Formula.parse_eq_ok h.2).1
    · exact (Formula.display_eq_ok h.2).1
  exact ⟨_, Formula.text_eq_ok hcoherent.table⟩

/-- What stops a density from being written is no error of the calculator's own. -/
theorem not_isOwn_of_densityText {density : Number} (h : Image.densityText density = .error e) :
    ¬ e.kind.isOwn := by
  simp only [Image.densityText, bind, Except.bind, pure, Except.pure] at h
  split at h
  · split at h
    · cases h
    · obtain rfl := Except.error.inj h
      exact nofun
  · split at h
    · obtain rfl := Except.error.inj h
      exact nofun
    · obtain rfl := Except.error.inj h
      exact nofun
    · split at h
      · cases h
      · obtain rfl := Except.error.inj h
        exact nofun

/-- No error of the two commands at work is the calculator's own. -/
theorem not_isOwn_of_work {style : Image.Style} {tex : String} {d : Directory}
    (h : (Image.work tools style tex d).result = .error e) : ¬ e.kind.isOwn := by
  unfold Image.work at h
  dsimp only at h
  split at h
  · obtain rfl := Except.error.inj h
    exact nofun
  · split at h
    · next hdensity =>
      obtain rfl := Except.error.inj h
      exact not_isOwn_of_densityText hdensity
    · split at h
      · obtain rfl := Except.error.inj h
        exact nofun
      · cases h

/-- The only error of the calculator's own in rendering is that commands are missing. -/
theorem exists_missing {style : Image.Style} {text fingerprint : String} {place : Image.Place}
    (h : (Image.render tools style text fingerprint place).result = .error e)
    (hown : e.kind.isOwn) : ∃ names, e = .missingCommands names := by
  unfold Image.render at h
  dsimp only at h
  split at h
  · split at h
    · cases h
    · next hwork =>
      obtain rfl := Except.error.inj h
      exact absurd hown (not_isOwn_of_work hwork)
  · exact ⟨_, (Except.error.inj h).symm⟩

/-- An error of the calculator's own that is met in drawing is told. -/
theorem drawImage_tells (hworks : i.WorksOn .image f) (h : i.image around.tools f = .error e)
    (hown : e.kind.isOwn) :
    (drawImage around i f).ending = .status 1 ∧ (drawImage around i f).output = "" ∧
      (drawImage around i f).errors = Outcome.errorLine e.message := by
  obtain ⟨text, htext⟩ := text_of_worksOn hworks
  rw [Invocation.image, htext] at h
  change (Image.render ..).result = .error e at h
  obtain ⟨names, rfl⟩ := exists_missing h hown
  unfold drawImage
  rw [htext]
  dsimp only
  rw [h]
  exact ⟨rfl, rfl, rfl⟩

/-- Drawing passes no error of the calculator's own on. -/
theorem not_isOwn_of_drawImage (hworks : i.WorksOn .image f)
    (h : (drawImage around i f).ending = .error e) : ¬ e.kind.isOwn := by
  intro hown
  obtain ⟨text, htext⟩ := text_of_worksOn hworks
  unfold drawImage at h
  rw [htext] at h
  dsimp only at h
  split at h
  · cases h
  · cases h
  · next e' _ hnot hresult =>
    obtain rfl : e' = e := Ending.error.inj h
    obtain ⟨names, rfl⟩ := exists_missing hresult hown
    exact hnot names rfl
  · split at h <;> cases h

theorem ending_tellValue (f : Formula) (e : Error) : (tellValue f).ending ≠ .error e := by
  rw [tellValue]
  split
  · exact nofun
  · split <;> exact nofun

theorem exists_display (source : String) : ∃ f, (Formula.display source []).result = .ok f := by
  obtain ⟨f, hmake⟩ : ∃ f, Formula.make source [] false (Table.ofNames []) = .ok f :=
    ⟨_, Formula.make_eq_ok.2 ⟨rfl, rfl, rfl⟩⟩
  have hcoherent : f.Coherent := .of_make rfl hmake
  refine ⟨f, ?_⟩
  show (do (← Formula.ofProgram source [] false).bind []) = _
  rw [Formula.ofProgram, show Program.names [] = [] from rfl, hmake]
  exact hcoherent.bind_nil

/-- What a command does with its formula. -/
def Command.work (around : Surroundings) (i : Invocation) : Command → Formula → Outcome
  | .program => tellProgram i
  | .tree => tellTree
  | .variables => tellVariables
  | .value => tellValue
  | .image => drawImage around i

/-! ### Invocations -/

section Invocations

variable (around)

/-- A command that parses its text loads the formula and goes on with it. -/
theorem perform_parses (h : c.parses i) : c.perform around i = withFormula i (c.work around i) := by
  cases c with
  | image =>
    have hparse : i.noParse = false := by simpa [Command.parses] using h
    rw [Command.perform, drawInvocation, if_neg (by simp [hparse])]
    rfl
  | _ => rfl

/-- A command that does not parse its text draws an image, unless variables are bound. -/
theorem perform_unparsed (h : ¬ c.parses i) :
    c = .image ∧ c.perform around i =
      if i.bindings.isEmpty then
        match (Formula.display i.expression []).result with
        | .ok f => drawImage around i f
        | .error e => .passed e
      else .misused (around.preface .image) "--var cannot be used together with --no-parse." := by
  obtain ⟨rfl, hnoParse⟩ : c = .image ∧ i.noParse = true := by
    simpa [Command.parses] using h
  exact ⟨rfl, if_pos hnoParse⟩

/-- A command does its work on its formula, behind the warnings. -/
theorem perform_worksOn (h : i.WorksOn c f) :
    ∃ warnings ∈ ["", warningLine (ignoredMessage i.expression)],
      c.perform around i = .warned warnings (c.work around i f) := by
  rw [Invocation.WorksOn] at h
  split at h
  · next hparses =>
    rw [perform_parses around hparses]
    exact withFormula_loads h _
  · next hparses =>
    obtain ⟨rfl, hperform⟩ := perform_unparsed around hparses
    obtain ⟨hnil, hf⟩ := h
    refine ⟨"", List.mem_cons_self .., ?_⟩
    rw [hperform, hnil, hf, Outcome.warned, String.empty_append]
    rfl

/-- An error of the calculator's own that is passed on is passed on by the work on the formula. -/
theorem exists_worksOn (h : (c.perform around i).ending = .error e) (hown : e.kind.isOwn) :
    ∃ f, i.WorksOn c f ∧ (c.work around i f).ending = .error e := by
  by_cases hparses : c.parses i
  · rw [perform_parses around hparses] at h
    obtain ⟨f, hloads, hwork⟩ := exists_loads h hown
    refine ⟨f, ?_, hwork⟩
    rw [Invocation.WorksOn, if_pos hparses]
    exact hloads
  · obtain ⟨rfl, hperform⟩ := perform_unparsed around hparses
    obtain ⟨f, hf⟩ := exists_display i.expression
    rw [hperform, hf] at h
    split at h
    · next hnil =>
      refine ⟨f, ?_, h⟩
      rw [Invocation.WorksOn, if_neg hparses]
      exact ⟨List.isEmpty_iff.1 hnil, hf⟩
    · cases h

end Invocations

/-! ### Command lines -/

/-- A command line that starts with the name of a command carries it out for what is read behind it. -/
theorem run_name {args : List String} (tools : Image.Toolbox)
    (h : Invocation.ofArguments c args = .ok i) :
    run tools (c.name :: args) = c.perform (.ofTools tools) i := by
  have hscan : scan [.version, .help] false (c.name :: args) = .ok ⟨[], c.name :: args⟩ := by
    cases c <;> rfl
  have hfind : (Command.all.find? fun d => d.name = c.name) = some c := by
    cases c <;> rfl
  rw [run, hscan]
  dsimp only [List.head?]
  rw [hfind]
  dsimp only
  rw [Command.run, h]

/-- Every error of the calculator's own that a command meets, and every warning that ends it like an
error, is told with status 1, unless the command tells the tree of the empty program. There, and
nowhere else, an error of the calculator's own is passed on: that no value is left. So it is for every
invocation and in all surroundings, and so for every command line that an invocation is read from. -/
theorem run_tells_own_errors (around : Surroundings) (c : Command) (i : Invocation) :
    (c.parses i → i.Escalates →
      (c.perform around i).Tells i (ignoredMessage i.expression)) ∧
    (∀ e, Meets around.tools i c e → e.kind.isOwn → ¬ (c = .tree ∧ i.LoadsNothing) →
      (c.perform around i).Tells i e.message) ∧
    (∀ e, (c.perform around i).ending = .error e ∧ e.kind.isOwn ↔
      (c = .tree ∧ i.LoadsNothing) ∧ e = .malformed (.leftover 0)) ∧
    ∀ (tools : Image.Toolbox) (args : List String), Invocation.ofArguments c args = .ok i →
      run tools (c.name :: args) = c.perform (.ofTools tools) i := by
  refine ⟨?_, ?_, fun e => ⟨?_, ?_⟩, fun tools args => run_name tools⟩
  · intro hparses hescalates
    rw [perform_parses around hparses, withFormula_escalates hescalates]
    exact Outcome.tells_failed i _
  · intro e hmeets hown hsomething
    -- where an error is met decides who tells it: the loading, the calculation or the drawing
    cases hmeets with
    | loading hparses hescalates he =>
      rw [perform_parses around hparses]
      exact withFormula_tells hescalates he hown
    | tree hworks he =>
      rcases tree_of_loads hworks with ⟨hnil, _⟩ | ⟨t, ht⟩
      · exact absurd ⟨rfl, _, hworks, hnil⟩ hsomething
      · rw [ht] at he
        cases he
    | @value f e hworks he =>
      obtain ⟨warnings, hmem, hperform⟩ := perform_worksOn around hworks
      have htell : tellValue f = .failed e.message := by rw [tellValue, he]
      rw [hperform, Command.work, htell]
      exact Outcome.tells_warned hmem rfl rfl rfl
    | @image f e hworks he =>
      obtain ⟨warnings, hmem, hperform⟩ := perform_worksOn around hworks
      obtain ⟨hending, houtput, herrors⟩ := drawImage_tells hworks he hown
      rw [hperform]
      exact Outcome.tells_warned hmem hending houtput herrors
  · rintro ⟨hending, hown⟩
    -- loading tells its own errors, so the one that is passed on comes from the work on a formula
    obtain ⟨f, hworks, hwork⟩ := exists_worksOn around hending hown
    cases c with
    | value => exact absurd hwork (ending_tellValue f e)
    | image => exact absurd hown (not_isOwn_of_drawImage hworks hwork)
    | tree =>
      rw [Command.work, tellTree] at hwork
      rcases tree_of_loads hworks with ⟨hnil, ht⟩ | ⟨t, ht⟩
      · rw [ht] at hwork
        exact ⟨⟨rfl, f, hworks, hnil⟩, (Ending.error.inj hwork).symm⟩
      · rw [ht] at hwork
        cases hwork
    | _ => cases hwork
  · rintro ⟨⟨rfl, f, hloads, hnil⟩, rfl⟩
    have hworks : i.WorksOn .tree f := hloads
    obtain ⟨warnings, _, hperform⟩ := perform_worksOn around hworks
    rcases tree_of_loads hloads with ⟨_, ht⟩ | ⟨t, ht⟩
    · rw [hperform, Command.work, tellTree, ht]
      exact ⟨rfl, rfl⟩
    · rw [Formula.tree, hnil] at ht
      cases ht

set_option maxRecDepth 100000 in
/-- A parenthesis is ignored with a warning, and then a value is missing. -/
theorem run_tells_own_errors_unbound :
    ∃ i, Invocation.ofArguments .value ["-v", "y=3", "x + y)"] = .ok i ∧
      (run Image.Rehearsal.smooth.toolbox ["calc", "-v", "y=3", "x + y)"]).Tells i
        "Cannot calculate. Unbound variables found: x" := by
  have hread : (Invocation.ofArguments .value ["-v", "y=3", "x + y)"]).toOption.map
      (fun i => (i.mode, i.bindings, i.expression)) =
        some (.default, [("y", .int 3)], "x + y)") := by
    decide +kernel
  obtain ⟨i, hi, hparts⟩ := Formula.exists_of_parts hread
  obtain ⟨hmode, hparts⟩ := Prod.mk.inj hparts
  obtain ⟨hbindings, hexpression⟩ := Prod.mk.inj hparts
  have hcreation : i.creation = Formula.parse 64 "x + y)" [("y", .number (.int 3))] := by
    rw [Invocation.creation, hbindings, hexpression]
    rfl
  have hmade : (Formula.parse 64 "x + y)" [("y", .number (.int 3))]).result.toOption.map
      (fun f => (f.program, f.table)) =
        some ([.operand (.name "x"), .operand (.name "y"), .operator (.binary .add)],
          [("x", none), ("y", some (.int 3))]) := by
    decide +kernel
  obtain ⟨f, hf, hparts⟩ := Formula.exists_of_parts hmade
  obtain ⟨hprogram, htable⟩ := Prod.mk.inj hparts
  have hescalates : ¬ i.Escalates := by
    rintro ⟨_, herror⟩
    rw [hmode] at herror
    cases herror
  have hworks : i.WorksOn .value f := ⟨hescalates, hcreation ▸ hf⟩
  have hvalue : f.calculate = .error (.calculation (.unbound ["x"])) := by
    rw [Formula.calculate, hprogram, htable]
    rfl
  have hmessage : (Error.calculation (.unbound ["x"])).message =
      "Cannot calculate. Unbound variables found: x" := by
    decide +kernel
  obtain ⟨-, htells, -, hrun⟩ :=
    run_tells_own_errors (.ofTools Image.Rehearsal.smooth.toolbox) .value i
  refine ⟨i, hi, ?_⟩
  rw [← hmessage]
  exact (hrun _ _ hi) ▸ htells _ (.value hworks hvalue) rfl nofun

set_option maxRecDepth 100000 in
/-- The tree of the empty text is not told, and the error is passed on. -/
theorem run_passes_own_error :
    ∃ i e, Invocation.ofArguments .tree [""] = .ok i ∧
      Meets Image.Rehearsal.smooth.toolbox i .tree e ∧ e.kind.isOwn ∧
      e.message = "Malformed program: 0 values left on stack instead of one" ∧
      (run Image.Rehearsal.smooth.toolbox ["ast", ""]).ending = .error e := by
  have hread : (Invocation.ofArguments .tree [""]).toOption.map
      (fun i => (i.mode, i.bindings, i.expression)) = some (.default, [], "") := by
    decide +kernel
  obtain ⟨i, hi, hparts⟩ := Formula.exists_of_parts hread
  obtain ⟨hmode, hparts⟩ := Prod.mk.inj hparts
  obtain ⟨hbindings, hexpression⟩ := Prod.mk.inj hparts
  have hcreation : i.creation = Formula.parse 64 "" [] := by
    rw [Invocation.creation, hbindings, hexpression]
    rfl
  have hmade : (Formula.parse 64 "" []).result.toOption.map (fun f => f.program) = some [] := by
    decide +kernel
  obtain ⟨f, hf, hnil⟩ := Formula.exists_of_parts hmade
  have hescalates : ¬ i.Escalates := by
    rintro ⟨_, herror⟩
    rw [hmode] at herror
    cases herror
  have hworks : i.WorksOn .tree f := ⟨hescalates, hcreation ▸ hf⟩
  have htree : f.tree = .error (.malformed (.leftover 0)) := by
    rw [Formula.tree, hnil]
    rfl
  have hrun : run Image.Rehearsal.smooth.toolbox ["ast", ""] = _ := run_name _ hi
  obtain ⟨warnings, _, hperform⟩ :=
    perform_worksOn (.ofTools Image.Rehearsal.smooth.toolbox) hworks
  refine ⟨i, _, hi, .tree hworks htree, rfl, rfl, ?_⟩
  rw [hrun, hperform, Command.work, tellTree, htree]
  rfl

end Reckon.CommandLine
