import Reckon.CommandLine.Invocation
import Reckon.Formula.Basic
import Reckon.Image.Basic
import Reckon.Text.ControlSequence

/-!
The commands.

A command loads a formula, works on it and tells the result on one channel, warnings and errors on the
other. Errors in the expression, its values or the rendering end the command with status 1, variables
that are bound in a text which is not parsed end it with status 2. Some errors are not told but passed
on to the caller. A command is carried out for an invocation, whatever it was read from, and in
surroundings that it does not decide.

    invocation ──▶ formula ──▶ output, errors, status
                      │
                   status 1
-/

namespace Reckon.CommandLine

/-- How a command ends. -/
inductive Ending where
  | status (code : Nat)
  /-- An error is passed on. -/
  | error (e : Error)
  /-- The file of the image cannot be made. -/
  | noFile (e : FileError)

/-- What a command leaves behind. -/
structure Outcome where
  ending : Ending
  output : String := ""
  errors : String := ""
  /-- The rendering, if it came to that. -/
  rendering : Option Image.Rendering := none
  /-- The files written to the working directory. -/
  files : Directory := []

namespace Outcome

/-- Success, with a text told. -/
def told (output : String) : Outcome := { ending := .status 0, output }

/-- How an error is told: in plain text, whatever the arguments bring along. -/
def errorLine (message : String) : String := "Error: " ++ Text.plain message ++ "\n"

/-- Failure, with a message told. -/
def failed (message : String) : Outcome := { ending := .status 1, errors := errorLine message }

/-- Failure of a command that is used wrongly, with a message told behind a preface. -/
def misused (preface message : String) : Outcome :=
  { ending := .status 2, errors := preface ++ errorLine message }

/-- The outcome with warnings told before the errors. -/
def warned (warnings : String) (o : Outcome) : Outcome := { o with errors := warnings ++ o.errors }

/-- An error that is passed on. -/
def passed (e : Error) : Outcome := { ending := .error e }

end Outcome

/-- Whether an error met while a formula is loaded is told; the others are passed on. -/
def isTold : Error → Bool
  | .parse _ (.lexical (.longNumeral _)) | .unwritable => false
  | _ => true

/-- How a warning is told. -/
def warningLine (message : String) : String := "calculus/parser.py:89: " ++ message ++ "\n"

/-- Loads the formula of an invocation and goes on with it. The same warning is told only once. -/
def withFormula (i : Invocation) (next : Formula → Outcome) : Outcome :=
  let bindings := i.bindings.map fun (name, n) => (name, Offer.number n)
  let creation := Formula.parse defaultLimit i.expression bindings
  let message := ignoredMessage i.expression
  if 0 < creation.ignored ∧ i.mode = .error then .failed message
  else
    let warnings :=
      if creation.ignored = 0 ∨ i.mode = .ignore then "" else warningLine message
    .warned warnings <|
      match creation.result with
      | .ok f => next f
      | .error e => if isTold e then .failed e.message else .passed e

/-! ### The commands -/

/-- What a command is carried out in, and does not decide itself. -/
structure Surroundings where
  /-- The commands at hand for typesetting. -/
  tools : Image.Toolbox
  /-- What is told in front of an error in the use of a command. -/
  preface : Command → String
  /-- The name that the file of an image at a path gets in the working directory, if it lies there, or
  why it cannot be made. -/
  place : Path → String → Except FileError (Option String)

/-- Tells the postfix program. -/
def tellProgram (i : Invocation) (f : Formula) : Outcome :=
  .told ((if i.json then f.program.json else f.program.text) ++ "\n")

/-- Tells the expression tree. -/
def tellTree (f : Formula) : Outcome :=
  match f.tree with
  | .ok t => .told (t.json ++ "\n")
  | .error e => .passed e

/-- Tells the variables with their values. -/
def tellVariables (f : Formula) : Outcome :=
  let line : String × Option Number → String := fun (name, value) =>
    match value with
    | some n => name ++ " = " ++ n.text ++ "\n"
    | none => name ++ " (unbound)\n"
  .told (String.join (f.table.map line))

/-- Tells the numeric value. -/
def tellValue (f : Formula) : Outcome :=
  match f.calculate with
  | .error e => .failed e.message
  | .ok n =>
    match n.text? with
    | some s => .told (s ++ "\n")
    | none => .failed Error.unwritable.message

/-- Renders the formula and copies the image to its place. -/
def drawImage (around : Surroundings) (i : Invocation) (f : Formula) : Outcome :=
  match f.text with
  | .error e => .passed e
  | .ok text =>
    let style : Image.Style := ⟨i.background, .int i.density⟩
    let r := Image.render around.tools style text f.fingerprint (.given [])
    match r.result with
    | .error (.commandFailed command status) =>
      let message := (Error.commandFailed command status).message
      { Outcome.failed ("Error rendering expression: " ++ message) with rendering := some r }
    | .error (.missingCommands names) =>
      { Outcome.failed (Error.missingCommands names).message with rendering := some r }
    | .error e => { Outcome.passed e with rendering := some r }
    | .ok png =>
      match around.place i.outfile png with
      | .error e => { ending := .noFile e, rendering := some r }
      | .ok name =>
        let content := ((r.directory.getD []).read? png).getD ""
        let files := name.toList.map fun name => (name, content)
        { ending := .status 0, rendering := some r, files }

/-- Renders the text of an invocation, parsed or as it is. -/
def drawInvocation (around : Surroundings) (i : Invocation) : Outcome :=
  if i.noParse then
    if i.bindings.isEmpty then
      match (Formula.display i.expression []).result with
      | .ok f => drawImage around i f
      | .error e => .passed e
    else .misused (around.preface .image) "--var cannot be used together with --no-parse."
  else withFormula i (drawImage around i)

/-- Carries a command out. -/
def Command.perform (around : Surroundings) (c : Command) (i : Invocation) : Outcome :=
  match c with
  | .program => withFormula i (tellProgram i)
  | .tree => withFormula i tellTree
  | .variables => withFormula i tellVariables
  | .value => withFormula i tellValue
  | .image => drawInvocation around i

end Reckon.CommandLine
