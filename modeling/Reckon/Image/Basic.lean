import Reckon.Error
import Reckon.Image.Directory

/-!
Typesetting a formula to an image.

Two commands do the work in a directory: the first turns a TeX document into pages, the second draws
the page as an image. Commands are pure steps here: a command takes the directory and its arguments to
the directory it leaves behind, and may fail. Whatever happens, the document and the files that
lead to the image are removed; where the work fails in a directory made for it, so is the directory.

    document ──write──▶ .tex ──latex──▶ .dvi .aux .log ──dvipng──▶ .png      remove all but .png
-/

namespace Reckon.Image

/-- The commands that typesetting needs, in the order they run. -/
def required : List String := ["latex", "dvipng"]

/-- The TeX document that shows a text as a displayed formula. -/
def document (text : String) : String :=
  "\n".intercalate
    ["\\documentclass\x7barticle\x7d", "\\usepackage\x7bamsmath,amssymb\x7d",
     "\\begin\x7bdocument\x7d", "\\thispagestyle\x7bempty\x7d", "$$ " ++ text ++ " $$",
     "\\end\x7bdocument\x7d", ""]

/-- What a command leaves behind: the directory, and the status it failed with if it did. -/
structure Run where
  directory : Directory
  failure : Option Int

/-- The commands at hand. -/
structure Toolbox where
  /-- The command that is set for a variable of the environment. -/
  setting : String → Option String
  /-- Whether a command cannot be found. -/
  isMissing : String → Bool
  /-- Runs the first command with its arguments. -/
  typeset : Directory → List String → Run
  /-- Runs the second command with its arguments. -/
  draw : Directory → List String → Run

/-- The capital of a letter, where it is an ASCII letter: the two letters beside ASCII that have such
a capital are the dotless i and the long s. -/
def capital (c : Char) : Char :=
  if c = '\u0131' then 'I' else if c = '\u017F' then 'S' else c.toUpper

/-- The command that runs for a name: the one set in the environment, or the name itself. -/
def Toolbox.command (tools : Toolbox) (name : String) : String :=
  (tools.setting (name.map capital)).getD name

/-- The required commands that cannot be found, by their names. -/
def Toolbox.missing (tools : Toolbox) : List String :=
  required.filter fun name => tools.isMissing (tools.command name)

/-- How an image is to look. -/
structure Style where
  background : String
  /-- Dots per inch; only the integer part counts. -/
  density : Number

/-- The style where nothing else is asked for. -/
def Style.default : Style := ⟨"White", .int 700⟩

/-- The text of the integer part of a density. -/
def densityText (density : Number) : Except Error String := do
  let n : Int ← match density with
    | .int n => pure n
    | .float x =>
      match Binary64.parts x with
      | .nan => .error .undefinedDensity
      | .infinite _ => .error .infiniteDensity
      | .finite negative significand power =>
        pure (Binary64.truncate negative significand power)
  match (Number.int n).text? with
  | some s => return s
  | none => .error .unwritable

/-- The files that lead to the image, by their suffixes. -/
def intermediates : List String := [".tex", ".dvi", ".aux", ".log"]

/-- Where an image is placed. -/
inductive Place where
  /-- A directory that is there already. -/
  | given (d : Directory)
  /-- A new directory made for the image. -/
  | fresh

/-- What rendering leaves behind. -/
structure Rendering where
  /-- The file name of the image, or why there is none. -/
  result : Except Error String
  /-- The directory, if it is there. -/
  directory : Option Directory
  /-- The commands that ran, each with its arguments. -/
  calls : List (List String)
  /-- The document that was typeset, if it came to that. -/
  document : Option String

/-- What came of the work in a directory before it is tidied up. -/
structure Work where
  result : Except Error Unit
  directory : Directory
  calls : List (List String)

/-- Runs the two commands on the document `tex`, up to the first failure. -/
def work (tools : Toolbox) (style : Style) (tex : String) (d : Directory) : Work :=
  let typesetting := ["-interaction=nonstopmode", tex]
  let typesetCall := tools.command "latex" :: typesetting
  let typeset := tools.typeset d typesetting
  match typeset.failure with
  | some status =>
    ⟨.error (.commandFailed (tools.command "latex") status), typeset.directory, [typesetCall]⟩
  | none =>
    match densityText style.density with
    | .error e => ⟨.error e, typeset.directory, [typesetCall]⟩
    | .ok density =>
      let drawing := ["-q", "-T", "tight", "-bg", style.background, "-D", density,
        "-o", Directory.withSuffix tex ".png", Directory.withSuffix tex ".dvi"]
      let drawCall := tools.command "dvipng" :: drawing
      let draw := tools.draw typeset.directory drawing
      match draw.failure with
      | some status =>
        ⟨.error (.commandFailed (tools.command "dvipng") status), draw.directory,
          [typesetCall, drawCall]⟩
      | none => ⟨.ok (), draw.directory, [typesetCall, drawCall]⟩

/-- The directory without the files that lead to the image. -/
def tidy (tex : String) (d : Directory) : Directory :=
  intermediates.foldl (fun d suffix => d.remove (Directory.withSuffix tex suffix)) d

/-- Renders a text to an image named after a fingerprint. -/
def render (tools : Toolbox) (style : Style) (text fingerprint : String) (place : Place) :
    Rendering :=
  let before : Option Directory := match place with
    | .given d => some d
    | .fresh => none
  match tools.missing with
  | [] =>
    let tex := fingerprint ++ ".tex"
    let done := work tools style tex ((before.getD []).write tex (document text))
    let after := tidy tex done.directory
    match done.result with
    | .ok () =>
      ⟨.ok (Directory.withSuffix tex ".png"), some after, done.calls, some (document text)⟩
    | .error e =>
      ⟨.error e, before.map fun _ => after, done.calls, some (document text)⟩
  | missing => ⟨.error (.missingCommands missing), before, [], none⟩

end Reckon.Image
