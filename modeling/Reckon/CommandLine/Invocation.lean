import Reckon.CommandLine.Path
import Reckon.Number.Basic

/-!
Invocations: a command with everything that is asked of it.

How an invocation is written down is no matter here; a command is carried out for any.
-/

namespace Reckon.CommandLine

/-- The commands: each tells, or draws, one aspect of a formula. -/
inductive Command where
  | program
  | tree
  | variables
  | value
  | image
  deriving DecidableEq, Repr

namespace Command

/-- All commands. -/
def all : List Command := [.program, .tree, .variables, .value, .image]

/-- The name of a command. -/
def name : Command → String
  | .program => "rpn"
  | .tree => "ast"
  | .variables => "variables"
  | .value => "calc"
  | .image => "render"

end Command

/-- What becomes of warnings. -/
inductive WarningMode where
  | default
  | ignore
  | once
  | error
  deriving DecidableEq, Repr

namespace WarningMode

/-- All modes. -/
def all : List WarningMode := [.default, .ignore, .once, .error]

/-- The name of a mode. -/
def name : WarningMode → String
  | .default => "default"
  | .ignore => "ignore"
  | .once => "once"
  | .error => "error"

end WarningMode

/-- What is asked of a command. -/
structure Invocation where
  mode : WarningMode
  json : Bool
  bindings : List (String × Number)
  background : String
  density : Int
  noParse : Bool
  expression : String
  outfile : Path
  deriving Repr

/-- What is asked where nothing is said. -/
def Invocation.default : Invocation where
  mode := .default
  json := false
  bindings := []
  background := "White"
  density := 700
  noParse := false
  expression := ""
  outfile := ⟨"", []⟩

end Reckon.CommandLine
