import Reckon.Formula.Basic
import Reckon.Image.Basic

/-!
Sessions: formulas in numbered slots, and steps that make, change and read them.

A step works on one slot. It may put a formula into another slot, a copy or what its text parses to
again, and it never changes a formula that stands in another slot otherwise. A step that fails leaves
the slot as it was, except that a slot is emptied before a new formula is made in it.

    session ──step──▶ session, answer        answer = reply or error, warnings, the slot afterwards
-/

namespace Reckon

/-- What may be asked of the formula in a slot. -/
inductive Request where
  | assign (name : String) (offer : Offer)
  | value (name : String)
  | contains (name : String)
  | bind (assignments : List (String × Offer))
  /-- A copy of the formula in another slot. -/
  | copy (target : Nat)
  /-- A new formula in another slot, parsed from the text of this one. -/
  | reparse (target : Nat)
  | calculate
  | tree
  | text
  | description
  | fingerprint
  /-- The formula itself. -/
  | summary
  | image (tools : Image.Toolbox) (style : Image.Style)

/-- A step of a session. -/
inductive Step where
  /-- A new formula, parsed within a nesting limit, or only shown where there is none. -/
  | create (source : String) (assignments : List (String × Offer)) (limit : Option Int)
  | ask (request : Request)

/-- What a step answers where it succeeds. -/
inductive Reply where
  | done
  | value (n : Option Number)
  | flag (b : Bool)
  | tree (t : Tree Operand)
  | text (s : String)
  | summary (f : Formula)
  | image (r : Image.Rendering)

/-- The answer to a step. -/
structure Answer where
  /-- The reply or the error; none where the slot was empty. -/
  result : Option (Except Error Reply)
  /-- What was said about the text on the way. -/
  warnings : List String
  /-- The formula in the slot of the step afterwards. -/
  formula : Option Formula

/-- The formulas by their slots, each slot once. -/
abbrev Session := List (Nat × Formula)

namespace Session

/-- The formula in a slot. -/
def get? (s : Session) (slot : Nat) : Option Formula := s.lookup slot

/-- The session with a slot emptied. -/
def clear (s : Session) (slot : Nat) : Session := s.filter fun (other, _) => other != slot

/-- The session with a formula put into a slot, in the place of the one that was there. -/
def put (s : Session) (slot : Nat) (f : Formula) : Session :=
  match s with
  | [] => [(slot, f)]
  | (other, g) :: s => if other = slot then (slot, f) :: s else (other, g) :: put s slot f

/-- The outcome of a request before it is told: the session, the reply and the warnings. -/
structure Outcome where
  session : Session
  result : Except Error Reply
  warnings : List String := []

/-- A request that only reads. -/
def read (s : Session) (result : Except Error Reply) : Outcome := { session := s, result }

/-- A request that changes the formula in a slot. The formula stays as the change leaves it, also where
the change fails. -/
def change (s : Session) (slot : Nat) (f : Formula) (c : Formula.Change Unit) : Outcome :=
  let (result, f) := f.change c
  { session := s.put slot f, result := result.map fun _ => .done }

/-- Puts a new formula into a slot, if there is one. -/
def make (s : Session) (slot : Nat) (source : String) (c : Formula.Creation) : Outcome :=
  let warnings := List.replicate c.ignored (ignoredMessage source)
  match c.result with
  | .ok f => { session := s.put slot f, result := .ok .done, warnings }
  | .error e => { session := s, result := .error e, warnings }

/-- A request about the formula in a slot. -/
def ask (s : Session) (slot : Nat) (f : Formula) : Request → Outcome
  | .assign name offer => s.change slot f (Formula.setAll [(name, offer)])
  | .value name => s.read ((f.value name).map .value)
  | .contains name => s.read (.ok (.flag (f.contains name)))
  | .bind assignments => s.change slot f (Formula.setAll assignments)
  | .copy target => { session := s.put target f, result := .ok .done }
  | .reparse target =>
    match f.text with
    | .ok text => s.make target text (Formula.parse defaultLimit text [])
    | .error e => s.read (.error e)
  | .calculate => s.read (f.calculate.map fun n => .value (some n))
  | .tree => s.read (f.tree.map .tree)
  | .text => s.read (f.text.map .text)
  | .description => s.read (.ok (.text f.description))
  | .fingerprint => s.read (.ok (.text f.fingerprint))
  | .summary => s.read (.ok (.summary f))
  | .image tools style =>
    s.read (f.text.map fun text =>
      .image (Image.render tools style text f.fingerprint (.given [])))

/-- A step on a slot, where there is a formula to ask. -/
def attempt (s : Session) (slot : Nat) : Step → Option Outcome
  | .create source assignments (some limit) =>
    some ((s.clear slot).make slot source (Formula.parse limit source assignments))
  | .create source assignments none =>
    some ((s.clear slot).make slot source (Formula.display source assignments))
  | .ask request => (s.get? slot).map fun f => s.ask slot f request

/-- One step: the session afterwards and the answer. -/
def step (s : Session) (slot : Nat) (step : Step) : Session × Answer :=
  match s.attempt slot step with
  | some o => (o.session, ⟨some o.result, o.warnings, o.session.get? slot⟩)
  | none => (s, ⟨none, [], none⟩)

/-- The steps one after another, each on its slot: the session afterwards and the answers. -/
def run (s : Session) : List (Nat × Step) → Session × List Answer
  | [] => (s, [])
  | (slot, step) :: steps =>
    let (s, answer) := s.step slot step
    let (s, answers) := s.run steps
    (s, answer :: answers)

end Session

end Reckon
