import Mathlib.Data.List.Induction
import Reckon.Proofs.Session.Move

/-!
What holds of every formula of a session, whatever the steps were.

Each formula goes back to one text, the one it was made from, also through copies; binding never
changes text or program. What holds of formulas one by one is kept by every move, so it holds after
all steps, failed ones included, and a step on one slot leaves the formulas in the others.

    create "a+b"     assign a     copy 1        reparse 2          slot 0   a+b
        slot 0         slot 0       slot 0        slot 1           slot 1   a+b, as in slot 0
                                                                   slot 2   the text of slot 1
-/

namespace Reckon

namespace Session

/-- The session after steps from the empty one. -/
def after (steps : List (Nat × Step)) : Session := (run [] steps).1

/-- The text and the program that the formula in a slot goes back to. -/
inductive Lineage : List (Nat × Step) → Nat → String → Program → Prop
  | create {steps : List (Nat × Step)} {slot : Nat} {source : String}
      {assignments : List (String × Offer)} {limit : Option Int} {p : Program} :
      programOf limit source = .ok p →
      Lineage (steps ++ [(slot, .create source assignments limit)]) slot source p
  | copy {steps : List (Nat × Step)} {slot target : Nat} {f : Formula} :
      (after steps).get? slot = some f → Lineage steps slot f.source f.program →
      Lineage (steps ++ [(slot, .ask (.copy target))]) target f.source f.program
  | reparse {steps : List (Nat × Step)} {slot target : Nat} {f : Formula} {text : String}
      {p : Program} :
      (after steps).get? slot = some f → f.text = .ok text →
      programOf (some defaultLimit) text = .ok p →
      Lineage (steps ++ [(slot, .ask (.reparse target))]) target text p
  | keep {steps : List (Nat × Step)} {slot other : Nat} {step : Step} {source : String}
      {p : Program} :
      Lineage steps other source p → (after steps).renewed slot step ≠ some other →
      Lineage (steps ++ [(slot, step)]) other source p

theorem run_concat (s : Session) (steps : List (Nat × Step)) (slot : Nat) (step : Step) :
    (s.run (steps ++ [(slot, step)])).1 = ((s.run steps).1.step slot step).1 := by
  induction steps generalizing s with
  | nil => rfl
  | cons first steps ih =>
    obtain ⟨slot₁, step₁⟩ := first
    exact ih (s.step slot₁ step₁).1

theorem after_concat (steps : List (Nat × Step)) (slot : Nat) (step : Step) :
    after (steps ++ [(slot, step)]) = ((after steps).step slot step).1 :=
  run_concat [] steps slot step

/-- All formulas are coherent after any steps. -/
theorem coherent_after (steps : List (Nat × Step)) : (after steps).Coherent := by
  induction steps using List.reverseRecOn with
  | nil => exact fun _ _ h => by cases h
  | append_singleton steps last ih =>
    obtain ⟨slot, step⟩ := last
    rw [after_concat]
    exact (move_step (after steps) slot step).coherent ih

/-- Every formula has the text and the program that it goes back to. -/
theorem lineage_after {steps : List (Nat × Step)} {k : Nat} {f : Formula}
    (h : (after steps).get? k = some f) : Lineage steps k f.source f.program := by
  induction steps using List.reverseRecOn generalizing k f with
  | nil => cases h
  | append_singleton steps last ih =>
    obtain ⟨slot, step⟩ := last
    rw [after_concat] at h
    have hmove := move_step (after steps) slot step
    -- a step puts one formula at most: a new one has a birth of its own, all others keep theirs
    generalize ((after steps).step slot step).1 = s' at h hmove
    cases hmove with
    | stay hrenewed =>
      refine .keep (ih h) ?_
      rw [hrenewed]
      exact nofun
    | drop =>
      obtain ⟨hne, h⟩ := get?_clear_eq_some.1 h
      exact .keep (ih h) fun heq => hne (Option.some.inj heq).symm
    | create _ hsource hprogram =>
      rcases get?_put_eq_some.1 h with ⟨rfl, rfl⟩ | ⟨hne, h⟩
      · rw [hsource]
        exact .create hprogram
      · exact .keep (ih (get?_clear_eq_some.1 h).2) fun heq => hne (Option.some.inj heq).symm
    | @bind request _ _ _ hrenewed hget hbind =>
      have hkeep : (after steps).renewed slot (.ask request) ≠ some k := by
        rw [hrenewed]
        exact nofun
      rcases get?_put_eq_some.1 h with ⟨rfl, rfl⟩ | ⟨_, h⟩
      · obtain ⟨hsource, hprogram, _⟩ := Formula.bind_fixed hbind
        rw [hsource, hprogram]
        exact .keep (ih hget) hkeep
      · exact .keep (ih h) hkeep
    | @copy target g hget =>
      rcases get?_put_eq_some.1 h with ⟨rfl, rfl⟩ | ⟨hne, h⟩
      · exact .copy hget (ih hget)
      · refine .keep (ih h) fun heq => hne ?_
        rw [renewed, hget] at heq
        exact (Option.some.inj heq).symm
    | reparse hget htext _ hsource hprogram htarget =>
      rcases get?_put_eq_some.1 h with ⟨rfl, rfl⟩ | ⟨hne, h⟩
      · rw [hsource]
        exact .reparse hget htext hprogram
      · refine .keep (ih h) fun heq => hne ?_
        rw [htarget] at heq
        exact (Option.some.inj heq).symm

/-- After any steps, successful or not: every formula has a value or none for each name of its
program, no integer among the values is too long to be written, text and program are those that it
was made with, the fingerprint is the digest of program and values, and neither the fingerprint nor
the text can fail to be computed. Formulas with equal programs and equal values have equal
fingerprints, whatever the steps were that led there; equal values are the same number of the same
kind, so that the integer 2 and the float 2.0 differ, and so do the floats 0.0 and -0.0. A step on one
slot leaves the formulas in all others, except in the slot that it puts a new one into. -/
theorem after_invariant (steps : List (Nat × Step)) :
    (∀ slot f, (after steps).get? slot = some f →
      f.table.names = f.program.names ∧
      (∀ name n, (name, some (.int n)) ∈ f.table → (Nat.toDigits 10 n.natAbs).length ≤ 4300) ∧
      Lineage steps slot f.source f.program ∧
      f.fingerprint = Digest.fingerprint (Json.array [f.program.json, f.table.json]) ∧
      f.withTable f.table = .ok f ∧ ∃ text, f.text = .ok text) ∧
    (∀ steps' slot slot' f f', (after steps).get? slot = some f →
      (after steps').get? slot' = some f' → f.program = f'.program →
      (∀ name ∈ f.program.names, f.table.value? name = f'.table.value? name) →
      f.fingerprint = f'.fingerprint) ∧
    ∀ slot step other, other ≠ slot → (after steps).renewed slot step ≠ some other →
      (after (steps ++ [(slot, step)])).get? other = (after steps).get? other := by
  refine ⟨?_, ?_, ?_⟩
  · intro slot f hf
    have hcoherent := coherent_after steps slot f hf
    exact ⟨hcoherent.names, fun _ _ hmem => Table.length_toDigits_le hcoherent.table hmem,
      lineage_after hf, hcoherent.fingerprint, hcoherent.withTable,
      _, Formula.text_eq_ok hcoherent.table⟩
  · intro steps' slot slot' f f' hf hf' hprogram hvalue
    have hcoherent := coherent_after steps slot f hf
    have hcoherent' := coherent_after steps' slot' f' hf'
    exact hcoherent.fingerprint_congr hcoherent' hprogram hvalue
  · intro slot step other hslot hrenewed
    rw [after_concat]
    exact (move_step (after steps) slot step).frame hslot hrenewed

set_option maxRecDepth 100000 in
/-- A copy of a formula that was bound when it was made, behind a step that failed, and what is asked
of the original afterwards; and a formula with the same values that was bound later, behind a binding
that failed at its second name. -/
theorem after_invariant_copy :
    let steps : List (Nat × Step) :=
      [(0, .create "x + y" [("x", .number (.int 5))] (some 64)), (0, .ask (.assign "z" .nothing)),
        (0, .ask (.copy 1))]
    let steps' : List (Nat × Step) :=
      [(0, .create "x + y" [] (some 64)),
        (0, .ask (.bind [("x", .number (.int 3)), ("z", .number (.int 5))])),
        (0, .ask (.assign "x" (.number (.int 5))))]
    ∃ f g, (after steps).get? 1 = some f ∧ (after steps').get? 0 = some g ∧
      f.table = [("x", some (.int 5)), ("y", none)] ∧
      f.table.names = f.program.names ∧ (Nat.toDigits 10 (5 : Int).natAbs).length ≤ 4300 ∧
      Lineage steps 1 f.source f.program ∧
      f.fingerprint = Digest.fingerprint (Json.array [f.program.json, f.table.json]) ∧
      f.withTable f.table = .ok f ∧ (∃ text, f.text = .ok text) ∧
      f.fingerprint = g.fingerprint ∧
      (after (steps ++ [(0, .ask (.assign "x" .nothing))])).get? 1 = (after steps).get? 1 := by
  intro steps steps'
  have hcopy : ((after steps).get? 1).map (fun f => (f.program, f.table)) =
      some ([.operand (.name "x"), .operand (.name "y"), .operator (.binary .add)],
        [("x", some (.int 5)), ("y", none)]) := by
    decide +kernel
  have hlater : ((after steps').get? 0).map (fun f => (f.program, f.table)) =
      some ([.operand (.name "x"), .operand (.name "y"), .operator (.binary .add)],
        [("x", some (.int 5)), ("y", none)]) := by
    decide +kernel
  obtain ⟨f, hf, hparts⟩ := Option.map_eq_some_iff.1 hcopy
  obtain ⟨hprogram, htable⟩ := Prod.mk.inj hparts
  obtain ⟨g, hg, hparts'⟩ := Option.map_eq_some_iff.1 hlater
  obtain ⟨hprogram', htable'⟩ := Prod.mk.inj hparts'
  obtain ⟨hformula, hequal, hframe⟩ := after_invariant steps
  obtain ⟨hnames, hdigits, hlineage, hfingerprint, hsame, htext⟩ := hformula 1 f hf
  have hfive : ("x", some (.int 5)) ∈ f.table := by
    rw [htable]
    exact List.mem_cons_self ..
  have hvalue : ∀ name ∈ f.program.names, f.table.value? name = g.table.value? name := by
    intro name _
    rw [htable, htable']
  exact ⟨f, g, hf, hg, htable, hnames, hdigits "x" 5 hfive, hlineage, hfingerprint, hsame, htext,
    hequal steps' 1 0 f g hf hg (hprogram.trans hprogram'.symm) hvalue,
    hframe 0 _ 1 (by decide) nofun⟩

end Session

end Reckon
