import Reckon.Proofs.Formula.Parsing
import Reckon.Proofs.Number.Json
import Reckon.Proofs.Session.Lineage

/-!
What the text behind a fingerprint tells of a formula.

The text holds the written program and the table, and both can be read off it. In a written program an
operator looks like a name, so the program itself can be read off only where no variable has the tag
of an operator; where one has, two formulas with different values may share their fingerprint.

    -a - uminus      a, :uminus, uminus, :minus   ──▶  ["a", "uminus", "uminus", "minus"]
    a - -uminus      a, uminus, :uminus, :minus   ──▶  ["a", "uminus", "uminus", "minus"]
-/

namespace Reckon

/-! ### What is written tells programs and tables apart -/

/-- Operands are told apart in JSON: a name is a string, and no number is one. -/
theorem Operand.code_json : Json.Code Operand.json where
  head a := by
    cases a with
    | number n => exact Number.code_json.head n
    | name s => exact Json.Code.string.head s
  inj {a b rest rest'} hrest hrest' h := by
    have hstring (s : String) (rest : List Char) :
        ∃ cs, (Json.string s).toList ++ rest = '"' :: cs := by
      rw [Json.string, String.toList_ofList]
      exact ⟨_, rfl⟩
    cases a with
    | number m =>
      cases b with
      | number n =>
        obtain ⟨rfl, rfl⟩ := Number.code_json.inj hrest hrest' h
        exact ⟨rfl, rfl⟩
      | name t =>
        obtain ⟨cs, hcs⟩ := hstring t rest'
        exact absurd (h.trans hcs) (m.append_json_ne (.inl rfl) _ _)
    | name s =>
      cases b with
      | number n =>
        obtain ⟨cs, hcs⟩ := hstring s rest
        exact absurd (h.symm.trans hcs) (n.append_json_ne (.inl rfl) _ _)
      | name t =>
        obtain ⟨rfl, rfl⟩ := Json.Code.string.inj hrest hrest' h
        exact ⟨rfl, rfl⟩

/-- Values of variables are told apart in JSON, a missing one included. -/
theorem Table.code_value :
    Json.Code fun value : Option Number => (value.map Number.json).getD Json.null where
  head value := by
    cases value with
    | none => exact ⟨'n', _, rfl, by decide⟩
    | some n => exact Number.code_json.head n
  inj {v w rest rest'} hrest hrest' h := by
    cases v with
    | none =>
      cases w with
      | none => exact ⟨rfl, List.append_cancel_left h⟩
      | some n => exact absurd h.symm (n.append_json_ne (.inr rfl) _ _)
    | some m =>
      cases w with
      | none => exact absurd h (m.append_json_ne (.inr rfl) _ _)
      | some n =>
        obtain ⟨rfl, rfl⟩ := Number.code_json.inj hrest hrest' h
        exact ⟨rfl, rfl⟩

/-- The written program and the table can be read off what the fingerprint is the digest of. -/
theorem Formula.fingerprintSource_inj {p p' : Program} {t t' : Table}
    (h : fingerprintSource p t = fingerprintSource p' t') : p.written = p'.written ∧ t = t' := by
  have hprogram := Operand.code_json.array
  have htable := (Json.Code.string.pair Table.code_value).array
  exact Prod.mk.inj ((hprogram.pair htable).eq_of_write_eq (a := (p.written, t))
    (b := (p'.written, t')) h)

/-! ### Operators and names -/

theorem Operator.tag_inj {op op' : Operator} (h : op.tag = op'.tag) : op = op' := by
  cases op with
  | negate =>
    cases op' with
    | negate => rfl
    | binary b => cases b <;> exact absurd h (by decide)
  | binary a =>
    cases op' with
    | negate => cases a <;> exact absurd h (by decide)
    | binary b => cases a <;> cases b <;> first | rfl | exact absurd h (by decide)

/-- Instructions are known by how they are written, unless one is a name with the tag of an
operator. -/
theorem Instruction.written_inj {i j : Instruction Operand}
    (hi : ∀ op : Operator, i ≠ .operand (.name op.tag))
    (hj : ∀ op : Operator, j ≠ .operand (.name op.tag)) (h : i.written = j.written) : i = j := by
  cases i with
  | operand a =>
    cases j with
    | operand b => exact congrArg Instruction.operand h
    | operator op => exact absurd (congrArg Instruction.operand h) (hi op)
  | operator op =>
    cases j with
    | operand b => exact absurd (congrArg Instruction.operand h.symm) (hj op)
    | operator op' =>
      obtain rfl := Operator.tag_inj (Operand.name.inj h)
      rfl

namespace Program

variable {p p' : Program}

/-- No variable has the tag of an operator. -/
def Untagged (p : Program) : Prop := ∀ name ∈ p.names, ∀ op : Operator, name ≠ op.tag

theorem Untagged.ne_of_mem {i : Instruction Operand} (hp : p.Untagged) (hi : i ∈ p)
    (op : Operator) : i ≠ .operand (.name op.tag) := by
  rintro rfl
  exact hp op.tag (mem_names.2 hi) op rfl

theorem written_inj (hp : p.Untagged) (hp' : p'.Untagged) (h : p.written = p'.written) :
    p = p' := by
  rw [written, written] at h
  have hlength : p.length = p'.length := by simpa using congrArg List.length h
  refine List.ext_getElem hlength fun k hk hk' => ?_
  have hwritten : p[k].written = p'[k].written := by
    simpa [hk, hk'] using congrArg (fun written => written[k]?) h
  exact Instruction.written_inj (hp.ne_of_mem (List.getElem_mem hk))
    (hp'.ne_of_mem (List.getElem_mem hk')) hwritten

end Program

/-! ### Formulas of sessions -/

namespace Session

/-- Two formulas of any sessions that have the same bytes behind their fingerprints have the same
written program and the same table. Where no variable has the tag of an operator, they have the same
program. -/
theorem eq_of_fingerprintSource {steps steps' : List (Nat × Step)} {slot slot' : Nat}
    {f f' : Formula} (hf : (after steps).get? slot = some f)
    (hf' : (after steps').get? slot' = some f')
    (h : (Formula.fingerprintSource f.program f.table).toUTF8 =
      (Formula.fingerprintSource f'.program f'.table).toUTF8) :
    f.program.written = f'.program.written ∧ f.table = f'.table ∧
      (f.program.Untagged → f.program = f'.program) := by
  obtain ⟨hwritten, htable⟩ := Formula.fingerprintSource_inj (String.toByteArray_inj.1 h)
  have hnames : f.program.names = f'.program.names := by
    rw [← (coherent_after steps slot f hf).names, ← (coherent_after steps' slot' f' hf').names,
      htable]
  refine ⟨hwritten, htable, fun huntagged => Program.written_inj huntagged ?_ hwritten⟩
  rw [Program.Untagged, ← hnames]
  exact huntagged

set_option maxRecDepth 100000 in
/-- A product in two spellings, its variable bound at once and later. -/
theorem eq_of_fingerprintSource_product :
    let steps : List (Nat × Step) := [(0, .create "2*x" [("x", .number (.int 1))] (some 64))]
    let steps' : List (Nat × Step) :=
      [(3, .create "2 \\cdot x" [] (some 64)), (3, .ask (.assign "x" (.number (.int 1))))]
    ∃ f f', (after steps).get? 0 = some f ∧ (after steps').get? 3 = some f' ∧
      f.source ≠ f'.source ∧ f.program.Untagged ∧ f.program = f'.program ∧ f.table = f'.table := by
  intro steps steps'
  have hread : ((after steps).get? 0).map (fun f =>
      (f.source, f.program.names, Formula.fingerprintSource f.program f.table)) =
        some ("2*x", ["x"], "[[2, \"x\", \"mul\"], [[\"x\", 1]]]") := by
    decide +kernel
  have hread' : ((after steps').get? 3).map (fun f =>
      (f.source, Formula.fingerprintSource f.program f.table)) =
        some ("2 \\cdot x", "[[2, \"x\", \"mul\"], [[\"x\", 1]]]") := by
    decide +kernel
  obtain ⟨f, hf, heq⟩ := Option.map_eq_some_iff.1 hread
  obtain ⟨f', hf', heq'⟩ := Option.map_eq_some_iff.1 hread'
  simp only [Prod.mk.injEq] at heq heq'
  obtain ⟨hsource, hnames, htext⟩ := heq
  obtain ⟨hsource', htext'⟩ := heq'
  have huntagged : f.program.Untagged := by
    rw [Program.Untagged, hnames]
    rintro name hname op rfl
    match op with
    | .negate => exact absurd hname (by decide)
    | .binary b => cases b <;> exact absurd hname (by decide)
  obtain ⟨_, htable, hprogram⟩ := eq_of_fingerprintSource hf hf' (by rw [htext, htext'])
  refine ⟨f, f', hf, hf', ?_, huntagged, hprogram huntagged, htable⟩
  rw [hsource, hsource']
  decide

set_option maxRecDepth 100000 in
/-- A variable with the tag of negation: two formulas with the same fingerprint have different
programs and different values. -/
theorem fingerprint_collision :
    let bindings := [("a", Offer.number (.int 5)), ("uminus", Offer.number (.int 2))]
    let steps : List (Nat × Step) :=
      [(0, .create "-a - uminus" bindings (some 64)), (1, .create "a - -uminus" bindings (some 64))]
    ∃ f f', (after steps).get? 0 = some f ∧ (after steps).get? 1 = some f' ∧
      (Formula.fingerprintSource f.program f.table).toUTF8 =
        (Formula.fingerprintSource f'.program f'.table).toUTF8 ∧
      f.fingerprint = f'.fingerprint ∧ f.program ≠ f'.program ∧
      f.calculate = .ok (.int (-7)) ∧ f'.calculate = .ok (.int 7) := by
  intro bindings steps
  have hread : ((after steps).get? 0).map (fun f => (f.program, f.table)) =
      some ([.operand (.name "a"), .operator .negate, .operand (.name "uminus"),
        .operator (.binary .subtract)], [("a", some (.int 5)), ("uminus", some (.int 2))]) := by
    decide +kernel
  have hread' : ((after steps).get? 1).map (fun f => (f.program, f.table)) =
      some ([.operand (.name "a"), .operand (.name "uminus"), .operator .negate,
        .operator (.binary .subtract)], [("a", some (.int 5)), ("uminus", some (.int 2))]) := by
    decide +kernel
  obtain ⟨f, hf, heq⟩ := Option.map_eq_some_iff.1 hread
  obtain ⟨f', hf', heq'⟩ := Option.map_eq_some_iff.1 hread'
  obtain ⟨hprogram, htable⟩ := Prod.mk.inj heq
  obtain ⟨hprogram', htable'⟩ := Prod.mk.inj heq'
  have hsource : Formula.fingerprintSource f.program f.table =
      Formula.fingerprintSource f'.program f'.table := by
    rw [hprogram, htable, hprogram', htable']
    rfl
  refine ⟨f, f', hf, hf', congrArg String.toUTF8 hsource, ?_, ?_, ?_, ?_⟩
  · rw [(coherent_after steps 0 f hf).fingerprint, (coherent_after steps 1 f' hf').fingerprint,
      hsource]
  · rw [hprogram, hprogram']
    decide
  · rw [Formula.calculate, hprogram, htable]
    rfl
  · rw [Formula.calculate, hprogram', htable']
    rfl

end Session

end Reckon
