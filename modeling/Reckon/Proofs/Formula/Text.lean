import Reckon.Proofs.Formula.Coherent
import Reckon.Proofs.Formula.Value

/-!
Putting values into a text commutes with parsing it.

The text of a formula with the values put in is parsed, with no more and no fewer parentheses ignored
than in the source, and its program is that of the formula with the values put in. Where all values
are integers, the new formula has the numeric value of the old one.

    source ────────parse──────▶ program
      │ values                     │ values
      ▼                            ▼
     text  ────────parse──────▶ program with values
-/

namespace Reckon

/-! ### The values of a table -/

namespace Table

variable {t : Table}

theorem mem_of_value? {s : String} {n : Number} (h : t.value? s = some n) : (s, some n) ∈ t := by
  induction t with
  | nil => cases h
  | cons entry t ih =>
    obtain ⟨name, value⟩ := entry
    rw [value?, List.lookup_cons] at h
    split at h
    · next heq =>
      obtain rfl := eq_of_beq heq
      obtain rfl : value = some n := h
      exact List.mem_cons_self ..
    · exact List.mem_cons_of_mem _ (ih h)

theorem mem_names_of_value? {s : String} {n : Number} (h : t.value? s = some n) : s ∈ t.names :=
  List.mem_map_of_mem (mem_of_value? h)

/-- The values that are looked up among the bound names are those of the table. -/
theorem lookup_bound (hnodup : t.names.Nodup) (text : Number → String) (s : String) :
    (t.bound.map fun (name, n) => (name, text n)).lookup s = (t.value? s).map text := by
  induction t with
  | nil => rfl
  | cons entry t ih =>
    obtain ⟨name, value⟩ := entry
    obtain ⟨hnot, hnodup⟩ := List.nodup_cons.1 hnodup
    have hrest := ih hnodup
    rw [value?, List.lookup_cons]
    cases value with
    | none =>
      have hbound : bound ((name, none) :: t) = bound t := rfl
      rw [hbound, hrest]
      split
      · next heq =>
        -- the name has no second place in the table where it could have a value
        obtain rfl := eq_of_beq heq
        cases hvalue : value? t s with
        | none => rfl
        | some n => exact absurd (mem_names_of_value? hvalue) hnot
      · rfl
    | some n =>
      have hbound : bound ((name, some n) :: t) = (name, n) :: bound t := rfl
      rw [hbound, List.map_cons, List.lookup_cons]
      split
      · rfl
      · exact hrest

/-- The values are put in for the words that are bound names. -/
theorem apply_bound (hnodup : t.names.Nodup) (source : String) :
    Substitution.apply (t.bound.map fun (name, n) => (name, n.substituteText?.getD "")) source =
      String.ofList (Substitution.replaceWords (Substitution.valueOf t.value?) false
        source.toList) := by
  have hvalue : (fun word => ((t.bound.map fun (name, n) =>
      (name, n.substituteText?.getD "")).lookup (String.ofList word)).map String.toList) =
        Substitution.valueOf t.value? := by
    funext word
    rw [lookup_bound hnodup fun n => n.substituteText?.getD "", Option.map_map]
    rfl
  rw [Substitution.apply, hvalue]

end Table

namespace Formula

variable {limit : Int} {f : Formula}

/-- A formula that was parsed under a nesting limit, then bound any number of times. -/
inductive FromText (limit : Int) : Formula → Prop
  | parse {source : String} {assignments : List (String × Offer)} {f : Formula} :
      (Formula.parse limit source assignments).result = .ok f → FromText limit f
  | bind {f f' : Formula} {assignments : List (String × Offer)} :
      FromText limit f → f.bind assignments = .ok f' → FromText limit f'

/-- Such a formula is coherent, and its program is that of its text. -/
theorem FromText.invariant (h : FromText limit f) :
    f.Coherent ∧ ∃ n, Reckon.parse limit f.source = ⟨.ok f.program, n⟩ := by
  induction h with
  | @parse source assignments f hparse =>
    obtain ⟨hcoherent, rfl, hresult, _⟩ := parse_eq_ok hparse
    exact ⟨hcoherent, _, congrArg (Parsing.mk · _) hresult⟩
  | bind _ hbind ih =>
    obtain ⟨hcoherent, n, hparse⟩ := ih
    obtain ⟨hsource, hprogram, _⟩ := bind_fixed hbind
    rw [hsource, hprogram]
    exact ⟨hcoherent.bind hbind, n, hparse⟩

theorem exists_parse {source : String} {p : Program} {n : Nat}
    (h : Reckon.parse limit source = ⟨.ok p, n⟩) :
    ∃ f, (parse limit source []).result = .ok f ∧ f.program = p := by
  have htable : (Table.ofNames p.names).isWritable := by simp [Table.isWritable, Table.ofNames]
  obtain ⟨f, hmake⟩ : ∃ f, make source p true (Table.ofNames p.names) = .ok f :=
    ⟨_, make_eq_ok.2 ⟨isWritable_of_parse h, htable, rfl⟩⟩
  have hcoherent : f.Coherent := .of_make (Table.names_ofNames _) hmake
  obtain ⟨_, _, hf⟩ := make_eq_ok.1 hmake
  refine ⟨f, ?_, by rw [hf]⟩
  rw [parse, h]
  show (do (← ofProgram source p true).bind []) = _
  rw [ofProgram, hmake]
  exact hcoherent.bind_nil

theorem Coherent.legible {n : Nat} (h : f.Coherent)
    (hparse : Reckon.parse limit f.source = ⟨.ok f.program, n⟩)
    (hfinite : ∀ name n, f.table.value? name = some n → n.isFinite) :
    Valuation.Legible f.table.value? where
  name hvalue := isName_of_parse hparse (h.names ▸ Table.mem_names_of_value? hvalue)
  writable hvalue := Table.isWritable_of_mem h.table (Table.mem_of_value? hvalue)
  finite hvalue := hfinite _ _ hvalue

/-- The text of a formula whose values are finite is parsed to the program of the formula with each
value in place of its name: the number that the numeral in the text of the value denotes, negated
where a minus sign stands before the numeral; for an integer this is its magnitude. As many closing
parentheses are ignored as in the source. If all variables are integers, the numeric value or the
error is that of the formula. -/
theorem parse_text (h : FromText limit f)
    (hfinite : ∀ name n, f.table.value? name = some n → n.isFinite)
    (hglued : ¬ Glued limit f.source.toList) :
    ∃ text f', f.text = .ok text ∧ (parse limit text []).result = .ok f' ∧
      f'.program = f.program.substitute f.table.value? ∧
      (parse limit text []).ignored = (parse limit f.source []).ignored ∧
      (∀ name n, f.table.value? name = some n → ∃ numeral : Numeral, numeral.Plain ∧
        numeral.value = .ok n.unsigned ∧
        n.substituteText? = some (String.ofList (Number.signedText n.isSigned numeral))) ∧
      (∀ name i, f.table.value? name = some (.int i) →
        (Number.int i).isSigned = decide (i < 0) ∧ (Number.int i).unsigned = .int i.natAbs) ∧
      ((∀ name ∈ f.program.names, ∃ i, f.table.value? name = some (.int i)) →
        f'.calculate = f.calculate) := by
  obtain ⟨hcoherent, n, hparse⟩ := h.invariant
  have hlegible := hcoherent.legible hparse hfinite
  have hnodup : f.table.names.Nodup := hcoherent.names ▸ Program.nodup_names _
  have hvalues := parse_replaceWords hlegible hglued hparse
  obtain ⟨f', hresult, hprogram⟩ := exists_parse hvalues
  have htext := text_eq_ok hcoherent.table
  rw [Table.apply_bound hnodup] at htext
  refine ⟨_, f', htext, hresult, hprogram, ?_, ?_, ?_, ?_⟩
  · rw [parse, parse, hvalues, hparse]
  · exact fun name m hm => Number.exists_numeral (hlegible.writable hm) (hlegible.finite hm)
  · exact fun name i hi => Number.isSigned_unsigned_int (hlegible.writable hi)
  · intro hints
    have hexact : Valuation.IsExact f.table.value? f.program := by
      intro name hname
      obtain ⟨i, hi⟩ := hints name hname
      exact ⟨i, hi, hlegible.writable hi⟩
    rw [calculate, calculate, hprogram, Program.calculate_substitute hexact]

set_option maxRecDepth 100000 in
/-- A blank keeps the name apart from the product, and the negative value is squared as a whole. -/
theorem parse_text_square :
    ∃ f, (parse 64 "2\\cdot x^2" [("x", .number (.int (-3)))]).result = .ok f ∧
      ¬ Glued 64 f.source.toList ∧
      ∃ text f', f.text = .ok text ∧ (parse 64 text []).result = .ok f' ∧
        f'.program = [.operand (.number (.int 2)), .operand (.number (.int 3)), .operator .negate,
          .operand (.number (.int 2)), .operator (.binary .power), .operator (.binary .multiply)] ∧
        f'.calculate = f.calculate := by
  have hmade : (parse 64 "2\\cdot x^2" [("x", .number (.int (-3)))]).result.toOption.map
      (fun f => (f.source, f.program, f.table)) =
        some ("2\\cdot x^2", [.operand (.number (.int 2)), .operand (.name "x"),
          .operand (.number (.int 2)), .operator (.binary .power), .operator (.binary .multiply)],
          [("x", some (.int (-3)))]) := by
    decide +kernel
  obtain ⟨f, hf, hparts⟩ := Option.map_eq_some_iff.1 hmade
  obtain ⟨hsource, hparts⟩ := Prod.mk.inj hparts
  obtain ⟨hprogram, htable⟩ := Prod.mk.inj hparts
  have hresult : (parse 64 "2\\cdot x^2" [("x", .number (.int (-3)))]).result = .ok f := by
    revert hf
    cases (parse 64 "2\\cdot x^2" [("x", .number (.int (-3)))]).result with
    | error e => exact nofun
    | ok f' => exact fun hf => congrArg Except.ok (Option.some.inj hf)
  have hvalue : ∀ name n, f.table.value? name = some n → name = "x" ∧ n = .int (-3) := by
    intro name n h
    have hmem := Table.mem_of_value? h
    rw [htable] at hmem
    simpa using hmem
  have hglued : ¬ Glued 64 f.source.toList := by
    have hfirst : Front.ofText 64 (Text.skipBlanks "2\\cdot x^2".toList) =
        .lexeme (.operand (.number (.int 2))) "2".toList "\\cdot x^2".toList := rfl
    have hproduct : Front.ofText 64 (Text.skipBlanks "\\cdot x^2".toList) =
        .lexeme (.operator .multiply) "\\cdot".toList " x^2".toList := rfl
    have hname : Front.ofText 64 (Text.skipBlanks " x^2".toList) =
        .lexeme (.operand (.name "x")) "x".toList "^2".toList := rfl
    have hpower : Front.ofText 64 (Text.skipBlanks "^2".toList) =
        .lexeme (.operator .power) "^".toList "2".toList := rfl
    have hlast : Front.ofText 64 (Text.skipBlanks "2".toList) =
        .lexeme (.operand (.number (.int 2))) "2".toList [] := rfl
    have hblank : Front.ofText 64 " x^2".toList = .foreign := rfl
    have hend : ¬ Glued 64 [] := Glued.not_of_blank rfl
    rw [hsource, Glued.token_iff hfirst, Glued.token_iff hproduct, Glued.token_iff hname,
      Glued.token_iff hpower, Glued.token_iff hlast, hblank]
    simp [hend]
  obtain ⟨text, f', htext, hparse, hsubstitute, _, _, _, hcalculate⟩ :=
    parse_text (.parse hresult) (fun name n h => by rw [(hvalue name n h).2]; rfl) hglued
  refine ⟨f, hresult, hglued, text, f', htext, hparse, ?_, hcalculate ?_⟩
  · rw [hsubstitute, hprogram, htable]
    decide +kernel
  · intro name hname
    have hx : name ∈ ["x"] := by
      rw [hprogram] at hname
      exact hname
    rw [htable, List.mem_singleton.1 hx]
    exact ⟨-3, rfl⟩

end Formula

end Reckon
