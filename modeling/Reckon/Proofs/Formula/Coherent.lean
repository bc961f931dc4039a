import Mathlib.Data.List.Nodup
import Reckon.Formula.Basic
import Reckon.Proofs.Number.Written

/-!
What holds of every formula, however it was made and bound.

The table has exactly the names of the program, in their order; program and table can be written; and
the fingerprint is the digest of the two. Only one place makes formulas, and it refuses what it
cannot write, so everything that goes through it is coherent.

    source ──parse──▶ formula ──bind──▶ formula ──bind──▶ formula
                      coherent          coherent          coherent
-/

namespace Reckon

/-! ### Names -/

theorem nodup_eraseDups (l : List String) : l.eraseDups.Nodup := by
  cases l with
  | nil => exact List.nodup_nil
  | cons a l =>
    rw [List.eraseDups_cons, List.nodup_cons]
    refine ⟨?_, nodup_eraseDups _⟩
    rw [List.mem_eraseDups]
    simp
termination_by l.length
decreasing_by exact Nat.lt_succ_of_le (List.length_filter_le _ _)

theorem Program.nodup_names (p : Program) : p.names.Nodup := nodup_eraseDups _

namespace Table

/-- A table whose names are all different is known by its values. -/
theorem ext_value? {t t' : Table} (hnodup : t.names.Nodup) (hnames : t.names = t'.names)
    (hvalue : ∀ name ∈ t.names, t.value? name = t'.value? name) : t = t' := by
  induction t generalizing t' with
  | nil =>
    cases t' with
    | nil => rfl
    | cons _ _ => cases hnames
  | cons entry t ih =>
    cases t' with
    | nil => cases hnames
    | cons entry' t' =>
      obtain ⟨name, value⟩ := entry
      obtain ⟨name', value'⟩ := entry'
      obtain ⟨hname, hrest⟩ := List.cons.inj hnames
      obtain rfl : name = name' := hname
      obtain ⟨hnot, hnodup⟩ := List.nodup_cons.1 hnodup
      have hhead := hvalue name (List.mem_cons_self ..)
      obtain rfl : value = value' := by simpa [value?] using hhead
      rw [ih hnodup hrest fun other hother => ?_]
      have hne : (other == name) = false := beq_eq_false_iff_ne.2 fun h => hnot (h ▸ hother)
      simpa [value?, List.lookup_cons, hne] using hvalue other (List.mem_cons_of_mem _ hother)

theorem isWritable_of_mem {t : Table} {name : String} {n : Number} (h : t.isWritable)
    (hmem : (name, some n) ∈ t) : n.isWritable := by
  rw [isWritable, List.all_eq_true] at h
  simpa only [Option.all_some] using h _ hmem

theorem length_toDigits_le {t : Table} {name : String} {n : Int} (h : t.isWritable)
    (hmem : (name, some (.int n)) ∈ t) : (Nat.toDigits 10 n.natAbs).length ≤ Number.digitLimit :=
  Number.isWritable_int.1 (isWritable_of_mem h hmem)

end Table

namespace Formula

variable {f f' : Formula} {source : String} {p : Program} {parsed : Bool} {t : Table}

/-! ### Making and binding -/

/-- The table names what the program names, both can be written, and the fingerprint is theirs. -/
structure Coherent (f : Formula) : Prop where
  names : f.table.names = f.program.names
  program : f.program.isWritable
  table : f.table.isWritable
  fingerprint : f.fingerprint = Digest.fingerprint (fingerprintSource f.program f.table)

theorem fingerprintOf_eq_ok {fingerprint : String} : fingerprintOf p t = .ok fingerprint ↔
    p.isWritable ∧ t.isWritable ∧ fingerprint = Digest.fingerprint (fingerprintSource p t) := by
  rw [fingerprintOf]
  by_cases h : p.isWritable && t.isWritable
  · rw [if_pos h, Except.ok.injEq, ← and_assoc, ← Bool.and_eq_true]
    exact ⟨fun heq => ⟨h, heq.symm⟩, fun ⟨_, heq⟩ => heq.symm⟩
  · rw [if_neg h, ← and_assoc, ← Bool.and_eq_true]
    exact ⟨nofun, fun ⟨hboth, _⟩ => absurd hboth h⟩

theorem make_eq_ok : make source p parsed t = .ok f ↔ p.isWritable ∧ t.isWritable ∧
    f = ⟨source, p, parsed, t, Digest.fingerprint (fingerprintSource p t)⟩ := by
  constructor
  · intro h
    cases hfingerprint : fingerprintOf p t with
    | error e =>
      rw [make, hfingerprint] at h
      cases h
    | ok fingerprint =>
      rw [make, hfingerprint] at h
      obtain ⟨hp, ht, rfl⟩ := fingerprintOf_eq_ok.1 hfingerprint
      exact ⟨hp, ht, (Except.ok.inj h).symm⟩
  · rintro ⟨hp, ht, rfl⟩
    rw [make, fingerprintOf_eq_ok.2 ⟨hp, ht, rfl⟩]
    rfl

theorem Coherent.of_make (hnames : t.names = p.names) (h : make source p parsed t = .ok f) :
    f.Coherent := by
  obtain ⟨hp, ht, rfl⟩ := make_eq_ok.1 h
  exact ⟨hnames, hp, ht, rfl⟩

theorem names_assignEntry {t' : Table} {assignment : String × Offer}
    (h : assignEntry t assignment = .ok t') : t'.names = t.names := by
  rw [assignEntry] at h
  split at h
  · split at h
    · obtain rfl := Except.ok.inj h
      exact Table.names_set ..
    · cases h
  · cases h

theorem names_assignAll {t' : Table} {assignments : List (String × Offer)}
    (h : assignAll t assignments = .ok t') : t'.names = t.names := by
  rw [assignAll] at h
  generalize Assignments.merge assignments = entries at h
  induction entries generalizing t with
  | nil =>
    obtain rfl := Except.ok.inj h
    rfl
  | cons entry entries ih =>
    rw [List.foldlM_cons] at h
    cases hassign : assignEntry t entry with
    | error e =>
      rw [hassign] at h
      cases h
    | ok t₁ =>
      rw [hassign] at h
      rw [ih h, names_assignEntry hassign]

/-- To set variables takes a table and its fingerprint over, or leaves the formula as it was. -/
theorem change_setAll (f : Formula) (assignments : List (String × Offer)) :
    f.change (setAll assignments) =
      match (do f.withTable (← assignAll f.table assignments)) with
      | .ok f' => (.ok (), f')
      | .error e => (.error e, f) := by
  rw [setAll, change_bind, change_get]
  dsimp only
  rw [change_bind, change_lift]
  cases assignAll f.table assignments with
  | error e => rfl
  | ok table =>
    -- the formula is first touched behind the last thing that can fail, its fingerprint
    dsimp only
    rw [change_bind, change_lift]
    change _ = match f.withTable table with
      | Except.ok f' => (Except.ok (), f')
      | Except.error e => (Except.error e, f)
    rw [withTable, make]
    cases fingerprintOf f.program table with
    | error e => rfl
    | ok fingerprint =>
      dsimp only
      rw [change_bind, change_modify]
      rfl

theorem bind_eq (f : Formula) (assignments : List (String × Offer)) :
    f.bind assignments = (do f.withTable (← assignAll f.table assignments)) := by
  rw [Formula.bind, change_setAll]
  cases ((do f.withTable (← assignAll f.table assignments)) : Except Error Formula) <;> rfl

/-- A formula whose variables cannot be set is what it was. -/
theorem change_of_error {assignments : List (String × Offer)} {e : Error}
    (h : f.bind assignments = .error e) : f.change (setAll assignments) = (.error e, f) := by
  rw [change_setAll, ← bind_eq, h]

theorem change_of_ok {assignments : List (String × Offer)} (h : f.bind assignments = .ok f') :
    f.change (setAll assignments) = (.ok (), f') := by
  rw [change_setAll, ← bind_eq, h]

/-- A formula that was bound is made again from another table with the same names. -/
theorem bind_eq_ok {assignments : List (String × Offer)} (h : f.bind assignments = .ok f') :
    ∃ t, t.names = f.table.names ∧ f.withTable t = .ok f' := by
  rw [bind_eq] at h
  cases htable : assignAll f.table assignments with
  | error e =>
    rw [htable] at h
    cases h
  | ok t =>
    rw [htable] at h
    exact ⟨t, names_assignAll htable, h⟩

theorem Coherent.bind {assignments : List (String × Offer)} (hf : f.Coherent)
    (h : f.bind assignments = .ok f') : f'.Coherent := by
  obtain ⟨t, hnames, hmake⟩ := bind_eq_ok h
  exact .of_make (hnames.trans hf.names) hmake

/-- Binding leaves the text and the program. -/
theorem bind_fixed {assignments : List (String × Offer)} (h : f.bind assignments = .ok f') :
    f'.source = f.source ∧ f'.program = f.program ∧ f'.parsed = f.parsed := by
  obtain ⟨t, _, hmake⟩ := bind_eq_ok h
  obtain ⟨_, _, rfl⟩ := make_eq_ok.1 hmake
  exact ⟨rfl, rfl, rfl⟩

/-- A formula of a program that is bound at once. -/
theorem ofProgram_bind {assignments : List (String × Offer)}
    (h : (do (← ofProgram source p parsed).bind assignments) = .ok f) :
    f.Coherent ∧ f.source = source ∧ f.program = p ∧ f.parsed = parsed := by
  cases hmake : ofProgram source p parsed with
  | error e =>
    rw [hmake] at h
    cases h
  | ok f₀ =>
    rw [hmake] at h
    have hbind : f₀.bind assignments = .ok f := h
    have hcoherent : f₀.Coherent := .of_make (Table.names_ofNames _) hmake
    obtain ⟨hsource, hprogram, hparsed⟩ := bind_fixed hbind
    obtain ⟨_, _, rfl⟩ := make_eq_ok.1 hmake
    exact ⟨hcoherent.bind hbind, hsource, hprogram, hparsed⟩

/-- A formula from a text that is parsed has the program of the text. -/
theorem parse_eq_ok {limit : Int} {assignments : List (String × Offer)}
    (h : (parse limit source assignments).result = .ok f) :
    f.Coherent ∧ f.source = source ∧ (Reckon.parse limit source).result = .ok f.program ∧
      f.parsed = true := by
  rw [parse] at h
  cases hparse : (Reckon.parse limit source).result with
  | error e =>
    rw [hparse] at h
    cases h
  | ok p =>
    rw [hparse] at h
    obtain ⟨hcoherent, hsource, rfl, hparsed⟩ := ofProgram_bind h
    exact ⟨hcoherent, hsource, rfl, hparsed⟩

theorem display_eq_ok {assignments : List (String × Offer)}
    (h : (display source assignments).result = .ok f) :
    f.Coherent ∧ f.source = source ∧ f.program = [] ∧ f.parsed = false :=
  ofProgram_bind h

/-! ### What coherence is good for -/

namespace Coherent

theorem withTable (h : f.Coherent) : f.withTable f.table = .ok f := by
  refine make_eq_ok.2 ⟨h.program, h.table, ?_⟩
  rw [← h.fingerprint]

theorem bind_nil (h : f.Coherent) : f.bind [] = .ok f := by
  rw [bind_eq]
  exact h.withTable

/-- The fingerprint depends on nothing but the program and the values. -/
theorem fingerprint_congr (h : f.Coherent) (h' : f'.Coherent) (hprogram : f.program = f'.program)
    (hvalue : ∀ name ∈ f.program.names, f.table.value? name = f'.table.value? name) :
    f.fingerprint = f'.fingerprint := by
  have hnames : f.table.names = f'.table.names := by rw [h.names, h'.names, hprogram]
  have htable : f.table = f'.table := by
    refine Table.ext_value? ?_ hnames ?_
    · rw [h.names]
      exact Program.nodup_names _
    · rw [h.names]
      exact hvalue
  rw [h.fingerprint, h'.fingerprint, hprogram, htable]

end Coherent

theorem valueText_eq_ok {n : Number} (h : n.isWritable) :
    valueText n = .ok (n.substituteText?.getD "") := by
  cases n with
  | int i =>
    rw [valueText, Number.substituteText?, Number.text?, if_pos h]
    rfl
  | float x => rfl

/-- The text with the values put in can be written where the values can. -/
theorem text_eq_ok (h : f.table.isWritable) :
    f.text = .ok (Substitution.apply
      (f.table.bound.map fun (name, n) => (name, n.substituteText?.getD "")) f.source) := by
  have hbound : ∀ entry ∈ f.table.bound, entry.2.isWritable := by
    intro entry hentry
    obtain ⟨⟨name, value⟩, hmem, heq⟩ := List.mem_filterMap.1 hentry
    obtain ⟨n, rfl, rfl⟩ := Option.map_eq_some_iff.1 heq
    exact Table.isWritable_of_mem h hmem
  have hvalues : (f.table.bound.mapM fun (name, n) => return (name, ← valueText n)) =
      (Except.ok (f.table.bound.map fun (name, n) => (name, n.substituteText?.getD "")) :
        Except Error _) := by
    generalize f.table.bound = entries at hbound
    induction entries with
    | nil => rfl
    | cons entry entries ih =>
      obtain ⟨name, n⟩ := entry
      obtain ⟨hn, hrest⟩ := List.forall_mem_cons.1 hbound
      rw [List.mapM_cons, ih hrest]
      simp only [valueText_eq_ok hn]
      rfl
  rw [text, hvalues]
  rfl

theorem exists_of_parts {ε α β : Type} {result : Except ε α} {parts : α → β} {b : β}
    (h : result.toOption.map parts = some b) : ∃ a, result = .ok a ∧ parts a = b := by
  cases result with
  | error e => cases h
  | ok a => exact ⟨a, rfl, Option.some.inj h⟩

end Formula

end Reckon
