import Reckon.Proofs.Formula.Assignment
import Reckon.Proofs.Session.Lineage

/-!
Binding a formula in a session: all or nothing, and the same as one assignment after another.

A binding that is refused leaves the session as it was, whichever assignment is at fault, and each
assignment at fault would be refused alone. A binding that is carried out leaves what the assignments
leave one after another, in any order.

    x = 1, z = 4      z unknown     ──▶   the session as it was
    x = 1, y = 2                    ──▶   as after  x = 1  and  y = 2,  or  y = 2  and  x = 1
-/

namespace Reckon

/-- An assignment is refused for an unknown name, for a value that is not real, for a fraction too
large, or for an integer with too many digits; for nothing else. -/
theorem Formula.refusal?_isSome {names : List String} {name : String} {offer : Offer} :
    (∃ e, refusal? names (name, offer) = some e) ↔
      name ∉ names ∨ (∃ kind, offer = .foreign kind) ∨
      (∃ num den, offer = .fraction num den ∧ Binary64.ofQuotient? num den = none) ∨
      ∃ i, offer = .number (.int i) ∧
        Number.digitLimit < (Nat.toDigits 10 i.natAbs).length := by
  rw [← Option.ne_none_iff_exists', Ne, refusal?_eq_none, fault?, Offer.accepted]
  by_cases hname : name ∈ names
  · rw [if_pos (List.contains_iff_mem.2 hname)]
    cases offer with
    | nothing => simp [Offer.accept, hname]
    | foreign kind => simp [Offer.accept]
    | number n =>
      cases n with
      | int i => simp [Offer.accept, hname, Number.isWritable_int]
      | float x => simp [Offer.accept, hname, Number.isWritable]
    | fraction num den =>
      by_cases hzero : num = 0
      · subst hzero
        simp [Offer.accept, hname, Number.isWritable, Binary64.ofQuotient?, Binary64.nearest?]
      · cases hquotient : Binary64.ofQuotient? num den <;>
          simp [Offer.accept, hname, hzero, hquotient, Number.isWritable]
  · simp [hname]

namespace Session

variable {s : Session} {slot : Nat} {f f' : Formula}

theorem step_bind (h : s.get? slot = some f) (assignments : List (String × Offer)) :
    s.step slot (.ask (.bind assignments)) =
      match f.bind assignments with
      | .ok f' => (s.put slot f', ⟨some (.ok .done), [], (s.put slot f').get? slot⟩)
      | .error e => (s, ⟨some (.error e), [], some f⟩) := by
  rw [step, attempt, h]
  show (let o := s.change slot f (Formula.setAll assignments)
    (o.session, (⟨some o.result, o.warnings, o.session.get? slot⟩ : Answer))) = _
  rw [change_setAll h]
  cases f.bind assignments with
  | ok f' => rfl
  | error e =>
    rw [← h]

theorem step_assign (name : String) (offer : Offer) :
    s.step slot (.ask (.assign name offer)) = s.step slot (.ask (.bind [(name, offer)])) :=
  rfl

theorem result_bind (h : s.get? slot = some f) (assignments : List (String × Offer)) (e : Error) :
    (s.step slot (.ask (.bind assignments))).2.result = some (.error e) ↔
      f.bind assignments = .error e := by
  rw [step_bind h]
  cases f.bind assignments with
  | ok f' => exact iff_of_false nofun nofun
  | error e' => simp

theorem run_cons (s : Session) (slot : Nat) (step : Step) (steps : List (Nat × Step)) :
    s.run ((slot, step) :: steps) =
      (((s.step slot step).1.run steps).1,
        (s.step slot step).2 :: ((s.step slot step).1.run steps).2) :=
  rfl

/-- Assignments that succeed one after another on a formula do so in its slot, and leave the others. -/
theorem run_assigns {order : List (String × Offer)} (h : s.get? slot = some f)
    (hassign : order.foldlM (fun f entry => f.assign entry.1 entry.2) f = .ok f') :
    (∀ answer ∈ (s.run (order.map fun entry => (slot, .ask (.assign entry.1 entry.2)))).2,
      answer.result = some (.ok .done)) ∧
    ∀ k, (s.run (order.map fun entry => (slot, .ask (.assign entry.1 entry.2)))).1.get? k =
      if k = slot then some f' else s.get? k := by
  induction order generalizing s f with
  | nil =>
    obtain rfl := Except.ok.inj hassign
    rw [List.map_nil, run]
    refine ⟨List.forall_mem_nil _, fun k => ?_⟩
    split
    · next hk => rw [hk, h]
    · rfl
  | cons entry order ih =>
    rw [List.foldlM_cons] at hassign
    cases hfirst : f.assign entry.1 entry.2 with
    | error e =>
      rw [hfirst] at hassign
      cases hassign
    | ok f₁ =>
      rw [hfirst] at hassign
      have hbind : f.bind [(entry.1, entry.2)] = .ok f₁ := hfirst
      have hstep := step_bind h [(entry.1, entry.2)]
      rw [← step_assign, hbind] at hstep
      have hput : (s.put slot f₁).get? slot = some f₁ := by rw [get?_put, if_pos rfl]
      obtain ⟨hanswers, hslots⟩ := ih hput hassign
      rw [List.map_cons, run_cons, hstep]
      dsimp only
      rw [List.forall_mem_cons]
      refine ⟨⟨rfl, hanswers⟩, fun k => ?_⟩
      rw [hslots, get?_put]
      split <;> rfl

/-- Binding several variables of a formula, after any steps. The assignments of a mapping and of
keywords are merged: each name at its first place, a keyword before the mapping, the last value where
one repeats. In a call the keywords `self` and `mapping` stand for the formula and the mapping, so
variables of these names are never among the keywords. The binding fails exactly where one of the
merged assignments would fail alone, and for the reason of one that would: the name is unknown, the
value is not real, a fraction is too large or an integer has too many digits. If it fails, the session
is what it was. If it does not, the assignments can be made one after another, in any order, and all
formulas are the same afterwards. -/
theorem bind_assigns {steps : List (Nat × Step)} (h : (after steps).get? slot = some f)
    (mapping keywords : List (String × Offer)) :
    let s := after steps
    let entries := Assignments.merge (mapping ++ keywords)
    let bound := s.step slot (.ask (.bind (mapping ++ keywords)))
    let alone := fun entry : String × Offer => s.step slot (.ask (.assign entry.1 entry.2))
    (entries.map Prod.fst = ((mapping ++ keywords).map Prod.fst).eraseDups ∧
      ∀ name, entries.lookup name =
        (keywords.reverse.lookup name).or (mapping.reverse.lookup name)) ∧
    ((∃ e, bound.2.result = some (.error e)) ↔
      ∃ entry ∈ entries, ∃ e, (alone entry).2.result = some (.error e)) ∧
    (∀ name offer, (∃ e, (alone (name, offer)).2.result = some (.error e)) ↔
      name ∉ f.program.names ∨ (∃ kind, offer = .foreign kind) ∨
      (∃ num den, offer = .fraction num den ∧ Binary64.ofQuotient? num den = none) ∨
      ∃ i, offer = .number (.int i) ∧ 4300 < (Nat.toDigits 10 i.natAbs).length) ∧
    (∀ e, bound.2.result = some (.error e) →
      bound.1 = s ∧ ∃ entry ∈ entries, (alone entry).2.result = some (.error e)) ∧
    ((∀ e, bound.2.result ≠ some (.error e)) → bound.2.result = some (.ok .done) ∧
      ∀ order : List (String × Offer), order.Perm entries →
        let assigned := s.run (order.map fun entry => (slot, .ask (.assign entry.1 entry.2)))
        (∀ answer ∈ assigned.2, answer.result = some (.ok .done)) ∧
          ∀ k, assigned.1.get? k = bound.1.get? k) := by
  intro s entries bound alone
  have hf := coherent_after steps slot f h
  have hbound : ∀ e, bound.2.result = some (.error e) ↔ f.bind (mapping ++ keywords) = .error e :=
    result_bind h _
  have halone : ∀ entry e, (alone entry).2.result = some (.error e) ↔
      Formula.refusal? f.table.names entry = some e := by
    intro entry e
    rw [← hf.assign_eq_error]
    exact result_bind h [(entry.1, entry.2)] e
  -- the error of a binding is the refusal of one entry, and so is the error of an assignment alone
  have hone : ∀ e, bound.2.result = some (.error e) →
      ∃ entry ∈ entries, (alone entry).2.result = some (.error e) := by
    intro e he
    obtain ⟨entry, hentry, hrefusal⟩ := hf.bind_eq_error ((hbound e).1 he)
    exact ⟨entry, hentry, (halone entry e).2 hrefusal⟩
  refine ⟨⟨Assignments.fst_merge _, fun name => ?_⟩, ⟨?_, ?_⟩, fun name offer => ?_,
    fun e he => ⟨?_, hone e he⟩, fun hnone => ?_⟩
  · rw [Assignments.lookup_merge, List.reverse_append, List.lookup_append]
  · rintro ⟨e, he⟩
    obtain ⟨entry, hentry, hsame⟩ := hone e he
    exact ⟨entry, hentry, e, hsame⟩
  · rintro ⟨entry, hentry, e, he⟩
    cases hbind : f.bind (mapping ++ keywords) with
    | error e' => exact ⟨e', (hbound e').2 hbind⟩
    | ok f' =>
      have hrefusal := (hf.bind_eq_ok.1 hbind).1 entry hentry
      rw [(halone entry e).1 he] at hrefusal
      cases hrefusal
  · rw [← hf.names]
    exact (exists_congr fun e => halone (name, offer) e).trans Formula.refusal?_isSome
  · have hstep : bound = _ := step_bind h (mapping ++ keywords)
    rw [hstep, (hbound e).1 he]
  · have hstep : bound = _ := step_bind h (mapping ++ keywords)
    cases hbind : f.bind (mapping ++ keywords) with
    | error e => exact absurd ((hbound e).2 hbind) (hnone e)
    | ok f' =>
      rw [hbind] at hstep
      refine ⟨by rw [hstep], fun order hperm => ?_⟩
      obtain ⟨hanswers, hslots⟩ := run_assigns h (hf.foldlM_assign_perm hperm hbind)
      refine ⟨hanswers, fun k => ?_⟩
      rw [hslots, hstep, get?_put]

set_option maxRecDepth 100000 in
/-- A keyword overrides a text in the mapping, which would be refused; and an unknown name behind a good
assignment. -/
theorem bind_assigns_overridden :
    let s := after [(0, .create "x * y" [("x", .number (.int 7))] (some 64))]
    let mapping : List (String × Offer) := [("y", .number (.int 1)), ("x", .foreign .text)]
    let keywords : List (String × Offer) := [("x", .number (.int 2))]
    let bound := s.step 0 (.ask (.bind (mapping ++ keywords)))
    let assigned := s.run
      [(0, .ask (.assign "x" (.number (.int 2)))), (0, .ask (.assign "y" (.number (.int 1))))]
    let refused := s.step 0 (.ask (.bind ([("x", .number (.int 1))] ++ [("w", .nothing)])))
    ∃ f, s.get? 0 = some f ∧ f.table = [("x", some (.int 7)), ("y", none)] ∧
      bound.2.result = some (.ok .done) ∧ assigned.1.get? 0 = bound.1.get? 0 ∧
      (assigned.1.get? 0).map (·.table) = some [("x", some (.int 2)), ("y", some (.int 1))] ∧
      (∃ e, refused.2.result = some (.error e)) ∧ refused.1 = s := by
  intro s mapping keywords bound assigned refused
  have hparts : (s.get? 0).map (fun f => (f.program.names, f.table)) =
      some (["x", "y"], [("x", some (.int 7)), ("y", none)]) := by
    decide +kernel
  have hdone : bound.2.result.map (fun r => r.toOption.isSome) = some true := by decide +kernel
  have hassigned : (assigned.1.get? 0).map (·.table) =
      some [("x", some (.int 2)), ("y", some (.int 1))] := by
    decide +kernel
  obtain ⟨f, hf, hf'⟩ := Option.map_eq_some_iff.1 hparts
  obtain ⟨hnames, htable⟩ := Prod.mk.inj hf'
  have hok : ∀ e, bound.2.result ≠ some (.error e) := by
    intro e he
    rw [he] at hdone
    cases hdone
  obtain ⟨_, _, _, _, hbound⟩ := bind_assigns hf mapping keywords
  obtain ⟨hresult, horder⟩ := hbound hok
  have hmerge : Assignments.merge (mapping ++ keywords) =
      [("y", .number (.int 1)), ("x", .number (.int 2))] := by
    simp [mapping, keywords, Assignments.merge, Assignments.insert]
  obtain ⟨_, hslots⟩ := horder [("x", .number (.int 2)), ("y", .number (.int 1))]
    (hmerge ▸ .swap ..)
  obtain ⟨_, hrefused, halone, hfailed, _⟩ :=
    bind_assigns hf [("x", .number (.int 1))] [("w", .nothing)]
  have hmem : ("w", .nothing) ∈
      Assignments.merge ([("x", .number (.int 1))] ++ [("w", Offer.nothing)]) := by
    simp [Assignments.merge, Assignments.insert]
  have hunknown : "w" ∉ f.program.names := by
    rw [hnames]
    decide
  obtain ⟨e, he⟩ := hrefused.2 ⟨_, hmem, (halone "w" .nothing).2 (.inl hunknown)⟩
  exact ⟨f, hf, htable, hresult, hslots 0, hassigned, ⟨e, he⟩, (hfailed e he).1⟩

end Session

end Reckon
