import Reckon.Proofs.Entries
import Reckon.Proofs.Formula.Coherent
import Reckon.Session

/-!
What a step of a session can do.

There are few ways for a session to change. A slot is emptied, or filled with a new formula; the
formula in a slot is bound; a formula is put into another slot, as it is or parsed from its text. All
else leaves the session as it was, and each of these ways touches one slot.

    create      slot    ──▶  empty, or a new formula
    assign      slot    ──▶  the formula, bound
    copy        target  ──▶  the formula of the slot
    reparse     target  ──▶  a new formula of the slot's text
-/

namespace Reckon

/-- The program of a text: what it parses to within a limit, or the empty one where there is none. -/
def programOf (limit : Option Int) (source : String) : Except ParseError Program :=
  match limit with
  | some limit => (parse limit source).result
  | none => .ok []

namespace Session

variable {s s' : Session} {slot other : Nat} {f g : Formula} {step : Step}

/-! ### Slots -/

theorem get?_clear : (s.clear slot).get? other = if other = slot then none else s.get? other :=
  Entries.lookup_without s slot other

theorem get?_cons :
    get? ((slot, f) :: s) other = if other = slot then some f else s.get? other := by
  rw [get?, get?, List.lookup_cons]
  by_cases heq : other = slot
  · rw [if_pos heq, heq, beq_self_eq_true]
  · rw [if_neg heq, beq_eq_false_iff_ne.2 heq]

theorem get?_put :
    (s.put slot f).get? other = if other = slot then some f else s.get? other := by
  induction s with
  | nil => exact get?_cons
  | cons entry s ih =>
    obtain ⟨k, g⟩ := entry
    rw [put]
    by_cases hk : k = slot
    · subst hk
      rw [if_pos rfl, get?_cons, get?_cons]
      by_cases hother : other = k <;> simp [hother]
    · rw [if_neg hk, get?_cons, get?_cons, ih]
      by_cases hother : other = k
      · simp [hother, hk]
      · simp [hother]

/-- To put a formula where it is changes nothing. -/
theorem put_self (h : s.get? slot = some f) : s.put slot f = s := by
  induction s with
  | nil => cases h
  | cons entry s ih =>
    obtain ⟨k, g⟩ := entry
    rw [get?_cons] at h
    rw [put]
    by_cases hk : k = slot
    · rw [if_pos hk.symm] at h
      rw [if_pos hk, hk, Option.some.inj h]
    · rw [if_neg fun heq => hk heq.symm] at h
      rw [if_neg hk, ih h]

theorem get?_clear_eq_some :
    (s.clear slot).get? other = some g ↔ other ≠ slot ∧ s.get? other = some g := by
  rw [get?_clear]
  by_cases heq : other = slot <;> simp [heq]

theorem get?_put_eq_some : (s.put slot f).get? other = some g ↔
    other = slot ∧ f = g ∨ other ≠ slot ∧ s.get? other = some g := by
  rw [get?_put]
  by_cases heq : other = slot <;> simp [heq]

/-! ### Moves -/

/-- The slot that a step puts a new formula into, or empties to do so. -/
def renewed (s : Session) (slot : Nat) : Step → Option Nat
  | .create .. => some slot
  | .ask (.copy target) => do
    let _ ← s.get? slot
    return target
  | .ask (.reparse target) => do
    let text ← (← s.get? slot).text.toOption
    let _ ← (Formula.parse defaultLimit text []).result.toOption
    return target
  | .ask _ => none

/-- The ways in which a step on a slot can change the session. -/
inductive Move (s : Session) (slot : Nat) : Step → Session → Prop
  | stay {request : Request} : s.renewed slot (.ask request) = none → Move s slot (.ask request) s
  | drop {source : String} {assignments : List (String × Offer)} {limit : Option Int} :
      Move s slot (.create source assignments limit) (s.clear slot)
  | create {source : String} {assignments : List (String × Offer)} {limit : Option Int}
      {f : Formula} : f.Coherent → f.source = source → programOf limit source = .ok f.program →
      Move s slot (.create source assignments limit) ((s.clear slot).put slot f)
  | bind {request : Request} {f f' : Formula} {assignments : List (String × Offer)} :
      s.renewed slot (.ask request) = none → s.get? slot = some f →
      f.bind assignments = .ok f' → Move s slot (.ask request) (s.put slot f')
  | copy {target : Nat} {f : Formula} :
      s.get? slot = some f → Move s slot (.ask (.copy target)) (s.put target f)
  | reparse {target : Nat} {f f' : Formula} {text : String} :
      s.get? slot = some f → f.text = .ok text → f'.Coherent → f'.source = text →
      programOf (some defaultLimit) text = .ok f'.program →
      s.renewed slot (.ask (.reparse target)) = some target →
      Move s slot (.ask (.reparse target)) (s.put target f')

theorem make_cases (s : Session) (slot : Nat) (source : String) (c : Formula.Creation) :
    (∃ f, c.result = .ok f ∧ (s.make slot source c).session = s.put slot f) ∨
      (s.make slot source c).session = s := by
  rw [make]
  cases hresult : c.result with
  | ok f => exact .inl ⟨f, rfl, rfl⟩
  | error e => exact .inr rfl

/-- To make a formula in a slot empties it, and fills it if the formula can be made. -/
theorem move_create (s : Session) (slot : Nat) (source : String)
    (assignments : List (String × Offer)) (limit : Option Int) :
    Move s slot (.create source assignments limit)
      (s.step slot (.create source assignments limit)).1 := by
  cases limit with
  | some limit =>
    show Move s slot _
      ((s.clear slot).make slot source (Formula.parse limit source assignments)).session
    rcases make_cases (s.clear slot) slot source (Formula.parse limit source assignments) with
      ⟨f, hf, hsession⟩ | hsession
    · obtain ⟨hcoherent, hsource, hprogram, _⟩ := Formula.parse_eq_ok hf
      rw [hsession]
      exact .create hcoherent hsource hprogram
    · rw [hsession]
      exact .drop
  | none =>
    show Move s slot _
      ((s.clear slot).make slot source (Formula.display source assignments)).session
    rcases make_cases (s.clear slot) slot source (Formula.display source assignments) with
      ⟨f, hf, hsession⟩ | hsession
    · obtain ⟨hcoherent, hsource, hprogram, _⟩ := Formula.display_eq_ok hf
      rw [hsession]
      exact .create hcoherent hsource (by rw [programOf, hprogram])
    · rw [hsession]
      exact .drop

/-- The formula in a slot is bound, or the session is what it was. -/
theorem change_setAll (h : s.get? slot = some f) (assignments : List (String × Offer)) :
    s.change slot f (Formula.setAll assignments) =
      match f.bind assignments with
      | .ok f' => { session := s.put slot f', result := .ok .done }
      | .error e => { session := s, result := .error e } := by
  rw [change]
  cases hbind : f.bind assignments with
  | ok f' =>
    rw [Formula.change_of_ok hbind]
    rfl
  | error e =>
    -- the formula that is put back is the one that was there
    rw [Formula.change_of_error hbind]
    dsimp only
    rw [put_self h]
    rfl

theorem move_bind {request : Request} {assignments : List (String × Offer)}
    (hrenewed : s.renewed slot (.ask request) = none) (h : s.get? slot = some f) :
    Move s slot (.ask request) (s.change slot f (Formula.setAll assignments)).session := by
  rw [change_setAll h]
  cases hbind : f.bind assignments with
  | ok f' => exact .bind hrenewed h hbind
  | error e => exact .stay hrenewed

/-- To parse the text of a formula into another slot leaves the session where that fails. -/
theorem move_reparse (target : Nat) (h : s.get? slot = some f) :
    Move s slot (.ask (.reparse target)) (s.ask slot f (.reparse target)).session := by
  have hrenewed : s.renewed slot (.ask (.reparse target)) = f.text.toOption.bind fun text =>
      (Formula.parse defaultLimit text []).result.toOption.bind fun _ => some target := by
    rw [renewed, h]
    rfl
  rw [ask]
  cases htext : f.text with
  | error e =>
    rw [htext] at hrenewed
    exact .stay hrenewed
  | ok text =>
    rw [htext, Except.toOption, Option.bind_some] at hrenewed
    show Move s slot _ (s.make target text (Formula.parse defaultLimit text [])).session
    rw [make]
    cases hparse : (Formula.parse defaultLimit text []).result with
    | error e =>
      rw [hparse] at hrenewed
      exact .stay hrenewed
    | ok f' =>
      rw [hparse] at hrenewed
      obtain ⟨hcoherent, hsource, hprogram, _⟩ := Formula.parse_eq_ok hparse
      exact .reparse h htext hcoherent hsource hprogram hrenewed

/-- A request leaves the session, or binds the formula, or puts one into another slot. -/
theorem move_ask (request : Request) (h : s.get? slot = some f) :
    Move s slot (.ask request) (s.ask slot f request).session := by
  cases request with
  | assign name offer => exact move_bind rfl h
  | bind assignments => exact move_bind rfl h
  | copy target => exact .copy h
  | reparse target => exact move_reparse target h
  | _ => exact .stay rfl

/-- Every step is one of the moves. -/
theorem move_step (s : Session) (slot : Nat) (step : Step) :
    Move s slot step (s.step slot step).1 := by
  cases step with
  | create source assignments limit => exact move_create s slot source assignments limit
  | ask request =>
    cases h : s.get? slot with
    | none =>
      have hstay : (s.step slot (.ask request)).1 = s := by
        rw [Session.step, attempt, h]
        rfl
      rw [hstay]
      refine .stay ?_
      cases request with
      | copy target => rw [renewed, h]; rfl
      | reparse target => rw [renewed, h]; rfl
      | _ => rfl
    | some f =>
      have hask : (s.step slot (.ask request)).1 = (s.ask slot f request).session := by
        rw [Session.step, attempt, h]
        rfl
      rw [hask]
      exact move_ask request h

/-! ### What moves keep -/

/-- Every formula of the session is coherent. -/
def Coherent (s : Session) : Prop := ∀ slot f, s.get? slot = some f → f.Coherent

theorem Coherent.clear (hs : s.Coherent) : (s.clear slot).Coherent := by
  intro k g hg
  exact hs k g (get?_clear_eq_some.1 hg).2

theorem Coherent.put (hs : s.Coherent) (hf : f.Coherent) : (s.put slot f).Coherent := by
  intro k g hg
  rcases get?_put_eq_some.1 hg with ⟨_, rfl⟩ | ⟨_, hg⟩
  · exact hf
  · exact hs k g hg

/-- No move makes a formula that is not coherent. -/
theorem Move.coherent (h : Move s slot step s') (hs : s.Coherent) : s'.Coherent := by
  cases h with
  | stay _ => exact hs
  | drop => exact hs.clear
  | create hf _ _ => exact hs.clear.put hf
  | bind _ hget hbind => exact hs.put ((hs slot _ hget).bind hbind)
  | copy hget => exact hs.put (hs slot _ hget)
  | reparse _ _ hf _ _ _ => exact hs.put hf

/-- A move on a slot leaves the formula of every other slot that it does not renew. -/
theorem Move.frame (h : Move s slot step s') (hslot : other ≠ slot)
    (hrenewed : s.renewed slot step ≠ some other) : s'.get? other = s.get? other := by
  cases h with
  | stay _ => rfl
  | drop => rw [get?_clear, if_neg hslot]
  | create _ _ _ => rw [get?_put, if_neg hslot, get?_clear, if_neg hslot]
  | bind _ _ _ => rw [get?_put, if_neg hslot]
  | copy hget =>
    have hne : other ≠ _ := fun heq => hrenewed (by rw [renewed, hget, heq]; rfl)
    rw [get?_put, if_neg hne]
  | reparse _ _ _ _ _ htarget =>
    have hne : other ≠ _ := fun heq => hrenewed (by rw [htarget, heq])
    rw [get?_put, if_neg hne]

end Session

end Reckon
