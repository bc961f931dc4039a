import Reckon.Proofs.Program.Parsing
import Reckon.Proofs.Token.Group

/-!
What waits below the groups that are open.

Matching brackets leaves some closing parentheses without an opening one. These are the ones that the
yard ignores: at each token, those ignored so far and those that will be left unmatched are together
as many as before. As long as none is ignored, the yard takes tokens above anything that waits in the
same way as it does alone.

    tokens      2 + 3 ) * ( 4 ) )          unmatched   the first and the last one
    waiting     + ┊ base  ──3──▶  + ┊ base  ──)──▶  ignored only where no group is open in the base
-/

namespace Reckon

/-! ### Unmatched closing parentheses -/

namespace Token

/-- The closing parentheses that find no group open, with `n` groups open before the tokens. -/
def unmatched : Nat → List Token → Nat
  | _, [] => 0
  | n, .opening :: ts => unmatched (n + 1) ts
  | 0, .closing :: ts => unmatched 0 ts + 1
  | n + 1, .closing :: ts => unmatched n ts
  | n, .operator _ :: ts => unmatched n ts
  | n, .operand _ :: ts => unmatched n ts

/-- Each group that is open before the tokens serves one closing parenthesis more. -/
theorem unmatched_add (n m : Nat) (ts : List Token) :
    unmatched (n + m) ts = unmatched n ts - m := by
  induction ts generalizing n m with
  | nil => simp [unmatched]
  | cons token ts ih =>
    cases token with
    | opening =>
      rw [unmatched, unmatched, Nat.add_right_comm]
      exact ih (n + 1) m
    | operator op => exact ih n m
    | operand a => exact ih n m
    | closing =>
      cases n with
      | succ n =>
        rw [Nat.add_right_comm, unmatched, unmatched]
        exact ih n m
      | zero =>
        cases m with
        | zero => rfl
        | succ m =>
          rw [← Nat.add_assoc, unmatched, unmatched, Nat.add_sub_add_right]
          exact ih 0 m

theorem unmatched_replicate_append (n k : Nat) (ts : List Token) :
    unmatched n (List.replicate k .opening ++ ts) = unmatched (n + k) ts := by
  induction k generalizing n with
  | zero => rfl
  | succ k ih =>
    rw [List.replicate_succ, List.cons_append, unmatched, ih, Nat.add_right_comm, Nat.add_assoc]

/-- Nothing is left unmatched where no beginning closes more groups than are open. -/
theorem unmatched_eq_zero_iff {n : Nat} {ts : List Token} : unmatched n ts = 0 ↔
    ∀ done, done <+: ts → done.count .closing ≤ n + done.count .opening := by
  induction ts generalizing n with
  | nil =>
    refine iff_of_true rfl fun done hdone => ?_
    rw [List.prefix_nil.1 hdone]
    exact Nat.zero_le _
  | cons token ts ih =>
    -- the empty beginning closes nothing; the others start with the first token
    rw [Group.forall_prefix_cons]
    have hnil : ([] : List Token).count .closing ≤ n + ([] : List Token).count .opening :=
      Nat.zero_le _
    cases token with
    | opening =>
      rw [unmatched, ih]
      simp [Nat.add_assoc, Nat.add_comm 1]
    | operator op =>
      rw [unmatched, ih]
      simp
    | operand a =>
      rw [unmatched, ih]
      simp
    | closing =>
      cases n with
      | zero =>
        rw [unmatched]
        refine iff_of_false (Nat.succ_ne_zero _) fun ⟨_, hmore⟩ => ?_
        have hfirst := hmore [] List.nil_prefix
        simp at hfirst
      | succ n =>
        rw [unmatched, ih]
        simp [Nat.add_right_comm]

theorem matched_iff {ts : List Token} : Matched ts ↔ unmatched 0 ts = 0 := by
  rw [unmatched_eq_zero_iff, Matched]
  simp only [Nat.zero_add]

end Token

/-! ### Closing groups -/

/-- What waits is operators up to a group or to the bottom. -/
theorem Pending.exists_operators (w : List Pending) : ∃ ops : List Operator,
    w = ops.map .operator ∨ ∃ rest, w = ops.map .operator ++ .group :: rest := by
  induction w with
  | nil => exact ⟨[], .inl rfl⟩
  | cons x w ih =>
    cases x with
    | group => exact ⟨[], .inr ⟨w, rfl⟩⟩
    | operator op =>
      obtain ⟨ops, rfl | ⟨rest, rfl⟩⟩ := ih
      · exact ⟨op :: ops, .inl rfl⟩
      · exact ⟨op :: ops, .inr ⟨rest, rfl⟩⟩

theorem Pending.group_not_mem (ops : List Operator) : .group ∉ ops.map Pending.operator := by
  simp

theorem Pending.count_group_operators (ops : List Operator) :
    (ops.map Pending.operator).count .group = 0 :=
  List.count_eq_zero.2 (group_not_mem ops)

namespace Yard

variable {y y' : Yard} {ops : List Operator} {rest : List Pending}

theorem close_group (h : y.pending = ops.map .operator ++ .group :: rest) :
    y.close = { y.emit ops with pending := rest, afterOperand := true } := by
  have htake : Pending.takeOperators (fun _ => true) y.pending = (ops, .group :: rest) := by
    rw [h]
    exact Pending.takeOperators_eq (fun _ _ => rfl) (by simp)
  rw [close, htake]

theorem close_ignored (h : y.pending = ops.map .operator) :
    y.close = { y.emit ops with pending := [], ignored := y.ignored + 1 } := by
  have htake : Pending.takeOperators (fun _ => true) y.pending = (ops, []) := by
    rw [h, ← List.append_nil (ops.map Pending.operator)]
    exact Pending.takeOperators_eq (fun _ _ => rfl) (by simp)
  rw [close, htake]
  rfl

theorem count_group_shunt (op : Binary) (y : Yard) :
    (y.shunt op).pending.count .group = y.pending.count .group := by
  have happ := Pending.takeOperators_append (fun waiting => op.rank ≤ waiting.rank) y.pending
  rw [shunt]
  generalize Pending.takeOperators (fun waiting => decide (op.rank ≤ waiting.rank)) y.pending =
    taken at happ
  obtain ⟨ops, rest⟩ := taken
  rw [← happ, List.count_append, Pending.count_group_operators]
  simp

/-- What a token makes of the yard that takes it. -/
inductive Takes (y : Yard) : Token → Yard → Prop
  | opening : y.afterOperand = false → Takes y .opening { y with pending := .group :: y.pending }
  | operand (a : Operand) : y.afterOperand = false →
      Takes y (.operand a) { y with emitted := .operand a :: y.emitted, afterOperand := true }
  | binary (op : Binary) : y.afterOperand = true → Takes y (.operator op) (y.shunt op)
  | negate : y.afterOperand = false →
      Takes y (.operator .subtract) { y with pending := .operator .negate :: y.pending }
  | close {ops : List Operator} {rest : List Pending} :
      y.pending = ops.map .operator ++ .group :: rest →
      Takes y .closing { y.emit ops with pending := rest, afterOperand := true }
  | ignore {ops : List Operator} : y.pending = ops.map .operator →
      Takes y .closing { y.emit ops with pending := [], ignored := y.ignored + 1 }

theorem takes_of_step {token : Token} (h : y.step token = .ok y') : y.Takes token y' := by
  cases token with
  | opening =>
    rw [step] at h
    split at h
    · cases h
    · next hafter =>
      obtain rfl := Except.ok.inj h
      exact .opening (Bool.eq_false_iff.2 hafter)
  | operand a =>
    rw [step] at h
    split at h
    · cases h
    · next hafter =>
      obtain rfl := Except.ok.inj h
      exact .operand a (Bool.eq_false_iff.2 hafter)
  | operator op =>
    rw [step] at h
    split at h
    · next hafter =>
      obtain rfl := Except.ok.inj h
      exact .binary op hafter
    · next hafter =>
      split at h
      · next hop =>
        obtain rfl := Except.ok.inj h
        exact hop ▸ .negate (Bool.eq_false_iff.2 hafter)
      · cases h
  | closing =>
    obtain rfl := Except.ok.inj h
    -- a closing token is never refused: it finds its group or is ignored
    obtain ⟨ops, hops | ⟨rest, hops⟩⟩ := Pending.exists_operators y.pending
    · rw [close_ignored hops]
      exact .ignore hops
    · rw [close_group hops]
      exact .close hops

/-- What each of the tokens keeps is kept by a run that takes them all. -/
theorem keeps_of_run {motive : Yard → Prop} {ts : List Token}
    (htakes : ∀ {y y' : Yard}, ∀ token ∈ ts, y.Takes token y' → motive y → motive y')
    (h : y.run ts = (y', none)) (hy : motive y) : motive y' := by
  induction ts generalizing y with
  | nil =>
    obtain ⟨rfl, _⟩ := Prod.mk.inj h
    exact hy
  | cons token ts ih =>
    obtain ⟨y₁, hstep, hrun⟩ := exists_step_of_run h
    have hy₁ := htakes token (List.mem_cons_self ..) (takes_of_step hstep) hy
    exact ih (fun token htoken => htakes token (List.mem_cons_of_mem _ htoken)) hrun hy₁

/-- A token is ignored where it is left unmatched, and only there. -/
theorem exists_ignored_step {token : Token} (h : y.step token = .ok y') (ts : List Token) :
    ∃ n, y'.ignored = y.ignored + n ∧ Token.unmatched (y.pending.count .group) (token :: ts) =
      Token.unmatched (y'.pending.count .group) ts + n := by
  cases takes_of_step h with
  | opening _ => exact ⟨0, rfl, by simp [Token.unmatched]⟩
  | operand a _ => exact ⟨0, rfl, rfl⟩
  | binary op _ => exact ⟨0, rfl, by rw [count_group_shunt]; rfl⟩
  | negate _ => exact ⟨0, rfl, by simp [Token.unmatched]⟩
  | ignore hops =>
    rw [hops, Pending.count_group_operators]
    exact ⟨1, rfl, rfl⟩
  | close hops =>
    rw [hops, List.count_append, Pending.count_group_operators, List.count_cons_self, Nat.zero_add]
    exact ⟨0, rfl, rfl⟩

/-- A run ignores the closing parentheses that are left unmatched, all of them if it comes to its
end. -/
theorem exists_ignored_run (y : Yard) (ts : List Token) :
    ∃ n, (y.run ts).1.ignored = y.ignored + n ∧
      n ≤ Token.unmatched (y.pending.count .group) ts ∧
      ((y.run ts).2 = none → n = Token.unmatched (y.pending.count .group) ts) := by
  induction ts generalizing y with
  | nil => exact ⟨0, rfl, Nat.le_refl 0, fun _ => rfl⟩
  | cons token ts ih =>
    rw [run]
    cases hstep : y.step token with
    | error e => exact ⟨0, rfl, Nat.zero_le _, fun hnone => by cases hnone⟩
    | ok y₁ =>
      obtain ⟨n, hignored, hunmatched⟩ := exists_ignored_step hstep ts
      obtain ⟨m, hrun, hle, hend⟩ := ih y₁
      refine ⟨n + m, ?_, ?_, fun hnone => ?_⟩
      · show (y₁.run ts).1.ignored = _
        rw [hrun, hignored, Nat.add_assoc]
      · rw [hunmatched, Nat.add_comm]
        exact Nat.add_le_add_right hle n
      · rw [hunmatched, hend hnone, Nat.add_comm]

/-! ### On top of another yard -/

/-- The yard on top of another one: what that one emitted and what waits there lies below. -/
def above (y base : Yard) : Yard :=
  { y with
    emitted := y.emitted ++ base.emitted
    pending := y.pending ++ base.pending
    ignored := base.ignored }

variable {base : Yard}

/-- No operator is taken out of a base that starts with a group. -/
theorem takeOperators_above (hbase : Pending.Below 0 base.pending) (cond : Operator → Bool)
    (w : List Pending) : Pending.takeOperators cond (w ++ base.pending) =
      ((Pending.takeOperators cond w).1, (Pending.takeOperators cond w).2 ++ base.pending) := by
  induction w with
  | nil =>
    match base.pending, hbase with
    | [], _ => rfl
    | .group :: _, _ => rfl
    | .operator op :: _, hbase => exact absurd hbase (by simp [Pending.Below])
  | cons x w ih =>
    cases x with
    | group => rfl
    | operator op =>
      rw [List.cons_append, Pending.takeOperators, Pending.takeOperators, ih]
      split <;> rfl

theorem shunt_above (hbase : Pending.Below 0 base.pending) (op : Binary) :
    (y.above base).shunt op = (y.shunt op).above base := by
  have htake := takeOperators_above hbase (fun waiting => op.rank ≤ waiting.rank) y.pending
  rw [shunt, shunt]
  simp [above, emit, htake]

/-- A token does the same on top of a base, unless it closes a group there. -/
theorem step_above {token : Token} (hbase : Pending.Below 0 base.pending)
    (hclosing : token = .closing → .group ∈ y.pending) :
    (y.above base).step token = (y.step token).map (·.above base) := by
  have hafter : (y.above base).afterOperand = y.afterOperand := rfl
  cases token with
  | opening =>
    rw [step, step, hafter]
    cases y.afterOperand <;> rfl
  | operand a =>
    rw [step, step, hafter]
    cases y.afterOperand <;> rfl
  | operator op =>
    rw [step, step, hafter, shunt_above hbase]
    cases y.afterOperand with
    | true => rfl
    | false => cases op <;> rfl
  | closing =>
    obtain ⟨ops, hops | ⟨rest, hops⟩⟩ := Pending.exists_operators y.pending
    · exact absurd (hops ▸ hclosing rfl) (Pending.group_not_mem ops)
    · have habove : (y.above base).pending =
          ops.map .operator ++ .group :: (rest ++ base.pending) := by
        simp [above, hops]
      rw [step, step, close_group hops, close_group habove]
      simp [Except.map, above, emit]

/-- Tokens that close no group of the base do the same on top of it. -/
theorem run_above (hbase : Pending.Below 0 base.pending) {ts : List Token}
    (h : Token.unmatched (y.pending.count .group) ts = 0) :
    (y.above base).run ts = ((y.run ts).1.above base, (y.run ts).2) := by
  induction ts generalizing y with
  | nil => rfl
  | cons token ts ih =>
    have hclosing : token = .closing → .group ∈ y.pending := by
      rintro rfl
      rw [← List.count_pos_iff]
      by_contra hnone
      rw [Nat.eq_zero_of_not_pos hnone] at h
      cases h
    rw [run, run, step_above hbase hclosing]
    cases hstep : y.step token with
    | error e => rfl
    | ok y₁ =>
      obtain ⟨m, _, hunmatched⟩ := exists_ignored_step hstep ts
      exact ih (by omega)

end Yard

namespace Parsing

theorem ignored_le (l : Lexing) : (ofLexing l).ignored ≤ Token.unmatched 0 l.tokens := by
  obtain ⟨n, hignored, hle, _⟩ := Yard.exists_ignored_run Yard.empty l.tokens
  show (Yard.empty.run l.tokens).1.ignored ≤ _
  rw [hignored]
  exact (Nat.zero_add n).symm ▸ hle

theorem ignored_eq_of_ok {l : Lexing} {p : Program} (h : (ofLexing l).result = .ok p) :
    (ofLexing l).ignored = Token.unmatched 0 l.tokens := by
  obtain ⟨_, y, hrun, _⟩ := ofLexing_result_eq_ok.1 h
  obtain ⟨n, hignored, _, hend⟩ := Yard.exists_ignored_run Yard.empty l.tokens
  show (Yard.empty.run l.tokens).1.ignored = _
  rw [hignored, hend (by rw [hrun])]
  exact Nat.zero_add _

end Parsing

end Reckon
