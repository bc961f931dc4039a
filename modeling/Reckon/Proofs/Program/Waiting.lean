import Reckon.Proofs.Program.Grammar

/-!
What waits in the yard is the left edge of a draft.

Each operator that waits has its left operand behind it, complete and read; each mark of a group
stands for an opening parenthesis. Operators that go out wrap the operand in hand, the top one first,
so the yard never holds anything but the open half of a draft and the draft read last.

    tokens    2 + ( - 3 * │ 4          waiting   2 + ┊ ( ┊ 3 * ┊         in hand   4
                                                       - ┘
    binary k  ──▶  everything of rank k or more wraps the draft in hand
    closing   ──▶  everything down to the group does

Both directions are here: every draft runs through the yard, and whatever runs through it is one.
-/

namespace Reckon

theorem Binary.rank_le (op : Binary) : op.rank ≤ 3 := by
  cases op <;> decide

namespace Pending

/-- Nothing on the top binds as tightly as rank `k`; at the rank of a prefix anything may wait. -/
def Below (k : Nat) : List Pending → Prop
  | .operator op :: _ => op.rank < k ∨ 4 ≤ k
  | _ => True

theorem below_four : ∀ w : List Pending, Below 4 w
  | [] => trivial
  | .group :: _ => trivial
  | .operator _ :: _ => .inr (Nat.le_refl 4)

theorem Below.mono {k k' : Nat} {w : List Pending} (h : Below k w) (hk : k ≤ k') : Below k' w := by
  match w, h with
  | [], _ => exact trivial
  | .group :: _, _ => exact trivial
  | .operator op :: _, h =>
    rcases h with h | h
    · exact .inl (Nat.lt_of_lt_of_le h hk)
    · exact .inr (Nat.le_trans h hk)

theorem takeOperators_append (cond : Operator → Bool) (w : List Pending) :
    (takeOperators cond w).1.map .operator ++ (takeOperators cond w).2 = w := by
  induction w with
  | nil => rfl
  | cons x w ih =>
    cases x with
    | group => rfl
    | operator op =>
      rw [takeOperators]
      by_cases hop : cond op
      · rw [if_pos hop]
        exact congrArg (Pending.operator op :: ·) ih
      · rw [if_neg hop]
        rfl

theorem takeOperators_eq {cond : Operator → Bool} {ops : List Operator} {w : List Pending}
    (hops : ∀ op ∈ ops, cond op) (hw : ∀ op rest, w = .operator op :: rest → cond op = false) :
    takeOperators cond (ops.map .operator ++ w) = (ops, w) := by
  induction ops with
  | nil =>
    match w, hw with
    | [], _ => rfl
    | .group :: _, _ => rfl
    | .operator op :: rest, hw => simp [takeOperators, hw op rest rfl]
  | cons op ops ih =>
    have hop := hops op (List.mem_cons_self ..)
    have hrest := ih fun o ho => hops o (List.mem_cons_of_mem _ ho)
    rw [List.map_cons, List.cons_append, takeOperators, if_pos hop, hrest]

theorem takeOperators_head (cond : Operator → Bool) {w rest : List Pending} {op : Operator}
    (h : (takeOperators cond w).2 = .operator op :: rest) : cond op = false := by
  induction w with
  | nil => simp [takeOperators] at h
  | cons x w ih =>
    cases x with
    | group => simp [takeOperators] at h
    | operator o =>
      rw [takeOperators] at h
      by_cases ho : cond o
      · rw [if_pos ho] at h
        exact ih h
      · rw [if_neg ho] at h
        simp only [List.cons.injEq, operator.injEq] at h
        rw [← h.1]
        simpa using ho

end Pending

/-! ### Every draft runs through the yard -/

namespace Yard

/-- The yard after a draft: `q` was emitted on the way and `ops` still wait. -/
def passed (y : Yard) (b : Bool) (q : Program) (ops : List Operator) : Yard :=
  { y with
    emitted := q.reverse ++ y.emitted
    pending := ops.map .operator ++ y.pending
    afterOperand := b }

theorem run_cons_ok {y y' : Yard} {token : Token} {rest : List Token} (h : y.step token = .ok y') :
    y.run (token :: rest) = y'.run rest := by
  rw [run, h]

theorem exists_step_of_run {y y' : Yard} {token : Token} {rest : List Token}
    (h : y.run (token :: rest) = (y', none)) :
    ∃ y₁, y.step token = .ok y₁ ∧ y₁.run rest = (y', none) := by
  rw [run] at h
  cases hstep : y.step token with
  | error e =>
    rw [hstep] at h
    cases h
  | ok y₁ =>
    rw [hstep] at h
    exact ⟨y₁, rfl, h⟩

theorem exists_run_of_append {y y' : Yard} {ts us : List Token}
    (h : y.run (ts ++ us) = (y', none)) :
    ∃ y₁, y.run ts = (y₁, none) ∧ y₁.run us = (y', none) := by
  induction ts generalizing y with
  | nil => exact ⟨y, rfl, h⟩
  | cons token ts ih =>
    obtain ⟨y₁, hstep, hrest⟩ := exists_step_of_run h
    obtain ⟨y₂, hts, hus⟩ := ih hrest
    exact ⟨y₂, by rw [run_cons_ok hstep, hts], hus⟩

theorem close_passed {y : Yard} {b : Bool} {q : Program} {ops : List Operator} :
    ({ y with pending := .group :: y.pending }.passed b q ops).close =
      y.passed true (q ++ ops.map .operator) [] := by
  have htake : Pending.takeOperators (fun _ => true)
      (ops.map Pending.operator ++ Pending.group :: y.pending) = (ops, .group :: y.pending) :=
    Pending.takeOperators_eq (fun _ _ => rfl) (by simp)
  simp [close, passed, htake, emit]

/-- The operators that waited go before one that binds no tighter. -/
theorem shunt_passed {y : Yard} {b : Bool} {q : Program} {ops : List Operator} {op : Binary}
    (hops : ∀ o ∈ ops, op.rank ≤ o.rank) (hy : Pending.Below op.rank y.pending) :
    (y.passed b q ops).shunt op =
      { y with pending := .operator (.binary op) :: y.pending, afterOperand := false }.passed false
        (q ++ ops.map Instruction.operator) [] := by
  have htake : Pending.takeOperators (fun waiting => op.rank ≤ waiting.rank)
      (ops.map Pending.operator ++ y.pending) = (ops, y.pending) := by
    refine Pending.takeOperators_eq (fun o ho => by simpa using hops o ho) fun o rest ho => ?_
    rw [ho] at hy
    have hlow := op.rank_le
    rcases hy with hy | hy
    · simpa using hy
    · omega
  simp [shunt, passed, htake, emit]

theorem run_draft {b : Bool} {k g : Nat} {p : Program} {ts : List Token} (h : Draft b k g p ts)
    (y : Yard) (hy : y.afterOperand = false) (hb : Pending.Below k y.pending) (rest : List Token) :
    ∃ q ops, p = q ++ ops.map .operator ∧ (∀ op ∈ ops, k ≤ op.rank) ∧
      y.run (ts ++ rest) = (y.passed b q ops).run rest := by
  induction h generalizing y rest with
  | gap =>
    refine ⟨[], [], rfl, by simp, ?_⟩
    rw [List.nil_append, passed, ← hy]
    rfl
  | operand a =>
    refine ⟨[.operand a], [], rfl, by simp, ?_⟩
    have hstep : y.step (.operand a) = .ok (y.passed true [.operand a] []) := by
      simp [step, hy, passed]
    rw [List.singleton_append, run_cons_ok hstep]
  | @group b g p ts _ ih =>
    obtain ⟨q, ops, rfl, _, hrun⟩ :=
      ih { y with pending := .group :: y.pending } hy trivial (.closing :: rest)
    refine ⟨q ++ ops.map .operator, [], by simp, by simp, ?_⟩
    have hopen : y.step .opening = .ok { y with pending := .group :: y.pending } := by
      simp [step, hy]
    have hclose : ({ y with pending := .group :: y.pending }.passed b q ops).step .closing =
        .ok (y.passed true (q ++ ops.map .operator) []) := by
      rw [step, close_passed]
    rw [List.cons_append, List.cons_append, List.append_assoc, List.singleton_append,
      run_cons_ok hopen, hrun, run_cons_ok hclose]
  | negate _ ih =>
    obtain ⟨q, ops, rfl, hops, hrun⟩ :=
      ih { y with pending := .operator .negate :: y.pending } hy (.inr (Nat.le_refl 4)) rest
    refine ⟨q, ops ++ [.negate], by simp, ?_, ?_⟩
    · intro op hop
      rcases List.mem_append.1 hop with hop | hop
      · exact hops op hop
      · rw [List.mem_singleton.1 hop]
        exact Nat.le_refl 4
    · have hstep : y.step (.operator .subtract) =
          .ok { y with pending := .operator .negate :: y.pending } := by
        simp [step, hy]
      rw [List.cons_append, run_cons_ok hstep, hrun]
      simp [passed]
  | loosen _ ih =>
    obtain ⟨q, ops, rfl, hops, hrun⟩ := ih y hy (hb.mono (Nat.le_succ _)) rest
    exact ⟨q, ops, rfl, fun op hop => Nat.le_of_succ_le (hops op hop), hrun⟩
  | @chain b k g₁ g₂ op p₁ p₂ ts₁ ts₂ hop _ _ ih₁ ih₂ =>
    obtain ⟨q₁, ops₁, rfl, hops₁, hrun₁⟩ := ih₁ y hy hb (.operator op :: (ts₂ ++ rest))
    subst hop
    -- the second operand is read above its operator, which waits for it
    have hshunt := shunt_passed (b := true) (q := q₁) hops₁ hb
    obtain ⟨q₂, ops₂, rfl, hops₂, hrun₂⟩ :=
      ih₂ ((y.passed true q₁ ops₁).shunt op) (by rw [hshunt]; rfl)
        (by rw [hshunt]; exact .inl (Nat.lt_succ_self _)) rest
    refine ⟨q₁ ++ ops₁.map .operator ++ q₂, ops₂ ++ [.binary op], by simp, ?_, ?_⟩
    · intro o ho
      rcases List.mem_append.1 ho with ho | ho
      · exact Nat.le_of_succ_le (hops₂ o ho)
      · rw [List.mem_singleton.1 ho]
        exact Nat.le_refl _
    · have hstep : (y.passed true q₁ ops₁).step (.operator op) =
          .ok ((y.passed true q₁ ops₁).shunt op) := by
        simp [step, passed]
      rw [List.append_assoc, List.cons_append, hrun₁, run_cons_ok hstep, hrun₂, hshunt]
      simp [passed]

end Yard

/-! ### Whatever runs through the yard is a draft -/

/-- The open half of a draft: what waits, what was emitted, and the tokens. -/
inductive Spine : List Pending → Program → List Token → Prop
  | bottom : Spine [] [] []
  | group {w : List Pending} {p : Program} {ts : List Token} :
      Spine w p ts → Spine (.group :: w) p (ts ++ [.opening])
  | negate {w : List Pending} {p : Program} {ts : List Token} :
      Spine w p ts → Spine (.operator .negate :: w) p (ts ++ [.operator .subtract])
  | binary {w : List Pending} {g : Nat} {p p' : Program} {ts ts' : List Token} {op : Binary} :
      Spine w p ts → Pending.Below op.rank w → Draft true op.rank g p' ts' →
      Spine (.operator (.binary op) :: w) (p ++ p') (ts ++ ts' ++ [.operator op])

/-- An open half with a draft of rank `r` in hand: what both emit, and their tokens. -/
def InHand (w : List Pending) (b : Bool) (r : Nat) (p : Program) (ts : List Token) : Prop :=
  ∃ p₁ ts₁ g p₂ ts₂, Spine w p₁ ts₁ ∧ Draft b r g p₂ ts₂ ∧ p₁ ++ p₂ = p ∧ ts₁ ++ ts₂ = ts

/-- The groups that wait are those that were opened and not closed. -/
theorem Spine.count_group {w : List Pending} {p : Program} {ts : List Token} (h : Spine w p ts) :
    w.count .group + ts.count .closing = ts.count .opening := by
  induction h with
  | bottom => rfl
  | group _ ih =>
    simp only [List.count_append, List.count_cons_self]
    simp
    omega
  | negate _ ih => simpa using ih
  | binary _ _ hd ih =>
    have := hd.count_closing
    simp
    omega

/-- Operators of rank `r` or more go and wrap the draft in hand. -/
theorem Spine.wrap {r : Nat} {cond : Operator → Bool} (hcond : ∀ op, cond op = decide (r ≤ op.rank))
    {w : List Pending} {p : Program} {ts : List Token} (h : Spine w p ts)
    {b : Bool} {k g : Nat} {p' : Program} {ts' : List Token} (hd : Draft b k g p' ts')
    (hk : r ≤ k) (hr : r ≤ 4) (hw : Pending.Below k w) :
    InHand (Pending.takeOperators cond w).2 b r
      (p ++ p' ++ (Pending.takeOperators cond w).1.map .operator) (ts ++ ts') := by
  induction h generalizing k g p' ts' with
  | bottom =>
    exact ⟨_, _, _, _, _, .bottom, hd.antitone hk, by simp [Pending.takeOperators], rfl⟩
  | group h _ =>
    exact ⟨_, _, _, _, _, .group h, hd.antitone hk, by simp [Pending.takeOperators], rfl⟩
  | @negate w p ts _ ih =>
    -- a prefix takes only what binds as tightly as itself
    have hk4 : 4 ≤ k := by
      rcases hw with hw | hw
      · exact Nat.le_of_lt hw
      · exact hw
    have hop : cond .negate = true := by
      rw [hcond]
      exact decide_eq_true hr
    have hbelow : Pending.Below 4 w := Pending.below_four w
    obtain ⟨p₁, ts₁, g₂, p₂, ts₂, hs, hd₂, hp, hts⟩ := ih (hd.antitone hk4).negate hr hbelow
    rw [Pending.takeOperators, if_pos hop]
    refine ⟨p₁, ts₁, g₂, p₂, ts₂, hs, hd₂, ?_, ?_⟩
    · rw [hp]
      simp
    · rw [hts]
      simp
  | @binary w g₀ p p₀ ts ts₀ op h hbelow hd₀ ih =>
    rw [Pending.takeOperators]
    by_cases hop : cond (.binary op)
    · have hrank : op.rank + 1 ≤ k := by
        have hlow := op.rank_le
        rcases hw with hw | hw
        · exact hw
        · omega
      have hr' : r ≤ op.rank := by
        rw [hcond] at hop
        exact of_decide_eq_true hop
      obtain ⟨p₁, ts₁, g₂, p₂, ts₂, hs, hd₂, hp, hts⟩ :=
        ih (.chain rfl hd₀ (hd.antitone hrank)) hr' hbelow
      rw [if_pos hop]
      refine ⟨p₁, ts₁, g₂, p₂, ts₂, hs, hd₂, ?_, ?_⟩
      · rw [hp]
        simp
      · rw [hts]
        simp
    · rw [if_neg hop]
      exact ⟨_, _, _, _, _, .binary h hbelow hd₀, hd.antitone hk, by simp, rfl⟩

theorem InHand.wrap {r : Nat} (cond : Operator → Bool)
    (hcond : ∀ op, cond op = decide (r ≤ op.rank)) (hr : r ≤ 4) {w : List Pending} {b : Bool}
    {p : Program} {ts : List Token} (h : InHand w b 4 p ts) :
    InHand (Pending.takeOperators cond w).2 b r
      (p ++ (Pending.takeOperators cond w).1.map .operator) ts := by
  obtain ⟨p₁, ts₁, g, p₂, ts₂, hs, hd, rfl, rfl⟩ := h
  exact hs.wrap hcond hd hr hr (Pending.below_four w)

theorem InHand.group {w : List Pending} {b : Bool} {p : Program} {ts : List Token}
    (h : InHand (.group :: w) b 0 p ts) : InHand w true 4 p (ts ++ [.closing]) := by
  obtain ⟨p₁, ts₁, g, p₂, ts₂, hs, hd, rfl, rfl⟩ := h
  cases hs with
  | group hs => exact ⟨_, _, g, _, _, hs, hd.group, rfl, by simp⟩

theorem InHand.binary {op : Binary} {w : List Pending} {p : Program} {ts : List Token}
    (h : InHand w true op.rank p ts) (hw : Pending.Below op.rank w) :
    Spine (.operator (.binary op) :: w) p (ts ++ [.operator op]) := by
  obtain ⟨p₁, ts₁, g, p₂, ts₂, hs, hd, rfl, rfl⟩ := h
  exact .binary hs hw hd

/-- The state of the yard after some tokens, no closing parenthesis ignored: the open half of a draft,
and in hand the operand that was read last, if one was. -/
inductive Yard.Holds : Yard → List Token → Prop
  | before {w : List Pending} {p : Program} {ts : List Token} :
      Spine w p ts → Holds ⟨p.reverse, w, false, 0⟩ ts
  | after {w : List Pending} {p : Program} {ts : List Token} :
      InHand w true 4 p ts → Holds ⟨p.reverse, w, true, 0⟩ ts

namespace Yard.Holds

variable {y y' : Yard} {ts : List Token}

theorem inHand (h : y.Holds ts) :
    InHand y.pending y.afterOperand 4 y.emitted.reverse ts := by
  cases h with
  | before h => exact ⟨_, _, _, _, _, h, .gap, by simp, by simp⟩
  | after h => simpa using h

theorem ignored_eq (h : y.Holds ts) : y.ignored = 0 := by
  cases h <;> rfl

theorem count_group (h : y.Holds ts) :
    y.pending.count .group + ts.count .closing = ts.count .opening := by
  obtain ⟨p₁, ts₁, g, p₂, ts₂, hs, hd, -, rfl⟩ := h.inHand
  have := hs.count_group
  have := hd.count_closing
  simp only [List.count_append]
  omega

/-- A closing parenthesis whose group waits completes an operand. -/
theorem close (h : y.Holds ts) (hg : .group ∈ y.pending) : y.close.Holds (ts ++ [.closing]) := by
  have hwrap := h.inHand.wrap (fun _ => true) (fun _ => rfl) (Nat.zero_le 4)
  have happ := Pending.takeOperators_append (fun _ => true) y.pending
  have hhead : ∀ op rest, (Pending.takeOperators (fun _ => true) y.pending).2 =
      .operator op :: rest → true = false := fun _ _ => Pending.takeOperators_head (fun _ => true)
  have hignored := h.ignored_eq
  rw [Yard.close]
  generalize Pending.takeOperators (fun _ => true) y.pending = taken at hwrap happ hhead
  obtain ⟨ops, rest⟩ := taken
  match rest, hwrap, happ, hhead with
  | [], _, happ, _ =>
    rw [← happ] at hg
    simp at hg
  | .operator op :: rest, _, _, hhead => exact absurd (hhead op rest rfl) (by simp)
  | .group :: w, hwrap, _, _ =>
    have hafter := Holds.after hwrap.group
    simpa [Yard.emit, hignored] using hafter

/-- A binary operator waits for its right operand, its left one complete. -/
theorem shunt {op : Binary} (h : y.Holds ts) (ha : y.afterOperand = true) :
    (y.shunt op).Holds (ts ++ [.operator op]) := by
  have hrank : op.rank ≤ 4 := Nat.le_succ_of_le op.rank_le
  have hwrap := h.inHand.wrap (fun waiting => op.rank ≤ waiting.rank) (fun _ => rfl) hrank
  have hhead : ∀ o rest, (Pending.takeOperators (fun waiting => op.rank ≤ waiting.rank)
      y.pending).2 = .operator o :: rest → decide (op.rank ≤ o.rank) = false :=
    fun _ _ => Pending.takeOperators_head _
  have hignored := h.ignored_eq
  rw [Yard.shunt]
  rw [ha] at hwrap
  generalize Pending.takeOperators (fun waiting => decide (op.rank ≤ waiting.rank)) y.pending =
    taken at hwrap hhead
  obtain ⟨ops, rest⟩ := taken
  have hbelow : Pending.Below op.rank rest := by
    match rest, hhead with
    | [], _ => exact trivial
    | .group :: _, _ => exact trivial
    | .operator o :: rest, hhead => exact .inl (by simpa using hhead o rest rfl)
  have hbefore := Holds.before (hwrap.binary hbelow)
  simpa [Yard.emit, hignored] using hbefore

/-- Every token keeps the state of the yard, if the group that it closes waits. -/
theorem step {token : Token} (h : y.Holds ts) (hstep : y.step token = .ok y')
    (hg : token = .closing → .group ∈ y.pending) : y'.Holds (ts ++ [token]) := by
  cases token with
  | operand a =>
    cases h with
    | before h =>
      obtain rfl := Except.ok.inj hstep
      have hafter : InHand _ true 4 _ (ts ++ [.operand a]) :=
        ⟨_, _, _, _, _, h, .operand a, rfl, rfl⟩
      simpa using Holds.after hafter
    | after h => simp [Yard.step] at hstep
  | operator op =>
    cases h with
    | before h =>
      by_cases hop : op = .subtract
      · subst hop
        obtain rfl := Except.ok.inj hstep
        exact .before h.negate
      · simp [Yard.step, hop] at hstep
    | after h =>
      obtain rfl := Except.ok.inj hstep
      exact (Holds.after h).shunt rfl
  | opening =>
    cases h with
    | before h =>
      obtain rfl := Except.ok.inj hstep
      exact .before h.group
    | after h => simp [Yard.step] at hstep
  | closing =>
    obtain rfl := Except.ok.inj hstep
    exact h.close (hg rfl)

/-- A run over tokens that close only what they open keeps the state of the yard. -/
theorem run {rest : List Token} (h : y.Holds ts) (hm : Token.Matched (ts ++ rest))
    (hrun : y.run rest = (y', none)) : y'.Holds (ts ++ rest) := by
  induction rest generalizing y ts with
  | nil =>
    obtain rfl : y = y' := (Prod.mk.inj hrun).1
    simpa using h
  | cons token rest ih =>
    obtain ⟨y₁, hstep, hrest⟩ := exists_step_of_run hrun
    rw [List.append_cons] at hm ⊢
    refine ih (h.step hstep fun hclosing => ?_) hm hrest
    subst hclosing
    have hcount := h.count_group
    have hprefix := hm (ts ++ [.closing]) (List.prefix_append _ _)
    rw [List.count_append, List.count_append] at hprefix
    simp only [List.count_singleton_self] at hprefix
    refine List.count_pos_iff.1 ?_
    have hnone : List.count Token.opening [Token.closing] = 0 := rfl
    omega

end Yard.Holds

end Reckon
